import Memoir.Machine
import Memoir.Program
import Memoir.References

/-! What a step of either machine does: operands under a renaming of references,
the effect of an instruction, and runs that follow one another. -/
namespace Memoir

variable {ρ σ μ : Type}

namespace RtValue

def map (rename : ρ → σ) : RtValue ρ → RtValue σ
  | .word w => .word w
  | .reference r => .reference (rename r)
  | .pair x y => .pair (rename x) (rename y)
  | .endOfSequence => .endOfSequence

def references : RtValue ρ → List ρ
  | .reference r => [r]
  | .pair x y => [x,y]
  | .word _ | .endOfSequence => []

theorem map_congr (first second : ρ → σ) (value : RtValue ρ)
    (agree : ∀ reference ∈ value.references, first reference = second reference) :
    value.map first = value.map second := by
  cases value <;> simp_all [map,references]

end RtValue

theorem rtValue_map (rename : ρ → σ) (datum : Datum ρ) :
    rtValue (datum.map rename) = (rtValue datum).map rename := by
  cases datum <;> rfl

theorem rtValue_references (datum : Datum ρ) : (rtValue datum).references = datum.references := by
  cases datum <;> rfl

theorem mapM_map {α β γ δ : Type} {f : α → Option β} {g : γ → Option δ} {h : α → γ} {k : β → δ}
    {xs : List α} {ys : List β} (each : ∀ a ∈ xs, ∀ b, f a = some b → g (h a) = some (k b))
    (found : xs.mapM f = some ys) : (xs.map h).mapM g = some (ys.map k) := by
  induction xs generalizing ys with
  | nil =>
    obtain rfl := Option.some.inj found
    rfl
  | cons x xs ih =>
    simp only [List.mapM_cons,Option.pure_def,Option.bind_eq_bind,Option.bind_eq_some_iff,
      Option.some.injEq] at found
    obtain ⟨y,head,ys,tail,rfl⟩ := found
    have head' := each x List.mem_cons_self y head
    have tail' := ih (fun a member => each a (List.mem_cons_of_mem _ member)) tail
    simp [head',tail']

theorem mapM_singleton {α β : Type} {f : α → Option β} {x : α} {ys : List β}
    (found : [x].mapM f = some ys) : ∃ y, f x = some y ∧ ys = [y] := by
  simp only [List.mapM_cons,List.mapM_nil,Option.pure_def,Option.bind_eq_bind,Option.bind_some,
    Option.bind_eq_some_iff,Option.some.injEq] at found
  obtain ⟨y,is,rfl⟩ := found
  exact ⟨y,is,rfl⟩

theorem mapM_pair {α β : Type} {f : α → Option β} {x y : α} {zs : List β}
    (found : [x,y].mapM f = some zs) : ∃ z z', f x = some z ∧ f y = some z' ∧ zs = [z,z'] := by
  rw [List.mapM_cons] at found
  simp only [Option.pure_def,Option.bind_eq_bind,Option.bind_eq_some_iff,Option.some.injEq] at found
  obtain ⟨z,is,zs',rest,rfl⟩ := found
  obtain ⟨z',is',rfl⟩ := mapM_singleton rest
  exact ⟨z,z',is,is',rfl⟩

theorem mem_mapM {α β : Type} {f : α → Option β} {xs : List α} {ys : List β}
    (found : xs.mapM f = some ys) {y : β} (member : y ∈ ys) : ∃ x ∈ xs, f x = some y := by
  induction xs generalizing ys with
  | nil =>
    obtain rfl := Option.some.inj found
    exact absurd member List.not_mem_nil
  | cons x xs ih =>
    simp only [List.mapM_cons,Option.pure_def,Option.bind_eq_bind,Option.bind_eq_some_iff,
      Option.some.injEq] at found
    obtain ⟨z,head,zs,tail,rfl⟩ := found
    rcases List.mem_cons.mp member with rfl | member
    · exact ⟨x,List.mem_cons_self,head⟩
    · obtain ⟨a,inXs,is⟩ := ih tail member
      exact ⟨a,List.mem_cons_of_mem _ inXs,is⟩

section
variable {rename : ρ → σ} {env : Env ρ} {env' : Env σ}

theorem word_map {s : Scalar}
    (agree : ∀ n, s = .name n → env' n = (env n).map (RtValue.map rename)) :
    word env' s = word env s := by
  cases s with
  | constant w => rfl
  | name n =>
    simp only [word,agree n rfl]
    rcases env n with _ | _ | _ | _ | _ <;> rfl

theorem index_map {s : Scalar}
    (agree : ∀ n, s = .name n → env' n = (env n).map (RtValue.map rename)) :
    index env' s = index env s := by
  cases s with
  | constant w => rfl
  | name n =>
    simp only [index,agree n rfl]
    rcases env n with _ | _ | _ | _ | _ <;> rfl

theorem index_word {s : Scalar} {w : Word} (found : word env s = some w) :
    index env s = some (some w) := by
  cases s with
  | constant v => exact congrArg (some ∘ some) (Option.some.inj found)
  | name n =>
    simp only [word,index] at found ⊢
    rcases at_ : env n with _ | _ | _ | _ | _ <;> simp_all

theorem reference_map {value value' : Value}
    (constant : ∀ n, value = .name n → ∃ n', value' = .name n' ∧
      env' n' = (env n).map (RtValue.map rename)) {r : ρ}
    (found : reference env value = some r) : reference env' value' = some (rename r) := by
  cases value with
  | constant k => exact absurd found (by simp [reference])
  | null => exact absurd found (by simp [reference])
  | name n =>
    obtain ⟨n',rfl,agree⟩ := constant n rfl
    simp only [reference,agree] at found ⊢
    rcases at_ : env n with _ | _ | _ | _ | _ <;> simp_all [RtValue.map]

theorem reference_env {value : Value} {r : ρ} (found : reference env value = some r) :
    ∃ n, value = .name n ∧ env n = some (.reference r) := by
  cases value with
  | constant k => exact absurd found (by simp [reference])
  | null => exact absurd found (by simp [reference])
  | name n =>
    refine ⟨n,rfl,?_⟩
    simp only [reference] at found
    rcases at_ : env n with _ | _ | _ | _ | _ <;> simp_all

theorem datum_map {element : Element} {d : Datum ρ}
    (scalar : ∀ n, element = .scalar (.name n) → env' n = (env n).map (RtValue.map rename))
    (collection : ∀ n, element = .collection (.name n) →
      env' n = (env n).map (RtValue.map rename))
    (found : datum env element = some d) : datum env' element = some (d.map rename) := by
  cases element with
  | scalar s =>
    simp only [datum,Option.map_eq_some_iff] at found
    obtain ⟨w,evaluated,rfl⟩ := found
    have agree : ∀ n, s = .name n → env' n = (env n).map (RtValue.map rename) :=
      fun n is => scalar n (congrArg _ is)
    simp [datum,word_map agree,evaluated,Datum.map]
  | collection v =>
    simp only [datum,Option.map_eq_some_iff] at found
    obtain ⟨r,evaluated,rfl⟩ := found
    have agree : ∀ n, v = .name n → ∃ n', v = .name n' ∧ env' n' = (env n).map (RtValue.map rename) :=
      fun n is => ⟨n,is,collection n (congrArg _ is)⟩
    simp [datum,reference_map agree evaluated,Datum.map]

theorem words_map {scalars : List Scalar}
    (agree : ∀ n, .name n ∈ scalars → env' n = (env n).map (RtValue.map rename)) :
    scalars.mapM (word env') = scalars.mapM (word env) := by
  induction scalars with
  | nil => rfl
  | cons s rest ih =>
    have first : ∀ n, s = .name n → env' n = (env n).map (RtValue.map rename) :=
      fun n is => agree n (is ▸ List.mem_cons_self)
    simp only [List.mapM_cons,word_map first,ih fun n member => agree n (List.mem_cons_of_mem _ member)]

/-- The operation depends on the scalars and the element only. -/
theorem Inst.operation_map {inst : Inst} {reply : Reply} {operation : Operation ρ}
    (plain : inst.isBackend = false)
    (scalars : ∀ n, .name n ∈ inst.scalars → env' n = (env n).map (RtValue.map rename))
    (element : ∀ e d, inst.element = some e → datum env e = some d →
      datum env' e = some (d.map rename))
    (found : inst.operation env reply = some operation) :
    inst.operation env' reply = some (operation.map rename) := by
  have word_same : ∀ s ∈ inst.scalars, word env' s = word env s :=
    fun s member => word_map fun n is => scalars n (is ▸ member)
  have index_same : ∀ s ∈ inst.scalars, index env' s = index env s :=
    fun s member => index_map fun n is => scalars n (is ▸ member)
  cases inst
  case call =>
    have words := words_map scalars
    simp only [Inst.operation,Inst.scalars,Option.pure_def,Option.bind_eq_bind,
      Option.bind_eq_some_iff,Option.some.injEq] at found words ⊢
    obtain ⟨ws,evaluated,rfl⟩ := found
    exact ⟨ws,words.trans evaluated,rfl⟩
  case backend => exact absurd plain (by simp [Inst.isBackend])
  all_goals
    simp only [Inst.operation,Inst.scalars,Inst.element,Option.pure_def,Option.bind_eq_bind,
      Option.bind_eq_some_iff,Option.some.injEq,List.mem_cons,List.not_mem_nil,or_false,
      forall_eq_or_imp,forall_eq,reduceCtorEq,false_implies,implies_true]
      at found word_same index_same element ⊢
  case mutSeqAppend | size | assocKeys | assocAlloc => exact congrArg (Operation.map rename) found
  case mutIndexWrite | mutAssocWrite | mutSeqInsert | indexWrite | assocWrite =>
    obtain ⟨w,index,d,evaluated,rfl⟩ := found
    exact ⟨w,word_same.trans index,d.map rename,element _ d rfl evaluated,rfl⟩
  case seqInsert =>
    obtain ⟨w,index,d,evaluated,rfl⟩ := found
    exact ⟨w,index_same.trans index,d.map rename,element _ d rfl evaluated,rfl⟩
  case mutSeqInsertSeq | mutAssocInsert | mutAssocRemove | assocInsert | assocRemove | indexRead |
      assocRead | indexGet | assocGet | assocHas | seqAlloc =>
    obtain ⟨w,evaluated,rfl⟩ := found
    exact ⟨w,word_same.trans evaluated,rfl⟩
  case seqInsertSeq =>
    obtain ⟨w,evaluated,rfl⟩ := found
    exact ⟨w,index_same.trans evaluated,rfl⟩
  case mutSeqRemove | mutSeqSplit =>
    obtain ⟨first,isFirst,last,isLast,rfl⟩ := found
    exact ⟨first,word_same.1.trans isFirst,last,word_same.2.trans isLast,rfl⟩
  case seqRemove | seqCopy =>
    obtain ⟨first,isFirst,last,isLast,rfl⟩ := found
    exact ⟨first,index_same.1.trans isFirst,last,index_same.2.trans isLast,rfl⟩
  case mutSeqSwap | mutSeqSwapWithin =>
    obtain ⟨first,isFirst,last,isLast,toFirst,isTo,rfl⟩ := found
    exact ⟨first,word_same.1.trans isFirst,last,word_same.2.1.trans isLast,toFirst,
      word_same.2.2.trans isTo,rfl⟩
  case seqSwap | seqSwapWithin =>
    obtain ⟨first,isFirst,last,isLast,toFirst,isTo,rfl⟩ := found
    exact ⟨first,index_same.1.trans isFirst,last,index_same.2.1.trans isLast,toFirst,
      index_same.2.2.trans isTo,rfl⟩

end

namespace State

variable (state : State ρ μ) (n : Name) (value : RtValue ρ)

@[simp] theorem bind_env_self : (state.bind n value).env n = some value := Function.update_self _ _ _

variable {n} in
theorem bind_env_ne {m : Name} (apart : m ≠ n) : (state.bind n value).env m = state.env m :=
  Function.update_of_ne apart _ _

variable {n} in
theorem bind_defined_ne {m : Name} (apart : m ≠ n) :
    (state.bind n value).defined m = state.defined m :=
  Function.update_of_ne apart _ _

variable (r : ρ)

@[simp] theorem restamp_env_self : (state.restamp n r).env n = some (.reference r) :=
  Function.update_self _ _ _

variable {n} in
theorem restamp_env_ne {m : Name} (apart : m ≠ n) : (state.restamp n r).env m = state.env m :=
  Function.update_of_ne apart _ _

end State

namespace InPlace

/-- A version is current if the object is at it. -/
def Current (state : Store) (stamp : Stamp) : Prop :=
  ∃ object, state.memory stamp.handle = some object ∧ object.version = stamp.version

theorem exec_some {oracle : Oracle} {n : Name} {inst : Inst} {state after : Store}
    (plain : inst.isBackend = false) (ran : exec oracle n inst state = some after) :
    (∃ function operands words, inst = .scalar function operands ∧
      operands.mapM (word state.env) = some words ∧
        after = state.bind n (.word (function words))) ∨
    (inst.isSsa = false ∧ ∃ operation mutated read outcome,
      inst.operation state.env (oracle state.trace) = some operation ∧
      inst.mutated.mapM (reference state.env) = some mutated ∧
      inst.read.mapM (reference state.env) = some read ∧
      runOn state operation mutated read = some outcome ∧
      after = (bindResult
        (consume (writeBack state (inst.mutated.zip (mutated.zip outcome.mutated))) inst read)
        n inst mutated outcome).emit outcome.events) := by
  unfold exec at ran
  split at ran
  · rename_i function operands
    simp only [Option.pure_def,Option.bind_eq_bind,Option.bind_eq_some_iff,Option.some.injEq] at ran
    obtain ⟨words,evaluated,same⟩ := ran
    exact .inl ⟨function,operands,words,rfl,evaluated,same.symm⟩
  · exact absurd plain (by simp [Inst.isBackend])
  · by_cases isSsa : inst.isSsa = true
    · simp [isSsa] at ran
    · simp only [isSsa,Bool.false_eq_true,if_false,Option.pure_def,Option.bind_eq_bind,
        Option.bind_eq_some_iff,Option.some.injEq] at ran
      obtain ⟨operation,found,mutated,isMutated,read,isRead,outcome,run,same⟩ := ran
      exact .inr ⟨eq_false_of_ne_true isSsa,operation,mutated,read,outcome,found,isMutated,isRead,
        run,same.symm⟩

/-- Two operands on different objects do not interfere. -/
theorem runOn_some {state : Store} {operation : Operation Stamp} {mutated read : List Stamp}
    {outcome : Outcome Stamp}
    (apart : ∀ first last toFirst x y, operation = .seqSwap first last toFirst →
      mutated = [x,y] → x.handle ≠ y.handle)
    (ran : runOn state operation mutated read = some outcome) :
    ∃ contents contents', mutated.mapM (content state) = some contents ∧
      read.mapM (content state) = some contents' ∧
      operation.run contents contents' = some outcome := by
  unfold runOn at ran
  split at ran
  · rename_i first last toFirst x y
    rw [if_neg (apart first last toFirst x y rfl rfl)] at ran
    simp only [Option.bind_eq_bind,Option.bind_eq_some_iff] at ran
    obtain ⟨c,isFirst,d,isSecond,ran⟩ := ran
    exact ⟨[c,d],[],by simp [isFirst,isSecond],rfl,ran⟩
  · rename_i i x y
    by_cases same : x.handle = y.handle
    · simp [same] at ran
    · simp only [same,if_false,Option.bind_eq_bind,Option.bind_eq_some_iff] at ran
      obtain ⟨c,isFirst,d,isSecond,ran⟩ := ran
      exact ⟨[c],[d],by simp [isFirst],by simp [isSecond],ran⟩
  · simp only [Option.bind_eq_bind,Option.bind_eq_some_iff] at ran
    obtain ⟨contents,isMutated,contents',isRead,ran⟩ := ran
    exact ⟨contents,contents',isMutated,isRead,ran⟩

def mutate (state : Store) (handle version : Nat) (content : Content Stamp) : Store :=
  {state with memory := Function.update state.memory handle (some ⟨version,content⟩)}

def create (state : Store) (content : Content Stamp) : Store :=
  {state with
    memory := Function.update state.memory state.next (some ⟨0,content⟩)
    next := state.next + 1}

theorem writeBack_unchanged {state : Store} (operands : List Value) (stamps : List Stamp)
    {contents : List (Option (Content Stamp))} (unchanged : contents = [] ∨ contents = [none]) :
    writeBack state (operands.zip (stamps.zip contents)) = state := by
  rcases unchanged with rfl | rfl
  · simp [writeBack]
  · rcases stamps with _ | ⟨stamp,stamps⟩ <;> rcases operands with _ | ⟨operand,operands⟩ <;>
      simp [writeBack]

theorem writeBack_one {state : Store} {x : Name} {stamp : Stamp} {object : Object}
    (found : state.memory stamp.handle = some object) (content : Content Stamp) :
    writeBack state [(.name x,stamp,some content)] =
      (mutate state stamp.handle (object.version + 1) content).restamp x
        ⟨stamp.handle,object.version + 1⟩ := by
  simp [writeBack,found,mutate]

theorem writeBack_two {state : Store} {x y : Name} {stamp stamp' : Stamp} {object object' : Object}
    (found : state.memory stamp.handle = some object)
    (found' : state.memory stamp'.handle = some object') (apart : stamp.handle ≠ stamp'.handle)
    (content content' : Content Stamp) :
    writeBack state [(.name x,stamp,some content),(.name y,stamp',some content')] =
      (mutate ((mutate state stamp.handle (object.version + 1) content).restamp x
          ⟨stamp.handle,object.version + 1⟩) stamp'.handle (object'.version + 1) content').restamp y
        ⟨stamp'.handle,object'.version + 1⟩ := by
  simp [writeBack,found,mutate,State.restamp,found',Function.update_of_ne (Ne.symm apart)]

theorem bindResult_nothing {state : Store} {n : Name} {inst : Inst} {mutated : List Stamp}
    {outcome : Outcome Stamp} (plain : inst.isBackend = false) (created : outcome.created = none)
    (result : outcome.result = none) : bindResult state n inst mutated outcome = state := by
  unfold bindResult
  rw [created,result]
  cases inst
  case backend => exact absurd plain (by simp [Inst.isBackend])
  all_goals rfl

theorem consume_env (state : Store) (inst : Inst) (read : List Stamp) :
    (consume state inst read).env = state.env ∧ (consume state inst read).defined = state.defined := by
  cases inst <;> exact ⟨rfl,rfl⟩

end InPlace

namespace Pure

def create (state : Store) (content : Content Nat) : Store :=
  {state with
    memory := Function.update state.memory state.next (some content)
    next := state.next + 1}

@[simp] theorem create_value (state : Store) (content : Content Nat) :
    (create state content).memory state.next = some content :=
  Function.update_self _ _ _

theorem exec_operation {oracle : Oracle} {n : Name} {inst : Inst} {state : Store}
    {operation : Operation Nat} {mutated read : List Nat} {contents contents' : List (Content Nat)}
    {outcome : Outcome Nat} (isMut : inst.isMut = false)
    (found : inst.operation state.env (oracle state.trace) = some operation)
    (isMutated : inst.mutated.mapM (reference state.env) = some mutated)
    (isRead : inst.read.mapM (reference state.env) = some read)
    (held : mutated.mapM state.memory = some contents)
    (held' : read.mapM state.memory = some contents')
    (ran : operation.run contents contents' = some outcome) :
    exec oracle n inst state = some
      (let made := allocate state
        ((if inst.isSsa then outcome.mutated.reduceOption else []) ++ outcome.created.toList)
      bindResult (made.1.emit outcome.events) n made.2 outcome.result) := by
  unfold exec
  split
  · exact absurd found (by simp [Inst.operation])
  · exact absurd found (by simp [Inst.operation])
  · exact absurd found (by simp [Inst.operation])
  · exact absurd found (by simp [Inst.operation])
  · exact absurd found (by simp [Inst.operation])
  · simp only [isMut,Bool.false_eq_true,if_false,found,isMutated,isRead,held,held',ran,
      Option.bind_eq_bind,Option.bind_some,Option.pure_def]

theorem exec_extract {oracle : Oracle} {n pair : Name} {second : Bool} {state : Store} {x y : Nat}
    (found : state.env pair = some (.pair x y)) : exec oracle n (.extractValue pair second) state =
      some (state.bind n (.reference (if second then y else x))) := by
  simp [exec,found]

end Pure

section
variable {function : Function} {exec : Name → Inst → State ρ μ → Option (State ρ μ)}

theorem Run.mono {good good' : Config ρ μ → Prop} {before after : Config ρ μ}
    (weaker : ∀ config, good config → good' config) (run : Run function exec good before after) :
    Run function exec good' before after :=
  Relation.ReflTransGen.mono (fun _ _ step => ⟨weaker _ step.1,step.2⟩) _ _ run

/-- A step of one machine that several steps of another follow, over whole runs. -/
theorem Run.follow {ν : Type} {function' : Function}
    {exec' : Name → Inst → State σ ν → Option (State σ ν)} {good : Config ρ μ → Prop}
    {matched : Config ρ μ → Config σ ν → Prop}
    (step : ∀ before after before', good before → step function exec before = some after →
      matched before before' → ∃ after', Run function' exec' (fun _ => True) before' after' ∧
        matched after after')
    {before after : Config ρ μ} {before' : Config σ ν} (start : matched before before')
    (run : Run function exec good before after) :
    ∃ after', Run function' exec' (fun _ => True) before' after' ∧ matched after after' := by
  induction run with
  | refl => exact ⟨before',.refl,start⟩
  | tail _ last ih =>
    obtain ⟨middle,first,matched⟩ := ih
    obtain ⟨after',rest,matched⟩ := step _ _ middle last.1 last.2 matched
    exact ⟨after',first.trans rest,matched⟩

theorem Run.instruction {good : Config ρ μ → Prop} {block : Nat} {n : Name} {inst : Inst}
    {rest : List (Name × Inst)} {before after : State ρ μ}
    (holds : good ⟨block,(n,inst) :: rest,before⟩) (ran : exec n inst before = some after) :
    Run function exec good ⟨block,(n,inst) :: rest,before⟩ ⟨block,rest,after⟩ :=
  .single ⟨holds,by simp [Memoir.step,ran]⟩

theorem Run.two {block : Nat} {n n' : Name} {inst inst' : Inst} {rest : List (Name × Inst)}
    {before middle after : State ρ μ} (first : exec n inst before = some middle)
    (second : exec n' inst' middle = some after) :
    Run function exec (fun _ => True) ⟨block,(n,inst) :: (n',inst') :: rest,before⟩
      ⟨block,rest,after⟩ :=
  Relation.ReflTransGen.trans (Run.instruction trivial first) (Run.instruction trivial second)

theorem Run.three {block : Nat} {n n' n'' : Name} {inst inst' inst'' : Inst}
    {rest : List (Name × Inst)} {before first second after : State ρ μ}
    (one : exec n inst before = some first) (two : exec n' inst' first = some second)
    (three : exec n'' inst'' second = some after) :
    Run function exec (fun _ => True) ⟨block,(n,inst) :: (n',inst') :: (n'',inst'') :: rest,before⟩
      ⟨block,rest,after⟩ :=
  Relation.ReflTransGen.trans (Run.two one two) (Run.instruction trivial three)

end

end Memoir
