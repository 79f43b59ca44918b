import Memoir.RoundTripRuns

/-! The code that the round trip puts in place of an instruction follows it: one call of a backend that
runs the same operation, or the two calls of an append or a split. -/
namespace Memoir

def Inst.isRelayed : Inst → Bool
  | scalar _ _ | mutSeqAppend _ _ | mutSeqSwapWithin _ _ _ _ | mutSeqSplit _ _ _ => false
  | inst => !inst.isSsa && !inst.isBackend

namespace Construction.RoundTrip
open Dominance Destruction
open Unversioned (Covers)

structure Alike (g : Value → Value) (inst : Inst) (env env' : Env Nat) : Prop where
  scalar : ∀ s ∈ inst.scalars, word env' s = word env s
  element : ∀ element, inst.element = some element → datum env' element = datum env element
  operand : ∀ operand ∈ inst.operands, reference env' (g operand) = reference env operand
  unrenamed : ∀ operand ∈ inst.unrenamed, reference env' operand = reference env operand

structure Relays (inst new : Inst) (env env' : Env Nat) : Prop where
  isSsa : new.isSsa = false
  operation : ∀ reply, new.operation env' reply = inst.operation env reply
  mutated : new.mutated.mapM (reference env') = inst.mutated.mapM (reference env)
  read : new.read.mapM (reference env') = inst.read.mapM (reference env)
  consume : ∀ state read, Unversioned.consume state new read = state

section
variable {g : Value → Value} {inst : Inst} {env env' : Env Nat} {b i : Nat} {n : Name}

theorem references_alike {operands : List Value}
    (alike : ∀ operand ∈ operands, reference env' (g operand) = reference env operand) :
    (operands.map g).mapM (reference env') = operands.mapM (reference env) := by
  induction operands with
  | nil => rfl
  | cons operand rest ih =>
    have below := ih fun other member => alike other (List.mem_cons_of_mem _ member)
    simp only [List.map_cons,List.mapM_cons,alike operand List.mem_cons_self,below]

theorem words_alike {scalars : List Scalar} (alike : ∀ s ∈ scalars, word env' s = word env s) :
    scalars.mapM (word env') = scalars.mapM (word env) := by
  induction scalars with
  | nil => rfl
  | cons s rest ih =>
    have below := ih fun other member => alike other (List.mem_cons_of_mem _ member)
    simp only [List.mapM_cons,alike s List.mem_cons_self,below]

theorem Alike.relays (alike : Alike g inst env env') (relayed : inst.isRelayed = true) :
    ∃ new, loweredCode g b i n inst = [(if inst.isMut then .ssa b i 0 else n,new)] ∧
      Relays inst new env env' := by
  obtain ⟨scalar,element,operand,unrenamed⟩ := alike
  have mutated : (inst.mutated.map g).mapM (reference env') = inst.mutated.mapM (reference env) :=
    references_alike fun v used => operand v (by simp [Inst.operands,used])
  have read : (inst.read.map g).mapM (reference env') = inst.read.mapM (reference env) :=
    references_alike fun v used => operand v (by simp [Inst.operands,used])
  cases inst <;> simp only [Inst.isRelayed,Inst.isSsa,Inst.isBackend,Bool.not_true,Bool.false_and,
    Bool.and_false,Bool.false_eq_true] at relayed
  case mutIndexWrite value object s | mutAssocWrite value object s | mutSeqInsert value object s =>
    have same := scalar s (by simp [Inst.scalars])
    have same' := element value rfl
    refine ⟨_,rfl,rfl,fun reply => ?_,mutated,read,fun _ _ => rfl⟩
    simp only [Inst.operation,List.mapM_cons,List.mapM_nil,Option.mapM_some,same,same']
    cases word env s <;> cases datum env value <;> rfl
  case mutSeqInsertSeq _ _ s | mutAssocInsert _ s | mutAssocRemove _ s | indexRead _ s |
      assocRead _ s | indexGet _ s | assocGet _ s | seqAlloc s =>
    have same := scalar s (by simp [Inst.scalars])
    refine ⟨_,rfl,rfl,fun reply => ?_,mutated,read,fun _ _ => rfl⟩
    simp only [Inst.operation,List.mapM_cons,List.mapM_nil,same]
    cases word env s <;> rfl
  case assocHas object s =>
    have same := scalar s (by simp [Inst.scalars])
    refine ⟨_,rfl,rfl,fun reply => ?_,mutated,?_,fun _ _ => rfl⟩
    · simp only [Inst.operation,List.mapM_cons,List.mapM_nil,same]
      cases word env s <;> rfl
    · simp only [Inst.read,List.mapM_cons,List.mapM_nil,unrenamed object (by simp [Inst.unrenamed])]
  case mutSeqRemove _ first last =>
    have isFirst := scalar first (by simp [Inst.scalars])
    have isLast := scalar last (by simp [Inst.scalars])
    refine ⟨_,rfl,rfl,fun reply => ?_,mutated,read,fun _ _ => rfl⟩
    simp only [Inst.operation,List.mapM_cons,List.mapM_nil,isFirst,isLast]
    cases word env first <;> cases word env last <;> rfl
  case mutSeqSwap _ first last _ toFirst =>
    have isFirst := scalar first (by simp [Inst.scalars])
    have isLast := scalar last (by simp [Inst.scalars])
    have isTo := scalar toFirst (by simp [Inst.scalars])
    refine ⟨_,rfl,rfl,fun reply => ?_,mutated,read,fun _ _ => rfl⟩
    simp only [Inst.operation,List.mapM_cons,List.mapM_nil,isFirst,isLast,isTo]
    cases word env first <;> cases word env last <;> cases word env toFirst <;> rfl
  case call callee collections scalars =>
    refine ⟨_,rfl,rfl,fun reply => ?_,mutated,read,fun _ _ => rfl⟩
    have words : scalars.mapM (word env') = scalars.mapM (word env) := words_alike scalar
    simp only [Inst.operation,words]
  case size | assocKeys | assocAlloc =>
    exact ⟨_,rfl,rfl,fun _ => rfl,mutated,read,fun _ _ => rfl⟩
variable {m : Name} {new : Inst} {state state' : Unversioned.Store} {mutated : List Nat}
  {outcome : Outcome Nat}

theorem bindResult_read (isMut : inst.isMut = false) (relayed : inst.isRelayed = true)
    (code : loweredCode g b i n inst = [(m,new)]) :
    Unversioned.bindResult state m new mutated outcome =
      Unversioned.bindResult state m inst mutated outcome := by
  obtain ⟨_,created,result,_⟩ := outcome
  cases inst <;> simp only [Inst.isRelayed,Inst.isMut,Inst.isSsa,Inst.isBackend,Bool.not_true,
    Bool.false_and,Bool.and_false,Bool.false_eq_true,reduceCtorEq] at relayed isMut
  all_goals
    simp only [loweredCode,List.cons.injEq,Prod.mk.injEq,and_true] at code
    obtain ⟨_,rfl⟩ := code
    cases created <;> cases result <;> rfl

/-- A call that writes binds nothing or the object that it has written. -/
theorem bindResult_written (state : Unversioned.Store) (mutated : List Nat) (isMut : inst.isMut = true)
    (relayed : inst.isRelayed = true) (code : loweredCode g b i n inst = [(m,new)]) (created : outcome.created = none)
    (result : outcome.result = none) :
    Unversioned.bindResult state m new mutated outcome = state ∨
      ∃ h, Unversioned.bindResult state m new mutated outcome = state.bind m (.reference h) := by
  obtain ⟨_,_,_,_⟩ := outcome
  obtain rfl := created
  obtain rfl := result
  cases inst <;> simp only [Inst.isRelayed,Inst.isMut,Bool.false_eq_true] at relayed isMut
  all_goals
    simp only [loweredCode,List.cons.injEq,Prod.mk.injEq,and_true] at code
    obtain ⟨_,rfl⟩ := code
    rcases mutated with _ | ⟨h,_ | _⟩ <;> first
      | exact .inl rfl
      | exact .inr ⟨h,rfl⟩

/-- A version that is not coalesced is what the call returns. -/
theorem bindResult_made (state : Unversioned.Store) (h : Nat) {x : Value} {k : Nat} (relayed : inst.isRelayed = true)
    (code : loweredCode g b i n inst = [(m,new)]) (redefines : (x,k) ∈ inst.redefines)
    (apart : ∀ operand, (k,operand) ∉ inst.renewed) (created : outcome.created = none)
    (result : outcome.result = none) : inst.mutated = [x] ∧ k = 0 ∧
      Unversioned.bindResult state m new [h] outcome = state.bind m (.reference h) := by
  obtain ⟨_,_,_,_⟩ := outcome
  obtain rfl := created
  obtain rfl := result
  cases inst <;> simp only [Inst.isRelayed,Inst.redefines,Inst.isMut,Inst.mutated,Bool.false_eq_true,
    if_false,if_true,List.map_cons,List.map_nil,List.mem_singleton,List.not_mem_nil,Prod.mk.injEq]
      at relayed redefines
  case mutSeqSwap from_ _ _ to_ _ =>
    split_ifs at redefines
    · simp_all [Inst.renewed]
    · simp only [List.mem_cons,List.not_mem_nil,or_false,Prod.mk.injEq] at redefines
      rcases redefines with ⟨_,rfl⟩ | ⟨_,rfl⟩ <;> simp [Inst.renewed] at apart
  all_goals
    obtain ⟨rfl,rfl⟩ := redefines
    first
      | exact absurd List.mem_cons_self (apart x)
      | skip
  all_goals
    simp only [loweredCode,List.cons.injEq,Prod.mk.injEq,and_true] at code
    obtain ⟨_,rfl⟩ := code
    exact ⟨rfl,rfl,rfl⟩
end

theorem writeBack_env (state : Unversioned.Store) (entries : List (Nat × Option (Content Nat))) :
    (Unversioned.writeBack state entries).env = state.env := by
  induction entries generalizing state with
  | nil => rfl
  | cons entry rest ih =>
    obtain ⟨handle,_ | content⟩ := entry
    · exact ih state
    · exact ih (Unversioned.mutate state handle content)

theorem bindResult_nothing {inst : Inst} (plain : inst.isBackend = false) {state : Unversioned.Store}
    {n : Name} {mutated : List Nat} {outcome : Outcome Nat} (created : outcome.created = none)
    (result : outcome.result = none) : Unversioned.bindResult state n inst mutated outcome = state := by
  unfold Unversioned.bindResult
  rw [created,result]
  cases inst
  case backend => exact absurd plain (by simp [Inst.isBackend])
  all_goals rfl

/-- The same result, bound to the same name. -/
theorem bindResult_same {inst : Inst} (plain : inst.isBackend = false) {state state' : Unversioned.Store}
    (covers : Covers state state') (n : Name) (mutated : List Nat) (outcome : Outcome Nat) :
    Covers (Unversioned.bindResult state n inst mutated outcome)
        (Unversioned.bindResult state' n inst mutated outcome) ∧
      (((Unversioned.bindResult state n inst mutated outcome).env = state.env ∧
          (Unversioned.bindResult state' n inst mutated outcome).env = state'.env) ∨
        ∃ value, (Unversioned.bindResult state n inst mutated outcome).env =
            Function.update state.env n (some value) ∧
          (Unversioned.bindResult state' n inst mutated outcome).env =
            Function.update state'.env n (some value)) := by
  cases created : outcome.created with
  | some content =>
    simp only [Unversioned.bindResult,created]
    refine ⟨covers.allocate n n content,.inr ⟨.reference state.next,rfl,?_⟩⟩
    rw [Unversioned.allocate,covers.next]
    rfl
  | none =>
    cases result : outcome.result with
    | some d =>
      simp only [Unversioned.bindResult,created,result]
      exact ⟨(covers.bind n (rtValue d)).bind_right n (rtValue d),.inr ⟨rtValue d,rfl,rfl⟩⟩
    | none =>
      rw [bindResult_nothing plain created result,bindResult_nothing plain created result]
      exact ⟨covers,.inl ⟨rfl,rfl⟩⟩

theorem relayed_outcome {inst : Inst} {env : Env Nat} {reply : Reply} {operation : Operation Nat}
    {contents contents' : List (Content Nat)} {outcome : Outcome Nat} (isMut : inst.isMut = true)
    (relayed : inst.isRelayed = true) (found : inst.operation env reply = some operation)
    (ran : operation.run contents contents' = some outcome) :
    outcome.created = none ∧ outcome.result = none := by
  by_cases simple : inst.isSimple = true
  · obtain ⟨_,_,_,rfl⟩ := Operation.writes_outcome (Inst.simple_writes simple found) ran
    exact ⟨rfl,rfl⟩
  · cases inst <;> simp [Inst.isSimple,Inst.isMut,Inst.isRelayed] at simple isMut relayed
    simp only [Inst.operation,Option.pure_def,Option.bind_eq_bind,Option.bind_eq_some_iff,
      Option.some.injEq] at found
    obtain ⟨_,_,_,_,_,_,rfl⟩ := found
    obtain ⟨_,_,_,_,_,rfl⟩ := Operation.swap_outcome ran
    exact ⟨rfl,rfl⟩

theorem runOn_ran {state : Unversioned.Store} {operation : Operation Nat} {mutated read : List Nat}
    {outcome : Outcome Nat} (ran : Unversioned.runOn state operation mutated read = some outcome) :
    ∃ contents contents', operation.run contents contents' = some outcome ∨
      ∃ first last toFirst, (Operation.seqSwapWithin first last toFirst).run contents contents' =
        some outcome := by
  unfold Unversioned.runOn at ran
  split at ran
  · split_ifs at ran
    all_goals
      simp only [Option.bind_eq_bind,Option.bind_eq_some_iff] at ran
    · obtain ⟨c,_,ran⟩ := ran
      exact ⟨_,_,.inr ⟨_,_,_,ran⟩⟩
    · obtain ⟨c,_,d,_,ran⟩ := ran
      exact ⟨_,_,.inl ran⟩
  · rename_i x y
    by_cases same : x = y
    · simp [same] at ran
    · simp only [same,if_false,Option.bind_eq_bind,Option.bind_eq_some_iff] at ran
      obtain ⟨c,_,d,_,ran⟩ := ran
      exact ⟨_,_,.inl ran⟩
  · simp only [Option.bind_eq_bind,Option.bind_eq_some_iff] at ran
    obtain ⟨cs,_,ds,_,ran⟩ := ran
    exact ⟨_,_,.inl ran⟩

theorem append_outcome {c c' : Content Nat} {outcome : Outcome Nat}
    (ran : (Operation.seqInsertSeq none).run [c] [c'] = some outcome) : ∃ xs ys, c = .sequence xs ∧
      c' = .sequence ys ∧ outcome = .write (.sequence (splice xs xs.length 0 ys)) := by
  rcases c with xs | _ <;> rcases c' with ys | _ <;> simp [Operation.run] at ran
  exact ⟨xs,ys,rfl,rfl,ran.symm⟩

/-- The runs of the code in place of an instruction. -/
def Follows (program : Program) (tree : Tree program.function) (inserted : List (Name × List Nat))
    (f : Value → Value) (oracle : Oracle) (b i : Nat) (inst : Inst) (state' after : Unversioned.Store) :
    Prop :=
  ∃ after', (∀ function rest, Run function (Unversioned.exec oracle) (fun _ => True)
      ⟨b,loweredCode (fun v => f (rename (nearest program.function tree inserted (.before b i)) v)) b i
        (.inst b i) inst ++ rest,state'⟩ ⟨b,rest,after'⟩) ∧
    Mirrored program tree inserted f b (i + 1) after.env after'.env ∧ Covers after after'

/-- A result that is only shown. -/
theorem Covers.shown {state state' : Unversioned.Store} (covers : Covers state state') (n : Name)
    (value : RtValue Nat) (word : Option Word) :
    Covers state ((state'.bind n value).emit [.value word]) :=
  ⟨covers.memory,covers.next,covers.calls,covers.bounded⟩

section
variable {program : Program} {tree : Tree program.function} {inserted : List (Name × List Nat)}
  {tree' : Tree (constructed program.function tree inserted)} {f : Value → Value}
  (ends : Ends program tree inserted tree' f) (renamable : Renamable program tree)
  (placed : Placed program inserted) (closed : Closed tree inserted) {oracle : Oracle} {b i : Nat}
  {inst : Inst} {state state' after : Unversioned.Store}
  (mirrored : Mirrored program tree inserted f b i state.env state'.env) (covers : Covers state state')
  (reachable : program.function.graph.Reachable b)
  (at_ : program.function.instruction? (.inst b i) = some inst)
include ends renamable placed closed mirrored covers reachable at_

omit covers in
theorem Mirrored.operands_alike : Alike (fun v => f (rename (nearest program.function tree inserted
    (.before b i)) v)) inst state.env state'.env where
  scalar _ used := mirrored.word at_ used
  element _ written := mirrored.element renamable at_ written
  operand _ used := mirrored.operand ends renamable placed closed reachable at_ used
  unrenamed _ used := mirrored.unrenamed renamable at_ used

theorem Mirrored.relay (relayed : inst.isRelayed = true)
    (ran : Unversioned.exec (environment oracle) (.inst b i) inst state = some after) :
    Follows program tree inserted f (environment oracle) b i inst state' after := by
  have kind := plain_source at_
  have alike := mirrored.operands_alike ends renamable placed closed reachable at_
  obtain ⟨new,code,relays⟩ := alike.relays (b := b) (i := i) (n := .inst b i) relayed
  rcases Unversioned.exec_some kind.2 ran with ⟨_,_,_,rfl,_⟩ |
    ⟨_,operation,mutated,read,outcome,found,isMutated,isRead,isRun,rfl⟩
  · exact absurd relayed (by simp [Inst.isRelayed])
  have unconsumed : Unversioned.consume (Unversioned.writeBack state (mutated.zip outcome.mutated)) inst
      read = Unversioned.writeBack state (mutated.zip outcome.mutated) := by
    cases inst
    case mutSeqAppend => exact absurd relayed (by simp [Inst.isRelayed])
    all_goals rfl
  have reply : environment oracle state'.trace = environment oracle state.trace :=
    congrArg oracle covers.calls
  obtain ⟨isRun',written⟩ := covers.ran isRun
  have executed (n : Name) := Unversioned.exec_operation (n := n) relays.isSsa
    ((relays.operation (environment oracle state'.trace)).trans (reply ▸ found))
    (relays.mutated.trans isMutated) (relays.read.trans isRead) isRun'
  rw [relays.consume] at executed
  rw [unconsumed]
  have env := writeBack_env state (mutated.zip outcome.mutated)
  have env' := writeBack_env state' (mutated.zip outcome.mutated)
  have isSplit : inst.isSplit = false := by
    cases inst <;> simp_all [Inst.isSplit,Inst.isRelayed]
  have plain : program.function.splitResult (.inst b i) = false := by
    simp [Function.splitResult,at_,isSplit]
  have old : ¬Name.IsNew (.inst b i) := id
  refine ⟨_,fun function rest => by rw [code]; exact Run.instruction trivial (executed _),?_⟩
  by_cases isMut : inst.isMut = true
  · obtain ⟨created,result⟩ : outcome.created = none ∧ outcome.result = none := by
      obtain ⟨_,_,isOutcome | ⟨_,_,_,isOutcome⟩⟩ := runOn_ran isRun
      · exact relayed_outcome isMut relayed found isOutcome
      · obtain ⟨_,_,_,rfl⟩ := Operation.writes_outcome rfl isOutcome
        exact ⟨rfl,rfl⟩
    rw [bindResult_nothing kind.2 created result]
    rw [if_pos isMut] at code ⊢
    have bound : Covers (Unversioned.writeBack state (mutated.zip outcome.mutated))
          (Unversioned.bindResult (Unversioned.writeBack state' (mutated.zip outcome.mutated)) (.ssa b i 0)
            new mutated outcome) ∧ ∀ n, n ≠ .ssa b i 0 → (Unversioned.bindResult
              (Unversioned.writeBack state' (mutated.zip outcome.mutated)) (.ssa b i 0) new mutated
                outcome).env n = state'.env n := by
      rcases bindResult_written (Unversioned.writeBack state' (mutated.zip outcome.mutated)) mutated isMut
        relayed code created result with same | ⟨h,same⟩
      · rw [same]
        exact ⟨written,fun n _ => congrFun env' n⟩
      · rw [same]
        exact ⟨written.bind_right _ _,fun n other =>
          (State.bind_env_ne _ _ other).trans (congrFun env' n)⟩
    refine ⟨?_,bound.1.emit _⟩
    refine mirrored.next ends renamable placed closed reachable at_ (fun n _ => congrFun env n)
      (fun n _ other => bound.2 n (other 0)) (fun _ => ?_) (fun split => ?_) ?_
    · exact ((bound.2 _ (by simp)).trans (mirrored.names _ old plain)).trans (congrFun env _).symm
    · exact absurd (split.symm.trans isSplit) (by simp)
    · intro x k redefines apart
      obtain ⟨h,rfl⟩ : ∃ h, mutated = [h] := by
        obtain ⟨isOne,_,_⟩ := bindResult_made state' 0 relayed code redefines apart created result
        rw [isOne] at isMutated
        obtain ⟨h,_,same⟩ := mapM_singleton isMutated
        exact ⟨h,same⟩
      obtain ⟨isOne,rfl,same⟩ := bindResult_made (Unversioned.writeBack state' ([h].zip outcome.mutated)) h
        relayed code redefines apart created result
      rw [isOne] at isMutated
      obtain ⟨_,isReference,handle⟩ := mapM_singleton isMutated
      obtain ⟨rfl,_⟩ := List.cons.inj handle
      obtain ⟨_,named,at'⟩ := reference_env isReference
      obtain rfl := Value.name.inj named
      rw [at',same]
      exact State.bind_env_self _ _ _
  · have isMut := eq_false_of_ne_true isMut
    rw [if_neg (by simp [isMut])] at code ⊢
    rw [bindResult_read isMut relayed code]
    obtain ⟨bound,envs⟩ := bindResult_same kind.2 written (.inst b i) mutated outcome
    refine ⟨?_,bound.emit _⟩
    have none := (plain_shape isMut kind).1
    refine mirrored.next ends renamable placed closed reachable at_ (fun n other => ?_)
      (fun n other _ => ?_) (fun _ => ?_) (fun split => ?_) ?_
    · rcases envs with ⟨same,_⟩ | ⟨value,same,_⟩
      · exact congrFun (same.trans env) n
      · exact (congrFun same n).trans ((Function.update_of_ne other _ _).trans (congrFun env n))
    · rcases envs with ⟨_,same⟩ | ⟨value,_,same⟩
      · exact congrFun (same.trans env') n
      · exact (congrFun same n).trans ((Function.update_of_ne other _ _).trans (congrFun env' n))
    · rcases envs with ⟨same,same'⟩ | ⟨value,same,same'⟩
      · exact (congrFun (same'.trans env') _).trans ((mirrored.names _ old plain).trans
          (congrFun (same.trans env) _).symm)
      · exact ((congrFun same' _).trans (Function.update_self _ _ _)).trans
          ((congrFun same _).trans (Function.update_self _ _ _)).symm
    · exact absurd (split.symm.trans isSplit) (by simp)
    · intro x k redefines
      rw [none] at redefines
      exact absurd redefines List.not_mem_nil

theorem Mirrored.pure {function : List Word → Word} {operands : List Scalar}
    (is : inst = .scalar function operands)
    (ran : Unversioned.exec (environment oracle) (.inst b i) inst state = some after) :
    Follows program tree inserted f (environment oracle) b i inst state' after := by
  subst is
  simp only [Unversioned.exec,Option.pure_def,Option.bind_eq_bind,Option.bind_eq_some_iff,
    Option.some.injEq] at ran
  obtain ⟨words,evaluated,rfl⟩ := ran
  have same : operands.mapM (Memoir.word state'.env) = some words :=
    (words_alike fun s used => mirrored.word at_ used).trans evaluated
  refine ⟨state'.bind (.inst b i) (.word (function words)),fun _ rest => Run.instruction trivial ?_,?_,
    (covers.bind _ _).bind_right _ _⟩
  · simp [Unversioned.exec,same]
  · refine mirrored.next ends renamable placed closed reachable at_
      (fun n other => State.bind_env_ne _ _ other) (fun n other _ => State.bind_env_ne _ _ other)
      (fun _ => ?_) (fun split => absurd split (by simp [Inst.isSplit])) fun x k redefines => ?_
    · rw [State.bind_env_self,State.bind_env_self]
    · exact absurd redefines (by simp [Inst.redefines,Inst.isMut])

/-- A swap within an object is a swap of the object with itself. -/
theorem Mirrored.swapWithin {collection : Value} {first last toFirst : Scalar}
    (is : inst = .mutSeqSwapWithin collection first last toFirst)
    (ran : Unversioned.exec (environment oracle) (.inst b i) inst state = some after) :
    Follows program tree inserted f (environment oracle) b i inst state' after := by
  subst is
  have alike := mirrored.operands_alike ends renamable placed closed reachable at_
  have isFirst := alike.scalar first (by simp [Inst.scalars])
  have isLast := alike.scalar last (by simp [Inst.scalars])
  have isTo := alike.scalar toFirst (by simp [Inst.scalars])
  have operand := alike.operand collection (by simp [Inst.operands,Inst.mutated])
  rcases Unversioned.exec_some rfl ran with ⟨_,_,_,other,_⟩ |
    ⟨_,operation,mutated,read,outcome,found,isMutated,isRead,isRun,rfl⟩
  · exact absurd other (by simp)
  obtain ⟨h,isReference,rfl⟩ := mapM_singleton isMutated
  obtain rfl : [] = read := Option.some.inj isRead
  simp only [Inst.operation,Option.pure_def,Option.bind_eq_bind,Option.bind_eq_some_iff,
    Option.some.injEq] at found
  obtain ⟨w,evaluated,w',evaluated',w'',evaluated'',rfl⟩ := found
  obtain ⟨isRun',written⟩ := covers.ran isRun
  simp only [Unversioned.runOn,List.mapM_cons,List.mapM_nil,Option.pure_def,Option.bind_eq_bind,
    Option.bind_some,Option.bind_eq_some_iff] at isRun'
  obtain ⟨_,⟨content,stored,same⟩,isOutcome⟩ := isRun'
  obtain rfl := Option.some.inj same
  obtain ⟨_,new,_,rfl⟩ := Operation.writes_outcome rfl isOutcome
  let object := f (rename (nearest program.function tree inserted (.before b i)) collection)
  let call := Inst.backend .vectorSwap [object,object] [first,last,toFirst] none
  have found' : call.operation state'.env (environment oracle state'.trace) =
      some (.seqSwap (some w) (some w') (some w'')) := by
    simp [call,Inst.operation,isFirst,isLast,isTo,evaluated,evaluated',evaluated'']
  have isMutated' : call.mutated.mapM (reference state'.env) = some [h,h] := by
    simp [call,object,Inst.mutated,operand,isReference]
  have isRead' : call.read.mapM (reference state'.env) = some [] := rfl
  have swapped : Unversioned.runOn state' (.seqSwap (some w) (some w') (some w'')) [h,h] [] =
      some (.write new) := by
    simp [Unversioned.runOn,stored,isOutcome]
  have executed := Unversioned.exec_operation (n := .ssa b i 0) rfl found' isMutated' isRead' swapped
  have env := writeBack_env state [(h,some new)]
  have env' := writeBack_env state' [(h,some new)]
  refine ⟨_,fun _ rest => Run.instruction trivial executed,?_,written.emit []⟩
  refine mirrored.next ends renamable placed closed reachable at_ (fun n _ => congrFun env n)
    (fun n _ _ => congrFun env' n) (fun _ => ?_) (fun split => absurd split (by simp [Inst.isSplit]))
    fun x k redefines apart => ?_
  · have plain : program.function.splitResult (.inst b i) = false := by
      simp [Function.splitResult,at_,Inst.isSplit]
    exact (congrFun env' _).trans ((mirrored.names _ id plain).trans (congrFun env _).symm)
  · simp only [Inst.redefines,Inst.isMut,Inst.mutated,if_true,List.map_cons,List.map_nil,
      List.mem_singleton,Prod.mk.injEq] at redefines
    exact absurd (by simp [Inst.renewed,redefines.2]) (apart collection)

omit covers in
/-- What an instruction makes is no operand of its code. -/
theorem Mirrored.beside {operand : Value} (used : operand ∈ inst.operands) {env : Env Nat}
    (other : ∀ n, (∀ k, n ≠ .ssa b i k) → env n = state'.env n) :
    reference env (f (rename (nearest program.function tree inserted (.before b i)) operand)) =
      reference state.env operand := by
  rw [← mirrored.operand ends renamable placed closed reachable at_ used]
  cases operand with
  | name x =>
    have nearest := operand_nearest renamable placed closed reachable at_ used
    obtain ⟨e,is,_,above,_⟩ := ends.version renamable placed closed (operand_variable at_ used) nearest.1
      nearest.2.1 reachable
    have same := other e (by rintro k rfl; exact not_dominates_site tree rfl above)
    simp only [rename,is,reference,same]
  | constant id =>
    have fixed : f (.constant id) = .constant id := ends.constant rfl
    simp only [rename,fixed,reference]
  | null =>
    have fixed : f .null = .null := ends.constant rfl
    simp only [rename,fixed,reference]

/-- An append becomes an insertion at the size, and keeps what it has appended. -/
theorem Mirrored.append {collection appended : Value} (is : inst = .mutSeqAppend collection appended)
    (ran : Unversioned.exec (environment oracle) (.inst b i) inst state = some after) :
    Follows program tree inserted f (environment oracle) b i inst state' after := by
  subst is
  rcases Unversioned.exec_some rfl ran with ⟨_,_,_,other,_⟩ |
    ⟨_,operation,mutated,read,outcome,found,isMutated,isRead,isRun,rfl⟩
  · exact absurd other (by simp)
  obtain ⟨h,isReference,rfl⟩ := mapM_singleton isMutated
  obtain ⟨h',isReference',rfl⟩ := mapM_singleton isRead
  obtain rfl : .seqInsertSeq none = operation := Option.some.inj found
  have copied := isRun
  simp only [Unversioned.runOn] at copied
  by_cases apart : h = h'
  · simp [apart] at copied
  simp only [apart,if_false,Option.bind_eq_bind,Option.bind_eq_some_iff] at copied
  obtain ⟨c,stored,c',stored',isOutcome⟩ := copied
  obtain ⟨xs,ys,rfl,rfl,rfl⟩ : ∃ xs ys, c = .sequence xs ∧ c' = .sequence ys ∧
      outcome = .write (.sequence (splice xs xs.length 0 ys)) := by
    exact append_outcome isOutcome
  have isSize : Unversioned.runOn state' .size [] [h] = some (.read (.scalar xs.length)) := by
    simp [Unversioned.runOn,covers.memory h _ stored,Operation.run]
  have operand : reference state'.env (f (rename (nearest program.function tree inserted (.before b i))
      collection)) = reference state.env collection :=
    mirrored.operand ends renamable placed closed reachable at_ (by simp [Inst.operands,Inst.mutated])
  let object := f (rename (nearest program.function tree inserted (.before b i)) collection)
  let added := f (rename (nearest program.function tree inserted (.before b i)) appended)
  let middle := (state'.bind (.ssa b i 0) (.word xs.length)).emit [.value (some xs.length)]
  have sized : Unversioned.exec (environment oracle) (.ssa b i 0) (.backend .size [object] [] none) state' =
      some middle :=
    Unversioned.exec_operation rfl rfl rfl (by simp [Inst.read,object,operand,isReference]) isSize
  have covered : Covers state middle := Covers.shown covers _ _ _
  obtain ⟨_,written⟩ := covered.ran isRun
  have beside {v : Value} (used : v ∈ (Inst.mutSeqAppend collection appended).operands) :
      reference middle.env (f (rename (nearest program.function tree inserted (.before b i)) v)) =
        reference state.env v :=
    mirrored.beside ends renamable placed closed reachable at_ used fun n other =>
      State.bind_env_ne _ _ (other 0)
  let call := Inst.backend .vectorInsert [object,added] [.name (.ssa b i 0)] none
  have found' : call.operation middle.env (environment oracle middle.trace) =
      some (.seqInsertSeq (some xs.length)) := by
    simp [call,middle,Inst.operation,Memoir.word,State.emit]
  have isMutated' : call.mutated.mapM (reference middle.env) = some [h] := by
    simp [call,object,Inst.mutated,beside (v := collection) (by simp [Inst.operands,Inst.mutated]),isReference]
  have isRead' : call.read.mapM (reference middle.env) = some [h'] := by
    simp [call,added,Inst.read,beside (v := appended) (by simp [Inst.operands,Inst.read]),isReference']
  have inserted' : Unversioned.runOn middle (.seqInsertSeq (some xs.length)) [h] [h'] =
      some (.write (.sequence (splice xs xs.length 0 ys))) := by
    simp [Unversioned.runOn,apart,covered.memory _ _ stored,covered.memory _ _ stored',Operation.run]
  have executed := Unversioned.exec_operation (n := .ssa b i 1) rfl found' isMutated' isRead' inserted'
  have env := writeBack_env state [(h,some (.sequence (splice xs xs.length 0 ys)))]
  have env' := writeBack_env middle [(h,some (.sequence (splice xs xs.length 0 ys)))]
  refine ⟨_,fun _ rest => Run.two sized executed,?_,
    ((written.free [h']).bind_right (.ssa b i 1) (.reference h)).emit []⟩
  refine mirrored.next ends renamable placed closed reachable at_ (fun n _ => congrFun env n)
    (fun n _ other => ?_) (fun _ => ?_) (fun split => absurd split (by simp [Inst.isSplit]))
    fun x k redefines apart => ?_
  · exact (State.bind_env_ne _ _ (other 1)).trans ((congrFun env' n).trans
      (State.bind_env_ne _ _ (other 0)))
  · have plain : program.function.splitResult (.inst b i) = false := by
      simp [Function.splitResult,at_,Inst.isSplit]
    exact ((State.bind_env_ne _ _ (by simp)).trans ((congrFun env' _).trans
      (State.bind_env_ne _ _ (by simp)))).trans ((mirrored.names _ id plain).trans (congrFun env _).symm)
  · simp only [Inst.redefines,List.mem_singleton,Prod.mk.injEq] at redefines
    obtain ⟨rfl,rfl⟩ := redefines
    obtain ⟨_,same,at'⟩ := reference_env isReference
    obtain rfl := Value.name.inj same
    exact (State.bind_env_self _ _ _).trans at'.symm

/-- A split becomes a copy of the part, and its removal. -/
theorem Mirrored.split {collection : Value} {first last : Scalar}
    (is : inst = .mutSeqSplit collection first last)
    (ran : Unversioned.exec (environment oracle) (.inst b i) inst state = some after) :
    Follows program tree inserted f (environment oracle) b i inst state' after := by
  subst is
  have alike := mirrored.operands_alike ends renamable placed closed reachable at_
  have isFirst := alike.scalar first (by simp [Inst.scalars])
  have isLast := alike.scalar last (by simp [Inst.scalars])
  have used : collection ∈ (Inst.mutSeqSplit collection first last).operands := by
    simp [Inst.operands,Inst.mutated]
  rcases Unversioned.exec_some rfl ran with ⟨_,_,_,other,_⟩ |
    ⟨_,operation,mutated,read,outcome,found,isMutated,isRead,isRun,rfl⟩
  · exact absurd other (by simp)
  obtain ⟨h,isReference,rfl⟩ := mapM_singleton isMutated
  obtain rfl : [] = read := Option.some.inj isRead
  simp only [Inst.operation,Option.pure_def,Option.bind_eq_bind,Option.bind_eq_some_iff,
    Option.some.injEq] at found
  obtain ⟨w,evaluated,w',evaluated',rfl⟩ := found
  have splits := isRun
  simp only [Unversioned.runOn,List.mapM_cons,List.mapM_nil,Option.pure_def,Option.bind_eq_bind,
    Option.bind_some,Option.bind_eq_some_iff] at splits
  obtain ⟨_,⟨content,stored,same⟩,isOutcome⟩ := splits
  obtain rfl := Option.some.inj same
  obtain ⟨xs,same,below,inside,rfl⟩ := Operation.split_outcome isOutcome
  obtain rfl := (List.cons.inj same).1
  have bound : h ≠ state'.next := by
    have below := covers.bounded h _ stored
    rw [← covers.next] at below
    exact Nat.ne_of_lt below
  let part : Content Nat := .sequence (slice xs w w')
  let left : Content Nat := .sequence (splice xs w (w' - w) [])
  let object := f (rename (nearest program.function tree inserted (.before b i)) collection)
  let middle := (Unversioned.allocate state' (.ssa b i 0) part).emit []
  have copied : Unversioned.exec (environment oracle) (.ssa b i 0)
      (.backend .vectorCopy [object] [first,last] none) state' = some middle := by
    have found' : (Inst.backend .vectorCopy [object] [first,last] none).operation state'.env
        (environment oracle state'.trace) = some (.seqCopy (some w) (some w')) := by
      simp [Inst.operation,isFirst,isLast,evaluated,evaluated']
    have isRead' : (Inst.backend .vectorCopy [object] [first,last] none).read.mapM
        (reference state'.env) = some [h] := by
      have operand := alike.operand collection used
      simp [Inst.read,object,operand,isReference]
    have isRun' : Unversioned.runOn state' (.seqCopy (some w) (some w')) [] [h] = some (.create part) := by
      simp [Unversioned.runOn,covers.memory _ _ stored,Operation.run,below,inside,part]
    exact Unversioned.exec_operation rfl found' rfl isRead' isRun'
  have beside : reference middle.env object = some h :=
    (mirrored.beside ends renamable placed closed reachable at_ used fun n other =>
      State.bind_env_ne _ _ (other 0)).trans isReference
  have kept {s : Scalar} (used : s ∈ (Inst.mutSeqSplit collection first last).scalars) :
      Memoir.word middle.env s = Memoir.word state.env s := by
    rw [← alike.scalar s used]
    cases s with
    | constant _ => rfl
    | name x =>
      have other : x ≠ .ssa b i 0 := by
        rintro rfl
        exact scalar_old at_ used trivial
      have same : middle.env x = state'.env x := State.bind_env_ne _ _ other
      simp only [Memoir.word,same]
  have removed : Unversioned.exec (environment oracle) (.ssa b i 1)
      (.backend .vectorRemoveRange [object] [first,last] none) middle =
        some (((Unversioned.mutate middle h left).bind (.ssa b i 1) (.reference h)).emit []) := by
    have found' : (Inst.backend .vectorRemoveRange [object] [first,last] none).operation middle.env
        (environment oracle middle.trace) = some (.seqRemove (some w) (some w')) := by
      simp [Inst.operation,kept (s := first) (by simp [Inst.scalars]),
        kept (s := last) (by simp [Inst.scalars]),evaluated,evaluated']
    have isMutated' : (Inst.backend .vectorRemoveRange [object] [first,last] none).mutated.mapM
        (reference middle.env) = some [h] := by
      simp [Inst.mutated,beside]
    have stored' : middle.memory h = some (.sequence xs) :=
      (Function.update_of_ne bound _ _).trans (covers.memory _ _ stored)
    have isRun' : Unversioned.runOn middle (.seqRemove (some w) (some w')) [h] [] = some (.write left) := by
      simp [Unversioned.runOn,stored',Operation.run,below,inside,left]
    exact Unversioned.exec_operation rfl found' isMutated' rfl isRun'
  have covered : Covers (Unversioned.allocate (Unversioned.mutate state h left) (.inst b i) part)
      (Unversioned.mutate middle h left) := by
    have both := (covers.mutate (covers.bounded _ _ stored) left).allocate (.inst b i) (.ssa b i 0) part
    have same : (Unversioned.mutate middle h left).memory =
        (Unversioned.allocate (Unversioned.mutate state' h left) (.ssa b i 0) part).memory :=
      (Function.update_comm bound _ _ _).symm
    exact ⟨fun g c found => by rw [same]; exact both.memory g c found,both.next,both.calls,both.bounded⟩
  refine ⟨_,fun _ rest => Run.two copied removed,?_,(covered.bind_right _ _).emit []⟩
  refine mirrored.next ends renamable placed closed reachable at_ (fun n other => ?_)
    (fun n _ other => ?_) (fun split => absurd split (by simp [Inst.isSplit])) (fun _ => ?_)
    fun x k redefines apart => ?_
  · exact State.bind_env_ne _ _ other
  · exact (State.bind_env_ne _ _ (other 1)).trans (State.bind_env_ne _ _ (other 0))
  · refine ((State.bind_env_ne _ _ (by simp)).trans (State.bind_env_self _ _ _)).trans ?_
    rw [covers.next]
    exact (State.bind_env_self _ _ _).symm
  · simp only [Inst.redefines,List.mem_singleton,Prod.mk.injEq] at redefines
    obtain ⟨rfl,rfl⟩ := redefines
    obtain ⟨_,same,at'⟩ := reference_env isReference
    obtain rfl := Value.name.inj same
    exact (State.bind_env_self _ _ _).trans at'.symm

theorem Mirrored.follow
    (ran : Unversioned.exec (environment oracle) (.inst b i) inst state = some after) :
    Follows program tree inserted f (environment oracle) b i inst state' after := by
  by_cases relayed : inst.isRelayed = true
  · exact mirrored.relay ends renamable placed closed covers reachable at_ relayed ran
  · have kind := plain_source at_
    cases inst <;> simp only [Inst.isRelayed,kind,Bool.not_false,Bool.and_true,not_true_eq_false] at relayed
    case scalar => exact mirrored.pure ends renamable placed closed covers reachable at_ rfl ran
    case mutSeqAppend => exact mirrored.append ends renamable placed closed covers reachable at_ rfl ran
    case mutSeqSwapWithin =>
      exact mirrored.swapWithin ends renamable placed closed covers reachable at_ rfl ran
    case mutSeqSplit => exact mirrored.split ends renamable placed closed covers reachable at_ rfl ran

end
end Construction.RoundTrip
end Memoir
