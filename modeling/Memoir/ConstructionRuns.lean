import Memoir.Simulation

/-! Runs of the constructed function with value semantics follow the runs in place. -/
namespace Memoir.Construction
open Dominance
open InPlace (Seen Current)

/-- The code put in place of an instruction takes the value machine where the
in-place machine is after it. -/
def Follows (program : Program) (tree : Tree program.function) (inserted : List (Name × List Nat))
    (oracle : Oracle) (b i : Nat) (inst : Inst) (values : Pure.Store) (after : InPlace.Store) :
    Prop :=
  ∃ token after', (∀ function rest, Run function (Pure.exec oracle) (fun _ => True)
      ⟨b,translate (nearest program.function tree inserted (.before b i)) b i (.inst b i) inst ++ rest,
        values⟩ ⟨b,rest,after'⟩) ∧
    Stored token after after' ∧ Named program tree inserted token b (i + 1) after after'

theorem rewritten_swap (f : Value → Value) (env : Env Nat) (x y : Value) (first last toFirst : Scalar) :
    Rewritten (.mutSeqSwap x first last y toFirst) (.seqSwap (f x) first last (f y) toFirst) f env := by
  refine ⟨rfl,rfl,rfl,fun reply operation evaluated => ?_⟩
  simp only [Inst.operation,Option.pure_def,Option.bind_eq_bind,Option.bind_eq_some_iff,
    Option.some.injEq] at evaluated ⊢
  obtain ⟨w,isFirst,l,isLast,t,isTo,rfl⟩ := evaluated
  exact ⟨_,index_word isFirst,_,index_word isLast,_,index_word isTo,rfl⟩

/-- Both collections of a pair are taken out of it. -/
theorem extract_both (oracle : Oracle) (b i : Nat) (values : Pure.Store) (one two : Nat) :
    Pure.exec oracle (.ssa b i 1) (.extractValue (.ssa b i 0) false)
        (values.bind (.ssa b i 0) (.pair one two)) =
      some ((values.bind (.ssa b i 0) (.pair one two)).bind (.ssa b i 1) (.reference one)) ∧
    Pure.exec oracle (.ssa b i 2) (.extractValue (.ssa b i 0) true)
        ((values.bind (.ssa b i 0) (.pair one two)).bind (.ssa b i 1) (.reference one)) =
      some (((values.bind (.ssa b i 0) (.pair one two)).bind (.ssa b i 1) (.reference one)).bind
        (.ssa b i 2) (.reference two)) := by
  constructor
  · exact Pure.exec_extract (State.bind_env_self _ _ _)
  · exact Pure.exec_extract ((State.bind_env_ne _ _ (by simp)).trans (State.bind_env_self _ _ _))

section
variable {program : Program} {tree : Tree program.function} {inserted : List (Name × List Nat)}
  {oracle : Oracle} {token : Stamp → Nat} {b i : Nat} {block : BasicBlock} {inst : Inst}
  {state after : InPlace.Store} {values : Pure.Store}
  (renamable : Renamable program tree)
  (placed : Placed program inserted) (closed : Closed tree inserted)
  (before : Before program tree inserted oracle token b i block inst state values)
include before

theorem Before.first_plain (plain : inst.isSplit = false) :
    firstVersion program.function (.inst b i) = .inst b i :=
  firstVersion_inst (Function.instruction?_eq before.found before.entry) plain

/-- A result on both machines. -/
theorem Before.bind_result {token' : Stamp → Nat} {after' : Pure.Store} (isMut : inst.isMut = false)
    (agree : ∀ stamp, Seen state stamp → token' stamp = token stamp) {value : RtValue Stamp}
    (env : after.env = Function.update state.env (.inst b i) (some value))
    (defined : after.defined = Function.update state.defined (.inst b i) (some value))
    (kept : after'.env = Function.update values.env (.inst b i) (some (value.map token'))) :
    Named program tree inserted token' b (i + 1) after after' := by
  obtain ⟨none,plain,_⟩ := plain_shape isMut before.kind
  refine before.named.next before.found before.entry before.stored before.reachable agree ?_ ?_ ?_ ?_
    ?_ ?_ ?_
  · intro x apart _
    rw [env,Function.update_of_ne apart]
  · intro x apart
    rw [defined,Function.update_of_ne apart]
  · intro d apart _
    rw [kept,Function.update_of_ne apart]
  · intro _
    rw [kept,defined,Function.update_self,Function.update_self,Option.map_some]
  · intro _
    rw [before.first_plain plain,kept,env,Function.update_self,Function.update_self,Option.map_some]
  · intro _
    rw [env,defined,Function.update_self,Function.update_self]
  · intro x k redefines
    rw [none] at redefines
    exact absurd redefines List.not_mem_nil

/-- No result. -/
theorem Before.no_result {after' : Pure.Store} (isMut : inst.isMut = false)
    (scalar : program.function.valueIsCollectionType (.inst b i) = false)
    (env : after.env = state.env) (defined : after.defined = state.defined)
    (kept : after'.env = values.env) :
    Named program tree inserted token b (i + 1) after after' := by
  obtain ⟨none,plain,_⟩ := plain_shape isMut before.kind
  refine before.named.next before.found before.entry before.stored before.reachable
    (fun _ _ => rfl) ?_ ?_ ?_ ?_ ?_ ?_ ?_
  · exact fun x _ _ => congrFun env x
  · exact fun x _ => congrFun defined x
  · exact fun d _ _ => congrFun kept d
  · intro isSplit
    rw [kept,defined]
    exact before.named.firsts _ id isSplit
  · exact fun isCollection => absurd (scalar.symm.trans isCollection) (by simp)
  · intro _
    rw [env,defined]
    exact before.named.scalars _ scalar
  · intro x k redefines
    rw [none] at redefines
    exact absurd redefines List.not_mem_nil

theorem Before.plain_scalar {function : List Word → Word} {operands : List Scalar}
    (is : inst = .scalar function operands) {words : List Word}
    (evaluated : operands.mapM (word state.env) = some words) :
    Follows program tree inserted oracle b i inst values
      (state.bind (.inst b i) (.word (function words))) := by
  subst is
  have inBlocks := List.mem_of_getElem? before.found
  have inBody := List.mem_of_getElem? before.entry
  have agree : ∀ n, .name n ∈ operands → values.env n = (state.env n).map (RtValue.map token) := by
    intro n member
    refine before.named.scalar_operand ((program.ssa.defined block inBlocks).1 _ _ inBody n ?_)
      (((program.scalars block inBlocks).1 _ _ inBody).1 n member)
    simp only [Inst.names,List.mem_append,List.mem_filterMap]
    exact .inr ⟨_,member,rfl⟩
  have ran : Pure.exec oracle (.inst b i) (.scalar function operands) values =
      some (values.bind (.inst b i) (.word (function words))) := by
    simp [Pure.exec,words_map agree,evaluated]
  refine ⟨token,_,fun _ _ => .instruction trivial ran,?_,
    before.bind_result rfl (fun _ _ => rfl) rfl rfl rfl⟩
  exact (before.stored.bind _ (by simp [RtValue.references])).named _ _

/-- New versions of the operands, and no result. -/
theorem Before.new_versions {token' : Stamp → Nat} {after' : Pure.Store} (isMut : inst.isMut = true)
    (plain : inst.isSplit = false) (agree : ∀ stamp, Seen state stamp → token' stamp = token stamp)
    (env : ∀ x, (∀ k, (.name x,k) ∉ inst.redefines) → after.env x = state.env x)
    (defined : after.defined = state.defined)
    (kept : ∀ d, (∀ k, d ≠ .ssa b i k) → after'.env d = values.env d)
    (redefined : ∀ x k, (.name x,k) ∈ inst.redefines →
      after'.env (.ssa b i k) = (after.env x).map (RtValue.map token')) :
    Named program tree inserted token' b (i + 1) after after' := by
  have scalar : program.function.valueIsCollectionType (.inst b i) = false :=
    (program.results block (List.mem_of_getElem? before.found) _ _
      (List.mem_of_getElem? before.entry) isMut).trans plain
  have own : after.env (.inst b i) = state.env (.inst b i) := by
    refine env _ fun k redefines => ?_
    have operand := Inst.mutated_operands (Inst.redefines_mutated redefines)
    exact absurd (scalar.symm.trans (operands_collections before.found before.entry operand)) (by simp)
  refine before.named.next before.found before.entry before.stored before.reachable agree ?_ ?_ ?_ ?_
    ?_ ?_ redefined
  · exact fun x _ none => env x none
  · exact fun x _ => congrFun defined x
  · exact fun d _ apart => kept d apart
  · intro isSplit
    rw [kept _ (by simp),defined,before.named.firsts _ id isSplit,
      map_agree agree (before.stored.defined _)]
  · exact fun isCollection => absurd (scalar.symm.trans isCollection) (by simp)
  · intro _
    rw [own,defined]
    exact before.named.scalars _ scalar

/-- The keys that are read are present. -/
theorem Before.present {operation : Operation Stamp} {mutated : List Stamp}
    {contents : List (Content Stamp)}
    (evaluated : inst.operation state.env (oracle state.trace) = some operation)
    (isMutated : inst.mutated.mapM (reference state.env) = some mutated)
    (held : mutated.mapM (InPlace.content state) = some contents) (key : Word)
    (entries : List (Word × Datum Stamp)) (reads : operation = .assocRead key)
    (isAssoc : contents = [.assoc entries]) : (entries.lookup key).isSome = true := by
  obtain ⟨object,k,is⟩ : ∃ object k, inst = .assocRead object k ∨ inst = .assocGet object k := by
    have kind := before.kind
    subst reads
    cases inst
    case assocRead object k => exact ⟨object,k,.inl rfl⟩
    case assocGet object k => exact ⟨object,k,.inr rfl⟩
    case backend => exact absurd kind.2 (by simp [Inst.isBackend])
    all_goals simp [Inst.operation,Option.bind_eq_some_iff] at evaluated
  have word : word state.env k = some key := by
    rcases is with rfl | rfl <;>
      simpa [Inst.operation,Option.bind_eq_some_iff,reads] using evaluated
  obtain ⟨stamp,isStamp,rfl⟩ : ∃ stamp, reference state.env object = some stamp ∧
      mutated = [stamp] := by
    rcases is with rfl | rfl <;> exact mapM_singleton isMutated
  refine before.tracked.present object k is stamp entries key isStamp ?_ word
  simpa [isAssoc,Option.bind_eq_some_iff] using held

/-- What returns nothing is no collection. -/
theorem Before.unanswered {callee : Nat} {scalars : List Word}
    (evaluated : inst.operation state.env (oracle state.trace) = some (.call callee scalars .none)) :
    program.function.valueIsCollectionType (.inst b i) = false := by
  have kind := before.kind
  cases inst
  case call callee' collections scalars' =>
    simp only [Inst.operation,Option.pure_def,Option.bind_eq_bind,Option.bind_eq_some_iff,
      Option.some.injEq,Operation.call.injEq] at evaluated
    obtain ⟨_,_,_,_,silent⟩ := evaluated
    by_contra isCollection
    obtain ⟨content,answer⟩ :=
      before.tracked.replied _ _ _ rfl (eq_true_of_ne_false isCollection)
    exact absurd (silent.symm.trans answer) (by simp)
  case backend => exact absurd kind.2 (by simp [Inst.isBackend])
  all_goals simp [Inst.operation,Option.bind_eq_some_iff] at evaluated

include renamable placed closed

/-- A renamed operand holds the token of its variable's version. -/
theorem Before.renamed_reference {operand : Value} (used : operand ∈ inst.mutated ++ inst.read)
    {stamp : Stamp} (is : reference state.env operand = some stamp) :
    reference values.env (rename (nearest program.function tree inserted (.before b i)) operand) =
      some (token stamp) := by
  refine reference_map ?_ is
  rintro x rfl
  refine ⟨_,rfl,before.renamed renamable placed closed ?_⟩
  rw [Inst.operands]
  exact List.mem_append_left _ used

/-- What is no mutable operation. -/
theorem Before.plain (isMut : inst.isMut = false)
    (ran : InPlace.exec oracle (.inst b i) inst state = some after) :
    Follows program tree inserted oracle b i inst values after := by
  rcases InPlace.exec_some before.kind.2 ran with ⟨function,operands,words,is,evaluated,rfl⟩ |
    ⟨_,operation,mutated,read,outcome,evaluated,isMutated,isRead,applied,rfl⟩
  · exact before.plain_scalar is evaluated
  have reads := Inst.plain_reads isMut before.kind evaluated
  obtain ⟨contents,contents',held,held',ran⟩ := InPlace.runOn_some
    (by rintro first last toFirst x y rfl; exact absurd reads (by simp [Operation.reads])) applied
  obtain ⟨unchanged,result⟩ := Operation.reads_outcome reads
    (before.present evaluated isMutated held) ran
  obtain ⟨none,plain,consumed⟩ := plain_shape isMut before.kind
  obtain ⟨new,f,code,isSsa,rewritten,_,kept⟩ := translate_plain isMut before.kind
    (nearest program.function tree inserted (.before b i)) b i (.inst b i)
  have renamed : ∀ operand ∈ inst.mutated ++ inst.read, ∀ stamp,
      reference state.env operand = some stamp →
        reference values.env (f operand) = some (token stamp) := by
    intro operand used stamp is
    rcases kept with rfl | ⟨rfl,unrenamed⟩
    · exact before.renamed_reference renamable placed closed used is
    · refine reference_map ?_ is
      rintro x rfl
      exact ⟨x,rfl,before.unrenamed renamable (unrenamed _ used)⟩
  obtain ⟨exec,made⟩ := before.exec_rewritten renamable (rewritten _) renamed evaluated isMutated isRead
    held held' ran (.inst b i)
  rw [consumed,InPlace.writeBack_unchanged _ _ unchanged]
  simp only [isSsa,Bool.false_eq_true,if_false,List.nil_append] at exec
  unfold Follows
  rw [code]
  cases created : outcome.created with
  | some c =>
    have inOutcome : ∀ stamp ∈ c.references, Seen state stamp := by
      intro stamp member
      refine made stamp ?_
      simp [Outcome.references,created,member]
    obtain ⟨token',same,agree,stored⟩ := (before.stored.made (c.map token)).create inOutcome
      (Nat.lt_succ_self _) (Pure.create_value _ _)
    have exec' : Pure.exec oracle (.inst b i) new values = some
        (((Pure.create values (c.map token)).emit outcome.events).bind (.inst b i)
          (.reference values.next)) := by
      rw [exec]
      simp [Outcome.map,created,Pure.allocate,Pure.bindResult,Pure.create]
    have bound : InPlace.bindResult state (.inst b i) inst mutated outcome =
        (InPlace.create state c).bind (.inst b i) (.reference ⟨state.next,0⟩) := by
      simp [InPlace.bindResult,created,InPlace.allocate,InPlace.create]
    rw [bound]
    refine ⟨token',_,fun _ _ => .instruction trivial exec',?_,
      before.bind_result isMut agree rfl rfl ?_⟩
    · refine ((stored.bind _ ?_).emit outcome.events).named _ _
      intro stamp member
      obtain rfl := List.mem_singleton.mp member
      exact .fresh c
    · simp [RtValue.map,same,State.bind,State.emit,Pure.create]
  | none =>
    cases is : outcome.result with
    | some d =>
      have exec' : Pure.exec oracle (.inst b i) new values = some
          ((values.emit outcome.events).bind (.inst b i) (rtValue (d.map token))) := by
        rw [exec]
        simp [Outcome.map,created,is,Pure.allocate,Pure.bindResult]
      have bound : InPlace.bindResult state (.inst b i) inst mutated outcome =
          state.bind (.inst b i) (rtValue d) := by
        simp [InPlace.bindResult,created,is]
      rw [bound]
      refine ⟨token,_,fun _ _ => .instruction trivial exec',?_,
        before.bind_result isMut (fun _ _ => rfl) rfl rfl ?_⟩
      · refine ((before.stored.bind _ ?_).emit outcome.events).named _ _
        intro stamp member
        rw [rtValue_references] at member
        exact made stamp (by simp [Outcome.references,is,member])
      · simp [rtValue_map,State.bind,State.emit]
    | none =>
      have exec' : Pure.exec oracle (.inst b i) new values = some (values.emit outcome.events) := by
        rw [exec]
        simp [Outcome.map,created,is,Pure.allocate,Pure.bindResult]
      rw [InPlace.bindResult_nothing before.kind.2 created is]
      refine ⟨token,_,fun _ _ => .instruction trivial exec',before.stored.emit _,
        before.no_result isMut ?_ rfl rfl rfl⟩
      obtain ⟨callee,scalars,rfl⟩ := result created is
      exact before.unanswered evaluated

/-- Operations that write one collection by one instruction. -/
theorem Before.write {x : Value} {k : Nat} {new : Inst} (isMut : inst.isMut = true)
    (plain : inst.isSplit = false) (isMutated : inst.mutated = [x])
    (redefines : inst.redefines = [(x,k)]) (isSsa : new.isSsa = true)
    (rewritten : Rewritten inst new
      (rename (nearest program.function tree inserted (.before b i))) values.env)
    (writes : ∀ operation : Operation Stamp,
      inst.operation state.env (oracle state.trace) = some operation → operation.writes = true)
    (ran : InPlace.exec oracle (.inst b i) inst state = some after) :
    ∃ token' after', Pure.exec oracle (.ssa b i k) new values = some after' ∧
      Stored token' after after' ∧ Named program tree inserted token' b (i + 1) after after' := by
  rcases InPlace.exec_some before.kind.2 ran with ⟨function,operands,words,is,evaluated,rfl⟩ |
    ⟨_,operation,mutated,read,outcome,evaluated,isMutated',isRead,applied,rfl⟩
  · exact absurd isMut (by simp [is,Inst.isMut])
  have isWrite := writes operation evaluated
  obtain ⟨contents,contents',held,held',ran⟩ := InPlace.runOn_some
    (by rintro first last toFirst x y rfl; exact absurd isWrite (by simp [Operation.writes])) applied
  obtain ⟨old,c,rfl,rfl⟩ := Operation.writes_outcome isWrite ran
  obtain ⟨exec,made⟩ := before.exec_rewritten renamable rewritten
    (fun operand used stamp is => before.renamed_reference renamable placed closed used is)
    evaluated isMutated' isRead held held' ran (.ssa b i k)
  have seen : ∀ stamp ∈ c.references, Seen state stamp := by
    intro stamp member
    refine made stamp ?_
    simpa [Outcome.references,Outcome.write,List.reduceOption] using member
  rw [isMutated] at isMutated'
  obtain ⟨stamp,isStamp,rfl⟩ := mapM_singleton isMutated'
  obtain ⟨n,rfl,at_⟩ := reference_env isStamp
  obtain ⟨object,present,_⟩ := before.tracked.current (.name n)
    (by rw [isMutated]; exact List.mem_cons_self) stamp isStamp
  obtain ⟨token',same,agree,stored⟩ := (before.stored.made (c.map token)).mutate present seen
    (Nat.lt_succ_self _) (Pure.create_value _ _)
  have exec' : Pure.exec oracle (.ssa b i k) new values = some
      ((Pure.create values (c.map token)).bind (.ssa b i k) (.reference values.next)) := by
    rw [exec]
    simp [Outcome.map,Outcome.write,isSsa,Pure.allocate,Pure.bindResult,Pure.create,State.emit]
  have written : InPlace.writeBack state
      (inst.mutated.zip ([stamp].zip (Outcome.write c).mutated)) =
        (InPlace.mutate state stamp.handle (object.version + 1) c).restamp n
          ⟨stamp.handle,object.version + 1⟩ := by
    rw [isMutated]
    exact InPlace.writeBack_one present c
  rw [InPlace.bindResult_nothing before.kind.2 rfl rfl,written]
  obtain ⟨env,defined⟩ := InPlace.consume_env
    ((InPlace.mutate state stamp.handle (object.version + 1) c).restamp n
      ⟨stamp.handle,object.version + 1⟩) inst read
  refine ⟨token',_,exec',?_,before.new_versions isMut plain agree ?_ defined ?_ ?_⟩
  · refine (((stored.restamp n ?_).consume inst read).emit []).named _ _
    exact (before.stored.env n _ at_ stamp (List.mem_singleton.mpr rfl)).renewed _ c
  · intro m none
    have apart : m ≠ n := by
      rintro rfl
      exact none k (by rw [redefines]; exact List.mem_cons_self)
    exact (congrFun env m).trans (State.restamp_env_ne _ _ apart)
  · exact fun d apart => State.bind_env_ne _ _ (apart k)
  · intro m k' member
    rw [redefines,List.mem_singleton] at member
    simp only [Prod.mk.injEq,Value.name.injEq] at member
    obtain ⟨rfl,rfl⟩ := member
    have renewed := (congrFun env m).trans (State.restamp_env_self _ _ _)
    refine (State.bind_env_self _ _ _).trans ?_
    refine Eq.trans ?_ (congrArg (Option.map (RtValue.map token')) renewed).symm
    simp [RtValue.map,same]

theorem Before.simple (simple : inst.isSimple = true)
    (ran : InPlace.exec oracle (.inst b i) inst state = some after) :
    Follows program tree inserted oracle b i inst values after := by
  obtain ⟨x,isMutated,redefines,isMut,plain⟩ := simple_shape simple
  obtain ⟨new,code,isSsa,rewritten⟩ := translate_simple simple
    (nearest program.function tree inserted (.before b i)) b i (.inst b i)
  obtain ⟨token',after',exec,stored,named⟩ := before.write renamable placed closed isMut plain
    isMutated redefines isSsa (rewritten _) (fun _ => Inst.simple_writes simple) ran
  unfold Follows
  rw [code]
  exact ⟨token',after',fun _ _ => .instruction trivial exec,stored,named⟩

omit renamable placed closed in
/-- A new name changes nothing for the others. -/
theorem Before.put {values' : Pure.Store} (stored : Stored token state values')
    (kept : ∀ d, (∀ k, d ≠ .ssa b i k) → values'.env d = values.env d) :
    Before program tree inserted oracle token b i block inst state values' where
  found := before.found
  entry := before.entry
  reachable := before.reachable
  named := by
    refine ⟨?_,before.named.scalars,?_⟩
    · intro n old isSplit
      rw [kept n (by rintro k rfl; exact old trivial)]
      exact before.named.firsts n old isSplit
    · intro x variable_ live d nearest
      rw [kept d (by rintro k rfl; exact not_dominates_site tree rfl nearest.2.1)]
      exact before.named.versions x variable_ live d nearest
  stored := stored
  tracked := before.tracked

theorem Before.append {collection appended : Value} (is : inst = .mutSeqAppend collection appended)
    (ran : InPlace.exec oracle (.inst b i) inst state = some after) :
    Follows program tree inserted oracle b i inst values after := by
  subst is
  have middle : Before program tree inserted oracle token b i block (.mutSeqAppend collection appended)
      state (values.bind (.ssa b i 0) .endOfSequence) :=
    before.put (before.stored.named _ _) fun d apart => State.bind_env_ne _ _ (apart 0)
  have rewritten : Rewritten (.mutSeqAppend collection appended)
      (.seqInsertSeq (rename (nearest program.function tree inserted (.before b i)) appended)
        (rename (nearest program.function tree inserted (.before b i)) collection)
        (.name (.ssa b i 0)))
      (rename (nearest program.function tree inserted (.before b i)))
      (values.bind (.ssa b i 0) .endOfSequence).env := by
    refine ⟨rfl,rfl,rfl,fun reply operation evaluated => ?_⟩
    obtain rfl := Option.some.inj evaluated
    simp [Inst.operation,index]
  obtain ⟨token',after',exec,stored,named⟩ := middle.write renamable placed closed rfl rfl rfl rfl rfl
    rewritten (fun operation evaluated => by obtain rfl := Option.some.inj evaluated; rfl) ran
  exact ⟨token',after',fun _ _ => .two rfl exec,stored,named⟩

omit renamable placed closed in
/-- Two collections get their new contents one after the other. -/
theorem Before.renew_two {m m' : Name} {s t : Stamp} {object object' : Object}
    {new new' : Content Stamp} (at_ : state.env m = some (.reference s))
    (at' : state.env m' = some (.reference t)) (apart : s.handle ≠ t.handle)
    (present : state.memory s.handle = some object) (present' : state.memory t.handle = some object')
    (seen : ∀ stamp ∈ new.references,Seen state stamp)
    (seen' : ∀ stamp ∈ new'.references,Seen state stamp) :
    ∃ token',(∀ stamp,Seen state stamp → token' stamp = token stamp) ∧
      token' ⟨s.handle,object.version + 1⟩ = values.next ∧
      token' ⟨t.handle,object'.version + 1⟩ = values.next + 1 ∧
      Stored token' ((InPlace.mutate ((InPlace.mutate state s.handle (object.version + 1) new).restamp m
          ⟨s.handle,object.version + 1⟩) t.handle (object'.version + 1) new').restamp m'
            ⟨t.handle,object'.version + 1⟩)
        (Pure.create (Pure.create values (new.map token)) (new'.map token)) := by
  have fresh := (before.stored.env m _ at_ s (List.mem_singleton.mpr rfl)).renewed (object.version + 1) new
  have grown : Stored token state (Pure.create (Pure.create values (new.map token)) (new'.map token)) :=
    (before.stored.made _).made _
  obtain ⟨token₁,same₁,agree₁,stored₁⟩ := grown.mutate present seen
    (Nat.lt_succ_of_lt (Nat.lt_succ_self values.next))
    (by simp [Pure.create,Function.update_of_ne])
  have present₁ : ((InPlace.mutate state s.handle (object.version + 1) new).restamp m
      ⟨s.handle,object.version + 1⟩).memory t.handle = some object' :=
    (Function.update_of_ne (Ne.symm apart) _ _).trans present'
  have older : ∀ stamp,Seen state stamp →
      Seen (InPlace.mutate state s.handle (object.version + 1) new) stamp :=
    fun stamp seen => seen.mutate present new
  obtain ⟨token₂,same₂,agree₂,stored₂⟩ := (stored₁.restamp m fresh).mutate present₁
    (fun stamp member => older stamp (seen' stamp member)) (Nat.lt_succ_self _)
    (by rw [Stored.agree_content agree₁ seen']; exact Pure.create_value _ _)
  refine ⟨token₂,fun stamp seen => (agree₂ stamp (older stamp seen)).trans (agree₁ stamp seen),
    (agree₂ _ fresh).trans same₁,same₂,stored₂.restamp m' ?_⟩
  exact (older t (before.stored.env m' _ at' t (List.mem_singleton.mpr rfl))).renewed
    (object'.version + 1) new'

theorem Before.swap {x y : Value} {first last toFirst : Scalar}
    (is : inst = .mutSeqSwap x first last y toFirst)
    (ran : InPlace.exec oracle (.inst b i) inst state = some after) :
    Follows program tree inserted oracle b i inst values after := by
  have rewritten : Rewritten inst
      (.seqSwap (rename (nearest program.function tree inserted (.before b i)) x) first last
        (rename (nearest program.function tree inserted (.before b i)) y) toFirst)
      (rename (nearest program.function tree inserted (.before b i))) values.env :=
    is ▸ rewritten_swap _ _ _ _ _ _ _
  rcases InPlace.exec_some before.kind.2 ran with ⟨function,operands,words,is',evaluated,rfl⟩ |
    ⟨_,operation,mutated,read,outcome,evaluated,isMutated,isRead,applied,rfl⟩
  · exact absurd (is.symm.trans is') (by simp)
  have operands : inst.mutated = [x,y] := by rw [is]; rfl
  have isMutated' := isMutated
  rw [operands] at isMutated'
  obtain ⟨s,t,isFrom,isTo,rfl⟩ := mapM_pair isMutated'
  have apart := before.tracked.apart x first last y toFirst is s t isFrom isTo
  obtain ⟨contents,contents',held,held',ran⟩ := InPlace.runOn_some
    (by rintro _ _ _ _ _ _ ⟨⟩; exact apart) applied
  obtain ⟨f,l,t',rfl⟩ : ∃ f l t', operation = .seqSwap f l t' := by
    rw [is] at evaluated
    simp only [Inst.operation,Option.pure_def,Option.bind_eq_bind,Option.bind_eq_some_iff,
      Option.some.injEq] at evaluated
    obtain ⟨_,_,_,_,_,_,rfl⟩ := evaluated
    exact ⟨_,_,_,rfl⟩
  obtain ⟨old,old',new,new',rfl,rfl⟩ := Operation.swap_outcome ran
  obtain ⟨exec,made⟩ := before.exec_rewritten renamable rewritten
    (fun operand used stamp is => before.renamed_reference renamable placed closed used is)
    evaluated isMutated isRead held held' ran (.ssa b i 0)
  have seen : ∀ stamp ∈ new.references, Seen state stamp :=
    fun stamp member => made stamp (by simp [Outcome.references,List.reduceOption,member])
  have seen' : ∀ stamp ∈ new'.references, Seen state stamp :=
    fun stamp member => made stamp (by simp [Outcome.references,List.reduceOption,member])
  obtain ⟨m,rfl,at_⟩ := reference_env isFrom
  obtain ⟨m',rfl,at'⟩ := reference_env isTo
  have distinct : m ≠ m' := by
    rintro rfl
    obtain ⟨⟩ := at_.symm.trans at'
    exact apart rfl
  have redefines : inst.redefines = [(.name m,1),(.name m',2)] := by
    rw [is]
    simp [Inst.redefines,distinct]
  obtain ⟨object,present,_⟩ := before.tracked.current (.name m)
    (by rw [operands]; simp) s isFrom
  obtain ⟨object',present',_⟩ := before.tracked.current (.name m')
    (by rw [operands]; simp) t isTo
  obtain ⟨token₂,agree,same₁,same₂,stored⟩ :=
    before.renew_two at_ at' apart present present' seen seen'
  have written : InPlace.writeBack state
      (inst.mutated.zip ([s,t].zip [some new,some new'])) =
        (InPlace.mutate ((InPlace.mutate state s.handle (object.version + 1) new).restamp m
          ⟨s.handle,object.version + 1⟩) t.handle (object'.version + 1) new').restamp m'
            ⟨t.handle,object'.version + 1⟩ := by
    rw [operands]
    exact InPlace.writeBack_two present present' apart new new'
  have consumed : ∀ state read, InPlace.consume state inst read = state := by
    subst is
    exact fun _ _ => rfl
  rw [InPlace.bindResult_nothing before.kind.2 rfl rfl,consumed,written]
  have exec' : Pure.exec oracle (.ssa b i 0) (.seqSwap
      (rename (nearest program.function tree inserted (.before b i)) (.name m)) first last
      (rename (nearest program.function tree inserted (.before b i)) (.name m')) toFirst) values =
        some ((Pure.create (Pure.create values (new.map token)) (new'.map token)).bind (.ssa b i 0)
          (.pair values.next (values.next + 1))) := by
    rw [exec]
    simp [Inst.isSsa,Outcome.map,List.reduceOption,Pure.allocate,Pure.bindResult,Pure.create,
      State.emit]
  generalize made' : Pure.create (Pure.create values (new.map token)) (new'.map token) = grownValues
    at exec' stored
  have kept : grownValues.env = values.env := by rw [← made']; rfl
  obtain ⟨exec₁,exec₂⟩ := extract_both oracle b i grownValues values.next (values.next + 1)
  subst is
  refine ⟨token₂,_,fun _ _ => .three exec' exec₁ exec₂,
    ((stored.named _ _).named _ _).named _ _,?_⟩
  refine before.new_versions rfl rfl agree ?_ rfl ?_ ?_
  · intro n none
    have first : n ≠ m := by
      rintro rfl
      exact none 1 (by rw [redefines]; simp)
    have second : n ≠ m' := by
      rintro rfl
      exact none 2 (by rw [redefines]; simp)
    exact (State.restamp_env_ne _ _ second).trans (State.restamp_env_ne _ _ first)
  · intro d apart
    rw [State.bind_env_ne _ _ (apart 2),State.bind_env_ne _ _ (apart 1),
      State.bind_env_ne _ _ (apart 0),kept]
  · intro n k member
    rw [redefines] at member
    simp only [List.mem_cons,Prod.mk.injEq,Value.name.injEq,List.not_mem_nil,or_false] at member
    rcases member with ⟨rfl,rfl⟩ | ⟨rfl,rfl⟩
    · have stands := (State.restamp_env_ne (InPlace.mutate ((InPlace.mutate state s.handle
        (object.version + 1) new).restamp n ⟨s.handle,object.version + 1⟩) t.handle
          (object'.version + 1) new') ⟨t.handle,object'.version + 1⟩ distinct).trans
        (State.restamp_env_self _ _ _)
      refine (State.bind_env_ne _ _ (by simp)).trans ((State.bind_env_self _ _ _).trans ?_)
      refine Eq.trans ?_ (congrArg (Option.map (RtValue.map token₂)) stands).symm
      simp [RtValue.map,same₁]
    · refine (State.bind_env_self _ _ _).trans ?_
      refine Eq.trans ?_ (congrArg (Option.map (RtValue.map token₂))
        (State.restamp_env_self _ _ _)).symm
      simp [RtValue.map,same₂]

/-- The copy of a split, and then the rest, on the value machine. -/
theorem Before.split_values {collection : Value} {first last : Scalar}
    (is : inst = .mutSeqSplit collection first last) {f l : Word}
    (evaluated : inst.operation state.env (oracle state.trace) = some (.seqSplit f l))
    {stamp : Stamp} (isStamp : reference state.env collection = some stamp)
    {xs : List (Datum Stamp)} (held : InPlace.content state stamp = some (.sequence xs))
    (lower : f ≤ l) (upper : l ≤ xs.length) :
    ∃ copied rest, copied = (Pure.create values ((Content.sequence (slice xs f l)).map token)).bind
        (.ssa b i 0) (.reference values.next) ∧
      rest = (Pure.create copied ((Content.sequence (splice xs f (l - f) [])).map token)).bind
        (.ssa b i 1) (.reference copied.next) ∧
      Pure.exec oracle (.ssa b i 0) (.seqCopy
        (rename (nearest program.function tree inserted (.before b i)) collection) first last) values =
          some copied ∧
      Pure.exec oracle (.ssa b i 1) (.seqRemove
        (rename (nearest program.function tree inserted (.before b i)) collection) first last) copied =
          some rest := by
  subst is
  have words : ∀ {values' : Pure.Store}, Before program tree inserted oracle token b i block
      (.mutSeqSplit collection first last) state values' →
      index values'.env first = some (some f) ∧ index values'.env last = some (some l) := by
    intro values' before'
    have evaluated' := before'.operation renamable evaluated
    simp only [Inst.operation,Option.pure_def,Option.bind_eq_bind,Option.bind_eq_some_iff,
      Option.some.injEq,Operation.map,Operation.seqSplit.injEq] at evaluated'
    obtain ⟨_,isFirst,_,isLast,rfl,rfl⟩ := evaluated'
    exact ⟨index_word isFirst,index_word isLast⟩
  have used : collection ∈ (Inst.mutSeqSplit collection first last).mutated ++
      (Inst.mutSeqSplit collection first last).read := List.mem_cons_self
  have current := before.tracked.current collection used stamp isStamp
  have copying : Pure.exec oracle (.ssa b i 0) (.seqCopy
      (rename (nearest program.function tree inserted (.before b i)) collection) first last) values =
        some ((Pure.create values ((Content.sequence (slice xs f l)).map token)).bind (.ssa b i 0)
          (.reference values.next)) := by
    have named := before.renamed_reference renamable placed closed used isStamp
    have run : (Operation.seqCopy (some f) (some l)).run []
        [(Content.sequence xs).map token] =
          some (Outcome.create ((Content.sequence (slice xs f l)).map token)) := by
      simp [Operation.run,lower,upper,slice_map]
    have operation : (Inst.seqCopy (rename (nearest program.function tree inserted (.before b i))
        collection) first last).operation values.env (oracle values.trace) =
          some (.seqCopy (some f) (some l)) := by
      simp [Inst.operation,words before]
    have read : (Inst.seqCopy (rename (nearest program.function tree inserted (.before b i))
        collection) first last).read.mapM (reference values.env) = some [token stamp] := by
      simp [Inst.read,named]
    have memory : [token stamp].mapM values.memory = some [(Content.sequence xs).map token] := by
      simp [before.stored.value current held]
    exact Pure.exec_operation rfl operation rfl read rfl memory run
  refine ⟨_,_,rfl,rfl,copying,?_⟩
  have later : Before program tree inserted oracle token b i block
      (.mutSeqSplit collection first last) state
      ((Pure.create values ((Content.sequence (slice xs f l)).map token)).bind (.ssa b i 0)
        (.reference values.next)) :=
    before.put ((before.stored.made _).named _ _) fun d apart => State.bind_env_ne _ _ (apart 0)
  generalize (Pure.create values ((Content.sequence (slice xs f l)).map token)).bind (.ssa b i 0)
    (.reference values.next) = copied at later
  have named := later.renamed_reference renamable placed closed used isStamp
  have run : (Operation.seqRemove (some f) (some l)).run [(Content.sequence xs).map token] [] =
      some (Outcome.write ((Content.sequence (splice xs f (l - f) [])).map token)) := by
    have spliced := splice_map (Datum.map token) xs [] f (l - f)
    rw [List.map_nil] at spliced
    simp [Operation.run,lower,upper,spliced]
  have operation : (Inst.seqRemove (rename (nearest program.function tree inserted (.before b i))
      collection) first last).operation copied.env (oracle copied.trace) =
        some (.seqRemove (some f) (some l)) := by
    simp [Inst.operation,words later]
  have mutated : (Inst.seqRemove (rename (nearest program.function tree inserted (.before b i))
      collection) first last).mutated.mapM (reference copied.env) = some [token stamp] := by
    simp [Inst.mutated,named]
  have memory : [token stamp].mapM copied.memory = some [(Content.sequence xs).map token] := by
    simp [later.stored.value current held]
  exact Pure.exec_operation rfl operation mutated rfl memory rfl run

omit renamable placed closed in
/-- A collection gets its new contents, and one is made of what it lost. -/
theorem Before.renew_made {m : Name} {stamp : Stamp} {object : Object} {left part : Content Stamp}
    {copied : Pure.Store} (at_ : state.env m = some (.reference stamp))
    (present : state.memory stamp.handle = some object)
    (seen : ∀ stamp ∈ left.references,Seen state stamp)
    (seen' : ∀ stamp ∈ part.references,Seen state stamp)
    (isCopied : copied = (Pure.create values (part.map token)).bind (.ssa b i 0)
      (.reference values.next)) :
    ∃ token',(∀ stamp,Seen state stamp → token' stamp = token stamp) ∧
      token' ⟨stamp.handle,object.version + 1⟩ = copied.next ∧ token' ⟨state.next,0⟩ = values.next ∧
      Stored token' (InPlace.create ((InPlace.mutate state stamp.handle (object.version + 1) left).restamp m
          ⟨stamp.handle,object.version + 1⟩) part) (Pure.create copied (left.map token)) := by
  have next : copied.next = values.next + 1 := by rw [isCopied]; rfl
  have value : copied.memory values.next = some (part.map token) := by
    rw [isCopied]
    exact Pure.create_value _ _
  have grown : Stored token state copied := by
    rw [isCopied]
    exact (before.stored.made _).named _ _
  have older : ∀ s,Seen state s →
      Seen (InPlace.mutate state stamp.handle (object.version + 1) left) s :=
    fun s seen => seen.mutate present _
  have renewed := (before.stored.env m _ at_ stamp (List.mem_singleton.mpr rfl)).renewed
    (object.version + 1) left
  obtain ⟨token₁,same₁,agree₁,stored₁⟩ := (grown.made (left.map token)).mutate present seen
    (Nat.lt_succ_self _) (Pure.create_value _ _)
  obtain ⟨token₂,same₂,agree₂,stored₂⟩ := (stored₁.restamp m renewed).create
    (fun s member => older s (seen' s member)) (t := values.next)
    (Nat.lt_succ_of_lt (next ▸ Nat.lt_succ_self _)) (by
      rw [Stored.agree_content agree₁ seen']
      exact (Function.update_of_ne (by omega) _ _).trans value)
  exact ⟨token₂,fun s seen => (agree₂ s (older s seen)).trans (agree₁ s seen),
    (agree₂ _ renewed).trans same₁,same₂,stored₂⟩

omit renamable placed closed in
/-- No operand is the instruction's own result. -/
theorem Before.operand_ne {m : Name} (used : .name m ∈ inst.operands) : m ≠ .inst b i := by
  rintro rfl
  have ready : Ready program tree (.inst b i) (.before b i) :=
    ready_operand (Function.instruction?_eq before.found before.entry) used before.reachable
  exact not_dominates_site tree (firstVersion_site _ _) ready.2

theorem Before.split {collection : Value} {first last : Scalar}
    (is : inst = .mutSeqSplit collection first last)
    (ran : InPlace.exec oracle (.inst b i) inst state = some after) :
    Follows program tree inserted oracle b i inst values after := by
  rcases InPlace.exec_some before.kind.2 ran with ⟨function,operands,words,is',evaluated,rfl⟩ |
    ⟨_,operation,mutated,read,outcome,evaluated,isMutated,isRead,applied,rfl⟩
  · exact absurd (is.symm.trans is') (by simp)
  obtain ⟨f,l,rfl⟩ : ∃ f l, operation = .seqSplit f l := by
    rw [is] at evaluated
    simp only [Inst.operation,Option.pure_def,Option.bind_eq_bind,Option.bind_eq_some_iff,
      Option.some.injEq] at evaluated
    obtain ⟨_,_,_,_,rfl⟩ := evaluated
    exact ⟨_,_,rfl⟩
  have operands : inst.mutated = [collection] := by rw [is]; rfl
  rw [operands] at isMutated
  obtain ⟨stamp,isStamp,rfl⟩ := mapM_singleton isMutated
  obtain ⟨contents,contents',held,held',ran⟩ := InPlace.runOn_some
    (by rintro _ _ _ _ _ ⟨⟩) applied
  obtain ⟨xs,rfl,lower,upper,rfl⟩ := Operation.split_outcome ran
  have isHeld : InPlace.content state stamp = some (.sequence xs) := by
    obtain ⟨_,is,same⟩ := mapM_singleton held
    rwa [← List.singleton_inj.mp same] at is
  obtain ⟨copied,rest,isCopied,isRest,copying,removing⟩ :=
    before.split_values renamable placed closed is evaluated isStamp isHeld lower upper
  have made : ∀ stamp ∈ Outcome.references (⟨[some (.sequence (splice xs f (l - f) []))],
      some (.sequence (slice xs f l)),none,[]⟩ : Outcome Stamp),Seen state stamp := by
    refine Operation.run_references ran (fun _ member => absurd member List.not_mem_nil) ?_ ?_
    · intro content member
      rw [List.mem_singleton.mp member]
      exact before.stored.seen isHeld
    · intro content member
      obtain ⟨s,inRead,is⟩ := mem_mapM held' member
      exact before.stored.seen is
  have seen : ∀ stamp ∈ (Content.sequence (splice xs f (l - f) [])).references, Seen state stamp :=
    fun stamp member => made stamp (by simp [Outcome.references,List.reduceOption,member])
  have seen' : ∀ stamp ∈ (Content.sequence (slice xs f l)).references, Seen state stamp :=
    fun stamp member => made stamp (by simp [Outcome.references,List.reduceOption,member])
  obtain ⟨m,rfl,at_⟩ := reference_env isStamp
  obtain ⟨object,present,_⟩ := before.tracked.current (.name m)
    (by rw [operands]; simp) stamp isStamp
  obtain ⟨token₂,agree,same₁,same₂,stored₂⟩ := before.renew_made at_ present seen seen' isCopied
  have bound : InPlace.bindResult (InPlace.consume (InPlace.writeBack state (inst.mutated.zip
      ([stamp].zip [some (.sequence (splice xs f (l - f) []))]))) inst read) (.inst b i) inst [stamp]
        ⟨[some (.sequence (splice xs f (l - f) []))],some (.sequence (slice xs f l)),none,[]⟩ =
      (InPlace.create ((InPlace.mutate state stamp.handle (object.version + 1)
        (.sequence (splice xs f (l - f) []))).restamp m ⟨stamp.handle,object.version + 1⟩)
          (.sequence (slice xs f l))).bind (.inst b i) (.reference ⟨state.next,0⟩) := by
    have written := InPlace.writeBack_one (x := m) present (.sequence (splice xs f (l - f) []))
    subst is
    simp only [Inst.mutated,List.zip_cons_cons,List.zip_nil_left,written,InPlace.bindResult]
    rfl
  have isSplit : program.function.splitResult (.inst b i) = true := by
    rw [Function.splitResult,Function.instruction?_eq before.found before.entry,is]
    rfl
  have first : firstVersion program.function (.inst b i) = .ssa b i 0 := by
    simp [firstVersion,isSplit]
  have collection : program.function.valueIsCollectionType (.inst b i) = true :=
    (program.results block (List.mem_of_getElem? before.found) _ _
      (List.mem_of_getElem? before.entry) (by rw [is]; rfl)).trans (by rw [is]; rfl)
  have apart : m ≠ .inst b i := before.operand_ne (by simp [Inst.operands,operands])
  have redefines : inst.redefines = [(.name m,1)] := by rw [is]; rfl
  have kept : ∀ d, (∀ k, d ≠ .ssa b i k) → rest.env d = values.env d := by
    intro d new
    rw [isRest,State.bind_env_ne _ _ (new 1)]
    refine (congrFun (congrArg State.env isCopied) d).trans ?_
    exact State.bind_env_ne _ _ (new 0)
  have stands : rest.env (.ssa b i 0) = some (.reference values.next) := by
    rw [isRest,State.bind_env_ne _ _ (by simp)]
    refine (congrFun (congrArg State.env isCopied) _).trans ?_
    exact State.bind_env_self _ _ _
  have stands' : rest.env (.ssa b i 1) = some (.reference copied.next) := by
    rw [isRest,State.bind_env_self]
  unfold Follows
  rw [bound,is]
  refine ⟨token₂,rest,fun _ _ => .two copying removing,?_,?_⟩
  · rw [isRest]
    refine ((stored₂.bind _ ?_).emit []).named _ _
    intro s member
    obtain rfl := List.mem_singleton.mp member
    exact .fresh _
  · refine before.named.next before.found before.entry before.stored before.reachable agree ?_ ?_ ?_
      ?_ ?_ ?_ ?_
    · intro x other none
      have apart' : x ≠ m := by
        rintro rfl
        exact none 1 (by rw [redefines]; simp)
      exact (State.bind_env_ne _ _ other).trans (State.restamp_env_ne _ _ apart')
    · exact fun x other => State.bind_defined_ne _ _ other
    · exact fun d _ new => kept d new
    · exact fun plain => absurd (isSplit.symm.trans plain) (by simp)
    · intro _
      rw [first,stands]
      refine Eq.trans ?_ (congrArg (Option.map (RtValue.map token₂)) (State.bind_env_self _ _ _)).symm
      exact congrArg (some ∘ RtValue.reference) same₂.symm
    · exact fun scalar => absurd (collection.symm.trans scalar) (by simp)
    · intro x k member
      rw [redefines,List.mem_singleton] at member
      simp only [Prod.mk.injEq,Value.name.injEq] at member
      obtain ⟨rfl,rfl⟩ := member
      rw [stands']
      have renamed := (State.bind_env_ne (InPlace.create ((InPlace.mutate state stamp.handle
        (object.version + 1) (.sequence (splice xs f (l - f) []))).restamp x
          ⟨stamp.handle,object.version + 1⟩) (.sequence (slice xs f l)))
            (.reference ⟨state.next,0⟩) apart).trans (State.restamp_env_self _ _ _)
      refine Eq.trans ?_ (congrArg (Option.map (RtValue.map token₂)) renamed).symm
      simp [RtValue.map,same₁]

/-- One instruction of any kind. -/
theorem Before.follow (ran : InPlace.exec oracle (.inst b i) inst state = some after) :
    Follows program tree inserted oracle b i inst values after := by
  cases isMut : inst.isMut with
  | false => exact before.plain renamable placed closed isMut ran
  | true =>
    cases is : inst
    case mutSeqAppend collection appended => exact is ▸ before.append renamable placed closed is ran
    case mutSeqSwap x first last y toFirst => exact is ▸ before.swap renamable placed closed is ran
    case mutSeqSplit collection first last => exact is ▸ before.split renamable placed closed is ran
    all_goals first
      | exact is ▸ before.simple renamable placed closed (by rw [is]; rfl) ran
      | exact absurd isMut (by simp [is,Inst.isMut])

end

end Memoir.Construction
