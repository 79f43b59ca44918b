import Memoir.ConstructionSsa
import Memoir.Liveness
import Memoir.Tokens

/-! The value machine follows the in-place machine through the instructions that
construction puts in place of one. -/
namespace Memoir

def Operation.writes {ρ : Type} : Operation ρ → Bool
  | .indexWrite _ _ | .assocWrite _ _ | .seqInsert _ _ | .seqInsertSeq _ | .seqRemove _ _
  | .seqSwapWithin _ _ _ | .assocInsert _ | .assocRemove _ => true
  | _ => false

def Operation.reads {ρ : Type} : Operation ρ → Bool
  | .indexRead _ | .assocRead _ | .assocHas _ | .size | .assocKeys | .seqAlloc _ | .assocAlloc
  | .call _ _ _ => true
  | _ => false

theorem Operation.writes_outcome {ρ : Type} {operation : Operation ρ}
    {mutated read : List (Content ρ)} {outcome : Outcome ρ} (writes : operation.writes = true)
    (ran : operation.run mutated read = some outcome) :
    ∃ old new, mutated = [old] ∧ outcome = .write new := by
  unfold run at ran
  split at ran <;> simp only [Operation.writes,Bool.false_eq_true] at writes
  all_goals first
    | exact ⟨_,_,rfl,(Option.some.inj ran).symm⟩
    | contradiction
    | simp only [Option.ite_none_right_eq_some] at ran
      exact ⟨_,_,rfl,(Option.some.inj ran.2).symm⟩

theorem Operation.split_outcome {ρ : Type} {first last : Word} {mutated read : List (Content ρ)}
    {outcome : Outcome ρ}
    (ran : (Operation.seqSplit first last).run mutated read = some outcome) :
    ∃ xs, mutated = [.sequence xs] ∧ first ≤ last ∧ last ≤ xs.length ∧
      outcome = ⟨[some (.sequence (splice xs first (last - first) []))],
        some (.sequence (slice xs first last)),none,[]⟩ := by
  unfold run at ran
  split at ran <;> simp_all

theorem Operation.swap_outcome {ρ : Type} {first last toFirst : Option Word}
    {mutated read : List (Content ρ)} {outcome : Outcome ρ}
    (ran : (Operation.seqSwap first last toFirst).run mutated read = some outcome) :
    ∃ old old' new new', mutated = [old,old'] ∧ outcome = ⟨[some new,some new'],none,none,[]⟩ := by
  unfold run at ran
  split at ran <;> simp only [seqSwap.injEq,reduceCtorEq] at *
  simp only [Option.ite_none_right_eq_some] at ran
  exact ⟨_,_,_,_,rfl,(Option.some.inj ran.2).symm⟩

theorem Operation.reads_outcome {ρ : Type} {operation : Operation ρ}
    {mutated read : List (Content ρ)} {outcome : Outcome ρ} (reads : operation.reads = true)
    (present : ∀ key entries, operation = .assocRead key → mutated = [.assoc entries] →
      (entries.lookup key).isSome = true)
    (ran : operation.run mutated read = some outcome) :
    (outcome.mutated = [] ∨ outcome.mutated = [none]) ∧
      (outcome.created = none → outcome.result = none →
        ∃ callee scalars, operation = .call callee scalars .none) := by
  unfold run at ran
  split at ran <;> simp only [Operation.reads,Bool.false_eq_true] at reads
  case h_11 =>
    rw [Option.map_eq_some_iff] at ran
    obtain ⟨datum,_,rfl⟩ := ran
    exact ⟨.inl rfl,fun _ absent => absurd absent (by simp [Outcome.read])⟩
  case h_12 key entries =>
    obtain ⟨datum,found⟩ := Option.isSome_iff_exists.mp (present key entries rfl rfl)
    rw [found] at ran
    obtain rfl := Option.some.inj ran
    exact ⟨.inr rfl,fun _ absent => absurd absent (by simp [Outcome.read])⟩
  case h_20 callee scalars reply =>
    obtain rfl := Option.some.inj ran
    cases reply with
    | none => exact ⟨.inl rfl,fun _ _ => ⟨callee,scalars,rfl⟩⟩
    | scalar word => exact ⟨.inl rfl,fun _ absent => absurd absent (by simp [replied])⟩
    | collection content => exact ⟨.inl rfl,fun absent => absurd absent (by simp [replied])⟩
  case h_21 => exact absurd ran (by simp)
  all_goals
    obtain rfl := Option.some.inj ran
    exact ⟨.inl rfl,fun absent absent' => absurd absent (by simp_all [Outcome.create,Outcome.read])⟩

namespace Inst

def isSimple : Inst → Bool
  | mutIndexWrite _ _ _ | mutAssocWrite _ _ _ | mutSeqInsert _ _ _ | mutSeqInsertSeq _ _ _
  | mutSeqRemove _ _ _ | mutSeqSwapWithin _ _ _ _ | mutAssocInsert _ _ | mutAssocRemove _ _ => true
  | _ => false

section
variable {ρ : Type} {env : Env ρ} {reply : Reply} {operation : Operation ρ} {inst : Inst}

theorem simple_writes (simple : inst.isSimple = true)
    (found : inst.operation env reply = some operation) : operation.writes = true := by
  cases inst <;> simp only [isSimple,Bool.false_eq_true] at simple
  all_goals
    simp only [Inst.operation,Option.pure_def,Option.bind_eq_bind,Option.bind_eq_some_iff,
      Option.some.injEq] at found
    obtain ⟨_,_,found⟩ := found
    first
      | (subst found; rfl)
      | obtain ⟨_,_,found⟩ := found
        first
          | (subst found; rfl)
          | obtain ⟨_,_,rfl⟩ := found
            rfl

theorem plain_reads (isMut : inst.isMut = false) (kind : inst.isSsa = false ∧ inst.isBackend = false)
    (found : inst.operation env reply = some operation) : operation.reads = true := by
  cases inst <;> simp only [Inst.isMut,Inst.isSsa,Inst.isBackend,Bool.true_eq_false,false_and,
    and_false] at isMut kind
  case scalar => exact absurd found (by simp [Inst.operation])
  all_goals
    simp only [Inst.operation,Option.pure_def,Option.bind_eq_bind,Option.bind_eq_some_iff,
      Option.some.injEq] at found
    first
      | (subst found; rfl)
      | obtain ⟨_,_,rfl⟩ := found
        rfl

/-- The references of an operation are those of the element written. -/
theorem operation_references (plain : inst.isBackend = false)
    (found : inst.operation env reply = some operation) {r : ρ} (member : r ∈ operation.references) :
    ∃ n, env n = some (.reference r) := by
  have written : ∀ {e : Element} {d : Datum ρ}, datum env e = some d → r ∈ d.references →
      ∃ n, env n = some (.reference r) := by
    intro e d evaluated member
    cases e with
    | scalar s =>
      simp only [datum,Option.map_eq_some_iff] at evaluated
      obtain ⟨w,_,rfl⟩ := evaluated
      exact absurd member List.not_mem_nil
    | collection v =>
      simp only [datum,Option.map_eq_some_iff] at evaluated
      obtain ⟨r',evaluated,rfl⟩ := evaluated
      obtain rfl := List.mem_singleton.mp member
      obtain ⟨n,_,at_⟩ := reference_env evaluated
      exact ⟨n,at_⟩
  cases inst
  case backend => exact absurd plain (by simp [Inst.isBackend])
  case extractValue | collectionPhi | deleteCollection | endInst | scalar =>
    exact absurd found (by simp [Inst.operation])
  case mutIndexWrite | mutAssocWrite | mutSeqInsert | indexWrite | assocWrite | seqInsert =>
    simp only [Inst.operation,Option.pure_def,Option.bind_eq_bind,Option.bind_eq_some_iff,
      Option.some.injEq] at found
    obtain ⟨_,_,d,evaluated,rfl⟩ := found
    exact written evaluated member
  all_goals
    simp only [Inst.operation,Option.pure_def,Option.bind_eq_bind,Option.bind_eq_some_iff,
      Option.some.injEq] at found
    first
      | (subst found; exact absurd member List.not_mem_nil)
      | obtain ⟨_,_,found⟩ := found
        first
          | (subst found; exact absurd member List.not_mem_nil)
          | obtain ⟨_,_,found⟩ := found
            first
              | (subst found; exact absurd member List.not_mem_nil)
              | obtain ⟨_,_,rfl⟩ := found
                exact absurd member List.not_mem_nil

end

end Inst

namespace Construction

/-- The same operation on renamed collections. -/
structure Rewritten (inst new : Inst) (f : Value → Value) (env : Env Nat) : Prop where
  isMut : new.isMut = false
  mutated : new.mutated = inst.mutated.map f
  read : new.read = inst.read.map f
  operation : ∀ reply operation, inst.operation env reply = some operation →
    new.operation env reply = some operation

theorem simple_shape {inst : Inst} (simple : inst.isSimple = true) :
    ∃ x, inst.mutated = [x] ∧ inst.redefines = [(x,0)] ∧ inst.isMut = true ∧
      inst.isSplit = false := by
  cases inst <;> simp only [Inst.isSimple,Bool.false_eq_true] at simple
  all_goals exact ⟨_,rfl,rfl,rfl,rfl⟩

theorem translate_simple {inst : Inst} (simple : inst.isSimple = true) (version : Name → Name)
    (b i : Nat) (n : Name) : ∃ new, translate version b i n inst = [(.ssa b i 0,new)] ∧
      new.isSsa = true ∧ ∀ env, Rewritten inst new (rename version) env := by
  cases inst <;> simp only [Inst.isSimple,Bool.false_eq_true] at simple
  all_goals
    refine ⟨_,rfl,rfl,fun env => ⟨rfl,rfl,rfl,?_⟩⟩
    intro reply operation found
    simp only [Inst.operation,Option.pure_def,Option.bind_eq_bind,Option.bind_eq_some_iff,
      Option.some.injEq] at found ⊢
  case mutSeqInsert =>
    obtain ⟨w,index,d,evaluated,rfl⟩ := found
    exact ⟨_,index_word index,d,evaluated,rfl⟩
  case mutSeqInsertSeq =>
    obtain ⟨w,index,rfl⟩ := found
    exact ⟨_,index_word index,rfl⟩
  case mutSeqRemove =>
    obtain ⟨first,isFirst,last,isLast,rfl⟩ := found
    exact ⟨_,index_word isFirst,_,index_word isLast,rfl⟩
  case mutSeqSwapWithin =>
    obtain ⟨first,isFirst,last,isLast,toFirst,isTo,rfl⟩ := found
    exact ⟨_,index_word isFirst,_,index_word isLast,_,index_word isTo,rfl⟩
  all_goals exact found

theorem plain_shape {inst : Inst} (isMut : inst.isMut = false)
    (kind : inst.isSsa = false ∧ inst.isBackend = false) : inst.redefines = [] ∧
      inst.isSplit = false ∧ ∀ state read, InPlace.consume state inst read = state := by
  cases inst <;> simp only [Inst.isMut,Inst.isSsa,Inst.isBackend,Bool.true_eq_false,false_and,
    and_false] at isMut kind
  all_goals exact ⟨rfl,rfl,fun _ _ => rfl⟩

/-- What is not a mutable operation stays; the object of a `has` keeps its name. -/
theorem translate_plain {inst : Inst} (isMut : inst.isMut = false)
    (kind : inst.isSsa = false ∧ inst.isBackend = false) (version : Name → Name) (b i : Nat)
    (n : Name) : ∃ new f, translate version b i n inst = [(n,new)] ∧ new.isSsa = false ∧
      (∀ env, Rewritten inst new f env) ∧
      (∀ function operands, inst = .scalar function operands → new = inst) ∧
      (f = rename version ∨ (f = id ∧ ∀ operand ∈ inst.mutated ++ inst.read,
        operand ∈ inst.unrenamed)) := by
  cases inst <;> simp only [Inst.isMut,Inst.isSsa,Inst.isBackend,Bool.true_eq_false,false_and,
    and_false] at isMut kind
  case assocHas object key =>
    refine ⟨_,id,rfl,rfl,fun _ => ⟨rfl,rfl,rfl,fun _ _ => id⟩,?_,.inr ⟨rfl,?_⟩⟩
    · simp
    · simp [Inst.mutated,Inst.read,Inst.unrenamed]
  all_goals
    refine ⟨_,rename version,rfl,rfl,fun _ => ⟨rfl,rfl,rfl,fun _ _ => id⟩,?_,.inl rfl⟩
    simp

open Dominance
open InPlace (Seen Current)

/-- What construction relies on at an instruction: the operands are the newest
versions of their objects, an operand that keeps its name has not been redefined,
and no operation does in place what its SSA form does not. -/
structure Tracked (function : Function) (oracle : Oracle) (state : InPlace.Store) (n : Name)
    (inst : Inst) : Prop where
  current : ∀ operand ∈ inst.mutated ++ inst.read, ∀ stamp,
    reference state.env operand = some stamp → Current state stamp
  unrenamed : ∀ x, .name x ∈ inst.unrenamed → state.env x = state.defined x
  apart : ∀ x first last y toFirst, inst = .mutSeqSwap x first last y toFirst → ∀ stamp stamp',
    reference state.env x = some stamp → reference state.env y = some stamp' →
      stamp.handle ≠ stamp'.handle
  present : ∀ object key, inst = .assocRead object key ∨ inst = .assocGet object key →
    ∀ stamp entries w, reference state.env object = some stamp →
      InPlace.content state stamp = some (.assoc entries) → word state.env key = some w →
        (entries.lookup w).isSome = true
  replied : ∀ callee collections scalars, inst = .call callee collections scalars →
    function.valueIsCollectionType n = true → ∃ content, oracle state.trace = .collection content

structure Named (program : Program) (tree : Tree program.function)
    (inserted : List (Name × List Nat)) (token : Stamp → Nat) (b i : Nat)
    (state : InPlace.Store) (values : Pure.Store) : Prop where
  firsts : ∀ n, ¬ Name.IsNew n → program.function.splitResult n = false →
    values.env n = (state.defined n).map (RtValue.map token)
  scalars : ∀ n, program.function.valueIsCollectionType n = false → state.env n = state.defined n
  versions : ∀ x ∈ memoirNames program.function, Live program.function x b i → ∀ d,
    Nearest program.function tree inserted x (.before b i) d →
      values.env d = (state.env x).map (RtValue.map token)

section
variable {program : Program} {tree : Tree program.function} {inserted : List (Name × List Nat)}
  {token token' : Stamp → Nat} {b i : Nat} {state after : InPlace.Store}
  {values after' : Pure.Store}

theorem map_agree (agree : ∀ stamp, Seen state stamp → token' stamp = token stamp)
    {value : Option (RtValue Stamp)}
    (made : ∀ v, value = some v → ∀ stamp ∈ v.references, Seen state stamp) :
    value.map (RtValue.map token') = value.map (RtValue.map token) := by
  cases value with
  | none => rfl
  | some v =>
    exact congrArg some (v.map_congr _ _ fun stamp member => agree stamp (made v rfl stamp member))

variable {block : BasicBlock} {inst : Inst}
  (found : program.function.blocks[b]? = some block)
  (entry : block.body[i]? = some (.inst b i,inst))
include found entry

theorem operands_collections {x : Name} (used : .name x ∈ inst.operands) :
    program.function.valueIsCollectionType x = true :=
  (program.collections block (List.mem_of_getElem? found)).1 _ _ (List.mem_of_getElem? entry) x used

/-- From one instruction to the next. -/
theorem Named.next (named : Named program tree inserted token b i state values)
    (stored : Stored token state values) (reachable : program.function.graph.Reachable b)
    (agree : ∀ stamp, Seen state stamp → token' stamp = token stamp)
    (env : ∀ x, x ≠ .inst b i → (∀ k, (.name x,k) ∉ inst.redefines) → after.env x = state.env x)
    (defined : ∀ x, x ≠ .inst b i → after.defined x = state.defined x)
    (kept : ∀ d, d ≠ .inst b i → (∀ k, d ≠ .ssa b i k) → after'.env d = values.env d)
    (first : program.function.splitResult (.inst b i) = false →
      after'.env (.inst b i) = (after.defined (.inst b i)).map (RtValue.map token'))
    (own : program.function.valueIsCollectionType (.inst b i) = true →
      after'.env (firstVersion program.function (.inst b i)) =
        (after.env (.inst b i)).map (RtValue.map token'))
    (scalar : program.function.valueIsCollectionType (.inst b i) = false →
      after.env (.inst b i) = after.defined (.inst b i))
    (redefined : ∀ x k, (.name x,k) ∈ inst.redefines →
      after'.env (.ssa b i k) = (after.env x).map (RtValue.map token')) :
    Named program tree inserted token' b (i + 1) after after' where
  firsts := by
    intro n old plain
    by_cases here : n = .inst b i
    · exact here ▸ first (here ▸ plain)
    · rw [kept n here (fun k same => old (same ▸ trivial)),named.firsts n old plain,defined n here,
        map_agree agree (stored.defined n)]
  scalars := by
    intro n isScalar
    by_cases here : n = .inst b i
    · exact here ▸ scalar (here ▸ isScalar)
    · have none : ∀ k, (.name n,k) ∉ inst.redefines := by
        intro k redefines
        have operand := Inst.mutated_operands (Inst.redefines_mutated redefines)
        exact absurd (isScalar.symm.trans (operands_collections found entry operand)) (by simp)
      rw [env n here none,defined n here,named.scalars n isScalar]
  versions := by
    intro x variable_ live d nearest
    have at_ := Function.instruction?_eq found entry
    rcases nearest_next reachable at_ variable_ nearest with ⟨rfl,rfl⟩ | ⟨k,redefines,rfl⟩ |
      ⟨here,none,nearest⟩
    · exact own (mem_memoirNames.mp variable_).1
    · exact redefined x k redefines
    · have elsewhere : ∀ n, site n = some (.before b i) → d ≠ n := by
        rintro n at_ rfl
        exact not_dominates_site tree at_ nearest.2.1
      rw [kept d (elsewhere _ rfl) (fun k => elsewhere _ rfl),env x here none,
        map_agree agree (stored.env x)]
      exact named.versions x variable_ (.next found entry (Ne.symm here) live) d nearest

end

/-- The two machines before an instruction that construction keeps track of. -/
structure Before (program : Program) (tree : Tree program.function)
    (inserted : List (Name × List Nat)) (oracle : Oracle) (token : Stamp → Nat) (b i : Nat)
    (block : BasicBlock) (inst : Inst) (state : InPlace.Store) (values : Pure.Store) : Prop where
  found : program.function.blocks[b]? = some block
  entry : block.body[i]? = some (.inst b i,inst)
  reachable : program.function.graph.Reachable b
  named : Named program tree inserted token b i state values
  stored : Stored token state values
  tracked : Tracked program.function oracle state (.inst b i) inst

section
variable {program : Program} {tree : Tree program.function} {inserted : List (Name × List Nat)}
  {oracle : Oracle} {token : Stamp → Nat} {b i : Nat} {block : BasicBlock} {inst : Inst}
  {state : InPlace.Store} {values : Pure.Store}

theorem Named.scalar_operand (named : Named program tree inserted token b i state values) {n : Name}
    (defined : program.function.Defined n) (isScalar : program.function.IsScalar n) :
    values.env n = (state.env n).map (RtValue.map token) := by
  rw [named.scalars n isScalar.1]
  refine named.firsts n (Program.not_isNew program defined) ?_
  unfold Function.splitResult
  cases at_ : program.function.instruction? n with
  | none => rfl
  | some old =>
    have isMut := isScalar.2 old at_
    cases old <;> simp_all [Inst.isMut,Inst.isSplit]

theorem Named.operand (named : Named program tree inserted token b i state values)
    (renamable : Renamable program tree) (placed : Placed program inserted)
    (closed : Closed tree inserted) (found : program.function.blocks[b]? = some block)
    (entry : block.body[i]? = some (.inst b i,inst)) (reachable : program.function.graph.Reachable b)
    {x : Name} (used : .name x ∈ inst.operands) :
    values.env (nearest program.function tree inserted (.before b i) x) =
      (state.env x).map (RtValue.map token) := by
  have at_ := Function.instruction?_eq found entry
  have ready : Ready program tree x (.before b i) := ready_operand at_ used reachable
  have bound := Nat.le_of_lt (List.getElem?_eq_some_iff.mp entry).1
  exact named.versions x ready.1 (.operand found entry used) _
    (nearest_of_ready placed (renamable.walkable placed closed) reachable found bound ready)

theorem Named.unrenamed_operand (named : Named program tree inserted token b i state values)
    (renamable : Renamable program tree) (found : program.function.blocks[b]? = some block)
    (entry : block.body[i]? = some (.inst b i,inst)) {x : Name} (used : .name x ∈ inst.unrenamed)
    (same : state.env x = state.defined x) : values.env x = (state.env x).map (RtValue.map token) := by
  have variable_ := operand_variable (Function.instruction?_eq found entry)
    (Inst.unrenamed_operands used)
  rw [same]
  exact named.firsts x (Program.not_isNew_variable variable_)
    (renamable.unrenamed block (List.mem_of_getElem? found) _ _ (List.mem_of_getElem? entry) x used)

variable (renamable : Renamable program tree)
  (before : Before program tree inserted oracle token b i block inst state values)
include renamable before

omit renamable in
theorem Before.kind : inst.isSsa = false ∧ inst.isBackend = false :=
  program.source block (List.mem_of_getElem? before.found) _ _ (List.mem_of_getElem? before.entry)

/-- A renamed operand names the version of its variable. -/
theorem Before.renamed (placed : Placed program inserted) (closed : Closed tree inserted) {x : Name}
    (used : .name x ∈ inst.operands) :
    values.env (nearest program.function tree inserted (.before b i) x) =
      (state.env x).map (RtValue.map token) :=
  before.named.operand renamable placed closed before.found before.entry before.reachable used

theorem Before.unrenamed {x : Name} (used : .name x ∈ inst.unrenamed) :
    values.env x = (state.env x).map (RtValue.map token) :=
  before.named.unrenamed_operand renamable before.found before.entry used
    (before.tracked.unrenamed x used)

theorem Before.operation {reply : Reply} {operation : Operation Stamp}
    (evaluated : inst.operation state.env reply = some operation) :
    inst.operation values.env reply = some (operation.map token) := by
  have inBlocks := List.mem_of_getElem? before.found
  have inBody := List.mem_of_getElem? before.entry
  have used : ∀ m, m ∈ inst.names → program.function.Defined m :=
    (program.ssa.defined block inBlocks).1 _ _ inBody
  obtain ⟨scalars,element⟩ := (program.scalars block inBlocks).1 _ _ inBody
  refine Inst.operation_map before.kind.2 ?_ ?_ evaluated
  · intro n member
    refine before.named.scalar_operand (used n ?_) (scalars n member)
    simp only [Inst.names,List.mem_append,List.mem_filterMap]
    exact .inr ⟨_,member,rfl⟩
  · intro e d written isDatum
    refine datum_map ?_ ?_ isDatum
    · rintro n rfl
      refine before.named.scalar_operand (used n ?_) (element n written)
      simp only [Inst.names,List.mem_append,List.mem_filterMap]
      exact .inl (.inr ⟨_,Option.mem_toList.mpr written,rfl⟩)
    · rintro n rfl
      refine before.unrenamed renamable ?_
      simp [Inst.unrenamed,written,Element.collection?]

/-- The value machine evaluates the rewritten instruction to the same outcome. -/
theorem Before.exec_rewritten {new : Inst} {f : Value → Value}
    (rewritten : Rewritten inst new f values.env)
    (renamed : ∀ operand ∈ inst.mutated ++ inst.read, ∀ stamp,
      reference state.env operand = some stamp →
        reference values.env (f operand) = some (token stamp))
    {operation : Operation Stamp} {mutated read : List Stamp} {outcome : Outcome Stamp}
    (evaluated : inst.operation state.env (oracle state.trace) = some operation)
    (isMutated : inst.mutated.mapM (reference state.env) = some mutated)
    (isRead : inst.read.mapM (reference state.env) = some read)
    {contents contents' : List (Content Stamp)}
    (held : mutated.mapM (InPlace.content state) = some contents)
    (held' : read.mapM (InPlace.content state) = some contents')
    (ran : operation.run contents contents' = some outcome) (n : Name) :
    Pure.exec oracle n new values = some
        (let made := Pure.allocate values
          ((if new.isSsa then (outcome.map token).mutated.reduceOption else []) ++
            (outcome.map token).created.toList)
        Pure.bindResult (made.1.emit outcome.events) n made.2 (outcome.map token).result) ∧
      ∀ stamp ∈ outcome.references, Seen state stamp := by
  have stored := before.stored
  have current : ∀ {operands : List Value} {stamps : List Stamp},
      (∀ operand ∈ operands, operand ∈ inst.mutated ++ inst.read) →
      operands.mapM (reference state.env) = some stamps → ∀ stamp ∈ stamps, Current state stamp := by
    intro operands stamps subset isStamps stamp member
    obtain ⟨operand,inOperands,is⟩ := mem_mapM isStamps member
    exact before.tracked.current operand (subset operand inOperands) stamp is
  have inMutated : ∀ operand ∈ inst.mutated, operand ∈ inst.mutated ++ inst.read :=
    fun _ => List.mem_append_left _
  have inRead : ∀ operand ∈ inst.read, operand ∈ inst.mutated ++ inst.read :=
    fun _ => List.mem_append_right _
  have evaluated' : new.operation values.env (oracle values.trace) = some (operation.map token) := by
    rw [stored.trace]
    exact rewritten.operation _ _ (before.operation renamable evaluated)
  have isMutated' : new.mutated.mapM (reference values.env) = some (mutated.map token) := by
    rw [rewritten.mutated]
    exact mapM_map (fun operand member => renamed operand (inMutated operand member)) isMutated
  have isRead' : new.read.mapM (reference values.env) = some (read.map token) := by
    rw [rewritten.read]
    exact mapM_map (fun operand member => renamed operand (inRead operand member)) isRead
  have memory : (mutated.map token).mapM values.memory = some (contents.map (Content.map token)) :=
    mapM_map (fun stamp member _ is => stored.value (current inMutated isMutated stamp member) is) held
  have memory' : (read.map token).mapM values.memory = some (contents'.map (Content.map token)) :=
    mapM_map (fun stamp member _ is => stored.value (current inRead isRead stamp member) is) held'
  have ran' : (operation.map token).run (contents.map (Content.map token))
      (contents'.map (Content.map token)) = some (outcome.map token) := by
    rw [Operation.run_map,ran]
    rfl
  refine ⟨Pure.exec_operation rewritten.isMut evaluated' isMutated' isRead' memory memory' ran',?_⟩
  refine Operation.run_references ran ?_ ?_ ?_
  · intro stamp member
    obtain ⟨m,at_⟩ := Inst.operation_references before.kind.2 evaluated member
    exact stored.env m _ at_ stamp (List.mem_singleton.mpr rfl)
  · intro content member stamp inContent
    obtain ⟨_,_,is⟩ := mem_mapM held member
    exact stored.seen is stamp inContent
  · intro content member stamp inContent
    obtain ⟨_,_,is⟩ := mem_mapM held' member
    exact stored.seen is stamp inContent

end

end Construction

end Memoir
