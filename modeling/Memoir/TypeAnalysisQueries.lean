import Memoir.TypeAnalysisReturns

/-! The queries that end: those of values on no cycle that goes through a type or through an object that
is read. -/
namespace Memoir.TypeAnalysis
open TypeGetters Outcomes

/-- The queries of acyclic values end, whatever is in the tables; and where queries come back to a cycle
only by a query of their own, and get to no swap, no others do. -/
theorem queries_end {module : Module} (wellFormed : WellFormed module) (queries : List Value) :
    ((∀ query ∈ queries,Acyclic module query) → ∃ enough,∀ fuel ≥ enough,∀ state,
      Routine.each (getType module fuel) queries state ≠ .outOfFuel) ∧
    ((∀ query ∈ queries,Straight module query) →
      (∀ fuel,Routine.each (getType module fuel) queries .initial ≠ .aborted) →
      ((∃ fuel,Routine.each (getType module fuel) queries .initial ≠ .outOfFuel) ↔
        ∀ query ∈ queries,Acyclic module query)) := by
  have ends : (∀ query ∈ queries,Acyclic module query) → ∃ enough,∀ fuel ≥ enough,∀ state,
      Routine.each (getType module fuel) queries state ≠ .outOfFuel := by
    intro acyclic
    refine ⟨levelsBound module,?_⟩
    intro fuel enough state exhausted
    have ends : Routine.Preserves True False (fun _ => True) (Routine.each (getType module fuel) queries) := by
      apply Routine.Preserves.each
      intro query member state _
      exact query_ends wellFormed (acyclic query member) enough state
    have meets := ends state trivial
    rw [Routine.Meets,exhausted] at meets
    exact meets
  refine ⟨ends,fun straight completes => ⟨?_,fun acyclic => ?_⟩⟩
  · rintro ⟨fuel,returns⟩
    have meets := queries_finished wellFormed straight fuel
    unfold Routine.Meets at meets
    split at meets
    · exact fun query member => (meets query member).acyclic
    · rename_i aborted
      exact absurd aborted (completes fuel)
    · rename_i exhausted
      exact absurd exhausted returns
  · obtain ⟨enough,suffices'⟩ := ends acyclic
    exact ⟨enough,suffices' enough le_rfl .initial⟩

theorem Straight.of_acyclic {module : Module} {query : Value} (acyclic : Acyclic module query)
    (swapless : ∀ value,(module.kind value).isSwap = false)
    (unasserted : ∀ value,module.assertion value = none) : Straight module query := by
  refine ⟨?_,fun value _ => swapless value,fun value _ _ asserted => absurd (unasserted value) asserted⟩
  rintro value path ⟨first,other,needs,cycle,onto,_⟩
  exact absurd cycle (acyclic first other (path.trans onto) needs)

/-- A struct type with a reference to the target, a call that returns such a reference, and a loop that
inserts into a sequence of the structs. -/
def nodeModule (target : Value) : Module where
  kinds := [.globalString "node",.integerType .u64,.structType 0,.referenceType target,
    .defineStructType 0 [1,3],.call true ⟨false,[3],[]⟩,.sequenceAlloc 2,.phi [6,8],.forward .insert 7]
  users value := if value = 0 ∨ value = 1 ∨ value = 3 then [4] else []
  linked := by
    intro value user
    rcases user with _ | _ | _ | _ | _ | _ | _ | _ | _ | user
    case succ.succ.succ.succ.zero => split <;> simp_all [Kind.operands]
    all_goals split <;> simp [Kind.operands]

theorem nodeModule_wellFormed {target : Value} (known : target = 1 ∨ target = 2) :
    WellFormed (nodeModule target) := by
  rcases known with rfl | rfl
  · exact wellFormed_of_check (by decide)
  · exact wellFormed_of_check (by decide)

/-- Everything is below what is made of it; the loop is no type. -/
def nodeRank (value : Value) : Nat := if value = 2 then 5 else if value < 5 then value else min (value + 1) 8

theorem node_unasserted (value : Value) : (nodeModule 1).assertion value = none := by
  have plain := kind_of_all (nodeModule 1) (fun kind => kind.assertedType.isNone) (by decide) rfl
  rw [Module.assertion,List.find?_eq_none]
  intro user _
  simp [Option.isNone_iff_eq_none.mp (plain user)]

theorem node_follows {value other : Value} (follows : Follows (nodeModule 1) value other) :
    value < 9 ∧ other ∈ ((nodeModule 1).kind value).followed := by
  cases follows with
  | operand member _ =>
    have named : (nodeModule 1).kind value ≠ .other := by
      intro isKind
      rw [isKind] at member
      exact absurd member List.not_mem_nil
    exact ⟨kind_known rfl named,member⟩
  | load isLoad _ =>
    have plain := kind_of_all (nodeModule 1) (fun kind => kind.parts == kind.types) (by decide) rfl value
    rw [isLoad] at plain
    exact absurd plain (by simp [Kind.parts,Kind.types,Kind.returnTypes])
  | asserted _ first =>
    rw [node_unasserted value] at first
    exact absurd first (by simp)

theorem node_forgets {value : Value} (forgets : Forgets (nodeModule 1) value) : value = 3 := by
  induction forgets with
  | @reference value _ isReference =>
    have all : ∀ value < 9,((nodeModule 1).kind value).isTypeInst → ((nodeModule 1).kind value).names = [] →
        ((nodeModule 1).kind value).types ≠ [] → value = 3 := by decide
    apply all value (kind_known isReference (by simp))
    all_goals simp [isReference,Kind.isTypeInst,Kind.names,Kind.types]
  | @operand value _ indefinite follows _ ih =>
    have all : ∀ value < 9,3 ∈ ((nodeModule 1).kind value).followed →
        ((nodeModule 1).kind value).isDefinite := by decide
    obtain ⟨known,member⟩ := node_follows follows
    exact absurd (.inr (all value known (ih ▸ member))) indefinite

theorem node_needs {value other : Value} (needs : Needs (nodeModule 1) value other) :
    nodeRank other < nodeRank value := by
  have known := needs.known
  cases needs with
  | part _ member =>
    have all : ∀ value < 9,∀ part ∈ ((nodeModule 1).kind value).parts,
        nodeRank part < nodeRank value := by decide
    exact all value known other member
  | @definition name definition isStruct first =>
    have all : ∀ value < 9,((nodeModule 1).kind value).isTypeInst → ((nodeModule 1).kind value).parts = [] →
        ∀ name ∈ ((nodeModule 1).kind value).names,∀ definition ∈ (nodeModule 1).definitions name,
          nodeRank definition.value < nodeRank value := by decide
    apply all value known _ _ name _ definition (List.mem_of_mem_head? first)
    all_goals simp [isStruct,Kind.isTypeInst,Kind.parts,Kind.types,Kind.returnTypes,Kind.names]
  | operand definite member =>
    have all : ∀ value < 9,((nodeModule 1).kind value).isDefinite →
        ∀ operand ∈ ((nodeModule 1).kind value).needed,nodeRank operand < nodeRank value := by decide
    exact all value known definite other member
  | anew indefinite forgets follows =>
    obtain rfl := node_forgets forgets
    exact absurd (node_follows follows).2 List.not_mem_nil

theorem node_acyclic (query : Value) : Acyclic (nodeModule 1) query := by
  apply acyclic_of_rank nodeRank fun value other needs => node_needs needs
  intro value other follows
  have all : ∀ value < 9,∀ operand ∈ ((nodeModule 1).kind value).followed,
      nodeRank operand ≤ nodeRank value := by decide
  obtain ⟨known,member⟩ := node_follows follows
  exact all value known other member

theorem node_straight (query : Value) : Straight (nodeModule 1) query := by
  apply Straight.of_acyclic (node_acyclic query)
  · exact fun value => by
      have plain := kind_of_all (nodeModule 1) (fun kind => !kind.isSwap) (by decide) rfl value
      simpa using plain
  · exact node_unasserted

theorem node_queries_end : (∃ enough,∀ fuel ≥ enough,∀ state,
      Routine.each (getType (nodeModule 1) fuel) [5,7] state ≠ .outOfFuel) ∧
    ((∃ fuel,Routine.each (getType (nodeModule 1) fuel) [5,7] .initial ≠ .outOfFuel) ↔
      ∀ query ∈ [5,7],Acyclic (nodeModule 1) query) := by
  have ends := queries_end (nodeModule_wellFormed (.inl rfl)) [5,7]
  refine ⟨ends.1 fun query _ => node_acyclic query,ends.2 (fun query _ => node_straight query) ?_⟩
  intro fuel
  rcases fuel with _ | _ | _ | _ | _ | _ | _ | fuel
  all_goals
    intro aborted
    cases aborted

theorem exhausts_checkMemoized {value : Value} {find : Analysis (Option Shape)} {state : State}
    (untyped : state.valueToType value = none) (unvisited : value ∉ state.visited)
    (exhausts : Routine.Exhausts find (state.markVisited value)) :
    Routine.Exhausts (checkMemoized value find) state := by
  apply meets_checkMemoized
  · exact fun type found => absurd found (by simp [untyped])
  · exact fun _ visited => absurd visited unvisited
  · exact fun _ _ => exhausts

/-- The queries of the struct type and of the reference type start one another. -/
theorem node_exhausts (fuel : Nat) : ∀ state : State,state.valueToType 2 = none →
    state.valueToType 4 = none →
    (state.visited = [] → Routine.Exhausts (getTypeHelper (nodeModule 2) fuel 2) state) ∧
      Routine.Exhausts (getTypeHelper (nodeModule 2) fuel 3) state := by
  induction fuel with
  | zero => exact fun _ _ _ => ⟨fun _ => trivial,trivial⟩
  | succ fuel ih =>
    intro state struct definition
    have definitions : (nodeModule 2).definitions 0 = [⟨4,0,[1,3]⟩] := rfl
    refine ⟨fun unvisited => ?_,?_⟩
    · apply Routine.Exhausts.bind
      apply exhausts_checkMemoized struct (by simp [unvisited])
      rw [definitions]
      change Routine.Exhausts (visitDefineStructTypeInst (nodeModule 2) _ ⟨4,0,[1,3]⟩ >>= _) _
      apply Routine.Exhausts.bind
      refine exhausts_checkMemoized (definition : (state.markVisited 2).valueToType 4 = none) ?_ ?_
      · simp [State.markVisited,unvisited]
      apply Routine.Exhausts.bind
      cases fuel with
      | zero => trivial
      | succ fuel =>
        change Routine.Exhausts (Routine.each (getTypeHelper (nodeModule 2) (fuel + 1)) [3] >>= _) _
        apply Routine.Exhausts.bind
        apply Routine.Exhausts.bind
        exact (ih _ struct definition).2
    · apply Routine.Exhausts.bind
      apply Routine.Exhausts.bind
      apply Routine.Exhausts.bind
      exact (ih state.clear struct definition).1 rfl

theorem node_query_exhausts : WellFormed (nodeModule 2) ∧
    ∀ fuel,getType (nodeModule 2) fuel 2 .initial = .outOfFuel := by
  refine ⟨nodeModule_wellFormed (.inr rfl),fun fuel => ?_⟩
  have exhausts : Routine.Exhausts (getTypeHelper (nodeModule 2) fuel 2) State.initial.clear :=
    (node_exhausts fuel State.initial.clear rfl rfl).1 rfl
  exact exhausts.outOfFuel

end Memoir.TypeAnalysis
