import Mathlib.Data.List.Basic
import Mathlib.Logic.Relation

/-! The coalescence of SSA destruction: each value that was coalesced is replaced in the operands, by
what its replacement has become. -/
namespace Memoir
namespace Coalescing

section
variable {Value Use : Type} [DecidableEq Value]

structure State (Value Use : Type) where
  replacedValues : List (Value × Value)
  /-- The operands of all users. -/
  operands : Use → Value

/-- The loop has no result where it does not end. -/
def findReplacement (replacedValues : List (Value × Value)) : Nat → Value → Option Value
  | 0,_ => none
  | fuel + 1,value => match replacedValues.lookup value with
    | none => some value
    | some replacementValue => findReplacement replacedValues fuel replacementValue

/-- A value is not replaced by itself. -/
def replaceAllUsesWith (operands : Use → Value) (value replacement : Value) : Option (Use → Value) :=
  if value = replacement then none
  else some fun use => if operands use = value then replacement else operands use

def doCoalesce (coalescedValues : List (Value × Value)) (state : State Value Use) (value : Value) :
    Option (State Value Use) :=
  match coalescedValues.lookup value with
  | none => some state
  | some coalesced => do
    let replacement ← findReplacement state.replacedValues (state.replacedValues.length + 1) coalesced
    let operands ← replaceAllUsesWith state.operands value replacement
    return ⟨(value,replacement) :: state.replacedValues,operands⟩

theorem mem_of_lookup {values : List (Value × Value)} {value : Value} (found : values.lookup value ≠ none) :
    value ∈ values.map Prod.fst := by
  by_contra absent
  refine found (List.lookup_eq_none_iff.mpr fun entry member => ?_)
  have apart : value ≠ entry.1 := fun same => absent (same ▸ List.mem_map_of_mem member)
  simpa using apart

variable {coalescedValues : List (Value × Value)} {value replacement : Value}

def Coalesced (coalescedValues : List (Value × Value)) (value replacement : Value) : Prop :=
  coalescedValues.lookup value = some replacement

def Acyclic (coalescedValues : List (Value × Value)) : Prop :=
  ∀ value, ¬ Relation.TransGen (Coalesced coalescedValues) value value

def ChainEnd (coalescedValues : List (Value × Value)) (value last : Value) : Prop :=
  Relation.ReflTransGen (Coalesced coalescedValues) value last ∧ coalescedValues.lookup last = none

theorem ChainEnd.unique {last last' : Value} (chain : ChainEnd coalescedValues value last)
    (chain' : ChainEnd coalescedValues value last') : last = last' := by
  obtain ⟨path,isEnd⟩ := chain
  induction path using Relation.ReflTransGen.head_induction_on with
  | refl =>
    rcases chain'.1.cases_head with same | ⟨next,step,_⟩
    · exact same
    · exact absurd (isEnd.symm.trans step) (by simp)
  | head step _ ih =>
    apply ih
    rcases chain'.1.cases_head with rfl | ⟨next,step',rest⟩
    · exact absurd (chain'.2.symm.trans step) (by simp)
    · obtain rfl := Option.some.inj (step.symm.trans step')
      exact ⟨rest,chain'.2⟩

def Replaces (coalescedValues replacedValues : List (Value × Value)) : Prop :=
  ∀ value replacement, replacedValues.lookup value = some replacement →
    Relation.TransGen (Coalesced coalescedValues) value replacement

variable {replacedValues : List (Value × Value)}

/-- The values that are passed through are different ones. -/
theorem findReplacement_spec (acyclic : Acyclic coalescedValues)
    (replaces : Replaces coalescedValues replacedValues) (keys : List Value) (value : Value)
    (isKey : ∀ key, Relation.ReflTransGen (Coalesced coalescedValues) value key →
      replacedValues.lookup key ≠ none → key ∈ keys) :
    ∃ last, findReplacement replacedValues (keys.length + 1) value = some last ∧
      Relation.ReflTransGen (Coalesced coalescedValues) value last ∧ replacedValues.lookup last = none := by
  induction length : keys.length generalizing keys value with
  | zero =>
    have isEnd : replacedValues.lookup value = none := by
      by_contra found
      have member := isKey value .refl found
      rw [List.eq_nil_of_length_eq_zero length] at member
      exact absurd member (by simp)
    exact ⟨value,by simp [findReplacement,isEnd],.refl,isEnd⟩
  | succ count ih =>
    cases found : replacedValues.lookup value with
    | none => exact ⟨value,by simp [findReplacement,found],.refl,found⟩
    | some next =>
      have path := replaces value next found
      have member := isKey value .refl (by simp [found])
      obtain ⟨last,isLast,rest,isEnd⟩ := ih (keys.erase value) next (fun key further isReplaced => by
        refine (List.mem_erase_of_ne ?_).mpr (isKey key (path.to_reflTransGen.trans further) isReplaced)
        rintro rfl
        exact acyclic key (path.trans_left further)) (by rw [List.length_erase_of_mem member]; omega)
      refine ⟨last,?_,path.to_reflTransGen.trans rest,isEnd⟩
      rw [findReplacement,found]
      exact isLast

/-- Each operand is in the chain of what it was, before the first value that is not replaced. -/
structure Resolves (coalescedValues : List (Value × Value)) (operands : Use → Value) (visited : List Value)
    (state : State Value Use) : Prop where
  replaces : Replaces coalescedValues state.replacedValues
  visits : ∀ value ∈ visited, coalescedValues.lookup value ≠ none → state.replacedValues.lookup value ≠ none
  chain : ∀ use, Relation.ReflTransGen (Coalesced coalescedValues) (operands use) (state.operands use)
  current : ∀ use, state.replacedValues.lookup (state.operands use) = none

variable {operands : Use → Value} {visited : List Value} {state : State Value Use}

theorem Resolves.step (resolves : Resolves coalescedValues operands visited state)
    (acyclic : Acyclic coalescedValues) (value : Value) :
    ∃ after, doCoalesce coalescedValues state value = some after ∧
      Resolves coalescedValues operands (visited ++ [value]) after := by
  unfold doCoalesce
  cases found : coalescedValues.lookup value with
  | none =>
    refine ⟨state,rfl,resolves.replaces,fun other isVisited isCoalesced => ?_,resolves.chain,resolves.current⟩
    rcases List.mem_append.mp isVisited with old | new
    · exact resolves.visits other old isCoalesced
    · rw [List.mem_singleton.mp new] at isCoalesced
      exact absurd found isCoalesced
  | some coalesced =>
    obtain ⟨last,isLast,rest,isEnd⟩ := findReplacement_spec acyclic resolves.replaces
      (state.replacedValues.map Prod.fst) coalesced fun _ _ => mem_of_lookup
    rw [List.length_map] at isLast
    have path : Relation.TransGen (Coalesced coalescedValues) value last := .head' found rest
    have apart : value ≠ last := fun same => acyclic value (by rwa [← same] at path)
    simp only [isLast,replaceAllUsesWith,if_neg apart,Option.bind_eq_bind,Option.bind_some,Option.pure_def]
    refine ⟨_,rfl,?_,?_,?_,?_⟩
    · intro other replacement isReplaced
      rw [List.lookup_cons] at isReplaced
      split at isReplaced
      · rename_i same
        rw [eq_of_beq same,← Option.some.inj isReplaced]
        exact path
      · exact resolves.replaces other replacement isReplaced
    · intro other isVisited isCoalesced
      rw [List.lookup_cons]
      split
      · simp
      · rename_i different
        rcases List.mem_append.mp isVisited with old | new
        · exact resolves.visits other old isCoalesced
        · rw [List.mem_singleton.mp new] at different
          simp at different
    · intro use
      dsimp only
      split_ifs with same
      · exact (same ▸ resolves.chain use).trans path.to_reflTransGen
      · exact resolves.chain use
    · intro use
      dsimp only
      split_ifs with same
      · rw [List.lookup_cons,beq_eq_false_iff_ne.mpr (Ne.symm apart)]
        exact isEnd
      · rw [List.lookup_cons,beq_eq_false_iff_ne.mpr same]
        exact resolves.current use

theorem Resolves.run (resolves : Resolves coalescedValues operands visited state)
    (acyclic : Acyclic coalescedValues) (order : List Value) :
    ∃ after, order.foldlM (doCoalesce coalescedValues) state = some after ∧
      Resolves coalescedValues operands (visited ++ order) after := by
  induction order generalizing state visited with
  | nil => exact ⟨state,rfl,by simpa using resolves⟩
  | cons value order ih =>
    obtain ⟨middle,isMiddle,resolved⟩ := resolves.step acyclic value
    obtain ⟨after,isAfter,done⟩ := ih resolved
    refine ⟨after,?_,by simpa using done⟩
    rw [List.foldlM_cons,isMiddle]
    exact isAfter

/-- Whatever the order of the visits, every operand becomes the end of its chain. -/
theorem coalesce_resolves (coalescedValues : List (Value × Value)) (acyclic : Acyclic coalescedValues)
    (operands : Use → Value) : ∃ ends : Use → Value,
      (∀ use, ChainEnd coalescedValues (operands use) (ends use)) ∧
      ∀ order : List Value, (∀ value, coalescedValues.lookup value ≠ none → value ∈ order) →
        ∃ after, order.foldlM (doCoalesce coalescedValues) ⟨[],operands⟩ = some after ∧ after.operands = ends := by
  have start : Resolves coalescedValues operands [] (⟨[],operands⟩ : State Value Use) :=
    ⟨by simp [Replaces],by simp,fun _ => .refl,by simp⟩
  have run (order : List Value) (all : ∀ value, coalescedValues.lookup value ≠ none → value ∈ order) :
      ∃ after, order.foldlM (doCoalesce coalescedValues) ⟨[],operands⟩ = some after ∧
        ∀ use, ChainEnd coalescedValues (operands use) (after.operands use) := by
    obtain ⟨after,isAfter,resolved⟩ := start.run acyclic order
    refine ⟨after,isAfter,fun use => ⟨resolved.chain use,?_⟩⟩
    by_contra isCoalesced
    exact resolved.visits _ (by simpa using all _ isCoalesced) isCoalesced (resolved.current use)
  obtain ⟨final,_,ends⟩ := run (coalescedValues.map Prod.fst) fun _ => mem_of_lookup
  refine ⟨final.operands,ends,fun order all => ?_⟩
  obtain ⟨after,isAfter,ends'⟩ := run order all
  exact ⟨after,isAfter,funext fun use => (ends' use).unique (ends use)⟩

end

/-- A version that became a version that became a collection. -/
def versions : List (Nat × Nat) := [(0,1),(1,2)]

theorem versions_resolve : ∃ after : State Nat Nat,
    [0,1].foldlM (doCoalesce versions) ⟨[],id⟩ = some after ∧ after.operands 0 = 2 := by
  have rises {value last : Nat} (path : Relation.TransGen (Coalesced versions) value last) : value < last := by
    induction path with
    | single step =>
      simp only [Coalesced,versions,List.lookup_cons,List.lookup_nil] at step
      grind
    | tail _ step less =>
      simp only [Coalesced,versions,List.lookup_cons,List.lookup_nil] at step
      grind
  obtain ⟨ends,chain,run⟩ := coalesce_resolves versions (fun _ cycle => absurd (rises cycle) (Nat.lt_irrefl _)) id
  obtain ⟨after,isAfter,rfl⟩ := run [0,1] fun value isCoalesced => by simpa [versions] using mem_of_lookup isCoalesced
  exact ⟨after,isAfter,(chain 0).unique ⟨.tail (.single rfl) rfl,rfl⟩⟩

end Coalescing
end Memoir
