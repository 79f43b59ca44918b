import Mathlib.Data.Nat.Find
import Mathlib.Data.Nat.ModEq
import Mathlib.Logic.Function.Basic

/-! Linear probing in a circle of slots, each with at most one key: what a search from the home of
a key passes, and when every key is found from its home. -/
namespace LinearProbing

variable {κ : Type} {capacity : Nat} {home : κ → Nat} {occupant : Nat → Option κ}

def position (capacity start distance : Nat) : Nat := (start + distance) % capacity

def Passed (capacity : Nat) (occupant : Nat → Option κ) (start : Nat) (key : κ) (distance : Nat) :
    Prop :=
  ∀ d < distance, ∃ other, occupant (position capacity start d) = some other ∧ other ≠ key

def Chained (capacity : Nat) (home : κ → Nat) (occupant : Nat → Option κ) : Prop :=
  ∀ key d, d < capacity → occupant (position capacity (home key) d) = some key →
    Passed capacity occupant (home key) key d

theorem position_lt (some : 0 < capacity) (start distance : Nat) :
    position capacity start distance < capacity :=
  Nat.mod_lt _ some

theorem position_zero {start : Nat} (below : start < capacity) : position capacity start 0 = start :=
  Nat.mod_eq_of_lt below

theorem position_succ (capacity start distance : Nat) :
    position capacity start (distance + 1) = (position capacity start distance + 1) % capacity := by
  unfold position
  rw [Nat.mod_add_mod,Nat.add_assoc]

theorem position_injective {start d e : Nat} (below : d < capacity) (below' : e < capacity)
    (same : position capacity start d = position capacity start e) : d = e := by
  have congruent : d ≡ e [MOD capacity] := Nat.ModEq.add_left_cancel' start same
  exact congruent.eq_of_lt_of_lt below below'

theorem exists_position (start : Nat) {slot : Nat} (below : slot < capacity) :
    ∃ d < capacity, position capacity start d = slot := by
  have some := Nat.zero_lt_of_lt below
  refine ⟨(slot + (capacity - start % capacity)) % capacity,Nat.mod_lt _ some,?_⟩
  have start' := Nat.mod_lt start some
  unfold position
  rw [Nat.add_mod_mod,← Nat.mod_add_mod,
    show start % capacity + (slot + (capacity - start % capacity)) = slot + capacity by omega,
    Nat.add_mod_right,Nat.mod_eq_of_lt below]

/-- A search stops at an empty slot or at the key. -/
theorem exists_stop (empty : ∃ slot < capacity, occupant slot = none) (start : Nat) (key : κ) :
    ∃ d < capacity, Passed capacity occupant start key d ∧
      (occupant (position capacity start d) = none ∨
        occupant (position capacity start d) = some key) := by
  classical
  obtain ⟨slot,below,isEmpty⟩ := empty
  obtain ⟨e,bound,there⟩ := exists_position start below
  have stops : ∃ d, occupant (position capacity start d) = none ∨
      occupant (position capacity start d) = some key := ⟨e,Or.inl (there ▸ isEmpty)⟩
  refine ⟨Nat.find stops,Nat.lt_of_le_of_lt (Nat.find_min' stops (Or.inl (there ▸ isEmpty))) bound,?_,
    Nat.find_spec stops⟩
  intro d before
  have goes := Nat.find_min stops before
  obtain ⟨other,isOther⟩ := Option.ne_none_iff_exists'.mp (not_or.mp goes).1
  exact ⟨other,isOther,fun same => (not_or.mp goes).2 (same ▸ isOther)⟩

/-- No key has two slots. -/
theorem Chained.unique (chained : Chained capacity home occupant) {key : κ} {slot slot' : Nat}
    (below : slot < capacity) (below' : slot' < capacity) (has : occupant slot = some key)
    (has' : occupant slot' = some key) : slot = slot' := by
  obtain ⟨d,bound,rfl⟩ := exists_position (home key) below
  obtain ⟨e,bound',rfl⟩ := exists_position (home key) below'
  rcases Nat.lt_trichotomy d e with before | same | behind
  · obtain ⟨other,isOther,apart⟩ := chained key e bound' has' d before
    exact absurd (Option.some.inj (isOther.symm.trans has)) apart
  · rw [same]
  · obtain ⟨other,isOther,apart⟩ := chained key d bound has e behind
    exact absurd (Option.some.inj (isOther.symm.trans has')) apart

/-- A search that ends at an empty slot is for a key without one. -/
theorem Chained.absent (chained : Chained capacity home occupant) {key : κ} {d : Nat}
    (passed : Passed capacity occupant (home key) key d)
    (isEmpty : occupant (position capacity (home key) d) = none) :
    ∀ slot < capacity, occupant slot ≠ some key := by
  intro slot bound has
  obtain ⟨e,bound',rfl⟩ := exists_position (home key) bound
  rcases Nat.lt_trichotomy d e with before | same | behind
  · obtain ⟨other,isOther,_⟩ := chained key e bound' has d before
    rw [isEmpty] at isOther
    exact absurd isOther (by simp)
  · subst same
    rw [isEmpty] at has
    exact absurd has (by simp)
  · obtain ⟨other,isOther,apart⟩ := passed e behind
    exact apart (Option.some.inj (isOther.symm.trans has))

/-- An empty slot can be given to a key that a search for it reaches. -/
theorem Chained.fill (chained : Chained capacity home occupant) {key : κ} {d : Nat}
    (passed : Passed capacity occupant (home key) key d) (below : d < capacity)
    (isEmpty : occupant (position capacity (home key) d) = none) :
    Chained capacity home
      (Function.update occupant (position capacity (home key) d) (some key)) := by
  intro other e bound has
  by_cases slot : position capacity (home other) e = position capacity (home key) d
  · rw [slot,Function.update_self] at has
    obtain rfl := Option.some.inj has
    obtain rfl := position_injective bound below slot
    intro f before
    obtain ⟨other',isOther,apart⟩ := passed f before
    refine ⟨other',?_,apart⟩
    rw [Function.update_of_ne (fun same => ?_),isOther]
    rw [same,isEmpty] at isOther
    exact absurd isOther (by simp)
  · rw [Function.update_of_ne slot] at has
    intro f before
    obtain ⟨other',isOther,apart⟩ := chained other e bound has f before
    refine ⟨other',?_,apart⟩
    rw [Function.update_of_ne (fun same => ?_),isOther]
    rw [same,isEmpty] at isOther
    exact absurd isOther (by simp)

/-- A slot can be emptied when no search for another key goes past it. -/
theorem Chained.clear_iff (chained : Chained capacity home occupant) (slot : Nat) :
    Chained capacity home (Function.update occupant slot none) ↔
      ∀ other d, d < capacity → occupant (position capacity (home other) d) = some other →
        position capacity (home other) d ≠ slot → ∀ e < d, position capacity (home other) e ≠ slot := by
  constructor
  · intro cleared other d bound has apart e before same
    have stays : Function.update occupant slot none (position capacity (home other) d) = some other := by
      rw [Function.update_of_ne apart,has]
    obtain ⟨other',isOther,_⟩ := cleared other d bound stays e before
    rw [same,Function.update_self] at isOther
    exact absurd isOther (by simp)
  · intro aside other d bound has e before
    by_cases there : position capacity (home other) d = slot
    · rw [there,Function.update_self] at has
      exact absurd has (by simp)
    · rw [Function.update_of_ne there] at has
      obtain ⟨other',isOther,apart⟩ := chained other d bound has e before
      refine ⟨other',?_,apart⟩
      rw [Function.update_of_ne (aside other d bound has there e before),isOther]

end LinearProbing
