import Mathlib.Data.Finset.Card
import Mathlib.Order.Interval.Finset.Nat

/-! Cars that come one after the other to a row of places, each to the first free place from its home
on. All of them find a place, in any order, if and only if from no place on there are more homes than
places. -/
namespace Parking

/-- From no place on there are more homes than places. -/
def Room (places : Nat) (homes : List Nat) : Prop := ∀ t < places,homes.countP (t ≤ ·) ≤ places - t

instance (places : Nat) (homes : List Nat) : Decidable (Room places homes) :=
  inferInstanceAs (Decidable (∀ t < places,homes.countP (t ≤ ·) ≤ places - t))

/-- The places that the cars with these homes have taken: none is in front of its home, and between
the two there is no free place. -/
structure Parked (places : Nat) (taken : Finset Nat) (homes : List Nat) : Prop where
  inside : ∀ p ∈ taken,p < places
  behind : ∀ t,homes.countP (t ≤ ·) ≤ (taken.filter (t ≤ ·)).card
  closed : ∀ t,(∀ p ∈ taken,p + 1 ≠ t) → homes.countP (t ≤ ·) = (taken.filter (t ≤ ·)).card

variable {places home place : Nat} {taken : Finset Nat} {homes homes' : List Nat}

theorem Room.perm (same : homes.Perm homes') (room : Room places homes) : Room places homes' := by
  intro t below
  rw [← same.countP_eq]
  exact room t below

theorem Room.of_append (room : Room places (homes ++ homes')) : Room places homes := by
  intro t below
  have all := room t below
  rw [List.countP_append] at all
  omega

theorem parked_none (places : Nat) : Parked places ∅ [] :=
  ⟨fun _ none => absurd none (Finset.notMem_empty _),fun _ => Nat.zero_le _,fun _ _ => rfl⟩

theorem Parked.room (parked : Parked places taken homes) : Room places homes := by
  intro t below
  have part : taken.filter (t ≤ ·) ⊆ Finset.Ico t places := by
    intro p member
    rw [Finset.mem_filter] at member
    exact Finset.mem_Ico.mpr ⟨member.2,parked.inside p member.1⟩
  calc homes.countP (t ≤ ·) ≤ (taken.filter (t ≤ ·)).card := parked.behind t
    _ ≤ (Finset.Ico t places).card := Finset.card_le_card part
    _ = places - t := Nat.card_Ico t places

/-- One more car, at the first place that is free. -/
theorem Parked.park (parked : Parked places taken homes) (below : place < places) (free : place ∉ taken)
    (upTo : home ≤ place) (passed : ∀ p,home ≤ p → p < place → p ∈ taken) :
    Parked places (insert place taken) (home :: homes) := by
  have counted (t : Nat) : ((insert place taken).filter (t ≤ ·)).card =
      (taken.filter (t ≤ ·)).card + if t ≤ place then 1 else 0 := by
    rw [Finset.filter_insert]
    split_ifs with le
    · exact Finset.card_insert_of_notMem fun member => free (Finset.mem_of_mem_filter _ member)
    · rfl
  refine ⟨?_,?_,?_⟩
  · intro p member
    rcases Finset.mem_insert.mp member with rfl | member
    · exact below
    · exact parked.inside p member
  · intro t
    have before := parked.behind t
    rw [counted,List.countP_cons]
    simp only [decide_eq_true_eq]
    split_ifs <;> omega
  · intro t front
    have before := parked.closed t fun p member => front p (Finset.mem_insert_of_mem member)
    have same : t ≤ home ↔ t ≤ place := by
      constructor
      · exact fun le => le.trans upTo
      · intro le
        by_contra above
        have notHere := front place (Finset.mem_insert_self _ _)
        have there := passed (t - 1) (by omega) (by omega)
        exact front (t - 1) (Finset.mem_insert_of_mem there) (by omega)
    rw [counted,List.countP_cons,before]
    simp only [decide_eq_true_eq,same]

/-- A car that finds no place is one too many. -/
theorem Parked.not_room (parked : Parked places taken homes) (below : home < places)
    (full : ∀ p,home ≤ p → p < places → p ∈ taken) : ¬Room places (home :: homes) := by
  classical
  intro room
  have exists_ : ∃ t,∀ p,t ≤ p → p < places → p ∈ taken := ⟨home,full⟩
  have first := Nat.find_min' exists_ full
  have whole := Nat.find_spec exists_
  have least := fun {t : Nat} => Nat.find_min exists_ (m := t)
  generalize Nat.find exists_ = t at *
  have front : ∀ p ∈ taken,p + 1 ≠ t := by
    intro p member same
    apply least (show p < t by omega)
    intro q from_ inside
    rcases Nat.lt_or_eq_of_le from_ with behind | rfl
    · exact whole q (by omega) inside
    · exact member
  have part : Finset.Ico t places ⊆ taken.filter (t ≤ ·) := by
    intro p member
    obtain ⟨from_,inside⟩ := Finset.mem_Ico.mp member
    exact Finset.mem_filter.mpr ⟨whole p from_ inside,from_⟩
  have size := Finset.card_le_card part
  rw [Nat.card_Ico,← parked.closed t front] at size
  have all := room t (by omega)
  rw [List.countP_cons,if_pos (decide_eq_true first)] at all
  omega

end Parking
