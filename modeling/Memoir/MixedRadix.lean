import Mathlib.Algebra.BigOperators.Fin
import Mathlib.Data.Fintype.BigOperators
import Mathlib.Data.List.Forall2
import Mathlib.Tactic.Ring

/-! Positions of index tuples when every index is scaled by the length of its own dimension and of
those behind it but the last, and when they are different. -/
namespace MixedRadix

def weight : List Nat → Nat
  | [] | [_] => 1
  | length :: length' :: lengths => length * weight (length' :: lengths)

def place : List Nat → List Nat → Nat
  | length :: lengths,index :: indices => index * weight (length :: lengths) + place lengths indices
  | _,_ => 0

/-- The same position index by index, with the length that the last index is scaled by. -/
def accumulate (position last : Nat) : List Nat → List Nat → Nat
  | length :: lengths,index :: indices => accumulate (position * last + index) length lengths indices
  | _,_ => position

def InBounds (lengths indices : List Nat) : Prop := List.Forall₂ (· < ·) indices lengths

def Descending (lengths : List Nat) : Prop := (lengths.filter (1 < ·)).Pairwise (· ≥ ·)

def Positive (lengths : List Nat) : Prop := ∀ length ∈ lengths, 0 < length

variable {lengths indices : List Nat} {length index : Nat}

theorem accumulate_eq (position last length index : Nat) (lengths indices : List Nat)
    (same : indices.length = lengths.length) :
    accumulate position last (length :: lengths) (index :: indices) =
      position * last * weight (length :: lengths) + place (length :: lengths) (index :: indices) := by
  induction lengths generalizing position last length index indices with
  | nil =>
    obtain rfl := List.eq_nil_of_length_eq_zero same
    simp [accumulate,weight,place]
  | cons length' lengths ih =>
    obtain ⟨index',indices,rfl⟩ := List.exists_cons_of_length_eq_add_one same
    rw [accumulate,ih _ _ _ _ _ (by simpa using same)]
    simp only [weight,place]
    ring

theorem weight_pos (positive : Positive lengths) : 0 < weight lengths := by
  induction lengths with
  | nil => exact Nat.one_pos
  | cons length lengths ih =>
    cases lengths with
    | nil => exact Nat.one_pos
    | cons length' lengths =>
      exact Nat.mul_pos (positive length (by simp)) (ih fun length member => positive length (by simp [member]))

theorem Positive.tail (positive : Positive (length :: lengths)) : Positive lengths :=
  fun length member => positive length (by simp [member])

theorem InBounds.length_eq (inside : InBounds lengths indices) : indices.length = lengths.length :=
  List.Forall₂.length_eq inside

theorem descending_cons :
    Descending (length :: lengths) ↔
      (1 < length → ∀ length' ∈ lengths, 1 < length' → length' ≤ length) ∧ Descending lengths := by
  unfold Descending
  by_cases above : 1 < length
  · simp [above]
  · simp [above]

theorem place_cons (index : Nat) (indices : List Nat) :
    place (length :: lengths) (index :: indices) =
      index * weight (length :: lengths) + place lengths indices :=
  rfl

/-- The tuples stay below a multiple of the weight of the first index. -/
theorem place_lt (bound : Nat) (positive : Positive (length :: lengths))
    (descending : Descending (length :: lengths))
    (below : ∀ length' ∈ length :: lengths, 1 < length' → length' ≤ bound) (isBound : 0 < bound)
    (inside : InBounds (length :: lengths) indices) :
    place (length :: lengths) indices < bound * weight (length :: lengths) := by
  induction lengths generalizing length bound indices with
  | nil =>
    obtain _ | ⟨less,nothing⟩ := inside
    obtain rfl := List.forall₂_nil_right_iff.mp nothing
    simp only [place,weight]
    have := below length (by simp)
    omega
  | cons length' lengths ih =>
    obtain _ | ⟨less,rest⟩ := inside
    rename_i index indices
    obtain ⟨first,later⟩ := descending_cons.mp descending
    rw [place_cons,weight]
    rcases Nat.lt_or_ge 1 length with above | unit
    · have rest := ih length positive.tail later (first above) (Nat.zero_lt_of_lt above) rest
      calc index * (length * weight (length' :: lengths)) + place (length' :: lengths) indices
        _ < index * (length * weight (length' :: lengths)) + length * weight (length' :: lengths) :=
          Nat.add_lt_add_left rest _
        _ = (index + 1) * (length * weight (length' :: lengths)) := by ring
        _ ≤ bound * (length * weight (length' :: lengths)) :=
          Nat.mul_le_mul_right _ (Nat.le_trans less (below length (by simp) above))
    · obtain rfl : length = 1 := Nat.le_antisymm unit (positive length (by simp))
      obtain rfl : index = 0 := Nat.lt_one_iff.mp less
      have rest := ih bound positive.tail later
        (fun length'' member => below length'' (List.mem_cons_of_mem _ member)) isBound rest
      simpa using rest

/-- Lengths that do not increase keep different tuples apart. -/
theorem place_injective (positive : Positive lengths) (descending : Descending lengths)
    {indices indices' : List Nat} (inside : InBounds lengths indices)
    (inside' : InBounds lengths indices') (same : place lengths indices = place lengths indices') :
    indices = indices' := by
  induction lengths generalizing indices indices' with
  | nil =>
    rw [List.forall₂_nil_right_iff.mp inside,List.forall₂_nil_right_iff.mp inside']
  | cons length lengths ih =>
    obtain _ | ⟨less,rest⟩ := inside
    obtain _ | ⟨less',rest'⟩ := inside'
    rename_i index indices index' indices'
    obtain ⟨first,later⟩ := descending_cons.mp descending
    have apart := fun h => ih positive.tail later rest rest' h
    rw [place_cons,place_cons] at same
    cases lengths with
    | nil =>
      obtain rfl := List.forall₂_nil_right_iff.mp rest
      obtain rfl := List.forall₂_nil_right_iff.mp rest'
      simpa [weight,place] using same
    | cons length' lengths =>
      rcases Nat.lt_or_ge 1 length with above | unit
      · have below := place_lt length positive.tail later (first above) (Nat.zero_lt_of_lt above) rest
        have below' := place_lt length positive.tail later (first above) (Nat.zero_lt_of_lt above) rest'
        have heavy : 0 < weight (length :: length' :: lengths) := weight_pos positive
        rw [weight] at same heavy
        have heads : index = index' := by
          have := congrArg (· / (length * weight (length' :: lengths))) same
          simpa [Nat.mul_add_div heavy,Nat.mul_comm _ (length * _),Nat.div_eq_of_lt below,
            Nat.div_eq_of_lt below'] using this
        subst heads
        rw [apart (Nat.add_left_cancel same)]
      · obtain rfl : length = 1 := Nat.le_antisymm unit (positive length (by simp))
        obtain rfl : index = 0 := Nat.lt_one_iff.mp less
        obtain rfl : index' = 0 := Nat.lt_one_iff.mp less'
        rw [apart (by simpa using same)]

def zeros (lengths : List Nat) : List Nat := lengths.map fun _ => 0

theorem inBounds_zeros (positive : Positive lengths) : InBounds lengths (zeros lengths) := by
  induction lengths with
  | nil => exact List.Forall₂.nil
  | cons length lengths ih => exact List.Forall₂.cons (positive length (by simp)) (ih positive.tail)

theorem place_zeros (lengths : List Nat) : place lengths (zeros lengths) = 0 := by
  induction lengths with
  | nil => rfl
  | cons length lengths ih =>
    change place (length :: lengths) (0 :: zeros lengths) = 0
    rw [place_cons,ih,Nat.zero_mul]

/-- A longer dimension reaches what the one before it scales its index by. -/
theorem reaches (positive : Positive lengths) (descending : Descending lengths) {shorter : Nat}
    (longer : ∃ length ∈ lengths, shorter < length) :
    ∃ indices, InBounds lengths indices ∧ place lengths indices = shorter * weight lengths := by
  induction lengths with
  | nil => simp at longer
  | cons length lengths ih =>
    obtain ⟨first,later⟩ := descending_cons.mp descending
    rcases Nat.lt_or_ge shorter length with less | notLess
    · refine ⟨shorter :: zeros lengths,List.Forall₂.cons less (inBounds_zeros positive.tail),?_⟩
      rw [place_cons,place_zeros,Nat.add_zero]
    · obtain ⟨length',among,less⟩ := longer
      have member : length' ∈ lengths := by
        rcases List.mem_cons.mp among with rfl | member
        · omega
        · exact member
      obtain rfl : length = 1 := by
        have := first
        have := positive length (by simp)
        grind
      obtain ⟨indices,inside,reached⟩ := ih positive.tail later ⟨length',member,less⟩
      refine ⟨0 :: indices,List.Forall₂.cons Nat.one_pos inside,?_⟩
      obtain ⟨head,tail,rfl⟩ := List.exists_cons_of_ne_nil (List.ne_nil_of_mem member)
      rw [place_cons,reached,weight,Nat.zero_mul,Nat.zero_add,Nat.one_mul]

/-- Lengths that increase let two tuples collide. -/
theorem collision (positive : Positive lengths) (rising : ¬ Descending lengths) :
    ∃ indices indices', InBounds lengths indices ∧ InBounds lengths indices' ∧ indices ≠ indices' ∧
      place lengths indices = place lengths indices' := by
  induction lengths with
  | nil => exact absurd List.Pairwise.nil rising
  | cons length lengths ih =>
    by_cases later : Descending lengths
    · have longer : 1 < length ∧ ∃ length' ∈ lengths, length < length' := by
        by_contra none
        apply rising
        apply descending_cons.mpr
        grind
      obtain ⟨above,longer⟩ := longer
      obtain ⟨indices,inside,reached⟩ := reaches positive.tail later longer
      obtain ⟨length',member,_⟩ := longer
      obtain ⟨head,tail,rfl⟩ := List.exists_cons_of_ne_nil (List.ne_nil_of_mem member)
      refine ⟨1 :: zeros (head :: tail),0 :: indices,
        List.Forall₂.cons above (inBounds_zeros positive.tail),
        List.Forall₂.cons (Nat.zero_lt_of_lt above) inside,by simp,?_⟩
      rw [place_cons,place_cons,place_zeros,reached,weight]
      ring
    · obtain ⟨indices,indices',inside,inside',apart,same⟩ := ih positive.tail later
      have first := positive length (by simp)
      refine ⟨0 :: indices,0 :: indices',List.Forall₂.cons first inside,
        List.Forall₂.cons first inside',by simpa using apart,?_⟩
      rw [place_cons,place_cons,same]

/-- The position of the lengths themselves is beyond all tuples. -/
theorem place_lt_extent (positive : Positive (length :: lengths))
    (inside : InBounds (length :: lengths) indices) :
    place (length :: lengths) indices < place (length :: lengths) (length :: lengths) := by
  induction lengths generalizing length indices with
  | nil =>
    obtain _ | ⟨less,nothing⟩ := inside
    obtain rfl := List.forall₂_nil_right_iff.mp nothing
    simpa [place,weight] using less
  | cons length' lengths ih =>
    obtain _ | ⟨less,rest⟩ := inside
    rw [place_cons,place_cons length]
    exact Nat.add_lt_add_of_le_of_lt (Nat.mul_le_mul_right _ (Nat.le_of_lt less)) (ih positive.tail rest)

/-- There are not more tuples than positions. -/
theorem prod_le_of_injective {size : Nat} (position : List Nat → Nat)
    (below : ∀ indices, InBounds lengths indices → position indices < size)
    (injective : ∀ indices indices', InBounds lengths indices → InBounds lengths indices' →
      position indices = position indices' → indices = indices') :
    lengths.prod ≤ size := by
  have inside (tuple : ∀ k : Fin lengths.length, Fin (lengths.get k)) :
      InBounds lengths (List.ofFn fun k => (tuple k).val) := by
    apply List.forall₂_iff_get.mpr
    refine ⟨by simp,fun k _ below => ?_⟩
    simp
  let numbering (tuple : ∀ k : Fin lengths.length, Fin (lengths.get k)) : Fin size :=
    ⟨position (List.ofFn fun k => (tuple k).val),below _ (inside tuple)⟩
  have numbered : Function.Injective numbering := by
    intro tuple tuple' same
    have same := injective _ _ (inside tuple) (inside tuple') (Fin.mk.inj same)
    funext k
    exact Fin.ext (congrFun (List.ofFn_injective same) k)
  have count := Fintype.card_le_of_injective numbering numbered
  simpa [Fintype.card_pi,← List.prod_ofFn] using count

end MixedRadix
