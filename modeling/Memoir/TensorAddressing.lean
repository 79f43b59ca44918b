import Memoir.MixedRadix
import Memoir.RuntimePurity

/-! The elements of a tensor by their indices. The positions are ints, and each index is scaled by
the length of the dimension before it. -/
namespace Memoir
namespace Runtime
open MixedRadix

variable {lengths indices elements : List Nat}

theorem isInt_iff {n : Int} : isInt n = true ↔ -2 ^ 31 ≤ n ∧ n < 2 ^ 31 := by
  unfold isInt
  rw [Bool.and_eq_true,decide_eq_true_iff,decide_eq_true_iff]

theorem isInt_natCast {n : Nat} : isInt n = true ↔ n < 2 ^ 31 := by
  rw [isInt_iff]
  omega

theorem bmod_small {n : Int} (above : -2 ^ 31 ≤ n) (below : n < 2 ^ 31) : n.bmod (2 ^ 32) = n := by
  rw [Int.bmod_def]
  omega

theorem bmod_natCast {n : Nat} (small : n < 2 ^ 31) : Int.bmod n (2 ^ 32) = n :=
  bmod_small (by omega) (by omega)

theorem le_accumulate (position : Nat) {last : Nat} (some : 0 < last) (positive : Positive lengths)
    (indices : List Nat) : position ≤ accumulate position last lengths indices := by
  induction lengths generalizing position last indices with
  | nil => exact Nat.le_refl _
  | cons length lengths ih =>
    cases indices with
    | nil => exact Nat.le_refl _
    | cons index indices =>
      calc position
        _ ≤ position * last + index := Nat.le_add_right_of_le (Nat.le_mul_of_pos_right _ some)
        _ ≤ _ := ih _ (positive length (by simp)) positive.tail indices

/-- The ints do not overflow below `2^31`. -/
theorem flattenedIndex_exact {position bound last : Nat} (positive : Positive lengths)
    (inside : InBounds lengths indices) (less : position ≤ bound)
    (small : accumulate bound last lengths lengths < 2 ^ 31) :
    flattenedIndex position last lengths indices =
      some (accumulate position last lengths indices : Nat) := by
  induction inside generalizing position bound last with
  | nil => rfl
  | @cons index length indices lengths below rest ih =>
    have nonempty := positive length (by simp)
    rw [accumulate] at small
    have step := Nat.lt_of_le_of_lt (le_accumulate _ nonempty positive.tail lengths) small
    have product := Nat.mul_le_mul_right last less
    have isInt : isInt (position * last : Int) = true := by
      rw [← Nat.cast_mul,isInt_natCast]
      omega
    rw [flattenedIndex,if_pos ⟨below,isInt⟩,← Nat.cast_mul,← Nat.cast_add,
      bmod_natCast (by omega),bmod_natCast (by omega),accumulate]
    exact ih positive.tail (by omega) small

theorem flattenedLength_exact {position last : Nat} (positive : Positive lengths)
    (small : accumulate position last lengths lengths < 2 ^ 31) :
    flattenedLength position last lengths =
      some (accumulate position last lengths lengths : Nat) := by
  induction lengths generalizing position last with
  | nil => rfl
  | cons length lengths ih =>
    have nonempty := positive length (by simp)
    rw [accumulate] at small
    have step := Nat.lt_of_le_of_lt (le_accumulate _ nonempty positive.tail lengths) small
    have isInt : isInt (position * last : Int) = true := by
      rw [← Nat.cast_mul,isInt_natCast]
      omega
    rw [flattenedLength,if_pos isInt,← Nat.cast_mul,← Nat.cast_add,bmod_natCast (by omega),
      bmod_natCast (by omega),accumulate]
    exact ih positive.tail small

theorem accumulate_step (position last index : Int) (modulus : Nat) :
    (position.bmod modulus * last.bmod modulus + index).bmod modulus =
      (position * last + index).bmod modulus := by
  rw [← Int.bmod_add_bmod,Int.bmod_mul_bmod,Int.mul_bmod_bmod,Int.bmod_add_bmod]

/-- Whatever overflows, the result is right modulo `2^32`. -/
theorem flattenedIndex_bmod {position last : Nat} {result : Int}
    (inside : InBounds lengths indices)
    (found : flattenedIndex ((position : Int).bmod (2 ^ 32)) ((last : Int).bmod (2 ^ 32)) lengths
      indices = some result) :
    result = (accumulate position last lengths indices : Int).bmod (2 ^ 32) := by
  induction inside generalizing position last with
  | nil => simpa [flattenedIndex,accumulate] using found.symm
  | @cons index length indices lengths below rest ih =>
    rw [flattenedIndex] at found
    split_ifs at found
    rw [accumulate_step,← Nat.cast_mul,← Nat.cast_add] at found
    exact ih found

/-- How many elements the lengths ask for, when nothing overflows. -/
def extent (lengths : List Word) : Nat := place lengths lengths

theorem accumulate_eq_place (same : indices.length = lengths.length) :
    accumulate 0 1 lengths indices = place lengths indices := by
  cases lengths with
  | nil => rfl
  | cons length lengths =>
    obtain ⟨index,indices,rfl⟩ := List.exists_cons_of_length_eq_add_one same
    rw [accumulate_eq _ _ _ _ _ _ (by simpa using same)]
    simp

theorem length_repeated {make : Heap → Option (Heap × Word)} {count : Nat} {before after : Heap}
    {values : List Word} (made : repeated make count before = some (after,values)) :
    values.length = count := by
  induction count generalizing before values with
  | zero =>
    obtain ⟨_,rfl⟩ := Prod.mk.inj (Option.some.inj made)
    rfl
  | succ count ih =>
    simp only [repeated,Option.bind_eq_bind,Option.bind_eq_some_iff,Option.pure_def,
      Option.some.injEq,Prod.exists,Prod.mk.injEq] at made
    obtain ⟨_,_,_,_,_,rest,rfl,rfl⟩ := made
    rw [List.length_cons,ih rest]

/-- The storage of a tensor is as long as its lengths ask for. -/
theorem allocateTensor_allocated {before after : Heap} {element : Ty} {tensor : Nat}
    (made : before.allocateTensor element lengths = some (after,tensor)) :
    ∃ elements, after.get tensor = some (.owned (.tensor lengths elements)) ∧
      flattenedLength 0 1 lengths = some (elements.length : Int) := by
  simp only [Heap.allocateTensor,Option.bind_eq_bind,Option.bind_eq_some_iff] at made
  obtain ⟨length,asked,made⟩ := made
  split_ifs at made with bad
  · exact absurd made (by simp)
  obtain ⟨⟨middle,elements⟩,initialized,made⟩ := Option.bind_eq_some_iff.mp made
  obtain ⟨rfl,rfl⟩ := Prod.mk.inj (Option.some.inj made)
  refine ⟨elements,by simp [Heap.add,Heap.get],?_⟩
  rw [length_repeated (initElements_repeated initialized),asked,
    Int.toNat_of_nonneg (by simpa using (not_or.mp bad).2)]

/-- The tuples within the lengths have elements of their own. -/
structure Addressed (heap : Heap) (tensor : Nat) (lengths elements : List Word) : Prop where
  inside : ∀ p, InBounds lengths p →
    ∃ position : Nat, flattenedIndex 0 1 lengths p = some position ∧ position < elements.length
  stored : ∀ p q value, InBounds lengths p → InBounds lengths q →
    ∃ after, heap.setElement value tensor p = some after ∧
      (after.getElement tensor p).map Prod.snd = some value ∧
      (q ≠ p → (after.getElement tensor q).map Prod.snd = (heap.getElement tensor q).map Prod.snd)

section
variable {heap : Heap} {tensor : Nat}

theorem tensorElement_eq {position : Nat} (found : flattenedIndex 0 1 lengths indices = some position)
    (below : position < elements.length) : tensorElement lengths indices elements = some position := by
  simp [tensorElement,found,below]

theorem getElement_tensor (is : heap.get tensor = some (.owned (.tensor lengths elements)))
    {position : Nat} (found : flattenedIndex 0 1 lengths indices = some position)
    (below : position < elements.length) :
    (heap.getElement tensor indices).map Prod.snd = elements[position]? := by
  simp [Heap.getElement,Heap.element,is,tensorElement_eq found below,below]

theorem setElement_tensor (is : heap.get tensor = some (.owned (.tensor lengths elements)))
    {position value : Nat} (found : flattenedIndex 0 1 lengths indices = some position)
    (below : position < elements.length) :
    heap.setElement value tensor indices =
      some (heap.write tensor (.tensor lengths (elements.set position value))) := by
  simp [Heap.setElement,is,tensorElement_eq found below]

/-- What a tuple reads after a write through another one. -/
theorem getElement_write (is : heap.get tensor = some (.owned (.tensor lengths elements)))
    {position position' value : Nat}
    (found : flattenedIndex 0 1 lengths indices = some position')
    (below : position' < elements.length) :
    ((heap.write tensor (.tensor lengths (elements.set position value))).getElement tensor
      indices).map Prod.snd = (elements.set position value)[position']? := by
  apply getElement_tensor (Heap.get_write (Heap.get_lt is)) found
  rw [List.length_set]
  exact below

/-- Tuples are addressed when they have different positions. -/
theorem addressed_iff_apart (is : heap.get tensor = some (.owned (.tensor lengths elements))) :
    Addressed heap tensor lengths elements ↔
      (∀ p, InBounds lengths p →
        ∃ position : Nat, flattenedIndex 0 1 lengths p = some position ∧ position < elements.length) ∧
      ∀ p q, InBounds lengths p → InBounds lengths q →
        flattenedIndex 0 1 lengths p = flattenedIndex 0 1 lengths q → p = q := by
  constructor
  · intro addressed
    refine ⟨addressed.inside,fun p q insideP insideQ same => ?_⟩
    obtain ⟨position,found,below⟩ := addressed.inside q insideQ
    by_contra apart
    -- A value that the common element does not have.
    obtain ⟨after,ran,_,kept⟩ := addressed.stored p q (elements[position] + 1) insideP insideQ
    rw [setElement_tensor is (same.trans found) below] at ran
    obtain rfl := Option.some.inj ran
    have kept := kept (Ne.symm apart)
    rw [getElement_write is found below,getElement_tensor is found below] at kept
    simp [below] at kept
  · rintro ⟨inside,apart⟩
    refine ⟨inside,fun p q value insideP insideQ => ?_⟩
    obtain ⟨position,found,below⟩ := inside p insideP
    obtain ⟨position',found',below'⟩ := inside q insideQ
    refine ⟨_,setElement_tensor is found below,?_,fun other => ?_⟩
    · rw [getElement_write is found below]
      simp [below]
    · rw [getElement_write is found' below',getElement_tensor is found' below']
      apply List.getElem?_set_ne
      intro same
      apply other
      apply apart q p insideQ insideP
      rw [found,found',same]

theorem addressed_of_descending (positive : Positive lengths) (descending : Descending lengths)
    (small : extent lengths < 2 ^ 31) (dimensions : lengths ≠ [])
    (is : heap.get tensor = some (.owned (.tensor lengths elements)))
    (allocated : flattenedLength 0 1 lengths = some (elements.length : Int)) :
    Addressed heap tensor lengths elements := by
  have sum : accumulate 0 1 lengths lengths < 2 ^ 31 := by
    rw [accumulate_eq_place rfl]
    exact small
  have exact (p : List Word) (inside : InBounds lengths p) :
      flattenedIndex 0 1 lengths p = some (place lengths p : Int) := by
    rw [← accumulate_eq_place inside.length_eq]
    exact flattenedIndex_exact positive inside (Nat.le_refl 0) sum
  have size : elements.length = extent lengths := by
    have length := flattenedLength_exact positive sum
    rw [Nat.cast_zero,Nat.cast_one,allocated,accumulate_eq_place rfl] at length
    exact Int.ofNat.inj (Option.some.inj length)
  apply (addressed_iff_apart is).mpr
  constructor
  · intro p inside
    obtain ⟨length,lengths,rfl⟩ := List.exists_cons_of_ne_nil dimensions
    rw [size]
    exact ⟨_,exact p inside,place_lt_extent positive inside⟩
  · intro p q insideP insideQ same
    rw [exact p insideP,exact q insideQ] at same
    exact place_injective positive descending insideP insideQ (Int.ofNat.inj (Option.some.inj same))

theorem descending_of_addressed (positive : Positive lengths)
    (is : heap.get tensor = some (.owned (.tensor lengths elements)))
    (addressed : Addressed heap tensor lengths elements) : Descending lengths := by
  by_contra rising
  obtain ⟨inside,apart⟩ := (addressed_iff_apart is).mp addressed
  obtain ⟨p,q,insideP,insideQ,different,same⟩ := collision positive rising
  have position (p : List Word) (insideP : InBounds lengths p) :
      flattenedIndex 0 1 lengths p = some ((place lengths p : Int).bmod (2 ^ 32)) := by
    obtain ⟨position,found,_⟩ := inside p insideP
    rw [← accumulate_eq_place insideP.length_eq,found]
    exact congrArg some (flattenedIndex_bmod insideP found)
  apply different
  apply apart p q insideP insideQ
  rw [position p insideP,position q insideQ,same]

/-- A tensor has as many elements as there are tuples. -/
theorem prod_le (is : heap.get tensor = some (.owned (.tensor lengths elements)))
    (addressed : Addressed heap tensor lengths elements) : lengths.prod ≤ elements.length := by
  obtain ⟨inside,apart⟩ := (addressed_iff_apart is).mp addressed
  apply prod_le_of_injective fun p => ((flattenedIndex 0 1 lengths p).getD 0).toNat
  · intro p insideP
    obtain ⟨position,found,below⟩ := inside p insideP
    simpa [found] using below
  · intro p q insideP insideQ same
    obtain ⟨position,found,_⟩ := inside p insideP
    obtain ⟨position',found',_⟩ := inside q insideQ
    apply apart p q insideP insideQ
    simpa [found,found'] using same

theorem length_le_prod (positive : Positive lengths) {length : Nat} (member : length ∈ lengths) :
    length ≤ lengths.prod :=
  Nat.le_of_dvd (List.prod_pos_iff_forall_pos_nat.mpr positive) (List.dvd_prod member)

/-- The last index but one of a dimension is multiplied by its length. -/
theorem square_of_inside {last : Int} (positive : Positive lengths)
    (small : ∀ length ∈ lengths, length < 2 ^ 31)
    (inside : ∀ p, InBounds lengths p → flattenedIndex 0 last lengths p ≠ none) :
    ∀ length ∈ lengths.dropLast, (length - 1) * length < 2 ^ 31 := by
  induction lengths generalizing last with
  | nil => simp
  | cons length lengths ih =>
    cases lengths with
    | nil => simp
    | cons length' lengths =>
      have nonempty := positive length (by simp)
      have nonempty' := positive length' (by simp)
      have below := small length (by simp)
      rw [List.dropLast_cons_cons]
      intro length'' member
      rcases List.mem_cons.mp member with rfl | member
      · have defined := inside ((length'' - 1) :: 0 :: zeros lengths)
          (List.Forall₂.cons (by omega)
            (List.Forall₂.cons nonempty' (inBounds_zeros positive.tail.tail)))
        have first : length'' - 1 < length'' ∧ isInt 0 = true := ⟨by omega,by decide⟩
        rw [flattenedIndex,zero_mul,zero_add,if_pos first,bmod_natCast (by omega),
          bmod_natCast below,flattenedIndex,← Nat.cast_mul] at defined
        by_contra above
        rw [if_neg (fun both => above (isInt_natCast.mp both.2))] at defined
        exact defined rfl
      · apply ih positive.tail (fun length member => small length (List.mem_cons_of_mem _ member))
          (fun p insideP => ?_) length'' member
        · exact Int.bmod length (2 ^ 32)
        · have defined := inside (0 :: p) (List.Forall₂.cons nonempty insideP)
          rw [flattenedIndex,zero_mul,if_pos ⟨nonempty,by decide⟩] at defined
          exact defined

/-- A length that has become negative does not recover. -/
theorem flattenedLength_negative {last size : Nat} {length : Int} (passed : Nat)
    (positive : Positive lengths) (few : passed + lengths.length < 2 ^ 29)
    (small : ∀ length ∈ lengths.dropLast, length ≤ 46341)
    (less : ∀ length ∈ lengths, length ≤ size) (bounded : size < 2 ^ 31)
    (nonzero : 0 < last) (short : lengths ≠ [] → last ≤ 46341)
    (low : length + 2 ^ 31 ≤ passed + last) (negative : length < 0) :
    flattenedLength length last lengths ≠ some (size : Int) := by
  induction lengths generalizing length last passed with
  | nil =>
    intro found
    have := Option.some.inj found
    omega
  | cons length' lengths ih =>
    have short := short (by simp)
    have less' := less length' (by simp)
    rw [flattenedLength]
    split_ifs with fits
    · obtain ⟨above,_⟩ := isInt_iff.mp fits
      -- Twice the length, or more, is below all ints.
      obtain rfl : last = 1 := by
        by_contra more
        have twice : 2 ≤ (last : Int) := by omega
        have := Int.mul_le_mul_of_nonpos_left (Int.le_of_lt negative) twice
        omega
      rw [Nat.cast_one,mul_one] at above ⊢
      rw [bmod_small (by omega) (by omega),bmod_natCast (by omega)]
      cases lengths with
      | nil =>
        intro found
        have := Option.some.inj found
        omega
      | cons length'' lengths =>
        have bound := small length' (by simp)
        rw [List.length_cons,List.length_cons] at few
        apply ih (passed + 1) positive.tail
        · rw [List.length_cons]
          omega
        · intro length member
          apply small
          rw [List.dropLast_cons_cons]
          exact List.mem_cons_of_mem _ member
        · exact fun length member => less length (List.mem_cons_of_mem _ member)
        · exact positive length' (by simp)
        · exact fun _ => bound
        · push_cast
          omega
        · omega
    · simp

/-- A length that an int holds did not overflow on the way. -/
theorem accumulate_of_flattenedLength {position last size : Nat} (positive : Positive lengths)
    (few : lengths.length < 2 ^ 29) (small : ∀ length ∈ lengths.dropLast, length ≤ 46341)
    (less : ∀ length ∈ lengths, length ≤ size) (bounded : size < 2 ^ 31)
    (found : flattenedLength position last lengths = some (size : Int)) :
    accumulate position last lengths lengths = size := by
  induction lengths generalizing position last with
  | nil => exact Int.ofNat.inj (Option.some.inj found)
  | cons length lengths ih =>
    have less' := less length (by simp)
    rw [flattenedLength] at found
    split_ifs at found with fits
    rw [← Nat.cast_mul,isInt_natCast] at fits
    rw [← Nat.cast_mul,← Nat.cast_add,bmod_natCast (by omega : length < 2 ^ 31)] at found
    have small' : ∀ length ∈ lengths.dropLast, length ≤ 46341 := by
      intro length' member
      cases lengths with
      | nil => simp at member
      | cons length'' lengths =>
        apply small
        rw [List.dropLast_cons_cons]
        exact List.mem_cons_of_mem _ member
    have less := fun length member => less length (List.mem_cons_of_mem _ member)
    rw [List.length_cons] at few
    rcases Nat.lt_or_ge (position * last + length) (2 ^ 31) with below | above
    · rw [bmod_natCast below] at found
      exact ih positive.tail (by omega) small' less found
    · have wraps : Int.bmod ((position * last + length : Nat) : Int) (2 ^ 32) =
          (position * last + length : Nat) - 2 ^ 32 := by
        rw [Int.bmod_def]
        omega
      rw [wraps] at found
      refine absurd found (flattenedLength_negative 0 positive.tail (by omega) small' less bounded
        (positive length (by simp)) (fun more => ?_) (by omega) (by omega))
      obtain ⟨length',lengths,rfl⟩ := List.exists_cons_of_ne_nil more
      exact small length (by simp)

theorem extent_of_addressed (positive : Positive lengths) (few : lengths.length < 2 ^ 29)
    (is : heap.get tensor = some (.owned (.tensor lengths elements)))
    (allocated : flattenedLength 0 1 lengths = some (elements.length : Int))
    (addressed : Addressed heap tensor lengths elements) : extent lengths < 2 ^ 31 := by
  have bounded := Int.ofNat_lt.mp (flattenedLength_lt allocated (by decide))
  have less (length : Nat) (member : length ∈ lengths) : length ≤ elements.length :=
    Nat.le_trans (length_le_prod positive member) (prod_le is addressed)
  have defined (p : List Nat) (inside : InBounds lengths p) :
      flattenedIndex 0 1 lengths p ≠ none := by
    obtain ⟨position,found,_⟩ := addressed.inside p inside
    rw [found]
    exact Option.some_ne_none _
  have small : ∀ length ∈ lengths.dropLast, length ≤ 46341 := by
    intro length member
    have square := square_of_inside positive
      (fun length member => Nat.lt_of_le_of_lt (less length member) bounded) defined length member
    by_contra above
    have := Nat.mul_le_mul (show 46341 ≤ length - 1 by omega) (show 46342 ≤ length by omega)
    omega
  have sum := accumulate_of_flattenedLength positive few small less bounded allocated
  rw [accumulate_eq_place rfl] at sum
  rw [extent,sum]
  exact bounded

/-- Every tuple has an element of its own when the lengths do not increase, lengths of one apart,
and the elements are fewer than ints; of a tensor that a call can be given the dimensions of,
only then. -/
theorem addressed_iff (dimensions : lengths ≠ []) (positive : Positive lengths)
    (is : heap.get tensor = some (.owned (.tensor lengths elements)))
    (allocated : flattenedLength 0 1 lengths = some (elements.length : Int)) :
    (Descending lengths ∧ extent lengths < 2 ^ 31 → Addressed heap tensor lengths elements) ∧
      (lengths.length < 2 ^ 29 → Addressed heap tensor lengths elements →
        Descending lengths ∧ extent lengths < 2 ^ 31) := by
  constructor
  · rintro ⟨descending,small⟩
    exact addressed_of_descending positive descending small dimensions is allocated
  · intro few addressed
    exact ⟨descending_of_addressed positive is addressed,
      extent_of_addressed positive few is allocated addressed⟩

def matrix : Heap where
  memory := [some (.owned (.tensor [3,2] (List.replicate 11 0)))]
  views := by
    intro handle sequence first last found
    cases handle <;> simp at found

theorem matrix_addressed :
    (Descending [3,2] ∧ extent [3,2] < 2 ^ 31 →
        Addressed matrix 0 [3,2] (List.replicate 11 0)) ∧
      (2 < 2 ^ 29 → Addressed matrix 0 [3,2] (List.replicate 11 0) →
        Descending [3,2] ∧ extent [3,2] < 2 ^ 31) :=
  addressed_iff (by simp) (by simp [Positive]) rfl (by decide)

/-- Two rows of three. -/
def wideMatrix : Heap where
  memory := [some (.owned (.tensor [2,3] (List.replicate 7 0)))]
  views := by
    intro handle sequence first last found
    cases handle <;> simp at found

/-- The last element of the first row is the first one of the second. -/
theorem wideMatrix_not_addressed :
    flattenedLength 0 1 [2,3] = some 7 ∧ ¬ Addressed wideMatrix 0 [2,3] (List.replicate 7 0) := by
  refine ⟨by decide,fun addressed => ?_⟩
  obtain ⟨after,ran,_,kept⟩ := addressed.stored [0,2] [1,0] 5 (by simp [InBounds]) (by simp [InBounds])
  have wrote : wideMatrix.setElement 5 0 [0,2] =
      some (wideMatrix.write 0 (.tensor [2,3] [0,0,5,0,0,0,0])) := rfl
  rw [wrote] at ran
  obtain rfl := Option.some.inj ran
  exact absurd (kept (by decide)) (by decide)

end

end Runtime
end Memoir
