import Mathlib.Data.Nat.Basic
import Memoir.VectorBackend

/-! When the window of every vector stays inside its buffer, and what the operations do then. -/
namespace Memoir
namespace VectorBackend
open Memoir.Runtime (sum difference slice_length slice_getElem? slice_slice slice_to slice_from
  splice_length)

theorem difference_eq {x y : Nat} (ordered : y ≤ x) (small : x < 2 ^ 64) :
    difference x y = x - y := by
  unfold difference
  omega

theorem sum_eq {x y : Nat} (small : x + y < 2 ^ 64) : sum x y = x + y :=
  Nat.mod_eq_of_lt small

theorem ok_bind {α β : Type} (x : α) (next : α → Except Fault β) :
    (Except.ok x >>= next) = next x :=
  rfl

theorem error_bind {α β : Type} (fault : Fault) (next : α → Except Fault β) :
    ((.error fault : Except Fault α) >>= next) = .error fault :=
  rfl

theorem nextPow2_eq {x : Nat} (small : x < 2 ^ 64) : nextPow2 x = 2 ^ x.size % 2 ^ 64 := by
  have filled := (PowerOfTwo.filled_one x).double.double.double.double.double.double.eq small
  have positive : 0 < 2 ^ x.size := Nat.two_pow_pos _
  have whole : nextPow2 x = sum (2 ^ x.size - 1) 1 := by
    rw [← filled]
    rfl
  rw [whole]
  unfold sum
  rw [Nat.sub_add_cancel positive]

theorem nextPow2_cases {x : Nat} (small : x < 2 ^ 64) :
    x < 2 ^ 63 ∧ x < nextPow2 x ∨ 2 ^ 63 ≤ x ∧ nextPow2 x = 0 := by
  have above := Nat.lt_size_self x
  rw [nextPow2_eq small]
  rcases Nat.lt_or_ge x (2 ^ 63) with below | large
  · left
    have := PowerOfTwo.size_le_of_lt below
    rw [Nat.mod_eq_of_lt (by omega)]
    exact ⟨below,above⟩
  · right
    have upper : x.size ≤ 64 := Nat.size_le.mpr small
    have lower : 63 < x.size := Nat.lt_size.mpr large
    obtain same : x.size = 64 := by omega
    rw [same]
    exact ⟨large,rfl⟩

theorem nextPow2_le {x n : Nat} (small : x < 2 ^ 64) (below : x < 2 ^ n) : nextPow2 x ≤ 2 ^ n := by
  rw [nextPow2_eq small]
  exact Nat.le_trans (Nat.mod_le _ _) (PowerOfTwo.size_le_of_lt below)

theorem nextPow2_le_double {x : Nat} (small : x < 2 ^ 64) (positive : 0 < x) : nextPow2 x ≤ 2 * x := by
  have lower : 2 ^ (x.size - 1) ≤ x := Nat.lt_size.mp (Nat.sub_one_lt (Nat.size_pos.mpr positive).ne')
  have whole : 2 ^ x.size = 2 * 2 ^ (x.size - 1) := by
    rw [← Nat.pow_succ',Nat.succ_eq_add_one,Nat.sub_add_cancel (Nat.size_pos.mpr positive)]
  rw [nextPow2_eq small]
  have le := Nat.mod_le (2 ^ x.size) (2 ^ 64)
  omega

variable {α : Type} {type : CType α}

theorem fits_zero (type : CType α) : type.Fits 0 := by
  unfold CType.Fits
  omega

theorem CType.Fits.small {length : Nat} (fits : type.Fits length) : length < 2 ^ 63 := by
  have positive := type.width_pos
  have le : length * 1 ≤ length * type.width := Nat.mul_le_mul_left _ positive
  unfold CType.Fits at fits
  omega

def CType.TooLarge (type : CType α) (length : Nat) : Prop := ¬type.bytes length < 2 ^ 63

instance (type : CType α) (length : Nat) : Decidable (type.TooLarge length) :=
  inferInstanceAs (Decidable ¬_)

/-- There is a buffer, and the size that it is asked for has wrapped around. -/
def CType.Wraps (type : CType α) (length : Nat) : Prop := ¬type.Fits length ∧ ¬type.TooLarge length

instance (type : CType α) (length : Nat) : Decidable (type.Wraps length) :=
  inferInstanceAs (Decidable (_ ∧ _))

theorem CType.Fits.bytes {length : Nat} (fits : type.Fits length) :
    type.bytes length = 24 + length * type.width :=
  Nat.mod_eq_of_lt (Nat.lt_trans fits (by decide))

theorem CType.Fits.room {length : Nat} (fits : type.Fits length) : type.room length = length := by
  unfold CType.room
  rw [fits.bytes,Nat.add_sub_cancel_left,Nat.mul_div_cancel _ type.width_pos]

theorem CType.Fits.not_tooLarge {length : Nat} (fits : type.Fits length) : ¬type.TooLarge length := by
  unfold CType.TooLarge
  rw [fits.bytes,not_not]
  exact fits

/-- Of what was asked for there is less than the half. -/
theorem CType.Wraps.short {length : Nat} (wraps : type.Wraps length) (header : ¬type.bytes length < 24) :
    2 * type.room length < length := by
  have le := Nat.div_mul_le_self (type.bytes length - 24) type.width
  obtain ⟨large,small⟩ := wraps
  apply Nat.lt_of_mul_lt_mul_right (a := type.width)
  rw [Nat.mul_assoc]
  unfold CType.TooLarge at small
  unfold CType.Fits at large
  unfold CType.room CType.bytes at *
  omega

/-- Twice the elements of a buffer are asked for without wrapping around. -/
theorem CType.Fits.double {length : Nat} (fits : type.Fits length) : ¬type.Wraps (2 * length) := by
  rintro ⟨large,small⟩
  unfold CType.TooLarge CType.bytes at small
  unfold CType.Fits at fits large
  rw [Nat.mul_assoc] at small large
  omega

namespace Buffer

variable {buffer after : Buffer type} {source : List α} {index start count length : Nat}

theorem small (buffer : Buffer type) : buffer.length < 2 ^ 63 := buffer.fits.small

theorem malloc_of_fits (fits : type.Fits length) :
    ∃ buffer : Buffer type,malloc type length = .ok buffer ∧ buffer.length = length := by
  have bytes := fits.bytes
  unfold malloc
  rw [dif_pos (not_not.mp fits.not_tooLarge),if_neg (by omega)]
  exact ⟨_,rfl,List.length_replicate.trans fits.room⟩

theorem malloc_noMemory (large : type.TooLarge length) : malloc type length = .error .noMemory :=
  dif_neg large

theorem malloc_short (wraps : type.Wraps length) : malloc type length = .error .outOfBuffer ∨
    ∃ buffer : Buffer type,malloc type length = .ok buffer ∧ 2 * buffer.length < length := by
  unfold malloc
  rw [dif_pos (not_not.mp wraps.2)]
  split_ifs with header
  · exact .inl rfl
  · refine .inr ⟨_,rfl,?_⟩
    rw [Buffer.length,List.length_replicate]
    exact wraps.short header

theorem realloc_of_fits (buffer : Buffer type) (fits : type.Fits length) :
    ∃ after : Buffer type,buffer.realloc length = .ok after ∧ after.length = length ∧
      ∀ i < min buffer.length length,after.elements[i]? = buffer.elements[i]? := by
  have bytes := fits.bytes
  have room := fits.room
  unfold realloc
  rw [dif_pos (not_not.mp fits.not_tooLarge),if_neg (by omega)]
  refine ⟨_,rfl,?_,?_⟩
  · simp only [Buffer.length,List.length_take,List.length_append,List.length_replicate]
    omega
  · intro i below
    rw [Nat.lt_min] at below
    dsimp only
    rw [room,List.getElem?_take_of_lt below.2,List.getElem?_append_left below.1]

theorem realloc_noMemory (buffer : Buffer type) (large : type.TooLarge length) :
    buffer.realloc length = .error .noMemory :=
  dif_neg large

theorem realloc_short (buffer : Buffer type) (wraps : type.Wraps length) :
    buffer.realloc length = .error .outOfBuffer ∨
      ∃ after : Buffer type,buffer.realloc length = .ok after ∧ 2 * after.length < length := by
  unfold realloc
  rw [dif_pos (not_not.mp wraps.2)]
  split_ifs with header
  · exact .inl rfl
  · refine .inr ⟨_,rfl,?_⟩
    have short := wraps.short header
    simp only [Buffer.length,List.length_take,List.length_append,List.length_replicate]
    omega

theorem copy_of_bounds (inside : index + count ≤ buffer.length)
    (inside' : start + count ≤ source.length) :
    ∃ after,buffer.copy index source start count = .ok after ∧ after.length = buffer.length ∧
      after.elements = splice buffer.elements index count (slice source start (start + count)) := by
  by_cases none : count = 0
  · subst none
    refine ⟨buffer,rfl,rfl,?_⟩
    simp [slice,splice]
  · unfold copy
    rw [if_neg none,dif_pos ⟨inside,inside'⟩]
    refine ⟨_,rfl,?_,rfl⟩
    unfold length
    rw [splice_length _ _ inside,slice_length _ inside']
    unfold length at inside
    omega

theorem copy_nothing (buffer : Buffer type) (index : Nat) (source : List α) (start : Nat) :
    buffer.copy index source start 0 = .ok buffer :=
  rfl

theorem copy_escapes (some : count ≠ 0)
    (outside : ¬(index + count ≤ buffer.length ∧ start + count ≤ source.length)) :
    buffer.copy index source start count = .error .outOfBuffer := by
  unfold copy
  rw [if_neg some,dif_neg outside]

theorem copy_cases (buffer : Buffer type) (index : Nat) (source : List α) (start count : Nat) :
    buffer.copy index source start count = .error .outOfBuffer ∨
      ∃ after,buffer.copy index source start count = .ok after ∧ after.length = buffer.length := by
  by_cases none : count = 0
  · subst none
    exact .inr ⟨buffer,rfl,rfl⟩
  · by_cases inside : index + count ≤ buffer.length ∧ start + count ≤ source.length
    · obtain ⟨after,copied,length,_⟩ := copy_of_bounds inside.1 inside.2
      exact .inr ⟨after,copied,length⟩
    · exact .inl (copy_escapes none inside)

theorem store_of_lt (value : α) (inside : index < buffer.length) :
    ∃ after,buffer.store index value = .ok after ∧ after.length = buffer.length ∧
      after.elements = buffer.elements.set index value := by
  refine ⟨_,if_pos inside,?_,rfl⟩
  exact List.length_set

theorem store_escapes (value : α) (outside : ¬index < buffer.length) :
    buffer.store index value = .error .outOfBuffer :=
  if_neg outside

theorem load_of_lt (inside : index < buffer.length) : ∃ value,buffer.load index = .ok value := by
  unfold load
  rw [List.getElem?_eq_getElem inside]
  exact ⟨_,rfl⟩

end Buffer

theorem splice_getElem? (xs ys : List α) {index count : Nat} (bound : index ≤ xs.length) (i : Nat) :
    (splice xs index count ys)[i]? =
      if i < index then xs[i]? else
        if i < index + ys.length then ys[i - index]? else xs[i - ys.length + count]? := by
  unfold splice
  rw [List.append_assoc,List.getElem?_append,List.length_take,Nat.min_eq_left bound]
  split_ifs with front middle
  · exact List.getElem?_take_of_lt front
  · exact List.getElem?_append_left (by omega)
  · rw [List.getElem?_append_right (by omega),List.getElem?_drop]
    congr 1
    omega

theorem splice_slice (xs : List α) {first last : Nat} (ordered : first ≤ last) :
    splice xs first (last - first) (slice xs first last) = xs := by
  have whole : first + (last - first) = last := by omega
  have rest : xs.drop last = (xs.drop first).drop (last - first) := by rw [List.drop_drop,whole]
  unfold splice slice
  rw [List.append_assoc,whole,rest,List.take_append_drop,List.take_append_drop]

/-- The tail of a window moved up, and a list put in front of it. -/
theorem slice_insert (xs ys : List α) {front start back : Nat} (front_le : front ≤ start)
    (start_le : start ≤ back) (room : back + ys.length ≤ xs.length) :
    slice (splice (splice xs (start + ys.length) (back - start) (slice xs start back)) start
        ys.length ys) front (back + ys.length) =
      slice xs front start ++ ys ++ slice xs start back := by
  have tail : (slice xs start back).length = back - start := slice_length _ (by omega)
  have head : (slice xs front start).length = start - front := slice_length _ (by omega)
  have moved : (splice xs (start + ys.length) (back - start) (slice xs start back)).length =
      xs.length := by
    rw [splice_length _ _ (by omega),tail]
    omega
  apply List.ext_getElem?
  intro i
  rw [slice_getElem?,splice_getElem? _ _ (by omega),splice_getElem? _ _ (by omega),
    List.append_assoc,List.getElem?_append,List.getElem?_append,head,tail,slice_getElem?,
    slice_getElem?]
  rcases Nat.lt_or_ge i (start - front) with before | behind
  · rw [if_pos (by omega),if_pos (by omega),if_pos (by omega),if_pos before,if_pos before]
  · rw [if_neg (show ¬front + i < start by omega),if_neg (show ¬i < start - front by omega)]
    rcases Nat.lt_or_ge (i - (start - front)) ys.length with inserted | behind'
    · rw [if_pos (by omega),if_pos (by omega),if_pos inserted]
      congr 1
      omega
    · rw [if_neg (show ¬front + i < start + ys.length by omega),
        if_neg (show ¬i - (start - front) < ys.length by omega)]
      have same : front + i - ys.length + ys.length = front + i := by omega
      rw [same,splice_getElem? _ _ (by omega),if_neg (show ¬front + i < start + ys.length by omega),
        tail]
      have place : front + i - (start + ys.length) = i - (start - front) - ys.length := by omega
      rcases Nat.lt_or_ge i (back + ys.length - front) with inside | outside
      · rw [if_pos inside,if_pos (show front + i < start + ys.length + (back - start) by omega),
          place]
      · rw [if_neg (show ¬i < back + ys.length - front by omega),slice_getElem?,
          if_neg (show ¬i - (start - front) - ys.length < back - start by omega)]

/-- One list behind another. -/
theorem slice_splice_splice (xs ys zs : List α) {index : Nat}
    (room : index + ys.length + zs.length ≤ xs.length) :
    slice (splice (splice xs index ys.length ys) (index + ys.length) zs.length zs) index
      (index + ys.length + zs.length) = ys ++ zs := by
  have head : (xs.take index).length = index := List.length_take_of_le (by omega)
  have both : (xs.take index ++ ys).length = index + ys.length := by rw [List.length_append,head]
  have count : index + ys.length + zs.length - index = (ys ++ zs).length := by
    rw [List.length_append]
    omega
  unfold slice
  rw [splice,splice,List.take_left' both,List.append_assoc,List.append_assoc,List.drop_left' head,
    count,← List.append_assoc,List.take_left' rfl]

namespace Vector

variable {vec vec2 : Vector type}

/-- The window is inside the buffer, which has as many elements as the vector says. -/
structure Bounded (vec : Vector type) : Prop where
  ordered : vec.front ≤ vec.back
  inside : vec.back ≤ vec.maxSize
  whole : vec.storage.length = vec.maxSize

instance (vec : Vector type) : Decidable vec.Bounded :=
  decidable_of_iff (vec.front ≤ vec.back ∧ vec.back ≤ vec.maxSize ∧ vec.storage.length = vec.maxSize)
    ⟨fun ⟨ordered,inside,whole⟩ => ⟨ordered,inside,whole⟩,fun ⟨ordered,inside,whole⟩ =>
      ⟨ordered,inside,whole⟩⟩

def contents (vec : Vector type) : List α := slice vec.storage.elements vec.front vec.back

theorem Bounded.maxSize_lt (bounded : vec.Bounded) : vec.maxSize < 2 ^ 63 :=
  bounded.whole ▸ vec.storage.small

theorem Bounded.size_eq (bounded : vec.Bounded) : vec.size = vec.back - vec.front := by
  have := bounded.maxSize_lt
  exact difference_eq bounded.1 (by have := bounded.2; omega)

theorem Bounded.contents_length (bounded : vec.Bounded) : vec.contents.length = vec.size := by
  rw [bounded.size_eq]
  exact slice_length _ (bounded.inside.trans_eq bounded.whole.symm)

theorem contents_take (vec : Vector type) {start : Nat} (inside : start ≤ vec.back - vec.front) :
    vec.contents.take start = slice vec.storage.elements vec.front (vec.front + start) := by
  rw [← slice_to]
  exact slice_slice _ _ _ inside

theorem Bounded.contents_drop (bounded : vec.Bounded) (start : Nat) :
    vec.contents.drop start = slice vec.storage.elements (vec.front + start) vec.back := by
  have ordered := bounded.1
  rw [← slice_from,bounded.contents_length,bounded.size_eq]
  unfold contents
  rw [slice_slice _ _ _ (le_refl _)]
  congr 1
  omega

def Safe : Except Fault (Vector type) → Prop
  | .ok after => after.Bounded
  | .error fault => fault ≠ .outOfBuffer

variable {start insertSize : Nat}

theorem Bounded.startIdx_eq (bounded : vec.Bounded) (inside : start ≤ vec.size) :
    sum vec.front start = vec.front + start ∧ vec.front + start ≤ vec.back ∧
      difference vec.size start = vec.back - (vec.front + start) := by
  have := bounded.maxSize_lt
  have ordered := bounded.ordered
  have below := bounded.inside
  have size := bounded.size_eq
  rw [size] at inside
  refine ⟨sum_eq (by omega),by omega,?_⟩
  rw [size,difference_eq (by omega) (by omega)]
  omega

/-- The elements behind the place of the insertion are moved up. -/
theorem Bounded.moveTail (bounded : vec.Bounded) (inside : start ≤ vec.size)
    (room : vec.back + insertSize ≤ vec.maxSize) :
    ∃ moved : Buffer type,
      vec.storage.copy (sum (sum vec.front start) insertSize) vec.storage.elements
        (sum vec.front start) (difference vec.size start) = .ok moved ∧
      moved.length = vec.maxSize ∧
      moved.elements = splice vec.storage.elements (vec.front + start + insertSize)
        (vec.back - (vec.front + start)) (slice vec.storage.elements (vec.front + start) vec.back) := by
  have small := bounded.maxSize_lt
  have inside' := bounded.2
  obtain ⟨startIdx,ordered,tail⟩ := bounded.startIdx_eq inside
  rw [startIdx,tail,sum_eq (by omega)]
  have end_ : vec.front + start + (vec.back - (vec.front + start)) = vec.back := by omega
  have fits : vec.front + start + insertSize + (vec.back - (vec.front + start)) ≤
      vec.storage.length := by
    rw [bounded.whole]
    omega
  obtain ⟨moved,copied,length,elements⟩ := Buffer.copy_of_bounds fits
    (le_of_eq_of_le end_ (inside'.trans_eq bounded.whole.symm))
  rw [end_] at elements
  exact ⟨moved,copied,length.trans bounded.whole,elements⟩

theorem Bounded.moveTail_escapes (bounded : vec.Bounded) (inside : start < vec.size)
    (small : insertSize < 2 ^ 63) (full : ¬vec.back + insertSize ≤ vec.maxSize) :
    vec.storage.copy (sum (sum vec.front start) insertSize) vec.storage.elements
      (sum vec.front start) (difference vec.size start) = .error .outOfBuffer := by
  have := bounded.maxSize_lt
  have inside' := bounded.2
  have size := bounded.size_eq
  obtain ⟨startIdx,ordered,tail⟩ := bounded.startIdx_eq (Nat.le_of_lt inside)
  rw [startIdx,tail,sum_eq (by omega)]
  apply Buffer.copy_escapes (by omega)
  intro bounds
  have fits := bounds.1
  rw [bounded.whole] at fits
  omega

theorem insertInPlace_other (bounded : vec.Bounded) (inside : start ≤ vec.size)
    (room : vec.back + insertSize ≤ vec.maxSize)
    (room' : vec.front + insertSize ≤ vec2.storage.elements.length) :
    ∃ after,vec.insertInPlace start (.other vec2) insertSize = .ok after ∧
      after.Bounded ∧ after.contents = vec.contents.take start ++
        slice vec2.storage.elements vec.front (vec.front + insertSize) ++ vec.contents.drop start := by
  have small := bounded.maxSize_lt
  obtain ⟨startIdx,ordered,_⟩ := bounded.startIdx_eq inside
  obtain ⟨moved,copied,length,elements⟩ := bounded.moveTail inside room
  have fits : vec.front + start + insertSize ≤ moved.length := by omega
  obtain ⟨final,copied',length',elements'⟩ := Buffer.copy_of_bounds fits room'
  refine ⟨⟨vec.front,vec.back + insertSize,vec.maxSize,final⟩,?_,
    ⟨Nat.le_add_right_of_le bounded.1,room,length'.trans length⟩,?_⟩
  · unfold insertInPlace
    rw [← startIdx] at copied'
    simp only [copied,ok_bind,copied',sum_eq (show vec.back + insertSize < 2 ^ 64 by omega)]
    rfl
  · have inserted : (slice vec2.storage.elements vec.front (vec.front + insertSize)).length =
        insertSize := by
      rw [slice_length _ room']
      omega
    rw [contents_take _ (by omega),bounded.contents_drop]
    change slice final.elements vec.front (vec.back + insertSize) = _
    rw [elements',elements]
    have shifted := slice_insert vec.storage.elements
      (slice vec2.storage.elements vec.front (vec.front + insertSize))
      (Nat.le_add_right vec.front start) ordered
      (by rw [inserted]; exact room.trans_eq bounded.whole.symm)
    rw [inserted] at shifted
    exact shifted

theorem insertInPlace_nothing (bounded : vec.Bounded) (inside : start ≤ vec.size)
    (vec2 : Source type) :
    ∃ after,vec.insertInPlace start vec2 0 = .ok after ∧ after.Bounded ∧
      after.contents = vec.contents := by
  have small := bounded.maxSize_lt
  have inside' := bounded.2
  obtain ⟨_,ordered,_⟩ := bounded.startIdx_eq inside
  have room : vec.back + 0 ≤ vec.maxSize := inside'
  obtain ⟨moved,copied,length,elements⟩ := bounded.moveTail inside room
  rw [Nat.add_zero,splice_slice _ ordered] at elements
  refine ⟨⟨vec.front,vec.back,vec.maxSize,moved⟩,?_,⟨bounded.1,inside',length⟩,?_⟩
  · unfold insertInPlace
    simp only [copied,ok_bind,sum_eq (show vec.back + 0 < 2 ^ 64 by omega)]
    cases vec2 with
    | itself => simp [Buffer.copy_nothing,ok_bind,pure,Except.pure]
    | other vec2 => simp [Buffer.copy_nothing,ok_bind,pure,Except.pure]
  · change slice moved.elements vec.front vec.back = _
    rw [elements]
    rfl

theorem insertInPlace_itself (bounded : vec.Bounded) (inside : start ≤ vec.size)
    (room : vec.back + insertSize ≤ vec.maxSize) (room' : vec.front + insertSize ≤ vec.maxSize) :
    Safe (vec.insertInPlace start .itself insertSize) := by
  have small := bounded.maxSize_lt
  obtain ⟨startIdx,ordered,_⟩ := bounded.startIdx_eq inside
  obtain ⟨moved,copied,length,_⟩ := bounded.moveTail inside room
  have fits : vec.front + start + insertSize ≤ moved.length := by omega
  have fits' : vec.front + insertSize ≤ moved.elements.length := le_of_le_of_eq room' length.symm
  obtain ⟨final,copied',length',_⟩ := Buffer.copy_of_bounds fits fits'
  rw [← startIdx] at copied'
  unfold insertInPlace
  simp only [copied,copied',ok_bind]
  split_ifs with overlaps
  · exact Fault.noConfusion
  · rw [sum_eq (by omega)]
    exact ⟨Nat.le_add_right_of_le bounded.1,room,length'.trans length⟩

/-- Whatever is behind the window, an insertion needs the whole of it at the back. -/
theorem insertInPlace_escapes (bounded : vec.Bounded) (inside : start ≤ vec.size)
    (vec2 : Source type) (some : insertSize ≠ 0) (small : insertSize < 2 ^ 63)
    (full : ¬(vec.back + insertSize ≤ vec.maxSize ∧
      vec.front + insertSize ≤ (vec2.vector vec).storage.elements.length)) :
    vec.insertInPlace start vec2 insertSize = .error .outOfBuffer := by
  have small' := bounded.maxSize_lt
  have size := bounded.size_eq
  obtain ⟨startIdx,ordered,tail⟩ := bounded.startIdx_eq inside
  unfold insertInPlace
  dsimp only
  by_cases room : vec.back + insertSize ≤ vec.maxSize
  · obtain ⟨moved,copied,length,_⟩ := bounded.moveTail inside room
    simp only [copied,ok_bind]
    have short : ¬vec.front + insertSize ≤ (vec2.vector vec).storage.elements.length :=
      fun room' => full ⟨room,room'⟩
    cases vec2 with
    | itself =>
      rw [Buffer.copy_escapes some fun bounds =>
        short (le_of_le_of_eq bounds.2 (length.trans bounded.whole.symm))]
      rfl
    | other vec2 =>
      change ¬vec.front + insertSize ≤ vec2.storage.elements.length at short
      dsimp only
      rw [Buffer.copy_escapes some fun bounds => short bounds.2]
      rfl
  · rcases Nat.lt_or_ge start vec.size with before | atEnd
    · rw [bounded.moveTail_escapes before small room]
      rfl
    · have none : difference vec.size start = 0 := by omega
      rw [none,Buffer.copy_nothing]
      have outside : ∀ count,¬(sum vec.front start + insertSize ≤ vec.storage.length ∧ count) := by
        intro count bounds
        have fits := bounds.1
        rw [bounded.whole] at fits
        omega
      simp only [ok_bind]
      cases vec2 with
      | itself =>
        rw [Buffer.copy_escapes some (outside _)]
        rfl
      | other vec2 =>
        dsimp only
        rw [Buffer.copy_escapes some (outside _)]
        rfl

variable {first last newSize : Nat}

theorem Bounded.source (bounded : vec.Bounded) (ordered : first ≤ last) (inside : last ≤ vec.size) :
    sum vec.front first = vec.front + first ∧
      vec.front + first + (last - first) ≤ vec.storage.elements.length ∧ last < 2 ^ 63 := by
  have small := bounded.maxSize_lt
  have lower := bounded.1
  have upper := bounded.2
  rw [bounded.size_eq] at inside
  refine ⟨sum_eq (by omega),?_,by omega⟩
  change _ ≤ vec.storage.length
  rw [bounded.whole]
  omega

theorem insertFresh_of_room (bounded : vec.Bounded) (bounded' : vec2.Bounded)
    (ordered : first ≤ last) (inside : last ≤ vec2.size) (fits : type.Fits newSize)
    (grown : vec.size + (last - first) ≤ newSize)
    (room : vec.front + (newSize - (vec.size + (last - first))) / 2 + (vec.size + (last - first)) ≤
      newSize) :
    ∃ after,vec.insertFresh vec2 first last newSize = .ok after ∧ after.Bounded ∧
      after.contents =
        slice vec2.storage.elements (vec2.front + first) (vec2.front + last) ++ vec.contents := by
  obtain ⟨sourceIdx,source,small⟩ := bounded'.source ordered inside
  have whole := bounded.contents_length
  have size := bounded.size_eq
  have upper := bounded.2
  have lower := bounded.1
  have small' := fits.small
  generalize sameSize : vec.size = n at *
  generalize sameFront : vec.front + (newSize - (n + (last - first))) / 2 = front at *
  have insertSize : difference last first = last - first := difference_eq ordered (by omega)
  have after : sum n (last - first) = n + (last - first) := sum_eq (by omega)
  have front_eq : sum vec.front (difference newSize (n + (last - first)) / 2) = front := by
    rw [difference_eq grown (by omega),sum_eq (by omega),sameFront]
  obtain ⟨storage,allocated,length⟩ := Buffer.malloc_of_fits fits
  have fits₁ : front + (last - first) ≤ storage.length := by omega
  obtain ⟨storage₁,copied,length₁,elements₁⟩ := Buffer.copy_of_bounds fits₁ source
  have fits₂ : front + (last - first) + n ≤ storage₁.length := by omega
  have source₂ : vec.front + n ≤ vec.storage.elements.length := by
    change _ ≤ vec.storage.length
    rw [bounded.whole]
    omega
  obtain ⟨storage₂,copied₂,length₂,elements₂⟩ := Buffer.copy_of_bounds fits₂ source₂
  refine ⟨⟨front,front + (n + (last - first)),newSize,storage₂⟩,?_,
    ⟨Nat.le_add_right _ _,room,(length₂.trans length₁).trans length⟩,?_⟩
  · unfold insertFresh
    simp only [allocated,ok_bind,insertSize,sameSize,after,front_eq,sourceIdx,copied]
    rw [sum_eq (show front + (last - first) < 2 ^ 64 by omega),copied₂,
      sum_eq (show front + (n + (last - first)) < 2 ^ 64 by omega)]
    rfl
  · change slice storage₂.elements front (front + (n + (last - first))) = _
    have end_ : vec2.front + first + (last - first) = vec2.front + last := by omega
    have end' : vec.front + n = vec.back := by omega
    have inserted : (slice vec2.storage.elements (vec2.front + first) (vec2.front + last)).length =
        last - first := by
      rw [slice_length _ (end_ ▸ source)]
      omega
    have room' : front + (slice vec2.storage.elements (vec2.front + first)
        (vec2.front + last)).length + vec.contents.length ≤ storage.elements.length := by
      rw [inserted,whole]
      change _ ≤ storage.length
      omega
    have pieces := slice_splice_splice _ _ _ room'
    rw [inserted,whole] at pieces
    rw [elements₂,elements₁,end_,end',← pieces]
    congr 1
    omega

/-- From an empty buffer, or one that the window does not fit into, something is left outside. -/
theorem insertFresh_escapes (bounded : vec.Bounded) (bounded' : vec2.Bounded)
    (ordered : first ≤ last) (inside : last ≤ vec2.size) (some : last - first ≠ 0)
    (fits : type.Fits newSize) (grown : vec.size + (last - first) ≤ newSize ∨ newSize = 0)
    (full : ¬vec.front + (newSize - (vec.size + (last - first))) / 2 +
      (vec.size + (last - first)) ≤ newSize) :
    vec.insertFresh vec2 first last newSize = .error .outOfBuffer := by
  obtain ⟨sourceIdx,source,small⟩ := bounded'.source ordered inside
  have size := bounded.size_eq
  have upper := bounded.2
  have lower := bounded.1
  have below := bounded.maxSize_lt
  have small' := fits.small
  generalize sameSize : vec.size = n at *
  have insertSize : difference last first = last - first := difference_eq ordered (by omega)
  have after : sum n (last - first) = n + (last - first) := sum_eq (by omega)
  obtain ⟨storage,allocated,length⟩ := Buffer.malloc_of_fits fits
  unfold insertFresh
  simp only [allocated,ok_bind,insertSize,sameSize,after,sourceIdx]
  generalize place : sum vec.front (difference newSize (n + (last - first)) / 2) = front
  by_cases enough : front + (last - first) ≤ storage.length
  · rcases grown with grown | none
    · rw [difference_eq grown (by omega),sum_eq (by omega)] at place
      obtain ⟨storage₁,copied,length₁,_⟩ := Buffer.copy_of_bounds enough source
      rw [copied,ok_bind,sum_eq (by omega),
        Buffer.copy_escapes (by omega) fun bounds => by have := bounds.1; omega]
      rfl
    · omega
  · rw [Buffer.copy_escapes some fun bounds => enough bounds.1]
    rfl

theorem insertInPlace_empty (empty : vec.storage.length = 0) (vec2 : Source type)
    (some : insertSize ≠ 0) : vec.insertInPlace start vec2 insertSize = .error .outOfBuffer := by
  unfold insertInPlace
  dsimp only
  by_cases none : difference vec.size start = 0
  · rw [none,Buffer.copy_nothing,ok_bind]
    cases vec2 with
    | itself =>
      dsimp only
      rw [Buffer.copy_escapes some fun bounds => by have := bounds.1; omega]
      rfl
    | other vec2 =>
      dsimp only
      rw [Buffer.copy_escapes some fun bounds => by have := bounds.1; omega]
      rfl
  · rw [Buffer.copy_escapes none fun bounds => by have := bounds.1; omega]
    rfl

theorem Bounded.grown (bounded : vec.Bounded) {storage : Buffer type}
    (larger : vec.maxSize ≤ newSize) (whole : storage.length = newSize) :
    Bounded { vec with maxSize := newSize, storage } :=
  ⟨bounded.1,Nat.le_trans bounded.2 larger,whole⟩

theorem Bounded.contents_realloc (bounded : vec.Bounded) {storage : Buffer type}
    (same : ∀ i < vec.maxSize,storage.elements[i]? = vec.storage.elements[i]?) :
    contents { vec with maxSize := newSize, storage } = vec.contents := by
  have upper := bounded.2
  apply List.ext_getElem?
  intro i
  unfold contents
  rw [slice_getElem?,slice_getElem?]
  dsimp only
  split_ifs with inside
  · exact same _ (by omega)
  · rfl

theorem insertRange_eq (bounded : vec.Bounded) (vec2 : Source type)
    (bounded' : (vec2.vector vec).Bounded) (ordered : first ≤ last)
    (inside : last ≤ (vec2.vector vec).size) :
    vec.insertRange start vec2 first last =
      if vec.maxSize < vec.size + (last - first) then
        if 0 < start then
          vec.insertRealloc start vec2 (last - first) (nextPow2 (vec.size + (last - first)))
        else vec.insertFresh (vec2.vector vec) first last (nextPow2 (vec.size + (last - first)))
      else vec.insertInPlace start vec2 (last - first) := by
  obtain ⟨_,_,small⟩ := bounded'.source ordered inside
  have small' := bounded.maxSize_lt
  have upper := bounded.2
  have size := bounded.size_eq
  unfold insertRange
  rw [difference_eq ordered (by omega)]
  dsimp only
  rw [sum_eq (by omega)]

/-- What an insertion of a number of elements needs: when the buffer is replaced and does not fit
into memory nothing is accessed, but the size of the new one must not wrap around; at the head of a new
buffer, the window with its old offset and half of what is free; and else the free elements behind the
window, and as many elements in the buffer of the source from the front of this one. -/
def Room (vec : Vector type) (start : Nat) (vec2 : Source type) (insertSize : Nat) : Prop :=
  let sizeAfterInsert := vec.size + insertSize
  let newSize := nextPow2 sizeAfterInsert
  let room := fun maxSize => vec.back + insertSize ≤ maxSize ∧
    vec.front + insertSize ≤ (vec2.vector vec).maxSize
  if vec.maxSize < sizeAfterInsert then
    type.TooLarge newSize ∨ type.Fits newSize ∧
      if 0 < start then vec2 ≠ .itself ∧ room newSize
      else vec.front + (newSize - sizeAfterInsert) / 2 + sizeAfterInsert ≤ newSize
  else insertSize = 0 ∨ room vec.maxSize

def OutOfMemory (vec : Vector type) (insertSize : Nat) : Prop :=
  vec.maxSize < vec.size + insertSize ∧ type.TooLarge (nextPow2 (vec.size + insertSize))

/-- An access outside, or a buffer that is too short for the elements of the vector. -/
def Escapes (size : Nat) : Except Fault (Vector type) → Prop
  | .ok after => after.storage.length < size ∧ size ≤ after.maxSize
  | .error fault => fault = .outOfBuffer

theorem Escapes.not_safe {size : Nat} {result : Except Fault (Vector type)} (escapes : Escapes size result) :
    ¬Safe result := by
  intro safe
  cases result with
  | error fault => exact safe escapes
  | ok after =>
    have bounded : after.Bounded := safe
    have short := escapes.1
    have enough := escapes.2
    have whole := bounded.whole
    omega

section

variable {size : Nat}

theorem insertInPlace_short (short : vec.storage.length < size) (enough : size ≤ vec.maxSize)
    (vec2 : Vector type) : Escapes size (vec.insertInPlace start (.other vec2) insertSize) := by
  unfold insertInPlace
  dsimp only
  rcases vec.storage.copy_cases (sum (sum vec.front start) insertSize) vec.storage.elements
    (sum vec.front start) (difference vec.size start) with escaped | ⟨moved,copied,length⟩
  · rw [escaped]
    rfl
  · rw [copied,ok_bind]
    rcases moved.copy_cases (sum vec.front start) vec2.storage.elements vec.front insertSize with
      escaped | ⟨final,copied',length'⟩
    · rw [escaped]
      rfl
    · rw [copied',ok_bind]
      exact ⟨by dsimp only; omega,enough⟩

theorem insertRealloc_wraps (wraps : type.Wraps newSize) (half : newSize ≤ 2 * size)
    (enough : size ≤ newSize) (vec2 : Source type) :
    Escapes size (vec.insertRealloc start vec2 insertSize newSize) := by
  unfold insertRealloc
  rcases vec.storage.realloc_short wraps with escaped | ⟨storage,moved,short⟩
  · rw [escaped]
    rfl
  · rw [moved,ok_bind]
    cases vec2 with
    | itself => rfl
    | other vec2 => exact insertInPlace_short (by dsimp only; omega) enough vec2

theorem insertFresh_wraps (wraps : type.Wraps newSize) (half : newSize ≤ 2 * size)
    (enough : size ≤ newSize) (vec2 : Vector type) :
    Escapes size (vec.insertFresh vec2 first last newSize) := by
  unfold insertFresh
  dsimp only
  rcases Buffer.malloc_short wraps with escaped | ⟨storage,allocated,short⟩
  · rw [escaped]
    rfl
  · rw [allocated,ok_bind]
    generalize sum vec.front (difference newSize (sum vec.size (difference last first)) / 2) = front
    rcases storage.copy_cases front vec2.storage.elements (sum vec2.front first)
      (difference last first) with escaped | ⟨storage₁,copied,length⟩
    · rw [escaped]
      rfl
    · rw [copied,ok_bind]
      rcases storage₁.copy_cases (sum front (difference last first)) vec.storage.elements vec.front
        vec.size with escaped | ⟨storage₂,copied',length'⟩
      · rw [escaped]
        rfl
      · rw [copied',ok_bind]
        exact ⟨by dsimp only; omega,enough⟩

end

/-- What the insertion puts between the two parts: the elements of the range in a fresh buffer, and
else those of the source's buffer from the front of the other vector. -/
def inserted (vec : Vector type) (start : Nat) (vec2 : Vector type) (first last : Nat) : List α :=
  if vec.maxSize < vec.size + (last - first) ∧ start = 0 then
    slice vec2.storage.elements (vec2.front + first) (vec2.front + last)
  else slice vec2.storage.elements vec.front (vec.front + (last - first))

section

variable (bounded : vec.Bounded) (inside : start ≤ vec.size) (ordered : first ≤ last)
include bounded ordered

theorem insertRange_outOfMemory (vec2 : Source type) (bounded' : (vec2.vector vec).Bounded)
    (inside' : last ≤ (vec2.vector vec).size) (large : vec.OutOfMemory (last - first)) :
    vec.insertRange start vec2 first last = .error .noMemory := by
  rw [insertRange_eq bounded vec2 bounded' ordered inside',if_pos large.1]
  by_cases behind : 0 < start
  · rw [if_pos behind,insertRealloc,vec.storage.realloc_noMemory large.2]
    rfl
  · rw [if_neg behind]
    unfold insertFresh
    rw [Buffer.malloc_noMemory large.2]
    rfl

include inside

/-- What is inserted is only said of another vector. -/
theorem insertRange_of_room (vec2 : Vector type) (bounded' : vec2.Bounded) (inside' : last ≤ vec2.size)
    (room : vec.Room start (.other vec2) (last - first)) (enough : ¬vec.OutOfMemory (last - first)) :
    ∃ after,vec.insertRange start (.other vec2) first last = .ok after ∧ after.Bounded ∧
      after.contents = vec.contents.take start ++ vec.inserted start vec2 first last ++
        vec.contents.drop start := by
  obtain ⟨_,_,small⟩ := bounded'.source ordered inside'
  have small' := bounded.maxSize_lt
  have upper := bounded.2
  have size := bounded.size_eq
  have source : (Source.other vec2).vector vec = vec2 := rfl
  rw [insertRange_eq bounded (.other vec2) bounded' ordered inside']
  unfold Room at room
  rw [source] at room ⊢
  dsimp only at room ⊢
  unfold inserted
  by_cases grows : vec.maxSize < vec.size + (last - first)
  · rw [if_pos grows] at room ⊢
    have small : ¬type.TooLarge (nextPow2 (vec.size + (last - first))) := fun large =>
      enough ⟨grows,large⟩
    obtain ⟨fits,room⟩ := room.resolve_left small
    have sizes := nextPow2_cases (show vec.size + (last - first) < 2 ^ 64 by omega)
    generalize nextPow2 (vec.size + (last - first)) = newSize at *
    rcases Nat.eq_zero_or_pos start with rfl | behind
    · rw [if_neg (Nat.lt_irrefl 0)] at room ⊢
      obtain ⟨after,result,bounded'',contents⟩ :=
        insertFresh_of_room bounded bounded' ordered inside' fits (by omega) room
      refine ⟨after,result,bounded'',?_⟩
      rw [contents,if_pos ⟨grows,rfl⟩]
      rfl
    · rw [if_pos behind] at room ⊢
      obtain ⟨storage,moved,length,same⟩ := vec.storage.realloc_of_fits fits
      have larger : vec.maxSize ≤ newSize := by omega
      have inside'' : start ≤ Vector.size { vec with maxSize := newSize, storage } := inside
      have room' : vec.front + (last - first) ≤ vec2.storage.elements.length :=
        room.2.2.trans_eq bounded'.whole.symm
      obtain ⟨after,result,bounded'',contents⟩ :=
        insertInPlace_other (bounded.grown larger length) inside'' room.2.1 room'
      refine ⟨after,by rw [insertRealloc,moved]; exact result,bounded'',?_⟩
      rw [contents,if_neg (by omega),bounded.contents_realloc]
      intro i below
      apply same i
      rw [bounded.whole]
      exact Nat.lt_min.mpr ⟨below,by omega⟩
  · rw [if_neg grows] at room ⊢
    rw [if_neg (by omega)]
    rcases room with none | ⟨room,room'⟩
    · obtain ⟨after,result,bounded'',contents⟩ := insertInPlace_nothing bounded inside (.other vec2)
      rw [none]
      refine ⟨after,result,bounded'',?_⟩
      rw [contents]
      simp [slice]
    · exact insertInPlace_other bounded inside room (room'.trans_eq bounded'.whole.symm)

theorem insertRange_escapes (vec2 : Source type) (bounded' : (vec2.vector vec).Bounded)
    (inside' : last ≤ (vec2.vector vec).size) (full : ¬vec.Room start vec2 (last - first)) :
    Escapes (vec.size + (last - first)) (vec.insertRange start vec2 first last) := by
  obtain ⟨_,_,small⟩ := bounded'.source ordered inside'
  have small' := bounded.maxSize_lt
  have upper := bounded.2
  have size := bounded.size_eq
  rw [insertRange_eq bounded vec2 bounded' ordered inside']
  unfold Room at full
  dsimp only at full
  rw [← bounded'.whole] at full
  by_cases grows : vec.maxSize < vec.size + (last - first)
  · rw [if_pos grows] at full ⊢
    have some : last - first ≠ 0 := by omega
    have sizes := nextPow2_cases (show vec.size + (last - first) < 2 ^ 64 by omega)
    have half := nextPow2_le_double (show vec.size + (last - first) < 2 ^ 64 by omega) (by omega)
    generalize nextPow2 (vec.size + (last - first)) = newSize at *
    rw [not_or,not_and] at full
    obtain ⟨enough,full⟩ := full
    by_cases fits : type.Fits newSize
    · have full := full fits
      by_cases behind : 0 < start
      · rw [if_pos behind] at full ⊢
        obtain ⟨storage,moved,length,_⟩ := vec.storage.realloc_of_fits fits
        rw [insertRealloc,moved,ok_bind]
        cases vec2 with
        | itself => rfl
        | other vec2 =>
          have other : Source.other vec2 ≠ .itself := nofun
          rw [and_iff_right other] at full
          dsimp only
          rcases sizes with ⟨_,above⟩ | ⟨_,none⟩
          · have inside'' : start ≤ Vector.size { vec with maxSize := newSize, storage } := inside
            have larger : vec.maxSize ≤ newSize := by omega
            rw [insertInPlace_escapes (bounded.grown larger length) inside'' (.other vec2) some (by omega) full]
            rfl
          · rw [insertInPlace_empty (length.trans none) _ some]
            rfl
      · rw [if_neg behind] at full ⊢
        rw [insertFresh_escapes bounded bounded' ordered inside' some fits (by omega) full]
        rfl
    · have wraps : type.Wraps newSize := ⟨fits,enough⟩
      have above : vec.size + (last - first) ≤ newSize := by
        rcases sizes with ⟨_,above⟩ | ⟨_,none⟩
        · exact Nat.le_of_lt above
        · rw [none] at fits
          exact absurd (fits_zero type) fits
      by_cases behind : 0 < start
      · rw [if_pos behind]
        exact insertRealloc_wraps wraps half above vec2
      · rw [if_neg behind]
        exact insertFresh_wraps wraps half above _
  · rw [if_neg grows] at full ⊢
    rw [not_or] at full
    rw [insertInPlace_escapes bounded inside vec2 full.1 (by omega) full.2]
    rfl

/-- In place, or in a fresh buffer, a vector may also be inserted into itself. -/
theorem insertRange_itself (inside' : last ≤ vec.size)
    (room : vec.Room start .itself (last - first)) (enough : ¬vec.OutOfMemory (last - first)) :
    Safe (vec.insertRange start .itself first last) := by
  obtain ⟨_,_,small⟩ := bounded.source ordered inside'
  have small' := bounded.maxSize_lt
  have upper := bounded.2
  have size := bounded.size_eq
  rw [insertRange_eq bounded .itself bounded ordered inside']
  unfold Room at room
  dsimp only at room
  by_cases grows : vec.maxSize < vec.size + (last - first)
  · rw [if_pos grows] at room ⊢
    have small : ¬type.TooLarge (nextPow2 (vec.size + (last - first))) := fun large =>
      enough ⟨grows,large⟩
    obtain ⟨fits,room⟩ := room.resolve_left small
    have sizes := nextPow2_cases (show vec.size + (last - first) < 2 ^ 64 by omega)
    generalize nextPow2 (vec.size + (last - first)) = newSize at *
    by_cases behind : 0 < start
    · rw [if_pos behind] at room
      exact absurd rfl room.1
    · rw [if_neg behind] at room ⊢
      obtain ⟨after,result,bounded',_⟩ :=
        insertFresh_of_room bounded bounded ordered inside' fits (by omega) room
      change Safe (vec.insertFresh vec first last newSize)
      rw [result]
      exact bounded'
  · rw [if_neg grows] at room ⊢
    rcases room with none | ⟨room,room'⟩
    · obtain ⟨after,result,bounded',_⟩ := insertInPlace_nothing bounded inside .itself
      rw [none,result]
      exact bounded'
    · exact insertInPlace_itself bounded inside room room'

theorem insertRange_safe_iff (vec2 : Source type) (bounded' : (vec2.vector vec).Bounded)
    (inside' : last ≤ (vec2.vector vec).size) :
    Safe (vec.insertRange start vec2 first last) ↔ vec.Room start vec2 (last - first) := by
  constructor
  · intro safe
    by_contra full
    exact (insertRange_escapes bounded inside ordered vec2 bounded' inside' full).not_safe safe
  · intro room
    by_cases large : vec.OutOfMemory (last - first)
    · rw [insertRange_outOfMemory bounded ordered vec2 bounded' inside' large]
      exact Fault.noConfusion
    · cases vec2 with
      | itself => exact insertRange_itself bounded inside ordered inside' room large
      | other vec2 =>
        obtain ⟨after,result,bounded'',_⟩ :=
          insertRange_of_room bounded inside ordered vec2 bounded' inside' room large
        rw [result]
        exact bounded''

end

end Vector

end VectorBackend
end Memoir
