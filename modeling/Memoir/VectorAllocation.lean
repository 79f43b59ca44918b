import Memoir.VectorWindow

/-! The sizes that a new vector is given: the least power of two that is large enough, with the window
in the middle. -/
namespace Memoir
namespace VectorBackend
open Memoir.Runtime (sum difference)

variable {α : Type} {type : CType α} {n : Nat}

structure Header where
  front : Nat
  back : Nat
  maxSize : Nat

def Vector.header (vec : Vector type) : Header := ⟨vec.front,vec.back,vec.maxSize⟩

def allocateHeader (n : Nat) : Header :=
  let nextPow2 := nextPow2 (difference n 1)
  let diff := difference nextPow2 n
  ⟨diff / 2,sum (diff / 2) n,nextPow2⟩

theorem allocate_header {vec : Vector type} (allocated : allocate type n = .ok vec) :
    vec.header = allocateHeader n := by
  unfold allocate at allocated
  dsimp only at allocated
  cases found : Buffer.malloc type (nextPow2 (difference n 1)) with
  | error fault =>
    rw [found,error_bind] at allocated
    cases allocated
  | ok storage =>
    rw [found,ok_bind] at allocated
    obtain rfl := Except.ok.inj allocated
    rfl

theorem allocate_of_fits (fits : type.Fits (allocateHeader n).maxSize) :
    ∃ vec,allocate type n = .ok vec := by
  obtain ⟨storage,found,_⟩ := Buffer.malloc_of_fits fits
  refine ⟨⟨(allocateHeader n).front,(allocateHeader n).back,(allocateHeader n).maxSize,storage⟩,?_⟩
  change Buffer.malloc type (nextPow2 (difference n 1)) = _ at found
  unfold allocate
  dsimp only
  rw [found]
  rfl

structure Header.Centred (n : Nat) (header : Header) : Prop where
  least : IsLeast {m | n ≤ m ∧ ∃ k, m = 2 ^ k} header.maxSize
  window : difference header.back header.front = n
  ordered : header.front ≤ header.back
  inside : header.back ≤ header.maxSize
  front_le : header.front ≤ header.maxSize - header.back + 1
  behind_le : header.maxSize - header.back ≤ header.front + 1

theorem allocateHeader_centred (positive : 1 ≤ n) (small : n ≤ 2 ^ 63) :
    (allocateHeader n).Centred n := by
  have least := PowerOfTwo.isLeast_size positive
  have bound : 2 ^ (n - 1).size ≤ 2 ^ 63 := least.2 ⟨small,63,rfl⟩
  have enough := least.1.1
  have maxSize : nextPow2 (difference n 1) = 2 ^ (n - 1).size := by
    rw [difference_eq positive (by omega),nextPow2_eq (by omega),Nat.mod_eq_of_lt (by omega)]
  unfold allocateHeader
  rw [maxSize]
  generalize 2 ^ (n - 1).size = size at *
  have diff : difference size n = size - n := difference_eq enough (by omega)
  have back : sum ((size - n) / 2) n = (size - n) / 2 + n := sum_eq (by omega)
  dsimp only
  rw [diff,back]
  refine ⟨least,?_,Nat.le_add_right _ _,?_,?_,?_⟩
  · rw [difference_eq (Nat.le_add_right _ _) (by omega)]
    exact Nat.add_sub_cancel_left _ _
  · dsimp only
    omega
  · dsimp only
    omega
  · dsimp only
    omega

/-- Every vector that is allocated has the header, and there is one when the memory is enough. -/
theorem allocate_centred (type : CType α) (positive : 1 ≤ n) (small : n ≤ 2 ^ 63) :
    (allocateHeader n).Centred n ∧
      (∀ vec : Vector type,allocate type n = .ok vec → vec.header = allocateHeader n) ∧
      (type.Fits (allocateHeader n).maxSize → ∃ vec,allocate type n = .ok vec) :=
  ⟨allocateHeader_centred positive small,fun _ => allocate_header,allocate_of_fits⟩

/-- The largest number of elements, in an array of its own size. -/
theorem allocate_largest : (allocateHeader (2 ^ 63)).Centred (2 ^ 63) :=
  (allocate_centred (⟨1,Nat.one_pos,fun _ new _ => new,0⟩ : CType Nat) (by decide) (le_refl _)).1

end VectorBackend
end Memoir
