import Memoir.PowerOfTwo
import Memoir.TypeLayout

/-! The rounding of a bit width to a machine size in the 32 bits of an `unsigned`, and the widths for
which it is the least size that is large enough. -/
namespace Memoir.SizeRounding
open PowerOfTwo

def getNextSize (n : BitVec 32) : BitVec 32 :=
  if n < 8 then 8 else
    let m := (n >>> 3) - 1
    let m := m ||| (m >>> 1)
    let m := m ||| (m >>> 2)
    let m := m ||| (m >>> 4)
    (m + 1) <<< 3

/-- The three steps fill eight bits. -/
def smear (x : Nat) : Nat := double 4 (double 2 (double 1 x))

theorem smear_filled (x : Nat) : Filled 8 x (smear x) :=
  (filled_one x).double.double.double

theorem getNextSize_small {n : BitVec 32} (small : n.toNat < 8) : getNextSize n = 8 := by
  have below : n < 8 := small
  unfold getNextSize
  rw [if_pos below]

/-- Nothing overflows before the last shift. -/
theorem getNextSize_toNat {n : BitVec 32} (large : 8 ≤ n.toNat) :
    (getNextSize n).toNat = 8 * (smear (n.toNat / 8 - 1) + 1) % 2 ^ 32 := by
  have word := n.isLt
  have above : ¬n < 8 := Nat.not_lt.mpr large
  have quotient : (n >>> 3 - 1).toNat = n.toNat / 8 - 1 := by
    rw [BitVec.toNat_sub,BitVec.toNat_ushiftRight,Nat.shiftRight_eq_div_pow]
    change (2 ^ 32 - 1 + _) % 2 ^ 32 = _
    omega
  have small : n.toNat / 8 - 1 < 2 ^ 29 := by omega
  have filled : smear (n.toNat / 8 - 1) < 2 ^ 29 :=
    Nat.lt_of_lt_of_le (smear_filled _).lt (size_le_of_lt small)
  unfold getNextSize
  rw [if_neg above]
  simp only [BitVec.toNat_shiftLeft,BitVec.toNat_add,BitVec.toNat_or,BitVec.toNat_ushiftRight,quotient]
  change ((smear (n.toNat / 8 - 1) + 1) % 2 ^ 32) <<< 3 % 2 ^ 32 = _
  rw [Nat.mod_eq_of_lt (show smear (n.toNat / 8 - 1) + 1 < 2 ^ 32 by omega),Nat.shiftLeft_eq]
  omega

/-- The layout's rounding is this one as long as its result is an `unsigned`. -/
theorem getNextSize_layout (n : BitVec 32) :
    (getNextSize n).toNat = TypeLayout.getNextSize n.toNat % 2 ^ 32 := by
  unfold TypeLayout.getNextSize
  by_cases small : n.toNat < 8
  · rw [getNextSize_small small,if_pos small]
    rfl
  · rw [getNextSize_toNat (by omega),if_neg small,Nat.shiftRight_eq_div_pow,Nat.shiftLeft_eq,
      Nat.mul_comm]
    rfl

/-- The sizes that a width fits into. -/
def sizes (n : Nat) : Set Nat := {size | n ≤ size ∧ ∃ k, size = 8 * 2 ^ k}

theorem isLeast_sizes {n : Nat} (positive : 0 < n) : IsLeast (sizes n) (8 * 2 ^ ((n - 1) / 8).size) := by
  obtain ⟨⟨enough,_⟩,least⟩ := isLeast_size (show 0 < (n - 1) / 8 + 1 by omega)
  rw [Nat.add_sub_cancel] at enough least
  refine ⟨⟨by omega,_,rfl⟩,?_⟩
  intro size ⟨enough',k,power⟩
  have above : 2 ^ ((n - 1) / 8).size ≤ 2 ^ k := least ⟨by omega,k,rfl⟩
  omega

/-- Just above a power of two the quotient is one too small, and its size is too. -/
theorem size_eq_iff {n : Nat} (large : 8 ≤ n) :
    ((n - 1) / 8).size = (n / 8 - 1).size ↔ ∀ k, ¬(8 * 2 ^ k < n ∧ n < 8 * 2 ^ k + 8) := by
  constructor
  · intro same k ⟨above,near⟩
    have power : (n - 1) / 8 = 2 ^ k := by omega
    have small : (n / 8 - 1).size ≤ k := Nat.size_le.mpr (by omega)
    have big : k < ((n - 1) / 8).size := Nat.lt_size.mpr (by omega)
    omega
  · intro apart
    have lower : (n / 8 - 1).size ≤ ((n - 1) / 8).size := Nat.size_le_size (by omega)
    by_contra other
    have big : 2 ^ (n / 8 - 1).size ≤ (n - 1) / 8 := Nat.lt_size.mp (by omega)
    have small := Nat.lt_size_self (n / 8 - 1)
    exact apart (n / 8 - 1).size ⟨by omega,by omega⟩

theorem getNextSize_least_iff {n : BitVec 32} (positive : 1 ≤ n.toNat) :
    IsLeast (sizes n.toNat) (getNextSize n).toNat ↔
      n.toNat ≤ 2 ^ 31 ∧ (∀ k, ¬(8 * 2 ^ k < n.toNat ∧ n.toNat < 8 * 2 ^ k + 8)) ∧
        Gapless 8 (n.toNat / 8 - 1) := by
  have word := (getNextSize n).isLt
  have power (k : Nat) : 8 * 2 ^ k = 2 ^ (k + 3) := by
    rw [pow_add]
    omega
  rcases Nat.lt_or_ge n.toNat 8 with small | large
  · have least := isLeast_sizes positive
    have none : (n.toNat - 1) / 8 = 0 := by omega
    have none' : n.toNat / 8 - 1 = 0 := by omega
    rw [none] at least
    rw [getNextSize_small small,none']
    refine iff_of_true least ⟨by omega,?_,fun i inside => ?_⟩
    · intro k
      have positive := Nat.two_pow_pos k
      omega
    · rw [Nat.size_zero] at inside
      exact absurd inside (Nat.not_lt_zero i)
  · have filled := smear_filled (n.toNat / 8 - 1)
    have value := getNextSize_toNat large
    have least := isLeast_sizes positive
    rw [← size_eq_iff large]
    constructor
    · intro least'
      have whole := least'.unique least
      have small : ((n.toNat - 1) / 8).size + 3 < 32 := by
        apply (Nat.pow_lt_pow_iff_right Nat.one_lt_two).mp
        rw [← power,← whole]
        exact word
      have bound : 2 ^ (((n.toNat - 1) / 8).size + 3) ≤ 2 ^ 31 :=
        Nat.pow_le_pow_right (by omega) (by omega)
      have below := filled.lt
      have exponents : ((n.toNat - 1) / 8).size ≤ (n.toNat / 8 - 1).size := by
        apply (Nat.pow_le_pow_iff_right Nat.one_lt_two).mp
        omega
      have exponents' : (n.toNat / 8 - 1).size ≤ ((n.toNat - 1) / 8).size :=
        Nat.size_le_size (by omega)
      have same := Nat.le_antisymm exponents exponents'
      refine ⟨?_,same,filled.succ_eq_iff.mp ?_⟩
      · have enough := least.1.1
        rw [power] at enough
        omega
      · rw [same] at whole
        omega
    · intro ⟨small,same,gapless⟩
      have ones := filled.succ_eq_iff.mpr gapless
      have bound : 8 * 2 ^ ((n.toNat - 1) / 8).size ≤ 2 ^ 31 := least.2 ⟨small,28,rfl⟩
      rw [← same] at ones
      rw [value,ones,Nat.mod_eq_of_lt (by omega)]
      exact least

theorem getNextSize_least_24 : IsLeast (sizes 24) 32 := by
  have apart : ∀ k, ¬(8 * 2 ^ k < 24 ∧ 24 < 8 * 2 ^ k + 8) := by omega
  exact (getNextSize_least_iff (n := 24) (by decide)).mpr ⟨by decide,apart,by decide⟩

/-- Nine bits are given a byte. -/
theorem getNextSize_not_least : ¬IsLeast (sizes (9 : BitVec 32).toNat) (getNextSize 9).toNat := by
  intro least
  have enough : 9 ≤ (getNextSize 9).toNat := least.1.1
  revert enough
  decide

end Memoir.SizeRounding
