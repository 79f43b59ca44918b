import Mathlib.Algebra.Group.Nat.Defs
import Mathlib.Data.Nat.Size
import Mathlib.Order.Bounds.Basic

/-! The bits below the highest set bit of a number, filled by or-ing the number with its own
shifts by one, two, four and so on. The number above them is a power of two. -/
namespace PowerOfTwo

/-- Every bit of the second number has a bit of the first fewer than `count` places above it. -/
def Filled (count x y : Nat) : Prop := ∀ i, y.testBit i = true ↔ ∃ j < count, x.testBit (i + j) = true

def double (count y : Nat) : Nat := y ||| y >>> count

theorem filled_one (x : Nat) : Filled 1 x x := by
  intro i
  constructor
  · intro set
    exact ⟨0,Nat.one_pos,set⟩
  · intro ⟨j,below,set⟩
    obtain rfl : j = 0 := by omega
    exact set

theorem Filled.double {count x y : Nat} (filled : Filled count x y) :
    Filled (2 * count) x (double count y) := by
  intro i
  simp only [PowerOfTwo.double,Nat.testBit_or,Nat.testBit_shiftRight,Bool.or_eq_true,filled _]
  constructor
  · rintro (⟨j,below,set⟩ | ⟨j,below,set⟩)
    · exact ⟨j,by omega,set⟩
    · exact ⟨count + j,by omega,by rwa [show i + (count + j) = count + i + j by omega]⟩
  · intro ⟨j,below,set⟩
    cases Nat.lt_or_ge j count with
    | inl near => exact .inl ⟨j,near,set⟩
    | inr far => exact .inr ⟨j - count,by omega,by rwa [show count + i + (j - count) = i + j by omega]⟩

/-- Below the highest set bit there are never `count` bits in a row that are not set. -/
def Gapless (count x : Nat) : Prop := ∀ i < x.size, ∃ j < count, x.testBit (i + j) = true

instance (count x : Nat) : Decidable (Gapless count x) :=
  inferInstanceAs (Decidable (∀ i < x.size, ∃ j < count, x.testBit (i + j) = true))

theorem Filled.lt_size {count x y i : Nat} (filled : Filled count x y) (set : y.testBit i = true) :
    i < x.size := by
  obtain ⟨j,_,set⟩ := (filled i).mp set
  apply Nat.lt_size.mpr
  exact Nat.le_trans (Nat.pow_le_pow_right (by omega) (Nat.le_add_right i j))
    (Nat.ge_two_pow_of_testBit set)

theorem Filled.lt {count x y : Nat} (filled : Filled count x y) : y < 2 ^ x.size := by
  apply Nat.lt_pow_two_of_testBit
  intro i outside
  rw [Bool.eq_false_iff]
  intro set
  exact Nat.not_lt.mpr outside (filled.lt_size set)

theorem Filled.succ_eq_iff {count x y : Nat} (filled : Filled count x y) :
    y + 1 = 2 ^ x.size ↔ Gapless count x := by
  have positive := Nat.two_pow_pos x.size
  constructor
  · intro ones i inside
    apply (filled i).mp
    rw [show y = 2 ^ x.size - 1 by omega,Nat.testBit_two_pow_sub_one]
    exact decide_eq_true inside
  · intro gapless
    have ones : y = 2 ^ x.size - 1 := by
      apply Nat.eq_of_testBit_eq
      intro i
      rw [Nat.testBit_two_pow_sub_one,Bool.eq_iff_iff,decide_eq_true_iff]
      exact ⟨filled.lt_size,fun inside => (filled i).mpr (gapless i inside)⟩
    omega

theorem gapless_of_lt {count x : Nat} (small : x < 2 ^ count) : Gapless count x := by
  intro i inside
  obtain ⟨k,above,set⟩ := Nat.exists_ge_and_testBit_of_ge_two_pow (Nat.lt_size.mp inside)
  have near : k < count := by
    apply (Nat.pow_lt_pow_iff_right Nat.one_lt_two).mp
    exact Nat.lt_of_le_of_lt (Nat.ge_two_pow_of_testBit set) small
  exact ⟨k - i,by omega,by rwa [show i + (k - i) = k by omega]⟩

/-- With every shift below the width of the number taken, no bit below the highest is left out. -/
theorem Filled.eq {count x y : Nat} (filled : Filled count x y) (small : x < 2 ^ count) :
    y = 2 ^ x.size - 1 := by
  have ones := filled.succ_eq_iff.mpr (gapless_of_lt small)
  omega

theorem size_le_of_lt {count x : Nat} (small : x < 2 ^ count) : 2 ^ x.size ≤ 2 ^ count :=
  Nat.pow_le_pow_right (by omega) (Nat.size_le.mpr small)

/-- The least power of two that is not below a number. -/
theorem isLeast_size {n : Nat} (positive : 0 < n) :
    IsLeast {m | n ≤ m ∧ ∃ k, m = 2 ^ k} (2 ^ (n - 1).size) := by
  have above := Nat.lt_size_self (n - 1)
  refine ⟨⟨by omega,_,rfl⟩,?_⟩
  intro m ⟨enough,k,power⟩
  rw [power]
  exact size_le_of_lt (by omega)

end PowerOfTwo
