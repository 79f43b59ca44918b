import Mathlib.Algebra.Order.Field.Power
import Mathlib.Data.Nat.Size
import Mathlib.Data.Rat.Floor
import Mathlib.Tactic.FieldSimp
import Mathlib.Tactic.Ring

/-! Binary floating-point formats by the rationals that they have, and the conversions between
them and natural numbers. -/

structure FloatFormat where
  precision : Nat
  leastExponent : Int
  greatestExponent : Int

namespace FloatFormat

def Represents (format : FloatFormat) (value : Rat) : Prop :=
  ∃ mantissa exponent : Int, mantissa.natAbs < 2 ^ format.precision ∧
    format.leastExponent ≤ exponent ∧ exponent ≤ format.greatestExponent ∧
    value = mantissa * (2 : Rat) ^ exponent

def truncate (value : Rat) : Int := Int.tdiv value.num value.den

/-- A natural number rounded to a precision, halves to an even last bit. -/
def nearest (precision n : Nat) : Nat :=
  let shift := n.size - precision
  let kept := n / 2 ^ shift
  let rest := n % 2 ^ shift
  let kept := if 2 ^ shift < rest * 2 ∨ rest * 2 = 2 ^ shift ∧ kept % 2 = 1 then kept + 1 else kept
  kept * 2 ^ shift

theorem truncate_natCast (n : Nat) : truncate n = n := by
  simp [truncate]

theorem nearest_of_dvd {precision n : Nat} (exact : 2 ^ (n.size - precision) ∣ n) :
    nearest precision n = n := by
  have rest := Nat.mod_eq_zero_of_dvd exact
  unfold nearest
  simp only [rest,Nat.zero_mul,Nat.not_lt_zero,false_or]
  rw [if_neg (fun both => absurd both.1 (Nat.two_pow_pos _).ne),Nat.div_mul_cancel exact]

/-- A number that the format has is not rounded. -/
theorem nearest_of_represents {format : FloatFormat} {n : Nat} (has : format.Represents n) :
    nearest format.precision n = n := by
  obtain ⟨mantissa,exponent,small,_,_,same⟩ := has
  apply nearest_of_dvd
  rcases lt_or_ge exponent 0 with negative | nonnegative
  · -- The number is at most its mantissa.
    have bound : (n : Rat) ≤ mantissa.natAbs := by
      have scale : (2 : Rat) ^ exponent ≤ 1 := zpow_le_one_of_nonpos₀ (by norm_num) negative.le
      have positive : (0 : Rat) < 2 ^ exponent := zpow_pos (by norm_num) exponent
      calc (n : Rat)
        _ = mantissa * 2 ^ exponent := same
        _ ≤ |(mantissa : Rat)| * 2 ^ exponent := by gcongr; exact le_abs_self _
        _ ≤ |(mantissa : Rat)| * 1 := by gcongr
        _ = mantissa.natAbs := by rw [mul_one,Nat.cast_natAbs,Int.cast_abs]
    have below : n < 2 ^ format.precision := Nat.lt_of_le_of_lt (by exact_mod_cast bound) small
    rw [Nat.sub_eq_zero_of_le (Nat.size_le.mpr below)]
    exact Nat.one_dvd n
  · obtain ⟨shift,rfl⟩ := Int.eq_ofNat_of_zero_le nonnegative
    have product : n = mantissa.natAbs * 2 ^ shift := by
      have integers : (n : Int) = mantissa * 2 ^ shift := by
        have := same
        rw [zpow_natCast] at this
        exact_mod_cast this
      have := congrArg Int.natAbs integers
      simpa [Int.natAbs_mul,Int.natAbs_pow] using this
    have size : n.size ≤ format.precision + shift := by
      rw [Nat.size_le,product,pow_add]
      exact Nat.mul_lt_mul_of_pos_right small (Nat.two_pow_pos shift)
    exact (Nat.pow_dvd_pow 2 (by omega)).trans (product ▸ Nat.dvd_mul_left _ _)

end FloatFormat
