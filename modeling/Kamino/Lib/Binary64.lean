import Mathlib.Algebra.Order.Floor.Ring
import Mathlib.Data.Int.Log
import Mathlib.Data.Rat.Floor

/-!
# Rounding to doubles

Rationals stand for the doubles. The range of the exponent is left out: `fl` is the rounding of
the machine at positive values that are neither subnormal nor above the largest double.
-/

namespace Binary64

/-- The nearest integer, the even one of two. -/
def roundEven (x : ℚ) : ℤ :=
  if 1 < 2 * Int.fract x ∨ 2 * Int.fract x = 1 ∧ x.floor % 2 = 1 then x.floor + 1 else x.floor

/-- The nearest value of 53 significant bits, the even one of two. -/
def fl (x : ℚ) : ℚ :=
  let ulp : ℚ := 2 ^ (Int.log 2 x - 52)
  roundEven (x / ulp) * ulp

variable {x : ℚ}

theorem abs_roundEven_sub_le (x : ℚ) : |(roundEven x : ℚ) - x| ≤ 1 / 2 := by
  have hfract : Int.fract x = x - x.floor := rfl
  have hnonneg := Int.fract_nonneg x
  unfold roundEven
  rw [abs_le]
  split_ifs with h
  · have hlt := Int.fract_lt_one x
    have hhalf : 1 ≤ 2 * Int.fract x := h.elim le_of_lt fun h => h.1.ge
    push_cast
    constructor <;> linarith
  · have hhalf : 2 * Int.fract x ≤ 1 := not_lt.1 fun hlt => h (.inl hlt)
    constructor <;> linarith

/-- The relative error of one rounding is at most half a unit in the last place. -/
theorem abs_fl_sub_le (hx : 0 < x) : |fl x - x| ≤ x / 2 ^ 53 := by
  set ulp : ℚ := 2 ^ (Int.log 2 x - 52) with hulp
  have hpos : 0 < ulp := zpow_pos two_pos _
  have hle : 2 ^ 52 * ulp ≤ x := by
    have hpow : (2 : ℚ) ^ 52 * ulp = 2 ^ Int.log 2 x := by
      rw [hulp, zpow_sub₀ two_ne_zero]
      field_simp
    rw [hpow]
    exact_mod_cast Int.zpow_log_le_self one_lt_two hx
  have herr : |fl x - x| = |(roundEven (x / ulp) : ℚ) - x / ulp| * ulp := by
    rw [← abs_of_pos hpos, ← abs_mul, abs_of_pos hpos, sub_mul, div_mul_cancel₀ x hpos.ne']
    rfl
  calc |fl x - x| = |(roundEven (x / ulp) : ℚ) - x / ulp| * ulp := herr
    _ ≤ 1 / 2 * ulp := mul_le_mul_of_nonneg_right (abs_roundEven_sub_le _) hpos.le
    _ ≤ x / 2 ^ 53 := by
      rw [le_div_iff₀ (by positivity)]
      linarith

theorem le_fl (hx : 0 < x) : x - x / 2 ^ 53 ≤ fl x := by
  linarith [(abs_le.1 (abs_fl_sub_le hx)).1]

end Binary64
