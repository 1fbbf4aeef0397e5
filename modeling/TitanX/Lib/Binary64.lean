import Mathlib.Data.Int.Log
import Mathlib.Data.Rat.Floor
import Mathlib.Tactic.Linarith
import Mathlib.Tactic.NormNum
import Mathlib.Tactic.Positivity
import Mathlib.Tactic.Ring

/-!
# Double precision arithmetic

A finite `double` is the rational number it denotes, and an operation is the exact one
followed by `nearest`: to the nearest number with a significand of 53 bits and an exponent of
at least -1074, ties to the even significand. There is no largest number here; the results
are those of IEEE 754 as long as they stay below `2 ^ 1024` (`overflows`). `underflows` says
where a result is too small to be rounded to 53 bits.

The two facts that error analysis needs are that rounding moves a number by at most half a
unit in the last place (`abs_nearest_sub_le`), and that numbers which are close enough to an
integer round and truncate to it.
-/

namespace TitanX.Binary64

/-! ## Rounding to an integer -/

/-- The nearest integer, of two nearest ones the even one. -/
def roundEven (x : ℚ) : ℤ :=
  if x - ⌊x⌋ < 1 / 2 then ⌊x⌋
  else if 1 / 2 < x - ⌊x⌋ then ⌊x⌋ + 1
  else if ⌊x⌋ % 2 = 0 then ⌊x⌋ else ⌊x⌋ + 1

/-- The conversion to an integer type, towards zero. -/
def truncate (x : ℚ) : ℤ := if 0 ≤ x then ⌊x⌋ else ⌈x⌉

theorem abs_roundEven_sub_le (x : ℚ) : |(roundEven x : ℚ) - x| ≤ 1 / 2 := by
  have hlo := Int.floor_le x
  have hhi := Int.lt_floor_add_one x
  unfold roundEven
  split_ifs with h₁ h₂ h₃
  · rw [abs_le]; constructor <;> linarith
  · rw [abs_le]; push_cast; constructor <;> linarith
  · rw [abs_le]; constructor <;> linarith
  · rw [abs_le]; push_cast; constructor <;> linarith

/-- A number that is closer to `n` than to any other integer. -/
theorem roundEven_eq_of_abs_sub_lt {x : ℚ} {n : ℤ} (h : |x - n| < 1 / 2) : roundEven x = n := by
  have hround := abs_roundEven_sub_le x
  have hdist : |(roundEven x : ℚ) - n| < 1 := by
    calc |(roundEven x : ℚ) - n| = |((roundEven x : ℚ) - x) + (x - n)| := by ring_nf
      _ ≤ |(roundEven x : ℚ) - x| + |x - n| := abs_add_le _ _
      _ < 1 := by linarith
  have hint : |roundEven x - n| < 1 := by exact_mod_cast hdist
  rw [Int.abs_lt_one_iff] at hint
  omega

theorem truncate_of_nonneg {x : ℚ} {n : ℤ} (hn : 0 ≤ n) (h : |x - (n + 1 / 2)| < 1 / 2) :
    truncate x = n := by
  obtain ⟨hlo, hhi⟩ := abs_lt.mp h
  have hn' : (0 : ℚ) ≤ n := by exact_mod_cast hn
  unfold truncate
  rw [if_pos (by linarith), Int.floor_eq_iff]
  constructor <;> linarith

/-- Below zero the conversion rounds up. -/
theorem truncate_of_neg {x : ℚ} {n : ℤ} (hn : n < 0) (h : |x - (n + 1 / 2)| < 1 / 2) :
    truncate x = n + 1 := by
  obtain ⟨hlo, hhi⟩ := abs_lt.mp h
  have hn' : (n : ℚ) + 1 ≤ 0 := by exact_mod_cast hn
  unfold truncate
  rw [if_neg (by linarith), Int.ceil_eq_iff]
  push_cast
  constructor <;> linarith

/-! ## Rounding to a double -/

/-- The exponent of the last place of the doubles around `x`. -/
def exponent (x : ℚ) : ℤ := max (Int.log 2 |x| - 52) (-1074)

/-- The nearest multiple of `2 ^ e`. -/
def roundAt (e : ℤ) (x : ℚ) : ℚ := roundEven (x / 2 ^ e) * 2 ^ e

def nearest (x : ℚ) : ℚ := roundAt (exponent x) x

/-- The result is beyond the largest number there is. -/
def overflows (x : ℚ) : Bool := 2 ^ 1024 ≤ |nearest x|

/-- The result is not exact, and too small for a significand of 53 bits: it would be so without
a least exponent as well. -/
def underflows (x : ℚ) : Bool :=
  nearest x ≠ x && |roundAt (Int.log 2 |x| - 52) x| < 2 ^ (-1022 : ℤ)

/-- Half a unit in the last place. -/
theorem abs_roundAt_sub_le (e : ℤ) (x : ℚ) : |roundAt e x - x| ≤ 2 ^ e / 2 := by
  have hpos : (0 : ℚ) < 2 ^ e := zpow_pos (by norm_num) _
  have hscaled : roundAt e x - x = ((roundEven (x / 2 ^ e) : ℚ) - x / 2 ^ e) * 2 ^ e := by
    rw [sub_mul, div_mul_cancel₀ x hpos.ne']; rfl
  rw [hscaled, abs_mul, abs_of_pos hpos]
  calc _ ≤ 1 / 2 * (2 : ℚ) ^ e := mul_le_mul_of_nonneg_right (abs_roundEven_sub_le _) hpos.le
    _ = 2 ^ e / 2 := by ring

theorem two_zpow_log_le {x : ℚ} (hx : x ≠ 0) : (2 : ℚ) ^ (Int.log 2 |x| - 52) ≤ |x| / 2 ^ 52 := by
  have hlog : (2 : ℚ) ^ Int.log 2 |x| ≤ |x| :=
    Int.zpow_log_le_self (by norm_num) (abs_pos.mpr hx)
  rw [zpow_sub₀ (by norm_num), zpow_ofNat]
  exact div_le_div_of_nonneg_right hlog (by positivity)

/-- The last place of a number other than zero. The least exponent only matters for numbers
that are next to zero, and is bounded generously. -/
theorem two_zpow_exponent_le {x : ℚ} (hx : x ≠ 0) :
    (2 : ℚ) ^ exponent x ≤ |x| / 2 ^ 52 + 1 / 2 ^ 100 := by
  have hpos : (0 : ℚ) ≤ |x| / 2 ^ 52 := by positivity
  unfold exponent
  rcases le_total (-1074) (Int.log 2 |x| - 52) with hle | hle
  · rw [max_eq_left hle]
    have hlog := two_zpow_log_le hx
    have htiny : (0 : ℚ) ≤ 1 / 2 ^ 100 := by positivity
    linarith
  · rw [max_eq_right hle]
    have htiny : (2 : ℚ) ^ (-1074 : ℤ) ≤ 2 ^ (-100 : ℤ) :=
      zpow_le_zpow_right₀ (by norm_num) (by norm_num)
    have heq : (2 : ℚ) ^ (-100 : ℤ) = 1 / 2 ^ 100 := by
      rw [zpow_neg, zpow_ofNat, one_div]
    calc (2 : ℚ) ^ (-1074 : ℤ) ≤ 1 / 2 ^ 100 := heq ▸ htiny
      _ ≤ |x| / 2 ^ 52 + 1 / 2 ^ 100 := le_add_of_nonneg_left hpos

theorem nearest_zero : nearest 0 = 0 := by
  have hzero : roundEven (0 / 2 ^ exponent 0) = 0 :=
    roundEven_eq_of_abs_sub_lt (by rw [zero_div]; norm_num)
  rw [nearest, roundAt, hzero, Int.cast_zero, zero_mul]

/-- **The error of one rounding**: relative to the number, but for numbers next to zero. -/
theorem abs_nearest_sub_le (x : ℚ) : |nearest x - x| ≤ |x| / 2 ^ 53 + 1 / 2 ^ 101 := by
  by_cases hx : x = 0
  · rw [hx, nearest_zero, sub_self, abs_zero]; positivity
  · calc |nearest x - x| ≤ 2 ^ exponent x / 2 := abs_roundAt_sub_le _ x
      _ ≤ (|x| / 2 ^ 52 + 1 / 2 ^ 100) / 2 :=
          div_le_div_of_nonneg_right (two_zpow_exponent_le hx) (by norm_num)
      _ = |x| / 2 ^ 53 + 1 / 2 ^ 101 := by ring

/-- **Errors add up.** What is within `ε` of `t` is, rounded, within `ε` and one rounding more. -/
theorem abs_nearest_sub_le_of_near {x t ε M : ℚ} (hx : |x - t| ≤ ε) (ht : |t| ≤ M) :
    |nearest x - t| ≤ ε + (M + ε) / 2 ^ 53 + 1 / 2 ^ 101 := by
  have hmag : |x| ≤ M + ε := by
    calc |x| = |t + (x - t)| := by rw [add_sub_cancel]
      _ ≤ |t| + |x - t| := abs_add_le _ _
      _ ≤ M + ε := add_le_add ht hx
  have hdiv : |x| / 2 ^ 53 ≤ (M + ε) / 2 ^ 53 := div_le_div_of_nonneg_right hmag (by positivity)
  calc |nearest x - t| = |(nearest x - x) + (x - t)| := by rw [sub_add_sub_cancel]
    _ ≤ |nearest x - x| + |x - t| := abs_add_le _ _
    _ ≤ ε + (M + ε) / 2 ^ 53 + 1 / 2 ^ 101 := by
        have hround := abs_nearest_sub_le x
        linarith

theorem nearest_nonneg {x : ℚ} (hx : 0 ≤ x) : 0 ≤ nearest x := by
  have hpos : (0 : ℚ) < 2 ^ exponent x := zpow_pos (by norm_num) _
  have hfloor : 0 ≤ ⌊x / 2 ^ exponent x⌋ := Int.floor_nonneg.mpr (div_nonneg hx hpos.le)
  have hround : 0 ≤ roundEven (x / 2 ^ exponent x) := by
    unfold roundEven
    split_ifs <;> omega
  exact mul_nonneg (by exact_mod_cast hround) hpos.le

/-- Numbers that are not next to zero do not underflow. -/
theorem underflows_eq_false {x : ℚ} (hx : 1 / 2 ^ 100 ≤ |x|) : underflows x = false := by
  have hne : x ≠ 0 := by
    intro hzero
    rw [hzero, abs_zero] at hx
    exact absurd hx (not_le.mpr (by positivity))
  have hround := abs_roundAt_sub_le (Int.log 2 |x| - 52) x
  have hlog := two_zpow_log_le hne
  have hmag : |x| / 2 ≤ |roundAt (Int.log 2 |x| - 52) x| := by
    have htri : |x| - |x - roundAt (Int.log 2 |x| - 52) x| ≤ |roundAt (Int.log 2 |x| - 52) x| := by
      have h := abs_sub_abs_le_abs_sub x (x - roundAt (Int.log 2 |x| - 52) x)
      rwa [sub_sub_cancel] at h
    have hsmall : |x| / 2 ^ 52 ≤ |x| := div_le_self (abs_nonneg x) (by norm_num)
    rw [abs_sub_comm] at htri
    linarith
  have htiny : (2 : ℚ) ^ (-1022 : ℤ) ≤ 2 ^ (-101 : ℤ) :=
    zpow_le_zpow_right₀ (by norm_num) (by norm_num)
  have heq : (2 : ℚ) ^ (-101 : ℤ) = 1 / 2 ^ 100 / 2 := by
    rw [zpow_neg, zpow_ofNat]
    ring
  have hbig : ¬ |roundAt (Int.log 2 |x| - 52) x| < 2 ^ (-1022 : ℤ) := by
    rw [heq] at htiny
    exact not_lt.mpr (by linarith)
  unfold underflows
  rw [decide_eq_false hbig, Bool.and_false]

theorem underflows_zero : underflows 0 = false := by
  unfold underflows
  rw [nearest_zero]
  rfl

end TitanX.Binary64
