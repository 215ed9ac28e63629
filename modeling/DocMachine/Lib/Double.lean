import Mathlib.Algebra.Order.Floor.Ring
import Mathlib.Data.Int.Log
import Mathlib.Data.Rat.Floor
import Mathlib.Tactic.FieldSimp
import Mathlib.Tactic.Linarith
import Mathlib.Tactic.Ring

/-!
# Binary floating-point rounding

Rounding of an exact rational to `p` significant bits, to nearest and to even on a tie, with no
bounds on the exponent: `round 53` is the rounding of IEEE double precision on the numbers that are
neither subnormal nor too large for it. A floating-point operation is the exact operation followed
by `round`.

Results:
* `abs_round_sub_le`: the relative error of one rounding is at most `1 / 2 ^ p`.
* `round_le`: so a number that is not negative grows by at most that.
* `truncate_lt`: `int` of a number below an integer is below it.
-/

namespace DocMachine.Lib.Double

/-- The nearest integer, the even one of two. -/
def roundEven (x : ℚ) : ℤ :=
  if Int.fract x < 1 / 2 then ⌊x⌋
  else if 1 / 2 < Int.fract x then ⌊x⌋ + 1
  else if Even ⌊x⌋ then ⌊x⌋
  else ⌊x⌋ + 1

/-- The distance between neighbours with `p` significant bits around `x`. -/
def spacing (p : ℕ) (x : ℚ) : ℚ := 2 ^ (Int.log 2 |x| + 1 - p)

/-- The number with `p` significant bits that is nearest to `x`. -/
def round (p : ℕ) (x : ℚ) : ℚ := roundEven (x / spacing p x) * spacing p x

/-- Drop the fraction, as a conversion to an integer does. -/
def truncate (x : ℚ) : ℤ := if 0 ≤ x then ⌊x⌋ else ⌈x⌉

theorem abs_roundEven_sub_le (x : ℚ) : |(roundEven x : ℚ) - x| ≤ 1 / 2 := by
  have hfract : (⌊x⌋ : ℚ) + Int.fract x = x := Int.floor_add_fract x
  have hnonneg : 0 ≤ Int.fract x := Int.fract_nonneg x
  have hlt : Int.fract x < 1 := Int.fract_lt_one x
  rw [abs_le]
  unfold roundEven
  split_ifs <;> push_cast <;> constructor <;> linarith

theorem spacing_pos (p : ℕ) (x : ℚ) : 0 < spacing p x := zpow_pos two_pos _

theorem spacing_le {x : ℚ} (hx : x ≠ 0) (p : ℕ) : spacing p x ≤ 2 * |x| / 2 ^ p := by
  have hlog : (2 : ℚ) ^ Int.log 2 |x| ≤ |x| :=
    Int.zpow_log_le_self (b := 2) (by decide) (abs_pos.mpr hx)
  have htwo : (2 : ℚ) ≠ 0 := two_ne_zero
  calc spacing p x = 2 * 2 ^ Int.log 2 |x| / 2 ^ p := by
        rw [spacing, zpow_sub₀ htwo, zpow_add_one₀ htwo, zpow_natCast, mul_comm]
    _ ≤ 2 * |x| / 2 ^ p := by gcongr

/-- **One rounding** changes a number by at most its `2 ^ p`-th part. -/
theorem abs_round_sub_le (p : ℕ) (x : ℚ) : |round p x - x| ≤ |x| / 2 ^ p := by
  by_cases hx : x = 0
  · subst hx
    simp [round, roundEven]
  · have hpos : 0 < spacing p x := spacing_pos p x
    have hquotient : x / spacing p x * spacing p x = x := div_mul_cancel₀ x hpos.ne'
    calc |round p x - x|
        = |(roundEven (x / spacing p x) - x / spacing p x) * spacing p x| := by
          rw [sub_mul, hquotient, round]
      _ = |(roundEven (x / spacing p x) : ℚ) - x / spacing p x| * spacing p x := by
          rw [abs_mul, abs_of_pos hpos]
      _ ≤ 1 / 2 * (2 * |x| / 2 ^ p) := by
          gcongr
          · exact abs_roundEven_sub_le _
          · exact spacing_le hx p
      _ = |x| / 2 ^ p := by ring

theorem round_le {x : ℚ} (hx : 0 ≤ x) (p : ℕ) : round p x ≤ x * (1 + 1 / 2 ^ p) := by
  have habs := (abs_le.mp (abs_round_sub_le p x)).2
  rw [abs_of_nonneg hx] at habs
  calc round p x ≤ x + x / 2 ^ p := by linarith
    _ = x * (1 + 1 / 2 ^ p) := by ring

theorem round_nonneg {x : ℚ} (hx : 0 ≤ x) (p : ℕ) : 0 ≤ round p x := by
  have hpos : 0 < spacing p x := spacing_pos p x
  have hquotient : 0 ≤ x / spacing p x := div_nonneg hx hpos.le
  have hfloor : 0 ≤ ⌊x / spacing p x⌋ := Int.floor_nonneg.mpr hquotient
  have hround : 0 ≤ roundEven (x / spacing p x) := by
    unfold roundEven
    split_ifs <;> omega
  exact mul_nonneg (by exact_mod_cast hround) hpos.le

theorem truncate_lt {x : ℚ} (hx : 0 ≤ x) {n : ℤ} (h : x < n) : truncate x < n := by
  unfold truncate
  rw [if_pos hx]
  exact Int.floor_lt.mpr h

end DocMachine.Lib.Double
