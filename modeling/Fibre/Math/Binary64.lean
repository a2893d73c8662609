import Mathlib.Data.Rat.Floor
import Mathlib.Data.UInt
import Mathlib.Tactic.Positivity

/-!
# Binary64 arithmetic on nonnegative rationals

A finite nonnegative binary64 number is its rational value, and an operation rounds the
exact result to the nearest representable one, ties to even. Values stay far below the
largest finite number here, so there is no infinity; subnormal results are rounded as
the format prescribes.

## Main results

* `Binary64.half_le_round`, `Binary64.round_le_two_mul` — rounding is within a factor two
-/

namespace Binary64

/-- The integer nearest to `x`, ties to even. -/
def roundEven (x : ℚ) : ℤ :=
  let k := ⌊x⌋
  if x - k < 1 / 2 then k
  else if 1 / 2 < x - k then k + 1
  else if k % 2 = 0 then k else k + 1

/-- The least subnormal number is `2 ^ -subnormalBits`. -/
def subnormalBits : ℕ := 1074

/-- The exponent of the last significand bit at `x`: 52 below that of the leading bit, and
never below the subnormal one. -/
def ulpExponent (x : ℚ) : ℤ :=
  max ((Nat.log2 ⌊x * 2 ^ subnormalBits⌋₊ : ℤ) - subnormalBits - 52) (-subnormalBits)

/-- The binary64 number nearest to the nonnegative `x`, ties to even. -/
def round (x : ℚ) : ℚ := roundEven (x / 2 ^ ulpExponent x) * 2 ^ ulpExponent x

/-- The conversion from a machine word. -/
def ofUInt64 (n : UInt64) : ℚ := round n.toNat

/-- The truncating, saturating conversion to a machine word. -/
def toUInt64 (x : ℚ) : UInt64 := UInt64.ofNat (min ⌊x⌋₊ (2 ^ 64 - 1))

/-- The integer nearest to the nonnegative `x`, ties away from zero. -/
def roundHalfUp (x : ℚ) : ℚ := (⌊x + 1 / 2⌋ : ℤ)

variable {x : ℚ}

@[simp] theorem round_zero : round 0 = 0 := by simp [round, roundEven]

@[simp] theorem ofUInt64_zero : ofUInt64 0 = 0 := by simp [ofUInt64]

theorem abs_roundEven_sub (x : ℚ) : |(roundEven x : ℚ) - x| ≤ 1 / 2 := by
  have hlo := Int.floor_le x
  have hhi := Int.lt_floor_add_one x
  simp only [roundEven]
  rw [abs_le]
  split_ifs <;> push_cast <;> constructor <;> linarith

theorem two_pow_log2_floor_le (hx : 1 ≤ x) : (2 : ℚ) ^ Nat.log2 ⌊x⌋₊ ≤ x := by
  have hfloor : ⌊x⌋₊ ≠ 0 := (Nat.floor_pos.mpr hx).ne'
  calc (2 : ℚ) ^ Nat.log2 ⌊x⌋₊ ≤ (⌊x⌋₊ : ℚ) := by exact_mod_cast Nat.log2_self_le hfloor
    _ ≤ x := Nat.floor_le (zero_le_one.trans hx)

theorem one_le_div_ulp (hx : 1 ≤ x * 2 ^ subnormalBits) : 1 ≤ x / 2 ^ ulpExponent x := by
  have hlog := two_pow_log2_floor_le hx
  have hexp : (2 : ℚ) ^ ulpExponent x * 2 ^ subnormalBits ≤ x * 2 ^ subnormalBits := by
    have hadd : (2 : ℚ) ^ ulpExponent x * 2 ^ subnormalBits =
        2 ^ (ulpExponent x + subnormalBits) := by
      rw [zpow_add₀ two_ne_zero, zpow_natCast]
    rw [hadd, ulpExponent]
    generalize x * 2 ^ subnormalBits = y at *
    rcases le_total ((Nat.log2 ⌊y⌋₊ : ℤ) - subnormalBits - 52) (-subnormalBits) with h | h
    · rw [max_eq_right h]
      simpa using hx
    · rw [max_eq_left h]
      refine le_trans ?_ hlog
      rw [← zpow_natCast]
      exact zpow_le_zpow_right₀ one_le_two (by omega)
  rw [one_le_div (zpow_pos two_pos _)]
  exact le_of_mul_le_mul_right hexp (by positivity)

theorem half_le_round (hx : 1 ≤ x * 2 ^ subnormalBits) : x / 2 ≤ round x := by
  have hy := one_le_div_ulp hx
  have herr := (abs_le.mp (abs_roundEven_sub (x / 2 ^ ulpExponent x))).1
  have hu : (0 : ℚ) < 2 ^ ulpExponent x := zpow_pos two_pos _
  have hscale : x / 2 ^ ulpExponent x * 2 ^ ulpExponent x = x := div_mul_cancel₀ _ hu.ne'
  unfold round
  calc x / 2 = x / 2 ^ ulpExponent x / 2 * 2 ^ ulpExponent x := by rw [div_mul_eq_mul_div, hscale]
    _ ≤ roundEven (x / 2 ^ ulpExponent x) * 2 ^ ulpExponent x :=
      mul_le_mul_of_nonneg_right (by linarith) hu.le

theorem round_le_two_mul (hx : 1 ≤ x * 2 ^ subnormalBits) : round x ≤ 2 * x := by
  have hy := one_le_div_ulp hx
  have herr := (abs_le.mp (abs_roundEven_sub (x / 2 ^ ulpExponent x))).2
  have hu : (0 : ℚ) < 2 ^ ulpExponent x := zpow_pos two_pos _
  have hscale : x / 2 ^ ulpExponent x * 2 ^ ulpExponent x = x := div_mul_cancel₀ _ hu.ne'
  unfold round
  calc (roundEven (x / 2 ^ ulpExponent x) : ℚ) * 2 ^ ulpExponent x
      ≤ 2 * (x / 2 ^ ulpExponent x) * 2 ^ ulpExponent x :=
        mul_le_mul_of_nonneg_right (by linarith) hu.le
    _ = 2 * x := by rw [mul_assoc, hscale]

theorem one_le_of_div {n : ℕ} (hn : n < 2 ^ 64) (hx : (1 : ℚ) ≤ x * n) : 1 ≤ x * 2 ^ subnormalBits := by
  have hx0 : 0 ≤ x := by
    by_contra hneg
    push Not at hneg
    have : x * n ≤ 0 := mul_nonpos_of_nonpos_of_nonneg hneg.le (Nat.cast_nonneg n)
    linarith
  have hle : (n : ℚ) ≤ 2 ^ subnormalBits := by
    have hbits : 64 ≤ subnormalBits := by simp [subnormalBits]
    calc (n : ℚ) ≤ (2 : ℚ) ^ 64 := by exact_mod_cast hn.le
      _ ≤ 2 ^ subnormalBits := pow_le_pow_right₀ one_le_two hbits
  exact hx.trans (mul_le_mul_of_nonneg_left hle hx0)

theorem ofUInt64_bounds {n : UInt64} (hn : 1 ≤ n.toNat) :
    (n.toNat : ℚ) / 2 ≤ ofUInt64 n ∧ ofUInt64 n ≤ 2 * n.toNat := by
  have h1 : (1 : ℚ) ≤ n.toNat := by exact_mod_cast hn
  have hx : (1 : ℚ) ≤ (n.toNat : ℚ) * 2 ^ subnormalBits :=
    one_le_of_div (n := 1) (by norm_num) (by simpa using h1)
  exact ⟨half_le_round hx, round_le_two_mul hx⟩

theorem toNat_toUInt64_le (x : ℚ) (hx : 0 ≤ x) : ((toUInt64 x).toNat : ℚ) ≤ x := by
  have hlt : min ⌊x⌋₊ (2 ^ 64 - 1) < 2 ^ 64 := lt_of_le_of_lt (min_le_right _ _) (by norm_num)
  rw [toUInt64, UInt64.toNat_ofNat_of_lt' hlt]
  calc ((min ⌊x⌋₊ (2 ^ 64 - 1) : ℕ) : ℚ) ≤ (⌊x⌋₊ : ℚ) := by exact_mod_cast min_le_left _ _
    _ ≤ x := Nat.floor_le hx

end Binary64
