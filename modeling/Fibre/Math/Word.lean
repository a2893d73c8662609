import Mathlib.Data.UInt
import Mathlib.Algebra.Order.Floor.Div
import Mathlib.Data.Nat.Bitwise

/-!
# Machine words

The 64-bit operations the core library lacks, with their values as natural numbers.
-/

namespace Word

/-- Subtraction that stops at zero. -/
def satSub (a b : UInt64) : UInt64 := if b ≤ a then a - b else 0

/-- Addition that stops at the largest word. -/
def satAdd (a b : UInt64) : UInt64 := if a ≤ a + b then a + b else -1

/-- Division rounding up. -/
def divCeil (a b : UInt64) : UInt64 := a / b + if a % b = 0 then 0 else 1

/-- The least power of two at or above `n`. Past `2 ^ 63` it wraps to 0, as it does without
overflow checks. -/
def nextPowerOfTwo (n : UInt64) : UInt64 :=
  if n ≤ 1 then 1 else UInt64.ofNat (2 ^ (Nat.log2 (n.toNat - 1) + 1))

theorem toNat_satSub (a b : UInt64) : (satSub a b).toNat = a.toNat - b.toNat := by
  unfold satSub
  split_ifs with h
  · rw [UInt64.toNat_sub_of_le _ _ h]
  · have : a.toNat < b.toNat := by simpa [UInt64.le_iff_toNat_le] using h
    simp only [UInt64.toNat_zero]
    omega

theorem toNat_add_le (a b : UInt64) : (a + b).toNat ≤ a.toNat + b.toNat := by
  rw [UInt64.toNat_add]
  exact Nat.mod_le _ _

theorem toNat_mul_le (a b : UInt64) : (a * b).toNat ≤ a.toNat * b.toNat := by
  rw [UInt64.toNat_mul]
  exact Nat.mod_le _ _

theorem toNat_ofNat_le (n : ℕ) : (UInt64.ofNat n).toNat ≤ n := by
  rw [UInt64.toNat_ofNat']
  exact Nat.mod_le _ _

theorem toNat_satAdd_le (a b : UInt64) : (satAdd a b).toNat ≤ a.toNat + b.toNat := by
  unfold satAdd
  split_ifs with h
  · exact toNat_add_le a b
  · -- a sum below one of its parts has wrapped
    rw [UInt64.le_iff_toNat_le, UInt64.toNat_add] at h
    have hmax := (-1 : UInt64).toNat_lt
    have ha := a.toNat_lt
    omega

theorem satSub_eq_sub {a b : UInt64} (h : b ≤ a) : satSub a b = a - b := if_pos h

theorem toNat_divCeil (a : UInt64) {b : UInt64} (hb : 0 < b.toNat) :
    (divCeil a b).toNat = a.toNat ⌈/⌉ b.toNat := by
  have ha : a.toNat < 2 ^ 64 := a.toNat_lt
  have hdiv := Nat.div_add_mod a.toNat b.toNat
  have hmod := Nat.mod_lt a.toNat hb
  have hle : a.toNat / b.toNat ≤ a.toNat := Nat.div_le_self _ _
  have hzero : a % b = 0 ↔ a.toNat % b.toNat = 0 := by
    rw [← UInt64.toNat_inj, UInt64.toNat_mod]
    rfl
  rw [Nat.ceilDiv_eq_add_pred_div, divCeil]
  by_cases h : a.toNat % b.toNat = 0
  · rw [if_pos (hzero.mpr h), UInt64.add_zero, UInt64.toNat_div]
    apply (Nat.div_eq_of_lt_le _ _).symm
    · rw [mul_comm]
      omega
    · rw [add_mul, mul_comm]
      omega
  · have hb₂ : 2 ≤ b.toNat := by
      by_contra hlt
      have : b.toNat = 1 := by omega
      simp [this, Nat.mod_one] at h
    have hquot : a.toNat / b.toNat < 2 ^ 63 := by
      apply Nat.div_lt_of_lt_mul
      calc a.toNat < 2 * 2 ^ 63 := by omega
        _ ≤ b.toNat * 2 ^ 63 := Nat.mul_le_mul_right _ hb₂
    rw [if_neg (mt hzero.mp h), UInt64.toNat_add, UInt64.toNat_div, UInt64.toNat_one,
      Nat.mod_eq_of_lt (by omega)]
    apply (Nat.div_eq_of_lt_le _ _).symm
    · rw [add_mul, mul_comm]
      omega
    · rw [add_mul, add_mul, mul_comm]
      omega

theorem toNat_max (a b : UInt64) : (max a b).toNat = max a.toNat b.toNat := by
  show (if a ≤ b then b else a).toNat = _
  split_ifs with h
  · rw [max_eq_right (UInt64.le_iff_toNat_le.mp h)]
  · rw [max_eq_left]
    simp only [UInt64.le_iff_toNat_le, not_le] at h
    exact h.le

theorem toNat_min (a b : UInt64) : (min a b).toNat = min a.toNat b.toNat := by
  show (if a ≤ b then a else b).toNat = _
  split_ifs with h
  · rw [min_eq_left (UInt64.le_iff_toNat_le.mp h)]
  · rw [min_eq_right]
    simp only [UInt64.le_iff_toNat_le, not_le] at h
    exact h.le

theorem toNat_two_pow {k : ℕ} (hk : k < 64) : (UInt64.ofNat (2 ^ k)).toNat = 2 ^ k := by
  rw [UInt64.toNat_ofNat', Nat.mod_eq_of_lt (Nat.pow_lt_pow_right (by decide) hk)]

theorem toNat_two_pow_sub_one {k : ℕ} (hk : k < 64) :
    (UInt64.ofNat (2 ^ k) - 1).toNat = 2 ^ k - 1 := by
  have hone : (1 : UInt64).toNat = 1 := rfl
  have hpos : 0 < 2 ^ k := Nat.two_pow_pos k
  rw [UInt64.toNat_sub_of_le _ _ (by rw [UInt64.le_iff_toNat_le, toNat_two_pow hk, hone]; omega),
    toNat_two_pow hk, hone]

theorem nextPowerOfTwo_eq {n : UInt64} (hle : n.toNat ≤ 2 ^ 63) :
    ∃ k < 64, n.toNat ≤ 2 ^ k ∧ nextPowerOfTwo n = UInt64.ofNat (2 ^ k) := by
  have hone : (1 : UInt64).toNat = 1 := rfl
  by_cases hsmall : n ≤ 1
  · refine ⟨0, by decide, ?_, by rw [nextPowerOfTwo, if_pos hsmall]; rfl⟩
    simpa [UInt64.le_iff_toNat_le] using hsmall
  · have hlarge := hsmall
    rw [UInt64.le_iff_toNat_le, hone, not_le] at hlarge
    have hne : n.toNat - 1 ≠ 0 := by omega
    have hupper := Nat.lt_log2_self (n := n.toNat - 1)
    have hlog : Nat.log2 (n.toNat - 1) < 63 := by
      rw [Nat.log2_lt hne]
      omega
    exact ⟨Nat.log2 (n.toNat - 1) + 1, by omega, by omega, by rw [nextPowerOfTwo, if_neg hsmall]⟩

theorem nextPowerOfTwo_eq_zero {n : UInt64} (hlt : 2 ^ 63 < n.toNat) : nextPowerOfTwo n = 0 := by
  have hmax : n.toNat < 2 ^ 64 := n.toNat_lt
  have hone : (1 : UInt64).toNat = 1 := rfl
  have hlog : Nat.log2 (n.toNat - 1) = 63 := by
    rw [Nat.log2_eq_iff (by omega)]
    omega
  rw [nextPowerOfTwo, if_neg, hlog]
  · rfl
  · rw [UInt64.le_iff_toNat_le, hone]
    omega

theorem toNat_add_and {m : UInt64} {k : ℕ} (hm : m.toNat = 2 ^ k - 1) (hk : k < 64) (a : UInt64)
    (j : ℕ) : ((a + UInt64.ofNat j) &&& m).toNat = (a.toNat + j) % 2 ^ k := by
  have hdvd : 2 ^ k ∣ 2 ^ 64 := pow_dvd_pow 2 hk.le
  rw [UInt64.toNat_and, hm, Nat.and_two_pow_sub_one_eq_mod, UInt64.toNat_add,
    UInt64.toNat_ofNat', Nat.mod_mod_of_dvd _ hdvd, Nat.add_mod, Nat.mod_mod_of_dvd _ hdvd,
    ← Nat.add_mod]

theorem add_and_ne {m : UInt64} {k : ℕ} (hm : m.toNat = 2 ^ k - 1) (hk : k < 64) (a : UInt64)
    {i j : ℕ} (hij : i < j) (hlt : j < i + 2 ^ k) :
    (a + UInt64.ofNat i) &&& m ≠ (a + UInt64.ofNat j) &&& m := by
  intro heq
  have hmod := congrArg UInt64.toNat heq
  rw [toNat_add_and hm hk, toNat_add_and hm hk] at hmod
  have hdvd := (Nat.modEq_iff_dvd' (by omega)).mp hmod
  have hle := Nat.le_of_dvd (by omega) hdvd
  omega

theorem add_ofNat_succ (a : UInt64) (j : ℕ) :
    a + UInt64.ofNat (j + 1) = a + UInt64.ofNat j + 1 := by
  rw [UInt64.ofNat_add, ← add_assoc]
  rfl

end Word
