import Fibre.Math.Binary64
import Fibre.Math.Word

/-!
# Capacity shares

How a cache's capacity is split: over the shards, and within a shard over the segments of
its policy. The shares of the segments and the policy's capacity are computed in binary64;
the shard's budget is not.
-/

namespace Fibre.Cache

open Binary64 Word

/-- The binary64 constant `0.01`. -/
def onePercent : ℚ := 5764607523034235 / 2 ^ 59

/-- The binary64 constant `0.20`. -/
def twentyPercent : ℚ := 7205759403792794 / 2 ^ 55

/-- `(n as f64 * share).round() as u64`, at least 1. -/
def roundedShare (n : UInt64) (share : ℚ) : UInt64 :=
  max (toUInt64 (roundHalfUp (Binary64.round (ofUInt64 n * share)))) 1

/-- The window's target for a policy of `capacity`. -/
def windowTarget (capacity : UInt64) : UInt64 :=
  if capacity = 0 then 0 else roundedShare capacity onePercent

/-- The protected segment's capacity when the main segments have `main`. -/
def protCapacity (main : UInt64) : UInt64 :=
  if main = 0 then 0 else satSub main (roundedShare main twentyPercent)

/-- What a shard may hold of a cache of `capacity`, where `u64::MAX` means unbounded. -/
def shardBudget (capacity shards : UInt64) : UInt64 :=
  if capacity = -1 then -1 else max (capacity / shards) 1

/-- The capacity the builder gives each shard's policy. -/
def builtinCapacity (capacity shards : UInt64) : UInt64 :=
  toUInt64 ⌈Binary64.round (ofUInt64 capacity / ofUInt64 shards)⌉

theorem builtinCapacity_le {capacity shards : UInt64} (hc : 1 ≤ capacity.toNat)
    (hs : 1 ≤ shards.toNat) :
    ((builtinCapacity capacity shards).toNat : ℚ) ≤ 8 * (capacity.toNat / shards.toNat) + 1 := by
  obtain ⟨hc1, hc2⟩ := ofUInt64_bounds hc
  obtain ⟨hs1, hs2⟩ := ofUInt64_bounds hs
  have hcQ : (1 : ℚ) ≤ capacity.toNat := by exact_mod_cast hc
  have hsQ : (1 : ℚ) ≤ shards.toNat := by exact_mod_cast hs
  have hspos : 0 < ofUInt64 shards := by linarith
  set r : ℚ := ofUInt64 capacity / ofUInt64 shards with hr
  have hr2 : r ≤ 4 * (capacity.toNat / shards.toNat) := by
    rw [hr, div_le_iff₀ hspos]
    calc ofUInt64 capacity ≤ 2 * capacity.toNat := hc2
      _ = 4 * (capacity.toNat / shards.toNat) * (shards.toNat / 2) := by field_simp; ring
      _ ≤ 4 * (capacity.toNat / shards.toNat) * ofUInt64 shards :=
        mul_le_mul_of_nonneg_left hs1 (by positivity)
  have hrange : 1 ≤ r * 2 ^ subnormalBits := by
    have hlow : (1 : ℚ) / 4 ≤ r * shards.toNat := by
      rw [hr, div_mul_eq_mul_div, le_div_iff₀ hspos]
      nlinarith
    have hbits : (2 : ℚ) ^ 66 ≤ 2 ^ subnormalBits :=
      pow_le_pow_right₀ one_le_two (by simp [subnormalBits])
    have hshards : (shards.toNat : ℚ) ≤ 2 ^ 64 := by exact_mod_cast shards.toNat_lt.le
    have hr0 : 0 ≤ r := div_nonneg (by linarith) hspos.le
    calc (1 : ℚ) = 4 * (1 / 4) := by norm_num
      _ ≤ 4 * (r * shards.toNat) := by linarith
      _ ≤ 4 * (r * 2 ^ 64) := by gcongr
      _ = r * 2 ^ 66 := by ring
      _ ≤ r * 2 ^ subnormalBits := mul_le_mul_of_nonneg_left hbits hr0
  have hround := round_le_two_mul hrange
  have hceil := Int.ceil_lt_add_one (Binary64.round r)
  have hpos : (0 : ℚ) ≤ ⌈Binary64.round r⌉ := by
    have hhalf := half_le_round hrange
    have hr0 : 0 ≤ r := div_nonneg (by linarith) hspos.le
    exact le_trans (by linarith) (Int.le_ceil _)
  have hto := toNat_toUInt64_le _ hpos
  unfold builtinCapacity
  linarith

theorem roundedShare_onePercent_le {n : UInt64} (hn : 1 ≤ n.toNat) :
    ((roundedShare n onePercent).toNat : ℚ) ≤ max ((n.toNat : ℚ) / 20 + 1 / 2) 1 := by
  obtain ⟨h1, h2⟩ := ofUInt64_bounds hn
  have hnQ : (1 : ℚ) ≤ n.toNat := by exact_mod_cast hn
  set x : ℚ := ofUInt64 n * onePercent with hx
  have hshare : (1 : ℚ) / 101 ≤ onePercent ∧ onePercent ≤ 1 / 80 := by
    unfold onePercent
    constructor <;> norm_num
  have hlow : (1 : ℚ) / 202 ≤ x := by
    rw [hx]
    nlinarith
  have hupp : x ≤ n.toNat / 40 := by
    rw [hx]
    nlinarith
  have hrange : 1 ≤ x * 2 ^ subnormalBits := by
    have hbits : (2 : ℚ) ^ 8 ≤ 2 ^ subnormalBits :=
      pow_le_pow_right₀ one_le_two (by simp [subnormalBits])
    nlinarith
  have hround := round_le_two_mul hrange
  have hhalf := half_le_round hrange
  have hfloor : (0 : ℚ) ≤ roundHalfUp (Binary64.round x) := by
    unfold roundHalfUp
    have : (0 : ℤ) ≤ ⌊Binary64.round x + 1 / 2⌋ := Int.floor_nonneg.mpr (by linarith)
    exact_mod_cast this
  have hle : roundHalfUp (Binary64.round x) ≤ n.toNat / 20 + 1 / 2 := by
    unfold roundHalfUp
    have := Int.floor_le (Binary64.round x + 1 / 2)
    linarith
  have hto := toNat_toUInt64_le _ hfloor
  unfold roundedShare
  rw [toNat_max, Nat.cast_max]
  exact max_le_max (hto.trans hle) (by simp)

theorem windowTarget_le_shardBudget (capacity shards : UInt64) :
    windowTarget (builtinCapacity capacity shards) ≤ shardBudget capacity shards := by
  set n := builtinCapacity capacity shards with hn
  by_cases hcs : 1 ≤ capacity.toNat ∧ 1 ≤ shards.toNat
  · obtain ⟨hc, hs⟩ := hcs
    unfold windowTarget shardBudget
    rw [UInt64.le_iff_toNat_le]
    split_ifs with h0 hmax
    · exact Nat.zero_le _
    · exact Nat.zero_le _
    · have := (roundedShare n onePercent).toNat_lt
      simp only [show (-1 : UInt64).toNat = 2 ^ 64 - 1 from rfl]
      omega
    · have hn1 : 1 ≤ n.toNat := by
        rcases Nat.eq_zero_or_pos n.toNat with h | h
        · exact absurd (UInt64.toNat_inj.mp h) h0
        · exact h
      have hcap := builtinCapacity_le hc hs
      have hshare := roundedShare_onePercent_le hn1
      -- the exact share is below the integer quotient plus one
      have hquot : (capacity.toNat : ℚ) / shards.toNat < (capacity / shards).toNat + 1 := by
        rw [UInt64.toNat_div, div_lt_iff₀ (by exact_mod_cast hs)]
        rw [mul_comm]
        exact_mod_cast Nat.lt_mul_div_succ _ hs
      rw [toNat_max]
      generalize (capacity / shards).toNat = b at hquot ⊢
      rcases le_max_iff.mp hshare with h | h
      · have hlt : ((roundedShare n onePercent).toNat : ℚ) < b + 1 := by
          have hb : (0 : ℚ) ≤ b := Nat.cast_nonneg b
          linarith
        have : (roundedShare n onePercent).toNat < b + 1 := by exact_mod_cast hlt
        exact le_max_of_le_left (by omega)
      · exact le_max_of_le_right (by exact_mod_cast h)
  · have hn0 : n = 0 := by
      have hdiv : ofUInt64 capacity / ofUInt64 shards = 0 := by
        rcases not_and_or.mp hcs with h | h
        · obtain rfl : capacity = 0 := UInt64.toNat_inj.mp (by simpa using h)
          simp
        · obtain rfl : shards = 0 := UInt64.toNat_inj.mp (by simpa using h)
          simp
      simp [hn, builtinCapacity, hdiv, toUInt64]
    simp [windowTarget, hn0]

end Fibre.Cache
