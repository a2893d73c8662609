import Mathlib.Data.Multiset.Sort
import Fibre.Stats.Histogram

/-!
# How exact a histogram is

A bucket is told by the first four bits of its values and their number of bits. The buckets lie next to
each other from zero to the largest `u64`, and the middle of one is near to all its values. A quantile
is looked for by adding up the counts of the buckets, which leads to the bucket of the value of that
rank.
-/

namespace Fibre.Stats

open List

def bucketBounds (index : ℕ) : ℕ × ℕ :=
  if index < SUB_BUCKETS then (index, index)
  else
    let octave := index / SUB_BUCKETS
    if octave < SUB_BUCKET_BITS then (0, 0)
    else
      let sub := index % SUB_BUCKETS
      let shift := octave - SUB_BUCKET_BITS
      let lower := (SUB_BUCKETS + sub) <<< shift
      let upper := lower + ((1 <<< shift) - 1)
      (lower, upper)

def mid (index : ℕ) : ℕ :=
  let (lower, upper) := bucketBounds index
  lower + (upper - lower) / 2

namespace Histogram

/-- Adds up the counts of the buckets until they come to the rank. -/
def walk (h : Histogram) (target : ℕ) (seen : ℕ) : List (ℕ × ℕ) → ℕ
  | [] => h.maxNs
  | (index, n) :: buckets =>
    let seen := seen + n
    if target ≤ seen then max h.minNs (min (mid index) h.maxNs)
    else walk h target seen buckets

/-- The duration of the rank that a quantile makes of the count. -/
def quantile (h : Histogram) (target : ℕ) : Option ℕ :=
  if h.count = 0 then none
  else if h.count ≤ target then some h.maxNs
  else some (h.walk target 0 h.buckets.entries)

end Histogram

def Produced (index : ℕ) : Prop := index < 8 ∨ 24 ≤ index ∧ index < 512

/-! ### Buckets -/

/-- The place of the first four bits of a value, and these. -/
structure Leads (v shift q : ℕ) : Prop where
  least : 8 ≤ q
  most : q < 16
  div : v / 2 ^ shift = q

namespace Leads

variable {v w shift shift' q q' : ℕ}

theorem exists_of_le (hv : 8 ≤ v) : ∃ shift q, Leads v shift q := by
  have hne : v ≠ 0 := by omega
  have hlog : 3 ≤ Nat.log2 v := (Nat.le_log2 hne).mpr hv
  obtain ⟨shift, hshift⟩ := Nat.exists_eq_add_of_le' hlog
  have hlow := Nat.log2_self_le hne
  have hhigh := Nat.lt_log2_self (n := v)
  rw [hshift, Nat.pow_add] at hlow
  rw [hshift, Nat.add_assoc, Nat.pow_add] at hhigh
  refine ⟨shift, v / 2 ^ shift, ?_, ?_, rfl⟩
  · rw [Nat.le_div_iff_mul_le (Nat.two_pow_pos shift)]
    omega
  · rw [Nat.div_lt_iff_lt_mul (Nat.two_pow_pos shift)]
    omega

theorem iff_between (hq : 8 ≤ q) (hq' : q < 16) :
    Leads v shift q ↔ q * 2 ^ shift ≤ v ∧ v < q * 2 ^ shift + 2 ^ shift := by
  have hdiv : v / 2 ^ shift = q ↔ q * 2 ^ shift ≤ v ∧ v < q * 2 ^ shift + 2 ^ shift := by
    rw [Nat.div_eq_iff (Nat.two_pow_pos shift)]
    have hpos := Nat.two_pow_pos shift
    omega
  exact ⟨fun h => hdiv.mp h.div, fun h => ⟨hq, hq', hdiv.mpr h⟩⟩

theorem between (h : Leads v shift q) : q * 2 ^ shift ≤ v ∧ v < q * 2 ^ shift + 2 ^ shift :=
  (iff_between h.least h.most).mp h

theorem eight_le (h : Leads v shift q) : 8 ≤ v := by
  have hpos := Nat.two_pow_pos shift
  have hmul := Nat.mul_le_mul h.least hpos
  have hbetween := h.between
  omega

theorem log2 (h : Leads v shift q) : Nat.log2 v = shift + 3 := by
  have hge := h.eight_le
  have hlow := Nat.mul_le_mul_right (2 ^ shift) h.least
  have hhigh := Nat.mul_le_mul_right (2 ^ shift) (Nat.succ_le_of_lt h.most)
  rw [Nat.succ_mul] at hhigh
  have hbetween := h.between
  rw [Nat.log2_eq_iff (by omega), Nat.add_assoc, Nat.pow_add, Nat.pow_add]
  omega

theorem bucketIndex_eq (h : Leads v shift q) : bucketIndex v = (shift + 3) * 8 + (q - 8) := by
  have hge := h.eight_le
  have hleast := h.least
  have hmost := h.most
  have hsub : q &&& 7 = q - 8 := by
    rw [Nat.and_two_pow_sub_one_eq_mod q 3]
    omega
  have hsmall : ¬ v < SUB_BUCKETS := Nat.not_lt_of_le hge
  rw [bucketIndex, if_neg hsmall, h.log2]
  dsimp only
  rw [SUB_BUCKET_BITS, Nat.add_sub_cancel, Nat.shiftRight_eq_div_pow, h.div]
  exact congrArg ((shift + 3) * 8 + ·) hsub

theorem mono (h : Leads v shift q) (h' : Leads w shift' q') (hle : v ≤ w) :
    (shift + 3) * 8 + (q - 8) ≤ (shift' + 3) * 8 + (q' - 8) := by
  have hmost := h.most
  have hleast' := h'.least
  rcases Nat.lt_trichotomy shift shift' with hlt | heq | hgt
  · omega
  · have hdiv := Nat.div_le_div_right (c := 2 ^ shift) hle
    rw [h.div, heq, h'.div] at hdiv
    omega
  · -- the smaller value would have more bits
    have hpow : 2 ^ shift' * 2 ≤ 2 ^ shift := by
      rw [← Nat.pow_succ]
      exact Nat.pow_le_pow_right Nat.two_pos hgt
    have hlow := Nat.mul_le_mul_right (2 ^ shift) h.least
    have hhigh := Nat.mul_le_mul_right (2 ^ shift') (Nat.succ_le_of_lt h'.most)
    rw [Nat.succ_mul] at hhigh
    have hbetween := h.between
    have hbetween' := h'.between
    omega

end Leads

theorem bucketIndex_of_lt {v : ℕ} (hv : v < 8) : bucketIndex v = v := if_pos hv

theorem bucketIndex_mono {v w : ℕ} (hle : v ≤ w) : bucketIndex v ≤ bucketIndex w := by
  rcases Nat.lt_or_ge w 8 with hw | hw
  · rw [bucketIndex_of_lt hw, bucketIndex_of_lt (Nat.lt_of_le_of_lt hle hw)]
    exact hle
  obtain ⟨shift', q', hw⟩ := Leads.exists_of_le hw
  rcases Nat.lt_or_ge v 8 with hv | hv
  · rw [bucketIndex_of_lt hv, hw.bucketIndex_eq]
    omega
  · obtain ⟨shift, q, hv⟩ := Leads.exists_of_le hv
    rw [hv.bucketIndex_eq, hw.bucketIndex_eq]
    exact hv.mono hw hle

theorem bucketBounds_of_lt {index : ℕ} (h : index < 8) : bucketBounds index = (index, index) :=
  if_pos h

theorem bucketBounds_of_lead {shift q : ℕ} (hq : 8 ≤ q) (hq' : q < 16) :
    bucketBounds ((shift + 3) * 8 + (q - 8)) =
      (q * 2 ^ shift, q * 2 ^ shift + (2 ^ shift - 1)) := by
  have hsmall : ¬ (shift + 3) * 8 + (q - 8) < SUB_BUCKETS := by
    rw [show SUB_BUCKETS = 8 from rfl]
    omega
  have hdiv : ((shift + 3) * 8 + (q - 8)) / SUB_BUCKETS = shift + 3 := by
    rw [show SUB_BUCKETS = 8 from rfl]
    omega
  have hmod : SUB_BUCKETS + ((shift + 3) * 8 + (q - 8)) % SUB_BUCKETS = q := by
    rw [show SUB_BUCKETS = 8 from rfl]
    omega
  have hoctave : ¬ shift + 3 < SUB_BUCKET_BITS := by
    rw [SUB_BUCKET_BITS]
    omega
  rw [bucketBounds, if_neg hsmall]
  dsimp only
  rw [hdiv, if_neg hoctave, hmod, SUB_BUCKET_BITS, Nat.add_sub_cancel, Nat.shiftLeft_eq,
    Nat.shiftLeft_eq, Nat.one_mul]

theorem Produced.exists_lead {index : ℕ} (h : Produced index) (hge : 8 ≤ index) :
    ∃ shift q, 8 ≤ q ∧ q < 16 ∧ shift ≤ 60 ∧ index = (shift + 3) * 8 + (q - 8) := by
  have hrange : 24 ≤ index ∧ index < 512 := h.resolve_left (Nat.not_lt_of_le hge)
  refine ⟨index / 8 - 3, 8 + index % 8, ?_, ?_, ?_, ?_⟩
  all_goals omega

/-- The bounds of a bucket hold its values and no others. -/
theorem bucketIndex_eq_iff {v index : ℕ} (h : Produced index) :
    bucketIndex v = index ↔ (bucketBounds index).1 ≤ v ∧ v ≤ (bucketBounds index).2 := by
  rcases Nat.lt_or_ge index 8 with hlt | hge
  · rw [bucketBounds_of_lt hlt]
    rcases Nat.lt_or_ge v 8 with hv | hv
    · rw [bucketIndex_of_lt hv]
      omega
    · obtain ⟨shift, q, hlead⟩ := Leads.exists_of_le hv
      rw [hlead.bucketIndex_eq]
      omega
  · obtain ⟨shift, q, hq, hq', -, rfl⟩ := h.exists_lead hge
    have hpos := Nat.two_pow_pos shift
    have hiff : Leads v shift q ↔ q * 2 ^ shift ≤ v ∧ v ≤ q * 2 ^ shift + (2 ^ shift - 1) := by
      rw [Leads.iff_between hq hq']
      omega
    rw [bucketBounds_of_lead hq hq', ← hiff]
    constructor
    · intro heq
      rcases Nat.lt_or_ge v 8 with hv | hv
      · rw [bucketIndex_of_lt hv] at heq
        omega
      · obtain ⟨shift', q', hlead⟩ := Leads.exists_of_le hv
        rw [hlead.bucketIndex_eq] at heq
        have hleast := hlead.least
        have hmost := hlead.most
        have hshift : shift' = shift := by omega
        have hsame : q' = q := by omega
        rwa [hshift, hsame] at hlead
    · exact Leads.bucketIndex_eq

theorem produced_bucketIndex {v : ℕ} (hv : v < 2 ^ 64) : Produced (bucketIndex v) := by
  rcases Nat.lt_or_ge v 8 with hlt | hge
  · rw [bucketIndex_of_lt hlt]
    exact Or.inl hlt
  · obtain ⟨shift, q, hlead⟩ := Leads.exists_of_le hge
    have hmost := hlead.most
    have hlog : Nat.log2 v < 64 := (Nat.log2_lt (by omega)).mpr hv
    rw [hlead.log2] at hlog
    rw [hlead.bucketIndex_eq]
    exact Or.inr (by omega)

theorem bounds_lt {index : ℕ} (h : Produced index) :
    (bucketBounds index).1 ≤ (bucketBounds index).2 ∧ (bucketBounds index).2 < 2 ^ 64 := by
  rcases Nat.lt_or_ge index 8 with hlt | hge
  · rw [bucketBounds_of_lt hlt]
    exact ⟨Nat.le_refl _, Nat.lt_of_lt_of_le hlt (by decide)⟩
  · obtain ⟨shift, q, hq, hq', hshift, rfl⟩ := h.exists_lead hge
    have hpos := Nat.two_pow_pos shift
    have hpow : 2 ^ shift ≤ 2 ^ 60 := Nat.pow_le_pow_right Nat.two_pos hshift
    have hhigh := Nat.mul_le_mul_right (2 ^ shift) (Nat.succ_le_of_lt hq')
    rw [Nat.succ_mul] at hhigh
    rw [bucketBounds_of_lead hq hq']
    omega

/-- The middle of a bucket is as near to a value as a sixteenth of it. -/
theorem sixteenth_mid (v : ℕ) :
    16 * mid (bucketIndex v) ≤ 17 * v ∧ 15 * v ≤ 16 * mid (bucketIndex v) := by
  rcases Nat.lt_or_ge v 8 with hlt | hge
  · rw [bucketIndex_of_lt hlt, mid, bucketBounds_of_lt hlt]
    dsimp only
    omega
  · obtain ⟨shift, q, hlead⟩ := Leads.exists_of_le hge
    have hbetween := hlead.between
    have hlow := Nat.mul_le_mul_right (2 ^ shift) hlead.least
    have heven : 2 ^ shift = 1 ∨ 2 ^ shift % 2 = 0 := by
      cases shift with
      | zero => exact Or.inl rfl
      | succ shift => exact Or.inr (by rw [Nat.pow_succ]; omega)
    rw [hlead.bucketIndex_eq, mid, bucketBounds_of_lead hlead.least hlead.most]
    dsimp only
    omega

/-- The two are no further apart than a sixteenth of the second. -/
def WithinSixteenth (x v : ℕ) : Prop := 16 * ((x : ℤ) - v).natAbs ≤ v

theorem withinSixteenth_iff {x v : ℕ} :
    WithinSixteenth x v ↔ 16 * x ≤ 17 * v ∧ 15 * v ≤ 16 * x := by
  rw [WithinSixteenth]
  omega

/-- The buckets of the `u64` values. -/
structure BucketsTile : Prop where
  contains : ∀ v : UInt64, (bucketBounds (bucketIndex v.toNat)).1 ≤ v.toNat ∧
    v.toNat ≤ (bucketBounds (bucketIndex v.toNat)).2
  mono : ∀ v w : UInt64, v ≤ w → bucketIndex v.toNat ≤ bucketIndex w.toNat
  produced : ∀ index, (∃ v : UInt64, bucketIndex v.toNat = index) ↔ Produced index
  tiles : ∀ v : UInt64, ∃! index, Produced index ∧
    (bucketBounds index).1 ≤ v.toNat ∧ v.toNat ≤ (bucketBounds index).2
  fits : ∀ index, Produced index → index < 2 ^ 16 ∧
    index / SUB_BUCKETS - SUB_BUCKET_BITS < 64 ∧
    (bucketBounds index).1 ≤ (bucketBounds index).2 ∧ (bucketBounds index).2 < 2 ^ 64
  near : ∀ v : UInt64, 8 ≤ v.toNat → WithinSixteenth (mid (bucketIndex v.toNat)) v.toNat

theorem bucketsTile : BucketsTile where
  contains v := (bucketIndex_eq_iff (produced_bucketIndex v.toNat_lt)).mp rfl
  mono _ _ hle := bucketIndex_mono (UInt64.le_iff_toNat_le.mp hle)
  produced index := by
    constructor
    · rintro ⟨v, rfl⟩
      exact produced_bucketIndex v.toNat_lt
    · intro h
      obtain ⟨hle, hlt⟩ := bounds_lt h
      refine ⟨.ofNat (bucketBounds index).1, ?_⟩
      rw [UInt64.toNat_ofNat_of_lt' (Nat.lt_of_le_of_lt hle hlt), bucketIndex_eq_iff h]
      exact ⟨Nat.le_refl _, hle⟩
  tiles v := by
    have hproduced := produced_bucketIndex v.toNat_lt
    refine ⟨bucketIndex v.toNat, ⟨hproduced, (bucketIndex_eq_iff hproduced).mp rfl⟩, ?_⟩
    rintro index ⟨h, hbounds⟩
    exact ((bucketIndex_eq_iff h).mpr hbounds).symm
  fits index h := by
    have hrange : index < 512 := h.elim (fun hlt => by omega) And.right
    refine ⟨by omega, ?_, bounds_lt h⟩
    rw [show SUB_BUCKETS = 8 from rfl, show SUB_BUCKET_BITS = 3 from rfl]
    omega
  near v _ := withinSixteenth_iff.mpr (sixteenth_mid v.toNat)

/-! ### Ranks -/

theorem getElem_iff_lt_countP {α : Type*} [Preorder α] {l : List α} (hl : l.Pairwise (· ≤ ·))
    {p : α → Prop} [DecidablePred p] (hdown : ∀ a b, a ≤ b → p b → p a) {i : ℕ} (hi : i < l.length) :
    p l[i] ↔ i < l.countP fun a => p a := by
  induction l generalizing i with
  | nil => exact absurd hi (Nat.not_lt_zero i)
  | cons a l ih =>
    obtain ⟨hle, hl⟩ := pairwise_cons.mp hl
    by_cases ha : p a
    · rw [countP_cons, if_pos (decide_eq_true ha)]
      cases i with
      | zero => exact iff_of_true ha (Nat.succ_pos _)
      | succ i => exact (ih hl (Nat.lt_of_succ_lt_succ hi)).trans Nat.succ_lt_succ_iff.symm
    · -- the first one does not have it, so no other one has
      have hnone : ∀ b ∈ l, ¬ p b := fun b hb hp => ha (hdown a b (hle b hb) hp)
      have hzero : (l.countP fun a => p a) = 0 := by
        rw [countP_eq_zero]
        intro b hb
        simpa using hnone b hb
      rw [countP_cons, hzero, if_neg (by simpa using ha)]
      cases i with
      | zero => exact iff_of_false ha (Nat.lt_irrefl 0)
      | succ i => exact iff_of_false (hnone _ (getElem_mem _)) (Nat.not_lt_zero _)

theorem countP_eq_add {α : Type*} {l : List α} {p q r : α → Prop} [DecidablePred p]
    [DecidablePred q] [DecidablePred r] (hor : ∀ a, r a ↔ p a ∨ q a) (hnot : ∀ a, p a → ¬ q a) :
    (l.countP fun a => r a) = (l.countP fun a => p a) + l.countP fun a => q a := by
  induction l with
  | nil => rfl
  | cons a l ih =>
    rw [countP_cons, countP_cons, countP_cons, ih]
    by_cases hp : p a
    · have hr : r a := (hor a).mpr (Or.inl hp)
      simp only [hp, hr, hnot a hp, decide_true, decide_false, if_true, Bool.false_eq_true, if_false]
      omega
    · have hr : r a ↔ q a := (hor a).trans (or_iff_right hp)
      simp only [hp, hr, decide_false, Bool.false_eq_true, if_false]
      omega

namespace Histogram

/-- The walk ends at the bucket of the rank: fewer values are below it, and as many are in it or
below. -/
theorem walk_spec (h : Histogram) {l : List ℕ} {target : ℕ} (htarget : target ≤ l.length)
    {buckets : List (ℕ × ℕ)}
    (hsorted : (buckets.map Prod.fst).Pairwise (· < ·))
    (hcounts : ∀ e ∈ buckets, e.2 = l.countP fun v => bucketIndex v = e.1) {seen : ℕ}
    (hseen : seen = l.countP fun v => bucketIndex v ∉ buckets.map Prod.fst)
    (hbelow : ∀ v ∈ l, bucketIndex v ∉ buckets.map Prod.fst →
      ∀ index ∈ buckets.map Prod.fst, bucketIndex v < index)
    (hlt : seen < target) :
    ∃ index, h.walk target seen buckets = max h.minNs (min (mid index) h.maxNs) ∧
      (l.countP fun v => bucketIndex v < index) < target ∧
      target ≤ l.countP fun v => bucketIndex v ≤ index := by
  induction buckets generalizing seen with
  | nil =>
    -- all values have been seen
    have hall : (l.countP fun v => bucketIndex v ∉ ([] : List (ℕ × ℕ)).map Prod.fst) = l.length := by
      rw [countP_eq_length]
      intro v _
      simp
    omega
  | cons e buckets ih =>
    obtain ⟨index, n⟩ := e
    rw [map_cons, pairwise_cons] at hsorted
    obtain ⟨hfirst, hsorted⟩ := hsorted
    have hnot : index ∉ buckets.map Prod.fst := fun hmem => Nat.lt_irrefl _ (hfirst index hmem)
    have hn : n = l.countP fun v => bucketIndex v = index := hcounts _ mem_cons_self
    have hseen' : seen + n = l.countP fun v => bucketIndex v ∉ buckets.map Prod.fst := by
      rw [hseen, hn]
      refine (countP_eq_add (fun v => ?_) fun v hv heq => ?_).symm
      · rw [map_cons, mem_cons, not_or]
        by_cases heq : bucketIndex v = index
        · simp [heq, hnot]
        · simp [heq]
      · rw [map_cons, mem_cons, not_or] at hv
        exact hv.1 heq
    have hbelow' : ∀ v ∈ l, bucketIndex v ∉ buckets.map Prod.fst → bucketIndex v ≤ index := by
      intro v hv hrest
      by_cases heq : bucketIndex v = index
      · exact heq.le
      · exact (hbelow v hv (by simpa [heq] using hrest) index (by simp)).le
    rw [walk]
    split_ifs with hle
    · refine ⟨index, rfl, ?_, ?_⟩
      · refine Nat.lt_of_le_of_lt ?_ hlt
        rw [hseen]
        refine countP_mono_left fun v _ hv => ?_
        have hv := of_decide_eq_true hv
        refine decide_eq_true fun hmem => ?_
        rcases mem_cons.mp hmem with heq | hmem
        · exact hv.ne heq
        · exact Nat.lt_asymm hv (hfirst _ hmem)
      · refine hle.trans ?_
        rw [hseen']
        refine countP_mono_left fun v hv hrest => ?_
        exact decide_eq_true (hbelow' v hv (of_decide_eq_true hrest))
    · refine ih hsorted (fun e he => hcounts e (mem_cons_of_mem _ he)) hseen' ?_
        (Nat.lt_of_not_le hle)
      intro v hv hrest index' hindex'
      exact Nat.lt_of_le_of_lt (hbelow' v hv hrest) (hfirst index' hindex')

end Histogram

namespace Build

variable {b : Build} {rank : ℕ}

theorem count_of_mem (hcounts : ∀ index, inBucket b.values index < 2 ^ 32) {e : ℕ × ℕ}
    (he : e ∈ b.eval.buckets.entries) :
    e.2 = b.values.sort.countP fun v => bucketIndex v = e.1 := by
  have hfind := (b.describes.bucket e.1).symm.trans (SortedMap.mem_entries.mp he)
  have hlt := hcounts e.1
  rw [← Multiset.coe_countP, Multiset.sort_eq, ← inBucket]
  rw [bucketCount] at hfind
  split_ifs at hfind
  rw [← Option.some.inj hfind]
  exact min_eq_left (Nat.le_of_lt_succ hlt)

theorem mem_keys {v : ℕ} (hv : v ∈ b.values.sort) :
    bucketIndex v ∈ b.eval.buckets.entries.map Prod.fst := by
  have hpos : 0 < inBucket b.values (bucketIndex v) :=
    Multiset.countP_pos.mpr ⟨v, (Multiset.mem_sort (· ≤ ·)).mp hv, rfl⟩
  by_contra hnot
  have hfind := SortedMap.find_eq_none.mpr hnot
  rw [b.describes.bucket, bucketCount, if_neg hpos.ne'] at hfind
  cases hfind

theorem walk_eq (hcounts : ∀ index, inBucket b.values index < 2 ^ 32) (hpos : 1 ≤ rank)
    (hrank : rank - 1 < b.values.sort.length) :
    b.eval.walk rank 0 b.eval.buckets.entries =
      max b.eval.minNs (min (mid (bucketIndex b.values.sort[rank - 1])) b.eval.maxNs) := by
  have hsorted := Multiset.pairwise_sort b.values (· ≤ ·)
  have hnone : (b.values.sort.countP fun v =>
      bucketIndex v ∉ b.eval.buckets.entries.map Prod.fst) = 0 := by
    rw [countP_eq_zero]
    intro v hv
    simpa using mem_keys hv
  obtain ⟨index, hwalk, hless, hmore⟩ := Histogram.walk_spec b.eval
    (show rank ≤ b.values.sort.length by omega) b.eval.buckets.sorted
    (fun e he => count_of_mem hcounts he) hnone.symm
    (fun v hv hnot => absurd (mem_keys hv) hnot) hpos
  have hle : bucketIndex b.values.sort[rank - 1] ≤ index :=
    (getElem_iff_lt_countP hsorted (fun _ _ hle hw => (bucketIndex_mono hle).trans hw) hrank).mpr
      (by omega)
  have hge : ¬ bucketIndex b.values.sort[rank - 1] < index := fun hlt => by
    have hcount := (getElem_iff_lt_countP hsorted
      (fun _ _ hle hw => Nat.lt_of_le_of_lt (bucketIndex_mono hle) hw) hrank).mp hlt
    omega
  rw [hwalk, Nat.le_antisymm hle (Nat.not_lt.mp hge)]

theorem getElem_last (hrank : rank - 1 < b.values.sort.length) (hlast : b.values.card ≤ rank) :
    b.values.sort[rank - 1] = b.eval.maxNs := by
  have hmem := (Multiset.mem_sort (· ≤ ·)).mp (getElem_mem hrank)
  have hlen := Multiset.length_sort (s := b.values) (· ≤ ·)
  have hne : b.values ≠ 0 := Multiset.card_pos.mp (by omega)
  obtain ⟨hmax, hgreatest⟩ := b.describes.greatest hne
  obtain ⟨i, hi, heq⟩ := mem_iff_getElem.mp ((Multiset.mem_sort (· ≤ ·)).mpr hmax)
  refine Nat.le_antisymm (hgreatest _ hmem) ?_
  rw [← heq]
  rcases Nat.lt_or_ge i (rank - 1) with hlt | hge
  · exact pairwise_iff_getElem.mp (Multiset.pairwise_sort b.values (· ≤ ·)) _ _ hi hrank hlt
  · have hsame : i = rank - 1 := by omega
    simp only [hsame]
    exact Nat.le_refl _

/-- The buckets are those of all `u64` values, each near to its values. So a quantile of a histogram
is near to the recorded value of its rank, however the histogram was built. -/
theorem accurate : BucketsTile ∧ ∀ b : Build, (∀ index, inBucket b.values index < 2 ^ 32) →
    ∀ rank, 1 ≤ rank → rank ≤ b.values.card →
      ∃ x v, b.eval.quantile rank = some x ∧ b.values.sort[rank - 1]? = some v ∧
        b.eval.minNs ≤ x ∧ x ≤ b.eval.maxNs ∧ WithinSixteenth x v := by
  refine ⟨bucketsTile, fun b hcounts rank hpos hcard => ?_⟩
  have hlen := Multiset.length_sort (s := b.values) (· ≤ ·)
  have hrank : rank - 1 < b.values.sort.length := by omega
  have hmem := (Multiset.mem_sort (· ≤ ·)).mp (List.getElem_mem hrank)
  have hne : b.values ≠ 0 := Multiset.card_pos.mp (Nat.lt_of_lt_of_le hpos hcard)
  have hmin := (b.describes.least hne).2 _ hmem
  have hmax := (b.describes.greatest hne).2 _ hmem
  have hcount : b.eval.count ≠ 0 := mt b.describes.count_eq_zero.mp hne
  have hnear := sixteenth_mid b.values.sort[rank - 1]
  have hget := List.getElem?_eq_getElem hrank
  rw [Histogram.quantile, if_neg hcount, b.describes.count]
  split_ifs with hlast
  · have heq := getElem_last hrank hlast
    refine ⟨_, _, rfl, hget, hmin.trans hmax, Nat.le_refl _, withinSixteenth_iff.mpr ?_⟩
    omega
  · refine ⟨_, _, congrArg some (walk_eq hcounts hpos hrank), hget, ?_, ?_,
      withinSixteenth_iff.mpr ?_⟩
    all_goals omega

/-- The second of three durations. -/
theorem accurate_three : ∃ x v,
    ((((Build.new.add 1000).merge (Build.new.add 70)).add 300).eval.quantile 2) = some x ∧
      (((Build.new.add 1000).merge (Build.new.add 70)).add 300).values.sort[1]? = some v ∧
      WithinSixteenth x v := by
  have hcounts : ∀ index,
      inBucket (((Build.new.add 1000).merge (Build.new.add 70)).add 300).values index < 2 ^ 32 :=
    fun _ => Nat.lt_of_le_of_lt (Multiset.countP_le_card _ _) (by decide)
  obtain ⟨x, v, hx, hv, -, -, hnear⟩ := accurate.2 _ hcounts 2 (by decide) (by decide)
  exact ⟨x, v, hx, hv, hnear⟩

end Build

end Fibre.Stats
