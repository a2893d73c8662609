import Mathlib.Algebra.BigOperators.Group.Multiset.Basic
import Fibre.Stats.Book

/-!
# Histograms are merged in any order

A histogram is built from values and from other histograms. What it is then depends on the values
alone, as a multiset: their number and sum, the least and the greatest of them, and how many of them
there are in each bucket.
-/

namespace Fibre.Stats

open List

namespace Histogram

/-- The buckets of another histogram come to the ones there are. -/
def mergeBuckets (buckets : SortedMap ℕ ℕ) (other : List (ℕ × ℕ)) : SortedMap ℕ ℕ :=
  other.foldl (fun buckets (index, n) => buckets.alter index fun
    | some k => min (k + n) U32_MAX
    | none => n) buckets

def merge (h other : Histogram) : Histogram :=
  if other.count = 0 then h
  else if h.count = 0 then other
  else {
    count := h.count + other.count
    sumNs := min (h.sumNs + other.sumNs) U64_MAX
    minNs := min h.minNs other.minNs
    maxNs := max h.maxNs other.maxNs
    buckets := mergeBuckets h.buckets other.buckets.entries }

end Histogram

/-- A way to build a histogram. The values are nanoseconds. -/
inductive Build
  | new
  | add (b : Build) (ns : UInt64)
  | merge (a b : Build)

namespace Build

/-- What is built. -/
def eval : Build → Histogram
  | .new => .new
  | .add b ns => b.eval.addNs ns.toNat
  | .merge a b => a.eval.merge b.eval

def values : Build → Multiset ℕ
  | .new => 0
  | .add b ns => ns.toNat ::ₘ b.values
  | .merge a b => a.values + b.values

end Build

/-- How many of the values fall into a bucket. -/
def inBucket (values : Multiset ℕ) (index : ℕ) : ℕ := values.countP fun v => bucketIndex v = index

theorem inBucket_cons (ns : ℕ) (values : Multiset ℕ) (index : ℕ) :
    inBucket (ns ::ₘ values) index =
      if bucketIndex ns = index then inBucket values index + 1 else inBucket values index := by
  rw [inBucket, Multiset.countP_cons]
  split_ifs
  · rfl
  · rfl

/-- The count that a histogram has for so many values. A bucket without a value is not there. -/
def bucketCount (n : ℕ) : Option ℕ := if n = 0 then none else some (min n U32_MAX)

namespace Histogram

variable {h h' : Histogram} {values values' : Multiset ℕ} {index n : ℕ}

structure Describes (h : Histogram) (values : Multiset ℕ) : Prop where
  count : h.count = values.card
  sum : h.sumNs = min values.sum U64_MAX
  empty : values = 0 → h.minNs = 0 ∧ h.maxNs = 0
  least : values ≠ 0 → h.minNs ∈ values ∧ ∀ v ∈ values, h.minNs ≤ v
  greatest : values ≠ 0 → h.maxNs ∈ values ∧ ∀ v ∈ values, v ≤ h.maxNs
  bucket : ∀ index, h.buckets.find index = bucketCount (inBucket values index)

namespace Describes

theorem eq (hd : h.Describes values) (hd' : h'.Describes values) : h = h' := by
  have hcount : h.count = h'.count := hd.count.trans hd'.count.symm
  have hsum : h.sumNs = h'.sumNs := hd.sum.trans hd'.sum.symm
  have hbuckets : h.buckets = h'.buckets :=
    SortedMap.ext_find fun index => (hd.bucket index).trans (hd'.bucket index).symm
  have hends : h.minNs = h'.minNs ∧ h.maxNs = h'.maxNs := by
    by_cases hempty : values = 0
    · obtain ⟨hmin, hmax⟩ := hd.empty hempty
      obtain ⟨hmin', hmax'⟩ := hd'.empty hempty
      exact ⟨hmin.trans hmin'.symm, hmax.trans hmax'.symm⟩
    · obtain ⟨hmin, hleast⟩ := hd.least hempty
      obtain ⟨hmin', hleast'⟩ := hd'.least hempty
      obtain ⟨hmax, hgreatest⟩ := hd.greatest hempty
      obtain ⟨hmax', hgreatest'⟩ := hd'.greatest hempty
      exact ⟨le_antisymm (hleast _ hmin') (hleast' _ hmin),
        le_antisymm (hgreatest' _ hmax) (hgreatest _ hmax')⟩
  obtain ⟨hmin, hmax⟩ := hends
  cases h
  cases h'
  congr

theorem count_eq_zero (hd : h.Describes values) : h.count = 0 ↔ values = 0 := by
  rw [hd.count, Multiset.card_eq_zero]

theorem new : new.Describes 0 where
  count := rfl
  sum := rfl
  empty _ := ⟨rfl, rfl⟩
  least hne := absurd rfl hne
  greatest hne := absurd rfl hne
  bucket _ := rfl

theorem bucketCount_succ (n : ℕ) :
    (match bucketCount n with
      | some k => min (k + 1) U32_MAX
      | none => 1) = min (n + 1) U32_MAX := by
  unfold bucketCount
  split_ifs with hzero
  · rw [hzero]
    rfl
  · have hle := min_le_left n U32_MAX
    rcases min_choice n U32_MAX with heq | heq
    · simp only [heq]
    · simp only [heq]
      omega

theorem add (hd : h.Describes values) (ns : ℕ) : (h.addNs ns).Describes (ns ::ₘ values) := by
  have hzero := hd.count_eq_zero
  refine ⟨?_, ?_, fun heq => absurd heq (Multiset.cons_ne_zero), fun _ => ?_, fun _ => ?_,
    fun index => ?_⟩
  · rw [Multiset.card_cons, ← hd.count]
    rfl
  · rw [Multiset.sum_cons, addNs, hd.sum]
    dsimp only
    omega
  · rw [addNs]
    dsimp only
    by_cases hempty : values = 0
    · rw [if_pos (hzero.mpr hempty), hempty]
      simp
    · obtain ⟨hmin, hleast⟩ := hd.least hempty
      rw [if_neg (mt hzero.mp hempty)]
      refine ⟨?_, fun v hv => ?_⟩
      · rcases min_choice h.minNs ns with heq | heq
        · exact heq.symm ▸ Multiset.mem_cons_of_mem hmin
        · exact heq.symm ▸ Multiset.mem_cons_self ns values
      · rcases Multiset.mem_cons.mp hv with rfl | hold
        · exact min_le_right _ _
        · exact (min_le_left _ _).trans (hleast v hold)
  · rw [addNs]
    dsimp only
    by_cases hempty : values = 0
    · rw [if_pos (hzero.mpr hempty), hempty]
      simp
    · obtain ⟨hmax, hgreatest⟩ := hd.greatest hempty
      rw [if_neg (mt hzero.mp hempty)]
      refine ⟨?_, fun v hv => ?_⟩
      · rcases max_choice h.maxNs ns with heq | heq
        · exact heq.symm ▸ Multiset.mem_cons_of_mem hmax
        · exact heq.symm ▸ Multiset.mem_cons_self ns values
      · rcases Multiset.mem_cons.mp hv with rfl | hold
        · exact le_max_right _ _
        · exact (hgreatest v hold).trans (le_max_left _ _)
  · rw [addNs, inBucket_cons]
    dsimp only
    by_cases heq : bucketIndex ns = index
    · subst heq
      have hcount : bucketCount (inBucket values (bucketIndex ns) + 1) =
          some (min (inBucket values (bucketIndex ns) + 1) U32_MAX) :=
        if_neg (Nat.succ_ne_zero _)
      rw [if_pos rfl, SortedMap.find_alter_self, hd.bucket]
      exact (congrArg some (bucketCount_succ _)).trans hcount.symm
    · rw [if_neg heq, SortedMap.find_alter_of_ne (Ne.symm heq), hd.bucket]

end Describes

/-! ### Merging -/

/-- What a bucket has when another has come to it. -/
def addCounts : Option ℕ → Option ℕ → Option ℕ
  | some k, some n => some (min (k + n) U32_MAX)
  | some k, none => some k
  | none, n => n

theorem find_mergeBuckets (buckets : SortedMap ℕ ℕ) {other : List (ℕ × ℕ)}
    (hsorted : (other.map Prod.fst).Pairwise (· < ·)) (index : ℕ) :
    (mergeBuckets buckets other).find index =
      addCounts (buckets.find index) ((other.find? fun e => e.1 = index).map Prod.snd) := by
  induction other generalizing buckets with
  | nil =>
    rw [mergeBuckets, foldl_nil]
    cases buckets.find index with
    | none => rfl
    | some k => rfl
  | cons e other ih =>
    obtain ⟨index', n⟩ := e
    rw [map_cons, pairwise_cons] at hsorted
    obtain ⟨hlt, hsorted⟩ := hsorted
    rw [mergeBuckets, foldl_cons, ← mergeBuckets, ih _ hsorted]
    by_cases heq : index' = index
    · -- no other entry is for this bucket
      subst heq
      have hnone : other.find? (fun e => e.1 = index') = none := by
        rw [List.find?_eq_none]
        intro e he
        simpa using (hlt e.1 (mem_map_of_mem he)).ne'
      rw [SortedMap.find_alter_self, hnone, List.find?_cons_of_pos (by simp)]
      cases buckets.find index' with
      | none => rfl
      | some k => rfl
    · rw [SortedMap.find_alter_of_ne (Ne.symm heq), List.find?_cons_of_neg (by simpa using heq)]

theorem addCounts_bucketCount (k n : ℕ) :
    addCounts (bucketCount k) (bucketCount n) = bucketCount (k + n) := by
  unfold bucketCount
  split_ifs with hk hn hsum hsum hn hsum hsum
  any_goals omega
  · rfl
  · rw [hk, Nat.zero_add]
    rfl
  · rw [hn, Nat.add_zero]
    rfl
  · refine congrArg some ?_
    omega

namespace Describes

theorem merge (hd : h.Describes values) (hd' : h'.Describes values') :
    (h.merge h').Describes (values + values') := by
  rw [Histogram.merge]
  split_ifs with hother hself
  · rw [hd'.count_eq_zero.mp hother, Multiset.add_zero]
    exact hd
  · rw [hd.count_eq_zero.mp hself, Multiset.zero_add]
    exact hd'
  · have hne := mt hd.count_eq_zero.mpr hself
    have hne' := mt hd'.count_eq_zero.mpr hother
    obtain ⟨hmin, hleast⟩ := hd.least hne
    obtain ⟨hmin', hleast'⟩ := hd'.least hne'
    obtain ⟨hmax, hgreatest⟩ := hd.greatest hne
    obtain ⟨hmax', hgreatest'⟩ := hd'.greatest hne'
    have hsome : values + values' ≠ 0 := fun heq =>
      Multiset.notMem_zero h.minNs (heq ▸ Multiset.mem_add.mpr (Or.inl hmin))
    refine ⟨?_, ?_, fun heq => absurd heq hsome,
      fun _ => ⟨?_, fun v hv => ?_⟩, fun _ => ⟨?_, fun v hv => ?_⟩, fun index => ?_⟩
    · rw [Multiset.card_add, ← hd.count, ← hd'.count]
    · rw [Multiset.sum_add]
      dsimp only
      rw [hd.sum, hd'.sum]
      omega
    · rw [Multiset.mem_add]
      rcases min_choice h.minNs h'.minNs with heq | heq
      · exact Or.inl (heq.symm ▸ hmin)
      · exact Or.inr (heq.symm ▸ hmin')
    · rcases Multiset.mem_add.mp hv with hold | hnew
      · exact (min_le_left _ _).trans (hleast v hold)
      · exact (min_le_right _ _).trans (hleast' v hnew)
    · rw [Multiset.mem_add]
      rcases max_choice h.maxNs h'.maxNs with heq | heq
      · exact Or.inl (heq.symm ▸ hmax)
      · exact Or.inr (heq.symm ▸ hmax')
    · rcases Multiset.mem_add.mp hv with hold | hnew
      · exact (hgreatest v hold).trans (le_max_left _ _)
      · exact (hgreatest' v hnew).trans (le_max_right _ _)
    · have hfind := find_mergeBuckets h.buckets h'.buckets.sorted index
      rw [hd.bucket, ← SortedMap.find, hd'.bucket, addCounts_bucketCount] at hfind
      rw [inBucket, Multiset.countP_add]
      exact hfind

end Describes

end Histogram

namespace Build

theorem describes (b : Build) : b.eval.Describes b.values := by
  induction b with
  | new => exact .new
  | add b ns ih => exact ih.add ns.toNat
  | merge a b iha ihb => exact iha.merge ihb

/-- Whatever way some values are split and merged, the histogram is the same, and the empty one
changes nothing. -/
theorem merge_order_free (a b : Build) (h : a.values = b.values) :
    a.eval = b.eval ∧ a.eval.merge .new = b.eval ∧ Histogram.merge .new a.eval = b.eval := by
  have hright : (a.merge .new).values = b.values := (Multiset.add_zero _).trans h
  have hleft : (Build.new.merge a).values = b.values := (Multiset.zero_add _).trans h
  exact ⟨(h ▸ a.describes).eq b.describes, (hright ▸ (a.merge .new).describes).eq b.describes,
    (hleft ▸ (Build.new.merge a).describes).eq b.describes⟩

/-- A hundred nanoseconds, a second and five nanoseconds, from the left and from the right. -/
theorem merge_order_free_three :
    ((Build.new.add 100).merge ((Build.new.add 1000000000).add 5)).eval =
      (((Build.new.add 5).merge (Build.new.add 100)).add 1000000000).eval :=
  (merge_order_free _ _ (by decide)).1

end Build

namespace Histogram

theorem describes_of (ds : List ℕ) :
    (of ds).Describes (Multiset.ofList (ds.map fun d => min d U64_MAX)) := by
  induction ds using List.reverseRecOn with
  | nil => exact .new
  | append_singleton ds d ih =>
    have hperm : (ds ++ [d]).map (fun d => min d U64_MAX) |>.Perm
        (min d U64_MAX :: ds.map fun d => min d U64_MAX) := by
      rw [map_append]
      exact perm_append_singleton _ _
    rw [of_append_singleton, Multiset.coe_eq_coe.mpr hperm]
    exact ih.add _

end Histogram

end Fibre.Stats
