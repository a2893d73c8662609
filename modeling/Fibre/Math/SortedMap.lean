import Mathlib.Data.List.Nodup
import Mathlib.Data.List.Pairwise
import Mathlib.Order.Lattice

/-!
# Maps in the order of their keys

A map as the list of its entries, the keys strictly increasing.

## Main results

* `SortedMap.mem_entries` — an entry is what its key is mapped to
* `SortedMap.find_alter_self`, `SortedMap.find_alter_of_ne`
* `SortedMap.find_below`, `SortedMap.find_upFrom`
-/

/-- Entries with strictly increasing keys. -/
structure SortedMap (κ β : Type*) [LinearOrder κ] where
  entries : List (κ × β)
  sorted : (entries.map Prod.fst).Pairwise (· < ·)

namespace SortedMap

open List

variable {κ β : Type*} [LinearOrder κ] {m : SortedMap κ β} {k k' : κ} {v : β} {f : Option β → β}

def empty : SortedMap κ β := ⟨[], List.Pairwise.nil⟩

/-- The value of a key. -/
def find (m : SortedMap κ β) (k : κ) : Option β :=
  (m.entries.find? fun e => e.1 = k).map Prod.snd

theorem nodup_keys (m : SortedMap κ β) : (m.entries.map Prod.fst).Nodup :=
  m.sorted.imp ne_of_lt

/-- An entry is what its key is mapped to. -/
theorem mem_entries : (k, v) ∈ m.entries ↔ m.find k = some v := by
  unfold find
  rw [Option.map_eq_some_iff]
  constructor
  · intro hmem
    cases hfind : m.entries.find? fun e => e.1 = k with
    | none => simpa using List.find?_eq_none.mp hfind (k, v) hmem
    | some e =>
      have hkey : e.1 = k := by simpa using List.find?_some hfind
      have heq := inj_on_of_nodup_map m.nodup_keys (mem_of_find?_eq_some hfind) hmem hkey
      exact ⟨e, rfl, by rw [heq]⟩
  · rintro ⟨e, hfind, rfl⟩
    have hkey : e.1 = k := by simpa using List.find?_some hfind
    rw [← hkey]
    exact mem_of_find?_eq_some hfind

theorem find_eq_none : m.find k = none ↔ k ∉ m.entries.map Prod.fst := by
  rw [← Option.not_isSome_iff_eq_none, not_iff_not, Option.isSome_iff_exists, mem_map]
  constructor
  · rintro ⟨v, hv⟩
    exact ⟨(k, v), mem_entries.mpr hv, rfl⟩
  · rintro ⟨⟨k', v⟩, hmem, rfl⟩
    exact ⟨v, mem_entries.mp hmem⟩

theorem ext_find {m' : SortedMap κ β} (h : ∀ k, m.find k = m'.find k) : m = m' := by
  have hmem : ∀ e, e ∈ m.entries ↔ e ∈ m'.entries := by
    rintro ⟨k, v⟩
    rw [mem_entries, mem_entries, h]
  have hsorted := pairwise_map.mp m.sorted
  have hsorted' := pairwise_map.mp m'.sorted
  have hperm : m.entries.Perm m'.entries :=
    (perm_ext_iff_of_nodup (Nodup.of_map _ m.nodup_keys)
      (Nodup.of_map _ m'.nodup_keys)).mpr hmem
  have heq := hperm.eq_of_pairwise (fun a b _ _ hab hba => absurd (hab.trans hba) (lt_irrefl _))
    hsorted hsorted'
  cases m
  cases m'
  congr

/-! ### Change of one key -/

/-- The entry of `k` becomes what `f` makes of it. -/
def alterEntries (k : κ) (f : Option β → β) : List (κ × β) → List (κ × β)
  | [] => [(k, f none)]
  | (k', v) :: rest =>
    if k < k' then (k, f none) :: (k', v) :: rest
    else if k = k' then (k', f (some v)) :: rest
    else (k', v) :: alterEntries k f rest

attribute [local simp] alterEntries

theorem mem_keys_alterEntries {es : List (κ × β)} :
    k' ∈ (alterEntries k f es).map Prod.fst ↔ k' = k ∨ k' ∈ es.map Prod.fst := by
  induction es with
  | nil => simp
  | cons e es ih =>
    obtain ⟨k₁, v₁⟩ := e
    rw [alterEntries]
    split
    · simp
    · split
      · next heq => simp [heq]
      · rw [map_cons, mem_cons, ih, map_cons, mem_cons]
        tauto

theorem sorted_alterEntries {es : List (κ × β)} (h : (es.map Prod.fst).Pairwise (· < ·)) :
    ((alterEntries k f es).map Prod.fst).Pairwise (· < ·) := by
  induction es with
  | nil => simp
  | cons e es ih =>
    obtain ⟨k₁, v₁⟩ := e
    rw [map_cons, pairwise_cons] at h
    rw [alterEntries]
    split
    · next hlt =>
      rw [map_cons, map_cons, pairwise_cons]
      refine ⟨fun k' hk' => ?_, pairwise_cons.mpr h⟩
      rcases mem_cons.mp hk' with rfl | hmem
      · exact hlt
      · exact lt_trans hlt (h.1 k' hmem)
    · next hle =>
      split
      · exact pairwise_cons.mpr h
      · next hne =>
        rw [map_cons, pairwise_cons]
        refine ⟨fun k' hk' => ?_, ih h.2⟩
        rw [mem_keys_alterEntries] at hk'
        rcases hk' with rfl | hmem
        · exact lt_of_le_of_ne (not_lt.mp hle) (Ne.symm hne)
        · exact h.1 k' hmem

/-- `entry(k)`: the value of the key is changed, or there is one now. -/
def alter (m : SortedMap κ β) (k : κ) (f : Option β → β) : SortedMap κ β :=
  ⟨alterEntries k f m.entries, sorted_alterEntries m.sorted⟩

theorem find_alterEntries_self {es : List (κ × β)} (h : (es.map Prod.fst).Pairwise (· < ·)) :
    ((alterEntries k f es).find? fun e => e.1 = k).map Prod.snd =
      some (f ((es.find? fun e => e.1 = k).map Prod.snd)) := by
  induction es with
  | nil => simp
  | cons e es ih =>
    obtain ⟨k₁, v₁⟩ := e
    rw [map_cons, pairwise_cons] at h
    rw [alterEntries]
    split
    · next hlt =>
      -- the key is before all others
      have hnone : (((k₁, v₁) :: es).find? fun e => e.1 = k) = none := by
        rw [List.find?_eq_none]
        rintro ⟨k', v'⟩ hmem
        rw [decide_eq_true_eq]
        rcases mem_cons.mp hmem with heq | hmem
        · cases heq
          exact hlt.ne'
        · exact (hlt.trans (h.1 k' (mem_map_of_mem hmem))).ne'
      rw [List.find?_cons_of_pos (by simp), hnone]
      rfl
    · split
      · next heq =>
        rw [List.find?_cons_of_pos (by simp [heq]), List.find?_cons_of_pos (by simp [heq])]
        rfl
      · next hne =>
        rw [List.find?_cons_of_neg (by simpa using Ne.symm hne),
          List.find?_cons_of_neg (by simpa using Ne.symm hne)]
        exact ih h.2

theorem find_alterEntries_of_ne {es : List (κ × β)} (h : k' ≠ k) :
    (alterEntries k f es).find? (fun e => e.1 = k') = es.find? fun e => e.1 = k' := by
  induction es with
  | nil => simp [Ne.symm h]
  | cons e es ih =>
    obtain ⟨k₁, v₁⟩ := e
    rw [alterEntries]
    split
    · rw [List.find?_cons_of_neg (by simpa using Ne.symm h)]
    · split
      · next heq =>
        subst heq
        rw [List.find?_cons_of_neg (by simpa using Ne.symm h),
          List.find?_cons_of_neg (by simpa using Ne.symm h)]
      · by_cases hk : k₁ = k'
        · rw [List.find?_cons_of_pos (by simpa using hk), List.find?_cons_of_pos (by simpa using hk)]
        · rw [List.find?_cons_of_neg (by simpa using hk), List.find?_cons_of_neg (by simpa using hk)]
          exact ih

@[simp] theorem find_alter_self (m : SortedMap κ β) (k : κ) (f : Option β → β) :
    (m.alter k f).find k = some (f (m.find k)) := find_alterEntries_self m.sorted

theorem find_alter_of_ne (h : k' ≠ k) : (m.alter k f).find k' = m.find k' :=
  congrArg (Option.map Prod.snd) (find_alterEntries_of_ne h)

/-! ### The two parts at a key -/

/-- The entries that meet a condition on the key. -/
def restrict (m : SortedMap κ β) (p : κ → Bool) : SortedMap κ β :=
  ⟨m.entries.filter fun e => p e.1, m.sorted.sublist (List.filter_sublist.map _)⟩

theorem find_restrict (p : κ → Bool) : (m.restrict p).find k = if p k then m.find k else none := by
  cases hp : p k with
  | true =>
    ext v
    rw [← mem_entries, if_pos rfl, ← mem_entries, restrict, mem_filter]
    simp [hp]
  | false =>
    rw [if_neg Bool.false_ne_true, find_eq_none]
    intro hmem
    obtain ⟨e, he, rfl⟩ := mem_map.mp hmem
    rw [(mem_filter.mp he).2] at hp
    cases hp

/-- The entries before `k`. -/
def below (m : SortedMap κ β) (k : κ) : SortedMap κ β := m.restrict (· < k)

/-- The entries from `k` on. -/
def upFrom (m : SortedMap κ β) (k : κ) : SortedMap κ β := m.restrict (k ≤ ·)

theorem find_below : (m.below k).find k' = if k' < k then m.find k' else none := by
  rw [below, find_restrict]
  simp only [decide_eq_true_eq]

theorem find_upFrom : (m.upFrom k).find k' = if k ≤ k' then m.find k' else none := by
  rw [upFrom, find_restrict]
  simp only [decide_eq_true_eq]

end SortedMap
