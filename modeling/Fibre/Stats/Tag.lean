import Mathlib.Data.String.Basic
import Fibre.Math.StableSort

/-!
# Tags

The tags of a series are sorted by name, and of those with one name the last one is kept. The tags
common to all series join the tags of each, and leave them again in a batch.
-/

namespace Fibre.Stats

open List

structure Tag where
  name : String
  value : String
  deriving DecidableEq

abbrev Tags := List Tag

/-- `dedup_by` with the later tag kept. -/
def dedup : Tags → Tags
  | [] => []
  | [t] => [t]
  | t :: u :: rest => if t.name = u.name then dedup (u :: rest) else t :: dedup (u :: rest)

/-- Sorts tags by name. When a name repeats, the last value wins. -/
def normalize (tags : Tags) : Tags := dedup (StableSort.sortAsc Tag.name tags)

def stripCommon (tags common : Tags) : Tags := tags.filter fun t => t ∉ common

def lastOf (tags : Tags) (name : String) : Option Tag :=
  (tags.filter fun t => t.name = name).getLast?

/-- The names are in order, each of them once. -/
def Normal (tags : Tags) : Prop := (tags.map Tag.name).Pairwise (· < ·)

variable {tags tags' common : Tags} {t u : Tag} {name : String}

theorem mem_of_lastOf (h : lastOf tags name = some t) : t ∈ tags ∧ t.name = name := by
  have hmem := mem_filter.mp (mem_of_getLast? h)
  exact ⟨hmem.1, of_decide_eq_true hmem.2⟩

theorem lastOf_append (tags tags' : Tags) (name : String) :
    lastOf (tags ++ tags') name = (lastOf tags' name).or (lastOf tags name) := by
  rw [lastOf, filter_append, List.getLast?_append]
  rfl

theorem lastOf_eq_none : lastOf tags name = none ↔ ∀ t ∈ tags, t.name ≠ name := by
  rw [lastOf, List.getLast?_eq_none_iff, filter_eq_nil_iff]
  simp only [decide_eq_true_eq, ne_eq]

theorem lastOf_singleton (t : Tag) : lastOf [t] t.name = some t := by simp [lastOf]

theorem exists_lastOf (h : t ∈ tags) : ∃ u, lastOf tags t.name = some u := by
  cases hlast : lastOf tags t.name with
  | none => exact absurd rfl (lastOf_eq_none.mp hlast t h)
  | some u => exact ⟨u, rfl⟩

/-! ### Normal lists -/

theorem Normal.eq_of_name (h : Normal tags) (ht : t ∈ tags) (hu : u ∈ tags)
    (hname : t.name = u.name) : t = u :=
  inj_on_of_nodup_map (Pairwise.imp ne_of_lt h) ht hu hname

theorem Normal.lastOf (h : Normal tags) : t ∈ tags ↔ lastOf tags t.name = some t := by
  refine ⟨fun ht => ?_, fun hlast => (mem_of_lastOf hlast).1⟩
  obtain ⟨u, hu⟩ := exists_lastOf ht
  obtain ⟨hmem, hname⟩ := mem_of_lastOf hu
  rw [hu, h.eq_of_name ht hmem hname.symm]

theorem Normal.ext (h : Normal tags) (h' : Normal tags') (hmem : ∀ t, t ∈ tags ↔ t ∈ tags') :
    tags = tags' := by
  have hnodup := Nodup.of_map Tag.name (Pairwise.imp ne_of_lt h)
  have hnodup' := Nodup.of_map Tag.name (Pairwise.imp ne_of_lt h')
  have hperm := (perm_ext_iff_of_nodup hnodup hnodup').mpr hmem
  exact hperm.eq_of_pairwise (fun _ _ _ _ hab hba => absurd (hab.trans hba) (lt_irrefl _))
    (pairwise_map.mp h) (pairwise_map.mp h')

theorem Normal.filter (h : Normal tags) (p : Tag → Bool) : Normal (tags.filter p) :=
  Pairwise.sublist (filter_sublist.map _) h

/-! ### Normalisation -/

theorem lastOf_cons_of_ne (h : t.name ≠ name) : lastOf (t :: tags) name = lastOf tags name := by
  rw [lastOf, filter_cons_of_neg (by simpa using h)]
  rfl

theorem lastOf_cons_of_mem (h : ∃ u ∈ tags, u.name = name) :
    lastOf (t :: tags) name = lastOf tags name := by
  obtain ⟨u, hu, rfl⟩ := h
  obtain ⟨v, hv⟩ := exists_lastOf hu
  rw [← singleton_append, lastOf_append, hv]
  rfl

theorem mem_of_mem_dedup (h : t ∈ dedup tags) : t ∈ tags := by
  fun_induction dedup tags with
  | case1 => exact h
  | case2 => exact h
  | case3 v u rest heq ih => exact mem_cons_of_mem v (ih h)
  | case4 v u rest hne ih =>
    rcases mem_cons.mp h with rfl | hmem
    · exact mem_cons_self
    · exact mem_cons_of_mem v (ih hmem)

theorem lt_of_sorted {rest : Tags} (h : (t :: u :: rest).Pairwise fun t u => t.name ≤ u.name)
    (hne : t.name ≠ u.name) : ∀ v ∈ u :: rest, t.name < v.name := by
  obtain ⟨ht, hrest⟩ := pairwise_cons.mp h
  have htu : t.name < u.name := lt_of_le_of_ne (ht u mem_cons_self) hne
  intro v hv
  rcases mem_cons.mp hv with rfl | hmem
  · exact htu
  · exact htu.trans_le ((pairwise_cons.mp hrest).1 v hmem)

theorem normal_dedup (h : tags.Pairwise fun t u => t.name ≤ u.name) : Normal (dedup tags) := by
  fun_induction dedup tags with
  | case1 => exact Pairwise.nil
  | case2 => exact pairwise_singleton _ _
  | case3 v u rest heq ih => exact ih (pairwise_cons.mp h).2
  | case4 v u rest hne ih =>
    unfold Normal
    rw [map_cons, pairwise_cons]
    refine ⟨fun n hn => ?_, ih (pairwise_cons.mp h).2⟩
    obtain ⟨w, hw, rfl⟩ := mem_map.mp hn
    exact lt_of_sorted h hne w (mem_of_mem_dedup hw)

theorem mem_dedup (h : tags.Pairwise fun t u => t.name ≤ u.name) :
    t ∈ dedup tags ↔ lastOf tags t.name = some t := by
  fun_induction dedup tags with
  | case1 => simp [lastOf]
  | case2 v =>
    rw [mem_singleton]
    constructor
    · rintro rfl
      exact lastOf_singleton t
    · exact fun hlast => mem_singleton.mp (mem_of_lastOf hlast).1
  | case3 v u rest heq ih =>
    rw [ih (pairwise_cons.mp h).2]
    by_cases hname : v.name = t.name
    · rw [lastOf_cons_of_mem ⟨u, mem_cons_self, heq ▸ hname⟩]
    · rw [lastOf_cons_of_ne hname]
  | case4 v u rest hne ih =>
    have hlt := lt_of_sorted h hne
    rw [mem_cons, ih (pairwise_cons.mp h).2]
    by_cases hname : v.name = t.name
    · have hnone : lastOf (u :: rest) t.name = none := by
        rw [lastOf_eq_none]
        intro w hw
        rw [← hname]
        exact (hlt w hw).ne'
      have hlast : lastOf (v :: u :: rest) t.name = some v := by
        rw [← singleton_append, lastOf_append, hnone, Option.none_or, ← hname,
          lastOf_singleton]
      rw [hnone, hlast, Option.some.injEq, eq_comm (a := v)]
      simp
    · rw [lastOf_cons_of_ne hname]
      refine ⟨fun hor => hor.resolve_left ?_, Or.inr⟩
      rintro rfl
      exact hname rfl

theorem normal_normalize (tags : Tags) : Normal (normalize tags) :=
  normal_dedup (StableSort.pairwise_sortAsc Tag.name tags)

theorem mem_normalize : t ∈ normalize tags ↔ lastOf tags t.name = some t := by
  rw [normalize, mem_dedup (StableSort.pairwise_sortAsc Tag.name tags), lastOf, lastOf,
    StableSort.filter_sortAsc]

/-! ### The common tags -/

theorem mem_keyed {own : Tags} : t ∈ normalize (common ++ own) ↔
    lastOf own t.name = some t ∨ lastOf own t.name = none ∧ lastOf common t.name = some t := by
  rw [mem_normalize, lastOf_append]
  cases lastOf own t.name with
  | none => simp
  | some u => simp

/-- The tags of a series come back from a batch exactly if each of them that is a common tag is the
last common tag of its name. -/
theorem normalize_strip_iff {own : Tags} :
    normalize (common ++ stripCommon (normalize (common ++ own)) common) =
        normalize (common ++ own) ↔
      ∀ t ∈ normalize (common ++ own), t ∈ common → lastOf common t.name = some t := by
  set key := normalize (common ++ own)
  have hkey : Normal key := normal_normalize _
  have hstrip : Normal (stripCommon key common) := hkey.filter _
  constructor
  · intro heq t ht hcommon
    rw [← heq, mem_keyed] at ht
    refine (ht.resolve_left fun hlast => ?_).2
    have hmem := (mem_filter.mp (mem_of_lastOf hlast).1).2
    exact absurd hcommon (of_decide_eq_true hmem)
  · intro h
    refine (normal_normalize _).ext hkey fun t => ?_
    rw [mem_keyed]
    constructor
    · rintro (hlast | ⟨hnone, hlast⟩)
      · exact mem_of_mem_filter (hstrip.lastOf.mpr hlast)
      · -- the tag of this name that the series has is a common one too
        obtain ⟨u, hu⟩ := exists_lastOf (mem_append_left own (mem_of_lastOf hlast).1)
        have hname := (mem_of_lastOf hu).2
        have hmem : u ∈ key := mem_normalize.mpr (hname ▸ hu)
        by_cases hcommon : u ∈ common
        · have heq := h u hmem hcommon
          rw [hname, hlast] at heq
          rwa [Option.some.inj heq]
        · have hstripped : u ∈ stripCommon key common :=
            mem_filter.mpr ⟨hmem, decide_eq_true hcommon⟩
          exact absurd hname (lastOf_eq_none.mp hnone u hstripped)
    · intro ht
      by_cases hcommon : t ∈ common
      · refine Or.inr ⟨lastOf_eq_none.mpr fun u hu hname => ?_, h t ht hcommon⟩
        obtain ⟨hmem, hnot⟩ := mem_filter.mp hu
        rw [hkey.eq_of_name hmem ht hname] at hnot
        exact of_decide_eq_true hnot hcommon
      · exact Or.inl (hstrip.lastOf.mp (mem_filter.mpr ⟨ht, decide_eq_true hcommon⟩))

end Fibre.Stats
