import Mathlib.Data.List.Sort

/-!
# Places in a stable sort

A stable sort by a key, the greatest first. Where an entry ends up can be told from the list before
the sort: behind those with a greater key, and behind those with its own key that came before it.

## Main results

* `StableSort.idxOf_sortDesc` — the rank is the place
* `StableSort.mem_drop_sortDesc` — which entries a limit cuts off
-/

namespace StableSort

open List

variable {α κ : Type*} [LinearOrder κ] (key : α → κ)

/-- Sorts by the key, the greatest first. Entries with one key keep their order. -/
def sortDesc (l : List α) : List α := l.insertionSort fun a b => key b ≤ key a

variable {key} {l m : List α} {e : α}

theorem perm_sortDesc (l : List α) : (sortDesc key l).Perm l := perm_insertionSort _ l

theorem mem_sortDesc : e ∈ sortDesc key l ↔ e ∈ l := (perm_sortDesc l).mem_iff

theorem pairwise_sortDesc (l : List α) :
    (sortDesc key l).Pairwise fun a b => key b ≤ key a := by
  have : Std.Total fun a b : α => key b ≤ key a := ⟨fun a b => le_total (key b) (key a)⟩
  have : IsTrans α fun a b : α => key b ≤ key a := ⟨fun _ _ _ hab hbc => hbc.trans hab⟩
  exact pairwise_insertionSort (fun a b : α => key b ≤ key a) l

theorem filter_sortDesc (k : κ) (l : List α) :
    (sortDesc key l).filter (key · = k) = l.filter (key · = k) := by
  have : Std.Total fun a b : α => key b ≤ key a := ⟨fun a b => le_total (key b) (key a)⟩
  have : IsTrans α fun a b : α => key b ≤ key a := ⟨fun _ _ _ hab hbc => hbc.trans hab⟩
  have hpair : (l.filter (key · = k)).Pairwise fun a b => key b ≤ key a := by
    refine pairwise_of_forall_mem_list fun a ha b hb => ?_
    have ha := of_decide_eq_true (mem_filter.mp ha).2
    have hb := of_decide_eq_true (mem_filter.mp hb).2
    exact (hb.trans ha.symm).le
  have hsub : (l.filter (key · = k)).Sublist (sortDesc key l) :=
    sublist_insertionSort hpair filter_sublist
  -- it is a sublist of the same length
  have hfilter := hsub.filter (key · = k)
  rw [filter_filter] at hfilter
  simp only [Bool.and_self] at hfilter
  exact (hfilter.eq_of_length ((perm_sortDesc l).filter _).length_eq.symm).symm

/-- Sorts by the key, the smallest first. Entries with one key keep their order. -/
def sortAsc (key : α → κ) (l : List α) : List α :=
  sortDesc (fun a => OrderDual.toDual (key a)) l

theorem pairwise_sortAsc (key : α → κ) (l : List α) :
    (sortAsc key l).Pairwise fun a b => key a ≤ key b := by
  have hpair := @pairwise_sortDesc α κᵒᵈ _ (fun a => OrderDual.toDual (key a)) l
  exact hpair

theorem filter_sortAsc (key : α → κ) (k : κ) (l : List α) :
    (sortAsc key l).filter (key · = k) = l.filter (key · = k) :=
  filter_sortDesc (OrderDual.toDual k) l

variable [DecidableEq α]

/-- How many entries come before `e` in the sorted list. -/
def rank (key : α → κ) (l : List α) (e : α) : ℕ :=
  (l.filter fun x => key e < key x).length + (l.filter fun x => key x = key e).idxOf e

theorem rank_sortDesc_append (key : α → κ) (l m : List α) (e : α) :
    rank key (sortDesc key l ++ m) e = rank key (l ++ m) e := by
  have hlen : ((sortDesc key l).filter fun x => key e < key x).length =
      (l.filter fun x => key e < key x).length := ((perm_sortDesc l).filter _).length_eq
  simp only [rank, filter_append, length_append, hlen, filter_sortDesc]

theorem idxOf_eq_rank (h : l.Pairwise fun a b => key b ≤ key a) (he : e ∈ l) :
    l.idxOf e = rank key l e := by
  induction l with
  | nil => cases he
  | cons a l ih =>
    obtain ⟨ha, hl⟩ := pairwise_cons.mp h
    by_cases hae : a = e
    · subst hae
      have hnone : (l.filter fun x => key a < key x) = [] :=
        filter_eq_nil_iff.mpr fun x hx => by simpa using ha x hx
      simp [rank, hnone]
    · have hel : e ∈ l := (mem_cons.mp he).resolve_left (Ne.symm hae)
      rw [idxOf_cons_ne _ hae, ih hl hel]
      rcases (ha e hel).lt_or_eq with hlt | heq
      · have hne : key a ≠ key e := hlt.ne'
        simp [rank, hlt, hne]
        omega
      · have hnot : ¬ key e < key a := heq.not_lt
        simp [rank, ← heq, idxOf_cons_ne _ hae]
        omega

theorem rank_of_perm (hperm : l.Perm m) (he : e ∈ m) (hown : ∀ a ∈ m, key a = key e → a = e) :
    rank key l e = rank key m e := by
  have hone {k : List α} (hk : ∀ a, a ∈ k ↔ a ∈ m) : (k.filter fun a => key a = key e).idxOf e = 0 := by
    have hmem : e ∈ k.filter fun a => key a = key e :=
      mem_filter.mpr ⟨(hk e).mpr he, decide_eq_true rfl⟩
    cases hfilter : k.filter fun a => key a = key e with
    | nil => exact absurd (hfilter ▸ hmem) not_mem_nil
    | cons a rest =>
      have ha := mem_filter.mp (hfilter ▸ mem_cons_self : a ∈ k.filter _)
      rw [hown a ((hk a).mp ha.1) (of_decide_eq_true ha.2)]
      exact idxOf_cons_self
  rw [rank, rank, hone fun _ => hperm.mem_iff, hone fun _ => Iff.rfl, (hperm.filter _).length_eq]

theorem idxOf_sortDesc (he : e ∈ l) : (sortDesc key l).idxOf e = rank key l e := by
  rw [idxOf_eq_rank (pairwise_sortDesc l) (mem_sortDesc.mpr he)]
  have hrank := rank_sortDesc_append key l [] e
  rwa [append_nil, append_nil] at hrank

/-- An entry that occurs once is cut off exactly from its place on. -/
theorem mem_drop_iff (hcount : l.count e = 1) (n : ℕ) : e ∈ l.drop n ↔ n ≤ l.idxOf e := by
  have he : e ∈ l := count_pos_iff.mp (by omega)
  have hsum : (l.take n).count e + (l.drop n).count e = 1 := by
    rw [← count_append, take_append_drop, hcount]
  rw [← not_lt, ← mem_take_iff_idxOf_lt he, ← count_pos_iff, ← count_pos_iff]
  omega

/-- Which entries a limit cuts off a sorted list. -/
theorem mem_drop_sortDesc (key : α → κ) (hcount : l.count e = 1) (n : ℕ) :
    e ∈ (sortDesc key l).drop n ↔ n ≤ rank key l e := by
  have he : e ∈ l := count_pos_iff.mp (by omega)
  rw [mem_drop_iff (by rw [(perm_sortDesc l).count_eq, hcount]), idxOf_sortDesc he]

theorem mem_drop_take_sortDesc (key : α → κ) (hcount : l.count e = 1) (n m : ℕ) :
    e ∈ ((sortDesc key l).take m).drop n ↔ n ≤ rank key l e ∧ rank key l e < m := by
  have he : e ∈ l := count_pos_iff.mp (by omega)
  have hsorted : (sortDesc key l).count e = 1 := by rw [(perm_sortDesc l).count_eq, hcount]
  have hmem : e ∈ sortDesc key l := mem_sortDesc.mpr he
  have htake := mem_take_iff_idxOf_lt (n := m) hmem
  rw [idxOf_sortDesc he] at htake
  by_cases hin : e ∈ (sortDesc key l).take m
  · -- cutting off the tail moves nobody
    have hone : ((sortDesc key l).take m).count e = 1 := by
      have hle := (take_sublist m (sortDesc key l)).count_le e
      have hpos := count_pos_iff.mpr hin
      omega
    have hidx : ((sortDesc key l).take m).idxOf e = (sortDesc key l).idxOf e := by
      conv_rhs => rw [← take_append_drop m (sortDesc key l)]
      rw [idxOf_append_of_mem hin]
    rw [mem_drop_iff hone, hidx, idxOf_sortDesc he]
    exact ⟨fun hn => ⟨hn, htake.mp hin⟩, And.left⟩
  · refine ⟨fun h => absurd (mem_of_mem_drop h) hin, fun h => absurd (htake.mpr h.2) hin⟩

end StableSort
