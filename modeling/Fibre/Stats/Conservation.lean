import Mathlib.Algebra.Order.BigOperators.Group.List
import Fibre.Stats.Drain

/-!
# Nothing is lost between recording and drain

A recording that was accepted is either in the book, in the slot of its series and window, or in the
one point that this slot became in a batch. A slot or a point has the aggregate of its recordings.
-/

namespace Fibre.Stats

open Machine List

theorem perm_flatMap_filter {α κ : Type*} [DecidableEq κ] (f : α → κ) {ks : List κ}
    (hks : ks.Nodup) (l : List α) :
    (ks.flatMap fun k => l.filter fun a => f a = k).Perm (l.filter fun a => f a ∈ ks) := by
  induction ks with
  | nil => simp
  | cons k ks ih =>
    obtain ⟨hk, hnodup⟩ := nodup_cons.mp hks
    have hsplit := filter_append_perm (fun a => decide (f a = k))
      (l.filter fun a => f a ∈ k :: ks)
    have hself : (l.filter fun a => f a ∈ k :: ks).filter (fun a => f a = k) =
        l.filter fun a => f a = k := by
      rw [filter_filter]
      refine filter_congr fun a _ => ?_
      by_cases ha : f a = k <;> simp [ha]
    have hrest : (l.filter fun a => f a ∈ k :: ks).filter (fun a => !decide (f a = k)) =
        l.filter fun a => f a ∈ ks := by
      rw [filter_filter]
      refine filter_congr fun a _ => ?_
      by_cases ha : f a = k
      · simp [ha, hk]
      · simp [ha]
    rw [hself, hrest] at hsplit
    exact ((ih hnodup).append_left _).trans hsplit

def aggregate : List Sample → Option Agg
  | [] => none
  | s :: ss => some (ss.foldl Agg.absorb (.start s))

theorem aggregate_append_singleton (ss : List Sample) (s : Sample) :
    aggregate (ss ++ [s]) =
      some (match aggregate ss with
        | some agg => agg.absorb s
        | none => .start s) := by
  cases ss with
  | nil => rfl
  | cons t ts => simp [aggregate, foldl_append]

theorem aggregate_eq_none {ss : List Sample} : aggregate ss = none ↔ ss = [] := by
  cases ss with
  | nil => exact iff_of_true rfl rfl
  | cons s ss => simp [aggregate]

/-! ### What an aggregate says -/

def Sample.increment : Sample → ℕ
  | .count n => n
  | _ => 0

def Sample.durations : Sample → List ℕ
  | .duration d => [d]
  | _ => []

def Agg.total : Agg → ℕ
  | .count n => n
  | _ => 0

section Aggregate

variable {ss : List Sample} {agg : Agg} {kind : Kind}

/-- What an aggregate says of samples of its kind: the sum of the increments, the last level or state,
and the histogram of all durations. -/
def Agg.Says (agg : Agg) (ss : List Sample) : Prop :=
  match agg with
  | .count n => (ss.map Sample.increment).sum ≤ U64_MAX → n = (ss.map Sample.increment).sum
  | .number v => ss.getLast? = some (.number v)
  | .state s => ss.getLast? = some (.state s)
  | .hist h => h = .of (ss.flatMap Sample.durations)

theorem says_aggregate (hfits : ∀ s ∈ ss, s.fits kind) (h : aggregate ss = some agg) :
    agg.kind = kind ∧ agg.Says ss := by
  induction ss using List.reverseRecOn generalizing agg with
  | nil => cases h
  | append_singleton ss s ih =>
    rw [aggregate_append_singleton] at h
    have hs : s.fits kind := hfits s (mem_append_right _ mem_cons_self)
    cases hss : aggregate ss with
    | none =>
      obtain rfl := aggregate_eq_none.mp hss
      rw [hss] at h
      obtain rfl := Option.some.inj h
      refine ⟨History.kind_start hs, ?_⟩
      cases s with
      | count n => exact fun _ => rfl
      | number v => rfl
      | state s => rfl
      | duration d => rfl
    | some agg' =>
      rw [hss] at h
      obtain rfl := Option.some.inj h
      obtain ⟨hkind, htells⟩ := ih (fun t ht => hfits t (mem_append_left _ ht)) hss
      dsimp only
      rw [History.kind_absorb]
      refine ⟨hkind, ?_⟩
      -- the sample is of the kind of the aggregate
      cases agg' <;> cases s <;> subst hkind <;> try cases hs
      · intro hle
        rw [map_append, sum_append, map_singleton, sum_singleton] at hle ⊢
        rw [htells (le_trans (Nat.le_add_right _ _) hle)]
        exact min_eq_left hle
      · exact List.getLast?_concat
      · exact List.getLast?_concat
      · show Histogram.add _ _ = _
        rw [flatMap_append, show List.flatMap Sample.durations [Sample.duration _] = [_] from rfl,
          Histogram.of_append_singleton, show _ = Histogram.of _ from htells]

theorem total_aggregate (hfits : ∀ s ∈ ss, s.fits kind)
    (hle : (ss.map Sample.increment).sum ≤ U64_MAX) :
    ((aggregate ss).map Agg.total).getD 0 = (ss.map Sample.increment).sum := by
  cases h : aggregate ss with
  | none =>
    rw [aggregate_eq_none.mp h]
    rfl
  | some agg =>
    obtain ⟨hkind, htells⟩ := says_aggregate hfits h
    cases agg with
    | count n => exact htells hle
    | _ =>
      -- the samples of other kinds have no increments
      symm
      refine sum_eq_zero fun n hn => ?_
      obtain ⟨s, hs, rfl⟩ := mem_map.mp hn
      have hf := hfits s hs
      subst hkind
      cases s <;> first | rfl | cases hf

end Aggregate

namespace History

variable {c : Config} {h h' : History}

def inWindow (c : Config) (pending : List Accepted) (w : ℕ) (key : SeriesKey) : List Sample :=
  (pending.filter fun a => a.key = key ∧ window c a = w).map Accepted.sample

/-- The recordings of a series that are in the window that starts at `atNs`. -/
def startedAt (c : Config) (pending : List Accepted) (key : SeriesKey) (atNs : ℕ) : List Accepted :=
  pending.filter fun a => a.key = key ∧ startNs c (window c a) = atNs

/-- The recordings in the points of a batch. -/
def taken (c : Config) (d : Drained) : List Accepted :=
  d.series.flatMap fun e => e.2.points.aggs.flatMap fun p => startedAt c d.pending e.1 p.1

/-- The slots have the aggregates of the recordings that are pending. -/
def Stored (c : Config) (h : History) : Prop :=
  ∀ w key, (h.book.slot w key).map Slot.agg = aggregate (inWindow c h.pending w key)

theorem inWindow_append (c : Config) (pending : List Accepted) (a : Accepted) (w : ℕ)
    (key : SeriesKey) : inWindow c (pending ++ [a]) w key =
      if a.key = key ∧ window c a = w then inWindow c pending w key ++ [a.sample]
      else inWindow c pending w key := by
  unfold inWindow
  rw [filter_append, map_append]
  split
  · next h => simp [h]
  · next h => simp [h]

namespace Stored

theorem ingest (hh : h.Headed) (hs : h.Stored c) {book : Book} {key : SeriesKey} {kind : Kind}
    {atNs : UInt64} {sample : Sample} (hheaders : book.headers = h.book.headers)
    (hwindows : book.windows = h.book.windows) :
    (h.ingest c book key kind atNs sample).Stored c := by
  have hslot := Book.slot_of_windows hwindows
  have hagrees := hh.agrees_of_same hheaders hwindows
  unfold History.ingest
  dsimp only
  split
  · next hrefused =>
    have haccepts := (Book.accepts_iff hagrees).mp hrefused
    obtain ⟨-, -, -, -, hslots⟩ :=
      Book.ingest_accepts hagrees haccepts
    intro w key'
    dsimp only
    rw [hslots, inWindow_append]
    dsimp only
    by_cases heq : w = atNs.toNat / c.resolutionNs ∧ key' = key
    · obtain ⟨rfl, rfl⟩ := heq
      have hbefore := hs (atNs.toNat / c.resolutionNs) key'
      rw [if_pos ⟨rfl, rfl⟩, if_pos ⟨rfl, rfl⟩, aggregate_append_singleton, ← hbefore, hslot]
      cases h.book.slot (atNs.toNat / c.resolutionNs) key' <;> rfl
    · rw [if_neg heq, if_neg fun hand => heq ⟨hand.2.symm, hand.1.symm⟩, hslot]
      exact hs w key'
  · next hrefused =>
    obtain ⟨reason, hrefuse⟩ := Book.ingest_refuses hagrees
      fun haccepts => hrefused ((Book.accepts_iff hagrees).mpr haccepts)
    intro w key'
    dsimp only
    rw [hrefuse]
    show (book.slot w key').map Slot.agg = _
    rw [hslot]
    exact hs w key'

theorem step (hh : h.Headed) (hs : h.Stored c) {call : Call} (hstep : h.step c call = some h') :
    h'.Stored c := by
  cases call with
  | record o =>
    cases hstep
    exact hs.ingest hh rfl rfl
  | total name tags total now =>
    simp only [History.step] at hstep
    split at hstep
    · cases hstep
      exact hs
    · cases hstep
      exact hs.ingest hh rfl rfl
  | drain includeOpen now order =>
    cases hstep
    intro w key
    change ((h.book.drain c includeOpen now order).1.slot w key).map Slot.agg = _
    rw [Headed.slot_drain]
    cases includeOpen with
    | true =>
      rw [if_neg fun hand => Bool.false_ne_true hand.1.symm]
      rfl
    | false =>
      dsimp only
      rw [if_neg Bool.false_ne_true, inWindow, filter_filter]
      split
      · next hle =>
        rw [hs w key, inWindow]
        congr 2
        refine filter_congr fun a _ => ?_
        by_cases ha : a.key = key ∧ window c a = w
        · obtain ⟨hkey, rfl⟩ := ha
          simp [hkey, hle.2]
        · simp [ha]
      · next hlt =>
        have hnil : h.pending.filter (fun a => decide (a.key = key ∧ window c a = w) &&
            decide (now.toNat / c.resolutionNs ≤ window c a)) = [] := by
          rw [filter_eq_nil_iff]
          intro a _
          simp only [Bool.and_eq_true, decide_eq_true_eq]
          rintro ⟨⟨-, rfl⟩, hle⟩
          exact hlt ⟨rfl, hle⟩
        rw [hnil]
        rfl

end Stored

/-! ### A drain -/

theorem window_mul_le (c : Config) (a : Accepted) :
    window c a * c.resolutionNs ≤ a.atNs.toNat := Nat.div_mul_le_self _ _

theorem startNs_window (c : Config) (a : Accepted) :
    startNs c (window c a) = window c a * c.resolutionNs := by
  have hlt := a.atNs.toNat_lt
  have hle := window_mul_le c a
  refine min_eq_left (hle.trans ?_)
  unfold U64_MAX
  omega

theorem startNs_inj {a b : Accepted}
    (h : startNs c (window c a) = startNs c (window c b)) : window c a = window c b := by
  rw [startNs_window, startNs_window] at h
  exact Nat.eq_of_mul_eq_mul_right c.resolutionNs_pos h

/-- What is in one batch. -/
structure DrainedWell (c : Config) (d : Drained) : Prop where
  nodup : (d.series.map Prod.fst).Nodup
  /-- a point has the aggregate of the recordings of its window -/
  points : ∀ e ∈ d.series, ∀ p ∈ e.2.points.aggs,
    aggregate ((startedAt c d.pending e.1 p.1).map Accepted.sample) = some p.2
  increasing : ∀ e ∈ d.series, (e.2.points.aggs.map Prod.fst).Pairwise (· < ·)
  /-- with the open window left out, every point is of an earlier one -/
  closed : ∀ current, d.limit = some current → ∀ e ∈ d.series, ∀ p ∈ e.2.points.aggs,
    ∃ w < current, p.1 = w * c.resolutionNs
  /-- the recordings of the windows that are taken are in the points -/
  taken : (taken c d).Perm (d.pending.filter fun a =>
    d.limit.all fun current => decide (window c a < current))

section Drain

variable {includeOpen : Bool} {now : UInt64} {order : Order}

/-- The windows a drain takes. -/
def closedWindows (c : Config) (book : Book) (includeOpen : Bool) (now : UInt64) :
    SortedMap ℕ (KeyMap Slot) :=
  if includeOpen then book.windows else book.windows.below (now.toNat / c.resolutionNs)

theorem slot_closed (w : ℕ) (key : SeriesKey) :
    ((closedWindows c h.book includeOpen now).find w).bind (fun series => series.lookup key) =
      if includeOpen = true ∨ w < now.toNat / c.resolutionNs then h.book.slot w key else none := by
  unfold closedWindows Book.slot
  cases includeOpen with
  | true => rfl
  | false =>
    rw [if_neg Bool.false_ne_true, SortedMap.find_below]
    by_cases hlt : w < now.toNat / c.resolutionNs
    · rw [if_pos hlt, if_pos (Or.inr hlt)]
    · rw [if_neg hlt, if_neg (not_or.mpr ⟨Bool.false_ne_true, hlt⟩)]
      rfl

theorem mem_closed {w : ℕ} {key : SeriesKey} {agg : Agg} :
    (w, key, agg) ∈ Book.points order (closedWindows c h.book includeOpen now) ↔
      ∃ slot : Slot, (includeOpen = true ∨ w < now.toNat / c.resolutionNs) ∧
        h.book.slot w key = some slot ∧ slot.agg = agg := by
  rw [Book.mem_points, slot_closed]
  split
  · next htrue => simp [htrue]
  · next hfalse => simp [hfalse]

theorem seriesOf_drain (hh : h.Headed) : SeriesOf c h.book.headers
    (Book.points order (closedWindows c h.book includeOpen now))
    (h.book.drain c includeOpen now order).2 := by
  refine series_spec fun p hp => ?_
  obtain ⟨slot, -, hslot, hagg⟩ := mem_closed.mp hp
  obtain ⟨hlookup, hkind⟩ := hh.agrees _ _ _ hslot
  exact ⟨slot.header, hlookup, hagg ▸ hkind⟩

theorem drainedWell (hh : h.Headed) (hs : h.Stored c) :
    DrainedWell c ⟨if includeOpen then none else some (now.toNat / c.resolutionNs), h.pending,
      (h.book.drain c includeOpen now order).2⟩ := by
  set slots := Book.points order (closedWindows c h.book includeOpen now) with hslots
  have hmem : ∀ w key agg, (w, key, agg) ∈ slots ↔ ∃ slot : Slot,
      (includeOpen = true ∨ w < now.toNat / c.resolutionNs) ∧ h.book.slot w key = some slot ∧
        slot.agg = agg := fun _ _ _ => mem_closed
  have hspec : SeriesOf c h.book.headers slots (h.book.drain c includeOpen now order).2 :=
    seriesOf_drain hh
  -- a slot has a recording, so the start of its window is not cut off
  have hstart : ∀ w key agg, (w, key, agg) ∈ slots →
      (∃ a ∈ h.pending, a.key = key ∧ window c a = w) ∧
      aggregate (inWindow c h.pending w key) = some agg := by
    intro w key agg hp
    obtain ⟨slot, -, hslot, rfl⟩ := (hmem w key agg).mp hp
    have hagg := hs w key
    rw [hslot, Option.map_some] at hagg
    refine ⟨?_, hagg.symm⟩
    by_contra hnone
    have hnil : inWindow c h.pending w key = [] := by
      rw [inWindow, map_eq_nil_iff, filter_eq_nil_iff]
      intro a ha hand
      exact hnone ⟨a, ha, (of_decide_eq_true hand).1, (of_decide_eq_true hand).2⟩
    rw [hnil] at hagg
    cases hagg
  have hpoint : ∀ e ∈ (h.book.drain c includeOpen now order).2, ∀ p, p ∈ e.2.points.aggs ↔
      ∃ w, (w, e.1, p.2) ∈ slots ∧ startNs c w = p.1 := by
    intro e he p
    rw [(hspec.entry e he).2.2.2.2, pointsOf, mem_map]
    constructor
    · rintro ⟨⟨w, key, agg⟩, hq, rfl⟩
      obtain ⟨hq, hkey⟩ := mem_filter.mp hq
      obtain rfl : key = e.1 := of_decide_eq_true hkey
      exact ⟨w, hq, rfl⟩
    · rintro ⟨w, hq, hw⟩
      exact ⟨(w, e.1, p.2), mem_filter.mpr ⟨hq, decide_eq_true rfl⟩, Prod.ext hw rfl⟩
  have hincreasing : ∀ e ∈ (h.book.drain c includeOpen now order).2,
      (e.2.points.aggs.map Prod.fst).Pairwise (· < ·) := by
    intro e he
    rw [(hspec.entry e he).2.2.2.2, pointsOf, map_map, pairwise_map]
    refine (Book.sorted_points e.1).imp_of_mem fun {p q} hp hq hlt => ?_
    obtain ⟨⟨a, -, -, ha⟩, -⟩ := hstart p.1 p.2.1 p.2.2 (mem_of_mem_filter hp)
    obtain ⟨⟨b, -, -, hb⟩, -⟩ := hstart q.1 q.2.1 q.2.2 (mem_of_mem_filter hq)
    show startNs c p.1 < startNs c q.1
    rw [← ha, ← hb] at hlt ⊢
    rw [startNs_window, startNs_window]
    exact Nat.mul_lt_mul_of_pos_right hlt c.resolutionNs_pos
  -- a recording is in a slot that is taken if its window is
  have hclosed : ∀ a ∈ h.pending, (∃ agg, (window c a, a.key, agg) ∈ slots) ↔
      (includeOpen = true ∨ window c a < now.toNat / c.resolutionNs) := by
    intro a ha
    constructor
    · rintro ⟨agg, hq⟩
      obtain ⟨-, hwindow, -⟩ := (hmem _ _ _).mp hq
      exact hwindow
    · intro hwindow
      have hagg := hs (window c a) a.key
      cases hslot : h.book.slot (window c a) a.key with
      | some slot => exact ⟨slot.agg, (hmem _ _ _).mpr ⟨slot, hwindow, hslot, rfl⟩⟩
      | none =>
        rw [hslot, Option.map_none, eq_comm, aggregate_eq_none, inWindow, map_eq_nil_iff,
          filter_eq_nil_iff] at hagg
        exact absurd (decide_eq_true ⟨rfl, rfl⟩) (hagg a ha)
  refine ⟨hspec.nodup, fun e he p hp => ?_, hincreasing, fun current hcurrent e he p hp => ?_, ?_⟩
  · obtain ⟨w, hq, hw⟩ := (hpoint e he p).mp hp
    obtain ⟨⟨a, -, -, rfl⟩, hagg⟩ := hstart w e.1 p.2 hq
    rw [← hagg]
    dsimp only [startedAt, inWindow]
    refine congrArg aggregate (congrArg _ (filter_congr fun b _ => ?_))
    rw [← hw, decide_eq_decide]
    exact and_congr_right fun _ => ⟨startNs_inj, congrArg _⟩
  · obtain ⟨w, hq, hw⟩ := (hpoint e he p).mp hp
    obtain ⟨⟨a, -, -, ha⟩, -⟩ := hstart w e.1 p.2 hq
    obtain ⟨-, hclosed, -⟩ := (hmem w e.1 p.2).mp hq
    cases includeOpen with
    | true => cases hcurrent
    | false =>
      obtain rfl := Option.some.inj hcurrent
      refine ⟨w, hclosed.resolve_left Bool.false_ne_true, ?_⟩
      rw [← hw, ← ha, startNs_window]
  · set closed : Accepted → Bool := fun a => Option.all (fun current => decide (window c a < current))
      (if includeOpen then none else some (now.toNat / c.resolutionNs)) with hdef
    have hiff : ∀ a, closed a = true ↔
        includeOpen = true ∨ window c a < now.toNat / c.resolutionNs := by
      intro a
      rw [hdef]
      cases includeOpen <;> simp
    have hone : ∀ e ∈ (h.book.drain c includeOpen now order).2,
        (e.2.points.aggs.flatMap fun p => startedAt c h.pending e.1 p.1).Perm
          ((h.pending.filter closed).filter fun a => a.key = e.1) := by
      intro e he
      have hsplit := perm_flatMap_filter (fun a => startNs c (window c a))
        ((hincreasing e he).imp ne_of_lt) (h.pending.filter fun a => a.key = e.1)
      rw [flatMap_map] at hsplit
      have hleft : ∀ k, ((h.pending.filter fun a => a.key = e.1).filter fun a =>
          startNs c (window c a) = k) = startedAt c h.pending e.1 k := by
        intro k
        rw [filter_filter, startedAt]
        refine filter_congr fun a _ => ?_
        rw [Bool.decide_and, Bool.and_comm]
      simp only [hleft] at hsplit
      refine hsplit.trans (Perm.of_eq ?_)
      rw [filter_filter, filter_filter]
      refine filter_congr fun a ha => ?_
      rw [Bool.and_comm]
      by_cases hkey : a.key = e.1
      · rw [decide_eq_true hkey, Bool.true_and, Bool.true_and, Bool.eq_iff_iff, decide_eq_true_eq,
          hiff, ← hclosed a ha, mem_map, hkey]
        constructor
        · rintro ⟨p, hp, hstarted⟩
          obtain ⟨w, hq, hw⟩ := (hpoint e he p).mp hp
          obtain ⟨⟨b, -, -, rfl⟩, -⟩ := hstart w e.1 p.2 hq
          rw [← startNs_inj (hw.trans hstarted)]
          exact ⟨p.2, hq⟩
        · rintro ⟨agg, hq⟩
          exact ⟨(_, agg), (hpoint e he _).mpr ⟨window c a, hq, rfl⟩, rfl⟩
      · rw [decide_eq_false hkey, Bool.false_and, Bool.false_and]
    have hall := perm_flatMap_filter Accepted.key hspec.nodup (h.pending.filter closed)
    rw [flatMap_map] at hall
    have hkeys : (h.pending.filter closed).filter (fun a =>
        a.key ∈ (h.book.drain c includeOpen now order).2.map Prod.fst) = h.pending.filter closed := by
      rw [filter_eq_self]
      intro a ha
      obtain ⟨hpending, hwindow⟩ := mem_filter.mp ha
      obtain ⟨agg, hq⟩ := (hclosed a hpending).mpr ((hiff a).mp hwindow)
      rw [decide_eq_true_eq, hspec.keys]
      exact mem_map_of_mem (f := fun p => p.2.1) hq
    rw [hkeys] at hall
    exact (Perm.flatMap_left _ hone).trans hall

end Drain

/-! ### Conservation -/

/-- What holds of the recordings and the batches along a history. -/
structure Tracked (c : Config) (h : History) : Prop where
  headed : h.Headed
  stored : h.Stored c
  once : h.log.Perm (h.pending ++ h.batches.flatMap (taken c))
  drained : ∀ d ∈ h.batches, DrainedWell c d
  known : ∀ d ∈ h.batches, d.pending.Subperm h.log

theorem pending_subperm (h : Tracked c h') : h'.pending.Subperm h'.log :=
  (sublist_append_left _ _).subperm.trans h.once.symm.subperm

namespace Tracked

theorem init : Tracked c init where
  headed := Headed.init
  stored _ _ := rfl
  once := Perm.refl _
  drained _ hd := absurd hd not_mem_nil
  known _ hd := absurd hd not_mem_nil

theorem ingest (ht : Tracked c h) {book : Book} {key : SeriesKey} {kind : Kind} {atNs : UInt64}
    {sample : Sample} (hheaders : book.headers = h.book.headers)
    (hwindows : book.windows = h.book.windows) :
    Tracked c (h.ingest c book key kind atNs sample) := by
  have hheaded : (h.ingest c book key kind atNs sample).Headed :=
    ht.headed.ingest hheaders hwindows
  have hstored : (h.ingest c book key kind atNs sample).Stored c :=
    ht.stored.ingest ht.headed hheaders hwindows
  refine ⟨hheaded, hstored, ?_, ?_, ?_⟩
  · unfold History.ingest
    dsimp only
    split
    · rw [append_assoc]
      refine (ht.once.append_right _).trans ?_
      rw [append_assoc]
      exact perm_append_comm.append_left _
    · exact ht.once
  · unfold History.ingest
    dsimp only
    split <;> exact ht.drained
  · unfold History.ingest
    dsimp only
    split
    · exact fun d hd => (ht.known d hd).trans (sublist_append_left _ _).subperm
    · exact ht.known

theorem step (ht : Tracked c h) {call : Call} (hstep : h.step c call = some h') :
    Tracked c h' := by
  cases call with
  | record o =>
    cases hstep
    exact ht.ingest rfl rfl
  | total name tags total now =>
    simp only [History.step] at hstep
    split at hstep
    · cases hstep
      exact ⟨⟨ht.headed.headers, ht.headed.log, ht.headed.agrees⟩, ht.stored, ht.once, ht.drained,
        ht.known⟩
    · cases hstep
      exact ht.ingest rfl rfl
  | drain includeOpen now order =>
    have hheaded := ht.headed.step hstep
    have hstored := ht.stored.step ht.headed hstep
    have hwell := @drainedWell _ _ includeOpen now order ht.headed ht.stored
    cases hstep
    refine ⟨hheaded, hstored, ?_, fun d hd => ?_, fun d hd => ?_⟩
    · -- the recordings that were pending are in the points or still pending
      dsimp only
      rw [flatMap_append, flatMap_singleton]
      have hsplit : h.pending.Perm ((if includeOpen then [] else
          h.pending.filter fun a => now.toNat / c.resolutionNs ≤ window c a) ++
          taken c ⟨if includeOpen then none else some (now.toNat / c.resolutionNs), h.pending,
            (h.book.drain c includeOpen now order).2⟩) := by
        refine Perm.trans ?_ (hwell.taken.symm.append_left _)
        cases includeOpen with
        | true => simp
        | false =>
          have hfilter := filter_append_perm
            (fun a => decide (now.toNat / c.resolutionNs ≤ window c a)) h.pending
          have hnot : ∀ a, (!decide (now.toNat / c.resolutionNs ≤ window c a)) =
              decide (window c a < now.toNat / c.resolutionNs) := fun a => by
            rw [← decide_not, decide_eq_decide, not_le]
          simp only [hnot] at hfilter
          exact hfilter.symm
      refine (ht.once.trans (hsplit.append_right _)).trans ?_
      rw [append_assoc]
      exact perm_append_comm.append_left _
    · rcases mem_append.mp hd with hold | hnew
      · exact ht.drained d hold
      · rw [mem_singleton.mp hnew]
        exact hwell
    · rcases mem_append.mp hd with hold | hnew
      · exact ht.known d hold
      · rw [mem_singleton.mp hnew]
        exact pending_subperm ht

theorem of_reachable (hr : Reachable (History.step c) History.init h) : Tracked c h :=
  hr.invariant init fun _ _ _ ht _ hs => ht.step hs

end Tracked

def increments (recordings : List Accepted) (key : SeriesKey) : ℕ :=
  ((recordings.filter fun a => a.key = key).map fun a => a.sample.increment).sum

def drainedCount (h : History) (key : SeriesKey) : ℕ :=
  (h.batches.map fun d => (d.series.map fun e =>
    if e.1 = key then (e.2.points.aggs.map fun p => p.2.total).sum else 0).sum).sum

def bookCount (h : History) (key : SeriesKey) : ℕ :=
  (h.book.windows.entries.map fun (_, series) =>
    ((series.lookup key).map fun slot => slot.agg.total).getD 0).sum

/-- Nothing is lost between recording and drain. -/
structure Conserves (c : Config) (h : History) : Prop where
  /-- every recording that was accepted is pending, or it is in one point -/
  once : h.log.Perm (h.pending ++ h.batches.flatMap (taken c))
  /-- a point says what the recordings say that came to its window since that was drained -/
  points : ∀ d ∈ h.batches, ∀ e ∈ d.series, ∀ p ∈ e.2.points.aggs,
    p.2.Says ((startedAt c d.pending e.1 p.1).map Accepted.sample)
  /-- they are in the window the point starts -/
  within : ∀ d ∈ h.batches, ∀ e ∈ d.series, ∀ p ∈ e.2.points.aggs,
    ∀ a ∈ startedAt c d.pending e.1 p.1,
      p.1 ≤ a.atNs.toNat ∧ a.atNs.toNat < p.1 + c.resolutionNs
  /-- a slot says what the pending recordings of its window say -/
  slots : ∀ w key slot, h.book.slot w key = some slot → slot.agg.Says (inWindow c h.pending w key)
  /-- a pending recording has a slot -/
  stored : ∀ a ∈ h.pending, (h.book.slot (window c a) a.key).isSome
  counts : ∀ key, increments h.log key ≤ U64_MAX →
    h.drainedCount key + h.bookCount key = increments h.log key
  increasing : ∀ d ∈ h.batches, ∀ e ∈ d.series, (e.2.points.aggs.map Prod.fst).Pairwise (· < ·)
  /-- with the open window left out, every point is of an earlier one -/
  closed : ∀ d ∈ h.batches, ∀ current, d.limit = some current → ∀ e ∈ d.series,
    ∀ p ∈ e.2.points.aggs, ∃ w < current, p.1 = w * c.resolutionNs

section Counts

theorem increments_append (l m : List Accepted) (key : SeriesKey) :
    increments (l ++ m) key = increments l key + increments m key := by
  simp only [increments, filter_append, map_append, sum_append]

theorem increments_perm {l m : List Accepted} (h : l.Perm m) (key : SeriesKey) :
    increments l key = increments m key :=
  ((h.filter _).map _).sum_eq

theorem increments_subperm {l m : List Accepted} (h : l.Subperm m) (key : SeriesKey) :
    increments l key ≤ increments m key := by
  obtain ⟨l', hperm, hsub⟩ := h
  rw [← increments_perm hperm]
  exact Sublist.sum_le_sum ((hsub.filter _).map _) fun _ _ => Nat.zero_le _

theorem increments_flatMap {α : Type*} (l : List α) (f : α → List Accepted) (key : SeriesKey) :
    increments (l.flatMap f) key = (l.map fun a => increments (f a) key).sum := by
  induction l with
  | nil => rfl
  | cons a l ih => rw [flatMap_cons, increments_append, ih, map_cons, sum_cons]

theorem increments_of_key {l : List Accepted} {key : SeriesKey} (h : ∀ a ∈ l, a.key = key) :
    increments l key = ((l.map Accepted.sample).map Sample.increment).sum := by
  rw [increments, filter_eq_self.mpr fun a ha => decide_eq_true (h a ha), map_map]
  rfl

theorem increments_of_ne {l : List Accepted} {key : SeriesKey} (h : ∀ a ∈ l, a.key ≠ key) :
    increments l key = 0 := by
  rw [increments, filter_eq_nil_iff.mpr fun a ha => by simpa using h a ha]
  rfl

end Counts

namespace Tracked

theorem fits (ht : Tracked c h) (key : SeriesKey) :
    ∃ kind, ∀ a ∈ h.log, a.key = key → a.sample.fits kind := by
  cases hfirst : firstHeader h.log key with
  | none =>
    refine ⟨.counter, fun a ha hkey => ?_⟩
    obtain ⟨-, hheader⟩ := ht.headed.log a ha
    rw [hkey, hfirst] at hheader
    cases hheader
  | some header =>
    refine ⟨header.kind, fun a ha hkey => ?_⟩
    obtain ⟨hfits, hheader⟩ := ht.headed.log a ha
    rw [hkey, hfirst] at hheader
    rw [Option.some.inj hheader]
    exact hfits

theorem count_drained (ht : Tracked c h) {d : Drained} (hd : d ∈ h.batches) {key : SeriesKey}
    (hmax : increments h.log key ≤ U64_MAX) :
    (d.series.map fun e => if e.1 = key then (e.2.points.aggs.map fun p => p.2.total).sum else 0).sum =
      increments (taken c d) key := by
  have hknown := ht.known d hd
  obtain ⟨kind, hkind⟩ := ht.fits key
  rw [taken, increments_flatMap]
  refine congrArg List.sum (map_congr_left fun e he => ?_)
  split
  · next heq =>
    rw [increments_flatMap]
    refine congrArg List.sum (map_congr_left fun p hp => ?_)
    have hkeys : ∀ a ∈ startedAt c d.pending e.1 p.1, a.key = key := fun a ha =>
      (of_decide_eq_true (mem_filter.mp ha).2).1.trans heq
    have hfits : ∀ s ∈ (startedAt c d.pending e.1 p.1).map Accepted.sample, s.fits kind := by
      intro s hs
      obtain ⟨a, ha, rfl⟩ := mem_map.mp hs
      exact hkind a (hknown.subset (mem_of_mem_filter ha)) (hkeys a ha)
    have hle : increments (startedAt c d.pending e.1 p.1) key ≤ U64_MAX :=
      (increments_subperm (filter_sublist.subperm.trans hknown) key).trans hmax
    rw [increments_of_key hkeys] at hle ⊢
    have htotal := total_aggregate hfits hle
    rw [(ht.drained d hd).points e he p hp] at htotal
    exact htotal
  · next hne =>
    refine (increments_of_ne fun a ha => ?_).symm
    obtain ⟨p, -, hstarted⟩ := mem_flatMap.mp ha
    rw [(of_decide_eq_true (mem_filter.mp hstarted).2).1]
    exact hne

theorem count_book (ht : Tracked c h) {key : SeriesKey} (hmax : increments h.log key ≤ U64_MAX) :
    h.bookCount key = increments h.pending key := by
  have hknown := pending_subperm ht
  obtain ⟨kind, hkind⟩ := ht.fits key
  set recordings := h.pending.filter fun a => a.key = key with hrecordings
  -- the recordings of the series, by windows
  have hall : (recordings.filter fun a =>
      window c a ∈ h.book.windows.entries.map Prod.fst) = recordings := by
    rw [filter_eq_self]
    intro a ha
    obtain ⟨hpending, hkey⟩ := mem_filter.mp ha
    obtain rfl := of_decide_eq_true hkey
    refine decide_eq_true (by_contra fun hnone => ?_)
    have hstored := ht.stored (window c a) a.key
    rw [Book.slot, SortedMap.find_eq_none.mpr hnone] at hstored
    have hnil := map_eq_nil_iff.mp (aggregate_eq_none.mp hstored.symm)
    exact filter_eq_nil_iff.mp hnil a hpending (decide_eq_true ⟨rfl, rfl⟩)
  have hsplit := perm_flatMap_filter (window c) h.book.windows.nodup_keys recordings
  rw [hall, flatMap_map] at hsplit
  have hself : increments recordings key = increments h.pending key := by
    rw [increments, hrecordings, filter_filter]
    simp only [Bool.and_self]
    rfl
  rw [← hself, ← increments_perm hsplit, increments_flatMap]
  refine congrArg List.sum (map_congr_left fun entry hentry => ?_)
  obtain ⟨w, series⟩ := entry
  have hwindow : (recordings.filter fun a => window c a = w).map Accepted.sample =
      inWindow c h.pending w key := by
    rw [hrecordings, filter_filter, inWindow]
    refine congrArg _ (filter_congr fun a _ => ?_)
    rw [Bool.decide_and, Bool.and_comm]
  have hkeys : ∀ a ∈ recordings.filter (fun a => window c a = w), a.key = key := fun a ha =>
    of_decide_eq_true (mem_filter.mp (mem_of_mem_filter ha)).2
  have hfits : ∀ s ∈ inWindow c h.pending w key, s.fits kind := by
    intro s hs
    rw [← hwindow] at hs
    obtain ⟨a, ha, rfl⟩ := mem_map.mp hs
    exact hkind a (hknown.subset (mem_of_mem_filter (mem_of_mem_filter ha))) (hkeys a ha)
  have hle : increments (recordings.filter fun a => window c a = w) key ≤ U64_MAX :=
    (increments_subperm ((filter_sublist.trans filter_sublist).subperm.trans hknown)
      key).trans hmax
  dsimp only
  rw [increments_of_key hkeys, hwindow] at hle ⊢
  rw [← total_aggregate hfits hle, ← ht.stored w key, Book.slot, SortedMap.mem_entries.mp hentry,
    Option.bind_some, Option.map_map]
  rfl

end Tracked

/-- In every history nothing that was accepted is lost or counted twice, however the recordings and
drains come, and whatever the times and the length of a window. -/
theorem conserves (hr : Reachable (step c) init h) : h.Conserves c := by
  have ht := Tracked.of_reachable hr
  refine ⟨ht.once, fun d hd e he p hp => ?_, fun d hd e he p hp a ha => ?_,
    fun w key slot hslot => ?_, fun a ha => ?_, fun key hmax => ?_,
    fun d hd => (ht.drained d hd).increasing, fun d hd => (ht.drained d hd).closed⟩
  · obtain ⟨kind, hkind⟩ := ht.fits e.1
    refine (@says_aggregate _ _ kind (fun s hs => ?_) ((ht.drained d hd).points e he p hp)).2
    obtain ⟨a, ha, rfl⟩ := List.mem_map.mp hs
    obtain ⟨hpending, hstarted⟩ := List.mem_filter.mp ha
    exact hkind a ((ht.known d hd).subset hpending) (of_decide_eq_true hstarted).1
  · obtain ⟨-, hstarted⟩ := List.mem_filter.mp ha
    rw [← (of_decide_eq_true hstarted).2, startNs_window]
    exact ⟨window_mul_le c a, Nat.lt_div_mul_add c.resolutionNs_pos⟩
  · obtain ⟨kind, hkind⟩ := ht.fits key
    have hstored := ht.stored w key
    rw [hslot] at hstored
    refine (@says_aggregate _ _ kind (fun s hs => ?_) hstored.symm).2
    obtain ⟨a, ha, rfl⟩ := List.mem_map.mp hs
    obtain ⟨hpending, hwindow⟩ := List.mem_filter.mp ha
    exact hkind a ((pending_subperm ht).subset hpending) (of_decide_eq_true hwindow).1
  · rw [Option.isSome_iff_ne_none]
    intro hnone
    have hstored := ht.stored (window c a) a.key
    rw [hnone] at hstored
    have hnil := List.map_eq_nil_iff.mp (aggregate_eq_none.mp hstored.symm)
    exact List.filter_eq_nil_iff.mp hnil a ha (decide_eq_true ⟨rfl, rfl⟩)
  · rw [increments_perm ht.once, increments_append, increments_flatMap, ht.count_book hmax,
      drainedCount, Nat.add_comm]
    refine congrArg _ (congrArg List.sum (List.map_congr_left fun d hd => ?_))
    exact ht.count_drained hd hmax

/-- Two counters and a timer, one of them late, with a drain between them. -/
def lateCounts : List Call :=
  [.record ⟨"sent", .counter, [], 1000000000, .count 2⟩,
    .record ⟨"sent", .counter, [], 2500000000, .count 3⟩,
    .drain false 2600000000 inOrder,
    .record ⟨"sent", .counter, [], 1500000000, .count 5⟩,
    .record ⟨"took", .timer, [], 2500000000, .duration 90⟩]

theorem conserves_lateCounts : ∃ h : History, Reachable (step seconds) init h ∧
    h.log.length = 4 ∧ h.Conserves seconds := by
  have hexec : (exec (step seconds) (fun _ _ => true) init lateCounts).map
      (fun h => h.log.length) = some 4 := by
    decide
  obtain ⟨h, hh, hlog⟩ := Option.map_eq_some_iff.mp hexec
  have hreach := reachable_of_exec hh
  exact ⟨h, hreach, hlog, conserves hreach⟩

end History

end Fibre.Stats
