import Fibre.Stats.Kinds

/-!
# What a drain makes

A drain goes through the slots of the windows it takes and gives each to its series in the batch. Each
series has one entry then, with one point for each of its slots, in the order of the windows.
-/

namespace Fibre.Stats

open List

namespace Points

def aggs : Points → List (ℕ × Agg)
  | .counts v => v.map fun p => (p.1, .count p.2)
  | .numbers v => v.map fun p => (p.1, .number p.2)
  | .states v => v.map fun p => (p.1, .state p.2)
  | .histograms v => v.map fun p => (p.1, .hist p.2)

def kind : Points → Kind
  | .counts _ => .counter
  | .numbers _ => .gauge
  | .states _ => .state
  | .histograms _ => .timer

variable {points : Points} {agg : Agg} {atNs : ℕ}

theorem kind_emptyPoints (kind : Kind) : (emptyPoints kind).kind = kind := by cases kind <;> rfl

theorem aggs_emptyPoints (kind : Kind) : (emptyPoints kind).aggs = [] := by cases kind <;> rfl

theorem pushPoint_spec (h : agg.kind = points.kind) :
    (pushPoint points atNs agg).aggs = points.aggs ++ [(atNs, agg)] ∧
      (pushPoint points atNs agg).kind = points.kind := by
  cases points <;> cases agg <;> first
    | exact ⟨map_append, rfl⟩
    | cases h

end Points

def startNs (c : Config) (window : ℕ) : ℕ := min (window * c.resolutionNs) U64_MAX

section Series

variable {c : Config} {headers : KeyMap Header} {slots : List (ℕ × SeriesKey × Agg)}

def pointsOf (c : Config) (slots : List (ℕ × SeriesKey × Agg)) (key : SeriesKey) : List (ℕ × Agg) :=
  (slots.filter fun p => p.2.1 = key).map fun p => (startNs c p.1, p.2.2)

/-- The series of a batch, one for each key that has a slot. -/
structure SeriesOf (c : Config) (headers : KeyMap Header) (slots : List (ℕ × SeriesKey × Agg))
    (series : List (SeriesKey × SeriesBatch)) : Prop where
  keys : ∀ key, key ∈ series.map Prod.fst ↔ key ∈ slots.map fun p => p.2.1
  nodup : (series.map Prod.fst).Nodup
  entry : ∀ e ∈ series, e.2.name = e.1.name ∧
    e.2.tags = stripCommon e.1.tags c.commonTags ∧
    headers.lookup e.1 = some ⟨e.2.kind, e.2.encoding⟩ ∧
    e.2.points.kind = e.2.kind ∧ e.2.points.aggs = pointsOf c slots e.1

theorem SeriesOf.push_old {series : List (SeriesKey × SeriesBatch)}
    (h : SeriesOf c headers slots series) {window : ℕ} {key : SeriesKey} {agg : Agg} {header : Header}
    (hlookup : headers.lookup key = some header) (hkind : agg.kind = header.kind)
    (hmem : key ∈ series.map Prod.fst) :
    SeriesOf c headers (slots ++ [(window, key, agg)])
      (series.map fun (k, s) =>
        if k = key then (k, { s with points := pushPoint s.points (startNs c window) agg })
        else (k, s)) := by
  have hfst : (series.map fun (k, s) =>
      if k = key then (k, { s with points := pushPoint s.points (startNs c window) agg })
      else (k, s)).map Prod.fst = series.map Prod.fst := by
    rw [map_map]
    refine map_congr_left fun e _ => ?_
    dsimp only [Function.comp_apply]
    split <;> rfl
  refine ⟨fun k => ?_, hfst ▸ h.nodup, fun e he => ?_⟩
  · rw [hfst, h.keys, map_append, mem_append]
    refine ⟨Or.inl, fun hor => hor.elim id fun hk => ?_⟩
    rw [mem_singleton.mp hk]
    exact (h.keys key).mp hmem
  · obtain ⟨⟨k, s⟩, hks, rfl⟩ := mem_map.mp he
    obtain ⟨hname, htags, hheader, hpoints, haggs⟩ := h.entry _ hks
    dsimp only at hname htags hheader hpoints haggs ⊢
    by_cases heq : k = key
    · rw [if_pos heq]
      subst heq
      rw [hlookup] at hheader
      have hsame : agg.kind = s.points.kind := by
        rw [hpoints, hkind, Option.some.inj hheader]
      obtain ⟨hnew, hkept⟩ := Points.pushPoint_spec hsame
      refine ⟨hname, htags, hlookup.trans hheader, hkept.trans hpoints, ?_⟩
      dsimp only
      rw [hnew, haggs, pointsOf, pointsOf, filter_append, map_append]
      simp
    · rw [if_neg heq]
      refine ⟨hname, htags, hheader, hpoints, ?_⟩
      dsimp only
      rw [haggs, pointsOf, pointsOf, filter_append, map_append]
      simp [Ne.symm heq]

theorem SeriesOf.push_new {series : List (SeriesKey × SeriesBatch)}
    (h : SeriesOf c headers slots series) {window : ℕ} {key : SeriesKey} {agg : Agg} {header : Header}
    (hlookup : headers.lookup key = some header) (hkind : agg.kind = header.kind)
    (hmem : key ∉ series.map Prod.fst) :
    SeriesOf c headers (slots ++ [(window, key, agg)])
      (series ++ [(key, {
        name := key.name
        kind := header.kind
        encoding := header.encoding
        tags := stripCommon key.tags c.commonTags
        resolution := c.resolution
        points := pushPoint (emptyPoints header.kind) (startNs c window) agg })]) := by
  have hnone : slots.filter (fun p => p.2.1 = key) = [] := by
    rw [filter_eq_nil_iff]
    intro p hp heq
    refine hmem ((h.keys key).mpr ?_)
    rw [← of_decide_eq_true heq]
    exact mem_map_of_mem (f := fun p => p.2.1) hp
  refine ⟨fun k => ?_, ?_, fun e he => ?_⟩
  · rw [map_append, mem_append, h.keys, map_append, mem_append]
    rfl
  · rw [map_append, nodup_append']
    refine ⟨h.nodup, nodup_singleton _, ?_⟩
    rw [disjoint_right]
    intro k hk
    rw [mem_singleton.mp hk]
    exact hmem
  · rcases mem_append.mp he with hold | hnew
    · obtain ⟨hname, htags, hheader, hpoints, haggs⟩ := h.entry e hold
      refine ⟨hname, htags, hheader, hpoints, ?_⟩
      have hne : ¬ key = e.1 := by
        rintro rfl
        exact hmem (mem_map_of_mem hold)
      rw [haggs, pointsOf, pointsOf, filter_append, map_append]
      simp [hne]
    · obtain rfl := mem_singleton.mp hnew
      obtain ⟨hpush, hkept⟩ := Points.pushPoint_spec
        (by rw [hkind, Points.kind_emptyPoints])
      refine ⟨rfl, rfl, hlookup, hkept.trans (Points.kind_emptyPoints _), ?_⟩
      dsimp only
      rw [hpush, Points.aggs_emptyPoints, pointsOf, filter_append, hnone]
      simp

/-- A drain gives each slot to its series. -/
theorem series_spec (h : ∀ p ∈ slots, ∃ header, headers.lookup p.2.1 = some header ∧
    p.2.2.kind = header.kind) : SeriesOf c headers slots (slots.foldl (pushSeries c headers) []) := by
  induction slots using List.reverseRecOn with
  | nil => exact ⟨fun _ => Iff.rfl, nodup_nil, fun _ he => absurd he not_mem_nil⟩
  | append_singleton slots p ih =>
    obtain ⟨window, key, agg⟩ := p
    have ih := ih fun q hq => h q (mem_append_left _ hq)
    obtain ⟨header, hlookup, hkind⟩ := h (window, key, agg)
      (mem_append_right _ mem_cons_self)
    rw [foldl_append, foldl_cons, foldl_nil]
    unfold pushSeries
    dsimp only at hlookup hkind ⊢
    rw [hlookup]
    dsimp only
    split
    · next hmem => exact ih.push_old hlookup hkind hmem
    · next hmem => exact ih.push_new hlookup hkind hmem

end Series

/-! ### The slots of the windows -/

namespace Book

variable {order : Order} {windows : SortedMap ℕ (KeyMap Slot)}

theorem mem_points {window : ℕ} {key : SeriesKey} {agg : Agg} :
    (window, key, agg) ∈ points order windows ↔
      ∃ slot : Slot, ((windows.find window).bind fun series => series.lookup key) = some slot ∧
        slot.agg = agg := by
  unfold points
  rw [mem_flatMap]
  constructor
  · rintro ⟨⟨w, series⟩, hw, hmem⟩
    obtain ⟨⟨k, slot⟩, hslot, heq⟩ := mem_map.mp hmem
    simp only [Prod.mk.injEq] at heq
    obtain ⟨rfl, rfl, rfl⟩ := heq
    refine ⟨slot, ?_, rfl⟩
    rw [SortedMap.mem_entries.mp hw, Option.bind_some]
    exact AList.mem_lookup_iff.mpr ((order.perm _).mem_iff.mp hslot)
  · rintro ⟨slot, hslot, rfl⟩
    obtain ⟨series, hw, hlookup⟩ := Option.bind_eq_some_iff.mp hslot
    refine ⟨(window, series), SortedMap.mem_entries.mpr hw, mem_map.mpr ?_⟩
    exact ⟨⟨key, slot⟩, (order.perm _).mem_iff.mpr (AList.mem_lookup_iff.mp hlookup), rfl⟩

theorem sorted_points (key : SeriesKey) :
    ((points order windows).filter fun p => p.2.1 = key).Pairwise fun p q => p.1 < q.1 := by
  unfold points
  rw [filter_flatMap, pairwise_flatMap]
  constructor
  · -- a window has one slot of the series at most
    rintro ⟨w, series⟩ -
    rw [filter_map, pairwise_map]
    have hnodup : ((order.list series.entries).map Sigma.fst).Nodup :=
      ((order.perm _).map Sigma.fst).nodup_iff.mpr series.nodupKeys
    refine ((pairwise_map.mp hnodup).filter _).imp_of_mem fun {a b} ha hb hne => ?_
    have hak := of_decide_eq_true (mem_filter.mp ha).2
    have hbk := of_decide_eq_true (mem_filter.mp hb).2
    exact absurd (hak.trans hbk.symm) hne
  · have hsorted := pairwise_map.mp windows.sorted
    refine hsorted.imp fun {a b} hlt p hp q hq => ?_
    obtain ⟨_, -, rfl⟩ := mem_map.mp (mem_of_mem_filter hp)
    obtain ⟨_, -, rfl⟩ := mem_map.mp (mem_of_mem_filter hq)
    exact hlt

end Book

end Fibre.Stats
