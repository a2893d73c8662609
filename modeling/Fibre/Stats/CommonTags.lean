import Fibre.Stats.Conservation

/-!
# The common tags of a batch

A series is kept under its name and its tags with the common ones. A batch lists the common tags
once, and the tags of a series without them. The tags of the series come back from these if no name
has two of the common tags: the tag a series gives itself is taken out of the batch if it is any of
the common tags, also if it is one that another of the same name overrides.
-/

namespace Fibre.Stats

open Machine List

def Config.Unambiguous (c : Config) : Prop :=
  ∀ t ∈ c.commonTags, ∀ u ∈ c.commonTags, t.name = u.name → t = u

namespace History

variable {c : Config} {h h' : History}

def batchTags (c : Config) (key : SeriesKey) : Tags :=
  normalize (c.commonTags ++ stripCommon key.tags c.commonTags)

/-- The tags of the series come back from the batches, and no two series of a batch have the same
name and tags. -/
structure KeepsTags (c : Config) (h : History) : Prop where
  restored : ∀ a ∈ h.log, batchTags c a.key = a.key.tags
  distinct : ∀ d ∈ h.batches,
    ((batchOf c d.series).series.map fun s => (s.name, s.tags)).Nodup

/-- The series have the name and the tags of a recording. -/
structure Named (c : Config) (h : History) : Prop where
  headed : h.Headed
  keyed : ∀ a ∈ h.log, ∃ name own, a.key = c.key name own
  nodup : ∀ d ∈ h.batches, (d.series.map Prod.fst).Nodup
  series : ∀ d ∈ h.batches, ∀ e ∈ d.series,
    e.2.name = e.1.name ∧ e.2.tags = stripCommon e.1.tags c.commonTags ∧ ∃ a ∈ h.log, a.key = e.1

namespace Named

theorem init : Named c init where
  headed := Headed.init
  keyed _ ha := absurd ha not_mem_nil
  nodup _ hd := absurd hd not_mem_nil
  series _ hd := absurd hd not_mem_nil

theorem ingest (hn : Named c h) {book : Book} (name : String) (own : Tags) {kind : Kind}
    {atNs : UInt64} {sample : Sample} (hheaders : book.headers = h.book.headers)
    (hwindows : book.windows = h.book.windows) :
    Named c (h.ingest c book (c.key name own) kind atNs sample) := by
  have hheaded : (h.ingest c book (c.key name own) kind atNs sample).Headed :=
    hn.headed.ingest hheaders hwindows
  unfold History.ingest at hheaded ⊢
  dsimp only at hheaded ⊢
  split at hheaded
  · next hrefused =>
    rw [if_pos hrefused]
    refine ⟨hheaded, fun a ha => ?_, hn.nodup, fun d hd e he => ?_⟩
    · rcases mem_append.mp ha with hold | hnew
      · exact hn.keyed a hold
      · obtain rfl := mem_singleton.mp hnew
        exact ⟨name, own, rfl⟩
    · obtain ⟨hname, htags, a, ha, hkey⟩ := hn.series d hd e he
      exact ⟨hname, htags, a, mem_append_left _ ha, hkey⟩
  · next hrefused =>
    rw [if_neg hrefused]
    exact ⟨hheaded, hn.keyed, hn.nodup, hn.series⟩

theorem exists_of_header (hn : Named c h) {key : SeriesKey} {header : Header}
    (hlookup : h.book.headers.lookup key = some header) : ∃ a ∈ h.log, a.key = key := by
  rw [hn.headed.headers, firstHeader, Option.map_eq_some_iff] at hlookup
  obtain ⟨a, hfind, -⟩ := hlookup
  exact ⟨a, mem_of_find?_eq_some hfind, by simpa using List.find?_some hfind⟩

theorem step (hn : Named c h) {call : Call} (hstep : h.step c call = some h') : Named c h' := by
  cases call with
  | record o =>
    cases hstep
    exact hn.ingest o.name o.tags rfl rfl
  | total name tags total now =>
    simp only [History.step] at hstep
    split at hstep
    · cases hstep
      exact ⟨⟨hn.headed.headers, hn.headed.log, hn.headed.agrees⟩, hn.keyed, hn.nodup, hn.series⟩
    · cases hstep
      exact hn.ingest name tags rfl rfl
  | drain includeOpen now order =>
    have hheaded := hn.headed.step hstep
    have hspec : SeriesOf c h.book.headers _ (h.book.drain c includeOpen now order).2 :=
      seriesOf_drain hn.headed
    cases hstep
    refine ⟨hheaded, hn.keyed, fun d hd => ?_, fun d hd e he => ?_⟩
    · rcases mem_append.mp hd with hold | hnew
      · exact hn.nodup d hold
      · rw [mem_singleton.mp hnew]
        exact hspec.nodup
    · rcases mem_append.mp hd with hold | hnew
      · exact hn.series d hold e he
      · rw [mem_singleton.mp hnew] at he
        obtain ⟨hname, htags, hlookup, -, -⟩ := hspec.entry e he
        exact ⟨hname, htags, hn.exists_of_header hlookup⟩

theorem of_reachable (hr : Reachable (History.step c) History.init h) : Named c h :=
  hr.invariant init fun _ _ _ hn _ hs => hn.step hs

end Named

theorem lastOf_of_unambiguous (hc : c.Unambiguous) {t : Tag} (ht : t ∈ c.commonTags) :
    lastOf c.commonTags t.name = some t := by
  obtain ⟨u, hu⟩ := exists_lastOf ht
  obtain ⟨hmem, hname⟩ := mem_of_lastOf hu
  rw [hu, hc u hmem t ht hname]

theorem keepsTags_of_unambiguous (hc : c.Unambiguous) (hr : Reachable (step c) init h) :
    KeepsTags c h := by
  have hn := Named.of_reachable hr
  have hrestored : ∀ a ∈ h.log, batchTags c a.key = a.key.tags := by
    intro a ha
    obtain ⟨name, own, hkey⟩ := hn.keyed a ha
    rw [batchTags, hkey, Config.tags_key]
    exact normalize_strip_iff.mpr fun t _ ht => lastOf_of_unambiguous hc ht
  refine ⟨hrestored, fun d hd => ?_⟩
  rw [batchOf, map_map, Nodup, pairwise_map]
  -- two series with one name and the same tags have one key
  refine (pairwise_map.mp (hn.nodup d hd)).imp_of_mem fun {e e'} he he' hne heq => hne ?_
  obtain ⟨hname, htags, a, ha, hkey⟩ := hn.series d hd e he
  obtain ⟨hname', htags', a', ha', hkey'⟩ := hn.series d hd e' he'
  obtain ⟨hnames, hstripped⟩ := Prod.mk.inj heq
  rw [hname, hname'] at hnames
  rw [htags, htags'] at hstripped
  have hback := hrestored a ha
  have hback' := hrestored a' ha'
  rw [hkey, batchTags] at hback
  rw [hkey', batchTags, ← hstripped, hback] at hback'
  calc e.1 = ⟨e.1.name, e.1.tags⟩ := rfl
    _ = ⟨e'.1.name, e'.1.tags⟩ := by rw [hnames, hback']
    _ = e'.1 := rfl

def tagged (t : Tag) : Call := .record ⟨"x", .counter, [t], 0, .count 1⟩

theorem log_tagged (c : Config) (t : Tag) :
    ∃ h : History, Reachable (step c) init h ∧ ∃ a ∈ h.log, a.key = c.key "x" [t] := by
  refine ⟨_, .tail (.refl init) trivial (show step c init (tagged t) = some _ from rfl), ?_⟩
  have hagrees : Book.Agrees .new := fun _ _ _ hslot => by cases hslot
  have haccepts : Book.new.Accepts (c.key "x" [t]) .counter (.count 1) :=
    ⟨rfl, fun _ hlookup => by cases hlookup⟩
  have hrefused : (Book.new.ingest c.resolutionNs (c.key "x" [t]) .counter 0 (.count 1)).refused =
      Book.new.refused := (Book.accepts_iff hagrees).mpr haccepts
  refine ⟨⟨c.key "x" [t], .counter, 0, .count 1⟩, ?_, rfl⟩
  show _ ∈ (init.ingest c .new (c.key "x" [t]) .counter 0 (.count 1)).log
  unfold ingest
  dsimp only
  rw [if_pos hrefused]
  exact mem_append_right _ mem_cons_self

/-- The batches of every history have the tags of the series exactly if no name has two of the common
tags. -/
theorem keepsTags_iff (c : Config) :
    (∀ h, Reachable (step c) init h → KeepsTags c h) ↔ c.Unambiguous := by
  refine ⟨fun hall => ?_, fun hc h hr => keepsTags_of_unambiguous hc hr⟩
  -- a series may give itself any of the common tags
  have hlast : ∀ t ∈ c.commonTags, lastOf c.commonTags t.name = some t := by
    intro t ht
    obtain ⟨h, hr, a, ha, hkey⟩ := log_tagged c t
    have hback := (hall h hr).restored a ha
    rw [batchTags, hkey, Config.tags_key] at hback
    refine normalize_strip_iff.mp hback t (mem_normalize.mpr ?_) ht
    rw [lastOf_append, lastOf_singleton]
    rfl
  intro t ht u hu hname
  have heq := hlast t ht
  rw [hname, hlast u hu] at heq
  exact (Option.some.inj heq).symm

/-- Two common tags of one name. -/
def overridden : Config := ⟨[⟨"env", "a"⟩, ⟨"env", "b"⟩], 1000000000⟩

/-- A series with the first of them and a series with none, and a drain. -/
def sameTags : List Call :=
  [.record ⟨"x", .counter, [⟨"env", "a"⟩], 0, .count 1⟩, .record ⟨"x", .counter, [], 0, .count 1⟩,
    .drain true 0 inOrder]

theorem not_keepsTags_overridden : ¬ ∀ h, Reachable (step overridden) init h →
    KeepsTags overridden h := by
  intro hall
  have hexec : (exec (step overridden) (fun _ _ => true) init sameTags).map
      (fun h => h.batches.map fun d => d.series.map fun e => (e.1.tags, e.2.name, e.2.tags)) =
      some [[([⟨"env", "b"⟩], "x", []), ([⟨"env", "a"⟩], "x", [])]] := by
    decide
  obtain ⟨h, hh, hbatches⟩ := Option.map_eq_some_iff.mp hexec
  have hdistinct := (hall h (reachable_of_exec hh)).distinct
  obtain ⟨d, hd⟩ : ∃ d, h.batches = [d] := by
    rw [← List.length_eq_one_iff, ← List.length_map, hbatches]
    rfl
  rw [hd, List.map_singleton, List.singleton_inj] at hbatches
  have hnodup := hdistinct d (hd ▸ List.mem_cons_self)
  have htags : (batchOf overridden d.series).series.map (fun s => (s.name, s.tags)) =
      (d.series.map fun e => (e.1.tags, e.2.name, e.2.tags)).map Prod.snd := by
    rw [batchOf, List.map_map, List.map_map]
    rfl
  rw [htags, hbatches] at hnodup
  exact absurd hnodup (by decide)

end History

end Fibre.Stats
