import Fibre.Stats.Kinds

/-!
# High resolution series

A build with the feature for it keeps the samples of a recording that names a resolution as they are,
besides adding them to their window. Each series has a buffer for them. When it is full the oldest
sample makes room, and is counted. A drain empties the buffers and resets the counts; the times of the
dropped samples stay where they are, and are written anew with the first sample that is dropped.
-/

namespace Fibre.Stats

open Machine List

/-- The buffer of a series. -/
structure HighRes where
  resolution : ℕ
  samples : List (UInt64 × Sample)
  dropped : ℕ
  droppedFrom : UInt64
  droppedTo : UInt64

namespace HighRes

def new (resolution : ℕ) : HighRes := ⟨resolution, [], 0, 0, 0⟩

def push (h : HighRes) (atNs : UInt64) (sample : Sample) (cap : ℕ) : HighRes :=
  if cap ≤ h.samples.length then
    match h.samples with
    | first :: rest => { h with
        samples := rest ++ [(atNs, sample)]
        droppedFrom := if h.dropped = 0 then first.1 else h.droppedFrom
        droppedTo := first.1
        dropped := h.dropped + 1 }
    | [] => { h with samples := [(atNs, sample)] }
  else { h with samples := h.samples ++ [(atNs, sample)] }

/-- There is nothing to tell a drain. -/
def isIdle (h : HighRes) : Bool := h.samples.isEmpty && h.dropped = 0

/-- The buffer after a drain. -/
def drained (h : HighRes) : HighRes :=
  if h.isIdle then h else { h with samples := [], dropped := 0 }

end HighRes

/-- `keep_high_res`, with `high_res_buffer`. -/
def keepHighRes (buffer : ℕ) (high : KeyMap HighRes) (key : SeriesKey) (atNs : UInt64)
    (sample : Sample) (resolution : Option ℕ) : KeyMap HighRes :=
  match resolution with
  | none => high
  | some resolution =>
    let cap := max buffer 1
    high.insert key (((high.lookup key).getD (.new resolution)).push atNs sample cap)

/-- Samples that a drain reports as dropped. -/
structure Dropped where
  name : String
  tags : Tags
  count : ℕ
  fromNs : UInt64
  toNs : UInt64

/-- The samples of one series since the last flush. -/
structure HighSeries where
  name : String
  kind : Kind
  encoding : Encoding
  tags : Tags
  resolution : ℕ
  samples : List (UInt64 × Sample)

/-- The order in which the map of buffers is gone through. -/
structure HighOrder where
  list : List (Σ _ : SeriesKey, HighRes) → List (Σ _ : SeriesKey, HighRes)
  perm : ∀ l, (list l).Perm l

/-- What a drain reports as dropped for a series, if it knows the series. -/
def droppedOf (c : Config) (headers : KeyMap Header) (key : SeriesKey) (h : HighRes) :
    Option Dropped :=
  (headers.lookup key).bind fun _ =>
    if 0 < h.dropped then
      some ⟨key.name, stripCommon key.tags c.commonTags, h.dropped, h.droppedFrom, h.droppedTo⟩
    else none

/-- What a drain returns for a series, if it knows the series. -/
def samplesOf (c : Config) (headers : KeyMap Header) (key : SeriesKey) (h : HighRes) :
    Option HighSeries :=
  (headers.lookup key).bind fun header =>
    if h.samples = [] then none
    else some ⟨key.name, header.kind, header.encoding, stripCommon key.tags c.commonTags,
      h.resolution, h.samples⟩

/-- The buffers after a drain. -/
def emptied (high : KeyMap HighRes) : KeyMap HighRes where
  entries := high.entries.map fun e => ⟨e.1, e.2.drained⟩
  nodupKeys := by
    rw [List.NodupKeys, List.keys, List.map_map]
    exact high.nodupKeys

/-- The part of `drain` that is about the buffers. What it returns is listed with the keys. -/
def drainHighRes (c : Config) (headers : KeyMap Header) (order : HighOrder)
    (high : KeyMap HighRes) :
    KeyMap HighRes × List (SeriesKey × Dropped) × List (SeriesKey × HighSeries) :=
  let taken := (order.list high.entries).filter fun e => !e.2.isIdle
  (emptied high,
    taken.filterMap fun e => (droppedOf c headers e.1 e.2).map fun d => (e.1, d),
    taken.filterMap fun e => (samplesOf c headers e.1 e.2).map fun s => (e.1, s))

/-- A drain: what was recorded since the one before, and what it returned. -/
structure HighDrained where
  period : List (SeriesKey × UInt64 × Sample)
  dropped : List (SeriesKey × Dropped)
  series : List (SeriesKey × HighSeries)

/-- The book and its buffers, the accepted samples since the last drain, and the drains. -/
structure HighHistory where
  history : History
  high : KeyMap HighRes
  period : List (SeriesKey × UInt64 × Sample)
  drains : List HighDrained

inductive HighCall
  | record (o : Observation) (resolution : Option ℕ)
  | total (name : String) (tags : Tags) (total : ℕ) (now : UInt64)
  | drain (includeOpen : Bool) (now : UInt64) (order : Order) (highOrder : HighOrder)

namespace HighHistory

def init : HighHistory := ⟨.init, ∅, [], []⟩

def step (c : Config) (buffer : ℕ) (h : HighHistory) : HighCall → Option HighHistory
  | .record o resolution => (h.history.step c (.record o)).map fun history =>
    let key := c.key o.name o.tags
    -- a sample that is refused does not come to its buffer
    if history.book.refused = h.history.book.refused then
      { h with
        history := history
        high := keepHighRes buffer h.high key o.atNs o.sample resolution
        period := h.period ++ resolution.toList.map fun _ => (key, o.atNs, o.sample) }
    else { h with history := history }
  | .total name tags total now => (h.history.step c (.total name tags total now)).map fun history =>
    { h with history := history }
  | .drain includeOpen now order highOrder =>
    (h.history.step c (.drain includeOpen now order)).map fun history =>
      let (high, dropped, series) := drainHighRes c h.history.book.headers highOrder h.high
      ⟨history, high, [], h.drains ++ [⟨h.period, dropped, series⟩]⟩

end HighHistory

def samplesFor (period : List (SeriesKey × UInt64 × Sample)) (key : SeriesKey) :
    List (UInt64 × Sample) :=
  (period.filter fun r => r.1 = key).map Prod.snd

/-- Of a series with buffers of this size, a drain returns the last samples of its period that fit,
and reports the others as dropped, with the times of the first and the last of them. -/
structure HighDrained.Accounts (size : ℕ) (d : HighDrained) : Prop where
  kept : ∀ key, ((d.series.filter fun s => s.1 = key).map fun s => s.2.samples) =
    let recorded := samplesFor d.period key
    let kept := recorded.drop (recorded.length - min recorded.length size)
    if kept = [] then [] else [kept]
  lost : ∀ key, ((d.dropped.filter fun e => e.1 = key).map
      fun e => (e.2.count, e.2.fromNs, e.2.toNs)) =
    let recorded := samplesFor d.period key
    let lost := recorded.take (recorded.length - min recorded.length size)
    match lost.head?, lost.getLast? with
    | some first, some last => [(lost.length, first.1, last.1)]
    | _, _ => []

/-! ### One buffer -/

/-- The buffer holds the last of the samples that came to it, and tells of the others. -/
structure HighRes.Holds (cap : ℕ) (recorded : List (UInt64 × Sample)) (h : HighRes) : Prop where
  samples : h.samples = recorded.drop (recorded.length - cap)
  dropped : h.dropped = recorded.length - cap
  first : h.dropped ≠ 0 → recorded[0]?.map Prod.fst = some h.droppedFrom
  last : h.dropped ≠ 0 → recorded[h.dropped - 1]?.map Prod.fst = some h.droppedTo

namespace HighRes

variable {cap : ℕ} {recorded : List (UInt64 × Sample)} {h : HighRes}

theorem holds_new (cap resolution : ℕ) : (new resolution).Holds cap [] :=
  ⟨by simp [new], by simp [new], fun hne => absurd rfl hne, fun hne => absurd rfl hne⟩

theorem holds_drained (cap : ℕ) (h : HighRes) : h.drained.Holds cap [] := by
  rw [drained]
  split_ifs with hidle
  · simp only [isIdle, Bool.and_eq_true, List.isEmpty_iff, decide_eq_true_eq] at hidle
    obtain ⟨hsamples, hdropped⟩ := hidle
    exact ⟨by simp [hsamples], by simp [hdropped], fun hne => absurd hdropped hne,
      fun hne => absurd hdropped hne⟩
  · exact ⟨by simp, by simp, fun hne => absurd rfl hne, fun hne => absurd rfl hne⟩

theorem Holds.push (hh : h.Holds cap recorded) (hcap : 0 < cap) (atNs : UInt64) (sample : Sample) :
    (h.push atNs sample cap).Holds cap (recorded ++ [(atNs, sample)]) := by
  have hsamples := hh.samples
  have hdropped := hh.dropped
  have hlen := congrArg List.length hsamples
  rw [length_drop] at hlen
  by_cases hfull : cap ≤ h.samples.length
  · -- the buffer is full, and its first sample is the next one to be dropped
    have hlt : recorded.length - cap < recorded.length := by omega
    rw [drop_eq_getElem_cons hlt] at hsamples
    rw [HighRes.push, if_pos hfull, hsamples]
    refine ⟨?_, ?_, fun _ => ?_, fun _ => ?_⟩
    · have hone : recorded.length + 1 - cap = recorded.length - cap + 1 := by omega
      rw [length_append, length_singleton, hone, drop_append_of_le_length hlt]
    · rw [length_append, length_singleton]
      dsimp only
      omega
    · by_cases hzero : h.dropped = 0
      · have hcap' : recorded.length - cap = 0 := by omega
        simp only [if_pos hzero, hcap']
        rw [List.getElem?_append_left (by omega), List.getElem?_eq_getElem (by omega)]
        rfl
      · simp only [if_neg hzero]
        rw [List.getElem?_append_left (by omega)]
        exact hh.first hzero
    · simp only [Nat.add_sub_cancel, hdropped]
      rw [List.getElem?_append_left hlt, List.getElem?_eq_getElem hlt]
      rfl
  · have hzero : h.dropped = 0 := by omega
    have hall : recorded.length - cap = 0 := by omega
    have hall' : recorded.length + 1 - cap = 0 := by omega
    rw [HighRes.push, if_neg hfull]
    refine ⟨?_, ?_, fun hne => absurd hzero hne, fun hne => absurd hzero hne⟩
    · rw [length_append, length_singleton, hall', hsamples, hall, drop_zero,
        drop_zero]
    · rw [length_append, length_singleton, hall']
      exact hzero

end HighRes

/-! ### A drain -/

theorem filter_filterMap_key {β γ : Type} {l : List (Σ _ : SeriesKey, β)} (hl : l.NodupKeys)
    (f : SeriesKey → β → Option γ) (key : SeriesKey) :
    ((l.filterMap fun e => (f e.1 e.2).map fun g => (e.1, g)).filter fun r => r.1 = key).map
      Prod.snd = ((l.dlookup key).bind (f key)).toList := by
  induction l with
  | nil => rfl
  | cons e l ih =>
    obtain ⟨key', v⟩ := e
    rw [nodupKeys_cons] at hl
    obtain ⟨hnot, hl⟩ := hl
    have ih := ih hl
    by_cases hkey : key = key'
    · subst hkey
      rw [dlookup_eq_none.mpr hnot] at ih
      rw [dlookup_cons_eq, filterMap_cons]
      cases hf : f key v with
      | none => simpa [hf] using ih
      | some g => simpa [hf] using ih
    · rw [dlookup_cons_ne _ _ hkey, ← ih, filterMap_cons]
      cases hf : f key' v with
      | none => simp
      | some g => simp [Ne.symm hkey]

section Drain

variable {c : Config} {headers : KeyMap Header} {order : HighOrder} {high : KeyMap HighRes}
  {key : SeriesKey} {header : Header}

theorem dlookup_order (order : HighOrder) (high : KeyMap HighRes) (key : SeriesKey) :
    (order.list high.entries).dlookup key = high.lookup key :=
  perm_dlookup key ((perm_nodupKeys (order.perm _)).mpr high.nodupKeys) (order.perm _)

theorem lookup_emptied : (emptied high).lookup key = (high.lookup key).map HighRes.drained :=
  dlookup_map₂ (γ := fun _ : SeriesKey => HighRes) (f := fun _ => HighRes.drained) key

theorem filter_taken {γ : Type} (order : HighOrder) (high : KeyMap HighRes) (key : SeriesKey)
    (f : SeriesKey → HighRes → Option γ) :
    ((((order.list high.entries).filter fun e => !e.2.isIdle).filterMap fun e =>
      (f e.1 e.2).map fun g => (e.1, g)).filter fun r => r.1 = key).map Prod.snd =
      ((high.lookup key).bind fun h => if h.isIdle then none else f key h).toList := by
  have hnodup := (perm_nodupKeys (order.perm high.entries)).mpr high.nodupKeys
  rw [← dlookup_order order high key, ← filter_filterMap_key hnodup
    (fun key h => if h.isIdle then none else f key h), filterMap_filter]
  congr 3
  funext e
  cases e.2.isIdle <;> simp

theorem samples_taken {cap : ℕ} {recorded : List (UInt64 × Sample)} {h : HighRes}
    (hh : h.Holds cap recorded) (hheader : headers.lookup key = some header) :
    ((if h.isIdle then none else samplesOf c headers key h).toList.map HighSeries.samples) =
      if recorded.drop (recorded.length - cap) = [] then []
      else [recorded.drop (recorded.length - cap)] := by
  rw [← hh.samples]
  by_cases hidle : h.isIdle
  · have hempty : h.samples = [] := by
      rw [HighRes.isIdle, Bool.and_eq_true, List.isEmpty_iff] at hidle
      exact hidle.1
    rw [if_pos hidle, if_pos hempty]
    rfl
  · rw [if_neg hidle, samplesOf, hheader, Option.bind_some]
    split_ifs with hempty
    · rfl
    · rfl

theorem dropped_taken {cap : ℕ} {recorded : List (UInt64 × Sample)} {h : HighRes}
    (hh : h.Holds cap recorded) (hheader : headers.lookup key = some header) :
    ((if h.isIdle then none else droppedOf c headers key h).toList.map
      fun d => (d.count, d.fromNs, d.toNs)) =
      match (recorded.take (recorded.length - cap)).head?,
        (recorded.take (recorded.length - cap)).getLast? with
      | some first, some last =>
        [((recorded.take (recorded.length - cap)).length, first.1, last.1)]
      | _, _ => [] := by
  have hdropped := hh.dropped
  rcases Nat.eq_zero_or_pos h.dropped with hzero | hpos
  · have hnone : droppedOf c headers key h = none := by
      rw [droppedOf, hheader, Option.bind_some, hzero]
      rfl
    rw [hnone, ite_self, ← hdropped, hzero]
    rfl
  · have hbusy : ¬ h.isIdle = true := by
      rw [HighRes.isIdle, Bool.and_eq_true, decide_eq_true_eq]
      omega
    obtain ⟨first, hfirst, hfrom⟩ := Option.map_eq_some_iff.mp (hh.first hpos.ne')
    obtain ⟨last, hlast, hto⟩ := Option.map_eq_some_iff.mp (hh.last hpos.ne')
    have hlen : (recorded.take h.dropped).length = h.dropped := by
      rw [length_take]
      omega
    have hhead : (recorded.take h.dropped).head? = some first := by
      rw [List.head?_eq_getElem?, List.getElem?_take_of_lt hpos, hfirst]
    have hgetLast : (recorded.take h.dropped).getLast? = some last := by
      rw [List.getLast?_eq_getElem?, hlen, List.getElem?_take_of_lt (by omega), hlast]
    rw [if_neg hbusy, droppedOf, hheader, Option.bind_some, if_pos hpos, ← hdropped, hhead,
      hgetLast, hlen]
    simp only [Option.toList_some, map_cons, map_nil, hfrom, hto]

theorem drainHighRes_accounts {cap : ℕ} {period : List (SeriesKey × UInt64 × Sample)}
    (hheaders : ∀ key h, high.lookup key = some h → ∃ header, headers.lookup key = some header)
    (hnone : ∀ key, high.lookup key = none → samplesFor period key = [])
    (hholds : ∀ key h, high.lookup key = some h → h.Holds cap (samplesFor period key)) :
    HighDrained.Accounts cap
      ⟨period, (drainHighRes c headers order high).2.1, (drainHighRes c headers order high).2.2⟩ where
  kept key := by
    have hsub : ∀ n, n - min n cap = n - cap := fun n => by omega
    have htaken := congrArg (List.map HighSeries.samples)
      (filter_taken order high key (samplesOf c headers))
    rw [map_map] at htaken
    refine Eq.trans htaken ?_
    dsimp only
    rw [hsub]
    cases hlookup : high.lookup key with
    | none =>
      rw [hnone key hlookup, drop_nil, if_pos rfl]
      rfl
    | some h =>
      obtain ⟨header, hheader⟩ := hheaders key h hlookup
      exact samples_taken (hholds key h hlookup) hheader
  lost key := by
    have hsub : ∀ n, n - min n cap = n - cap := fun n => by omega
    have htaken := congrArg (List.map fun d : Dropped => (d.count, d.fromNs, d.toNs))
      (filter_taken order high key (droppedOf c headers))
    rw [map_map] at htaken
    refine Eq.trans htaken ?_
    dsimp only
    rw [hsub]
    cases hlookup : high.lookup key with
    | none =>
      rw [hnone key hlookup, take_nil]
      rfl
    | some h =>
      obtain ⟨header, hheader⟩ := hheaders key h hlookup
      exact dropped_taken (hholds key h hlookup) hheader

end Drain

/-! ### Histories -/

namespace History

variable {c : Config} {h h' : History} {header : Header}

theorem log_ingest {book : Book} {key : SeriesKey} {kind : Kind} {atNs : UInt64} {sample : Sample}
    (haccepted : (h.ingest c book key kind atNs sample).book.refused = book.refused) :
    (h.ingest c book key kind atNs sample).log = h.log ++ [⟨key, kind, atNs, sample⟩] := by
  unfold ingest at haccepted ⊢
  dsimp only at haccepted ⊢
  split at haccepted
  · next heq => rw [if_pos heq]
  · next hne => exact absurd haccepted hne

theorem prefix_log_ingest (c : Config) (h : History) (book : Book) (key : SeriesKey) (kind : Kind)
    (atNs : UInt64) (sample : Sample) : h.log <+: (h.ingest c book key kind atNs sample).log := by
  unfold ingest
  dsimp only
  split
  · exact prefix_append _ _
  · exact prefix_refl _

theorem prefix_log {call : Call} (hs : h.step c call = some h') : h.log <+: h'.log := by
  cases call with
  | record o =>
    cases hs
    exact prefix_log_ingest ..
  | total name tags total now =>
    simp only [step] at hs
    split at hs
    · cases hs
      exact prefix_refl _
    · cases hs
      exact prefix_log_ingest ..
  | drain includeOpen now order =>
    cases hs
    exact prefix_refl _

theorem lookup_of_step (hh : h.Headed) {call : Call} (hs : h.step c call = some h')
    {key : SeriesKey} (hlookup : h.book.headers.lookup key = some header) :
    h'.book.headers.lookup key = some header := by
  obtain ⟨more, hlog⟩ := prefix_log hs
  rw [hh.headers, firstHeader] at hlookup
  rw [(hh.step hs).headers, firstHeader, ← hlog, List.find?_append]
  cases hfind : h.log.find? fun a => a.key = key with
  | some a => rw [← hlookup, hfind]; rfl
  | none =>
    rw [hfind] at hlookup
    cases hlookup

end History

namespace HighHistory

variable {c : Config} {buffer : ℕ} {h h' : HighHistory}

theorem samplesFor_append (period more : List (SeriesKey × UInt64 × Sample)) (key : SeriesKey) :
    samplesFor (period ++ more) key = samplesFor period key ++ samplesFor more key := by
  rw [samplesFor, filter_append, map_append]
  rfl

/-- The buffers hold the samples of the period, of series that have a header, and the drains accounted
for theirs. -/
structure Keeps (buffer : ℕ) (h : HighHistory) : Prop where
  headed : h.history.Headed
  known : ∀ key hr, h.high.lookup key = some hr →
    ∃ header, h.history.book.headers.lookup key = some header
  fresh : ∀ key, h.high.lookup key = none → samplesFor h.period key = []
  holds : ∀ key hr, h.high.lookup key = some hr →
    hr.Holds (max buffer 1) (samplesFor h.period key)
  drains : ∀ d ∈ h.drains, d.Accounts (max buffer 1)

namespace Keeps

theorem init : init.Keeps buffer where
  headed := History.Headed.init
  known _ _ hlookup := by cases hlookup
  fresh _ _ := rfl
  holds _ _ hlookup := by cases hlookup
  drains _ hd := absurd hd not_mem_nil

theorem other (hk : h.Keeps buffer) {call : Call} {history : History}
    (hs : h.history.step c call = some history) : { h with history := history }.Keeps buffer where
  headed := hk.headed.step hs
  known key hr hlookup :=
    (hk.known key hr hlookup).imp fun _ => History.lookup_of_step hk.headed hs
  fresh := hk.fresh
  holds := hk.holds
  drains := hk.drains

theorem keep (hk : h.Keeps buffer) {key : SeriesKey} {atNs : UInt64} {sample : Sample}
    (resolution : Option ℕ) (hknown : ∃ header, h.history.book.headers.lookup key = some header) :
    { h with
      high := keepHighRes buffer h.high key atNs sample resolution
      period := h.period ++ resolution.toList.map fun _ => (key, atNs, sample) }.Keeps buffer := by
  cases resolution with
  | none =>
    have hsame : h.period ++ (none : Option ℕ).toList.map (fun _ => (key, atNs, sample)) =
        h.period := append_nil _
    rw [hsame]
    exact hk
  | some resolution =>
    have hself : samplesFor (h.period ++ [(key, atNs, sample)]) key =
        samplesFor h.period key ++ [(atNs, sample)] := by
      rw [samplesFor_append, samplesFor, samplesFor, filter_cons_of_pos (by simp)]
      rfl
    have hother : ∀ key', key' ≠ key →
        samplesFor (h.period ++ [(key, atNs, sample)]) key' = samplesFor h.period key' := by
      intro key' hne
      rw [samplesFor_append, samplesFor, samplesFor,
        filter_cons_of_neg (by simpa using Ne.symm hne)]
      exact append_nil _
    -- the buffer that the sample comes to is there, or is new
    have hbefore : (((h.high.lookup key).getD (.new resolution)).Holds (max buffer 1)
        (samplesFor h.period key)) := by
      cases hlookup : h.high.lookup key with
      | none =>
        rw [hk.fresh key hlookup]
        exact HighRes.holds_new _ _
      | some hr => exact hk.holds key hr hlookup
    have hafter := hbefore.push (Nat.lt_of_lt_of_le Nat.one_pos (le_max_right buffer 1)) atNs sample
    refine ⟨hk.headed, fun key' hr hlookup => ?_, fun key' hlookup => ?_, fun key' hr hlookup => ?_,
      hk.drains⟩
    all_goals
      by_cases heq : key' = key
    · rw [heq]
      exact hknown
    · exact hk.known key' hr (by rwa [keepHighRes, AList.lookup_insert_ne heq] at hlookup)
    · rw [keepHighRes, heq, AList.lookup_insert] at hlookup
      cases hlookup
    · rw [keepHighRes, AList.lookup_insert_ne heq] at hlookup
      exact (hother key' heq).trans (hk.fresh key' hlookup)
    · subst heq
      rw [keepHighRes, AList.lookup_insert] at hlookup
      rw [← Option.some.inj hlookup]
      exact hself ▸ hafter
    · rw [keepHighRes, AList.lookup_insert_ne heq] at hlookup
      exact (hother key' heq).symm ▸ hk.holds key' hr hlookup

theorem step (hk : h.Keeps buffer) {call : HighCall} (hs : h.step c buffer call = some h') :
    h'.Keeps buffer := by
  cases call with
  | record o resolution =>
    rw [HighHistory.step, Option.map_eq_some_iff] at hs
    obtain ⟨history, hstep, rfl⟩ := hs
    have hother := hk.other hstep
    dsimp only
    split
    · next haccepted =>
      refine hother.keep resolution ?_
      cases hstep
      have hlog := History.log_ingest haccepted
      rw [hother.headed.headers, hlog, History.firstHeader_append, if_pos rfl]
      cases firstHeader h.history.log (c.key o.name o.tags) with
      | none => exact ⟨_, rfl⟩
      | some header => exact ⟨_, rfl⟩
    · exact hother
  | total name tags total now =>
    obtain ⟨history, hstep, rfl⟩ := Option.map_eq_some_iff.mp hs
    exact hk.other hstep
  | drain includeOpen now order highOrder =>
    rw [HighHistory.step, Option.map_eq_some_iff] at hs
    obtain ⟨history, hstep, rfl⟩ := hs
    have hother := hk.other hstep
    have hlookup : ∀ {key hr}, (emptied h.high).lookup key = some hr →
        ∃ before, h.high.lookup key = some before ∧ before.drained = hr := by
      intro key hr hlookup
      rw [lookup_emptied] at hlookup
      exact Option.map_eq_some_iff.mp hlookup
    refine ⟨hother.headed, fun key hr hfind => ?_, fun _ _ => rfl, fun key hr hfind => ?_,
      fun d hd => ?_⟩
    · obtain ⟨before, hbefore, -⟩ := hlookup hfind
      exact hother.known key before hbefore
    · obtain ⟨before, -, rfl⟩ := hlookup hfind
      exact HighRes.holds_drained _ before
    · rcases mem_append.mp hd with hold | hnew
      · exact hk.drains d hold
      · rw [mem_singleton.mp hnew]
        exact drainHighRes_accounts hk.known hk.fresh hk.holds

end Keeps

/-- Every drain returns the last samples of each series since the drain before, as many as its buffer
takes, which is one at least, and reports the others. -/
theorem accounts_for_samples (hr : Reachable (step c buffer) init h) :
    ∀ d ∈ h.drains, d.Accounts (max buffer 1) :=
  (hr.invariant Keeps.init fun _ _ _ hk _ hs => Keeps.step hk hs).drains

/-- A hash map of buffers that is gone through as it is listed. -/
def highInOrder : HighOrder := ⟨id, fun _ => List.Perm.refl _⟩

/-- Three samples of a counter in one second, and a drain. -/
def overflow : List HighCall :=
  [.record ⟨"ticks", .counter, [], 1000000000, .count 1⟩ (some 1000000),
    .record ⟨"ticks", .counter, [], 1001000000, .count 2⟩ (some 1000000),
    .record ⟨"ticks", .counter, [], 1002000000, .count 3⟩ (some 1000000),
    .drain true 2000000000 History.inOrder highInOrder]

theorem accounts_for_samples_overflow : ∃ h : HighHistory,
    Reachable (step History.seconds 2) init h ∧
    (h.drains.map fun d => d.series.map fun s => s.2.samples) =
      [[[(1001000000, .count 2), (1002000000, .count 3)]]] ∧
    (h.drains.map fun d => d.dropped.map fun e => (e.2.count, e.2.fromNs, e.2.toNs)) =
      [[(1, 1000000000, 1000000000)]] ∧
    ∀ d ∈ h.drains, d.Accounts 2 := by
  have hkept : (exec (step History.seconds 2) (fun _ _ => true) init overflow).map
      (fun h => h.drains.map fun d => d.series.map fun s => s.2.samples) =
      some [[[(1001000000, .count 2), (1002000000, .count 3)]]] := by
    decide
  have hlost : (exec (step History.seconds 2) (fun _ _ => true) init overflow).map
      (fun h => h.drains.map fun d => d.dropped.map fun e => (e.2.count, e.2.fromNs, e.2.toNs)) =
      some [[(1, 1000000000, 1000000000)]] := by
    decide
  obtain ⟨h, hh, hseries⟩ := Option.map_eq_some_iff.mp hkept
  rw [hh] at hlost
  have hreach := reachable_of_exec hh
  exact ⟨h, hreach, hseries, Option.some.inj hlost, accounts_for_samples hreach⟩

/-- A buffer of size zero keeps the last sample. -/
theorem not_accounts_zero : ¬ ∀ (c : Config) (buffer : ℕ) (h : HighHistory),
    Reachable (step c buffer) init h → ∀ d ∈ h.drains, d.Accounts buffer := by
  intro hall
  have hexec : (exec (step History.seconds 0) (fun _ _ => true) init overflow).map
      (fun h => h.drains.map fun d => (d.series.map fun s => (s.1, s.2.samples))) =
      some [[(⟨"ticks", []⟩, [(1002000000, .count 3)])]] := by
    decide
  obtain ⟨h, hh, hdrains⟩ := Option.map_eq_some_iff.mp hexec
  obtain ⟨d, hd, hseries⟩ := List.map_eq_singleton_iff.mp hdrains
  have hkept := (hall _ 0 h (reachable_of_exec hh) d (hd ▸ List.mem_singleton_self d)).kept
    ⟨"ticks", []⟩
  obtain ⟨⟨key, s⟩, hs, heq⟩ := List.map_eq_singleton_iff.mp hseries
  obtain ⟨rfl, -⟩ := Prod.mk.inj heq
  rw [hs] at hkept
  simp at hkept

end HighHistory

end Fibre.Stats
