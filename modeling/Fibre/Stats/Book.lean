import Mathlib.Data.List.AList
import Mathlib.Data.List.Induction
import Mathlib.Data.Nat.Bitwise
import Fibre.Math.SortedMap
import Fibre.Stats.Tag

/-!
# The book of the statistics

The book keeps one aggregate for each series and window. A recording is refused when its sample does
not fit its kind, or when the series was first recorded with another kind or another encoding. A drain
takes the windows that have ended out of the book and makes a batch of them.

The maps of series are hash maps, and a drain goes through them in any order. The samples of high
resolution series, which a build with the default features does not keep, are left out.
-/

namespace Fibre.Stats

/-- What a metric measures. -/
inductive Kind
  | counter
  | gauge
  | timer
  | state
  deriving DecidableEq

inductive Encoding
  | int
  | count
  | percent
  | normalized
  | ratio32
  | state
  | histogram
  deriving DecidableEq

/-- An integer of any width. -/
structure IntValue where
  bits : ℕ
  signed : Bool
  value : ℤ
  deriving DecidableEq

/-- What a gauge holds. The fixed point numbers are told by their bits. -/
inductive NumberValue
  | int (v : IntValue)
  | count (v : ℕ)
  | percent (bits : ℕ)
  | normalized (bits : ℕ)
  | ratio32 (numer denom : ℤ)
  deriving DecidableEq

def NumberValue.encoding : NumberValue → Encoding
  | .int _ => .int
  | .count _ => .count
  | .percent _ => .percent
  | .normalized _ => .normalized
  | .ratio32 _ _ => .ratio32

/-- What a state metric holds. -/
inductive StateValue
  | bool (v : Bool)
  | char (v : Char)
  | enum (enumName label : String)
  deriving DecidableEq

/-- One recorded value. A duration is in nanoseconds. -/
inductive Sample
  | count (n : ℕ)
  | number (v : NumberValue)
  | state (s : StateValue)
  | duration (ns : ℕ)
  deriving DecidableEq

namespace Sample

def encoding : Sample → Encoding
  | .count _ => .count
  | .number v => v.encoding
  | .state _ => .state
  | .duration _ => .histogram

def fits (sample : Sample) (kind : Kind) : Bool :=
  match kind, sample with
  | .counter, .count _ | .gauge, .number _ | .state, .state _ | .timer, .duration _ => true
  | _, _ => false

end Sample

def U64_MAX : ℕ := 2 ^ 64 - 1

def U32_MAX : ℕ := 2 ^ 32 - 1

/-! ### Histograms -/

def SUB_BUCKET_BITS : ℕ := 3

def SUB_BUCKETS : ℕ := 1 <<< SUB_BUCKET_BITS

def bucketIndex (ns : ℕ) : ℕ :=
  if ns < SUB_BUCKETS then ns
  else
    let octave := Nat.log2 ns
    let sub := (ns >>> (octave - SUB_BUCKET_BITS)) &&& (SUB_BUCKETS - 1)
    octave * SUB_BUCKETS + sub

/-- Durations recorded in one window of one series. -/
structure Histogram where
  count : ℕ
  sumNs : ℕ
  minNs : ℕ
  maxNs : ℕ
  buckets : SortedMap ℕ ℕ

namespace Histogram

def new : Histogram := ⟨0, 0, 0, 0, .empty⟩

def addNs (h : Histogram) (ns : ℕ) : Histogram where
  count := h.count + 1
  sumNs := min (h.sumNs + ns) U64_MAX
  minNs := if h.count = 0 then ns else min h.minNs ns
  maxNs := if h.count = 0 then ns else max h.maxNs ns
  buckets := h.buckets.alter (bucketIndex ns) fun
    | some n => min (n + 1) U32_MAX
    | none => 1

def add (h : Histogram) (duration : ℕ) : Histogram := h.addNs (min duration U64_MAX)

def of (durations : List ℕ) : Histogram := durations.foldl add new

theorem of_append_singleton (ds : List ℕ) (d : ℕ) : of (ds ++ [d]) = (of ds).add d := by
  rw [of, List.foldl_append]
  rfl

end Histogram

/-! ### The book -/

structure SeriesKey where
  name : String
  tags : Tags
  deriving DecidableEq

structure Header where
  kind : Kind
  encoding : Encoding
  deriving DecidableEq

inductive Agg
  | count (n : ℕ)
  | number (v : NumberValue)
  | state (s : StateValue)
  | hist (h : Histogram)

namespace Agg

def start : Sample → Agg
  | .count n => .count n
  | .number v => .number v
  | .state s => .state s
  | .duration d => .hist (Histogram.new.add d)

def absorb (agg : Agg) (sample : Sample) : Agg :=
  match agg, sample with
  | .count total, .count n => .count (min (total + n) U64_MAX)
  | .number _, .number v => .number v
  | .state _, .state s => .state s
  | .hist h, .duration d => .hist (h.add d)
  | agg, _ => agg

def kind : Agg → Kind
  | .count _ => .counter
  | .number _ => .gauge
  | .state _ => .state
  | .hist _ => .timer

end Agg

/-- One series in one window. -/
structure Slot where
  header : Header
  agg : Agg

inductive RefusalReason
  | sampleKind (kind : Kind) (encoding : Encoding)
  | kindChanged (was now : Kind)
  | encodingChanged (was now : Encoding)
  deriving DecidableEq

/-- A recording the book did not accept. -/
structure Refusal where
  name : String
  tags : Tags
  reason : RefusalReason

abbrev KeyMap (β : Type) := AList fun _ : SeriesKey => β

structure Book where
  headers : KeyMap Header
  windows : SortedMap ℕ (KeyMap Slot)
  totals : KeyMap ℕ
  refused : ℕ
  lastRefusal : Option Refusal

/-- The tags added to every series, and the length of a window in nanoseconds. -/
structure Config where
  commonTags : Tags
  resolution : ℕ

/-- One recording of one metric. -/
structure Observation where
  name : String
  kind : Kind
  tags : Tags
  atNs : UInt64
  sample : Sample

namespace Config

def resolutionNs (c : Config) : ℕ := max (min c.resolution U64_MAX) 1

theorem resolutionNs_pos (c : Config) : 0 < c.resolutionNs :=
  Nat.lt_of_lt_of_le Nat.one_pos (le_max_right _ _)

def key (c : Config) (name : String) (tags : Tags) : SeriesKey where
  name := name
  tags := if c.commonTags = [] then normalize tags else normalize (c.commonTags ++ tags)

theorem tags_key (c : Config) (name : String) (tags : Tags) :
    (c.key name tags).tags = normalize (c.commonTags ++ tags) := by
  unfold key
  dsimp only
  split
  · next hnil => rw [hnil, List.nil_append]
  · rfl

end Config

namespace Book

def new : Book := ⟨∅, .empty, ∅, 0, none⟩

def refuse (book : Book) (key : SeriesKey) (reason : RefusalReason) : Book :=
  { book with
    refused := book.refused + 1
    lastRefusal := some ⟨key.name, key.tags, reason⟩ }

def slot (book : Book) (window : ℕ) (key : SeriesKey) : Option Slot :=
  (book.windows.find window).bind fun series => series.lookup key

/-- A window gets another slot of a series, or changes the one it has. -/
def insertSlot (book : Book) (window : ℕ) (key : SeriesKey) (slot : Slot) : Book :=
  { book with windows := book.windows.alter window fun series =>
      (series.getD ∅).insert key slot }

/-- A recording. -/
def ingest (book : Book) (res : ℕ) (key : SeriesKey) (kind : Kind) (atNs : UInt64)
    (sample : Sample) : Book :=
  let encoding := sample.encoding
  if !sample.fits kind then book.refuse key (.sampleKind kind encoding)
  else
    let window := atNs.toNat / res
    match book.slot window key with
    | some slot =>
      if slot.header.kind ≠ kind then book.refuse key (.kindChanged slot.header.kind kind)
      else if slot.header.encoding ≠ encoding then
        book.refuse key (.encodingChanged slot.header.encoding encoding)
      else book.insertSlot window key { slot with agg := slot.agg.absorb sample }
    | none =>
      match book.headers.lookup key with
      | some header =>
        if header.kind ≠ kind then book.refuse key (.kindChanged header.kind kind)
        else if header.encoding ≠ encoding then
          book.refuse key (.encodingChanged header.encoding encoding)
        else book.insertSlot window key ⟨⟨kind, encoding⟩, .start sample⟩
      | none =>
        { book with headers := book.headers.insert key ⟨kind, encoding⟩ }.insertSlot window key
          ⟨⟨kind, encoding⟩, .start sample⟩

/-- The total of a counter is remembered, and the increment since the last one is what is to be
recorded. -/
def total (book : Book) (key : SeriesKey) (total : ℕ) : Book × Option ℕ :=
  ({ book with totals := book.totals.insert key total },
    (book.totals.lookup key).map fun previous =>
      if previous ≤ total then total - previous else total)

end Book

/-! ### Batches -/

/-- The points of one series, with the start of their window. -/
inductive Points
  | counts (v : List (ℕ × ℕ))
  | numbers (v : List (ℕ × NumberValue))
  | states (v : List (ℕ × StateValue))
  | histograms (v : List (ℕ × Histogram))

def emptyPoints : Kind → Points
  | .counter => .counts []
  | .gauge => .numbers []
  | .state => .states []
  | .timer => .histograms []

def pushPoint (points : Points) (atNs : ℕ) (agg : Agg) : Points :=
  match points, agg with
  | .counts v, .count n => .counts (v ++ [(atNs, n)])
  | .numbers v, .number n => .numbers (v ++ [(atNs, n)])
  | .states v, .state s => .states (v ++ [(atNs, s)])
  | .histograms v, .hist h => .histograms (v ++ [(atNs, h)])
  | points, _ => points

/-- One series' points since the last flush. -/
structure SeriesBatch where
  name : String
  kind : Kind
  encoding : Encoding
  tags : Tags
  resolution : ℕ
  points : Points

structure Batch where
  commonTags : Tags
  series : List SeriesBatch

/-- The order in which a hash map is gone through. -/
structure Order where
  list : List (Σ _ : SeriesKey, Slot) → List (Σ _ : SeriesKey, Slot)
  perm : ∀ l, (list l).Perm l

/-- A point goes to its series in the batch, which is there already or is started. The series are
listed with their keys, as `index` finds them. -/
def pushSeries (c : Config) (headers : KeyMap Header) (series : List (SeriesKey × SeriesBatch))
    (point : ℕ × SeriesKey × Agg) : List (SeriesKey × SeriesBatch) :=
  let (window, key, agg) := point
  let atNs := min (window * c.resolutionNs) U64_MAX
  match headers.lookup key with
  | none => series
  | some header =>
    if key ∈ series.map Prod.fst then
      series.map fun (k, s) =>
        if k = key then (k, { s with points := pushPoint s.points atNs agg }) else (k, s)
    else
      series ++ [(key, {
        name := key.name
        kind := header.kind
        encoding := header.encoding
        tags := stripCommon key.tags c.commonTags
        resolution := c.resolution
        points := pushPoint (emptyPoints header.kind) atNs agg })]

namespace Book

/-- The aggregates of some windows, as a drain comes to them. -/
def points (order : Order) (windows : SortedMap ℕ (KeyMap Slot)) : List (ℕ × SeriesKey × Agg) :=
  windows.entries.flatMap fun (window, series) =>
    (order.list series.entries).map fun slot => (window, slot.1, slot.2.agg)

/-- Takes the windows that have ended, or all of them. -/
def drain (book : Book) (c : Config) (includeOpen : Bool) (now : UInt64) (order : Order) :
    Book × List (SeriesKey × SeriesBatch) :=
  let current := now.toNat / c.resolutionNs
  let closed := if includeOpen then book.windows else book.windows.below current
  let windows := if includeOpen then .empty else book.windows.upFrom current
  ({ book with windows := windows },
    (points order closed).foldl (pushSeries c book.headers) [])

end Book

/-- What a drain hands on. -/
def batchOf (c : Config) (series : List (SeriesKey × SeriesBatch)) : Batch :=
  ⟨c.commonTags, series.map Prod.snd⟩

end Fibre.Stats
