import Mathlib.Data.List.AList

/-!
# The tracing layer

A layer that collects the spans of one unit of work. A span marked as a root opens a trace, the
spans under it join, and the root's close finishes the trace. The layer keeps the traces that are
open by the id of their root, and for each span that is open the root of its trace, in two tables
under locks of their own. Each definition here is what one of the layer's callbacks does under one
lock.
-/

namespace Fibre.Tracing

open List

/-- The field that marks a span as the top of a trace. -/
def ROOT_FIELD : String := "fibre.root"

/-- A root's incoming trace id, in hex. -/
def TRACE_ID_FIELD : String := "fibre.trace_id"

/-- A root's parent span in another process, in hex. -/
def PARENT_REF_FIELD : String := "fibre.parent_ref"

/-- How many finished traces the ring keeps by default. -/
def DEFAULT_RING : ℕ := 256

/-- A field value. A float is its bits. -/
inductive Value
  | str (v : String)
  | int (v : Int64)
  | uint (v : UInt64)
  | float (bits : UInt64)
  | bool (v : Bool)
  deriving DecidableEq

/-- The fields of a span, by name. -/
abbrev Fields := AList fun _ : String => Value

inductive Level
  | trace
  | debug
  | info
  | warn
  | error
  deriving DecidableEq

/-- One span of a trace. Times are from the trace's own start. -/
structure Span where
  name : String
  target : String
  level : Level
  /-- The parent's index in the trace's own list, `none` at the root. -/
  parent : Option ℕ
  depth : ℕ
  opened : ℕ
  duration : ℕ
  fields : Fields

/-- A finished trace: the root and everything inside it, in the order the spans opened. -/
structure Trace where
  id : UInt64
  traceId : List UInt8
  parentRef : Option (List UInt8)
  startedAt : ℕ
  spans : List Span
  duration : ℕ

/-- A trace being built. -/
structure Open where
  id : UInt64
  traceId : List UInt8
  parentRef : Option (List UInt8)
  startedAt : ℕ
  started : ℕ
  spans : List Span
  /-- Span id to its index in `spans`. -/
  index : AList fun _ : UInt64 => ℕ
  /-- Every span id the trace took. -/
  ids : List UInt64
  root : UInt64

/-- What the layer keeps: the traces still running by the id of their root, the root of every open
span, and the last `ring` finished traces. -/
structure Inner where
  nextId : UInt64
  openTraces : AList fun _ : UInt64 => Open
  belongs : AList fun _ : UInt64 => UInt64
  finished : List Trace
  ring : ℕ

/-- The layer with room for `ring` finished traces. -/
def withRing (ring : ℕ) : Inner := ⟨1, ∅, ∅, [], ring⟩

/-- What a span is opened with: its metadata, and the fields in the order they are visited. -/
structure Attributes where
  name : String
  target : String
  level : Level
  values : List (String × Value)

/-- Visits fields in turn: a later value of a name replaces an earlier one. -/
def record (values : List (String × Value)) : Fields :=
  values.foldl (fun map v => map.insert v.1 v.2) ∅

/-- Whether the span is marked as a root. -/
def Attributes.isRoot (attrs : Attributes) : Bool :=
  (record attrs.values).lookup ROOT_FIELD = some (.bool true)

def hexDigit (c : Char) : Option ℕ :=
  if '0' ≤ c ∧ c ≤ '9' then some (c.toNat - '0'.toNat)
  else if 'a' ≤ c ∧ c ≤ 'f' then some (c.toNat - 'a'.toNat + 10)
  else if 'A' ≤ c ∧ c ≤ 'F' then some (c.toNat - 'A'.toNat + 10)
  else none

/-- Bytes from pairs of digits. The parser of a pair takes a sign before a single digit. -/
def hexPairs : List Char → Option (List UInt8)
  | [] => some []
  | [_] => none
  | a :: b :: rest => do
    let high ← if a = '+' then some 0 else hexDigit a
    let low ← hexDigit b
    let bytes ← hexPairs rest
    some (UInt8.ofNat (16 * high + low) :: bytes)

/-- The bytes that a text spells, `none` when it does not read as hex. -/
def fromHex (text : String) : Option (List UInt8) :=
  if text = "" ∨ ¬ text.toList.all fun c => c.toNat < 128 then none else hexPairs text.toList

/-- Readings of the clocks in one step: the time of day, and the monotonic clock when a trace
starts and when a span does. -/
structure Clock where
  system : ℕ
  started : ℕ
  now : ℕ

/-! ### Opening a span -/

def Inner.rootOf (inner : Inner) (span : UInt64) : Option UInt64 := inner.belongs.lookup span

/-- The root that a new span joins: itself when it is marked, else its parent's. -/
def Inner.newRoot (inner : Inner) (attrs : Attributes) (this : UInt64)
    (parentSpan : Option UInt64) : Option UInt64 :=
  if attrs.isRoot then some this else parentSpan.bind inner.rootOf

/-- A field of a root that names bytes in hex. -/
def Attributes.incoming (attrs : Attributes) (field : String) : Option (List UInt8) :=
  match (record attrs.values).lookup field with
  | some (.str text) => fromHex text
  | _ => none

/-- The trace that a root opens, with no span yet. -/
def Inner.newOpen (inner : Inner) (fresh : UInt64 → List UInt8) (attrs : Attributes)
    (this : UInt64) (clock : Clock) : Open where
  id := inner.nextId
  traceId := (attrs.incoming TRACE_ID_FIELD).getD (fresh inner.nextId)
  parentRef := attrs.incoming PARENT_REF_FIELD
  startedAt := clock.system
  started := clock.started
  spans := []
  index := ∅
  ids := []
  root := this

/-- A root opens its trace, under the next id. -/
def Inner.openRoot (inner : Inner) (fresh : UInt64 → List UInt8) (attrs : Attributes)
    (this : UInt64) (clock : Clock) : Inner :=
  { inner with
    nextId := inner.nextId + 1
    openTraces := inner.openTraces.insert this (inner.newOpen fresh attrs this clock) }

/-- A span as it joins a trace, under its parent if that is in the trace. -/
def Open.newSpan (held : Open) (attrs : Attributes) (parentSpan : Option UInt64) (now : ℕ) : Span :=
  let parent := parentSpan.bind fun p => held.index.lookup p
  { name := attrs.name
    target := attrs.target
    level := attrs.level
    parent := parent
    -- an index is that of a span of the trace
    depth := parent.elim 0 fun i => held.spans[i]?.elim 0 Span.depth + 1
    opened := now - held.started
    duration := 0
    fields := record attrs.values }

theorem Open.newSpan_depth (held : Open) (attrs : Attributes) (parentSpan : Option UInt64)
    (now : ℕ) : (held.newSpan attrs parentSpan now).depth =
      (held.newSpan attrs parentSpan now).parent.elim 0
        fun i => held.spans[i]?.elim 0 Span.depth + 1 :=
  rfl

/-- A trace with one more span. -/
def Open.add (held : Open) (attrs : Attributes) (this : UInt64) (parentSpan : Option UInt64)
    (now : ℕ) : Open :=
  { held with
    index := held.index.insert this held.spans.length
    ids := held.ids ++ [this]
    spans := held.spans ++ [held.newSpan attrs parentSpan now] }

/-- Under the lock of the open traces, a span joins the trace of `root`, which a root opens first.
Returns whether there is such a trace. -/
def Inner.join (inner : Inner) (fresh : UInt64 → List UInt8) (attrs : Attributes)
    (this root : UInt64) (parentSpan : Option UInt64) (clock : Clock) : Bool × Inner :=
  let inner := if attrs.isRoot then inner.openRoot fresh attrs this clock else inner
  match inner.openTraces.lookup root with
  | none => (false, inner)
  | some held =>
    (true, { inner with
      openTraces := inner.openTraces.insert root (held.add attrs this parentSpan clock.now) })

theorem Inner.join_of_isRoot (inner : Inner) (fresh : UInt64 → List UInt8) {attrs : Attributes}
    (this : UInt64) (parentSpan : Option UInt64) (clock : Clock) (h : attrs.isRoot = true) :
    inner.join fresh attrs this this parentSpan clock =
      (true, { inner with
        nextId := inner.nextId + 1
        openTraces := inner.openTraces.insert this
          ((inner.newOpen fresh attrs this clock).add attrs this parentSpan clock.now) }) := by
  simp only [join, if_pos h, openRoot, AList.lookup_insert, AList.insert_insert]

theorem Inner.join_of_not_isRoot {inner : Inner} (fresh : UInt64 → List UInt8)
    {attrs : Attributes} (this : UInt64) {root : UInt64} (parentSpan : Option UInt64)
    (clock : Clock) {held : Open} (h : attrs.isRoot = false)
    (hheld : inner.openTraces.lookup root = some held) :
    inner.join fresh attrs this root parentSpan clock =
      (true, { inner with
        openTraces := inner.openTraces.insert root
          (held.add attrs this parentSpan clock.now) }) := by
  simp only [join, h, Bool.false_eq_true, if_false, hheld]

/-- Notes the root of a span. -/
def Inner.link (inner : Inner) (this root : UInt64) : Inner :=
  { inner with belongs := inner.belongs.insert this root }

/-! ### Recording fields -/

/-- More fields of a span, which replace those of the same names. -/
def Open.extendFields (held : Open) (i : ℕ) (values : Fields) : Open :=
  { held with
    spans := held.spans.modify i fun span => { span with fields := values ∪ span.fields } }

/-- Under the lock of the open traces, extends the fields of a span in the trace of `root`. -/
def Inner.extendFields (inner : Inner) (this root : UInt64) (values : Fields) : Inner :=
  match inner.openTraces.lookup root with
  | none => inner
  | some held =>
    match held.index.lookup this with
    | none => inner
    | some i =>
      { inner with openTraces := inner.openTraces.insert root (held.extendFields i values) }

theorem Inner.extendFields_of_lookup {inner : Inner} {this root : UInt64} (values : Fields)
    {held : Open} {i : ℕ} (hheld : inner.openTraces.lookup root = some held)
    (hi : held.index.lookup this = some i) :
    inner.extendFields this root values =
      { inner with openTraces := inner.openTraces.insert root (held.extendFields i values) } := by
  simp only [extendFields, hheld, hi]

/-! ### Closing a span -/

/-- Takes a span out of the table of roots. -/
def Inner.unlink (inner : Inner) (this : UInt64) : Inner :=
  { inner with belongs := inner.belongs.erase this }

/-- Notes how long a span was open. -/
def Open.setDuration (held : Open) (this : UInt64) (now : ℕ) : Open :=
  match held.index.lookup this with
  | none => held
  | some i =>
    { held with
      spans := held.spans.modify i fun span =>
        { span with duration := (now - held.started) - span.opened } }

@[simp]
theorem Open.setDuration_root (held : Open) (this : UInt64) (now : ℕ) :
    (held.setDuration this now).root = held.root := by
  unfold setDuration
  split <;> rfl

@[simp]
theorem Open.setDuration_index (held : Open) (this : UInt64) (now : ℕ) :
    (held.setDuration this now).index = held.index := by
  unfold setDuration
  split <;> rfl

/-- Under the lock of the open traces, a span closes; the root's close takes its trace out. -/
def Inner.closeSpan (inner : Inner) (this root : UInt64) (now : ℕ) : Option Open × Inner :=
  match inner.openTraces.lookup root with
  | none => (none, inner)
  | some held =>
    let held := held.setDuration this now
    if held.root ≠ this then
      (none, { inner with openTraces := inner.openTraces.insert root held })
    else
      (some held, { inner with openTraces := inner.openTraces.erase root })

theorem Inner.closeSpan_of_ne {inner : Inner} {this root : UInt64} {held : Open} (now : ℕ)
    (hheld : inner.openTraces.lookup root = some held) (h : held.root ≠ this) :
    inner.closeSpan this root now =
      (none, { inner with
        openTraces := inner.openTraces.insert root (held.setDuration this now) }) := by
  simp [closeSpan, hheld, h]

theorem Inner.closeSpan_of_eq {inner : Inner} {this root : UInt64} {held : Open} (now : ℕ)
    (hheld : inner.openTraces.lookup root = some held) (h : held.root = this) :
    inner.closeSpan this root now =
      (some (held.setDuration this now),
        { inner with openTraces := inner.openTraces.erase root }) := by
  simp [closeSpan, hheld, h]

/-- Takes every id that a finished trace took out of the table of roots. -/
def Inner.sweep (inner : Inner) (ids : List UInt64) : Inner :=
  { inner with belongs := ids.foldl (fun belongs id => belongs.erase id) inner.belongs }

theorem Inner.rootOf_sweep {inner : Inner} {ids : List UInt64}
    (h : ∀ k ∈ ids, inner.rootOf k = none) (k : UInt64) :
    (inner.sweep ids).rootOf k = inner.rootOf k := by
  induction ids generalizing inner with
  | nil => rfl
  | cons id ids ih =>
    have hsame : ∀ k, (inner.unlink id).rootOf k = inner.rootOf k := by
      intro k
      by_cases hk : k = id
      · rw [hk, rootOf, unlink, AList.lookup_erase]
        exact (h id mem_cons_self).symm
      · exact AList.lookup_erase_ne hk
    have htail : ((inner.unlink id).sweep ids).rootOf k = (inner.unlink id).rootOf k :=
      ih fun k hk => (hsame k).trans (h k (mem_cons_of_mem _ hk))
    exact htail.trans (hsame k)

def Open.finish (held : Open) (now : ℕ) : Trace :=
  { id := held.id
    traceId := held.traceId
    parentRef := held.parentRef
    startedAt := held.startedAt
    spans := held.spans
    duration := now - held.started }

/-- The ring keeps the last traces; one of size zero keeps none. -/
def Inner.push (inner : Inner) (trace : Trace) : Inner :=
  if inner.ring = 0 then inner
  else
    let finished := inner.finished ++ [trace]
    { inner with finished := finished.drop (finished.length - inner.ring) }

theorem Inner.finished_push {inner : Inner} {traces : List Trace}
    (h : inner.finished = traces.drop (traces.length - inner.ring)) (trace : Trace) :
    (inner.push trace).finished =
      (traces ++ [trace]).drop ((traces ++ [trace]).length - inner.ring) := by
  rw [length_append, length_singleton]
  unfold push
  split
  next hring =>
    rw [h, hring, Nat.sub_zero, Nat.sub_zero, drop_length, drop_eq_nil_of_le]
    simp
  next hring =>
    show (inner.finished ++ [trace]).drop ((inner.finished ++ [trace]).length - inner.ring) = _
    rw [h, ← drop_append_of_le_length (Nat.sub_le ..), drop_drop, length_drop,
      length_append, length_singleton]
    congr 1
    omega

@[simp]
theorem Inner.push_openTraces (inner : Inner) (trace : Trace) :
    (inner.push trace).openTraces = inner.openTraces := by
  unfold push
  split <;> rfl

@[simp]
theorem Inner.push_belongs (inner : Inner) (trace : Trace) :
    (inner.push trace).belongs = inner.belongs := by
  unfold push
  split <;> rfl

@[simp]
theorem Inner.push_ring (inner : Inner) (trace : Trace) : (inner.push trace).ring = inner.ring := by
  unfold push
  split <;> rfl

end Fibre.Tracing
