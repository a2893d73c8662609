import Fibre.Math.Machine
import Fibre.Math.Word
import Mathlib.Data.Nat.Log

/-!
# The bounded channel with tickets

A producer that sees room claims tickets at the tail, and then looks again whether they are in the
window; those that are not it fills with tombstones. A ticket has a slot in a chunk, and the chunk
has a place in a fixed table: a producer of a later chunk takes the place over when the consumer has
retired the chunk that is there. The consumer walks along the slots, and tells the producers what it
has drained in two counters: `drained` is fresh, and `progress`, the window of the hot path, is
behind.

Every access to a shared atomic is a step. Payloads belong to the store of the slot's state.
-/

namespace Fibre.Channels.Mpsc

open Function

/-- The capacity, the slots of a chunk and the places of the table. -/
structure Shape where
  cap : ℕ
  chunkCap : ℕ
  n : ℕ
  cap_pos : 0 < cap
  chunkCap_pos : 0 < chunkCap
  n_pos : 0 < n

/-- Claims beyond the capacity that the table has places for. -/
def SLACK : ℕ := 64

namespace Shape

/-- The layout `Shared::new` chooses. -/
def new (cap chunkFloor : ℕ) (h : 0 < chunkFloor) : Shape :=
  let cap' := max cap 1
  let chunkCap := min (max (2 ^ Nat.clog 2 cap') chunkFloor) 1024
  { cap := cap'
    chunkCap := chunkCap
    n := (cap' + SLACK + chunkCap - 1) / chunkCap + 2
    cap_pos := by omega
    chunkCap_pos := by omega
    n_pos := Nat.succ_pos _ }

/-- `ticket >> self.log2` -/
def chunk (shape : Shape) (ticket : ℕ) : ℕ := ticket / shape.chunkCap

/-- `ticket & self.mask` -/
def idx (shape : Shape) (ticket : ℕ) : ℕ := ticket % shape.chunkCap

/-- The place of a chunk in the table. -/
def place (shape : Shape) (cid : ℕ) : ℕ := cid % shape.n

end Shape

/-- `usize::wrapping_sub` -/
def wrappingSub (a b : ℕ) : ℕ := (a + 2 ^ 64 - b % 2 ^ 64) % 2 ^ 64

theorem wrappingSub_of_le {a b : ℕ} (h : b ≤ a) (ha : a < 2 ^ 64) : wrappingSub a b = a - b := by
  unfold wrappingSub
  omega

theorem le_sub_of_le_wrappingSub {a b n : ℕ} (h : b ≤ a) (hn : n ≤ wrappingSub a b) :
    n ≤ a - b := by
  unfold wrappingSub at hn
  omega

/-- `EMPTY`, `SET` with its payload, and `SKIP`. -/
inductive Slot (T : Type*)
  | empty
  | set (v : T)
  | skip
  deriving DecidableEq

def Slot.item {T : Type*} : Slot T → Option T
  | .set v => some v
  | _ => none

/-- The consumer's drain cursor. -/
structure Head where
  cid : ℕ
  idx : ℕ
  pos : ℕ
  unpublished : ℕ
  publishChunk : ℕ

/-- The counters, the chunk table and the cursor. The waiters are left out: what a party knows of
them when it decides is open here. -/
structure Shared (T : Type*) where
  gTail : ℕ
  progress : ℕ
  drained : ℕ
  consumerRetired : ℕ
  runCap : ℕ
  /-- the chunk that has the place -/
  id : ℕ → ℕ
  slots : ℕ → ℕ → Slot T
  head : Head
  receiverDropped : Bool

/-- `deq_once` and `deq_run`: how many items it may take, and what it has. -/
structure Deq (T : Type*) where
  once : Bool
  max : ℕ
  out : List T

/-- Where the consumer is: the access it makes next. A dequeue is `none` in a flush. -/
inductive Consumer (T : Type*)
  | idle
  /-- loads the id of the chunk's place -/
  | look (d : Deq T)
  /-- the chunk is drained: stores `consumer_retired` -/
  | retire (d : Deq T)
  /-- loads the state of the slot -/
  | load (d : Deq T)
  /-- takes what is in the slot and stores `EMPTY` -/
  | drain (d : Deq T)
  /-- loads `async_send_waiter_count` -/
  | count (d : Deq T)
  /-- `publish_progress` stores `drained` -/
  | publishDrained (d : Option (Deq T))
  /-- and `progress` -/
  | publishProgress (d : Option (Deq T))
  /-- stores `drained` -/
  | store (d : Deq T)
  /-- found nothing: loads `g_tail` -/
  | tail
  /-- `set_publish_chunk` stores `run_cap` -/
  | runCap (k : ℕ)

/-- The head of the loop. -/
def Deq.next {T : Type*} (d : Deq T) : Consumer T :=
  if d.out.length < d.max then .look d else .store d

/-- The counter a claim is checked against. -/
inductive Mode
  | hot
  | cold
  deriving DecidableEq

/-- A send: the handle it is made through, whether it claims runs, whether it waits, the items it
has not sent, and how many it has. -/
structure Call (T : Type*) where
  handle : ℕ
  batch : Bool
  waits : Bool
  items : List T
  sent : ℕ

/-- What goes into the slots of the tickets `t..t+k`. -/
def Call.writes {T : Type*} (c : Call T) (t k valid : ℕ) : List (ℕ × Option T) :=
  (List.range k).map fun j => (t + j, if j < valid then c.items[j]? else none)

/-- Tickets that are to be resolved: the send with the items that will be left, the tickets with
what goes into their slots, how many of them the producer has the chunk for, and whether some were
claimed in vain. -/
structure Writes (T : Type*) where
  mode : Mode
  call : Call T
  todo : List (ℕ × Option T)
  segment : ℕ
  short : Bool

/-- What a call returned. -/
inductive Result (T : Type*)
  | sent (count : ℕ)
  | full (sent : ℕ) (unsent : List T)
  | closed (sent : ℕ) (unsent : List T)
  | isFull (answer : Bool)

/-- Where a producer is: the access it makes next, or what it has returned. -/
inductive Producer (T : Type*)
  | idle
  /-- loads the flag of the handle and `receiver_dropped` -/
  | enter (c : Call T)
  /-- the loop of a batch loads `receiver_dropped` -/
  | again (m : Mode) (c : Call T)
  /-- loads `run_cap` -/
  | runCap (m : Mode) (c : Call T)
  /-- loads `g_tail` -/
  | gate (m : Mode) (c : Call T) (runCap : ℕ)
  /-- loads the counter -/
  | window (m : Mode) (c : Call T) (runCap g : ℕ)
  /-- claims `k` tickets -/
  | claim (m : Mode) (c : Call T) (k : ℕ)
  /-- loads the counter again -/
  | credit (m : Mode) (c : Call T) (t k : ℕ)
  /-- `ensure_resident` loads the id of the chunk's place -/
  | resident (w : Writes T)
  /-- loads `consumer_retired` -/
  | retired (w : Writes T) (cur : ℕ)
  /-- takes the place over -/
  | install (w : Writes T) (cur : ℕ)
  /-- writes the slot -/
  | write (w : Writes T)
  /-- between the attempts of a send that waits -/
  | waiting (c : Call T)
  /-- `publish_from_drained` has loaded `drained` -/
  | publish (c : Call T) (d : ℕ)
  /-- `len` loads `g_tail` -/
  | lenTail
  /-- and `drained` -/
  | lenDrained (tail : ℕ)
  | done (r : Result T)

namespace Producer

variable {T : Type*}

/-- No call is under way. -/
def resting : Producer T → Bool
  | .idle | .done _ => true
  | _ => false

def attempt (m : Mode) (c : Call T) : Producer T :=
  -- a single item is a run of one
  if c.batch then .runCap m c else .gate m c 1

def closedWindow (m : Mode) (c : Call T) : Producer T :=
  if c.waits then .waiting c
  else
    match m with
    | .hot => if c.batch then .again .cold c else .attempt .cold c
    | .cold => .done (.full c.sent c.items)

/-- All tickets of a claim are resolved. -/
def finish (w : Writes T) : Producer T :=
  if w.call.items = [] then .done (.sent w.call.sent)
  -- a single item that found no credit is tried again
  else if !w.call.batch then .attempt w.mode w.call
  else if w.call.waits then .waiting w.call
  else if w.short then
    match w.mode with
    | .hot => .again .cold w.call
    | .cold => .done (.full w.call.sent w.call.items)
  else .again w.mode w.call

end Producer

namespace Shared

variable {T : Type*} (shape : Shape)

/-- `Shared::new` -/
def new (publishChunk : ℕ) : Shared T where
  gTail := 0
  progress := 0
  drained := 0
  consumerRetired := 0
  runCap := min (max publishChunk 1) shape.cap
  id i := i
  slots _ _ := .empty
  head := ⟨0, 0, 0, 0, min (max publishChunk 1) shape.cap⟩
  receiverDropped := false

def counter (s : Shared T) : Mode → ℕ
  | .hot => s.progress
  | .cold => s.drained

def setSlot (s : Shared T) (place idx : ℕ) (slot : Slot T) : Shared T :=
  { s with slots := update s.slots place (update (s.slots place) idx slot) }

/-! ### The consumer -/

def front (s : Shared T) : Slot T := s.slots (shape.place s.head.cid) s.head.idx

def take (s : Shared T) : Shared T :=
  { s.setSlot (shape.place s.head.cid) s.head.idx .empty with
    head := { s.head with
      idx := s.head.idx + 1
      pos := s.head.pos + 1
      unpublished := s.head.unpublished + 1 } }

/-- The consumer's next access, and an item it took. `waits` tells whether it finds an asynchronous
sender waiting. -/
def advanceConsumer (s : Shared T) (waits : Bool) : Consumer T →
    Option (Shared T × Consumer T × Option T)
  | .look d =>
    if s.id (shape.place s.head.cid) ≠ s.head.cid then some (s, .store d, none)
    else if s.head.idx = shape.chunkCap then some (s, .retire d, none)
    else some (s, .load d, none)
  | .retire d => some ({ s with
      consumerRetired := s.head.cid + 1
      head := { s.head with cid := s.head.cid + 1, idx := 0 } }, .look d, none)
  | .load d =>
    match s.front shape with
    | .empty => some (s, .store d, none)
    | _ => some (s, .drain d, none)
  | .drain d =>
    let t := s.take shape
    let d := { d with out := d.out ++ (s.front shape).item.toList }
    -- the cadence of the publications
    some (t, if t.head.publishChunk ≤ t.head.unpublished then .count d else d.next,
      (s.front shape).item)
  | .count d => some (s, if waits then .publishDrained (some d) else d.next, none)
  | .publishDrained d => some ({ s with drained := s.head.pos }, .publishProgress d, none)
  | .publishProgress d => some ({ s with
      progress := s.head.pos
      head := { s.head with unpublished := 0 } }, d.elim .idle Deq.next, none)
  | .store d => some ({ s with drained := s.head.pos },
      if d.once && d.out.isEmpty then .tail else .idle, none)
  | .tail => some (s, .idle, none)
  | .runCap k => some ({ s with runCap := k }, .idle, none)
  | .idle => none

/-! ### The producers -/

/-- How many tickets a claim is for, when the counters `g` and `d` were loaded. -/
def grant (c : Call T) (runCap g d : ℕ) : ℕ :=
  min (min c.items.length (shape.cap - wrappingSub g d)) runCap

/-- How many of the tickets `t..t+k` are in the window. -/
def valid (c : Call T) (t k d : ℕ) : ℕ :=
  if c.batch then min k (d + shape.cap - t)
  else if wrappingSub t d < shape.cap then k else 0

/-- The tickets one chunk pointer is good for: they are in one chunk, and all values or all
tombstones. -/
def segment : List (ℕ × Option T) → ℕ
  | [] => 0
  | (t, v) :: rest =>
    1 + (rest.takeWhile fun w => shape.chunk w.1 = shape.chunk t && w.2.isSome = v.isSome).length

/-- The producer's next access. `closed` is the flag of its handle. -/
def advanceProducer (s : Shared T) (closed : ℕ → Bool) : Producer T →
    Option (Shared T × Producer T)
  | .enter c => some (s,
      if closed c.handle || s.receiverDropped then .done (.closed c.sent c.items)
      else .attempt .hot c)
  | .again m c => some (s,
      if s.receiverDropped then .done (.closed c.sent c.items) else .attempt m c)
  | .runCap m c => some (s, .gate m c (max s.runCap 1))
  | .gate m c runCap => some (s, .window m c runCap s.gTail)
  | .window m c runCap g =>
    let k := grant shape c runCap g (s.counter m)
    some (s, if k = 0 then .closedWindow m c else .claim m c k)
  | .claim m c k => some ({ s with gTail := s.gTail + k }, .credit m c s.gTail k)
  | .credit m c t k =>
    let valid := valid shape c t k (s.counter m)
    some (s, .resident {
      mode := m
      call := { c with items := c.items.drop valid, sent := c.sent + valid }
      todo := c.writes t k valid
      segment := 0
      short := valid < k })
  | .resident w =>
    match w.todo with
    | [] => some (s, .finish w)
    | (t, _) :: _ =>
      let cur := s.id (shape.place (shape.chunk t))
      some (s, if cur = shape.chunk t then .write { w with segment := segment shape w.todo }
        else .retired w cur)
  -- spins
  | .retired w cur => if s.consumerRetired < cur + 1 then none else some (s, .install w cur)
  | .install w cur =>
    match w.todo with
    | [] => none
    | (t, _) :: _ =>
      if s.id (shape.place (shape.chunk t)) = cur then
        some ({ s with id := update s.id (shape.place (shape.chunk t)) (shape.chunk t) },
          .write { w with segment := segment shape w.todo })
      else some (s, .resident w)
  | .write w =>
    match w.todo with
    | [] => none
    | (t, v) :: rest =>
      let w := { w with todo := rest, segment := w.segment - 1 }
      some (s.setSlot (shape.place (shape.chunk t)) (shape.idx t) (v.elim .skip .set),
        if w.segment = 0 then .resident w else .write w)
  | .publish c d => some ({ s with progress := max s.progress d }, .waiting c)
  | .lenTail => some (s, .lenDrained s.gTail)
  | .lenDrained tail => some (s,
      .done (.isFull (shape.cap ≤ min (wrappingSub tail s.drained) shape.cap)))
  | .idle | .waiting _ | .done _ => none

end Shared

/-- The channel and the parties at it. -/
structure System (T : Type*) where
  shared : Shared T
  consumer : Consumer T
  producer : ℕ → Producer T
  /-- the flags of the handles -/
  closed : ℕ → Bool
  /-- what the consumer took -/
  received : List T

/-- What a party does next. -/
inductive Action (T : Type*)
  /-- a send starts -/
  | send (p : ℕ) (c : Call T)
  | isFull (p : ℕ)
  /-- a producer makes its next access -/
  | producer (p : ℕ)
  /-- a send that waits tries to claim -/
  | retry (p : ℕ) (m : Mode)
  | publishFromDrained (p : ℕ)
  /-- a send that waits finds the channel closed, or its future is dropped -/
  | giveUp (p : ℕ)
  | close (handle : ℕ)
  | dropReceiver
  /-- a dequeue starts -/
  | deq (once : Bool) (max : ℕ)
  | flushProgress
  | setPublishChunk (v : ℕ)
  /-- the consumer makes its next access -/
  | consumer (waits : Bool)

namespace System

variable {T : Type*} (shape : Shape)

def init (publishChunk : ℕ) : System T where
  shared := Shared.new shape publishChunk
  consumer := .idle
  producer _ := .idle
  closed _ := false
  received := []

def setProducer (s : System T) (p : ℕ) (pc : Producer T) : System T :=
  { s with producer := update s.producer p pc }

/-- The state after an action, if a party can take it. -/
def step (s : System T) : Action T → Option (System T)
  | .send p c =>
    if (s.producer p).resting && !c.items.isEmpty && (c.batch || c.items.length = 1) && c.sent = 0
    then some (s.setProducer p (.enter c)) else none
  | .isFull p => if (s.producer p).resting then some (s.setProducer p .lenTail) else none
  | .producer p =>
    (s.shared.advanceProducer shape s.closed (s.producer p)).map fun (shared, pc) =>
      { s.setProducer p pc with shared := shared }
  | .retry p m =>
    match s.producer p with
    -- a batch that waits claims against `progress` only
    | .waiting c => if c.batch && m = .cold then none else some (s.setProducer p (.attempt m c))
    | _ => none
  | .publishFromDrained p =>
    match s.producer p with
    | .waiting c => some (s.setProducer p (.publish c s.shared.drained))
    | _ => none
  | .giveUp p =>
    match s.producer p with
    | .waiting c => some (s.setProducer p (.done (.closed c.sent c.items)))
    | _ => none
  | .close h => some { s with closed := update s.closed h true }
  | .dropReceiver => some { s with shared := { s.shared with receiverDropped := true } }
  | .deq once max =>
    match s.consumer with
    | .idle =>
      if once then some { s with consumer := .look ⟨true, 1, []⟩ }
      else some { s with consumer := if max = 0 then .idle else .look ⟨false, max, []⟩ }
    | _ => none
  | .flushProgress =>
    match s.consumer with
    | .idle => some { s with
        consumer := if s.shared.head.unpublished = 0 then .idle else .publishDrained none }
    | _ => none
  | .setPublishChunk v =>
    match s.consumer with
    | .idle =>
      let v := min (max v 1) shape.cap
      some { s with
        shared := { s.shared with head := { s.shared.head with publishChunk := v } }
        consumer := .runCap v }
    | _ => none
  | .consumer waits =>
    (s.shared.advanceConsumer shape waits s.consumer).map fun (shared, pc, item) =>
      { s with shared := shared, consumer := pc, received := s.received ++ item.toList }

end System

end Fibre.Channels.Mpsc
