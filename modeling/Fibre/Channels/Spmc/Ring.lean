import Mathlib.Data.List.Basic
import Fibre.Channels.LeftRight
import Fibre.Math.Machine

/-!
# The broadcast ring

One producer writes items to a ring; every consumer has a cursor of its own and clones each item.
The producer may write as long as it is less than `capacity` ahead of the slowest cursor, which it
finds by loading all of them, under a guard on the list of the cursors.

The machine interleaves the accesses to shared memory. The blocking and the asynchronous calls are
repetitions of the attempts modelled here; parking and waking do not touch the data.
-/

namespace Fibre.Channels.Spmc

open Function

/-- A slot of the ring. Its sequence is `2 * i + 1` once it holds the item of the index `i`. -/
structure Slot (T : Type*) where
  sequence : ℕ
  value : Option T

/-- What the producer is asked to do. -/
inductive Job (T : Type*)
  /-- `try_send_internal` -/
  | send (item : T)
  /-- `try_send_batch_internal`, `try_send_batch_mut_internal` -/
  | batch (items : List T)
  /-- the check for space between arming and parking -/
  | recheck

/-- The items a job writes, with the slowest cursor at `minTail`. -/
def Job.accepted {T : Type*} (capacity head minTail : ℕ) : Job T → List T
  | .send item => if head - minTail ≥ capacity then [] else [item]
  | .batch items => items.take (min (capacity - min (head - minTail) capacity) items.length)
  | .recheck => []

/-- Where the producer is: the access it makes next. -/
inductive Producer (T : Type*)
  | idle
  /-- `enter` loads the live index -/
  | enter (job : Job T)
  /-- `enter` counts itself in -/
  | pin (job : Job T) (idx : Bool)
  /-- `enter` loads the live index again -/
  | pinned (job : Job T) (idx : Bool)
  /-- `enter` counts itself out, to try again -/
  | unpin (job : Job T) (idx : Bool)
  /-- loads the cursors in `rest`; then the guard is dropped -/
  | scan (job : Job T) (idx : Bool) (rest : List ℕ) (minTail : Option ℕ)
  /-- writes the values of the items, after `written` others; then `head` is stored -/
  | write (written : ℕ) (items : List T)
  /-- stores the sequence of the item it wrote -/
  | store (written : ℕ) (item : T) (items : List T)
  /-- `head - min_tail` has underflowed -/
  | panicked
  | dropped

/-- The steps of `modify`, with `tails_mutex` around them. -/
inductive Phase
  | lock
  | mutate
  | publish
  | drain
  | sync
  | unlock
  deriving DecidableEq

/-- What a receive returned. -/
inductive Outcome (T : Type*)
  | ok (items : List T)
  | empty
  | disconnected

inductive Consumer (T : Type*)
  | absent
  /-- its cursor exists; `clone` has not returned it yet -/
  | born
  | idle (last : Option (Outcome T))
  /-- loads the sequence of its slot -/
  | load
  /-- clones the value of its slot -/
  | copy
  /-- loads `producer_dropped`, having found nothing -/
  | check
  /-- loads `head`, to tell an empty ring from a finished one -/
  | checkHead
  /-- a batch loads `head` -/
  | batch (max : ℕ)
  | batchCheck (max : ℕ)
  | batchHead (max : ℕ)
  /-- a batch of `n` clones its next value -/
  | read (n : ℕ) (items : List T)
  /-- stores its cursor -/
  | advance (items : List T)
  | cloning (child : ℕ) (phase : Phase)
  | dropping (phase : Phase)
  | gone
  /-- it found an empty slot, or one with another sequence than it must have -/
  | broken

/-- The ring, the list of cursors, the parties, and a record of the items whose sequence is stored,
of what each consumer received, and of where it started. -/
structure System (T : Type*) where
  slots : ℕ → Slot T
  head : ℕ
  producerDropped : Bool
  tails : LeftRight (List ℕ)
  tailsMutex : Option ℕ
  tail : ℕ → ℕ
  producer : Producer T
  consumer : ℕ → Consumer T
  produced : List T
  received : ℕ → List T
  start : ℕ → ℕ

/-- A step of the machine. -/
inductive Action (T : Type*)
  | start (job : Job T)
  | dropProducer
  /-- the producer goes on -/
  | producer
  | recv (c : ℕ)
  /-- the check for a finished ring before parking -/
  | recheck (c : ℕ)
  | recvBatch (c max : ℕ)
  | clone (c child : ℕ)
  | drop (c : ℕ)
  /-- a consumer goes on -/
  | consumer (c : ℕ)

namespace System

variable {T : Type*}

/-- A new channel, with the consumer `0`. Its cursor was added by one `modify`. -/
def init : System T where
  slots i := ⟨2 * i, none⟩
  head := 0
  producerDropped := false
  tails := ⟨true, fun _ => 0, fun _ => [0]⟩
  tailsMutex := none
  tail _ := 0
  producer := .idle
  consumer c := if c = 0 then .idle none else .absent
  produced := []
  received _ := []
  start _ := 0

@[simps]
def setConsumer (s : System T) (c : ℕ) (p : Consumer T) : System T :=
  { s with consumer := update s.consumer c p }

/-- What the producer does with the slowest cursor: nothing if there is none. -/
def afterScan (capacity : ℕ) (s : System T) (job : Job T) : Option ℕ → Producer T
  | none => .idle
  | some minTail =>
    if s.head < minTail then .panicked
    else
      match job.accepted capacity s.head minTail with
      | [] => .idle
      | items => .write 0 items

def stepProducer (capacity : ℕ) (s : System T) : Option (System T) :=
  match s.producer with
  | .enter job => some { s with producer := .pin job s.tails.liveIdx }
  | .pin job idx => some { s with tails := s.tails.pin idx, producer := .pinned job idx }
  | .pinned job idx =>
    if s.tails.liveIdx = idx then
      some { s with producer := .scan job idx (s.tails.data idx) none }
    else some { s with producer := .unpin job idx }
  | .unpin job idx => some { s with tails := s.tails.unpin idx, producer := .enter job }
  | .scan job idx (c :: rest) minTail =>
    some { s with producer := .scan job idx rest (some (minTail.elim (s.tail c) (min (s.tail c)))) }
  | .scan job idx [] minTail =>
    some { s with tails := s.tails.unpin idx, producer := s.afterScan capacity job minTail }
  | .write written (item :: items) =>
    let i := (s.head + written) % capacity
    -- an old value is dropped in place
    some { s with
      slots := update s.slots i { s.slots i with value := some item }
      producer := .store written item items }
  | .store written item items =>
    let i := (s.head + written) % capacity
    some { s with
      slots := update s.slots i { s.slots i with sequence := 2 * (s.head + written) + 1 }
      produced := s.produced ++ [item]
      producer := .write (written + 1) items }
  | .write written [] => some { s with head := s.head + written, producer := .idle }
  | .idle | .panicked | .dropped => none

/-- A step of `modify` with the closure `f`, by the consumer `c`: the system, and the next phase. -/
def stepModify (s : System T) (c : ℕ) (f : List ℕ → List ℕ) :
    Phase → Option (System T × Option Phase)
  | .lock =>
    if s.tailsMutex = none then some ({ s with tailsMutex := some c }, some .mutate) else none
  | .mutate => some ({ s with tails := s.tails.mutate f }, some .publish)
  | .publish => some ({ s with tails := s.tails.publish }, some .drain)
  | .drain => if s.tails.drained then some (s, some .sync) else none
  | .sync => some ({ s with tails := s.tails.mutate f }, some .unlock)
  | .unlock => some ({ s with tailsMutex := none }, none)

/-- The value of the index `i`, if its slot holds it. -/
def slotValue (capacity : ℕ) (s : System T) (i : ℕ) : Option T :=
  if (s.slots (i % capacity)).sequence = 2 * i + 1 then (s.slots (i % capacity)).value else none

/-- The next access of the consumer `c`. -/
def stepConsumer (capacity : ℕ) (s : System T) (c : ℕ) : Option (System T) :=
  match s.consumer c with
  | .load =>
    if (s.slots (s.tail c % capacity)).sequence = 2 * s.tail c + 1 then some (s.setConsumer c .copy)
    else some (s.setConsumer c .check)
  | .copy =>
    match (s.slots (s.tail c % capacity)).value with
    | some item => some (s.setConsumer c (.advance [item]))
    | none => some (s.setConsumer c .broken)
  | .check =>
    if s.producerDropped then some (s.setConsumer c .checkHead)
    else some (s.setConsumer c (.idle (some .empty)))
  | .checkHead =>
    if s.tail c ≥ s.head then some (s.setConsumer c (.idle (some .disconnected)))
    else some (s.setConsumer c (.idle (some .empty)))
  | .batch max =>
    if s.head ≤ s.tail c then some (s.setConsumer c (.batchCheck max))
    else some (s.setConsumer c (.read (min (s.head - s.tail c) max) []))
  | .batchCheck max =>
    if s.producerDropped then some (s.setConsumer c (.batchHead max))
    else some (s.setConsumer c (.idle (some .empty)))
  | .batchHead max =>
    if s.tail c ≥ s.head then some (s.setConsumer c (.idle (some .disconnected)))
    else some (s.setConsumer c (.read (min (s.head - s.tail c) max) []))
  | .read n items =>
    -- the sequence is a `debug_assert`
    match s.slotValue capacity (s.tail c + items.length) with
    | some item =>
      if items.length + 1 < n then some (s.setConsumer c (.read n (items ++ [item])))
      else some (s.setConsumer c (.advance (items ++ [item])))
    | none => some (s.setConsumer c .broken)
  | .advance items => some { s.setConsumer c (.idle (some (.ok items))) with
      tail := update s.tail c (s.tail c + items.length)
      received := update s.received c (s.received c ++ items) }
  | .cloning child phase =>
    (s.stepModify c (· ++ [child]) phase).map fun (s, next) =>
      match next with
      | some phase => s.setConsumer c (.cloning child phase)
      | none => (s.setConsumer c (.idle none)).setConsumer child (.idle none)
  | .dropping phase =>
    (s.stepModify c (·.filter (· ≠ c)) phase).map fun (s, next) =>
      match next with
      | some phase => s.setConsumer c (.dropping phase)
      | none => s.setConsumer c .gone
  | .absent | .born | .idle _ | .gone | .broken => none

/-- The consumer `c` begins something, if it is between two calls. -/
def begin (s : System T) (c : ℕ) (p : Consumer T) : Option (System T) :=
  match s.consumer c with
  | .idle _ => some (s.setConsumer c p)
  | _ => none

/-- The system after an action; `none` when it is not possible. -/
def step (capacity : ℕ) (s : System T) : Action T → Option (System T)
  | .start job =>
    match s.producer, job with
    | .idle, .batch [] => none
    | .idle, job => some { s with producer := .enter job }
    | _, _ => none
  | .dropProducer =>
    match s.producer with
    | .idle => some { s with producerDropped := true, producer := .dropped }
    | _ => none
  | .producer => s.stepProducer capacity
  | .recv c => s.begin c .load
  | .recheck c => s.begin c .check
  | .recvBatch c max => if max = 0 then none else s.begin c (.batch max)
  | .clone c child =>
    match s.consumer child with
    | .absent => (s.begin c (.cloning child .lock)).map fun s => { s.setConsumer child .born with
        tail := update s.tail child (s.tail c)
        start := update s.start child (s.tail c) }
    | _ => none
  | .drop c => s.begin c (.dropping .lock)
  | .consumer c => s.stepConsumer capacity c

end System

end Fibre.Channels.Spmc
