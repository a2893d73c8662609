import Fibre.Math.Word
import Fibre.Math.Machine

/-!
# The ring with owned indices

One producer writes at `tail`, one consumer reads at `head`, and each of them works with a copy of
the other's index, which it refreshes only when the copy no longer shows that it can go on. The
indices are free-running machine words, masked on access; the storage is a power of two, and
`capacity` of it is used.

The machine interleaves the accesses to the two shared indices and to the slots. What a side does
with its own index and its own copy nobody else sees, so it is part of the access before it.
-/

namespace Fibre.Channels.Spsc

open Word

/-- The buffer with the two groups of indices. -/
structure Ring (T : Type*) where
  /-- a slot is empty until it is written, and again when its item was moved out -/
  buf : UInt64 → Option T
  mask : UInt64
  cap : UInt64
  tail : UInt64
  cachedHead : UInt64
  head : UInt64
  cachedTail : UInt64

/-- A `write_batch` under way: the items it has not taken from the iterator, how many more of them
it may send, and how many it has sent. -/
structure WriteBatch (T : Type*) where
  rest : List T
  left : ℕ
  sent : ℕ

/-- A `read_batch` under way: what it has read, and how many more it may. -/
structure ReadBatch (T : Type*) where
  out : List T
  left : ℕ

/-- Where the producer is: the access it makes next, or what it has returned. -/
inductive Producer (T : Type*)
  | idle
  /-- `push` loads `head` -/
  | refresh (item : T) (batch : Option (WriteBatch T))
  /-- `push` writes the slot -/
  | write (item : T) (batch : Option (WriteBatch T))
  /-- `push` stores `tail` -/
  | publish (item : T) (batch : Option (WriteBatch T))
  /-- `producer_free_space` loads `head` -/
  | freeSpace (items : List T) (limit : UInt64)
  /-- `unreachable!` in `write_batch` -/
  | unreachable
  /-- `push` returned `Ok` -/
  | pushed
  /-- `push` returned the item -/
  | full (item : T)
  /-- `write_batch` returned how many it has sent -/
  | wrote (sent : ℕ) (rest : List T)

inductive Consumer (T : Type*)
  | idle
  /-- `pop` loads `tail` -/
  | refresh (batch : Option (ReadBatch T))
  /-- `pop` moves the item out of the slot -/
  | read (batch : Option (ReadBatch T))
  /-- `pop` stores `head` -/
  | release (item : T) (batch : Option (ReadBatch T))
  /-- `pop` returned -/
  | popped (item : Option T)
  /-- `read_batch` returned what it has read -/
  | got (out : List T)

/-- No call is under way. -/
def Producer.resting {T : Type*} : Producer T → Bool
  | .idle | .pushed | .full _ | .wrote _ _ => true
  | _ => false

def Consumer.resting {T : Type*} : Consumer T → Bool
  | .idle | .popped _ | .got _ => true
  | _ => false

namespace Ring

variable {T : Type*}

/-- Physical slots are a power of two, two at least. -/
def new (capacity : UInt64) : Ring T where
  buf _ := none
  mask := max (nextPowerOfTwo capacity) 2 - 1
  cap := capacity
  tail := 0
  cachedHead := 0
  head := 0
  cachedTail := 0

/-- `tail.wrapping_sub(*cached_head) >= self.cap` -/
def looksFull (r : Ring T) : Bool := r.cap ≤ r.tail - r.cachedHead

/-- `head == *cached_tail` -/
def looksEmpty (r : Ring T) : Bool := r.head = r.cachedTail

def refreshHead (r : Ring T) : Ring T := { r with cachedHead := r.head }

def refreshTail (r : Ring T) : Ring T := { r with cachedTail := r.tail }

/-- `self.cap - tail.wrapping_sub(*cached_head)` -/
def freeSpace (r : Ring T) : UInt64 := r.cap - (r.tail - r.cachedHead)

def write (r : Ring T) (item : T) : Ring T :=
  { r with buf := Function.update r.buf (r.tail &&& r.mask) (some item) }

def publish (r : Ring T) : Ring T := { r with tail := r.tail + 1 }

/-- `assume_init_read` of the slot at `head`. -/
def take (r : Ring T) : Option (T × Ring T) :=
  (r.buf (r.head &&& r.mask)).map fun item =>
    (item, { r with buf := Function.update r.buf (r.head &&& r.mask) none })

def release (r : Ring T) : Ring T := { r with head := r.head + 1 }

/-- The first lines of `push`. -/
def beginPush (r : Ring T) (item : T) (batch : Option (WriteBatch T)) : Producer T :=
  if r.looksFull then .refresh item batch else .write item batch

/-- The head of the loop of `write_batch`. -/
def nextWrite (r : Ring T) (b : WriteBatch T) : Producer T :=
  if b.left = 0 then .wrote b.sent b.rest
  else
    match b.rest with
    | [] => .wrote b.sent []
    | item :: rest => r.beginPush item (some { b with rest := rest, left := b.left - 1 })

/-- The first lines of `pop`. -/
def beginPop (r : Ring T) (batch : Option (ReadBatch T)) : Consumer T :=
  if r.looksEmpty then .refresh batch else .read batch

/-- The head of the loop of `read_batch`. -/
def nextRead (r : Ring T) (b : ReadBatch T) : Consumer T :=
  if b.left = 0 then .got b.out else r.beginPop (some { b with left := b.left - 1 })

/-- The producer's next access; the flag says that it has published an item. -/
def advanceProducer (r : Ring T) : Producer T → Option (Ring T × Producer T × Option T)
  | .refresh item batch =>
    let r := r.refreshHead
    if r.looksFull then
      match batch with
      | none => some (r, .full item, none)
      | some _ => some (r, .unreachable, none)
    else some (r, .write item batch, none)
  | .write item batch => some (r.write item, .publish item batch, none)
  | .publish item batch =>
    let r := r.publish
    match batch with
    | none => some (r, .pushed, some item)
    | some b => some (r, r.nextWrite { b with sent := b.sent + 1 }, some item)
  | .freeSpace items limit =>
    let r := r.refreshHead
    some (r, r.nextWrite ⟨items, (min limit r.freeSpace).toNat, 0⟩, none)
  | _ => none

/-- The consumer's next access; the flag says that it has returned or collected an item. -/
def advanceConsumer (r : Ring T) : Consumer T → Option (Ring T × Consumer T × Option T)
  | .refresh batch =>
    let r := r.refreshTail
    if r.looksEmpty then
      match batch with
      | none => some (r, .popped none, none)
      | some b => some (r, .got b.out, none)
    else some (r, .read batch, none)
  | .read batch => r.take.map fun (item, r) => (r, .release item batch, none)
  | .release item batch =>
    let r := r.release
    match batch with
    | none => some (r, .popped (some item), some item)
    | some b => some (r, r.nextRead { b with out := b.out ++ [item] }, some item)
  | _ => none

end Ring

/-- The ring, its two sides, and the items that were pushed and popped, in order. -/
structure System (T : Type*) where
  ring : Ring T
  producer : Producer T
  consumer : Consumer T
  pushed : List T
  popped : List T

/-- A call, or the next access of one side. -/
inductive Action (T : Type*)
  | push (item : T)
  | writeBatch (items : List T) (limit : UInt64)
  | pop
  | readBatch (max : UInt64)
  | producer
  | consumer

namespace System

variable {T : Type*}

def new (capacity : UInt64) : System T := ⟨.new capacity, .idle, .idle, [], []⟩

/-- The system after an action; `none` when it is not possible. -/
def step (s : System T) : Action T → Option (System T)
  | .push item =>
    if s.producer.resting then some { s with producer := s.ring.beginPush item none } else none
  | .writeBatch items limit =>
    if s.producer.resting then some { s with producer := .freeSpace items limit } else none
  | .pop => if s.consumer.resting then some { s with consumer := s.ring.beginPop none } else none
  | .readBatch max =>
    if s.consumer.resting then some { s with consumer := s.ring.nextRead ⟨[], max.toNat⟩ }
    else none
  | .producer => (s.ring.advanceProducer s.producer).map fun (ring, producer, item) =>
      { s with ring := ring, producer := producer, pushed := s.pushed ++ item.toList }
  | .consumer => (s.ring.advanceConsumer s.consumer).map fun (ring, consumer, item) =>
      { s with ring := ring, consumer := consumer, popped := s.popped ++ item.toList }

end System

end Fibre.Channels.Spsc
