import Mathlib.Data.Multiset.Range
import Fibre.Math.Crew
import Fibre.Math.Machine

/-!
# The pool of oneshot channels

A pool has a fixed number of slots. `pair` pops slots from the free list and makes a channel of
each; the handle that exits last pushes the slot back, and whoever empties the lifecycle word
frees the storage. Any number of `pair` calls, the calls of both handles of every channel, and the
drop of the pool are interleaved, each access to a slot's state word, to its value cell, to the
free list or to the lifecycle word being a step of its own. The free list is taken as one multiset
of indices, of which a pop gets any. The wakers carry no value and are left out.

A channel is one use of its slot. It stays in the model after the slot was pushed, and its handles
act on the slot as long as the code lets them, so a handle that outlives its use would be seen.
-/

namespace Fibre.Channels.Oneshot.Pool

open Function Crew

/-- The state word of a slot. -/
structure Flags where
  value : Bool
  senderGone : Bool
  receiverGone : Bool
  waiting : Bool
  deriving DecidableEq

namespace Flags

/-- `state.store(0)` -/
def clear : Flags := ⟨false, false, false, false⟩

/-- The word as it is stored: `VALUE`, `SENDER_GONE`, `RECEIVER_GONE`, `WAITING`. -/
def bits (f : Flags) : ℕ :=
  f.value.toNat + 2 * f.senderGone.toNat + 4 * f.receiverGone.toNat + 8 * f.waiting.toNat

theorem bits_fetch_or (f : Flags) :
    { f with value := true }.bits = f.bits ||| 1 ∧ { f with senderGone := true }.bits = f.bits ||| 2 ∧
      { f with receiverGone := true }.bits = f.bits ||| 4 ∧
      { f with waiting := true }.bits = f.bits ||| 8 := by
  obtain ⟨v, s, r, w⟩ := f
  revert v s r w
  decide

end Flags

/-- The lifecycle word: `outstanding_channels * 2 | CLOSED`. -/
structure Lifecycle where
  stakes : ℕ
  closed : Bool
  deriving DecidableEq

namespace Lifecycle

def CLOSED : ℕ := 1

def STAKE : ℕ := 2

/-- The word as it is stored. -/
def bits (l : Lifecycle) : ℕ := l.stakes * STAKE + (if l.closed then CLOSED else 0)

/-- `fetch_add(STAKE * n)` -/
def stake (l : Lifecycle) (n : ℕ) : Lifecycle := { l with stakes := l.stakes + n }

/-- `fetch_sub(STAKE)` -/
def settle (l : Lifecycle) : Lifecycle := { l with stakes := l.stakes - 1 }

/-- `fetch_or(CLOSED)` -/
def close (l : Lifecycle) : Lifecycle := { l with closed := true }

theorem bits_stake (l : Lifecycle) (n : ℕ) : (l.stake n).bits = l.bits + STAKE * n := by
  change (l.stakes + n) * 2 + _ = l.stakes * 2 + _ + 2 * n
  rw [Nat.add_mul, Nat.mul_comm n, Nat.add_right_comm]
  rfl

theorem bits_settle (l : Lifecycle) (h : 0 < l.stakes) : l.settle.bits = l.bits - STAKE := by
  obtain ⟨stakes, closed⟩ := l
  obtain ⟨n, rfl⟩ : ∃ n, stakes = n + 1 := ⟨stakes - 1, (Nat.sub_add_cancel h).symm⟩
  change n * 2 + _ = (n + 1) * 2 + _ - 2
  rw [Nat.add_mul, Nat.one_mul, Nat.add_right_comm, Nat.add_sub_cancel]
  rfl

theorem bits_eq_last_iff (l : Lifecycle) :
    l.bits = STAKE ||| CLOSED ↔ l.stakes = 1 ∧ l.closed = true := by
  obtain ⟨stakes, closed⟩ := l
  cases closed with
  | false =>
    change stakes * 2 + 0 = 3 ↔ stakes = 1 ∧ false = true
    simp only [Bool.false_eq_true, and_false, iff_false]
    omega
  | true =>
    change stakes * 2 + 1 = 3 ↔ stakes = 1 ∧ true = true
    simp only [and_true]
    omega

theorem bits_eq_zero_iff (l : Lifecycle) : l.bits = 0 ↔ l.stakes = 0 ∧ l.closed = false := by
  obtain ⟨stakes, closed⟩ := l
  cases closed with
  | false =>
    change stakes * 2 + 0 = 0 ↔ stakes = 0 ∧ false = false
    simp only [and_true]
    omega
  | true =>
    change stakes * 2 + 1 = 0 ↔ stakes = 0 ∧ true = false
    simp only [Bool.true_eq_false, and_false, iff_false]
    omega

end Lifecycle

variable {T : Type*}

/-- A slot: its state word, and its value cell if it is initialized. -/
structure Slot (T : Type*) where
  state : Flags
  value : Option T

namespace Slot

def new : Slot T := ⟨.clear, none⟩

def held (slot : Slot T) : Multiset T :=
  match slot.value with
  | some value => {value}
  | none => 0

/-- The value is read, or dropped: the cell is uninitialized. -/
def take (slot : Slot T) : Slot T := { slot with value := none }

end Slot

/-- `PairInner::retire`: the access it makes next. -/
inductive Retire
  /-- `state.store(0)` -/
  | reset
  /-- `list.push(idx)` -/
  | push
  /-- `lifecycle.fetch_sub(STAKE)` -/
  | settle
  /-- `Box::from_raw(inner)` -/
  | free
  deriving DecidableEq

/-- Where the sender is: the access it makes next. -/
inductive Sender
  | idle
  /-- `send`: `state.fetch_or(VALUE)` -/
  | publish
  /-- the receiver already exited: `assume_init_read()` -/
  | readBack
  /-- `close_sender`: `state.fetch_or(SENDER_GONE)` -/
  | close
  | retire (r : Retire)
  | gone
  deriving DecidableEq

/-- Where the receiver is: the access it makes next. -/
inductive Receiver
  | idle
  /-- `try_recv`: `state.load()` -/
  | tryLoad
  /-- `VALUE` is set: `assume_init_read()` -/
  | read
  /-- `poll_recv`: `state.load()` -/
  | pollLoad
  /-- `state.fetch_or(WAITING)` -/
  | announce
  /-- the waker is registered: `state.load()` again -/
  | pollAgain
  /-- `close_receiver`: `state.load()` -/
  | closeLoad
  /-- `VALUE` is set: `assume_init_drop()` -/
  | closeDrop
  /-- `state.fetch_or(RECEIVER_GONE)`, with whether the load saw `VALUE` -/
  | closeOr (saw : Bool)
  /-- `VALUE` was set in between: `assume_init_drop()` -/
  | closeDropLate
  | retire (r : Retire)
  | gone
  deriving DecidableEq

/-- A channel: its slot, its two handles, and what became of its values; `retires` counts the
calls of `retire` for it. -/
structure Channel (T : Type*) where
  idx : ℕ
  sender : Sender
  receiver : Receiver
  done : Bool
  exited : Bool
  waitingSet : Bool
  passed : Multiset T
  received : Multiset T
  returned : Multiset T
  dropped : Multiset T
  retires : ℕ

namespace Channel

/-- `assemble` -/
def new (idx : ℕ) : Channel T where
  idx := idx
  sender := .idle
  receiver := .idle
  done := false
  exited := false
  waitingSet := false
  passed := 0
  received := 0
  returned := 0
  dropped := 0
  retires := 0

/-- The sender calls `retire`. -/
def senderRetires (c : Channel T) : Channel T :=
  { c with sender := .retire .reset, retires := c.retires + 1 }

/-- The receiver calls `retire`. -/
def receiverRetires (c : Channel T) : Channel T :=
  { c with receiver := .retire .reset, retires := c.retires + 1 }

/-- The receiver returns from `close` or from its drop. -/
def receiverExits (c : Channel T) : Channel T :=
  { c with receiver := if c.exited then .idle else .gone }

/-- Both handles finished. -/
def Finished (c : Channel T) : Prop :=
  c.sender = .gone ∧ (c.receiver = .gone ∨ c.receiver = .idle ∧ c.exited = true)

end Channel

/-- Whether the pool's handle is still there; `freeing` is its drop about to free the storage. -/
inductive Handle
  | alive
  | freeing
  | dropped
  deriving DecidableEq

/-- The pool with its channels; `pairs` has the slots of the `pair` calls that have popped and not
staked. `frees` counts how often the storage was freed; `fault` is set by a read of an
uninitialized cell, a write to an initialized one, and an access after the storage was freed. -/
structure System (T : Type*) where
  capacity : ℕ
  slots : ℕ → Slot T
  free : Multiset ℕ
  pairs : List (List ℕ)
  channels : List (Channel T)
  lifecycle : Lifecycle
  handle : Handle
  frees : ℕ
  fault : Bool

/-- The two handles of a channel. -/
inductive Side
  | sender
  | receiver

/-- A step of the machine. -/
inductive Action (T : Type*)
  /-- `pair` or `pair_batch`: the free list hands out `idxs` -/
  | pair (idxs : List ℕ)
  /-- `lifecycle.fetch_add(STAKE * n)`, and the channels are assembled -/
  | stake (k : ℕ)
  | send (i : ℕ) (value : T)
  | dropSender (i : ℕ)
  | tryRecv (i : ℕ)
  /-- a poll of the receive future -/
  | poll (i : ℕ)
  /-- `close` -/
  | closeReceiver (i : ℕ)
  | dropReceiver (i : ℕ)
  /-- the next access of a handle -/
  | advance (i : ℕ) (side : Side)
  /-- the drop of the pool: `lifecycle.fetch_or(CLOSED)` -/
  | dropPool
  | freePool

namespace System

/-- `OneshotPairPool::new` -/
def new (capacity : ℕ) : System T where
  capacity := capacity
  slots _ := .new
  free := Multiset.range capacity
  pairs := []
  channels := []
  lifecycle := ⟨0, false⟩
  handle := .alive
  frees := 0
  fault := false

variable (s : System T)

/-- Channel `i` is now `c`, and its slot is `slot`. -/
def put (i : ℕ) (c : Channel T) (slot : Slot T) : System T :=
  { s with
    slots := update s.slots c.idx slot
    channels := s.channels.set i c
    fault := s.fault || decide (0 < s.frees) }

/-- A read of the cell is a fault, unless it is initialized. -/
def expect (slot : Slot T) : System T := { s with fault := s.fault || slot.value.isNone }

/-- The accesses of `retire`; `move` is the channel with the handle at its next access. -/
def retire (i : ℕ) (c : Channel T) (move : Retire → Channel T) (exits : Channel T) :
    Retire → System T
  | .reset => s.put i (move .push) { s.slots c.idx with state := .clear }
  | .push => { s with free := c.idx ::ₘ s.free }.put i (move .settle) (s.slots c.idx)
  | .settle =>
    { s with lifecycle := s.lifecycle.settle }.put i
      (if s.lifecycle.stakes = 1 ∧ s.lifecycle.closed = true then move .free else exits)
      (s.slots c.idx)
  | .free => { s with frees := s.frees + 1, channels := s.channels.set i exits }

/-- The next access of the sender of channel `i`. -/
def senderAccess (i : ℕ) (c : Channel T) : System T :=
  let slot := s.slots c.idx
  match c.sender with
  | .idle | .gone => s
  | .publish =>
    s.put i { c with sender := if slot.state.receiverGone then .readBack else .gone }
      { slot with state := { slot.state with value := true } }
  | .readBack =>
    (s.expect slot).put i { c with returned := slot.held + c.returned }.senderRetires slot.take
  | .close =>
    s.put i (if slot.state.receiverGone then c.senderRetires else { c with sender := .gone })
      { slot with state := { slot.state with senderGone := true } }
  | .retire r => s.retire i c (fun r => { c with sender := .retire r }) { c with sender := .gone } r

/-- The next access of the receiver of channel `i`. -/
def receiverAccess (i : ℕ) (c : Channel T) : System T :=
  let slot := s.slots c.idx
  match c.receiver with
  | .idle | .gone => s
  | .tryLoad =>
    s.put i
      (if slot.state.value then { c with receiver := .read }
        else if slot.state.senderGone then { c with receiver := .idle, done := true }
        else { c with receiver := .idle }) slot
  | .read =>
    (s.expect slot).put i
      { c with receiver := .idle, done := true, received := slot.held + c.received } slot.take
  | .pollLoad =>
    s.put i
      (if slot.state.value then { c with receiver := .read }
        else if slot.state.senderGone then { c with receiver := .idle, done := true }
        else if c.waitingSet then { c with receiver := .pollAgain }
        else { c with receiver := .announce }) slot
  | .announce =>
    s.put i { c with receiver := .pollAgain, waitingSet := true }
      { slot with state := { slot.state with waiting := true } }
  | .pollAgain =>
    s.put i
      (if slot.state.value then { c with receiver := .read }
        else if slot.state.senderGone then { c with receiver := .idle, done := true }
        else { c with receiver := .idle }) slot
  | .closeLoad =>
    s.put i { c with receiver := if slot.state.value then .closeDrop else .closeOr false } slot
  | .closeDrop =>
    (s.expect slot).put i
      { c with receiver := .closeOr true, dropped := slot.held + c.dropped } slot.take
  | .closeOr saw =>
    s.put i
      (if slot.state.value ∧ saw = false then { c with receiver := .closeDropLate }
        else if slot.state.value ∨ slot.state.senderGone then c.receiverRetires
        else c.receiverExits)
      { slot with state := { slot.state with receiverGone := true } }
  | .closeDropLate =>
    (s.expect slot).put i { c with dropped := slot.held + c.dropped }.receiverRetires slot.take
  | .retire r => s.retire i c (fun r => { c with receiver := .retire r }) c.receiverExits r

/-- `send`: the value is written to the cell. -/
def send (i : ℕ) (c : Channel T) (value : T) : System T :=
  { s with fault := s.fault || (s.slots c.idx).value.isSome }.put i
    { c with sender := .publish, passed := value ::ₘ c.passed }
    { s.slots c.idx with value := some value }

/-- Channel `i` is now `c`, without an access. -/
def setChannel (i : ℕ) (c : Channel T) : System T := { s with channels := s.channels.set i c }

/-- The receiver of channel `i` begins to receive, unless it is done or exited. -/
def receive (i : ℕ) (c : Channel T) (receiver : Receiver) : Option (System T) :=
  if c.receiver = .idle then
    some (if c.done ∨ c.exited then s else s.setChannel i { c with receiver := receiver })
  else none

/-- The system after an action; `none` when it is not possible. -/
def step : Action T → Option (System T)
  | .pair idxs =>
    if s.handle = .alive ∧ (idxs : Multiset ℕ) ≤ s.free then
      some { s with free := s.free - idxs, pairs := s.pairs ++ [idxs] }
    else none
  | .stake k => s.pairs[k]?.map fun idxs =>
    { s with
      pairs := s.pairs.eraseIdx k
      lifecycle := s.lifecycle.stake idxs.length
      channels := s.channels ++ idxs.map .new }
  | .send i value => s.channels[i]?.bind fun c =>
    if c.sender = .idle then some (s.send i c value) else none
  | .dropSender i => s.channels[i]?.bind fun c =>
    if c.sender = .idle then some (s.setChannel i { c with sender := .close }) else none
  | .tryRecv i => s.channels[i]?.bind fun c => s.receive i c .tryLoad
  | .poll i => s.channels[i]?.bind fun c => s.receive i c .pollLoad
  | .closeReceiver i => s.channels[i]?.bind fun c =>
    if c.receiver = .idle then
      some (if c.exited then s
        else s.setChannel i
          (if c.done then { c with exited := true }.receiverRetires
            else { c with exited := true, done := true, receiver := .closeLoad }))
    else none
  | .dropReceiver i => s.channels[i]?.bind fun c =>
    if c.receiver = .idle then
      some (s.setChannel i
        (if c.exited then { c with receiver := .gone }
          else if c.done then c.receiverRetires
          else { c with receiver := .closeLoad }))
    else none
  | .advance i .sender => s.channels[i]?.map (s.senderAccess i)
  | .advance i .receiver => s.channels[i]?.map (s.receiverAccess i)
  | .dropPool =>
    -- the pool is borrowed by a `pair` call
    if s.handle = .alive ∧ s.pairs = [] then
      some { s with
        lifecycle := s.lifecycle.close
        handle := if s.lifecycle = ⟨0, false⟩ then .freeing else .dropped }
    else none
  | .freePool =>
    if s.handle = .freeing then some { s with frees := s.frees + 1, handle := .dropped } else none

end System

end Fibre.Channels.Oneshot.Pool
