import Fibre.Channels.Ring

/-!
# The core of the bounded MPMC channel

The state behind the channel's one lock, and the functions that run under it: a ring buffer with
its cached length, and four queues of parked waiters, each of which points to the flag its owner
waits on. A waiter is the number of its owner; the flags are cells outside the lock, kept here
beside the state that refers to them.
-/

namespace Fibre.Channels.Mpmc

inductive WaiterState
  | waiting
  | successSpace
  | closedBuffered
  | closedRendezvous
  | cancelled
  deriving DecidableEq

namespace WaiterState

/-- The byte stored in the flag. -/
def code : WaiterState → ℕ
  | waiting => 0
  | successSpace => 3
  | closedBuffered => 1
  | closedRendezvous => 5
  | cancelled => 8

/-- Bit 0: the wait is over. -/
def finished (s : WaiterState) : Bool := s.code &&& 1 ≠ 0

/-- Bit 1 clear: the channel was closed. -/
def closed (s : WaiterState) : Bool := s.code &&& 2 = 0

end WaiterState

open WaiterState

/-- The state protected by the lock, and the flags its waiters point to. -/
structure Internal (T : Type*) where
  queue : RingBuffer T
  queueLen : UInt64
  waitingSyncSenders : List ℕ
  waitingAsyncSenders : List ℕ
  waitingSyncReceivers : List ℕ
  waitingAsyncReceivers : List ℕ
  senderCount : ℕ
  receiverCount : ℕ
  flags : ℕ → WaiterState

/-- The outcome of a single send; the item comes back unless it was stored. -/
inductive SendOutcome (T : Type*)
  | ok
  | closed (item : T)
  | full (item : T)
  /-- the `MPMC push_back failed` panic -/
  | pushFailed

inductive RecvOutcome (T : Type*)
  | ok (items : List T)
  | disconnected
  | empty

def RecvOutcome.items {T : Type*} : RecvOutcome T → List T
  | .ok items => items
  | .disconnected | .empty => []

/-- How a batch send ended. -/
inductive BatchStatus
  | complete
  | closed
  | full
  /-- the `MPMC push_back failed` panic -/
  | pushFailed
  deriving DecidableEq

/-- The first waiter whose flag can be taken from `waiting`, and the queue without it. -/
def firstWaiting (flags : ℕ → WaiterState) : List ℕ → Option (ℕ × List ℕ)
  | [] => none
  | w :: ws =>
    if flags w = waiting then some (w, ws)
    else (firstWaiting flags ws).map fun r => (r.1, w :: r.2)

/-- Pops waiters until one's flag can be taken from `waiting`. -/
def popWaiting (flags : ℕ → WaiterState) : List ℕ → Option ℕ × List ℕ
  | [] => (none, [])
  | w :: ws => if flags w = waiting then (some w, ws) else popWaiting flags ws

/-- Takes the flags of at most `budget` waiters from `waiting`, and removes them. Returns the
budget left. -/
def wakeUpTo : ℕ → (ℕ → WaiterState) → List ℕ → ℕ × (ℕ → WaiterState) × List ℕ
  | budget, flags, [] => (budget, flags, [])
  | budget, flags, w :: ws =>
    if budget = 0 then (0, flags, w :: ws)
    else if flags w = waiting then
      wakeUpTo (budget - 1) (Function.update flags w successSpace) ws
    else
      let r := wakeUpTo budget flags ws
      (r.1, r.2.1, w :: r.2.2)

namespace Internal

variable {T : Type*}

/-- An empty channel with one handle on each side. -/
def new (capacity : UInt64) : Internal T where
  queue := .new capacity
  queueLen := 0
  waitingSyncSenders := []
  waitingAsyncSenders := []
  waitingSyncReceivers := []
  waitingAsyncReceivers := []
  senderCount := 1
  receiverCount := 1
  flags _ := waiting

def isEmpty (c : Internal T) : Bool := c.queueLen = 0

def isFull (c : Internal T) (capacity : UInt64) : Bool :=
  if capacity = 0 then c.queueLen = 1 else c.queueLen = capacity

def pushBack (c : Internal T) (item : T) : Option (Internal T) :=
  (c.queue.push item).map fun q => { c with queue := q, queueLen := c.queueLen + 1 }

def popFront (c : Internal T) : Option (T × Internal T) :=
  c.queue.pop.map fun r => (r.1, { c with queue := r.2, queueLen := c.queueLen - 1 })

/-- The pops of a drain of `count` items. -/
def drainLoop : ℕ → RingBuffer T → List T × RingBuffer T
  | 0, q => ([], q)
  | count + 1, q =>
    match q.pop with
    | some r =>
      let d := drainLoop count r.2
      (r.1 :: d.1, d.2)
    | none => drainLoop count q

def drainInto (c : Internal T) (count : UInt64) : List T × Internal T :=
  let d := drainLoop count.toNat c.queue
  (d.1, { c with queue := d.2, queueLen := c.queueLen - count })

def setFlag (c : Internal T) (w : ℕ) (st : WaiterState) : Internal T :=
  { c with flags := Function.update c.flags w st }

def wakeReceiver (c : Internal T) : Option (Internal T) :=
  match firstWaiting c.flags c.waitingAsyncReceivers with
  | some r => some { c.setFlag r.1 successSpace with waitingAsyncReceivers := r.2 }
  | none =>
    match firstWaiting c.flags c.waitingSyncReceivers with
    | some r => some { c.setFlag r.1 successSpace with waitingSyncReceivers := r.2 }
    | none => none

def wakeSender (c : Internal T) : Internal T :=
  match firstWaiting c.flags c.waitingAsyncSenders with
  | some r => { c.setFlag r.1 successSpace with waitingAsyncSenders := r.2 }
  | none =>
    match firstWaiting c.flags c.waitingSyncSenders with
    | some r => { c.setFlag r.1 successSpace with waitingSyncSenders := r.2 }
    | none => c

def store (c : Internal T) (item : T) : SendOutcome T × Internal T :=
  match c.pushBack item with
  | some c => (.ok, c)
  | none => (.pushFailed, c)

def trySendCore (capacity : UInt64) (c : Internal T) (item : T) : SendOutcome T × Internal T :=
  if c.receiverCount = 0 then (.closed item, c)
  else
    -- neither scan starts while the buffer is full
    match if c.isFull capacity then none else c.wakeReceiver with
    | some c => c.store item
    | none =>
      if capacity = 0 then (.full item, c)
      else if c.queueLen < capacity then c.store item
      else (.full item, c)

/-- Receives one item without waiting. -/
def tryRecvCore (capacity : UInt64) (c : Internal T) : RecvOutcome T × Internal T :=
  match c.popFront with
  | some r => (.ok [r.1], if capacity > 0 then r.2.wakeSender else r.2)
  | none => if c.senderCount = 0 then (.disconnected, c) else (.empty, c)

/-- The receiver a batch hands its next item to, if any. Waiters in front of it that are not
waiting any more are dropped from the queues. -/
def popReceiver (c : Internal T) : Bool × Internal T :=
  let a := popWaiting c.flags c.waitingAsyncReceivers
  let c := { c with waitingAsyncReceivers := a.2 }
  match a.1 with
  | some w => (true, c.setFlag w successSpace)
  | none =>
    let b := popWaiting c.flags c.waitingSyncReceivers
    let c := { c with waitingSyncReceivers := b.2 }
    match b.1 with
    | some w => (true, c.setFlag w successSpace)
    | none => (false, c)

/-- The loop of a batch send. Returns how it ended and the items left. -/
def sendBatchLoop (capacity : UInt64) : List T → Internal T → (BatchStatus × List T) × Internal T
  | [], c => ((.complete, []), c)
  | item :: rest, c =>
    let r := if c.isFull capacity then (false, c) else c.popReceiver
    if r.1 then
      match r.2.pushBack item with
      | some c => sendBatchLoop capacity rest c
      | none => ((.pushFailed, rest), r.2)
    else if capacity = 0 then ((.full, item :: rest), r.2)
    else if r.2.queueLen < capacity then
      match r.2.pushBack item with
      | some c => sendBatchLoop capacity rest c
      | none => ((.pushFailed, rest), r.2)
    else
      ((.full, item :: rest), r.2)

/-- Sends the items in order without waiting, until one does not fit. -/
def trySendBatchCore (capacity : UInt64) (c : Internal T) (items : List T) :
    (BatchStatus × List T) × Internal T :=
  if items = [] then ((.complete, []), c)
  else if c.receiverCount = 0 then ((.closed, items), c)
  else sendBatchLoop capacity items c

/-- Wakes at most `maxToWake` senders, the asynchronous ones first. -/
def wakeSenders (c : Internal T) (maxToWake : UInt64) : Internal T :=
  let a := wakeUpTo maxToWake.toNat c.flags c.waitingAsyncSenders
  let b := wakeUpTo a.1 a.2.1 c.waitingSyncSenders
  { c with flags := b.2.1, waitingAsyncSenders := a.2.2, waitingSyncSenders := b.2.2 }

/-- Receives at most `max` items without waiting. -/
def tryRecvBatchCore (capacity : UInt64) (c : Internal T) (max : UInt64) :
    RecvOutcome T × Internal T :=
  if max = 0 then (.ok [], c)
  else
    let fromBuffer := min max c.queueLen
    let d := if fromBuffer > 0 then c.drainInto fromBuffer else ([], c)
    let c := d.2
    let c := if capacity > 0 ∧ fromBuffer > 0 then
        c.wakeSenders (fromBuffer + (max - fromBuffer))
      else c
    if fromBuffer = 0 then
      if c.senderCount = 0 then (.disconnected, c) else (.empty, c)
    else
      (.ok d.1, c)

/-- Takes the flags of the queued waiters that are waiting to `st`. The waiters stay queued. -/
def finishAll (c : Internal T) (q : List ℕ) (st : WaiterState) : Internal T :=
  { c with flags := fun i => if i ∈ q ∧ c.flags i = waiting then st else c.flags i }

/-- A sender handle is closed; with the last one, every waiting receiver is woken. -/
def closeSender (c : Internal T) : Internal T :=
  let c := { c with senderCount := c.senderCount - 1 }
  if c.senderCount = 0 then
    (c.finishAll c.waitingSyncReceivers closedBuffered).finishAll c.waitingAsyncReceivers
      closedBuffered
  else c

/-- A receiver handle is closed; with the last one, every waiting sender is woken, else the first
of each queue. -/
def closeReceiver (capacity : UInt64) (c : Internal T) : Internal T :=
  let c := { c with receiverCount := c.receiverCount - 1 }
  if c.receiverCount = 0 then
    let st := if capacity = 0 then closedRendezvous else closedBuffered
    (c.finishAll c.waitingSyncSenders st).finishAll c.waitingAsyncSenders st
  else
    (c.finishAll c.waitingSyncSenders.head?.toList successSpace).finishAll
      c.waitingAsyncSenders.head?.toList successSpace

/-! ### The sections by what they find -/

variable {capacity : UInt64} {c c' : Internal T} {item : T} {rest : List T}

theorem isFull_iff (hpos : capacity ≠ 0) : c.isFull capacity ↔ c.queueLen = capacity := by
  rw [isFull, if_neg hpos, decide_eq_true_iff]

theorem trySendCore_of_closed (h : c.receiverCount = 0) :
    c.trySendCore capacity item = (.closed item, c) := by
  rw [trySendCore, if_pos h]

theorem trySendCore_of_full (hpos : capacity ≠ 0) (hopen : c.receiverCount ≠ 0)
    (hfull : c.queueLen = capacity) : c.trySendCore capacity item = (.full item, c) := by
  have hlt : ¬ c.queueLen < capacity := by simp [hfull]
  rw [trySendCore, if_neg hopen, if_pos ((isFull_iff hpos).mpr hfull)]
  simp only [if_neg hpos, if_neg hlt]

theorem trySendCore_of_lt (hopen : c.receiverCount ≠ 0) (hlt : c.queueLen < capacity) :
    c.trySendCore capacity item = (c.wakeReceiver.getD c).store item := by
  have hpos : capacity ≠ 0 := by
    rintro rfl
    simp [UInt64.lt_iff_toNat_lt] at hlt
  have hfull : ¬ c.isFull capacity := by
    rw [isFull_iff hpos]
    rintro rfl
    simp at hlt
  rw [trySendCore, if_neg hopen, if_neg hfull]
  cases c.wakeReceiver with
  | some c' => rfl
  | none => simp only [if_neg hpos, if_pos hlt, Option.getD_none]

theorem wakeReceiver_queue (c : Internal T) : (c.wakeReceiver.getD c).queue = c.queue ∧
    (c.wakeReceiver.getD c).queueLen = c.queueLen := by
  unfold wakeReceiver
  split
  · exact ⟨rfl, rfl⟩
  · split <;> exact ⟨rfl, rfl⟩

theorem wakeSender_queue (c : Internal T) :
    c.wakeSender.queue = c.queue ∧ c.wakeSender.queueLen = c.queueLen := by
  unfold wakeSender
  split
  · exact ⟨rfl, rfl⟩
  · split <;> exact ⟨rfl, rfl⟩

theorem popReceiver_queue (c : Internal T) :
    c.popReceiver.2.queue = c.queue ∧ c.popReceiver.2.queueLen = c.queueLen := by
  unfold popReceiver
  dsimp only
  split
  · exact ⟨rfl, rfl⟩
  · split <;> exact ⟨rfl, rfl⟩

theorem sendBatchLoop_of_full (hpos : capacity ≠ 0) (hfull : c.queueLen = capacity) :
    sendBatchLoop capacity (item :: rest) c = ((.full, item :: rest), c) := by
  have hlt : ¬ c.queueLen < capacity := by simp [hfull]
  rw [sendBatchLoop, if_pos ((isFull_iff hpos).mpr hfull)]
  simp [if_neg hlt]

theorem sendBatchLoop_of_lt (hlt : c.queueLen < capacity) :
    sendBatchLoop capacity (item :: rest) c =
      match c.popReceiver.2.pushBack item with
      | some c => sendBatchLoop capacity rest c
      | none => ((.pushFailed, rest), c.popReceiver.2) := by
  have hpos : capacity ≠ 0 := by
    rintro rfl
    simp [UInt64.lt_iff_toNat_lt] at hlt
  have hfull : ¬ c.isFull capacity := by
    rw [isFull_iff hpos]
    rintro rfl
    simp at hlt
  have hlt' : c.popReceiver.2.queueLen < capacity := by rwa [(popReceiver_queue c).2]
  rw [sendBatchLoop, if_neg hfull]
  simp only [if_neg hpos, if_pos hlt', ite_self]

theorem tryRecvBatchCore_of_empty {max : UInt64} (hmax : max ≠ 0) (h : c.queueLen = 0) :
    c.tryRecvBatchCore capacity max =
      (if c.senderCount = 0 then .disconnected else .empty, c) := by
  have hmin : min max c.queueLen = 0 := by
    rw [← UInt64.toNat_inj, Word.toNat_min, h, UInt64.toNat_zero, Nat.min_zero]
  have hlt : ¬ (0 : UInt64) > 0 := UInt64.lt_irrefl 0
  simp only [tryRecvBatchCore, if_neg hmax, hmin, hlt, and_false, if_false, if_true]
  split_ifs <;> rfl

theorem tryRecvBatchCore_of_ne {max : UInt64} (hmax : max ≠ 0) (hpos : capacity ≠ 0)
    (h : c.queueLen ≠ 0) : c.tryRecvBatchCore capacity max =
      (.ok (c.drainInto (min max c.queueLen)).1,
        (c.drainInto (min max c.queueLen)).2.wakeSenders max) := by
  have hmin : min max c.queueLen ≠ 0 := by
    intro hmin
    have hzero := congrArg UInt64.toNat hmin
    rw [Word.toNat_min, UInt64.toNat_zero] at hzero
    rcases Nat.min_eq_zero_iff.mp hzero with hz | hz
    · exact hmax (UInt64.toNat_inj.mp hz)
    · exact h (UInt64.toNat_inj.mp hz)
  have hgt : ∀ a : UInt64, a ≠ 0 → a > 0 := fun a ha => UInt64.pos_iff_ne_zero.mpr ha
  have hsum : min max c.queueLen + (max - min max c.queueLen) = max := by
    rw [add_sub_cancel]
  simp only [tryRecvBatchCore, if_neg hmax, if_neg hmin, hgt _ hpos, hgt _ hmin,
    and_self, if_true, hsum]

end Internal

end Fibre.Channels.Mpmc
