import Fibre.Math.Machine
import Fibre.Channels.Mpmc.Core

/-!
# The bounded MPMC channel as a machine

Any number of operations on one channel, interleaved at their locked sections and at the accesses
they make to their flags between them. An operation is a task: a blocking or an asynchronous send
or receive, of one item or a batch, a timed receive, or a stream. Operations that do not wait are
single actions.

A blocking operation makes a new flag each time it parks, where a task here keeps one; by then the
queues do not refer to it any more.
-/

namespace Fibre.Channels.Mpmc

open WaiterState

/-- A blocking or an asynchronous sender. -/
inductive SendKind
  | sync
  | async
  deriving DecidableEq

/-- A blocking receiver, a timed one, a receive future, or a stream. -/
inductive RecvKind
  | sync
  | timed
  | future
  | stream
  deriving DecidableEq

/-- Where an operation is. `items` are those still to send, `batch` tells a batch from a single
send, and `max` is the size of a batch receive. -/
inductive Task (T : Type*)
  /-- not started -/
  | fresh
  /-- returned, or dropped -/
  | done
  /-- a stream between two items -/
  | streamIdle
  | sendTry (k : SendKind) (batch : Bool) (items : List T)
  /-- the channel was full -/
  | sendRegister (k : SendKind) (batch : Bool) (items : List T)
  | sendParked (k : SendKind) (batch : Bool) (items : List T)
  /-- woken, the flag read -/
  | sendWoken (k : SendKind) (batch : Bool) (items : List T) (st : WaiterState)
  /-- dropped while parked -/
  | sendDropped (k : SendKind)
  | recvTry (k : RecvKind) (max : Option UInt64)
  /-- the channel was empty -/
  | recvRegister (k : RecvKind) (max : Option UInt64)
  | recvParked (k : RecvKind) (max : Option UInt64)
  /-- woken by the last sender's close -/
  | recvClosed (k : RecvKind)
  /-- dropped, or timed out, while parked -/
  | recvDropped (k : RecvKind)
  /-- a timed receive that saw an item, or was woken -/
  | timedRetry
  /-- a timed receive that found nothing then: it sleeps on, in no queue -/
  | timedAsleep
  /-- a timed receive whose time is up after it was woken -/
  | timedFinal

/-- The channel, its tasks, and what was accepted and popped so far. -/
structure System (T : Type*) where
  core : Internal T
  tasks : ℕ → Task T
  accepted : List T
  popped : List T
  /-- a push failed -/
  failed : Bool

/-- A step of the machine. -/
inductive Action (T : Type*)
  | trySend (item : T)
  | trySendBatch (items : List T)
  | tryRecv
  | tryRecvBatch (max : UInt64)
  | startSend (i : ℕ) (k : SendKind) (batch : Bool) (items : List T)
  | startRecv (i : ℕ) (k : RecvKind) (max : Option UInt64)
  /-- the next locked section of a task -/
  | advance (i : ℕ)
  /-- a parked task looks at its flag: a woken thread, or a poll -/
  | resume (i : ℕ)
  | timeout (i : ℕ)
  | drop (i : ℕ)
  | cloneSender
  | cloneReceiver
  | closeSender
  | closeReceiver

namespace System

variable {T : Type*}

def init (capacity : UInt64) : System T where
  core := .new capacity
  tasks _ := .fresh
  accepted := []
  popped := []
  failed := false

def setTask (s : System T) (i : ℕ) (t : Task T) : System T :=
  { s with tasks := Function.update s.tasks i t }

/-- A send of one item or a batch. Returns how it ended and the items left. -/
def send (capacity : UInt64) (s : System T) (batch : Bool) (items : List T) :
    (BatchStatus × List T) × System T :=
  match batch, items with
  | false, item :: _ =>
    let r := s.core.trySendCore capacity item
    match r.1 with
    | .ok => ((.complete, []), { s with core := r.2, accepted := s.accepted ++ [item] })
    | .closed item => ((.closed, [item]), { s with core := r.2 })
    | .full item => ((.full, [item]), { s with core := r.2 })
    | .pushFailed => ((.pushFailed, []), { s with core := r.2, failed := true })
  | _, items =>
    let r := s.core.trySendBatchCore capacity items
    -- on a failed push the item taken from the iterator is lost
    let left := if r.1.1 = .pushFailed then r.1.2.length + 1 else r.1.2.length
    (r.1, { s with
      core := r.2
      accepted := s.accepted ++ items.take (items.length - left)
      failed := s.failed || r.1.1 = .pushFailed })

/-- A receive of one item (`none`) or of at most `max`. -/
def recv (capacity : UInt64) (s : System T) (max : Option UInt64) : RecvOutcome T × System T :=
  let r := match max with
    | none => s.core.tryRecvCore capacity
    | some max => s.core.tryRecvBatchCore capacity max
  (r.1, { s with core := r.2, popped := s.popped ++ r.1.items })

/-- Whether a sender that found the channel full may retry instead of parking. -/
def sendRecheck (capacity : UInt64) (c : Internal T) : Bool :=
  !c.isFull capacity && (c.waitingAsyncReceivers ≠ [] || c.waitingSyncReceivers ≠ [] ||
    (capacity > 0 && c.queueLen < capacity))

/-- Whether a receiver that found the channel empty retries instead of parking. -/
def recvRecheck (capacity : UInt64) (c : Internal T) (k : RecvKind) : Bool :=
  (match k with
    | .sync | .timed => !c.queue.isEmpty
    | .future | .stream => !c.isEmpty) ||
    (capacity = 0 && (c.waitingSyncSenders ≠ [] || c.waitingAsyncSenders ≠ []))

/-- Queues the sender `i`. -/
def parkSender (c : Internal T) (i : ℕ) : SendKind → Internal T
  | .sync => { c.setFlag i waiting with waitingSyncSenders := c.waitingSyncSenders ++ [i] }
  | .async => { c.setFlag i waiting with waitingAsyncSenders := c.waitingAsyncSenders ++ [i] }

/-- Queues the receiver `i`. A polled receiver that is queued already stays where it is. -/
def parkReceiver (c : Internal T) (i : ℕ) : RecvKind → Internal T
  | .sync | .timed =>
    { c.setFlag i waiting with waitingSyncReceivers := c.waitingSyncReceivers ++ [i] }
  | .future | .stream =>
    if i ∈ c.waitingAsyncReceivers then c
    else { c.setFlag i waiting with waitingAsyncReceivers := c.waitingAsyncReceivers ++ [i] }

def unlinkSender (c : Internal T) (i : ℕ) : SendKind → Internal T
  | .sync => { c with waitingSyncSenders := c.waitingSyncSenders.filter (· ≠ i) }
  | .async => { c with waitingAsyncSenders := c.waitingAsyncSenders.filter (· ≠ i) }

def unlinkReceiver (c : Internal T) (i : ℕ) : RecvKind → Internal T
  | .sync | .timed => { c with waitingSyncReceivers := c.waitingSyncReceivers.filter (· ≠ i) }
  | .future | .stream => { c with waitingAsyncReceivers := c.waitingAsyncReceivers.filter (· ≠ i) }

/-- A receive returned. A stream resets its flag for the next item; it does so after it released
the lock, but no other party looks at the flag of a task that is not queued. -/
def recvReturned (s : System T) (i : ℕ) : RecvKind → System T
  | .stream => { s with core := s.core.setFlag i waiting }.setTask i .streamIdle
  | _ => s.setTask i .done

/-- A receive by the task `i`, which goes on as `next` when the channel is empty. -/
def recvThen (capacity : UInt64) (s : System T) (i : ℕ) (k : RecvKind) (max : Option UInt64)
    (next : Task T) : System T :=
  let r := s.recv capacity max
  match r.1 with
  | .ok _ | .disconnected => r.2.recvReturned i k
  | .empty => r.2.setTask i next

/-- The next locked section of a task. -/
def advance (capacity : UInt64) (s : System T) (i : ℕ) : Option (System T) :=
  match s.tasks i with
  | .sendTry k batch items =>
    let r := s.send capacity batch items
    match r.1.1 with
    | .full => some (r.2.setTask i (.sendRegister k batch r.1.2))
    | .complete | .closed | .pushFailed => some (r.2.setTask i .done)
  | .sendRegister k batch items =>
    if sendRecheck capacity s.core then some (s.setTask i (.sendTry k batch items))
    else if s.core.receiverCount = 0 then some (s.setTask i .done)
    else some ({ s with core := parkSender s.core i k }.setTask i (.sendParked k batch items))
  | .sendWoken k batch items st =>
    let s := { s with core := unlinkSender s.core i k }
    some (s.setTask i (if st.closed then .done else .sendTry k batch items))
  | .sendDropped k => some ({ s with core := unlinkSender s.core i k }.setTask i .done)
  | .recvTry k max => some (s.recvThen capacity i k max (.recvRegister k max))
  | .recvRegister k max =>
    if recvRecheck capacity s.core k then
      some (s.setTask i (if k = .timed then .timedRetry else .recvTry k max))
    else if s.core.senderCount = 0 then some (s.recvReturned i k)
    else some ({ s with core := parkReceiver s.core i k }.setTask i (.recvParked k max))
  | .recvClosed k | .recvDropped k =>
    some ({ s with core := unlinkReceiver s.core i k }.setTask i .done)
  | .timedRetry => some (s.recvThen capacity i .timed none .timedAsleep)
  -- a panic when the channel is empty
  | .timedFinal => some (s.recvThen capacity i .timed none .done)
  | _ => none

/-- A parked task looks at its flag. Only a poll can do so before the wait is over. -/
def resume (s : System T) (i : ℕ) : Option (System T) :=
  let st := s.core.flags i
  match s.tasks i with
  | .sendParked k batch items =>
    if st.finished then some (s.setTask i (.sendWoken k batch items st))
    else if k = .async then some s
    else none
  | .recvParked .timed _ | .timedAsleep =>
    if st.finished then some (s.setTask i .timedRetry) else none
  | .recvParked .stream max => some (s.setTask i (.recvTry .stream max))
  | .recvParked k max =>
    if st.finished then
      some (s.setTask i (if st.closed then .recvClosed k else .recvTry k max))
    else if k = .future then some (s.setTask i (.recvTry k max))
    else none
  | _ => none

/-- Takes a flag from `waiting` to `cancelled`. -/
def cancelFlag (c : Internal T) (i : ℕ) : Internal T :=
  if c.flags i = waiting then c.setFlag i cancelled else c

/-- The time of a timed receive is up. -/
def timeout (s : System T) (i : ℕ) : Option (System T) :=
  match s.tasks i with
  | .recvParked .timed _ | .timedAsleep =>
    if s.core.flags i = waiting then
      some ({ s with core := cancelFlag s.core i }.setTask i (.recvDropped .timed))
    else some (s.setTask i .timedFinal)
  | _ => none

/-- A pending future, or a parked stream, is dropped. -/
def drop (s : System T) (i : ℕ) : Option (System T) :=
  match s.tasks i with
  | .sendParked .async _ _ =>
    some ({ s with core := cancelFlag s.core i }.setTask i (.sendDropped .async))
  | .recvParked .future _ =>
    some ({ s with core := cancelFlag s.core i }.setTask i (.recvDropped .future))
  | .recvParked .stream _ =>
    -- a stream that was woken is not unlinked
    if s.core.flags i = waiting then
      some ({ s with core := cancelFlag s.core i }.setTask i (.recvDropped .stream))
    else some (s.setTask i .done)
  | _ => none

/-- The interleaved steps of all parties. -/
def step (capacity : UInt64) (s : System T) : Action T → Option (System T)
  | .trySend item => some (s.send capacity false [item]).2
  | .trySendBatch items => some (s.send capacity true items).2
  | .tryRecv => some (s.recv capacity none).2
  | .tryRecvBatch max => some (s.recv capacity (some max)).2
  | .startSend i k batch items =>
    match s.tasks i with
    | .fresh =>
      if items = [] ∨ (batch = false ∧ items.length ≠ 1) then none
      else some (s.setTask i (.sendTry k batch items))
    | _ => none
  | .startRecv i k max =>
    match s.tasks i, k with
    | .fresh, k =>
      -- a timed receive and a stream take one item
      if (k = .timed ∨ k = .stream) ∧ max ≠ none then none
      else some (s.setTask i (.recvTry k max))
    | .streamIdle, .stream => some (s.setTask i (.recvTry .stream none))
    | _, _ => none
  | .advance i => s.advance capacity i
  | .resume i => s.resume i
  | .timeout i => s.timeout i
  | .drop i => s.drop i
  | .cloneSender =>
    if s.core.senderCount = 0 then none
    else some { s with core := { s.core with senderCount := s.core.senderCount + 1 } }
  | .cloneReceiver =>
    if s.core.receiverCount = 0 then none
    else some { s with core := { s.core with receiverCount := s.core.receiverCount + 1 } }
  | .closeSender =>
    if s.core.senderCount = 0 then none else some { s with core := s.core.closeSender }
  | .closeReceiver =>
    if s.core.receiverCount = 0 then none
    else some { s with core := s.core.closeReceiver capacity }

end System

end Fibre.Channels.Mpmc
