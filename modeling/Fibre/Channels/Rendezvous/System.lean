import Fibre.Channels.Rendezvous.Core

/-!
# The rendezvous channel as a machine

Any number of operations on one channel, interleaved at their locked sections and at the accesses
they make to their own state outside the lock. Operations are numbered. A cancellation is two
steps: the exchange of the state, and the locked section that takes the record out.
-/

namespace Fibre.Channels.Rendezvous

open Function

/-- How an operation waits: a blocked thread, a timed receive, or a future. -/
inductive Kind
  | sync
  | timed
  | future
  deriving DecidableEq

/-- What an operation returned. -/
inductive Outcome (T : Type*)
  /-- the item went over -/
  | ok (item : T)
  /-- `SendError::Closed`, `RecvError::Disconnected` -/
  | closed
  /-- `TrySendError::Full`, `TryRecvError::Empty` -/
  | nobody
  /-- `RecvErrorTimeout::Timeout` -/
  | timeout
  /-- a future dropped after it cancelled its record -/
  | cancelled
  /-- a future dropped after its record was taken out by another -/
  | abandoned

/-- Where an operation is. -/
inductive Point (T : Type*)
  | fresh
  /-- parked; it looks at its state next -/
  | parked (side : Side) (kind : Kind)
  /-- polled again, with `WAITING` read: it takes the lock next -/
  | polled (side : Side)
  /-- its state is exchanged for `CANCELLED`: it takes the lock next -/
  | cancelling (side : Side) (kind : Kind)
  | returned (side : Side) (outcome : Outcome T)

/-- An item that went over. -/
structure Handoff (T : Type*) where
  sender : ℕ
  receiver : ℕ
  item : T

def Handoff.party {T : Type*} (h : Handoff T) : Side → ℕ
  | .send => h.sender
  | .recv => h.receiver

/-- The channel and its operations, with a record of what was offered, of the handoffs, and of the
senders in the order they parked in. -/
structure System (T : Type*) where
  core : Core T
  point : ℕ → Point T
  offered : ℕ → Option T
  handoffs : List (Handoff T)
  arrivals : List ℕ

/-- A step of the machine. -/
inductive Action (T : Type*)
  | trySend (i : ℕ) (item : T)
  | tryRecv (i : ℕ)
  | send (i : ℕ) (kind : Kind) (item : T)
  | recv (i : ℕ) (kind : Kind)
  /-- a parked operation looks at its state: a woken thread, or a poll -/
  | look (i : ℕ)
  /-- a poll that read `WAITING` takes the lock -/
  | repoll (i : ℕ)
  /-- a timed receive is late, or a future is dropped: it tries to cancel -/
  | cancel (i : ℕ)
  /-- a cancellation takes its record out -/
  | unlink (i : ℕ)
  | cloneSender
  | cloneReceiver
  | dropSender
  | dropReceiver

namespace System

variable {T : Type*}

def init : System T where
  core := .new
  point _ := .fresh
  offered _ := none
  handoffs := []
  arrivals := []

def setPoint (s : System T) (i : ℕ) (p : Point T) : System T :=
  { s with point := update s.point i p }

/-- The locked section a send starts with. `park` says what it does when nobody is parked. -/
def startSend (s : System T) (i : ℕ) (item : T) (park : System T → System T) :
    Option (System T) :=
  let s := { s with offered := update s.offered i (some item) }
  match s.core.sendLocked item with
  | .closed => some (s.setPoint i (.returned .send .closed))
  | .handed j item core => some { s.setPoint i (.returned .send (.ok item)) with
      core := core
      handoffs := s.handoffs ++ [⟨i, j, item⟩] }
  | .nobody => some (park s)
  | .panicked => none

def startRecv (s : System T) (i : ℕ) (park : System T → System T) : Option (System T) :=
  match s.core.recvLocked with
  | .closed => some (s.setPoint i (.returned .recv .closed))
  | .handed j item core => some { s.setPoint i (.returned .recv (.ok item)) with
      core := core
      handoffs := s.handoffs ++ [⟨j, i, item⟩] }
  | .nobody => some (park s)
  | .panicked => none

/-- A sender writes its payload to its slot and parks. -/
def parkSend (s : System T) (i : ℕ) (kind : Kind) (item : T) : System T :=
  { s.setPoint i (.parked .send kind) with
    core := { s.core with
      slot := update s.core.slot i (some item)
      state := update s.core.state i .waiting : Core T }.pushSender i
    arrivals := s.arrivals ++ [i] }

/-- A receiver empties its destination and parks. -/
def parkRecv (store : Store) (s : System T) (i : ℕ) (kind : Kind) : System T :=
  { s.setPoint i (.parked .recv kind) with
    core := { s.core with
      slot := update s.core.slot i none
      state := update s.core.state i .waiting : Core T }.pushReceiver store i }

/-- What an operation returns once its state is terminal. `DONE` without an item would fail an
`expect`. -/
def finish (s : System T) (side : Side) (i : ℕ) : Option (System T) :=
  match s.core.state i with
  | .done =>
    let item := match side with
      | .send => s.offered i
      | .recv => s.core.slot i
    item.map fun item => s.setPoint i (.returned side (.ok item))
  | _ => some (s.setPoint i (.returned side .closed))

/-- The system after an action; `none` when it is not possible. -/
def step (store : Store) (s : System T) : Action T → Option (System T)
  | .trySend i item =>
    match s.point i with
    | .fresh => s.startSend i item fun s => s.setPoint i (.returned .send .nobody)
    | _ => none
  | .tryRecv i =>
    match s.point i with
    | .fresh => s.startRecv i fun s => s.setPoint i (.returned .recv .nobody)
    | _ => none
  | .send i kind item =>
    match s.point i with
    | .fresh => s.startSend i item fun s => s.parkSend i kind item
    | _ => none
  | .recv i kind =>
    match s.point i with
    | .fresh => s.startRecv i fun s => s.parkRecv store i kind
    | _ => none
  | .look i =>
    match s.point i with
    | .parked side kind =>
      if s.core.state i = .waiting then
        -- a thread parks again; a poll goes on to refresh its waker
        some (if kind = .future then s.setPoint i (.polled side) else s)
      else s.finish side i
    | _ => none
  | .repoll i =>
    match s.point i with
    | .polled side =>
      if i ∈ s.core.queue side then some (s.setPoint i (.parked side .future))
      else s.finish side i
    | _ => none
  | .cancel i =>
    match s.point i with
    | .parked side kind =>
      if kind = .sync ∨ (kind = .timed ∧ side = .send) then none
      else if s.core.state i = .waiting then
        some { s.setPoint i (.cancelling side kind) with
          core := { s.core with state := update s.core.state i .cancelled } }
      else if kind = .timed then s.finish side i
      else some (s.setPoint i (.returned side .abandoned))
    | _ => none
  | .unlink i =>
    match s.point i with
    | .cancelling side kind =>
      some { s.setPoint i (.returned side (if kind = .timed then .timeout else .cancelled)) with
        core := s.core.unlink side i }
    | _ => none
  | .cloneSender => some { s with core.senderCount := s.core.senderCount + 1 }
  | .cloneReceiver => some { s with core.receiverCount := s.core.receiverCount + 1 }
  | .dropSender =>
    if s.core.senderCount = 0 then none else some { s with core := s.core.dropSender }
  | .dropReceiver =>
    if s.core.receiverCount = 0 then none else some { s with core := s.core.dropReceiver }

/-- What the core asks of its callers: the single slot holds one receiver at a time, the
`debug_assert` of `push_receiver`. -/
def Allowed (store : Store) (s : System T) : Action T → Prop
  | .recv _ _ => store = .slot → s.core.receivers = []
  | _ => True

end System

end Fibre.Channels.Rendezvous
