import Mathlib.Data.List.Basic
import Fibre.Math.Machine

/-!
# The core of the queued rendezvous channels

A rendezvous channel has no buffer: an item goes from the memory of a sender straight to that of a
receiver. Whoever comes first parks a record of itself; whoever comes second, under the lock,
moves the item, publishes `DONE` in the state of the parked one and takes its record out.

A record is the number of its operation, and `state` and `slot` are the operations' own memory: a
sender's payload, or a receiver's destination.
-/

namespace Fibre.Channels.Rendezvous

open Function

inductive WaiterState
  /-- parked and eligible to be matched -/
  | waiting
  /-- the peer moved the item -/
  | done
  /-- the owner reclaimed its record -/
  | cancelled
  /-- the channel closed for this waiter -/
  | disconnected
  deriving DecidableEq

/-- The containers of parked receivers: many for MPMC, one for MPSC. -/
inductive Store
  | queue
  | slot
  deriving DecidableEq

/-- The two sides of the channel. -/
inductive Side
  | send
  | recv
  deriving DecidableEq

def Side.other : Side → Side
  | send => recv
  | recv => send

/-- The state behind the lock, with the memory its records point to. -/
structure Core (T : Type*) where
  senderWaiters : List ℕ
  receivers : List ℕ
  senderCount : ℕ
  receiverCount : ℕ
  state : ℕ → WaiterState
  slot : ℕ → Option T

/-- How a locked section ends. -/
inductive Locked (T : Type*)
  /-- the other side is gone -/
  | closed
  /-- the item went to or came from the parked operation `peer` -/
  | handed (peer : ℕ) (item : T) (core : Core T)
  /-- nobody is parked on the other side -/
  | nobody
  /-- a parked sender without an item: an `expect` would fail -/
  | panicked

namespace Core

variable {T : Type*}

/-- A new channel, with one handle on each side. -/
def new : Core T where
  senderWaiters := []
  receivers := []
  senderCount := 1
  receiverCount := 1
  state _ := .waiting
  slot _ := none

/-- The parked operations of a side. -/
def queue (c : Core T) : Side → List ℕ
  | .send => c.senderWaiters
  | .recv => c.receivers

def count (c : Core T) : Side → ℕ
  | .send => c.senderCount
  | .recv => c.receiverCount

/-- Parks a receiver. The single slot is overwritten: it is asserted to be empty. -/
def pushReceiver (store : Store) (c : Core T) (i : ℕ) : Core T :=
  match store with
  | .queue => { c with receivers := c.receivers ++ [i] }
  | .slot => { c with receivers := [i] }

def pushSender (c : Core T) (i : ℕ) : Core T :=
  { c with senderWaiters := c.senderWaiters ++ [i] }

/-- Writes the item into a parked receiver's destination and publishes `DONE`. -/
def fulfillReceiver (c : Core T) (j : ℕ) (item : T) : Core T :=
  { c with
    slot := update c.slot j (some item)
    state := update c.state j .done }

/-- Takes the payload from a parked sender's slot and publishes `DONE`. -/
def fulfillSender (c : Core T) (j : ℕ) : Option (T × Core T) :=
  (c.slot j).map fun item => (item, { c with
    slot := update c.slot j none
    state := update c.state j .done })

/-- The locked section of `try_send`, `send_blocking` and `poll_send`. -/
def sendLocked (c : Core T) (item : T) : Locked T :=
  if c.receiverCount = 0 then .closed
  else
    match c.receivers with
    | j :: rest => .handed j item ({ c with receivers := rest : Core T }.fulfillReceiver j item)
    | [] => .nobody

/-- The locked section of `try_recv`, `recv_blocking`, `recv_timeout` and `poll_recv`. -/
def recvLocked (c : Core T) : Locked T :=
  match c.senderWaiters with
  | j :: rest =>
    match { c with senderWaiters := rest : Core T }.fulfillSender j with
    | some (item, c) => .handed j item c
    | none => .panicked
  | [] => if c.senderCount = 0 then .closed else .nobody

/-- Publishes `DISCONNECTED` to the operations in `l`. -/
def disconnect (c : Core T) (l : List ℕ) : Core T :=
  { c with state := fun i => if i ∈ l then .disconnected else c.state i }

/-- Drops a sender handle. The last one disconnects every parked receiver. -/
def dropSender (c : Core T) : Core T :=
  let c := { c with senderCount := c.senderCount - 1 }
  if c.senderCount = 0 then { c.disconnect c.receivers with receivers := [] } else c

/-- Drops a receiver handle. The last one disconnects every parked sender. -/
def dropReceiver (c : Core T) : Core T :=
  let c := { c with receiverCount := c.receiverCount - 1 }
  if c.receiverCount = 0 then { c.disconnect c.senderWaiters with senderWaiters := [] } else c

/-- The locked half of `cancel_sender` and `cancel_receiver`: takes the record out, if it is
there. -/
def unlink (c : Core T) (side : Side) (i : ℕ) : Core T :=
  match side with
  | .send => { c with senderWaiters := c.senderWaiters.erase i }
  | .recv => { c with receivers := c.receivers.erase i }

end Core

end Fibre.Channels.Rendezvous
