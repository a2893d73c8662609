import Mathlib.Data.UInt
import Fibre.Math.Machine

/-!
# The topic channel

A sender gives a message on a topic to the mailboxes that are listed for the topic. Each receiver has
a mailbox of its own and a set of the topics it has subscribed to. The set is changed under a lock of
the receiver, and the list of the topic in a step of its own after that.

A mailbox is told by its receiver. The lists hold it weakly: a list may name a mailbox whose receiver
is gone, until the list is changed the next time.
-/

namespace Fibre.Channels.Topic

open Function

structure Mailbox (α : Type*) where
  buffer : List α
  capacity : ℕ
  droppedCount : ℕ

def Mailbox.deliver {α : Type*} (m : Mailbox α) (value : α) : Mailbox α :=
  if m.capacity ≤ m.buffer.length then { m with droppedCount := m.droppedCount + 1 }
  else { m with buffer := m.buffer ++ [value] }

/-- A handle, of either kind. -/
structure Receiver (K V : Type*) where
  isAsync : Bool
  mailbox : Mailbox (K × V)
  subscriptions : Finset K
  closed : Bool
  /-- the call that makes it has returned -/
  out : Bool
  /-- its drop has begun -/
  dropped : Bool
  /-- it exists, and so does its end of the mailbox -/
  live : Bool

/-- What follows on the topics of a call. -/
inductive After
  | nothing
  | close
  | drop
  deriving DecidableEq

/-- A call under way, with the topics it has yet to go through. -/
inductive Call (K V : Type*)
  /-- about to put the next topic into the set; a clone subscribes the receiver it makes -/
  | subscribing (r : ℕ) (todo : List K) (clone : Bool)
  /-- has put the topic into the set, about to change its list -/
  | pushing (r : ℕ) (k : K) (todo : List K) (clone : Bool)
  /-- about to empty the set -/
  | closing (r : ℕ) (after : After)
  /-- about to take the next topic out of the set -/
  | unsubscribing (r : ℕ) (todo : List K) (after : After)
  /-- has taken the topic out of the set, about to change its list -/
  | retaining (r : ℕ) (k : K) (todo : List K) (after : After)
  | sending (k : K) (v : V)
  /-- the mailboxes of a message -/
  | delivering (k : K) (v : V) (targets : List ℕ)
  | returned

namespace Call

variable {K V : Type*}

def receiver : Call K V → Option ℕ
  | subscribing r _ _ | pushing r _ _ _ | closing r _ | unsubscribing r _ _ | retaining r _ _ _ =>
    some r
  | _ => none

/-- The topic whose list the call is about to change. -/
def pending : Call K V → Option (ℕ × K)
  | pushing r k _ _ | retaining r k _ _ => some (r, k)
  | _ => none

/-- What the call does in the end. -/
def after : Call K V → After
  | closing _ after | unsubscribing _ _ after | retaining _ _ _ after => after
  | _ => .nothing

/-- A message is under way. -/
def sends : Call K V → Bool
  | sending _ _ | delivering _ _ _ => true
  | _ => false

/-- The mailboxes a message is still to go to. -/
def targets : Call K V → List ℕ
  | delivering _ _ targets => targets
  | _ => []

end Call

/-- The dispatcher, the sender, the receivers by their number, and the calls in the order in which
they began. -/
structure System (K V : Type*) where
  subscribers : K → List ℕ
  receiverCount : UInt64
  senderClosed : Bool
  senderLive : Bool
  receivers : ℕ → Receiver K V
  /-- how many receivers were made -/
  made : ℕ
  calls : List (Call K V)

inductive Action (K V : Type*)
  | subscribe (r : ℕ) (k : K)
  | unsubscribe (r : ℕ) (k : K)
  | close (r : ℕ)
  /-- with the topics of the receiver in the order in which its set is gone through -/
  | clone (r : ℕ) (topics : List K)
  | convert (r : ℕ)
  | drop (r : ℕ)
  | send (k : K) (v : V)
  | closeSender
  | dropSender
  /-- a close takes the topics, in the order in which the set is gone through -/
  | drain (i : ℕ) (topics : List K)
  /-- any other step of a call -/
  | advance (i : ℕ)

namespace System

variable {K V : Type*} [DecidableEq K] {s s' : System K V}

def setReceiver (s : System K V) (r : ℕ) (receiver : Receiver K V) : System K V :=
  { s with receivers := update s.receivers r receiver }

def setCall (s : System K V) (i : ℕ) (call : Call K V) : System K V :=
  { s with calls := s.calls.set i call }

def begin (s : System K V) (call : Call K V) : System K V :=
  { s with calls := s.calls ++ [call] }

def held (s : System K V) (r : ℕ) : Bool := (s.receivers r).out && !(s.receivers r).dropped

def idle (s : System K V) (r : ℕ) : Bool := s.calls.all fun c => c.receiver ≠ some r

def absent : Receiver K V := ⟨false, ⟨[], 0, 0⟩, ∅, false, false, false, false⟩

/-- A receiver with a mailbox and without subscriptions. -/
def fresh (isAsync : Bool) (capacity : ℕ) (closed out : Bool) : Receiver K V :=
  ⟨isAsync, ⟨[], capacity, 0⟩, ∅, closed, out, false, true⟩

/-- One sender and one receiver. -/
def init (isAsync : Bool) (capacity : ℕ) : System K V where
  subscribers _ := []
  receiverCount := 1
  senderClosed := false
  senderLive := true
  receivers := update (fun _ => absent) 0 (fresh isAsync capacity false true)
  made := 1
  calls := []

/-- Changes a list: mailboxes that are gone leave it, and then `f` is applied. -/
def modify (s : System K V) (k : K) (f : List ℕ → List ℕ) : System K V :=
  -- the dispatcher is gone with the sender
  if s.senderLive then
    let list := (s.subscribers k).filter fun r => (s.receivers r).live
    { s with subscribers := update s.subscribers k (f list) }
  else s

/-- Another handle. -/
def add (s : System K V) (receiver : Receiver K V) : System K V :=
  { s with
    receivers := update s.receivers s.made receiver
    made := s.made + 1 }

def join (s : System K V) : System K V := { s with receiverCount := s.receiverCount + 1 }

def leave (s : System K V) : System K V := { s with receiverCount := s.receiverCount - 1 }

/-- The receiver's end of the mailbox is gone. -/
def kill (s : System K V) (r : ℕ) : System K V :=
  s.setReceiver r { s.receivers r with live := false }

/-- The end of a loop over topics. -/
def finish (s : System K V) (r : ℕ) : After → System K V
  | .nothing => s
  | .close => s.leave
  | .drop => s.leave.kill r

def advance (s : System K V) (i : ℕ) : Option (System K V) :=
  match s.calls[i]? with
  | some (.subscribing r [] clone) =>
    some ((if clone then s.setReceiver r { s.receivers r with out := true } else s).setCall i
      .returned)
  | some (.subscribing r (k :: todo) clone) =>
    if k ∈ (s.receivers r).subscriptions then some (s.setCall i (.subscribing r todo clone))
    else
      some ((s.setReceiver r { s.receivers r with
        subscriptions := insert k (s.receivers r).subscriptions }).setCall i
          (.pushing r k todo clone))
  | some (.pushing r k todo clone) =>
    some ((s.modify k fun list => if r ∈ list then list else list ++ [r]).setCall i
      (.subscribing r todo clone))
  | some (.unsubscribing r [] after) => some ((s.finish r after).setCall i .returned)
  | some (.unsubscribing r (k :: todo) after) =>
    if k ∈ (s.receivers r).subscriptions then
      some ((s.setReceiver r { s.receivers r with
        subscriptions := (s.receivers r).subscriptions.erase k }).setCall i
          (.retaining r k todo after))
    else some (s.setCall i (.unsubscribing r todo after))
  | some (.retaining r k todo after) =>
    some ((s.modify k fun list => list.filter fun m => m ≠ r).setCall i
      (.unsubscribing r todo after))
  | some (.sending k v) =>
    if s.senderClosed ∨ s.receiverCount = 0 then some (s.setCall i .returned)
    else some (s.setCall i (.delivering k v (s.subscribers k)))
  | some (.delivering _ _ []) => some (s.setCall i .returned)
  | some (.delivering k v (m :: targets)) =>
    some ((if (s.receivers m).live then
        s.setReceiver m { s.receivers m with mailbox := (s.receivers m).mailbox.deliver (k, v) }
      else s).setCall i (.delivering k v targets))
  | _ => none

/-- `close_internal` empties the set before it unsubscribes from the topics that were in it. -/
def drain (s : System K V) (i : ℕ) (topics : List K) : Option (System K V) :=
  match s.calls[i]? with
  | some (.closing r after) =>
    if !s.senderLive then
      some ((if after = .drop then s.kill r else s).setCall i .returned)
    else if topics.Nodup ∧ topics.toFinset = (s.receivers r).subscriptions then
      some ((s.setReceiver r { s.receivers r with subscriptions := ∅ }).setCall i
        (.unsubscribing r topics after))
    else none
  | _ => none

/-- One step. Calls on a receiver need a handle, and those that take it over need it alone. -/
def step (s : System K V) : Action K V → Option (System K V)
  | .subscribe r k => if s.held r then some (s.begin (.subscribing r [k] false)) else none
  | .unsubscribe r k => if s.held r then some (s.begin (.unsubscribing r [k] .nothing)) else none
  | .close r =>
    if !s.held r then none
    else if (s.receivers r).closed then some s
    else some ((s.setReceiver r { s.receivers r with closed := true }).begin (.closing r .close))
  | .clone r topics =>
    if !s.held r then none
    else if !s.senderLive then
      -- a dead receiver
      some (s.add (fresh (s.receivers r).isAsync 0 true true))
    else if topics.Nodup ∧ topics.toFinset = (s.receivers r).subscriptions then
      some ((s.join.add (fresh (s.receivers r).isAsync (s.receivers r).mailbox.capacity false
        false)).begin (.subscribing s.made topics true))
    else none
  | .convert r =>
    if s.held r ∧ s.idle r then
      -- the handle of the other kind is not closed
      some (s.setReceiver r { s.receivers r with
        isAsync := !(s.receivers r).isAsync
        closed := false })
    else none
  | .drop r =>
    if ¬ (s.held r ∧ s.idle r) then none
    else if (s.receivers r).closed ∧ !(s.receivers r).isAsync then
      some (s.setReceiver r { s.receivers r with dropped := true, live := false })
    else if (s.receivers r).isAsync then
      -- also when it is closed
      some ((s.setReceiver r { s.receivers r with dropped := true }).begin (.closing r .drop))
    else
      some ((s.setReceiver r { s.receivers r with dropped := true, closed := true }).begin
        (.closing r .drop))
  | .send k v => if s.senderLive then some (s.begin (.sending k v)) else none
  | .closeSender => if s.senderLive then some { s with senderClosed := true } else none
  | .dropSender =>
    if s.senderLive ∧ s.calls.all fun c => !c.sends then
      some { s with senderClosed := true, senderLive := false }
    else none
  | .drain i topics => s.drain i topics
  | .advance i => s.advance i

end System

end Fibre.Channels.Topic
