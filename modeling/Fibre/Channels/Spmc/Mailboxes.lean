import Fibre.Channels.Spmc.TopicSteps

/-!
# The mailboxes of a topic channel

The calls that take messages out of a mailbox, beside the calls that fill it. A mailbox has one place
for a waiter: a call that finds no message leaves its thread or its waker there and goes to sleep, and
whoever delivers a message, or disconnects the mailbox, takes it out and wakes it.

The close of the sender goes through the topics that are known when it begins, and disconnects the
mailboxes that it finds in their lists.
-/

namespace Fibre.Channels.Topic

open Machine Function

/-- Who is to be woken: a thread, or the task of a waker. -/
inductive Waiter
  | sync (thread : ℕ)
  | async (waker : ℕ)
  deriving DecidableEq

/-- `recvClosed` is `recv_timeout` on a receiver that is closed. -/
inductive Method
  | tryRecv
  | recv
  | recvTimeout
  | recvClosed
  | recvAsync
  deriving DecidableEq

inductive Verdict (α : Type*)
  | value (v : α)
  | empty
  | disconnected
  | timeout
  deriving DecidableEq

inductive Stage (α : Type*)
  /-- `recv_timeout` is about to look at `closed` -/
  | checking
  /-- about to look into the mailbox -/
  | looking
  | parked (w : Waiter) (woken : Bool)
  | returned (verdict : Verdict α)
  /-- the future was dropped -/
  | abandoned
  deriving DecidableEq

/-- A call on a mailbox. A synchronous one is told by its thread. -/
structure Receive (α : Type*) where
  receiver : ℕ
  method : Method
  thread : ℕ
  stage : Stage α

namespace Receive

variable {α : Type*}

def ended (x : Receive α) : Bool :=
  match x.stage with
  | .returned _ | .abandoned => true
  | _ => false

/-- Who sleeps in the call, if nobody has woken it. -/
def sleeper (x : Receive α) : Option Waiter :=
  match x.stage with
  | .parked w false => some w
  | _ => none

/-- The thread is unparked, or the task is woken. -/
def wake (w : Waiter) (x : Receive α) : Receive α :=
  match x.stage with
  | .parked w' _ => if w' = w then { x with stage := .parked w' true } else x
  | _ => x

/-- What a call does that finds no message. -/
def nothing (x : Receive α) (waker : ℕ) (expired disconnected : Bool) : Stage α :=
  match x.method with
  | .tryRecv => .returned (if disconnected then .disconnected else .empty)
  | .recvClosed => .returned .disconnected
  | .recv => if disconnected then .returned .disconnected else .parked (.sync x.thread) false
  | .recvTimeout =>
    if disconnected then .returned .disconnected
    else if expired then .returned .timeout
    else .parked (.sync x.thread) false
  | .recvAsync => if disconnected then .returned .disconnected else .parked (.async waker) false

end Receive

/-- The close of the sender. -/
inductive Walk (K : Type*)
  | open
  /-- the topics that were known when it began, those it has been to, and the mailboxes of the list
  it is at -/
  | going (start visited : Finset K) (targets : List ℕ)
  | returned

/-- The mailboxes that the close has found and not been to. -/
def Walk.targets {K : Type*} : Walk K → List ℕ
  | .going _ _ targets => targets
  | _ => []

def Walk.ended {K : Type*} : Walk K → Bool
  | .returned => true
  | _ => false

/-- A message of a call was put into a mailbox. -/
structure Entry (K V : Type*) where
  call : ℕ
  message : K × V

/-- A message of a call was dropped, with so many messages in the mailbox. -/
structure Loss where
  call : ℕ
  length : ℕ

/-- A call has taken a message. -/
structure Taken (K V : Type*) where
  reader : ℕ
  message : K × V

/-- The channel: what a topic channel is, the rest of the mailboxes, by their receivers, the calls on
them, and the topics that have a list. The history is what was found by the close, and what was put
into each mailbox, dropped there, and taken from it. -/
structure Channel (K V : Type*) where
  base : System K V
  isDisconnected : ℕ → Bool
  consumerWaiter : ℕ → Option Waiter
  receives : List (Receive (K × V))
  known : Finset K
  walk : Walk K
  found : Finset ℕ
  log : ℕ → List (Entry K V)
  lost : ℕ → List Loss
  taken : ℕ → List (Taken K V)

namespace Channel

inductive Action (K V : Type*)
  /-- a step of the topic channel -/
  | topic (a : Topic.Action K V)
  | receive (r : ℕ) (method : Method) (thread : ℕ)
  /-- the load of `closed` -/
  | check (j : ℕ)
  /-- the mailbox is looked into, for a future with the waker of its task -/
  | look (j waker : ℕ) (expired : Bool)
  /-- a call goes on after it has slept: it was woken, its time has run out, or it just does -/
  | resume (j : ℕ)
  /-- a future is dropped -/
  | abandon (j : ℕ)
  /-- the close takes the list of a topic -/
  | visit (k : K)
  /-- the close goes to the next mailbox -/
  | disconnect
  | finish

variable {K V : Type*}

def init (isAsync : Bool) (capacity : ℕ) : Channel K V where
  base := System.init isAsync capacity
  isDisconnected _ := false
  consumerWaiter _ := none
  receives := []
  known := ∅
  walk := .open
  found := ∅
  log _ := []
  lost _ := []
  taken _ := []

def mailbox (s : Channel K V) (r : ℕ) : Mailbox (K × V) := (s.base.receivers r).mailbox

def setReceive (s : Channel K V) (j : ℕ) (x : Receive (K × V)) : Channel K V :=
  { s with receives := s.receives.set j x }

/-- Who waits at the mailbox is woken. -/
def wakeConsumer (s : Channel K V) (r : ℕ) : Channel K V :=
  match s.consumerWaiter r with
  | none => s
  | some w =>
    { s with
      consumerWaiter := update s.consumerWaiter r none
      receives := s.receives.map (Receive.wake w) }

/-- The first message is taken out of the mailbox. -/
def pop (s : Channel K V) (r j : ℕ) (v : K × V) (rest : List (K × V)) : Channel K V :=
  { s with
    base := s.base.setReceiver r { s.base.receivers r with
      mailbox := { s.mailbox r with buffer := rest } }
    taken := update s.taken r (s.taken r ++ [Taken.mk j v]) }

/-- A call goes to sleep, or returns. -/
def settle (s : Channel K V) (j : ℕ) (x : Receive (K × V)) (stage : Stage (K × V)) : Channel K V :=
  { s with
    consumerWaiter :=
      match stage with
      | .parked w _ => update s.consumerWaiter x.receiver (some w)
      | _ => s.consumerWaiter
    receives := s.receives.set j { x with stage := stage } }

/-- A look into a mailbox, all of it under the lock of the mailbox. -/
def look (s : Channel K V) (j : ℕ) (x : Receive (K × V)) (waker : ℕ) (expired : Bool) :
    Channel K V :=
  match (s.mailbox x.receiver).buffer with
  | v :: rest => (s.pop x.receiver j v rest).setReceive j { x with stage := .returned (.value v) }
  | [] => s.settle j x (x.nothing waker expired (s.isDisconnected x.receiver))

/-- `MailboxProducer::disconnect` -/
def cutOff (s : Channel K V) (r : ℕ) : Channel K V :=
  if s.isDisconnected r then s
  else { s with isDisconnected := update s.isDisconnected r true }.wakeConsumer r

variable [DecidableEq K]

/-- What a step of the topic channel does beside it: a delivery wakes who waits, a new topic is known,
and the close of an open sender sets off. -/
def note (s : Channel K V) : Topic.Action K V → Channel K V
  | .advance i =>
    match s.base.calls[i]? with
    | some (.delivering k v (m :: _)) =>
      if !(s.base.receivers m).live then s
      else if (s.mailbox m).capacity ≤ (s.mailbox m).buffer.length then
        { s with
          lost := update s.lost m (s.lost m ++ [Loss.mk i (s.mailbox m).buffer.length]) }
      else
        { s with log := update s.log m (s.log m ++ [Entry.mk i (k, v)]) }.wakeConsumer m
    | some (.pushing _ k _ _) =>
      if s.base.senderLive then { s with known := insert k s.known } else s
    | _ => s
  | .closeSender =>
    -- a second close is refused
    if s.base.senderClosed then s else { s with walk := .going s.known ∅ [] }
  | _ => s

/-- A handle is taken over only while no call is under way on it, and the drop of the sender closes it
first. -/
def allowed (s : Channel K V) : Topic.Action K V → Bool
  | .convert r | .drop r => s.receives.all fun x => decide (x.receiver ≠ r) || x.ended
  | .dropSender => s.base.senderClosed && s.walk.ended
  | _ => true

def offers (isAsync : Bool) : Method → Bool
  | .tryRecv => true
  | .recv | .recvTimeout => !isAsync
  | .recvAsync => isAsync
  | .recvClosed => false

def step (s : Channel K V) : Action K V → Option (Channel K V)
  | .topic a =>
    if s.allowed a then (s.base.step a).map fun base => { s.note a with base := base } else none
  | .receive r method thread =>
    if s.base.held r ∧ offers (s.base.receivers r).isAsync method then
      let x : Receive (K × V) :=
        ⟨r, method, thread, if method = .recvTimeout then .checking else .looking⟩
      some { s with receives := s.receives ++ [x] }
    else none
  | .check j => s.receives[j]?.bind fun x =>
    match x.stage with
    | .checking =>
      let closed := (s.base.receivers x.receiver).closed
      some (s.setReceive j { x with
        method := if closed then .recvClosed else x.method
        stage := .looking })
    | _ => none
  | .look j waker expired => s.receives[j]?.bind fun x =>
    match x.stage with
    | .looking => some (s.look j x waker expired)
    | _ => none
  | .resume j => s.receives[j]?.bind fun x =>
    match x.stage with
    | .parked _ _ => some (s.setReceive j { x with stage := .looking })
    | _ => none
  | .abandon j => s.receives[j]?.bind fun x =>
    if x.method = .recvAsync ∧ x.ended = false then
      some (s.setReceive j { x with stage := .abandoned })
    else none
  | .visit k =>
    match s.walk with
    | .going start visited [] =>
      -- a topic that came later may be seen or not
      if k ∈ s.known ∧ k ∉ visited then
        some { s with
          walk := .going start (insert k visited) (s.base.subscribers k)
          found := s.found ∪ (s.base.subscribers k).toFinset }
      else none
    | _ => none
  | .disconnect =>
    match s.walk with
    | .going start visited (m :: targets) =>
      some { (if (s.base.receivers m).live then s.cutOff m else s) with
        walk := .going start visited targets }
    | _ => none
  | .finish =>
    match s.walk with
    | .going start visited [] =>
      if start ⊆ visited then some { s with walk := .returned } else none
    | _ => none

end Channel

end Fibre.Channels.Topic
