import Mathlib.Data.Multiset.AddSub

/-!
# The clonable oneshot channel

All channel state is one atomic word: a phase, a flag for the receiver's end, and the number of
senders. The value slot is a bare cell. Any number of sends, closes, drops and polls are
interleaved, each access to the word, to a handle's `closed` flag or to the slot being a step of
its own. The wakers carry no value and are left out.
-/

namespace Fibre.Channels.Oneshot

/-- The phase: `EMPTY -> WRITING -> SENT -> TAKEN`, with `EMPTY -> CLOSED` as the no-value terminal. -/
inductive Phase
  | empty
  | writing
  | sent
  | taken
  | closed
  deriving DecidableEq

namespace Phase

/-- `STATE_EMPTY` to `STATE_CLOSED` -/
def code : Phase → ℕ
  | empty => 0
  | writing => 1
  | sent => 2
  | taken => 3
  | closed => 4

def ofCode : ℕ → Phase
  | 0 => empty
  | 1 => writing
  | 2 => sent
  | 3 => taken
  | _ => closed

theorem code_lt (p : Phase) : p.code < 8 := by
  cases p <;> decide

@[simp] theorem ofCode_code (p : Phase) : ofCode p.code = p := by
  cases p <;> rfl

end Phase

/-- The state word: the phase, `RX_DROPPED`, and the sender count. -/
structure Word where
  phase : Phase
  rxDropped : Bool
  senderCount : ℕ
  deriving DecidableEq

namespace Word

/-- The word as it is stored: the phase in bits 0..3, `RX_DROPPED` in bit 3, the count above. -/
def bits (w : Word) : ℕ := w.senderCount * 16 + (if w.rxDropped then 8 else 0) + w.phase.code

/-- `with_phase` -/
def withPhase (w : Word) (phase : Phase) : Word := { w with phase := phase }

/-- `fetch_add` of a difference of two phases -/
def addPhase (w : Word) (n : ℕ) : Word := w.withPhase (.ofCode (w.phase.code + n))

/-- `fetch_sub` of a difference of two phases -/
def subPhase (w : Word) (n : ℕ) : Word := w.withPhase (.ofCode (w.phase.code - n))

variable (w : Word)

theorem bits_fields : w.bits % 8 = w.phase.code ∧
    w.bits / 8 % 2 = (if w.rxDropped then 1 else 0) ∧ w.bits / 16 = w.senderCount := by
  have hlt := w.phase.code_lt
  unfold bits
  cases w.rxDropped <;> simp <;> omega

theorem bits_withPhase (p : Phase) : (w.withPhase p).bits = w.bits / 8 * 8 + p.code := by
  have hlt := w.phase.code_lt
  unfold bits withPhase
  cases w.rxDropped <;> simp <;> omega

theorem bits_addPhase (h : w.phase = .writing) :
    (w.addPhase (Phase.sent.code - Phase.writing.code)).bits =
      w.bits + (Phase.sent.code - Phase.writing.code) := by
  simp [addPhase, withPhase, bits, h, Phase.code, Phase.ofCode]

end Word

/-- What a receive goes on with when it finds nothing: `try_recv` ends, `poll_recv` tries twice. -/
inductive Attempt
  | tryRecv
  | pollFirst
  | pollSecond
  deriving DecidableEq

/-- How a call ended. -/
inductive Result (T : Type*)
  | sent
  /-- `TrySendError::Closed` -/
  | closed (value : T)
  /-- `TrySendError::Sent` -/
  | alreadySent (value : T)
  | received (value : T)
  | empty
  | pending
  | disconnected
  | done
  deriving DecidableEq

/-- Where a call is: the access it makes next. -/
inductive Call (T : Type*)
  /-- `Sender::send`: the handle's `closed` flag -/
  | send (h : ℕ) (value : T)
  /-- `state.load()` -/
  | sendLoad (h : ℕ) (value : T)
  /-- the loop on `cur` up to its CAS -/
  | sendClaim (h : ℕ) (value : T) (cur : Word)
  /-- phase `WRITING` is ours: `state.load()` -/
  | sendRecheck (h : ℕ) (value : T)
  /-- the receiver is gone: `state.fetch_sub(STATE_WRITING - STATE_EMPTY)` -/
  | sendRollback (h : ℕ) (value : T)
  /-- `value_slot.write(value)` -/
  | sendWrite (h : ℕ) (value : T)
  /-- `state.fetch_add(STATE_SENT - STATE_WRITING)` -/
  | sendPublish (h : ℕ)
  /-- the `Drop` of a sender: `closed.swap(true)`; a `send` ends with it, and `result` -/
  | dropSender (h : ℕ) (result : Result T)
  /-- `Sender::close`: `closed.compare_exchange(false, true)` -/
  | closeSender (h : ℕ)
  /-- `decrement_senders`: `state.fetch_sub(COUNT_UNIT)` -/
  | decrement (result : Result T)
  /-- its loop on `cur` up to the CAS -/
  | decrementLoop (cur : Word) (result : Result T)
  /-- phase `TAKEN` is ours: `drop_value` -/
  | dropValue (result : Result T)
  /-- the `Drop` of the receiver -/
  | dropReceiver
  | closeReceiver
  /-- `mark_receiver_dropped`: `state.fetch_or(RX_DROPPED)` -/
  | markReceiver
  /-- its loop on `cur` up to the CAS -/
  | markLoop (cur : Word)
  /-- a receive: the handle's `closed` flag -/
  | recv (attempt : Attempt)
  /-- `state.load()` -/
  | recvLoad (attempt : Attempt)
  /-- the loop on `cur` up to its CAS -/
  | recvLoop (attempt : Attempt) (cur : Word)
  /-- phase `TAKEN` is ours: `take_value` -/
  | takeValue
  /-- `poll_recv`, having found nothing: `phase(state.load()) == STATE_TAKEN` -/
  | pollTaken (attempt : Attempt)
  | returned (result : Result T)
  deriving DecidableEq

/-- A sender handle: its `closed` flag, and whether it was dropped or consumed. -/
structure Handle where
  closed : Bool
  gone : Bool
  deriving DecidableEq

/-- The channel, its handles and the calls in progress, with what became of the values. -/
structure System (T : Type*) where
  word : Word
  /-- the value slot, `none` while uninitialized -/
  slot : Option T
  senders : List Handle
  receiver : Handle
  calls : List (Call T)
  /-- the shared core was dropped -/
  freed : Bool
  /-- the slot was read or dropped while uninitialized -/
  fault : Bool
  passed : Multiset T
  received : Multiset T
  returned : Multiset T
  dropped : Multiset T

/-- A step of the machine. -/
inductive Action (T : Type*)
  | clone (h : ℕ)
  | send (h : ℕ) (value : T)
  | closeSender (h : ℕ)
  | dropSender (h : ℕ)
  | tryRecv
  | poll
  | closeReceiver
  | dropReceiver
  /-- the next access of a call -/
  | advance (i : ℕ)
  /-- the last handle is gone: the `Drop` of the shared core -/
  | free
  deriving DecidableEq

namespace System

variable {T : Type*}

/-- A new channel: one sender and the receiver. -/
def init : System T where
  word := ⟨.empty, false, 1⟩
  slot := none
  senders := [⟨false, false⟩]
  receiver := ⟨false, false⟩
  calls := []
  freed := false
  fault := false
  passed := 0
  received := 0
  returned := 0
  dropped := 0

/-- The `closed` flag of a sender handle. -/
def closed (s : System T) (h : ℕ) : Bool := s.senders[h]?.any Handle.closed

/-- Sets the `closed` flag of a sender handle. -/
def setClosed (s : System T) (h : ℕ) : System T :=
  { s with senders := s.senders.modify h fun handle => { handle with closed := true } }

/-- A send failed, and hands its value back. -/
def giveBack (s : System T) (value : T) : System T :=
  { s with returned := value ::ₘ s.returned }

/-- `take_value`: the slot is read, and its value belongs to the receiver. -/
def takeValue (s : System T) : Call T × System T :=
  match s.slot with
  | some value => (.returned (.received value),
      { s with slot := none, received := value ::ₘ s.received })
  | none => (.returned .done, { s with fault := true })

/-- `drop_value` -/
def dropValue (s : System T) : System T :=
  match s.slot with
  | some value => { s with slot := none, dropped := value ::ₘ s.dropped }
  | none => { s with fault := true }

/-- A receive found nothing. -/
def recvEmpty : Attempt → Call T
  | .tryRecv => .returned .empty
  | attempt => .pollTaken attempt

/-- The next access of a call, and where it leads. A `compare_exchange_weak` that fails leads back
to the loop with the word it found. -/
def access (s : System T) : Call T → Call T × System T
  | .send h value =>
    if s.closed h then (.dropSender h (.closed value), s.giveBack value)
    else (.sendLoad h value, s)
  | .sendLoad h value => (.sendClaim h value s.word, s)
  | .sendClaim h value cur =>
    if cur.rxDropped then (.dropSender h (.closed value), s.giveBack value)
    else if cur.phase ≠ .empty then (.dropSender h (.alreadySent value), s.giveBack value)
    else if s.word = cur then
      (.sendRecheck h value, { s with word := cur.withPhase .writing })
    else (.sendClaim h value s.word, s)
  | .sendRecheck h value =>
    if s.word.rxDropped then (.sendRollback h value, s) else (.sendWrite h value, s)
  | .sendRollback h value => (.dropSender h (.closed value),
      { s.giveBack value with
        word := s.word.subPhase (Phase.writing.code - Phase.empty.code) })
  | .sendWrite h value => (.sendPublish h, { s with slot := some value })
  | .sendPublish h => (.dropSender h .sent,
      { s with word := s.word.addPhase (Phase.sent.code - Phase.writing.code) })
  | .dropSender h result =>
    if s.closed h then (.returned result, s) else (.decrement result, s.setClosed h)
  | .closeSender h =>
    if s.closed h then (.returned .done, s) else (.decrement .done, s.setClosed h)
  | .decrement result =>
    let word := { s.word with senderCount := s.word.senderCount - 1 }
    (if s.word.senderCount ≠ 1 then .returned result else .decrementLoop word result,
      { s with word := word })
  | .decrementLoop cur result =>
    if cur.phase = .empty then
      if s.word = cur then (.returned result, { s with word := cur.withPhase .closed })
      else (.decrementLoop s.word result, s)
    else if cur.phase = .sent then
      if ¬ cur.rxDropped then (.returned result, s)
      else if s.word = cur then
        (.dropValue result, { s with word := cur.withPhase .taken })
      else (.decrementLoop s.word result, s)
    else (.returned result, s)
  | .dropValue result => (.returned result, s.dropValue)
  | .dropReceiver | .closeReceiver =>
    if s.receiver.closed then (.returned .done, s)
    else (.markReceiver, { s with receiver.closed := true })
  | .markReceiver =>
    let word := { s.word with rxDropped := true }
    (.markLoop word, { s with word := word })
  | .markLoop cur =>
    if cur.phase = .empty then
      if s.word = cur then (.returned .done, { s with word := cur.withPhase .closed })
      else (.markLoop s.word, s)
    else if cur.phase = .sent then
      if s.word = cur then (.dropValue .done, { s with word := cur.withPhase .taken })
      else (.markLoop s.word, s)
    else (.returned .done, s)
  | .recv attempt =>
    if s.receiver.closed then (.returned .disconnected, s) else (.recvLoad attempt, s)
  | .recvLoad attempt => (.recvLoop attempt s.word, s)
  | .recvLoop attempt cur =>
    if cur.phase = .sent then
      if s.word = cur then (.takeValue, { s with word := cur.withPhase .taken })
      else (.recvLoop attempt s.word, s)
    else if cur.phase = .taken ∨ cur.phase = .writing then (recvEmpty attempt, s)
    else if cur.phase = .closed then (.returned .disconnected, s)
    else if 0 < cur.senderCount then (recvEmpty attempt, s)
    else if s.word = cur then
      (.returned .disconnected, { s with word := cur.withPhase .closed })
    else (.recvLoop attempt s.word, s)
  | .takeValue => s.takeValue
  | .pollTaken attempt =>
    if s.word.phase = .taken then (.returned .disconnected, s)
    else if attempt = .pollFirst then (.recvLoad .pollSecond, s)
    else (.returned .pending, s)
  | .returned result => (.returned result, s)

def start (s : System T) (call : Call T) : System T := { s with calls := s.calls ++ [call] }

/-- The sender handle can still be used. -/
def hasSender (s : System T) (h : ℕ) : Bool := s.senders[h]?.any fun handle => !handle.gone

/-- The handle is dropped, or consumed by a `send`. -/
def consume (s : System T) (h : ℕ) : System T :=
  { s with senders := s.senders.modify h fun handle => { handle with gone := true } }

def unused (s : System T) : Bool :=
  s.receiver.gone && s.senders.all Handle.gone && s.calls.all (· matches .returned _)

/-- The system after an action; `none` when it is not possible. -/
def step (s : System T) : Action T → Option (System T)
  | .clone h => if s.hasSender h then some { s with
      word.senderCount := s.word.senderCount + 1
      senders := s.senders ++ [⟨false, false⟩] } else none
  | .send h value => if s.hasSender h then
      some { (s.consume h).start (.send h value) with passed := value ::ₘ s.passed } else none
  | .closeSender h => if s.hasSender h then some (s.start (.closeSender h)) else none
  | .dropSender h => if s.hasSender h then some ((s.consume h).start (.dropSender h .done)) else none
  | .tryRecv => if s.receiver.gone then none else some (s.start (.recv .tryRecv))
  | .poll => if s.receiver.gone then none else some (s.start (.recv .pollFirst))
  | .closeReceiver => if s.receiver.gone then none else some (s.start .closeReceiver)
  | .dropReceiver => if s.receiver.gone then none
      else some ({ s with receiver.gone := true }.start .dropReceiver)
  | .advance i => s.calls[i]?.map fun call =>
      let r := s.access call
      { r.2 with calls := s.calls.set i r.1 }
  | .free => if s.unused ∧ ¬ s.freed then
      some { (if s.word.phase = .sent then s.dropValue else s) with freed := true } else none

end System

end Fibre.Channels.Oneshot
