import Fibre.Channels.Mpmc.Conservation

/-!
# Batch sends

A batch send puts as many items as there is room for, waits, and goes on, until all are sent or the
channel closes. There are eight: blocking, asynchronous, and two that do not wait, each of them by
value or in place. By value, the items that were not sent come back in the error; in place, they
stay in the caller's vector.

The other users of the channel are those of `System`. A batch send is numbered like its tasks, and
shares their flags.
-/

namespace Fibre.Channels.Mpmc

open Machine List

variable {T : Type*} {capacity : UInt64}

inductive BatchSendErrorReason
  | full
  | closed
  deriving DecidableEq

/-- What the locked section of a batch send did. -/
structure BatchRun (T : Type*) where
  sent : ℕ
  /-- what is left in the iterator -/
  left : List T
  reason : Option BatchSendErrorReason
  /-- the iterator ended before the limit, or a push failed -/
  panicked : Bool
  core : Internal T

namespace Internal

/-- The loop of `try_send_batch_core`: at most `limit` items are taken from the iterator. -/
def sendBatchWhile (capacity : UInt64) : ℕ → List T → Internal T → BatchRun T
  | 0, items, c => ⟨0, items, none, false, c⟩
  | limit + 1, items, c =>
    let r := if c.isFull capacity then (false, c) else c.popReceiver
    -- a waiting receiver, or room in the buffer
    if r.1 ∨ (capacity ≠ 0 ∧ r.2.queueLen < capacity) then
      match items with
      | [] => ⟨0, [], none, true, r.2⟩
      | item :: rest =>
        match r.2.pushBack item with
        | some c =>
          let t := sendBatchWhile capacity limit rest c
          { t with sent := t.sent + 1 }
        | none => ⟨0, rest, none, true, r.2⟩
    else ⟨0, items, some .full, false, r.2⟩

/-- `try_send_batch_core`. -/
def trySendBatchLimit (capacity : UInt64) (c : Internal T) (items : List T) (limit : ℕ) :
    BatchRun T :=
  if limit = 0 then ⟨0, items, none, false, c⟩
  else if c.receiverCount = 0 then ⟨0, items, some .closed, false, c⟩
  else sendBatchWhile capacity limit items c

end Internal

/-- How a batch send ends. In place, `left` is the caller's vector. -/
inductive Outcome (T : Type*)
  /-- `Ok(n)` -/
  | ok (n : ℕ)
  /-- `SendBatchError`, `TrySendBatchError` -/
  | error (sent : ℕ) (unsent : List T)
  | okInPlace (n : ℕ) (left : List T)
  /-- `SendError::Closed` -/
  | closedInPlace (left : List T)
  /-- a future that owns its items is dropped -/
  | dropped
  | droppedInPlace (left : List T)
  | panicked

/-- Where a batch send is. -/
inductive BatchPoint (T : Type*)
  /-- a future that has not been polled -/
  | created
  /-- about to send the item pulled from the iterator, if there is one -/
  | attempt
  /-- about to send from the iterator -/
  | drain
  /-- the channel was full -/
  | register
  | parked
  /-- woken, the flag read -/
  | woken (st : WaiterState)
  /-- dropped while parked -/
  | dropping
  | ended (outcome : Outcome T)

/-- A waiting batch send: `send_batch` and `send_batch_mut`, blocking or asynchronous. The memory
of one that did not wait is its outcome. -/
structure Batch (T : Type*) where
  kind : SendKind
  inPlace : Bool
  /-- the items it was called with -/
  items : List T
  /-- those left in the iterator, or in the vector it drains -/
  rest : List T
  total : ℕ
  sent : ℕ
  pending : Option T
  point : BatchPoint T

/-- The channel and its batch sends, and, in order, the items that entered it: with the batch send
that put them there, or without one. -/
structure Batches (T : Type*) where
  system : System T
  sends : ℕ → Option (Batch T)
  entered : List (Option ℕ × T)

namespace System

def sendBatch (capacity : UInt64) (s : System T) (items : List T) (limit : ℕ) :
    BatchRun T × System T :=
  let r := s.core.trySendBatchLimit capacity items limit
  (r, { s with
    core := r.core
    accepted := s.accepted ++ items.take r.sent
    failed := s.failed || r.panicked })

end System

namespace Batch

def finish (b : Batch T) (outcome : Outcome T) : Batch T := { b with point := .ended outcome }

/-- The end of a batch send whose channel is closed, with the item pulled from the iterator in front
of those left in it. -/
def closed (b : Batch T) : Batch T :=
  let left := b.pending.toList ++ b.rest
  b.finish (if b.inPlace then .closedInPlace left else .error b.sent left)

/-- The end of a batch send that found the channel closed when it was about to park. A future by
value gives back what is left in its iterator only. -/
def closedBeforePark (b : Batch T) : Batch T :=
  match b.kind, b.inPlace with
  | .async, false => b.finish (.error b.sent b.rest)
  | _, _ => b.closed

/-- The end of a batch send that is through. The blocking one in place drops its drain, and with it
what might be left; the future in place counts for itself. -/
def complete (b : Batch T) : Batch T :=
  b.finish <|
    match b.kind, b.inPlace with
    | _, false => .ok b.total
    | .sync, true => .okInPlace b.total []
    | .async, true => .okInPlace b.sent b.rest

/-- The end of a future that is dropped. In place, the item pulled from the vector goes back to its
front. -/
def abandoned (b : Batch T) : Batch T :=
  b.finish (if b.inPlace then .droppedInPlace (b.pending.toList ++ b.rest) else .dropped)

/-- Nothing is left to send. -/
def isThrough (b : Batch T) : Bool :=
  match b.kind, b.inPlace with
  | .async, true => b.rest.isEmpty
  | _, _ => b.sent = b.total

/-- How many items the next section may take from the iterator. -/
def limit (b : Batch T) : ℕ :=
  match b.kind, b.inPlace with
  | .async, true => b.rest.length
  | _, _ => b.total - b.sent

/-- The item pulled from the iterator is sent by itself. -/
def sendPending (capacity : UInt64) (s : System T) (b : Batch T) (item : T) :
    Batch T × System T :=
  let r := s.sendBatch capacity [item] 1
  let b := { b with sent := b.sent + r.1.sent, pending := none }
  (if r.1.panicked then b.finish .panicked
    else if r.1.sent = 0 then
      let b := { b with pending := r.1.left.head? }
      if r.1.reason = some .closed then b.closed
      else { b with point := if b.pending.isNone then .drain else .register }
    else { b with point := .drain }, r.2)

/-- The items in the iterator are sent. -/
def sendRest (capacity : UInt64) (s : System T) (b : Batch T) : Batch T × System T :=
  -- only the futures look before they take the lock
  if b.kind = .async ∧ b.isThrough then (b.complete, s)
  else
    let r := s.sendBatch capacity b.rest b.limit
    let b := { b with sent := b.sent + r.1.sent, rest := r.1.left }
    (if r.1.panicked then b.finish .panicked
      else if b.isThrough then b.complete
      else if r.1.reason = some .closed then b.closed
      else { b with point := .register }, r.2)

/-- The next locked section of the batch send `i`. -/
def advance (capacity : UInt64) (s : System T) (i : ℕ) (b : Batch T) :
    Option (Batch T × System T) :=
  match b.point with
  | .created => some ({ b with point := .attempt }, s)
  | .attempt =>
    match b.pending with
    | some item => some (b.sendPending capacity s item)
    | none => some (b.sendRest capacity s)
  | .drain => some (b.sendRest capacity s)
  | .register =>
    if System.sendRecheck capacity s.core then some ({ b with point := .attempt }, s)
    else if s.core.receiverCount = 0 then some (b.closedBeforePark, s)
    else some ({ b with point := .parked },
      { s with core := System.parkSender s.core i b.kind })
  | .woken st =>
    let unlinked := { s with core := System.unlinkSender s.core i b.kind }
    if st.closed then some (b.closed, unlinked)
    else if st.code &&& 4 ≠ 0 then
      -- a receiver took the item from the waiter
      let b := { b with sent := b.sent + 1 }
      if (b.kind = .sync ∨ !b.inPlace) ∧ b.sent = b.total then some (b.complete, s)
      else some ({ b with point := .attempt }, s)
    else some ({ b with point := .attempt }, unlinked)
  | .dropping => some (b.abandoned, { s with core := System.unlinkSender s.core i b.kind })
  | .parked | .ended _ => none

/-- A parked batch send looks at its flag. -/
def resume (s : System T) (i : ℕ) (b : Batch T) : Option (Batch T × System T) :=
  let st := s.core.flags i
  match b.point with
  | .parked =>
    if st.finished then some ({ b with point := .woken st }, s)
    else if b.kind = .async then some (b, s)
    else none
  | _ => none

/-- A future is dropped: it has not been polled, or it is parked. -/
def drop (s : System T) (i : ℕ) (b : Batch T) : Option (Batch T × System T) :=
  match b.kind, b.point with
  | .async, .created => some (b.abandoned, s)
  | .async, .parked =>
    some ({ b with point := .dropping }, { s with core := System.cancelFlag s.core i })
  | _, _ => none

/-- A batch send starts, on a handle that may be closed. Only the blocking ones look at the
handle. -/
def start (kind : SendKind) (inPlace handleClosed : Bool) (items : List T) : Batch T :=
  let b : Batch T := ⟨kind, inPlace, items, items, items.length, 0, none, .created⟩
  match kind with
  | .async => b
  | .sync =>
    if inPlace then
      if items = [] then b.finish (.okInPlace 0 [])
      else if handleClosed then b.finish (.closedInPlace items)
      else { b with point := .attempt }
    else
      if handleClosed then b.finish (.error 0 items)
      else if items = [] then b.finish (.ok 0)
      else { b with point := .attempt }

/-- `try_send_batch`. -/
def trySendBatch (capacity : UInt64) (s : System T) (handleClosed : Bool) (items : List T) :
    Outcome T × System T :=
  if items = [] then (.ok 0, s)
  else if handleClosed then (.error 0 items, s)
  else
    let r := s.sendBatch capacity items items.length
    (if r.1.panicked then .panicked
      else match r.1.reason with
        | none => .ok items.length
        | some _ => .error r.1.sent r.1.left, r.2)

/-- `try_send_batch_mut`: it calls the other, and reports `Closed` only when nothing was sent. -/
def trySendBatchMut (capacity : UInt64) (s : System T) (handleClosed : Bool) (items : List T) :
    Outcome T × System T :=
  if items = [] then (.okInPlace 0 [], s)
  else if handleClosed then (.closedInPlace items, s)
  else
    let r := s.sendBatch capacity items items.length
    (if r.1.panicked then .panicked
      else match r.1.reason with
        | none => .okInPlace items.length []
        | some reason =>
          if r.1.sent = 0 ∧ reason = .closed then .closedInPlace r.1.left
          else .okInPlace r.1.sent r.1.left, r.2)

end Batch

def Action.task : Action T → Option ℕ
  | .startSend i _ _ _ | .startRecv i _ _ | .advance i | .resume i | .timeout i | .drop i => some i
  | _ => none

/-- A step of the machine. -/
inductive BatchAction (T : Type*)
  /-- another user of the channel -/
  | other (a : Action T)
  /-- a closed handle is cloned -/
  | reviveSender
  | reviveReceiver
  | trySendBatch (i : ℕ) (inPlace handleClosed : Bool) (items : List T)
  | start (i : ℕ) (kind : SendKind) (inPlace handleClosed : Bool) (items : List T)
  | advance (i : ℕ)
  | resume (i : ℕ)
  | drop (i : ℕ)

namespace Batches

/-- A new channel. -/
def init (capacity : UInt64) : Batches T := ⟨.init capacity, fun _ => none, []⟩

/-- The channel goes on as `s`; what it accepted is put down to `who`. -/
def goOn (w : Batches T) (who : Option ℕ) (s : System T) : Batches T :=
  { w with
    system := s
    entered := w.entered ++ (s.accepted.drop w.system.accepted.length).map fun item => (who, item) }

/-- The batch send `i` and the channel go on. -/
def put (w : Batches T) (i : ℕ) (r : Batch T × System T) : Batches T :=
  { w.goOn (some i) r.2 with sends := Function.update w.sends i (some r.1) }

/-- The items that a batch send put into the channel. -/
def placed (w : Batches T) (i : ℕ) : List T :=
  (w.entered.filter fun e => e.1 = some i).map Prod.snd

/-- The number belongs to no operation. -/
def Free (w : Batches T) (i : ℕ) : Bool :=
  match w.system.tasks i, w.sends i with
  | .fresh, none => true
  | _, _ => false

def step (capacity : UInt64) (w : Batches T) : BatchAction T → Option (Batches T)
  | .other a =>
    if (a.task.bind w.sends).isSome then none
    else (w.system.step capacity a).map fun s => w.goOn none s
  | .reviveSender => some (w.goOn none { w.system with
      core := { w.system.core with senderCount := w.system.core.senderCount + 1 } })
  | .reviveReceiver => some (w.goOn none { w.system with
      core := { w.system.core with receiverCount := w.system.core.receiverCount + 1 } })
  | .trySendBatch i inPlace handleClosed items =>
    if !w.Free i then none
    else
      let b : Batch T := ⟨.sync, inPlace, items, [], items.length, 0, none, .created⟩
      let r := if inPlace then Batch.trySendBatchMut capacity w.system handleClosed items
        else Batch.trySendBatch capacity w.system handleClosed items
      some (w.put i (b.finish r.1, r.2))
  | .start i kind inPlace handleClosed items =>
    if !w.Free i then none
    else some (w.put i (Batch.start kind inPlace handleClosed items, w.system))
  | .advance i => (w.sends i).bind fun b => (b.advance capacity w.system i).map (w.put i)
  | .resume i => (w.sends i).bind fun b => (b.resume w.system i).map (w.put i)
  | .drop i => (w.sends i).bind fun b => (b.drop w.system i).map (w.put i)

end Batches

/-! ### The locked section -/

namespace Internal

variable {c : Internal T} {l : List T}

theorem sendBatchWhile_left (limit : ℕ) (items : List T)
    (hp : (sendBatchWhile capacity limit items c).panicked = false) :
    (sendBatchWhile capacity limit items c).sent ≤ items.length ∧
      (sendBatchWhile capacity limit items c).left =
        items.drop (sendBatchWhile capacity limit items c).sent ∧
      ((sendBatchWhile capacity limit items c).reason = none →
        (sendBatchWhile capacity limit items c).sent = limit) := by
  induction limit generalizing items c with
  | zero => simp [sendBatchWhile]
  | succ limit ih =>
    generalize hr : sendBatchWhile capacity (limit + 1) items c = run at hp
    unfold sendBatchWhile at hr
    dsimp only at hr
    generalize (if c.isFull capacity then (false, c) else c.popReceiver) = popped at hr
    split_ifs at hr with hcond
    · cases items with
      | nil =>
        subst hr
        cases hp
      | cons item rest =>
        dsimp only at hr
        split at hr
        · subst hr
          obtain ⟨hle, hleft, hreason⟩ := ih rest hp
          refine ⟨?_, hleft, fun hnone => ?_⟩
          · simpa using hle
          · simpa using hreason hnone
        · subst hr
          cases hp
    · subst hr
      simp

theorem trySendBatchLimit_left {items : List T} {limit : ℕ}
    (hp : (c.trySendBatchLimit capacity items limit).panicked = false) :
    (c.trySendBatchLimit capacity items limit).sent ≤ items.length ∧
      (c.trySendBatchLimit capacity items limit).left =
        items.drop (c.trySendBatchLimit capacity items limit).sent ∧
      ((c.trySendBatchLimit capacity items limit).reason = none →
        (c.trySendBatchLimit capacity items limit).sent = limit) := by
  unfold trySendBatchLimit at hp ⊢
  split_ifs at hp ⊢ with hzero hopen
  · simp [hzero]
  · simp
  · exact sendBatchWhile_left limit items hp

theorem Stores.sendBatchWhile (h : c.Stores capacity l) (hpos : capacity ≠ 0) {limit : ℕ}
    {items : List T} (hlimit : limit ≤ items.length) :
    (sendBatchWhile capacity limit items c).panicked = false ∧
      (Internal.sendBatchWhile capacity limit items c).core.Stores capacity
        (l ++ items.take (Internal.sendBatchWhile capacity limit items c).sent) := by
  induction limit generalizing items c l with
  | zero => simpa [Internal.sendBatchWhile] using h
  | succ limit ih =>
    cases items with
    | nil => simp at hlimit
    | cons item rest =>
      obtain ⟨hq, hn⟩ := popReceiver_queue c
      by_cases hlt : c.queueLen < capacity
      · obtain ⟨c', hpush, h', -⟩ := (h.congr hq hn).pushBack (h.queueLen_lt.mp hlt) item
        obtain ⟨hp, hstores⟩ := ih h' (by simpa using hlimit)
        have hfull : ¬ c.isFull capacity := by
          rw [isFull_iff hpos]
          rintro rfl
          simp at hlt
        have hroom : c.popReceiver.2.queueLen < capacity := by rwa [hn]
        simp only [Internal.sendBatchWhile, if_neg hfull, hroom, hpos, ne_eq, not_false_eq_true,
          and_self, or_true, if_true, hpush]
        refine ⟨hp, ?_⟩
        simpa using hstores
      · have hfull : c.isFull capacity := (isFull_iff hpos).mpr (h.queueLen_eq hlt)
        simp only [Internal.sendBatchWhile, if_pos hfull, hlt, and_false, or_false,
          Bool.false_eq_true, if_false, take_zero, append_nil]
        exact ⟨trivial, h⟩

theorem Stores.trySendBatchLimit (h : c.Stores capacity l) (hpos : capacity ≠ 0) {limit : ℕ}
    {items : List T} (hlimit : limit ≤ items.length) :
    (c.trySendBatchLimit capacity items limit).panicked = false ∧
      (c.trySendBatchLimit capacity items limit).core.Stores capacity
        (l ++ items.take (c.trySendBatchLimit capacity items limit).sent) := by
  unfold Internal.trySendBatchLimit
  split_ifs
  · simpa using h
  · simpa using h
  · exact h.sendBatchWhile hpos hlimit

end Internal

namespace System

variable {s : System T}

theorem Holds.sendBatch (h : s.Holds capacity) (hpos : capacity ≠ 0) {items : List T} {limit : ℕ}
    (hlimit : limit ≤ items.length) : (s.sendBatch capacity items limit).2.Holds capacity := by
  obtain ⟨l, hstores, hitems, hfailed⟩ := h
  obtain ⟨hp, hstores'⟩ := hstores.trySendBatchLimit hpos hlimit
  refine ⟨_, hstores', ?_, ?_⟩
  · rw [System.sendBatch, hitems, append_assoc]
  · rw [System.sendBatch, hfailed, hp]
    rfl

theorem accepted_of_step {a : Action T} {s' : System T} (hs : s.step capacity a = some s') :
    ∃ g, s'.accepted = s.accepted ++ g := by
  cases step_buffer hs with
  | same h => exact ⟨[], by simp [h.accepted]⟩
  | recv max h => exact ⟨[], by simp [h.accepted, System.recv]⟩
  | send batch items h =>
    rw [h.accepted]
    unfold System.send
    split
    · dsimp only
      split
      · exact ⟨_, rfl⟩
      · exact ⟨[], by simp⟩
      · exact ⟨[], by simp⟩
      · exact ⟨[], by simp⟩
    · exact ⟨_, rfl⟩

theorem failed_of_step {a : Action T} {s' : System T} (hs : s.step capacity a = some s')
    (h : s.failed = true) : s'.failed = true := by
  cases step_buffer hs with
  | same hsame => rw [hsame.failed, h]
  | recv max hsame => exact hsame.failed.trans h
  | send batch items hsame =>
    rw [hsame.failed]
    unfold System.send
    split
    · dsimp only
      split <;> simp [h]
    · simp [h]

end System

/-! ### What a batch send accounts for -/

/-- The first `sent` of the items were placed, and the others are left. -/
structure Splits (items placed : List T) (sent : ℕ) (left : List T) : Prop where
  le : sent ≤ items.length
  placed : placed = items.take sent
  left : left = items.drop sent

/-- What the end of a batch send says of the items it was called with. -/
def Outcome.Accounts (items placed : List T) : Outcome T → Prop
  | ok n => n = items.length ∧ placed = items
  | error sent unsent => Splits items placed sent unsent
  | okInPlace n left => Splits items placed n left
  | closedInPlace left | droppedInPlace left => ∃ sent, Splits items placed sent left
  | dropped => ∃ sent, Splits items placed sent (items.drop sent)
  | panicked => True

namespace Batch

/-- What a batch send says of its items wherever it is. -/
def Accounts (b : Batch T) (placed : List T) : Prop :=
  match b.point with
  | .ended outcome => outcome.Accounts b.items placed
  | _ => Splits b.items placed b.sent b.rest ∧ b.total = b.items.length ∧ b.pending = none

/-- The batch send goes on and accounts for what the channel accepted. -/
structure Goes (capacity : UInt64) (s : System T) (placed : List T) (b : Batch T)
    (r : Batch T × System T) : Prop where
  failed : s.failed = true → r.2.failed = true
  items : r.1.items = b.items
  accepted : ∃ g, r.2.accepted = s.accepted ++ g ∧ r.1.Accounts (placed ++ g)
  holds : capacity ≠ 0 → s.Holds capacity → r.2.Holds capacity
  panics : r.1.point = .ended .panicked → r.2.failed = true

end Batch

theorem Splits.nil (items : List T) : Splits items [] 0 items := ⟨Nat.zero_le _, rfl, rfl⟩

theorem Splits.take {items placed left : List T} {sent : ℕ} (h : Splits items placed sent left)
    {k : ℕ} (hk : k ≤ left.length) :
    Splits items (placed ++ left.take k) (sent + k) (left.drop k) := by
  obtain ⟨hle, rfl, rfl⟩ := h
  refine ⟨?_, ?_, ?_⟩
  · rw [length_drop] at hk
    omega
  · rw [take_add]
  · rw [drop_drop]

theorem Splits.all {items placed left : List T} {sent : ℕ} (h : Splits items placed sent left)
    (hall : sent = items.length) : placed = items ∧ left = [] := by
  obtain ⟨hle, rfl, rfl⟩ := h
  subst hall
  exact ⟨take_length, drop_length⟩

namespace Batch

variable {s : System T} {b : Batch T} {placed : List T} {r : Batch T × System T} {i : ℕ}

theorem Goes.of_same {b' : Batch T} {s' : System T} (hitems : b'.items = b.items)
    (haccounts : b'.Accounts placed) (hsame : System.SameBuffer s s')
    (hpanics : b'.point ≠ .ended .panicked) : Goes capacity s placed b (b', s') where
  failed h := hsame.failed.trans h
  items := hitems
  accepted := ⟨[], by rw [hsame.accepted, append_nil], by rwa [append_nil]⟩
  holds _ h := h.congr hsame
  panics hp := absurd hp hpanics

theorem complete_point (b : Batch T) : b.complete.point ≠ .ended .panicked := by
  unfold complete finish
  dsimp only
  split <;> simp

theorem closed_point (b : Batch T) : b.closed.point ≠ .ended .panicked := by
  unfold closed finish
  dsimp only
  split_ifs <;> simp

theorem abandoned_point (b : Batch T) : b.abandoned.point ≠ .ended .panicked := by
  unfold abandoned finish
  dsimp only
  split_ifs <;> simp

theorem closedBeforePark_point (b : Batch T) : b.closedBeforePark.point ≠ .ended .panicked := by
  unfold closedBeforePark
  split
  · simp [finish]
  · exact b.closed_point

theorem closedBeforePark_items (b : Batch T) : b.closedBeforePark.items = b.items := by
  unfold closedBeforePark
  split <;> rfl

/-- A batch send that is under way. -/
structure Underway (b : Batch T) (placed : List T) : Prop where
  splits : Splits b.items placed b.sent b.rest
  total : b.total = b.items.length
  pending : b.pending = none

theorem Accounts.of_underway {b' : Batch T} (h : b'.Underway placed)
    (hpoint : ∀ outcome, b'.point ≠ .ended outcome) : b'.Accounts placed := by
  unfold Accounts
  split
  · exact absurd ‹_› (hpoint _)
  · exact ⟨h.splits, h.total, h.pending⟩

theorem Accounts.underway (h : b.Accounts placed) (hpoint : ∀ outcome, b.point ≠ .ended outcome) :
    b.Underway placed := by
  unfold Accounts at h
  split at h
  · exact absurd ‹_› (hpoint _)
  · exact ⟨h.1, h.2.1, h.2.2⟩

namespace Underway

theorem goTo (h : b.Underway placed) {p : BatchPoint T} (hp : ∀ outcome, p ≠ .ended outcome) :
    Accounts { b with point := p } placed :=
  .of_underway ⟨h.splits, h.total, h.pending⟩ hp

theorem closed (h : b.Underway placed) : b.closed.Accounts placed := by
  unfold Batch.closed finish Accounts
  simp only [h.pending, Option.toList_none, nil_append]
  split_ifs
  · exact ⟨_, h.splits⟩
  · exact h.splits

theorem abandoned (h : b.Underway placed) : b.abandoned.Accounts placed := by
  unfold Batch.abandoned finish Accounts
  simp only [h.pending, Option.toList_none, nil_append]
  split_ifs
  · exact ⟨_, h.splits⟩
  · exact ⟨_, h.splits.le, h.splits.placed, rfl⟩

theorem closedBeforePark (h : b.Underway placed) : b.closedBeforePark.Accounts placed := by
  unfold Batch.closedBeforePark
  split
  · exact h.splits
  · exact h.closed

theorem sent_eq (h : b.Underway placed) (hthrough : b.isThrough) : b.sent = b.items.length := by
  unfold isThrough at hthrough
  split at hthrough
  · have hnil : b.rest = [] := List.isEmpty_iff.mp hthrough
    have hlen := congrArg List.length h.splits.left
    have hle := h.splits.le
    rw [hnil, length_nil, length_drop] at hlen
    omega
  · rw [← h.total]
    exact of_decide_eq_true hthrough

theorem complete (h : b.Underway placed) (hsent : b.sent = b.items.length) :
    b.complete.Accounts placed := by
  obtain ⟨hplaced, hrest⟩ := h.splits.all hsent
  unfold Batch.complete finish Accounts
  dsimp only
  split
  · exact ⟨h.total, hplaced⟩
  · rw [h.total, ← hsent, ← hrest]
    exact h.splits
  · exact h.splits

theorem limit_eq (h : b.Underway placed) : b.limit = b.rest.length := by
  unfold limit
  split
  · rfl
  · rw [h.total, h.splits.left, length_drop]

theorem sendRest (h : b.Underway placed) : Goes capacity s placed b (b.sendRest capacity s) := by
  unfold Batch.sendRest
  split_ifs with hthrough
  · exact .of_same rfl (h.complete (h.sent_eq hthrough.2)) ⟨rfl, rfl, rfl, rfl, rfl⟩
      b.complete_point
  · -- what the section leaves is accounted for, unless it panics
    have hnext (hp : (s.sendBatch capacity b.rest b.limit).1.panicked = false) :
        Underway { b with
          sent := b.sent + (s.sendBatch capacity b.rest b.limit).1.sent
          rest := (s.sendBatch capacity b.rest b.limit).1.left }
        (placed ++ b.rest.take (s.sendBatch capacity b.rest b.limit).1.sent) := by
      obtain ⟨hle, hleft, -⟩ := Internal.trySendBatchLimit_left hp
      refine ⟨?_, h.total, h.pending⟩
      have hsplits := h.splits.take hle
      rwa [← hleft] at hsplits
    refine ⟨fun hf => by simp [System.sendBatch, hf], ?_, ⟨_, rfl, ?_⟩,
      fun hpos hs => hs.sendBatch hpos h.limit_eq.le, fun hpoint => ?_⟩
    · dsimp only
      split_ifs <;> rfl
    · dsimp only
      split_ifs with hp hthrough hreason
      · exact trivial
      · exact (hnext (by simpa using hp)).complete ((hnext (by simpa using hp)).sent_eq hthrough)
      · exact (hnext (by simpa using hp)).closed
      · exact (hnext (by simpa using hp)).goTo (by simp)
    · dsimp only at hpoint
      split_ifs at hpoint with hp hthrough hreason
      · have hp' : (s.core.trySendBatchLimit capacity b.rest b.limit).panicked = true := hp
        simp [System.sendBatch, hp']
      · exact absurd hpoint (complete_point _)
      · exact absurd hpoint (closed_point _)

end Underway

theorem advance_goes (h : b.Accounts placed) (hr : b.advance capacity s i = some r) :
    Goes capacity s placed b r := by
  have hunder (hpoint : ∀ outcome, b.point ≠ .ended outcome) := h.underway hpoint
  unfold advance at hr
  split at hr
  · next hp =>
    obtain rfl := Option.some.inj hr
    exact .of_same rfl ((hunder (by simp [hp])).goTo (by simp)) ⟨rfl, rfl, rfl, rfl, rfl⟩ (by simp)
  · next hp =>
    -- nothing was ever pulled from the iterator
    have hb := hunder (by simp [hp])
    simp only [hb.pending, Option.some.injEq] at hr
    subst hr
    exact hb.sendRest
  · next hp =>
    obtain rfl := Option.some.inj hr
    exact (hunder (by simp [hp])).sendRest
  · next hp =>
    have hb := hunder (by simp [hp])
    split_ifs at hr <;> obtain rfl := Option.some.inj hr
    · exact .of_same rfl (hb.goTo (by simp)) ⟨rfl, rfl, rfl, rfl, rfl⟩ (by simp)
    · exact .of_same b.closedBeforePark_items hb.closedBeforePark ⟨rfl, rfl, rfl, rfl, rfl⟩
        b.closedBeforePark_point
    · obtain ⟨hq, hn⟩ := System.parkSender_queue s.core i b.kind
      exact .of_same rfl (hb.goTo (by simp)) (.core hq hn) (by simp)
  · next st hp =>
    have hb := hunder (by simp [hp])
    obtain ⟨hq, hn⟩ := System.unlinkSender_queue s.core i b.kind
    have hhandoff : st.closed = false → st.code &&& 4 = 0 := by cases st <;> decide
    dsimp only at hr
    split_ifs at hr with hclosed hbit
    · obtain rfl := Option.some.inj hr
      exact .of_same rfl hb.closed (.core hq hn) (closed_point _)
    · exact absurd (hhandoff (by simpa using hclosed)) hbit
    · exact absurd (hhandoff (by simpa using hclosed)) hbit
    · obtain rfl := Option.some.inj hr
      exact .of_same rfl (hb.goTo (by simp)) (.core hq hn) (by simp)
  · next hp =>
    have hb := hunder (by simp [hp])
    obtain ⟨hq, hn⟩ := System.unlinkSender_queue s.core i b.kind
    obtain rfl := Option.some.inj hr
    exact .of_same rfl hb.abandoned (.core hq hn) b.abandoned_point
  · cases hr
  · cases hr

theorem resume_goes (h : b.Accounts placed) (hr : b.resume s i = some r) :
    Goes capacity s placed b r := by
  unfold resume at hr
  dsimp only at hr
  split at hr
  · next hp =>
    have hb := h.underway (by simp [hp])
    split_ifs at hr <;> obtain rfl := Option.some.inj hr
    · exact .of_same rfl (hb.goTo (by simp)) ⟨rfl, rfl, rfl, rfl, rfl⟩ (by simp)
    · exact .of_same rfl h ⟨rfl, rfl, rfl, rfl, rfl⟩ (by simp [hp])
  · cases hr

theorem drop_goes (h : b.Accounts placed) (hr : b.drop s i = some r) :
    Goes capacity s placed b r := by
  unfold drop at hr
  split at hr
  · next hp =>
    obtain rfl := Option.some.inj hr
    exact .of_same rfl (h.underway (by simp [hp])).abandoned ⟨rfl, rfl, rfl, rfl, rfl⟩
      b.abandoned_point
  · next hp =>
    obtain ⟨hq, hn⟩ := System.cancelFlag_queue s.core i
    obtain rfl := Option.some.inj hr
    exact .of_same rfl ((h.underway (by simp [hp])).goTo (by simp)) (.core hq hn) (by simp)
  · cases hr

theorem start_goes (kind : SendKind) (inPlace handleClosed : Bool) (items : List T) :
    (start kind inPlace handleClosed items).items = items ∧
      (start kind inPlace handleClosed items).Accounts [] ∧
      (start kind inPlace handleClosed items).point ≠ .ended .panicked := by
  have hnil : Splits items [] 0 items := .nil items
  unfold start
  cases kind
  · dsimp only
    split_ifs with _ hempty
    · subst hempty
      exact ⟨rfl, hnil, by simp [finish]⟩
    · exact ⟨rfl, ⟨0, hnil⟩, by simp [finish]⟩
    · exact ⟨rfl, ⟨hnil, rfl, rfl⟩, by simp⟩
    · exact ⟨rfl, hnil, by simp [finish]⟩
    · rename_i hempty
      subst hempty
      exact ⟨rfl, ⟨rfl, rfl⟩, by simp [finish]⟩
    · exact ⟨rfl, ⟨hnil, rfl, rfl⟩, by simp⟩
  · exact ⟨rfl, ⟨hnil, rfl, rfl⟩, by simp⟩

/-- What a batch send that does not wait does. -/
structure Tries (capacity : UInt64) (s : System T) (items : List T)
    (r : Outcome T × System T) : Prop where
  failed : s.failed = true → r.2.failed = true
  accepted : ∃ g, r.2.accepted = s.accepted ++ g ∧ r.1.Accounts items g
  holds : capacity ≠ 0 → s.Holds capacity → r.2.Holds capacity
  panics : r.1 = .panicked → r.2.failed = true

theorem Tries.of_nothing {outcome : Outcome T} {items : List T} (h : outcome.Accounts items [])
    (hp : outcome ≠ .panicked) : Tries capacity s items (outcome, s) where
  failed h := h
  accepted := ⟨[], by rw [append_nil], h⟩
  holds _ hs := hs
  panics heq := absurd heq hp

theorem Tries.of_section {items : List T} (report : BatchRun T → Outcome T)
    (hreport : ∀ run : BatchRun T, Splits items (items.take run.sent) run.sent run.left →
      (run.reason = none → run.sent = items.length) →
        (report run).Accounts items (items.take run.sent) ∧ report run ≠ .panicked) :
    Tries capacity s items ((if (s.sendBatch capacity items items.length).1.panicked then .panicked
      else report (s.sendBatch capacity items items.length).1),
      (s.sendBatch capacity items items.length).2) := by
  by_cases hp : (s.sendBatch capacity items items.length).1.panicked
  · rw [if_pos hp]
    refine ⟨fun hf => by simp [System.sendBatch, hf], ⟨_, rfl, trivial⟩,
      fun hpos hs => hs.sendBatch hpos le_rfl, fun _ => ?_⟩
    have hp' : (s.core.trySendBatchLimit capacity items items.length).panicked = true := hp
    simp [System.sendBatch, hp']
  · rw [if_neg hp]
    have hp' : (s.core.trySendBatchLimit capacity items items.length).panicked = false :=
      Bool.eq_false_iff.mpr hp
    obtain ⟨hle, hleft, hreason⟩ := Internal.trySendBatchLimit_left hp'
    obtain ⟨haccounts, hne⟩ := hreport (s.sendBatch capacity items items.length).1
      ⟨hle, rfl, hleft⟩ hreason
    exact ⟨fun hf => by simp [System.sendBatch, hf], ⟨_, rfl, haccounts⟩,
      fun hpos hs => hs.sendBatch hpos le_rfl, fun heq => absurd heq hne⟩

theorem trySendBatch_tries (handleClosed : Bool) (items : List T) :
    Tries capacity s items (trySendBatch capacity s handleClosed items) := by
  have hnil : Splits items [] 0 items := .nil items
  unfold trySendBatch
  split_ifs with hempty
  · subst hempty
    exact .of_nothing ⟨rfl, rfl⟩ (by simp)
  · exact .of_nothing hnil (by simp)
  · refine .of_section (fun run => match run.reason with
      | none => .ok items.length
      | some _ => .error run.sent run.left) fun run hsplits hall => ?_
    cases hreason : run.reason with
    | none => exact ⟨⟨rfl, by rw [hall hreason, take_length]⟩, by simp⟩
    | some reason => exact ⟨hsplits, by simp⟩

theorem trySendBatchMut_tries (handleClosed : Bool) (items : List T) :
    Tries capacity s items (trySendBatchMut capacity s handleClosed items) := by
  have hnil : Splits items [] 0 items := .nil items
  unfold trySendBatchMut
  split_ifs with hempty
  · subst hempty
    exact .of_nothing hnil (by simp)
  · exact .of_nothing ⟨0, hnil⟩ (by simp)
  · refine .of_section (fun run => match run.reason with
      | none => .okInPlace items.length []
      | some reason =>
        if run.sent = 0 ∧ reason = .closed then .closedInPlace run.left
        else .okInPlace run.sent run.left) fun run hsplits hall => ?_
    cases hreason : run.reason with
    | none =>
      rw [hall hreason] at hsplits ⊢
      obtain ⟨-, hleft⟩ := hsplits.all rfl
      exact ⟨hleft ▸ hsplits, by simp⟩
    | some reason =>
      dsimp only
      split_ifs
      · exact ⟨⟨_, hsplits⟩, by simp⟩
      · exact ⟨hsplits, by simp⟩

end Batch

/-! ### Every run -/

namespace Batches

variable {w w' : Batches T} {i j : ℕ}

/-- What holds in every state: the batch sends account for their items, what entered the channel is
what it accepted, and a panic is one of the channel's. -/
structure Inv (capacity : UInt64) (w : Batches T) : Prop where
  accounts : ∀ i b, w.sends i = some b → b.Accounts (w.placed i)
  unplaced : ∀ i, w.sends i = none → w.placed i = []
  entered : w.entered.map Prod.snd = w.system.accepted
  panics : ∀ i b, w.sends i = some b → b.point = .ended .panicked → w.system.failed = true
  holds : capacity ≠ 0 → capacity.toNat ≤ 2 ^ 63 → w.system.Holds capacity

theorem placed_goOn (w : Batches T) (who : Option ℕ) {s : System T} {g : List T}
    (hg : s.accepted = w.system.accepted ++ g) (i : ℕ) :
    (w.goOn who s).placed i = w.placed i ++ if who = some i then g else [] := by
  have hdrop : s.accepted.drop w.system.accepted.length = g := by rw [hg, drop_left]
  simp only [placed, goOn, hdrop, filter_append, map_append]
  congr 1
  split_ifs with hwho
  · have hall : (g.map fun item => (who, item)).filter (fun e => e.1 = some i) =
        g.map fun item => (who, item) := by
      apply filter_eq_self.mpr
      simp [hwho]
    rw [hall, map_map]
    exact map_id g
  · simp [hwho]

theorem entered_goOn (w : Batches T) (who : Option ℕ) {s : System T} {g : List T}
    (hg : s.accepted = w.system.accepted ++ g) (h : w.entered.map Prod.snd = w.system.accepted) :
    (w.goOn who s).entered.map Prod.snd = s.accepted := by
  simp [goOn, h, hg, Function.comp_def]

namespace Inv

theorem init : Inv capacity (init capacity : Batches T) where
  accounts i b hb := by cases hb
  unplaced _ _ := rfl
  entered := rfl
  panics i b hb := by cases hb
  holds _ hle := System.holds_init hle

theorem other (h : Inv capacity w) {s : System T} (hg : ∃ g, s.accepted = w.system.accepted ++ g)
    (hholds : capacity ≠ 0 → w.system.Holds capacity → s.Holds capacity)
    (hfailed : w.system.failed = true → s.failed = true) : Inv capacity (w.goOn none s) := by
  obtain ⟨g, hg⟩ := hg
  refine ⟨fun i b hb => ?_, fun i hi => ?_, w.entered_goOn none hg h.entered, fun i b hb hp => ?_,
    fun hpos hle => hholds hpos (h.holds hpos hle)⟩
  · rw [w.placed_goOn none hg, if_neg (by simp), append_nil]
    exact h.accounts i b hb
  · rw [w.placed_goOn none hg, if_neg (by simp), append_nil]
    exact h.unplaced i hi
  · exact hfailed (h.panics i b hb hp)

theorem put (h : Inv capacity w) {b : Batch T} {s : System T}
    (haccepted : ∃ g, s.accepted = w.system.accepted ++ g ∧ b.Accounts (w.placed i ++ g))
    (hholds : capacity ≠ 0 → w.system.Holds capacity → s.Holds capacity)
    (hpanics : b.point = .ended .panicked → s.failed = true)
    (hfailed : w.system.failed = true → s.failed = true) : Inv capacity (w.put i (b, s)) := by
  obtain ⟨g, hg, haccounts⟩ := haccepted
  have hplaced (j : ℕ) : (w.put i (b, s)).placed j = w.placed j ++ if i = j then g else [] := by
    have hgo := w.placed_goOn (some i) hg j
    simp only [Option.some.injEq] at hgo
    exact hgo
  refine ⟨fun j c hc => ?_, fun j hj => ?_, w.entered_goOn (some i) hg h.entered,
    fun j c hc hp => ?_, fun hpos hle => hholds hpos (h.holds hpos hle)⟩ <;> by_cases hij : j = i
  · subst hij
    obtain rfl : b = c := by simpa [Batches.put] using hc
    rw [hplaced, if_pos rfl]
    exact haccounts
  · rw [hplaced, if_neg (Ne.symm hij), append_nil]
    exact h.accounts j c (by simpa [Batches.put, goOn, hij] using hc)
  · simp [Batches.put, hij] at hj
  · rw [hplaced, if_neg (Ne.symm hij), append_nil]
    exact h.unplaced j (by simpa [Batches.put, goOn, hij] using hj)
  · subst hij
    obtain rfl : b = c := by simpa [Batches.put] using hc
    exact hpanics hp
  · exact hfailed (h.panics j c (by simpa [Batches.put, goOn, hij] using hc) hp)

theorem placed_of_free (h : Inv capacity w) (hfree : w.Free i = true) : w.placed i = [] := by
  refine h.unplaced i ?_
  unfold Free at hfree
  split at hfree
  · assumption
  · cases hfree

theorem goes (h : Inv capacity w) {b : Batch T} {r : Batch T × System T}
    (hr : b.Goes capacity w.system (w.placed i) r) : Inv capacity (w.put i r) :=
  h.put hr.accepted hr.holds hr.panics hr.failed

theorem step (h : Inv capacity w) {a : BatchAction T} (hs : w.step capacity a = some w') :
    Inv capacity w' := by
  cases a with
  | other a =>
    simp only [Batches.step] at hs
    split_ifs at hs
    obtain ⟨s, hstep, rfl⟩ := Option.map_eq_some_iff.mp hs
    exact h.other (System.accepted_of_step hstep) (fun hpos hs => hs.step hpos hstep)
      (System.failed_of_step hstep)
  | reviveSender =>
    obtain rfl := Option.some.inj hs
    exact h.other ⟨[], by simp⟩ (fun _ hs => hs.congr (.core rfl rfl)) id
  | reviveReceiver =>
    obtain rfl := Option.some.inj hs
    exact h.other ⟨[], by simp⟩ (fun _ hs => hs.congr (.core rfl rfl)) id
  | trySendBatch i inPlace handleClosed items =>
    by_cases hfree : w.Free i = true
    swap
    · simp [Batches.step, hfree] at hs
    have hs' := hs
    simp only [Batches.step, hfree, Bool.not_true, Bool.false_eq_true, if_false,
      Option.some.injEq] at hs'
    subst hs'
    have hplaced := h.placed_of_free hfree
    have htries : Batch.Tries capacity w.system items (if inPlace then
        Batch.trySendBatchMut capacity w.system handleClosed items
      else Batch.trySendBatch capacity w.system handleClosed items) := by
      split_ifs
      · exact Batch.trySendBatchMut_tries handleClosed items
      · exact Batch.trySendBatch_tries handleClosed items
    obtain ⟨g, hg, haccounts⟩ := htries.accepted
    refine h.put ⟨g, hg, ?_⟩ htries.holds (fun hp => htries.panics ?_) htries.failed
    · rw [hplaced]
      exact haccounts
    · exact BatchPoint.ended.inj hp
  | start i kind inPlace handleClosed items =>
    simp only [Batches.step] at hs
    split_ifs at hs with hfree
    obtain rfl := Option.some.inj hs
    have hplaced := h.placed_of_free (by simpa using hfree)
    obtain ⟨-, haccounts, hpoint⟩ := Batch.start_goes kind inPlace handleClosed items
    refine h.put ⟨[], by simp, ?_⟩ (fun _ hs => hs) (fun hp => absurd hp hpoint) id
    rw [hplaced]
    exact haccounts
  | advance i =>
    obtain ⟨b, hb, hs⟩ := Option.bind_eq_some_iff.mp hs
    obtain ⟨r, hr, rfl⟩ := Option.map_eq_some_iff.mp hs
    exact h.goes (Batch.advance_goes (h.accounts i b hb) hr)
  | resume i =>
    obtain ⟨b, hb, hs⟩ := Option.bind_eq_some_iff.mp hs
    obtain ⟨r, hr, rfl⟩ := Option.map_eq_some_iff.mp hs
    exact h.goes (Batch.resume_goes (h.accounts i b hb) hr)
  | drop i =>
    obtain ⟨b, hb, hs⟩ := Option.bind_eq_some_iff.mp hs
    obtain ⟨r, hr, rfl⟩ := Option.map_eq_some_iff.mp hs
    exact h.goes (Batch.drop_goes (h.accounts i b hb) hr)

end Inv

/-- In every state of every run each batch send accounts for its items; it panics only if a push
failed, which up to a capacity of `2 ^ 63` none does: there the channel holds what entered it and
was not popped yet. -/
theorem accounted (h : Reachable (step capacity) (init capacity) w) :
    (∀ i b, w.sends i = some b → b.Accounts (w.placed i) ∧
      (b.point = .ended .panicked → w.system.failed = true)) ∧
    w.entered.map Prod.snd = w.system.accepted ∧
    (capacity ≠ 0 → capacity.toNat ≤ 2 ^ 63 → w.system.Holds capacity) := by
  have hinv : Inv capacity w := h.invariant Inv.init fun _ _ _ hw _ hs => hw.step hs
  exact ⟨fun i b hb => ⟨hinv.accounts i b hb, hinv.panics i b hb⟩, hinv.entered, hinv.holds⟩

end Batches

/-! ### Who reports what -/

/-- The number of items sent, as the caller is told. -/
def Outcome.reported : Outcome T → Option ℕ
  | ok n | error n _ | okInPlace n _ => some n
  | closedInPlace _ | dropped | droppedInPlace _ | panicked => none

/-- The items not sent, as the caller has them. -/
def Outcome.unsent : Outcome T → Option (List T)
  | ok _ => some []
  | error _ left | okInPlace _ left | closedInPlace left | droppedInPlace left => some left
  | dropped | panicked => none

/-- The caller is told how many items were sent, and has the others. -/
def Told (items placed : List T) (reported : Option ℕ) (unsent : Option (List T)) : Prop :=
  ∃ sent, placed = items.take sent ∧ reported = some sent ∧ unsent = some (items.drop sent)

namespace Batches

/-- One of two items is sent, by value, and the future is dropped. -/
def droppedMidway : List (BatchAction ℕ) :=
  [.start 0 .async false false [7, 8], .advance 0, .advance 0, .advance 0, .drop 0, .advance 0]

/-- One of two items is sent, in place, and the receiver leaves. -/
def closedMidway : List (BatchAction ℕ) :=
  [.start 0 .sync true false [7, 8], .advance 0, .advance 0, .other .closeReceiver, .resume 0,
    .advance 0]

/-- The items of a batch send that has ended, and what its caller has of it. -/
def told (w : Batches T) (i : ℕ) : Option (List T × Option ℕ × Option (List T)) :=
  (w.sends i).bind fun b => match b.point with
    | .ended .panicked => none
    | .ended outcome => some (b.items, outcome.reported, outcome.unsent)
    | _ => none

theorem accounted_closedMidway : ∃ w : Batches ℕ, Reachable (step 1) (init 1) w ∧
    w.placed 0 = [7] ∧ w.told 0 = some ([7, 8], none, some [8]) ∧
    ((∀ i b, w.sends i = some b → b.Accounts (w.placed i) ∧
      (b.point = .ended .panicked → w.system.failed = true)) ∧
    w.entered.map Prod.snd = w.system.accepted ∧
    ((1 : UInt64) ≠ 0 → (1 : UInt64).toNat ≤ 2 ^ 63 → w.system.Holds 1)) := by
  have hexec : (exec (step 1) (fun _ _ => true) (init 1) closedMidway).map
      (fun w => decide (w.placed 0 = [7] ∧ w.told 0 = some ([7, 8], none, some [8]))) =
        some true := by
    rfl
  obtain ⟨w, hw, heq⟩ := Option.map_eq_some_iff.mp hexec
  obtain ⟨hplaced, htold⟩ := of_decide_eq_true heq
  have hrun := reachable_of_exec hw
  exact ⟨w, hrun, hplaced, htold, accounted hrun⟩

/-- The future takes the second item with it, and nobody is told about the first. -/
theorem not_told_dropped : ¬ ∀ w : Batches ℕ, Reachable (step 1) (init 1) w →
    ∀ i items reported unsent, w.told i = some (items, reported, unsent) →
      Told items (w.placed i) reported unsent := by
  intro hall
  have hexec : (exec (step 1) (fun _ _ => true) (init 1) droppedMidway).map
      (fun w => decide (w.placed 0 = [7] ∧ w.told 0 = some ([7, 8], none, none))) =
        some true := by
    rfl
  obtain ⟨w, hw, heq⟩ := Option.map_eq_some_iff.mp hexec
  obtain ⟨-, htold⟩ := of_decide_eq_true heq
  obtain ⟨sent, -, hreported, -⟩ := hall w (reachable_of_exec hw) 0 _ _ _ htold
  cases hreported

end Batches

end Fibre.Channels.Mpmc
