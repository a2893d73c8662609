import Fibre.Channels.Mpsc.FullVerdicts
import Fibre.Channels.Mpsc.Delivery

/-!
# The writer of a log file

A thread receives the messages of the logging threads and writes them. When the shutdown signal is
set it drains what is left in the channel, with `try_recv` until it finds nothing, and flushes.
-/

namespace Fibre.Logging

open Machine Channels.Mpsc List Option Bool

variable {T : Type*} {shape : Shape}

/-- What the writer does to its file. -/
inductive Io (T : Type*)
  | write (v : T)
  | flush

/-- What was written. -/
def writes (out : List (Io T)) : List T :=
  out.filterMap fun
    | .write v => some v
    | .flush => none

/-- Nothing was written after the last flush. -/
def Flushed (out : List (Io T)) : Prop :=
  ∀ front v back, out = front ++ .write v :: back → Io.flush ∈ back

@[simp] theorem writes_append (out more : List (Io T)) :
    writes (out ++ more) = writes out ++ writes more := filterMap_append

@[simp] theorem writes_write (v : T) : writes [Io.write v] = [v] := rfl

@[simp] theorem writes_flush : writes [(Io.flush : Io T)] = [] := rfl

theorem flushed_nil : Flushed ([] : List (Io T)) := fun _ _ _ h => by simp at h

theorem flushed_flush (out : List (Io T)) : Flushed (out ++ [.flush]) := by
  intro front v back h
  rcases eq_nil_or_concat back with rfl | ⟨init, last, rfl⟩
  · have heq := (append_inj' h rfl).2
    cases heq
  · rw [concat_eq_append] at h ⊢
    rw [← cons_append, ← append_assoc] at h
    obtain rfl : Io.flush = last := singleton_inj.mp (append_inj' h rfl).2
    exact mem_append_right _ mem_cons_self

/-- Messages in a row, at most. -/
def WRITER_DRAIN_BATCH_MAX : ℕ := 256

/-- Which receive of the loop: the one with the timeout, one of the batch behind it, or one of the
last drain. -/
inductive Recv
  | timed
  | batch (n : ℕ)
  | last
  deriving DecidableEq

/-- Where the writer is: what it does next. -/
inductive Loop (T : Type*)
  /-- loads the signal -/
  | head
  /-- a dequeue starts -/
  | recv (r : Recv) (straggler : Bool)
  /-- the dequeue is under way -/
  | deq (r : Recv) (straggler : Bool)
  /-- found the channel empty: loads `sender_count` -/
  | alive (r : Recv)
  /-- `flush_progress` starts -/
  | publish (r : Recv) (disconnected : Bool)
  /-- and is under way -/
  | publishing (r : Recv) (disconnected : Bool)
  /-- `recv_timeout` looks at its deadline -/
  | timeLeft
  | write (r : Recv) (v : T)
  /-- looks at the time of the last flush -/
  | interval
  | timedOut
  /-- flushes for the last time -/
  | flush
  | done

/-- The channel of the appender, the signal, and the writer with its file. `tail` and `before` are
the tail of the channel and what the sends had returned when the signal was set. -/
structure Writer (T : Type*) where
  traffic : Traffic T
  shutdown : Bool
  alive : Bool
  loop : Loop T
  out : List (Io T)
  dirty : Bool
  tail : ℕ
  before : ℕ → List T

inductive Step (T : Type*)
  /-- a step of a logging thread -/
  | log (a : Action T)
  /-- the shutdown signal is set -/
  | signal
  /-- `close_channels` sets the flag of the handle -/
  | close
  /-- and drops its count -/
  | dropSender
  /-- the writer is gone, and its receiver with it -/
  | dropReceiver
  | writer (choice : Bool)

namespace Writer

/-- The logging threads send single messages through one handle, and wait until it is closed. -/
def logs (s : System T) : Action T → Bool
  | .send _ c => !c.batch && c.handle = 0
  | .producer _ | .retry _ _ | .publishFromDrained _ => true
  | .giveUp _ => s.closed 0 || s.shared.receiverDropped
  | _ => false

def init (shape : Shape) (publishChunk : ℕ) : Writer T where
  traffic := .init shape publishChunk
  shutdown := false
  alive := true
  loop := .head
  out := []
  dirty := false
  tail := 0
  before _ := []

def flush (w : Writer T) (loop : Loop T) : Writer T :=
  if w.dirty then { w with loop := loop, out := w.out ++ [.flush], dirty := false }
  else { w with loop := loop }

/-- Where a dequeue leads. -/
def outcome (w : Writer T) (r : Recv) (straggler : Bool) : Loop T :=
  match w.traffic.ledger.system.consumer with
  | .store d =>
    match d.out with
    | v :: _ => .write r v
    | [] => .deq r straggler
  | .tail =>
    if straggler then .publish r true
    else if w.traffic.ledger.system.shared.head.pos < w.traffic.ledger.system.shared.gTail then
      -- in flight
      .publish r false
    else .alive r
  | _ => .deq r straggler

/-- Where a receive that found nothing leads. -/
def after (r : Recv) (disconnected : Bool) : Loop T :=
  match r with
  | .timed => if disconnected then .recv .last false else .timeLeft
  | .batch _ => .interval
  | .last => .flush

/-- Where a write leads. -/
def next : Recv → Loop T
  | .timed => .recv (.batch 0) false
  | .batch n => if n + 1 < WRITER_DRAIN_BATCH_MAX then .recv (.batch (n + 1)) false else .interval
  | .last => .recv .last false

/-- The next step of `run_byte_appender_writer`. -/
def advance (shape : Shape) (w : Writer T) (choice : Bool) : Option (Writer T) :=
  match w.loop with
  | .head => some { w with loop := .recv (if w.shutdown then .last else .timed) false }
  | .recv r straggler => (w.traffic.step shape (.deq true 1)).map fun t =>
      { w with traffic := t, loop := .deq r straggler }
  | .deq r straggler => (w.traffic.step shape (.consumer choice)).map fun t =>
      { w with traffic := t, loop := w.outcome r straggler }
  | .alive r => some { w with loop := if w.alive then .publish r false else .recv r true }
  | .publish r disconnected => (w.traffic.step shape .flushProgress).map fun t =>
      { w with traffic := t, loop := .publishing r disconnected }
  | .publishing r disconnected =>
    match w.traffic.ledger.system.consumer with
    | .idle => some { w with loop := after r disconnected }
    | _ => (w.traffic.step shape (.consumer choice)).map fun t => { w with traffic := t }
  | .timeLeft => some { w with loop := if choice then .recv .timed false else .timedOut }
  | .write r v => some { w with loop := next r, out := w.out ++ [.write v], dirty := true }
  | .interval => some (if choice then w.flush .head else { w with loop := .head })
  | .timedOut => some (w.flush .head)
  | .flush => some (w.flush .done)
  | .done => none

def step (shape : Shape) (w : Writer T) : Step T → Option (Writer T)
  | .log a =>
    if logs w.traffic.ledger.system a then
      (w.traffic.step shape a).map fun t => { w with traffic := t }
    else none
  | .signal => some (
      if w.shutdown then w
      else { w with
        shutdown := true
        tail := w.traffic.ledger.system.shared.gTail
        before := w.traffic.returned })
  -- the signal is set before the channels are closed
  | .close =>
    if w.shutdown then (w.traffic.step shape (.close 0)).map fun t => { w with traffic := t }
    else none
  | .dropSender =>
    if w.traffic.ledger.system.closed 0 && w.alive then some { w with alive := false } else none
  | .dropReceiver =>
    match w.loop with
    | .done => (w.traffic.step shape .dropReceiver).map fun t => { w with traffic := t }
    | _ => none
  | .writer choice => w.advance shape choice

/-- What was sent before the signal is written, once and in order, and it is flushed. -/
structure Drained (w : Writer T) : Prop where
  /-- what is written are the messages of the first tickets -/
  written : writes w.out = w.traffic.delivered.map Entry.item
  once : (w.traffic.delivered.map Entry.ticket).Pairwise (· < ·)
  /-- a thread's messages in its order -/
  ordered : ∀ p, ((w.traffic.delivered.filter fun e => e.producer = p).map Entry.item) <+:
    w.traffic.returned p ++ w.traffic.underWay p
  /-- none of those sent before the signal is missing -/
  complete : ∀ p,
    w.before p <+: (w.traffic.delivered.filter fun e => e.producer = p).map Entry.item
  flushed : Flushed w.out

/-- When the writer has returned, it has drained the channel. -/
def Safe (w : Writer T) : Prop :=
  match w.loop with
  | .done => w.Drained
  | _ => True

/-! ### A dequeue -/

/-- The consumer is in `deq_once`, and has `out`. -/
def Once (out : List T) : Consumer T → Prop
  | .look d | .retire d | .load d | .drain d => d = ⟨true, 1, []⟩ ∧ out = []
  | .count d | .publishDrained (some d) | .publishProgress (some d) | .store d =>
    d = ⟨true, 1, out⟩ ∧ out.length ≤ 1
  | .tail => out = []
  | _ => False

/-- The dequeue has found nothing. -/
def Missed : Consumer T → Prop
  | .store d => d.out = []
  | .tail => True
  | _ => False

/-- The slot at the cursor is not filled. -/
def FindsNothing (shape : Shape) (s : Shared T) : Consumer T → Prop
  | .look _ => s.id (shape.place s.head.cid) ≠ s.head.cid
  | .load _ => s.front shape = .empty
  | _ => False

section Dequeue

variable {s u : Shared T} {k k' : Consumer T} {choice : Bool} {item : Option T} {out : List T}

theorem once_next (h : out.length ≤ 1) :
    Once out (Deq.next ⟨true, 1, out⟩) ∧
      ¬ Missed (Deq.next ⟨true, 1, out⟩ : Consumer T) := by
  unfold Deq.next
  split
  · next hlt =>
    have hnil : out = [] := length_eq_zero_iff.mp (Nat.lt_one_iff.mp hlt)
    rw [hnil]
    exact ⟨⟨rfl, rfl⟩, id⟩
  · next hge =>
    refine ⟨⟨rfl, h⟩, fun hmissed => hge ?_⟩
    rw [show out = [] from hmissed]
    exact Nat.one_pos

/-- A step of `deq_once`: it goes on, and finds nothing only where the slot at the cursor is not
filled, or it ends with what it has. -/
theorem once_advance (h : Once out k)
    (hs : s.advanceConsumer shape choice k = some (u, k', item)) :
    Once (out ++ item.toList) k' ∧ (Missed k' → Missed k ∨ FindsNothing shape s k) ∧
        (∀ d, k = .store d → d.out = []) ∧ k ≠ .tail ∨
      k' = .idle ∧ item = none ∧
        (k = .tail ∧ out = [] ∨ ∃ v, k = .store ⟨true, 1, [v]⟩ ∧ out = [v]) := by
  have hnil : out ++ (none : Option T).toList = out := append_nil out
  cases k with
  | idle | runCap r => exact False.elim h
  | look d =>
    obtain ⟨rfl, rfl⟩ := h
    left
    simp only [Shared.advanceConsumer] at hs
    split at hs
    · next hid =>
      cases hs
      exact ⟨⟨rfl, Nat.zero_le 1⟩, fun _ => Or.inr hid, by simp, by simp⟩
    · split at hs
      · cases hs
        exact ⟨⟨rfl, rfl⟩, fun hm => False.elim hm, by simp, by simp⟩
      · cases hs
        exact ⟨⟨rfl, rfl⟩, fun hm => False.elim hm, by simp, by simp⟩
  | retire d =>
    obtain ⟨rfl, rfl⟩ := h
    cases hs
    exact Or.inl ⟨⟨rfl, rfl⟩, fun hm => False.elim hm, by simp, by simp⟩
  | load d =>
    obtain ⟨rfl, rfl⟩ := h
    left
    simp only [Shared.advanceConsumer] at hs
    split at hs
    · next hempty =>
      cases hs
      exact ⟨⟨rfl, Nat.zero_le 1⟩, fun _ => Or.inr hempty, by simp, by simp⟩
    · cases hs
      exact ⟨⟨rfl, rfl⟩, fun hm => False.elim hm, by simp, by simp⟩
  | drain d =>
    obtain ⟨rfl, rfl⟩ := h
    left
    simp only [Shared.advanceConsumer, Option.some.injEq, Prod.mk.injEq] at hs
    obtain ⟨rfl, rfl, rfl⟩ := hs
    have hlen : (s.front shape).item.toList.length ≤ 1 := by
      cases (s.front shape).item <;> simp
    rw [nil_append]
    split
    · exact ⟨⟨rfl, hlen⟩, fun hm => False.elim hm, by simp, by simp⟩
    · obtain ⟨honce, hm⟩ := once_next hlen
      exact ⟨honce, fun hm' => absurd hm' hm, by simp, by simp⟩
  | count d =>
    obtain ⟨rfl, hlen⟩ := h
    left
    simp only [Shared.advanceConsumer, Option.some.injEq, Prod.mk.injEq] at hs
    obtain ⟨rfl, rfl, rfl⟩ := hs
    rw [hnil]
    split
    · exact ⟨⟨rfl, hlen⟩, fun hm => False.elim hm, by simp, by simp⟩
    · obtain ⟨honce, hm⟩ := once_next hlen
      exact ⟨honce, fun hm' => absurd hm' hm, by simp, by simp⟩
  | publishDrained d =>
    cases d with
    | none => exact False.elim h
    | some d =>
      obtain ⟨rfl, hlen⟩ := h
      cases hs
      rw [hnil]
      exact Or.inl ⟨⟨rfl, hlen⟩, fun hm => False.elim hm, by simp, by simp⟩
  | publishProgress d =>
    cases d with
    | none => exact False.elim h
    | some d =>
      obtain ⟨rfl, hlen⟩ := h
      cases hs
      rw [hnil]
      obtain ⟨honce, hm⟩ := once_next hlen
      exact Or.inl ⟨honce, fun hm' => absurd hm' hm, by simp, by simp⟩
  | store d =>
    obtain ⟨rfl, hlen⟩ := h
    cases out with
    | nil =>
      cases hs
      exact Or.inl ⟨rfl, fun _ => Or.inl rfl, by simp, by simp⟩
    | cons v rest =>
      obtain rfl : rest = [] := by
        rw [length_cons] at hlen
        exact length_eq_zero_iff.mp (by omega)
      cases hs
      exact Or.inr ⟨rfl, rfl, Or.inr ⟨v, rfl, rfl⟩⟩
  | tail =>
    cases hs
    exact Or.inr ⟨rfl, rfl, Or.inl ⟨rfl, h⟩⟩

theorem pos_le_of_advance (hs : s.advanceConsumer shape choice k = some (u, k', item)) :
    s.head.pos ≤ u.head.pos := by
  cases k <;> simp only [Shared.advanceConsumer] at hs <;> try split at hs
  all_goals try split at hs
  all_goals cases hs
  all_goals first | exact le_rfl | exact Nat.le_succ _

end Dequeue

/-! ### The invariant -/

def receives : Action T → Bool
  | .deq _ _ | .flushProgress | .setPublishChunk _ | .consumer _ => true
  | _ => false

/-- What a step leaves: the cursor does not go back, the handles are closed by `close` only, and the
consumer moves in its own steps. -/
theorem frame_of_step {s t : System T} {a : Action T} (hs : s.step shape a = some t) :
    s.shared.head.pos ≤ t.shared.head.pos ∧ ((∀ n, a ≠ .close n) → t.closed = s.closed) ∧
      (receives a = false → t.consumer = s.consumer ∧ t.received = s.received) := by
  cases a with
  | producer p =>
    obtain ⟨⟨u, pc⟩, hu, rfl⟩ := map_eq_some_iff.mp hs
    obtain ⟨-, hhead, -⟩ := Shared.advanceProducer_frame hu
    exact ⟨by rw [hhead], fun _ => rfl, fun _ => ⟨rfl, rfl⟩⟩
  | consumer choice =>
    obtain ⟨⟨u, k, item⟩, hu, rfl⟩ := map_eq_some_iff.mp hs
    exact ⟨pos_le_of_advance hu, fun _ => rfl, fun h => by cases h⟩
  | send p c | isFull p =>
    simp only [System.step] at hs
    split at hs <;> cases hs
    exact ⟨le_rfl, fun _ => rfl, fun _ => ⟨rfl, rfl⟩⟩
  | retry p m =>
    simp only [System.step] at hs
    split at hs
    · split at hs <;> cases hs
      exact ⟨le_rfl, fun _ => rfl, fun _ => ⟨rfl, rfl⟩⟩
    · cases hs
  | publishFromDrained p | giveUp p =>
    simp only [System.step] at hs
    split at hs <;> cases hs
    exact ⟨le_rfl, fun _ => rfl, fun _ => ⟨rfl, rfl⟩⟩
  | close handle =>
    cases hs
    exact ⟨le_rfl, fun h => absurd rfl (h handle), fun _ => ⟨rfl, rfl⟩⟩
  | dropReceiver =>
    cases hs
    exact ⟨le_rfl, fun _ => rfl, fun _ => ⟨rfl, rfl⟩⟩
  | deq once max =>
    simp only [System.step] at hs
    split at hs
    · split at hs <;> cases hs <;> exact ⟨le_rfl, fun _ => rfl, fun h => by cases h⟩
    · cases hs
  | flushProgress | setPublishChunk v =>
    simp only [System.step] at hs
    split at hs <;> cases hs
    exact ⟨le_rfl, fun _ => rfl, fun h => by cases h⟩

/-- The loop is at a place it comes to after the signal only. -/
def Late : Loop T → Prop
  | .recv r b | .deq r b | .publish r b | .publishing r b => r = .last ∨ b = true
  | .alive r | .write r _ => r = .last
  | .flush | .done => True
  | _ => False

variable {w w' : Writer T}

/-- The last drain has found nothing. -/
def Stopped (w : Writer T) : Prop :=
  match w.loop with
  | .deq .last _ => Missed w.traffic.ledger.system.consumer
  | .alive .last | .publish .last _ | .publishing .last _ | .flush | .done => True
  | _ => False

/-- The messages of a thread that were sent before the signal. -/
def early (w : Writer T) (p : ℕ) : List (Entry T) :=
  (w.traffic.ledger.entries p).take (w.before p).length

/-- What was received is written, but for what the writer has in hand. -/
def Synced (w : Writer T) : Prop :=
  match w.loop with
  | .deq _ _ => ∃ out, Once out w.traffic.ledger.system.consumer ∧
      w.traffic.ledger.system.received = writes w.out ++ out
  | .publishing _ _ =>
    (w.traffic.ledger.system.consumer = .idle ∨
      w.traffic.ledger.system.consumer = .publishDrained none ∨
      w.traffic.ledger.system.consumer = .publishProgress none) ∧
      w.traffic.ledger.system.received = writes w.out
  | .write _ v => w.traffic.ledger.system.consumer = .idle ∧
      w.traffic.ledger.system.received = writes w.out ++ [v]
  | _ => w.traffic.ledger.system.consumer = .idle ∧
      w.traffic.ledger.system.received = writes w.out

structure Inv (shape : Shape) (w : Writer T) : Prop where
  traffic : w.traffic.Inv shape
  closed : w.traffic.ledger.system.closed 0 → w.shutdown
  alive : w.alive = false → w.shutdown
  late : Late w.loop → w.shutdown
  before : ∀ p, w.before p <+: w.traffic.returned p
  tail : ∀ p, ∀ e ∈ w.early p, e.ticket < w.tail
  synced : w.Synced
  /-- then it has all that was sent before the signal -/
  stopped : w.Stopped → ∀ p, ∀ e ∈ w.early p, e.ticket < w.traffic.ledger.system.shared.head.pos
  flushed : w.dirty = false → Flushed w.out
  clean : w.loop = .done → w.dirty = false

/-- The last drain finds the slot at the cursor not filled only when no ticket that was claimed
before the signal is filled behind it. -/
def Clear (shape : Shape) (w : Writer T) : Step T → Prop
  | .writer _ =>
    match w.loop with
    | .deq .last _ =>
      FindsNothing shape w.traffic.ledger.system.shared w.traffic.ledger.system.consumer →
        ∀ n, w.traffic.ledger.system.shared.head.pos ≤ n → n < w.tail →
          n ∈ w.traffic.ledger.system.held
    | _ => True
  | _ => True

namespace Inv

theorem init (publishChunk : ℕ) : (init shape publishChunk : Writer T).Inv shape where
  traffic := Traffic.Inv.init publishChunk
  closed h := by cases h
  alive h := by cases h
  late h := False.elim h
  before _ := prefix_rfl
  tail p e he := absurd he not_mem_nil
  synced := ⟨rfl, rfl⟩
  stopped h := False.elim h
  flushed _ := flushed_nil
  clean h := by cases h

theorem early_of_step (h : w.Inv shape) {t : Traffic T} {a : Action T}
    (ht : w.traffic.step shape a = some t) (p : ℕ) :
    (t.ledger.entries p).take (w.before p).length = w.early p := by
  obtain ⟨more, hmore⟩ := (Traffic.prefix_of_step ht p).2
  have hlen := congrArg List.length (h.traffic.accounts p).sent
  rw [length_map, length_append] at hlen
  have hle := (h.before p).length_le
  rw [early, ← hmore, take_append_of_le_length (by omega)]

theorem transfer (h : w.Inv shape) {t : Traffic T} {a : Action T}
    (ht : w.traffic.step shape a = some t) (ha : (∃ n, a = .close n) → w.shutdown) {loop : Loop T}
    (hlate : Late loop → w.shutdown)
    (hdone : loop = .done → w.dirty = false)
    (hsynced : Synced { w with traffic := t, loop := loop })
    (hstopped : Stopped { w with traffic := t, loop := loop } →
      ∀ p, ∀ e ∈ w.early p, e.ticket < t.ledger.system.shared.head.pos) :
    Inv shape { w with traffic := t, loop := loop } where
  traffic := h.traffic.step ht
  closed := by
    by_cases hclose : ∃ n, a = .close n
    · exact fun _ => ha hclose
    · dsimp only
      rw [(frame_of_step (Traffic.system_of_step ht)).2.1 fun n hn => hclose ⟨n, hn⟩]
      exact h.closed
  alive := h.alive
  late := hlate
  before p := (h.before p).trans (Traffic.prefix_of_step ht p).1
  tail p e he := by
    rw [early, h.early_of_step ht] at he
    exact h.tail p e he
  synced := hsynced
  stopped hs p e he := by
    rw [early, h.early_of_step ht] at he
    exact hstopped hs p e he
  flushed := h.flushed
  clean := hdone

theorem other (h : w.Inv shape) {t : Traffic T} {a : Action T}
    (ht : w.traffic.step shape a = some t) (ha : receives a = false)
    (hclose : (∃ n, a = .close n) → w.shutdown) : Inv shape { w with traffic := t } := by
  obtain ⟨hpos, -, hframe⟩ := frame_of_step (Traffic.system_of_step ht)
  obtain ⟨hconsumer, hreceived⟩ := hframe ha
  refine h.transfer ht hclose h.late h.clean ?_ fun hs p e he => ?_
  · have hsynced := h.synced
    unfold Synced at hsynced ⊢
    dsimp only
    rw [hconsumer, hreceived]
    exact hsynced
  · refine (h.stopped ?_ p e he).trans_le hpos
    unfold Stopped at hs ⊢
    dsimp only at hs
    rw [hconsumer] at hs
    exact hs

theorem go (h : w.Inv shape) {loop : Loop T} (hlate : Late loop → w.shutdown)
    (hdone : loop = .done → w.dirty = false) (hsynced : Synced { w with loop := loop })
    (hstopped : Stopped { w with loop := loop } → w.Stopped) :
    Inv shape { w with loop := loop } :=
  ⟨h.traffic, h.closed, h.alive, hlate, h.before, h.tail, hsynced, fun hs => h.stopped (hstopped hs),
    h.flushed, hdone⟩

theorem flush (h : w.Inv shape) {loop : Loop T} (hloop : loop = .head ∨ loop = .done)
    (hlate : loop = .done → w.shutdown) (hidle : w.traffic.ledger.system.consumer = .idle)
    (hreceived : w.traffic.ledger.system.received = writes w.out)
    (hstopped : loop = .done → w.Stopped) : (w.flush loop).Inv shape := by
  have hlate' : Late loop → w.shutdown := by
    rcases hloop with rfl | rfl
    · exact False.elim
    · exact fun _ => hlate rfl
  have hstopped' : ∀ v : Writer T, v.loop = loop → v.Stopped → w.Stopped := by
    intro v hv hs
    unfold Stopped at hs
    rw [hv] at hs
    rcases hloop with rfl | rfl
    · exact False.elim hs
    · exact hstopped rfl
  unfold Writer.flush
  split
  · refine ⟨h.traffic, h.closed, h.alive, hlate', h.before, h.tail, ?_,
      fun hs => h.stopped (hstopped' _ rfl hs), fun _ => flushed_flush _, fun _ => rfl⟩
    have hwritten : w.traffic.ledger.system.received = writes (w.out ++ [Io.flush]) := by
      rw [writes_append, writes_flush, append_nil, hreceived]
    rcases hloop with rfl | rfl <;> exact ⟨hidle, hwritten⟩
  · next hdirty =>
    refine h.go hlate' (fun _ => not_eq_true _ ▸ hdirty) ?_ (hstopped' _ rfl)
    rcases hloop with rfl | rfl <;> exact ⟨hidle, hreceived⟩

theorem startDeq (h : w.Inv shape) {r : Recv} {b : Bool} {t : Traffic T}
    (hloop : w.loop = .recv r b) (ht : w.traffic.step shape (.deq true 1) = some t) :
    Inv shape { w with traffic := t, loop := .deq r b } := by
  have hsynced := h.synced
  have hlate := h.late
  unfold Synced at hsynced
  rw [hloop] at hsynced hlate
  obtain ⟨hidle, hreceived⟩ := hsynced
  have hsystem := Traffic.system_of_step ht
  simp only [System.step, hidle, if_true] at hsystem
  have heq := (Option.some.inj hsystem).symm
  refine h.transfer ht (by rintro ⟨_, hn⟩; cases hn) hlate (fun hd => by cases hd) ?_ fun hs => ?_
  · refine ⟨[], ?_, ?_⟩
    · dsimp only
      rw [heq]
      exact ⟨rfl, rfl⟩
    · dsimp only
      rw [heq, append_nil]
      exact hreceived
  · unfold Stopped at hs
    dsimp only at hs
    rw [heq] at hs
    cases r <;> exact False.elim hs

theorem deq (h : w.Inv shape) {r : Recv} {b choice : Bool} {t : Traffic T}
    (hloop : w.loop = .deq r b) (ht : w.traffic.step shape (.consumer choice) = some t)
    (hclear : w.Clear shape (.writer choice)) :
    Inv shape { w with traffic := t, loop := w.outcome r b } := by
  have hsynced := h.synced
  have hlate := h.late
  unfold Synced at hsynced
  rw [hloop] at hsynced hlate
  obtain ⟨out, honce, hreceived⟩ := hsynced
  obtain ⟨⟨u, k, item⟩, hu, heq⟩ := map_eq_some_iff.mp (Traffic.system_of_step ht)
  have hpos := pos_le_of_advance hu
  have hsystem := heq.symm
  dsimp only at hsystem
  rcases once_advance honce hu with ⟨honce', hmissed, hstore, htail⟩ | ⟨rfl, rfl, hend⟩
  · -- the dequeue goes on
    have houtcome : w.outcome r b = .deq r b := by
      unfold outcome
      split
      · next d hd => rw [hstore d hd]
      · next hd => exact absurd hd htail
      · rfl
    rw [houtcome]
    refine h.transfer ht (fun ⟨_, hn⟩ => by cases hn) hlate (fun hd => by cases hd) ?_ fun hs p e he => ?_
    · refine ⟨out ++ item.toList, ?_, ?_⟩
      · dsimp only
        rw [hsystem]
        exact honce'
      · dsimp only
        rw [hsystem, hreceived, append_assoc]
    · unfold Stopped at hs
      dsimp only at hs
      rw [hsystem] at hs ⊢
      cases r with
      | timed | batch n => exact False.elim hs
      | last =>
        refine lt_of_lt_of_le ?_ hpos
        rcases hmissed hs with hbefore | hfinds
        · exact h.stopped (by unfold Stopped; rw [hloop]; exact hbefore) p e he
        · -- what was sent before the signal is resolved, so it is not behind the cursor
          unfold Clear at hclear
          rw [hloop] at hclear
          by_contra hge
          have hheld := hclear hfinds e.ticket (not_lt.mp hge) (h.tail p e he)
          have hmem : e ∈ (w.traffic.ledger.entries p).take (w.traffic.returned p).length :=
            (take_prefix_take_left (h.before p).length_le).mem he
          exact h.traffic.settled p e hmem hheld
  · rw [show (none : Option T).toList = [] from rfl, append_nil] at hsystem
    rcases hend with ⟨htail, rfl⟩ | ⟨v, hstore, rfl⟩
    · -- nothing was found
      rw [append_nil] at hreceived
      have hsynced : t.ledger.system.consumer = .idle ∧
          t.ledger.system.received = writes w.out := by
        rw [hsystem]
        exact ⟨rfl, hreceived⟩
      have hstopped : r = .last → ∀ p, ∀ e ∈ w.early p,
          e.ticket < t.ledger.system.shared.head.pos := by
        intro hr p e he
        rw [hsystem]
        refine lt_of_lt_of_le (h.stopped ?_ p e he) hpos
        unfold Stopped
        rw [hloop, hr]
        dsimp only
        rw [htail]
        exact trivial
      unfold outcome
      rw [htail]
      dsimp only
      split
      · next hb =>
        exact h.transfer ht (fun ⟨_, hn⟩ => by cases hn) (fun _ => hlate (Or.inr hb)) (fun hd => by cases hd) hsynced fun hs =>
          hstopped (by cases r <;> first | rfl | exact False.elim hs)
      split
      · exact h.transfer ht (fun ⟨_, hn⟩ => by cases hn) (fun hl => hlate (hl.imp_right fun hf => by cases hf))
          (fun hd => by cases hd) hsynced fun hs =>
          hstopped (by cases r <;> first | rfl | exact False.elim hs)
      · exact h.transfer ht (fun ⟨_, hn⟩ => by cases hn) (fun hl => hlate (Or.inl hl)) (fun hd => by cases hd) hsynced fun hs =>
          hstopped (by cases r <;> first | rfl | exact False.elim hs)
    · have houtcome : w.outcome r b = .write r v := by
        unfold outcome
        rw [hstore]
      rw [houtcome]
      refine h.transfer ht (fun ⟨_, hn⟩ => by cases hn) (fun hr => hlate (Or.inl hr)) (fun hd => by cases hd) ?_
        fun hs => False.elim hs
      refine ⟨?_, ?_⟩
      · dsimp only
        rw [hsystem]
      · dsimp only
        rw [hsystem]
        exact hreceived

theorem startPublish (h : w.Inv shape) {r : Recv} {b : Bool} {t : Traffic T}
    (hloop : w.loop = .publish r b) (ht : w.traffic.step shape .flushProgress = some t) :
    Inv shape { w with traffic := t, loop := .publishing r b } := by
  have hsynced := h.synced
  have hlate := h.late
  unfold Synced at hsynced
  rw [hloop] at hsynced hlate
  obtain ⟨hidle, hreceived⟩ := hsynced
  have hsystem := Traffic.system_of_step ht
  obtain ⟨hpos, -, -⟩ := frame_of_step hsystem
  simp only [System.step, hidle] at hsystem
  have heq := (Option.some.inj hsystem).symm
  refine h.transfer ht (by rintro ⟨_, hn⟩; cases hn) hlate (fun hd => by cases hd) ⟨?_, ?_⟩ fun hs p e he => ?_
  · dsimp only
    rw [heq]
    dsimp only
    split
    · exact Or.inl rfl
    · exact Or.inr (Or.inl rfl)
  · dsimp only
    rw [heq]
    exact hreceived
  · refine (h.stopped ?_ p e he).trans_le hpos
    unfold Stopped at hs ⊢
    rw [hloop]
    cases r <;> trivial

theorem publish (h : w.Inv shape) {r : Recv} {b choice : Bool} {t : Traffic T}
    (hloop : w.loop = .publishing r b)
    (ht : w.traffic.step shape (.consumer choice) = some t) : Inv shape { w with traffic := t } := by
  have hsynced := h.synced
  unfold Synced at hsynced
  rw [hloop] at hsynced
  obtain ⟨hconsumer, hreceived⟩ := hsynced
  obtain ⟨⟨u, k, item⟩, hu, heq⟩ := map_eq_some_iff.mp (Traffic.system_of_step ht)
  have hpos := pos_le_of_advance hu
  have hsystem := heq.symm
  dsimp only at hsystem
  refine h.transfer ht (fun ⟨_, hn⟩ => by cases hn) h.late h.clean ?_ fun hs p e he => ?_
  · unfold Synced
    rw [hloop]
    dsimp only
    rw [hsystem]
    rcases hconsumer with hc | hc | hc
    · rw [hc] at hu
      cases hu
    · rw [hc] at hu
      cases hu
      exact ⟨Or.inr (Or.inr rfl), (append_nil _).trans hreceived⟩
    · rw [hc] at hu
      cases hu
      exact ⟨Or.inl rfl, (append_nil _).trans hreceived⟩
  · rw [hsystem]
    refine (h.stopped ?_ p e he).trans_le hpos
    unfold Stopped at hs ⊢
    dsimp only at hs
    rw [hloop] at hs ⊢
    cases r <;> trivial

theorem next_cases (r : Recv) : (∃ r', (next r : Loop T) = .recv r' false ∧ (r' = .last → r = .last)) ∨
    (next r : Loop T) = .interval := by
  cases r with
  | timed => exact Or.inl ⟨_, rfl, fun hr => by cases hr⟩
  | batch n =>
    rw [next]
    split
    · exact Or.inl ⟨_, rfl, fun hr => by cases hr⟩
    · exact Or.inr rfl
  | last => exact Or.inl ⟨_, rfl, id⟩

theorem written (h : w.Inv shape) {r : Recv} {v : T}
    (hidle : w.traffic.ledger.system.consumer = .idle)
    (hreceived : w.traffic.ledger.system.received = writes (w.out ++ [.write v]))
    (hlate : r = .last → w.shutdown) :
    Inv shape { w with loop := next r, out := w.out ++ [.write v], dirty := true } := by
  have hdirty : ∀ {P : Prop}, true = false → P := fun h => by cases h
  rcases next_cases (T := T) r with ⟨r', hnext, hr⟩ | hnext
  · rw [hnext]
    refine ⟨h.traffic, h.closed, h.alive, fun hl => ?_, h.before, h.tail, ⟨hidle, hreceived⟩, False.elim,
      hdirty, fun hd => by cases hd⟩
    exact hlate (hr (hl.resolve_right false_ne_true))
  · rw [hnext]
    exact ⟨h.traffic, h.closed, h.alive, False.elim, h.before, h.tail, ⟨hidle, hreceived⟩, False.elim,
      hdirty, fun hd => by cases hd⟩

theorem advance (h : w.Inv shape) {choice : Bool} (hclear : w.Clear shape (.writer choice))
    (hs : w.advance shape choice = some w') : w'.Inv shape := by
  have hsynced := h.synced
  have hlate := h.late
  unfold Synced at hsynced
  unfold Writer.advance at hs
  split at hs
  · next hloop =>
    cases hs
    rw [hloop] at hsynced
    refine h.go (fun hl => ?_) (fun hd => by cases hd) hsynced fun hst => False.elim hst
    -- the last drain starts after the signal
    cases hshutdown : w.shutdown with
    | true => rfl
    | false =>
      rw [hshutdown] at hl
      exact hl.elim (fun hf => by cases hf) fun hf => by cases hf
  · next r b hloop =>
    obtain ⟨t, ht, rfl⟩ := map_eq_some_iff.mp hs
    exact h.startDeq hloop ht
  · next r b hloop =>
    obtain ⟨t, ht, rfl⟩ := map_eq_some_iff.mp hs
    exact h.deq hloop ht hclear
  · next r hloop =>
    cases hs
    rw [hloop] at hsynced hlate
    split
    · refine h.go (fun hl => hlate (hl.resolve_right false_ne_true)) (fun hd => by cases hd)
        hsynced fun hst => ?_
      unfold Stopped at hst ⊢
      rw [hloop]
      cases r <;> trivial
    · next halive =>
      exact h.go (fun _ => h.alive (not_eq_true _ ▸ halive)) (fun hd => by cases hd) hsynced
        fun hst => False.elim hst
  · next r b hloop =>
    obtain ⟨t, ht, rfl⟩ := map_eq_some_iff.mp hs
    exact h.startPublish hloop ht
  · next r b hloop =>
    rw [hloop] at hsynced hlate
    split at hs
    · next hidle =>
      cases hs
      have hsynced' := And.intro hidle hsynced.2
      cases r with
      | timed =>
        cases b with
        | true =>
          exact h.go (fun _ => hlate (Or.inr rfl)) (fun hd => by cases hd) hsynced'
            fun hst => False.elim hst
        | false =>
          exact h.go False.elim (fun hd => by cases hd) hsynced' fun hst => False.elim hst
      | batch n =>
        exact h.go False.elim (fun hd => by cases hd) hsynced' fun hst => False.elim hst
      | last =>
        refine h.go (fun _ => hlate (Or.inl rfl)) (fun hd => by cases hd) hsynced' fun _ => ?_
        unfold Stopped
        rw [hloop]
        trivial
    · obtain ⟨t, ht, rfl⟩ := map_eq_some_iff.mp hs
      exact h.publish hloop ht
  · next hloop =>
    cases hs
    rw [hloop] at hsynced
    split
    · refine h.go (fun hl => ?_) (fun hd => by cases hd) hsynced fun hst => False.elim hst
      exact hl.elim (fun hf => by cases hf) fun hf => by cases hf
    · exact h.go False.elim (fun hd => by cases hd) hsynced fun hst => False.elim hst
  · next r v hloop =>
    cases hs
    rw [hloop] at hsynced hlate
    refine h.written hsynced.1 ?_ fun hr => hlate hr
    rw [writes_append, hsynced.2, writes_write]
  · next hloop =>
    rw [hloop] at hsynced
    cases hs
    split
    · exact h.flush (Or.inl rfl) (fun hd => by cases hd) hsynced.1 hsynced.2 fun hd => by cases hd
    · exact h.go False.elim (fun hd => by cases hd) hsynced fun hst => False.elim hst
  · next hloop =>
    rw [hloop] at hsynced
    cases hs
    exact h.flush (Or.inl rfl) (fun hd => by cases hd) hsynced.1 hsynced.2 fun hd => by cases hd
  · next hloop =>
    rw [hloop] at hsynced hlate
    cases hs
    refine h.flush (Or.inr rfl) (fun _ => hlate trivial) hsynced.1 hsynced.2 fun _ => ?_
    unfold Stopped
    rw [hloop]
    trivial
  · cases hs

theorem step (h : w.Inv shape) {a : Step T} (hclear : w.Clear shape a)
    (hs : w.step shape a = some w') : w'.Inv shape := by
  cases a with
  | log a =>
    simp only [Writer.step, ite_none_right_eq_some] at hs
    obtain ⟨hlogs, hs'⟩ := hs
    obtain ⟨t, ht, rfl⟩ := map_eq_some_iff.mp hs'
    refine h.other ht ?_ ?_
    · cases a <;> first | rfl | cases hlogs
    · rintro ⟨n, rfl⟩
      cases hlogs
  | signal =>
    simp only [Writer.step, Option.some.injEq] at hs
    subst hs
    split
    · exact h
    · next hshutdown =>
      -- what was accepted so far is before the tail
      refine ⟨h.traffic, fun _ => rfl, fun _ => rfl, fun _ => rfl, fun _ => prefix_rfl, fun p e he => ?_,
        h.synced, fun hst => absurd (h.late ?_) hshutdown, h.flushed, h.clean⟩
      · have hmem := (mem_filter.mp (mem_of_mem_take he)).1
        exact h.traffic.ledger.table.value_lt _ _ (valueIn_of_mem h.traffic.ledger.nodup hmem)
      · unfold Stopped at hst
        dsimp only at hst
        split at hst
        · next hloop => rw [hloop]; exact Or.inl rfl
        · next hloop => rw [hloop]; exact rfl
        · next hloop => rw [hloop]; exact Or.inl rfl
        · next hloop => rw [hloop]; exact Or.inl rfl
        · next hloop => rw [hloop]; exact trivial
        · next hloop => rw [hloop]; exact trivial
        · exact False.elim hst
  | close =>
    simp only [Writer.step, ite_none_right_eq_some] at hs
    obtain ⟨hshutdown, hs'⟩ := hs
    obtain ⟨t, ht, rfl⟩ := map_eq_some_iff.mp hs'
    exact h.other ht rfl fun _ => hshutdown
  | dropSender =>
    simp only [Writer.step, ite_none_right_eq_some, and_eq_true, Option.some.injEq] at hs
    obtain ⟨⟨hclosed, -⟩, rfl⟩ := hs
    exact ⟨h.traffic, h.closed, fun _ => h.closed hclosed, h.late, h.before, h.tail, h.synced,
      h.stopped, h.flushed, h.clean⟩
  | dropReceiver =>
    simp only [Writer.step] at hs
    split at hs
    · obtain ⟨t, ht, rfl⟩ := map_eq_some_iff.mp hs
      exact h.other ht rfl fun ⟨_, hn⟩ => by cases hn
    · cases hs
  | writer choice => exact h.advance hclear hs

theorem safe (h : w.Inv shape) : w.Safe := by
  unfold Safe
  split
  · next hloop =>
    have hsynced := h.synced
    have hstopped : w.Stopped := by
      unfold Stopped
      rw [hloop]
      trivial
    unfold Synced at hsynced
    rw [hloop] at hsynced
    refine ⟨?_, w.traffic.delivered_ordered, fun p => ?_, fun p => ?_, h.flushed (h.clean hloop)⟩
    · rw [← hsynced.2]
      exact Traffic.received_eq h.traffic
    · rw [← (h.traffic.accounts p).sent]
      exact (Traffic.delivered_sublog h.traffic p).map _
    · -- the messages sent before the signal are the first ones, and they are before the cursor
      obtain ⟨more, hmore⟩ := h.before p
      have hbefore : w.before p = (w.early p).map Entry.item := by
        rw [early, map_take, (h.traffic.accounts p).sent, ← hmore, append_assoc,
          take_left]
      have hfilter : (w.early p).filter
          (fun e => e.ticket < w.traffic.ledger.system.shared.head.pos) = w.early p := by
        rw [filter_eq_self]
        exact fun e he => decide_eq_true (h.stopped hstopped p e he)
      rw [hbefore, Traffic.delivered_filter h.traffic, ← hfilter]
      exact (( take_prefix _ _).filter _).map _
  · trivial

end Inv

/-- Along every run in which the last drain finds nothing only where no message stands behind, a
writer that has returned has written and flushed every message that was sent before the signal. -/
theorem safe_of_clear {publishChunk : ℕ}
    (h : Run (step shape) (Clear shape) (init shape publishChunk) w) : w.Safe :=
  (h.invariant (Inv.init publishChunk) fun _ _ _ hinv hclear hs => hinv.step hclear hs).safe

/-- A message of thread `p`. -/
def message (p v : ℕ) : Step ℕ := .log (.send p ⟨0, false, false, [v], 0⟩)

/-- Two threads send messages, then the signal is set and the writer goes to its end. -/
def sentBefore : List (Step ℕ) :=
  message 0 5 :: List.replicate 8 (Step.log (.producer 0)) ++
    message 1 9 :: List.replicate 8 (Step.log (.producer 1)) ++
    Step.signal :: List.replicate 25 (Step.writer false)

/-- One thread has claimed its ticket, and another one sends a message behind it. -/
def gap : List (Step ℕ) :=
  message 0 5 :: List.replicate 4 (Step.log (.producer 0)) ++
    message 1 9 :: List.replicate 8 (Step.log (.producer 1)) ++
    Step.signal :: List.replicate 9 (Step.writer false)

def returned (w : Writer ℕ) : Bool :=
  match w.loop with
  | .done => true
  | _ => false

theorem loop_of_returned {w : Writer ℕ} (h : returned w) : w.loop = .done := by
  unfold returned at h
  split at h
  · assumption
  · cases h

/-- `Clear` by what the last drain finds, or by the cursor. -/
def clear (shape : Shape) (w : Writer ℕ) : Step ℕ → Bool
  | .writer _ =>
    match w.traffic.ledger.system.consumer with
    | .look _ =>
      w.traffic.ledger.system.shared.id (shape.place w.traffic.ledger.system.shared.head.cid) =
        w.traffic.ledger.system.shared.head.cid
    | .load _ =>
      w.traffic.ledger.system.shared.front shape ≠ .empty ||
        w.tail ≤ w.traffic.ledger.system.shared.head.pos
    | _ => true
  | _ => true

theorem clear_of_true (w : Writer ℕ) (a : Step ℕ) (h : clear shape w a) : w.Clear shape a := by
  cases a with
  | writer choice =>
    unfold Clear
    dsimp only
    split
    · intro hfinds n hpos htail
      unfold clear at h
      dsimp only at h
      cases hc : w.traffic.ledger.system.consumer with
      | look d =>
        rw [hc] at h hfinds
        exact absurd (of_decide_eq_true h) hfinds
      | load d =>
        rw [hc] at h hfinds
        simp only [or_eq_true, decide_eq_true_eq] at h
        rcases h with hne | hle
        · exact absurd hfinds hne
        · omega
      | _ =>
        rw [hc] at hfinds
        exact False.elim hfinds
    · trivial
  | _ => trivial

theorem safe_sentBefore : ∃ w : Writer ℕ,
    Run (step (.new 2 128 (by decide))) (Clear (.new 2 128 (by decide)))
      (init (.new 2 128 (by decide)) 2) w ∧
    w.loop = .done ∧ (w.before 0, w.before 1) = ([5], [9]) ∧ w.Safe := by
  have hexec : (exec (step (.new 2 128 (by decide))) (clear (.new 2 128 (by decide)))
      (init (.new 2 128 (by decide)) 2) sentBefore).map
        (fun w => (returned w, w.before 0, w.before 1)) = some (true, [5], [9]) := by
    decide
  obtain ⟨w, hw, heq⟩ := Option.map_eq_some_iff.mp hexec
  obtain ⟨hreturned, hbefore⟩ := Prod.mk.inj heq
  have hrun := run_of_exec clear_of_true hw
  exact ⟨w, hrun, loop_of_returned hreturned, hbefore, safe_of_clear hrun⟩

/-- The last drain stops at the ticket that is claimed and not filled, and the message behind it is
not written. -/
theorem not_safe_gap : ¬ ∀ w : Writer ℕ,
    Reachable (step (.new 2 128 (by decide))) (init (.new 2 128 (by decide)) 2) w → w.Safe := by
  intro hall
  have hexec : (exec (step (.new 2 128 (by decide))) (fun _ _ => true)
      (init (.new 2 128 (by decide)) 2) gap).map
        (fun w => (returned w, writes w.out, w.before 1)) = some (true, [], [9]) := by
    decide
  obtain ⟨w, hw, heq⟩ := Option.map_eq_some_iff.mp hexec
  simp only [Prod.mk.injEq] at heq
  obtain ⟨hreturned, hnone, hbefore⟩ := heq
  have hsafe := hall w (reachable_of_exec hw)
  unfold Safe at hsafe
  rw [loop_of_returned hreturned] at hsafe
  have hwritten := hsafe.written
  have hcomplete := hsafe.complete 1
  rw [hnone] at hwritten
  rw [List.map_eq_nil_iff.mp hwritten.symm, hbefore] at hcomplete
  exact absurd hcomplete (by decide)

end Writer

end Fibre.Logging
