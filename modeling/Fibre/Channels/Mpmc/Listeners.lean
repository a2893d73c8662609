import Fibre.Channels.Mpmc.RecvSteps

/-!
# Who listens to which flag

What holds of the queue entries and flags in every run of the bounded MPMC channel, also where
wake-ups are lost. A queue entry of the senders belongs to a sender that has yet to take it out.
Receivers are not as tidy: a future that completes while it is queued leaves its entry behind, so
an entry of theirs belongs to some receive, perhaps one that has returned. The flag of a receive
under way says that it waits, that it was notified, or that the last sender has left.

A blocking receive and a receive future go by a flag that says so and return. What such a receive
may rely on is a parameter here, `saw`.

A closed handle can still be used: a blocking receive on it returns at once, and a clone of it is
open. So a sender can come back when no sender is left; no invariant survives that.
-/

namespace Fibre.Channels.Mpmc

open WaiterState List

variable {T : Type*} {capacity : UInt64}

/-- A sender that may have an entry in the queue of its kind. -/
def Task.parkedAs (k : SendKind) : Task T → Bool
  | .sendParked k' _ _ | .sendWoken k' _ _ _ | .sendDropped k' => k' = k
  | _ => false

/-- A receive that may have a queue entry. A timed one parks once. -/
def Task.mayWait : Task T → Bool
  | .recvTry k _ | .recvRegister k _ => k ≠ .timed
  | .recvParked _ _ | .recvClosed _ | .recvDropped _ | .timedRetry | .timedAsleep | .timedFinal
  | .streamIdle | .done => true
  | _ => false

/-- A receive that returns `Disconnected` when its flag says that the senders have left. -/
def Task.goesByFlag : Task T → Bool
  | .recvParked k _ => k = .sync ∨ k = .future
  | .recvClosed _ => true
  | _ => false

/-- A flag a receive can find: nobody has told it anything, it was notified, or no sender is
left. -/
def Heard (gone : Prop) (st : WaiterState) : Prop :=
  st = waiting ∨ st = successSpace ∨ st = closedBuffered ∧ gone

theorem Heard.mono {gone gone' : Prop} {st : WaiterState} (h : Heard gone st)
    (hgone : gone → gone') : Heard gone' st :=
  h.imp_right fun h => h.imp_right fun h => ⟨h.1, hgone h.2⟩

def FlagAt (gone saw : Prop) (st : WaiterState) : Task T → Prop
  | .fresh => st = waiting
  | .recvTry k _ | .recvRegister k _ => Heard gone st ∧ (k = .timed → st = waiting)
  | .recvParked k _ => Heard gone st ∧ (k = .sync ∨ k = .future → st = closedBuffered → saw)
  | .streamIdle | .timedRetry | .timedAsleep => Heard gone st
  -- its attempt to cancel has failed
  | .timedFinal => Heard gone st ∧ st ≠ waiting
  | .recvClosed _ => saw
  | _ => True

/-- What holds of the queue entries and the flag of a task. -/
structure Placed (c : Internal T) (saw : Prop) (i : ℕ) (t : Task T) : Prop where
  async : i ∈ c.asyncQueue .send → t.parkedAs .async
  sync : i ∈ c.syncQueue .send → t.parkedAs .sync
  recv : i ∈ c.queues .recv → t.mayWait
  flag : FlagAt (c.closed .recv = true) saw (c.flags i) t

namespace Placed

variable {c c' : Internal T} {saw saw' : Prop} {i : ℕ} {t t' : Task T}

theorem next (h : Placed c saw i t) (hsend : ∀ k, t.parkedAs k → t'.parkedAs k)
    (hrecv : t.mayWait → t'.mayWait)
    (hflag : FlagAt (c.closed .recv = true) saw' (c.flags i) t') : Placed c saw' i t' :=
  ⟨fun hi => hsend _ (h.async hi), fun hi => hsend _ (h.sync hi), fun hi => hrecv (h.recv hi),
    hflag⟩

theorem weaken (h : Placed c saw i t) (hsaw : t.goesByFlag → saw → saw') : Placed c saw' i t := by
  refine h.next (fun _ => id) id ?_
  have hflag := h.flag
  cases t <;> simp only [FlagAt] at hflag ⊢ <;> try exact hflag
  case recvParked k max =>
    refine ⟨hflag.1, fun hk hst => hsaw ?_ (hflag.2 hk hst)⟩
    simpa [Task.goesByFlag] using hk
  case recvClosed k => exact hsaw rfl hflag

/-- Entries are taken out, and the flag stays, or is that of a sender, or of a receive that is
notified. -/
theorem mono (h : Placed c saw i t)
    (ha : i ∈ c'.asyncQueue .send → i ∈ c.asyncQueue .send)
    (hs : i ∈ c'.syncQueue .send → i ∈ c.syncQueue .send)
    (hr : i ∈ c'.queues .recv → i ∈ c.queues .recv)
    (hclosed : c.closed .recv = true → c'.closed .recv = true)
    (hflag : c'.flags i = c.flags i ∨ i ∈ c.queues .send ∨
      c'.flags i = successSpace ∧ i ∈ c.queues .recv) : Placed c' saw i t := by
  refine ⟨fun hi => h.async (ha hi), fun hi => h.sync (hs hi), fun hi => h.recv (hr hi), ?_⟩
  have hf := h.flag
  rcases hflag with hsame | hqueued | ⟨hnew, hqueued⟩
  · rw [hsame]
    cases t <;> simp only [FlagAt] at hf ⊢ <;> try exact hf
    case recvTry | recvRegister | recvParked | timedFinal => exact ⟨hf.1.mono hclosed, hf.2⟩
    case streamIdle | timedRetry | timedAsleep => exact hf.mono hclosed
  · -- nothing is said about the flag of a sender
    have hsender : t.parkedAs .async ∨ t.parkedAs .sync :=
      (mem_append.mp hqueued).imp h.async h.sync
    cases t <;> simp [Task.parkedAs] at hsender <;> trivial
  · have hrecv := h.recv hqueued
    have hheard : Heard (c'.closed .recv = true) successSpace := .inr (.inl rfl)
    rw [hnew]
    cases t <;> simp only [FlagAt] at hf ⊢ <;> simp_all [Task.mayWait]

theorem wakes_recv {W : Finset ℕ} (hwakes : Internal.Wakes .recv c c' W) (h : Placed c saw i t) :
    Placed c' saw i t := by
  obtain ⟨ha, hs⟩ := hwakes.frame .send (by decide)
  refine h.mono (ha ▸ id) (hs ▸ id) (fun hi => hwakes.taken.sublist.subset hi) ?_ ?_
  · simp only [Internal.closed, hwakes.senderCount]
    exact id
  · rw [hwakes.flags, wakeFlags]
    split_ifs with hi
    · exact .inr (.inr ⟨rfl, (hwakes.taken.queued i hi).1⟩)
    · exact .inl rfl

theorem wakes_send {W : Finset ℕ} (hwakes : Internal.Wakes .send c c' W) (h : Placed c saw i t) :
    Placed c' saw i t := by
  obtain ⟨ha, hs⟩ := hwakes.frame .recv (by decide)
  refine h.mono (fun hi => hwakes.async.subset hi) (fun hi => hwakes.sync.subset hi) ?_ ?_ ?_
  · rw [Internal.queues, ha, hs]
    exact id
  · simp only [Internal.closed, hwakes.senderCount]
    exact id
  · rw [hwakes.flags, wakeFlags]
    split_ifs with hi
    · exact .inr (.inl (hwakes.taken.queued i hi).1)
    · exact .inl rfl

theorem of_onlyAt {side : Side} {j : ℕ} (honly : System.Inv.OnlyAt side j c c') (hi : i ≠ j)
    (h : Placed c saw i t) : Placed c' saw i t := by
  have hview : ∀ side', c'.view side' i = c.view side' i := by
    intro side'
    by_cases hside : side' = side
    · rw [hside]
      exact honly.view i hi
    · have hother : side' = side.other := by
        cases side <;> cases side' <;> simp_all [Side.other]
      rw [hother]
      exact Internal.view_congr (by rw [honly.other.1]) (by rw [honly.other.2])
        (honly.flags i hi) (honly.closed _)
  have hasync : ∀ side', i ∈ c'.asyncQueue side' ↔ i ∈ c.asyncQueue side' := fun side' => by
    simpa [Internal.view] using congrArg View.async (hview side')
  have hsync : ∀ side', i ∈ c'.syncQueue side' ↔ i ∈ c.syncQueue side' := fun side' => by
    simpa [Internal.view] using congrArg View.sync (hview side')
  refine h.mono (hasync .send).mp (hsync .send).mp ?_ ?_ (.inl (honly.flags i hi))
  · rw [Internal.queues, Internal.queues, mem_append, mem_append, hasync, hsync]
    exact id
  · rw [honly.closed]
    exact id

theorem tell (h : Placed c saw i t) (hqueues : ∀ side, c'.asyncQueue side = c.asyncQueue side ∧
      c'.syncQueue side = c.syncQueue side) (hclosed : c'.closed .recv = true)
    (hflag : c'.flags i = c.flags i ∨ i ∈ c.waiters .recv ∧ c'.flags i = closedBuffered)
    (hsaw : saw → saw') (htold : i ∈ c.waiters .recv → t.goesByFlag → saw') :
    Placed c' saw' i t := by
  rcases hflag with hsame | ⟨hwaits, hnew⟩
  · have hsame' : Placed c' saw i t := by
      refine h.mono ?_ ?_ ?_ (fun _ => hclosed) (.inl hsame)
      · rw [(hqueues .send).1]
        exact id
      · rw [(hqueues .send).2]
        exact id
      · rw [Internal.queues, (hqueues .recv).1, (hqueues .recv).2]
        exact id
    exact hsame'.weaken fun _ => hsaw
  · have htask := h.recv hwaits.1
    have hf := h.flag
    have hheard : Heard (c'.closed .recv = true) closedBuffered := .inr (.inr ⟨rfl, hclosed⟩)
    rw [hwaits.2] at hf
    refine ⟨?_, ?_, fun _ => htask, ?_⟩
    · rw [(hqueues .send).1]
      exact h.async
    · rw [(hqueues .send).2]
      exact h.sync
    · rw [hnew]
      cases t <;> simp only [FlagAt] at hf ⊢ <;> simp_all [Task.mayWait, Task.goesByFlag]

end Placed

namespace System

variable {s s' : System T} {saw saw' : ℕ → Prop} {i : ℕ}

/-- The invariant of all runs. -/
structure Listens (capacity : UInt64) (saw : ℕ → Prop) (s : System T) : Prop where
  sound : s.core.Sound capacity
  here : ∀ i, Placed s.core (saw i) i (s.tasks i)

namespace Listens

theorem init : Listens capacity saw (init capacity : System T) where
  sound := Internal.sound_new
  here _ := ⟨by simp [System.init, Internal.new, Internal.asyncQueue],
    by simp [System.init, Internal.new, Internal.syncQueue],
    by simp [System.init, Internal.new, Internal.queues, Internal.asyncQueue, Internal.syncQueue],
    rfl⟩

theorem weaken (h : Listens capacity saw s)
    (hsaw : ∀ i, (s.tasks i).goesByFlag → saw i → saw' i) : Listens capacity saw' s :=
  ⟨h.sound, fun i => (h.here i).weaken (hsaw i)⟩

/-! ### One task moves -/

theorem move (h : Listens capacity saw s) {side : Side} {c : Internal T} {t : Task T}
    (honly : Inv.OnlyAt side i s.core c) (hi : Placed c (saw i) i t) :
    Listens capacity saw ({ s with core := c }.setTask i t) := by
  refine ⟨h.sound.congr honly.queue honly.queueLen, fun j => ?_⟩
  rcases eq_or_ne j i with rfl | hj
  · rwa [setTask_tasks_self]
  · rw [setTask_tasks_of_ne _ _ hj]
    exact (h.here j).of_onlyAt honly hj

theorem setTask (h : Listens capacity saw s) {t : Task T} (hi : Placed s.core (saw i) i t) :
    Listens capacity saw (s.setTask i t) :=
  h.move (.refl .send i s.core) hi

theorem send (h : Listens capacity saw s) (hpos : capacity ≠ 0) (batch : Bool) (items : List T) :
    Listens capacity saw (s.send capacity batch items).2 := by
  have heffect := send_effect hpos h.sound batch items
  obtain ⟨W, hwakes, -⟩ := heffect.wakes
  refine ⟨heffect.sound, fun j => ?_⟩
  rw [send_tasks]
  exact (h.here j).wakes_recv hwakes

theorem recv (h : Listens capacity saw s) (hpos : capacity ≠ 0) (max : Option UInt64) :
    Listens capacity saw (s.recv capacity max).2 := by
  have heffect := recv_effect hpos h.sound max
  obtain ⟨W, hwakes, -⟩ := heffect.wakes
  refine ⟨heffect.sound, fun j => ?_⟩
  rw [recv_tasks]
  exact (h.here j).wakes_send hwakes

theorem recvReturned (h : Listens capacity saw s) (k : RecvKind)
    (hsend : ∀ k, (s.tasks i).parkedAs k = false) :
    Listens capacity saw (s.recvReturned i k) := by
  have hdone : Listens capacity saw (s.setTask i .done) := by
    refine h.setTask ((h.here i).next (fun k hk => ?_) (fun _ => rfl) trivial)
    rw [hsend] at hk
    cases hk
  cases k with
  | sync | timed | future => exact hdone
  | stream =>
    -- the stream resets its flag for the next item
    have hret := Inv.returned s i .stream
    have hi := h.here i
    refine h.move (c := s.core.setFlag i waiting) hret.only ⟨?_, ?_, ?_, ?_⟩
    · intro hq
      exact absurd (hi.async hq) (by simp [hsend])
    · intro hq
      exact absurd (hi.sync hq) (by simp [hsend])
    · exact fun _ => rfl
    · simp [FlagAt, Heard, Internal.setFlag]

theorem recvThen (h : Listens capacity saw s) (hpos : capacity ≠ 0) {k : RecvKind}
    {max : Option UInt64} {next : Task T} (hsend : ∀ k, (s.tasks i).parkedAs k = false)
    (hrecv : (s.tasks i).mayWait → next.mayWait)
    (hflag : ∀ gone st, FlagAt gone (saw i) st (s.tasks i) → FlagAt gone (saw i) st next) :
    Listens capacity saw (s.recvThen capacity i k max next) := by
  have hrest := h.recv hpos max
  unfold System.recvThen
  dsimp only
  split
  · exact hrest.recvReturned k hsend
  · exact hrest.recvReturned k hsend
  · have hi := hrest.here i
    rw [recv_tasks] at hi
    refine hrest.setTask (hi.next (fun k hk => ?_) hrecv (hflag _ _ hi.flag))
    rw [hsend] at hk
    cases hk

theorem recv_queues {c c' : Internal T} (honly : Inv.OnlyAt .send i c c') :
    c'.queues .recv = c.queues .recv :=
  congrArg₂ (· ++ ·) honly.other.1 honly.other.2

theorem send_queues {c c' : Internal T} (honly : Inv.OnlyAt .recv i c c') :
    c'.asyncQueue .send = c.asyncQueue .send ∧ c'.syncQueue .send = c.syncQueue .send :=
  honly.other

theorem unlinkSender (h : Listens capacity saw s) {k : SendKind} {t : Task T}
    (hown : ∀ k', (s.tasks i).parkedAs k' → k' = k) (hwait : (s.tasks i).mayWait = false)
    (hflag : ∀ st, FlagAt (s.core.closed .recv = true) (saw i) st t) :
    Listens capacity saw ({ s with core := unlinkSender s.core i k }.setTask i t) := by
  have honly := Inv.onlyAt_unlinkSender s.core i k
  have hi := h.here i
  have hout : i ∉ (System.unlinkSender s.core i k).queues .send := by
    rw [Internal.queues, mem_append, not_or]
    -- the queue of the other kind never had it
    cases k with
    | sync =>
      refine ⟨fun hq => ?_, by simp [System.unlinkSender, Internal.syncQueue]⟩
      cases hown _ (hi.async hq)
    | async =>
      refine ⟨by simp [System.unlinkSender, Internal.asyncQueue], fun hq => ?_⟩
      cases hown _ (hi.sync hq)
  rw [Internal.queues, mem_append, not_or] at hout
  refine h.move honly ⟨fun hq => absurd hq hout.1, fun hq => absurd hq hout.2, fun hq => ?_, ?_⟩
  · rw [recv_queues honly] at hq
    have := hi.recv hq
    rw [hwait] at this
    cases this
  · rw [honly.closed]
    exact hflag _

theorem parkSender (h : Listens capacity saw s) {k : SendKind} {batch : Bool} {items : List T}
    (ht : s.tasks i = .sendRegister k batch items) :
    Listens capacity saw
      ({ s with core := parkSender s.core i k }.setTask i (.sendParked k batch items)) := by
  have honly := Inv.onlyAt_parkSender s.core i k
  have hi := h.here i
  rw [ht] at hi
  have hview := Inv.view_parkSender s.core k (i := i) (by
    rw [Internal.queues, mem_append, not_or]
    exact ⟨fun hq => Bool.false_ne_true (hi.async hq),
      fun hq => Bool.false_ne_true (hi.sync hq)⟩)
  refine h.move honly ⟨fun hq => ?_, fun hq => ?_, fun hq => ?_, trivial⟩
  · have hasync := congrArg View.async hview
    simp only [Internal.view, hq, decide_true] at hasync
    simpa [Task.parkedAs, SendKind.isAsync] using hasync.symm
  · have hsync := congrArg View.sync hview
    simp only [Internal.view, hq, decide_true] at hsync
    cases k with
    | sync => rfl
    | async => cases hsync
  · rw [recv_queues honly] at hq
    exact absurd (hi.recv hq) (by simp [Task.mayWait])

theorem parkReceiver (h : Listens capacity saw s) {k : RecvKind} {max : Option UInt64}
    (ht : s.tasks i = .recvRegister k max) (hopen : s.core.senderCount ≠ 0) :
    Listens capacity saw
      ({ s with core := parkReceiver s.core i k }.setTask i (.recvParked k max)) := by
  have honly := Inv.onlyAt_parkReceiver s.core i k
  have hi := h.here i
  rw [ht] at hi
  have hclosed : s.core.closed .recv = false := by simpa [Internal.closed] using hopen
  have hheard : ∀ st, Heard (s.core.closed .recv = true) st → st ≠ closedBuffered := by
    rintro st (hst | hst | ⟨-, hgone⟩)
    · simp [hst]
    · simp [hst]
    · exact absurd hgone (by simp [hclosed])
  have hflag : Heard (s.core.closed .recv = true) ((System.parkReceiver s.core i k).flags i) := by
    cases k <;> unfold System.parkReceiver <;> (try split_ifs) <;>
      first
      | exact hi.flag.1
      | simp [Heard, Internal.setFlag]
  refine h.move honly ⟨fun hq => ?_, fun hq => ?_, fun _ => rfl, ?_⟩
  · rw [(send_queues honly).1] at hq
    exact absurd (hi.async hq) (by simp [Task.parkedAs])
  · rw [(send_queues honly).2] at hq
    exact absurd (hi.sync hq) (by simp [Task.parkedAs])
  · rw [honly.closed]
    exact ⟨hflag, fun _ hst => absurd hst (hheard _ hflag)⟩

theorem leave (h : Listens capacity saw s) {c : Internal T} {t : Task T}
    (honly : Inv.OnlyAt .recv i s.core c) (hsend : ∀ k, (s.tasks i).parkedAs k = false)
    (hwait : t.mayWait) (hflag : ∀ gone st, FlagAt gone (saw i) st t) :
    Listens capacity saw ({ s with core := c }.setTask i t) := by
  have hi := h.here i
  refine h.move honly ⟨fun hq => ?_, fun hq => ?_, fun _ => hwait, hflag _ _⟩
  · rw [(send_queues honly).1] at hq
    exact absurd (hi.async hq) (by simp [hsend])
  · rw [(send_queues honly).2] at hq
    exact absurd (hi.sync hq) (by simp [hsend])

theorem cancel (h : Listens capacity saw s) {k : RecvKind}
    (hsend : ∀ k, (s.tasks i).parkedAs k = false) : Listens capacity saw
      ({ s with core := cancelFlag s.core i }.setTask i (.recvDropped k)) :=
  h.leave (Inv.onlyAt_cancelFlag s.core .recv i) hsend rfl fun _ _ => trivial

/-! ### The actions -/

theorem advance (h : Listens capacity saw s) (hpos : capacity ≠ 0)
    (hs : s.advance capacity i = some s') : Listens capacity saw s' := by
  cases ht : s.tasks i <;> simp only [System.advance, ht, reduceCtorEq] at hs
  case sendTry k batch items =>
    have hrest := h.send hpos batch items
    have hi := hrest.here i
    rw [send_tasks, ht] at hi
    split at hs <;> obtain rfl := Option.some.inj hs
    · exact hrest.setTask (hi.next (fun _ hk => hk) id trivial)
    all_goals exact hrest.setTask (hi.next (fun _ hk => absurd hk (by simp [Task.parkedAs]))
      (fun _ => rfl) trivial)
  case sendRegister k batch items =>
    have hi := h.here i
    rw [ht] at hi
    split_ifs at hs <;> obtain rfl := Option.some.inj hs
    · exact h.setTask (hi.next (fun _ hk => hk) id trivial)
    · exact h.setTask (hi.next (fun _ hk => absurd hk (by simp [Task.parkedAs]))
        (fun _ => rfl) trivial)
    · exact h.parkSender ht
  case sendWoken k batch items st =>
    obtain rfl := Option.some.inj hs
    refine h.unlinkSender ?_ (by rw [ht]; rfl) fun _ => ?_
    · rw [ht]
      simp [Task.parkedAs]
    · split_ifs <;> trivial
  case sendDropped k =>
    obtain rfl := Option.some.inj hs
    refine h.unlinkSender ?_ (by rw [ht]; rfl) fun _ => trivial
    rw [ht]
    simp [Task.parkedAs]
  case recvTry k max =>
    obtain rfl := Option.some.inj hs
    exact h.recvThen hpos (by simp [ht, Task.parkedAs]) (by rw [ht]; exact id)
      (by rw [ht]; exact fun _ _ hflag => hflag)
  case recvRegister k max =>
    have hi := h.here i
    rw [ht] at hi
    split_ifs at hs with hre htimed hgone <;> obtain rfl := Option.some.inj hs
    · exact h.setTask (hi.next (fun _ hk => hk) (fun _ => rfl) hi.flag.1)
    · exact h.setTask (hi.next (fun _ hk => hk) id hi.flag)
    · exact h.recvReturned k (by simp [ht, Task.parkedAs])
    · exact h.parkReceiver ht hgone
  case recvClosed k =>
    obtain rfl := Option.some.inj hs
    exact h.leave (Inv.onlyAt_unlinkReceiver s.core i k) (by simp [ht, Task.parkedAs]) rfl
      fun _ _ => trivial
  case recvDropped k =>
    obtain rfl := Option.some.inj hs
    exact h.leave (Inv.onlyAt_unlinkReceiver s.core i k) (by simp [ht, Task.parkedAs]) rfl
      fun _ _ => trivial
  case timedRetry =>
    obtain rfl := Option.some.inj hs
    exact h.recvThen hpos (by simp [ht, Task.parkedAs]) (fun _ => rfl)
      (by rw [ht]; exact fun _ _ hflag => hflag)
  case timedFinal =>
    obtain rfl := Option.some.inj hs
    exact h.recvThen hpos (by simp [ht, Task.parkedAs]) (fun _ => rfl) fun _ _ _ => trivial

theorem resume (h : Listens capacity saw s) (hs : s.resume i = some s') :
    Listens capacity saw s' := by
  have hi := h.here i
  cases ht : s.tasks i <;> rw [ht] at hi
  case sendParked k batch items =>
    simp only [System.resume, ht] at hs
    split_ifs at hs <;> obtain rfl := Option.some.inj hs
    · exact h.setTask (hi.next (fun _ hk => hk) id trivial)
    · exact h
  case timedAsleep =>
    simp only [System.resume, ht] at hs
    split_ifs at hs
    obtain rfl := Option.some.inj hs
    exact h.setTask (hi.next (fun _ hk => hk) id hi.flag)
  case recvParked k max =>
    obtain ⟨hheard, hsaw⟩ := hi.flag
    have hretry : ∀ k', k' ≠ .timed → Listens capacity saw (s.setTask i (.recvTry k' max)) :=
      fun k' hk' => h.setTask (hi.next (fun _ hk => hk) (by simp [Task.mayWait, hk'])
        ⟨hheard, fun htimed => absurd htimed hk'⟩)
    -- a flag that is finished and closed is the one the last sender left
    have htold : k = .sync ∨ k = .future → (s.core.flags i).finished →
        (s.core.flags i).closed → Listens capacity saw (s.setTask i (.recvClosed k)) := by
      intro hk hfin hclosed
      refine h.setTask (hi.next (fun _ hk => hk) (fun _ => rfl) (hsaw hk ?_))
      rcases hheard with hst | hst | ⟨hst, -⟩
      · rw [hst] at hfin
        cases hfin
      · rw [hst] at hclosed
        cases hclosed
      · exact hst
    cases k <;> simp only [System.resume, ht] at hs
    case sync =>
      split_ifs at hs with hfin hclosed hfuture <;> obtain rfl := Option.some.inj hs
      · exact htold (.inl rfl) hfin hclosed
      · exact hretry .sync (by decide)
      · exact hfuture.elim
    case timed =>
      split_ifs at hs
      obtain rfl := Option.some.inj hs
      exact h.setTask (hi.next (fun _ hk => hk) id hheard)
    case future =>
      split_ifs at hs with hfin hclosed <;> obtain rfl := Option.some.inj hs
      · exact htold (.inr rfl) hfin hclosed
      all_goals exact hretry .future (by decide)
    case stream =>
      obtain rfl := Option.some.inj hs
      exact hretry .stream (by decide)
  all_goals simp [System.resume, ht] at hs

theorem timeout (h : Listens capacity saw s) (hs : s.timeout i = some s') :
    Listens capacity saw s' := by
  have hi := h.here i
  cases ht : s.tasks i <;> rw [ht] at hi
  case recvParked k max =>
    cases k <;> simp only [System.timeout, ht, reduceCtorEq] at hs
    split_ifs at hs with hflag <;> obtain rfl := Option.some.inj hs
    · exact h.cancel (by simp [ht, Task.parkedAs])
    · exact h.setTask (hi.next (fun _ hk => hk) id ⟨hi.flag.1, hflag⟩)
  case timedAsleep =>
    simp only [System.timeout, ht] at hs
    split_ifs at hs with hflag <;> obtain rfl := Option.some.inj hs
    · exact h.cancel (by simp [ht, Task.parkedAs])
    · exact h.setTask (hi.next (fun _ hk => hk) id ⟨hi.flag, hflag⟩)
  all_goals simp [System.timeout, ht] at hs

theorem drop (h : Listens capacity saw s) (hs : s.drop i = some s') :
    Listens capacity saw s' := by
  have hi := h.here i
  cases ht : s.tasks i <;> rw [ht] at hi
  case sendParked k batch items =>
    cases k <;> simp only [System.drop, ht, reduceCtorEq] at hs
    obtain rfl := Option.some.inj hs
    have honly := Inv.onlyAt_cancelFlag s.core .recv i
    refine h.move honly ⟨fun hq => rfl, fun hq => ?_, fun hq => ?_, trivial⟩
    · rw [(send_queues honly).2] at hq
      exact absurd (hi.sync hq) (by simp [Task.parkedAs])
    · rw [Inv.queues_cancelFlag] at hq
      exact absurd (hi.recv hq) (by simp [Task.mayWait])
  case recvParked k max =>
    cases k <;> simp only [System.drop, ht, reduceCtorEq] at hs
    · obtain rfl := Option.some.inj hs
      exact h.cancel (by simp [ht, Task.parkedAs])
    · split_ifs at hs with hflag <;> obtain rfl := Option.some.inj hs
      · exact h.cancel (by simp [ht, Task.parkedAs])
      · exact h.setTask (hi.next (fun _ hk => absurd hk (by simp [Task.parkedAs]))
          (fun _ => rfl) trivial)
  all_goals simp [System.drop, ht] at hs

/-! ### Handles -/

theorem congr (h : Listens capacity saw s) {c : Internal T} (hq : c.queue = s.core.queue)
    (hn : c.queueLen = s.core.queueLen)
    (hqueues : ∀ side, c.asyncQueue side = s.core.asyncQueue side ∧
      c.syncQueue side = s.core.syncQueue side)
    (hclosed : s.core.closed .recv = true → c.closed .recv = true)
    (hflags : ∀ i, c.flags i = s.core.flags i ∨ i ∈ s.core.queues .send) :
    Listens capacity saw { s with core := c } := by
  refine ⟨h.sound.congr hq hn, fun i => (h.here i).mono ?_ ?_ ?_ hclosed ?_⟩
  · rw [(hqueues .send).1]
    exact id
  · rw [(hqueues .send).2]
    exact id
  · rw [Internal.queues, (hqueues .recv).1, (hqueues .recv).2]
    exact id
  · exact (hflags i).imp_right .inl

/-- The last sender tells every receiver that waits. -/
theorem closeSender_flags (c : Internal T) (i : ℕ) : c.closeSender.flags i = c.flags i ∨
    i ∈ c.waiters .recv ∧ c.closeSender.flags i = closedBuffered := by
  unfold Internal.closeSender
  dsimp only
  split_ifs
  · rw [Inv.finishAll_flags _ _ _ (by decide)]
    split_ifs with hi
    · exact .inr ⟨⟨mem_append.mpr hi.1.symm, hi.2⟩, rfl⟩
    · exact .inl rfl
  · exact .inl rfl

theorem closeReceiver_flags (c : Internal T) (i : ℕ) :
    (c.closeReceiver capacity).flags i = c.flags i ∨ i ∈ c.queues .send := by
  unfold Internal.closeReceiver
  dsimp only
  split_ifs with hlast
  all_goals
    rw [Inv.finishAll_flags _ _ _ (by decide)]
    split_ifs with hi
    case neg => exact .inl rfl
    refine .inr (mem_append.mpr ?_)
  · exact hi.1.symm
  · exact hi.1.symm
  · -- only the first of each queue is told
    rcases hi.1 with hi' | hi' <;> rw [Option.mem_toList] at hi'
    · exact .inr (mem_of_mem_head? hi')
    · exact .inl (mem_of_mem_head? hi')

theorem closeSender_frame (c : Internal T) : c.closeSender.queue = c.queue ∧
    c.closeSender.queueLen = c.queueLen ∧ ∀ side, c.closeSender.asyncQueue side =
      c.asyncQueue side ∧ c.closeSender.syncQueue side = c.syncQueue side := by
  unfold Internal.closeSender
  dsimp only
  split_ifs <;> exact ⟨rfl, rfl, fun side => by cases side <;> exact ⟨rfl, rfl⟩⟩

theorem closeReceiver_frame (capacity : UInt64) (c : Internal T) : (c.closeReceiver capacity).queue = c.queue ∧
    (c.closeReceiver capacity).queueLen = c.queueLen ∧
      ∀ side, (c.closeReceiver capacity).asyncQueue side = c.asyncQueue side ∧
        (c.closeReceiver capacity).syncQueue side = c.syncQueue side := by
  unfold Internal.closeReceiver
  dsimp only
  split_ifs <;> exact ⟨rfl, rfl, fun side => by cases side <;> exact ⟨rfl, rfl⟩⟩

theorem closeSender (h : Listens capacity saw s) (hpos : s.core.senderCount ≠ 0)
    (hsaw : ∀ i, saw i → saw' i)
    (htold : s.core.senderCount = 1 → ∀ i ∈ s.core.waiters .recv, (s.tasks i).goesByFlag →
      saw' i) : Listens capacity saw' { s with core := s.core.closeSender } := by
  obtain ⟨hq, hn, hqueues⟩ := closeSender_frame s.core
  by_cases hlast : s.core.senderCount = 1
  · have hclosed : s.core.closeSender.closed .recv = true := by
      simp [Internal.closeSender, Internal.closed, Internal.finishAll, hlast]
    exact ⟨h.sound.congr hq hn, fun i => (h.here i).tell hqueues hclosed
      (closeSender_flags s.core i) (hsaw i) (htold hlast i)⟩
  · have hmore : s.core.senderCount - 1 ≠ 0 := by omega
    have hcore : s.core.closeSender = { s.core with senderCount := s.core.senderCount - 1 } := by
      simp only [Internal.closeSender, if_neg hmore]
    refine (h.congr hq hn hqueues ?_ fun i => ?_).weaken fun i _ => hsaw i
    · simp [Internal.closed, hpos]
    · rw [hcore]
      exact .inl rfl

theorem closeReceiver (h : Listens capacity saw s) :
    Listens capacity saw { s with core := s.core.closeReceiver capacity } := by
  obtain ⟨hq, hn, hqueues⟩ := closeReceiver_frame capacity s.core
  refine h.congr hq hn hqueues ?_ (closeReceiver_flags s.core)
  unfold Internal.closeReceiver
  dsimp only
  split_ifs <;> exact id

/-- One step. A receive that starts relies on nothing yet; when the last sender leaves, those that
wait and go by their flag rely on what is seen then. -/
theorem step (h : Listens capacity saw s) (hpos : capacity ≠ 0) {a : Action T}
    (hs : s.step capacity a = some s')
    (hsaw : ∀ i, (s'.tasks i).goesByFlag → saw i → saw' i)
    (htold : a = .closeSender → s.core.senderCount = 1 → ∀ i ∈ s.core.waiters .recv,
      (s.tasks i).goesByFlag → saw' i) : Listens capacity saw' s' := by
  cases a
  case closeSender =>
    simp only [System.step] at hs
    split_ifs at hs with hcount
    obtain rfl := Option.some.inj hs
    have hclose : Listens capacity (fun i => saw i ∨ saw' i)
        { s with core := s.core.closeSender } :=
      h.closeSender hcount (fun _ => .inl) fun hlast i hi hflag =>
        .inr (htold rfl hlast i hi hflag)
    exact hclose.weaken fun i hflag hor => hor.elim (hsaw i hflag) id
  all_goals
    refine Listens.weaken ?_ hsaw
    simp only [System.step] at hs
  case trySend item =>
    obtain rfl := Option.some.inj hs
    exact h.send hpos false [item]
  case trySendBatch items =>
    obtain rfl := Option.some.inj hs
    exact h.send hpos true items
  case tryRecv =>
    obtain rfl := Option.some.inj hs
    exact h.recv hpos none
  case tryRecvBatch max =>
    obtain rfl := Option.some.inj hs
    exact h.recv hpos (some max)
  case startSend i k batch items =>
    split at hs <;> rename_i ht
    · split_ifs at hs
      obtain rfl := Option.some.inj hs
      have hi := h.here i
      rw [ht] at hi
      exact h.setTask (hi.next (fun _ hk => hk) id trivial)
    · cases hs
  case startRecv i k max =>
    have hi := h.here i
    split at hs <;> rename_i ht
    · split_ifs at hs
      obtain rfl := Option.some.inj hs
      rw [ht] at hi
      refine h.setTask (hi.next (fun _ hk => hk) (fun hk => absurd hk (by simp [Task.mayWait])) ?_)
      exact ⟨.inl hi.flag, fun _ => hi.flag⟩
    · obtain rfl := Option.some.inj hs
      rw [ht] at hi
      exact h.setTask (hi.next (fun _ hk => hk) (fun _ => rfl) ⟨hi.flag, by simp⟩)
    · cases hs
  case advance i => exact h.advance hpos hs
  case resume i => exact h.resume hs
  case timeout i => exact h.timeout hs
  case drop i => exact h.drop hs
  case cloneSender =>
    split_ifs at hs with hcount
    obtain rfl := Option.some.inj hs
    refine h.congr rfl rfl (fun side => by cases side <;> exact ⟨rfl, rfl⟩) ?_ fun _ => .inl rfl
    simp [Internal.closed, hcount]
  case cloneReceiver =>
    split_ifs at hs
    obtain rfl := Option.some.inj hs
    exact h.congr rfl rfl (fun side => by cases side <;> exact ⟨rfl, rfl⟩) id fun _ => .inl rfl
  case closeReceiver =>
    split_ifs at hs
    obtain rfl := Option.some.inj hs
    exact h.closeReceiver

end Listens

end System

/-! ### Closed handles -/

/-- An action, or the use of a closed handle. -/
inductive Event (T : Type*)
  | act (a : Action T)
  /-- a blocking receive on a closed handle -/
  | recvOnClosed (i : ℕ)
  /-- a closed sender is cloned when no sender is left -/
  | reviveSender

namespace System

variable {s s' : System T} {saw saw' : ℕ → Prop}

def react (capacity : UInt64) (s : System T) : Event T → Option (System T)
  | .act a => s.step capacity a
  | .recvOnClosed i =>
    match s.tasks i with
    | .fresh => some (s.setTask i .done)
    | _ => none
  | .reviveSender =>
    if s.core.senderCount = 0 then some { s with core := { s.core with senderCount := 1 } }
    else none

/-! ### No sender comes back -/

theorem send_closed (hpos : capacity ≠ 0) (h : s.core.Sound capacity) (batch : Bool)
    (items : List T) :
    (s.send capacity batch items).2.core.closed .recv = s.core.closed .recv := by
  obtain ⟨W, hwakes, -⟩ := (send_effect hpos h batch items).wakes
  simp only [Internal.closed, hwakes.senderCount]

theorem recv_closed (hpos : capacity ≠ 0) (h : s.core.Sound capacity) (max : Option UInt64) :
    (s.recv capacity max).2.core.closed .recv = s.core.closed .recv := by
  obtain ⟨W, hwakes, -⟩ := (recv_effect hpos h max).wakes
  simp only [Internal.closed, hwakes.senderCount]

theorem recvThen_closed (hpos : capacity ≠ 0) (h : s.core.Sound capacity) (i : ℕ) (k : RecvKind)
    (max : Option UInt64) (next : Task T) :
    (s.recvThen capacity i k max next).core.closed .recv = s.core.closed .recv := by
  rw [← recv_closed hpos h max]
  unfold System.recvThen
  dsimp only
  split
  · exact (Inv.returned _ i k).only.closed .recv
  · exact (Inv.returned _ i k).only.closed .recv
  · rfl

theorem advance_closed (hpos : capacity ≠ 0) (h : s.core.Sound capacity) {i : ℕ}
    (hs : s.advance capacity i = some s') : s'.core.closed .recv = s.core.closed .recv := by
  cases ht : s.tasks i <;> simp only [System.advance, ht, reduceCtorEq] at hs
  case sendTry k batch items =>
    split at hs <;> obtain rfl := Option.some.inj hs <;> exact send_closed hpos h batch items
  case sendRegister k batch items =>
    split_ifs at hs <;> obtain rfl := Option.some.inj hs
    · rfl
    · rfl
    · exact (Inv.onlyAt_parkSender s.core i k).closed .recv
  case sendWoken k batch items st =>
    obtain rfl := Option.some.inj hs
    exact (Inv.onlyAt_unlinkSender s.core i k).closed .recv
  case sendDropped k =>
    obtain rfl := Option.some.inj hs
    exact (Inv.onlyAt_unlinkSender s.core i k).closed .recv
  case recvRegister k max =>
    split_ifs at hs <;> obtain rfl := Option.some.inj hs
    · rfl
    · rfl
    · exact (Inv.returned s i k).only.closed .recv
    · exact (Inv.onlyAt_parkReceiver s.core i k).closed .recv
  case recvClosed k | recvDropped k =>
    obtain rfl := Option.some.inj hs
    exact (Inv.onlyAt_unlinkReceiver s.core i k).closed .recv
  all_goals
    obtain rfl := Option.some.inj hs
    exact recvThen_closed hpos h i _ _ _

theorem react_closed (hpos : capacity ≠ 0) (h : s.core.Sound capacity) {e : Event T}
    (he : e ≠ .reviveSender) (hs : s.react capacity e = some s')
    (hclosed : s.core.closed .recv = true) : s'.core.closed .recv = true := by
  rw [← hclosed]
  cases e with
  | reviveSender => exact absurd rfl he
  | recvOnClosed i =>
    simp only [System.react] at hs
    split at hs <;> cases hs
    rfl
  | act a =>
    cases a <;> simp only [System.react, System.step] at hs
    case trySend item =>
      obtain rfl := Option.some.inj hs
      exact send_closed hpos h false [item]
    case trySendBatch items =>
      obtain rfl := Option.some.inj hs
      exact send_closed hpos h true items
    case tryRecv =>
      obtain rfl := Option.some.inj hs
      exact recv_closed hpos h none
    case tryRecvBatch max =>
      obtain rfl := Option.some.inj hs
      exact recv_closed hpos h (some max)
    case startSend i k batch items =>
      split at hs <;> (try split_ifs at hs) <;> cases hs
      rfl
    case startRecv i k max =>
      split at hs <;> (try split_ifs at hs) <;> cases hs <;> rfl
    case advance i => exact advance_closed hpos h hs
    case resume i =>
      unfold System.resume at hs
      dsimp only at hs
      split at hs <;> (try split_ifs at hs) <;> cases hs <;> rfl
    case timeout i =>
      unfold System.timeout at hs
      split at hs <;> (try split_ifs at hs) <;> cases hs <;>
        first
        | exact (Inv.onlyAt_cancelFlag s.core .recv i).closed .recv
        | rfl
    case drop i =>
      unfold System.drop at hs
      split at hs <;> (try split_ifs at hs) <;> cases hs <;>
        first
        | exact (Inv.onlyAt_cancelFlag s.core .recv i).closed .recv
        | rfl
    case cloneSender =>
      split_ifs at hs with hcount
      exact absurd hclosed (by simp [Internal.closed, hcount])
    case cloneReceiver =>
      split_ifs at hs
      cases hs
      rfl
    case closeSender =>
      split_ifs at hs with hcount
      exact absurd hclosed (by simp [Internal.closed, hcount])
    case closeReceiver =>
      split_ifs at hs
      cases hs
      unfold Internal.closeReceiver
      dsimp only
      split_ifs <;> rfl

theorem Listens.react (h : Listens capacity saw s) (hpos : capacity ≠ 0) {e : Event T}
    (he : e ≠ .reviveSender) (hs : s.react capacity e = some s')
    (hsaw : ∀ i, (s'.tasks i).goesByFlag → saw i → saw' i)
    (htold : e = .act .closeSender → s.core.senderCount = 1 → ∀ i ∈ s.core.waiters .recv,
      (s.tasks i).goesByFlag → saw' i) : Listens capacity saw' s' := by
  cases e with
  | act a => exact h.step hpos hs hsaw fun ha => htold (congrArg Event.act ha)
  | recvOnClosed i =>
    simp only [System.react] at hs
    split at hs
    · rename_i ht
      obtain rfl := Option.some.inj hs
      have hi := h.here i
      rw [ht] at hi
      have hdone : Placed s.core (saw i) i .done := hi.next (fun _ hk => hk) (fun _ => rfl) trivial
      exact (h.setTask hdone).weaken hsaw
    · cases hs
  | reviveSender => exact absurd rfl he

end System

end Fibre.Channels.Mpmc
