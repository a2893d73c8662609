import Fibre.Channels.Mpmc.RecvSteps

/-!
# No waiter of the bounded MPMC channel is stranded

A wake-up is handed to one waiter, for one unit of space or one item. If that waiter always goes
on to use it, or passes through the locked section that finds nothing left, then whoever is still
queued in a quiescent state has nothing to wait for. Three paths drop a wake-up instead: a woken
future or stream that is dropped, a receive that completes while it is still queued, and a timed
receive that goes back to sleep without queueing again.
-/

namespace Fibre.Channels.Mpmc

open WaiterState Machine

variable {T : Type*} {capacity : UInt64}

namespace System

variable {s s' : System T}

/-- No operation is between its steps, and no woken waiter has yet to resume. -/
def Quiescent (s : System T) : Prop :=
  ∀ i, match s.tasks i with
    | .fresh | .done | .streamIdle => True
    | .sendParked _ _ _ | .recvParked _ _ | .timedAsleep => (s.core.flags i).finished = false
    | _ => False

/-- No sender is parked while there is room, and no receiver while there is an item. -/
def NoneStranded (capacity : UInt64) (s : System T) : Prop :=
  ∀ i, match s.tasks i with
    | .sendParked _ _ _ => s.core.queueLen = capacity
    | .recvParked _ _ | .timedAsleep => s.core.queueLen = 0
    | _ => True

/-- The step does not lose a wake-up that another waiter needs. -/
def KeepsWake (capacity : UInt64) (s : System T) : Action T → Prop
  -- a woken future or stream is dropped
  | .drop i =>
    match s.tasks i with
    | .sendParked _ _ _ => s.core.flags i = successSpace →
        s.core.waiters .send = ∅ ∨ s.core.queueLen = capacity
    | .recvParked _ _ => s.core.flags i = successSpace →
        s.core.waiters .recv = ∅ ∨ s.core.queueLen = 0
    | _ => True
  | .advance i =>
    match s.tasks i with
    -- a polled receive that is still queued takes an item
    | .recvTry _ _ => i ∈ s.core.waiters .recv → s.core.queueLen = 0 ∨ s.core.senderCount = 0
    -- a timed receive finds nothing outside the queue
    | .timedRetry => s.core.queueLen ≠ 0 ∨ s.core.senderCount = 0
    | _ => True
  | _ => True

namespace Inv

variable {i : ℕ}

/-! ### Every step -/

theorem advance (h : Inv capacity s) (hpos : capacity ≠ 0)
    (hkeeps : KeepsWake capacity s (.advance i)) (hs : s.advance capacity i = some s') :
    Inv capacity s' := by
  cases ht : s.tasks i <;> simp only [KeepsWake, ht] at hkeeps
  case sendRegister k batch items => exact h.sendRegister hpos ht hs
  case recvRegister k max => exact h.recvRegister ht hs
  all_goals simp only [System.advance, ht, reduceCtorEq] at hs
  case sendTry k batch items =>
    have hat := h.send.here i
    rw [ht] at hat
    split at hs <;> rename_i hstatus <;> obtain rfl := Option.some.inj hs
    · exact h.sendTry hpos ht (.inl ⟨rfl, hstatus, send_full_ne hstatus⟩)
    all_goals exact h.sendTry hpos ht (.inr ⟨rfl, by simp [hstatus]⟩)
  case sendWoken k batch items st =>
    obtain rfl := Option.some.inj hs
    exact h.sendWoken ht
  case sendDropped k =>
    obtain rfl := Option.some.inj hs
    exact h.sendDropped ht
  case recvTry k max =>
    obtain rfl := Option.some.inj hs
    exact h.recvTry hpos ht hkeeps
  case recvClosed k =>
    obtain rfl := Option.some.inj hs
    exact h.recvGone (.inl ht)
  case recvDropped k =>
    obtain rfl := Option.some.inj hs
    exact h.recvGone (.inr ht)
  case timedRetry =>
    obtain rfl := Option.some.inj hs
    exact h.timedRetry hpos ht hkeeps
  case timedFinal =>
    obtain rfl := Option.some.inj hs
    exact h.timedFinal hpos ht

theorem resume (h : Inv capacity s) (hs : s.resume i = some s') : Inv capacity s' := by
  cases ht : s.tasks i
  case sendParked k batch items =>
    simp only [System.resume, ht] at hs
    split_ifs at hs with hfin hk <;> cases hs
    · exact h.resumeSender ht hfin
    · exact h
  case recvParked k max => exact h.resumeReceiver ht hs
  case timedAsleep =>
    have hat := h.recv.here i
    rw [ht] at hat
    exact hat.elim
  all_goals simp [System.resume, ht] at hs

theorem timeout (h : Inv capacity s) (hs : s.timeout i = some s') : Inv capacity s' := by
  cases ht : s.tasks i
  case recvParked k max =>
    cases k <;> simp only [System.timeout, ht, reduceCtorEq] at hs
    split_ifs at hs with hflag <;> cases hs
    · refine h.cancelReceiver ht ?_
      intro hwoken
      rw [hflag] at hwoken
      cases hwoken
    · exact h.leaveReceiver ht hflag (.inl rfl)
  case timedAsleep =>
    have hat := h.recv.here i
    rw [ht] at hat
    exact hat.elim
  all_goals simp [System.timeout, ht] at hs

theorem drop (h : Inv capacity s) (hkeeps : KeepsWake capacity s (.drop i))
    (hs : s.drop i = some s') : Inv capacity s' := by
  cases ht : s.tasks i <;> simp only [KeepsWake, ht] at hkeeps
  case sendParked k batch items =>
    cases k <;> simp only [System.drop, ht, reduceCtorEq] at hs
    cases hs
    exact h.dropSender ht hkeeps
  case recvParked k max =>
    cases k <;> simp only [System.drop, ht, reduceCtorEq] at hs
    · cases hs
      exact h.cancelReceiver ht hkeeps
    · split_ifs at hs with hflag <;> cases hs
      · exact h.cancelReceiver ht hkeeps
      · exact h.leaveReceiver ht hflag (.inr ⟨rfl, hkeeps⟩)
  all_goals simp [System.drop, ht] at hs

theorem startSend (h : Inv capacity s) {k : SendKind} {batch : Bool} {items : List T}
    (ht : s.tasks i = .fresh) (hne : items ≠ []) :
    Inv capacity (s.setTask i (.sendTry k batch items)) := by
  have hat := h.send.here i
  rw [ht] at hat
  exact h.setTask .send (by rw [ht]; rfl) (fun _ hv => hv) ⟨hne, hat⟩ fun _ =>
    .inr (.inr fun _ _ => rfl)

theorem startRecv (h : Inv capacity s) {k : RecvKind} {max : Option UInt64}
    (ht : s.tasks i = .fresh ∨ s.tasks i = .streamIdle) :
    Inv capacity (s.setTask i (.recvTry k max)) := by
  have hat := h.recv.here i
  rcases ht with ht | ht <;> rw [ht] at hat <;>
    refine h.setTask .recv (by rw [ht]; rfl) (fun _ hv => hv) ?_ fun _ => .inr (.inr ?_)
  · exact .inr (.inl hat)
  · intro hact
    rw [ht] at hact
    cases hact
  · exact hat.imp_right .inl
  · intro hact
    rw [ht] at hact
    cases hact

theorem step (h : Inv capacity s) (hpos : capacity ≠ 0) {a : Action T}
    (hkeeps : KeepsWake capacity s a) (hs : s.step capacity a = some s') : Inv capacity s' := by
  cases a <;> simp only [System.step] at hs
  case trySend item =>
    cases hs
    exact h.trySend hpos false [item]
  case trySendBatch items =>
    cases hs
    exact h.trySend hpos true items
  case tryRecv =>
    cases hs
    exact h.tryRecv hpos none
  case tryRecvBatch max =>
    cases hs
    exact h.tryRecv hpos (some max)
  case startSend i k batch items =>
    split at hs <;> rename_i ht
    · split_ifs at hs with hbad
      cases hs
      exact h.startSend ht (fun hnil => hbad (.inl hnil))
    · cases hs
  case startRecv i k max =>
    split at hs
    · rename_i ht
      split_ifs at hs
      cases hs
      exact h.startRecv (.inl ht)
    · rename_i ht
      cases hs
      exact h.startRecv (.inr ht)
    · cases hs
  case advance i => exact h.advance hpos hkeeps hs
  case resume i => exact h.resume hs
  case timeout i => exact h.timeout hs
  case drop i => exact h.drop hkeeps hs
  case cloneSender =>
    split_ifs at hs with hcount
    cases hs
    refine h.congr rfl rfl rfl ?_ ?_ <;> intro side <;> cases side <;>
      first | exact ⟨rfl, rfl⟩ | rfl | simp [Internal.closed, hcount]
  case cloneReceiver =>
    split_ifs at hs with hcount
    cases hs
    refine h.congr rfl rfl rfl ?_ ?_ <;> intro side <;> cases side <;>
      first | exact ⟨rfl, rfl⟩ | rfl | simp [Internal.closed, hcount]
  case closeSender =>
    split_ifs at hs with hcount
    cases hs
    exact h.closeSender hcount
  case closeReceiver =>
    split_ifs at hs with hcount
    cases hs
    exact h.closeReceiver hpos hcount

theorem waits (h : Inv capacity s) (hquiet : s.Quiescent) (side : Side) (j : ℕ)
    (hact : (s.tasks j).active side) : j ∈ s.core.waiters side ∧ s.core.closed side = false := by
  have hq := hquiet j
  cases side with
  | send =>
    have hat := h.send.here j
    cases ht : s.tasks j <;> rw [ht] at hq hat hact <;> simp only [Task.active, reduceCtorEq] at hact
    case sendParked k batch items =>
      obtain ⟨-, -, hwoken | ⟨hfin, -⟩ | ⟨hflag, hqueued, hopen⟩⟩ := hat
      · have hwoken' : s.core.flags j = successSpace := hwoken
        rw [hwoken'] at hq
        cases hq
      · exact absurd hfin (Bool.eq_false_iff.mp hq)
      · exact ⟨(Internal.mem_waiters_iff j).mpr ⟨hqueued.not_unqueued, hflag⟩, hopen⟩
    all_goals exact hq.elim
  | recv =>
    have hat := h.recv.here j
    cases ht : s.tasks j <;> rw [ht] at hq hat hact <;> simp only [Task.active, reduceCtorEq] at hact
    case recvParked k max =>
      obtain ⟨-, ⟨hfin, -⟩ | ⟨hwoken, -⟩ | ⟨hflag, hqueued, hopen⟩⟩ := hat
      · exact absurd hfin (Bool.eq_false_iff.mp hq)
      · have hwoken' : s.core.flags j = successSpace := hwoken
        rw [hwoken'] at hq
        cases hq
      · exact ⟨(Internal.mem_waiters_iff j).mpr ⟨hqueued.not_unqueued, hflag⟩, hopen⟩
    all_goals exact hq.elim

theorem supply_eq_zero (h : Inv capacity s) (hquiet : s.Quiescent) (side : Side) {i : ℕ}
    (hact : (s.tasks i).active side) : s.core.supply capacity side = 0 := by
  obtain ⟨hi, hopen⟩ := h.waits hquiet side i hact
  have hcovered : Covered (s.core.supply capacity side) (s.core.waiters side)
      {j | (s.tasks j).active side} := by
    cases side with
    | send => exact h.send.covered hopen
    | recv => exact h.recv.covered hopen
  exact hcovered.eq_zero ⟨i, hi⟩ fun j hj => (h.waits hquiet side j hj).1

theorem noneStranded (h : Inv capacity s) (hquiet : s.Quiescent) : s.NoneStranded capacity := by
  intro i
  cases ht : s.tasks i <;> dsimp only
  case sendParked k batch items =>
    have hzero := h.supply_eq_zero hquiet .send (i := i) (by rw [ht]; rfl)
    have hle := h.sound.queueLen_le
    rw [← UInt64.toNat_inj]
    simp only [Internal.supply] at hzero
    omega
  case recvParked k max =>
    have hzero := h.supply_eq_zero hquiet .recv (i := i) (by rw [ht]; rfl)
    exact UInt64.toNat_inj.mp hzero
  case timedAsleep =>
    have hat := h.recv.here i
    rw [ht] at hat
    exact hat.elim

end Inv

/-- `Quiescent` at one task. -/
def quietAt (s : System T) (i : ℕ) : Bool :=
  match s.tasks i with
  | .fresh | .done | .streamIdle => true
  | .sendParked _ _ _ | .recvParked _ _ | .timedAsleep => !(s.core.flags i).finished
  | _ => false

theorem quiescent_of_quietAt (h : ∀ i, s.quietAt i) : s.Quiescent := by
  intro i
  have hi := h i
  unfold quietAt at hi
  split at hi <;> rename_i ht <;> simp_all

/-- Two senders wait for a full channel of capacity 1; one is woken by a receive. -/
def wokenSender : List (Action ℕ) :=
  [.trySend 0, .startSend 1 .async false [1], .advance 1, .advance 1,
    .startSend 2 .async false [2], .advance 2, .advance 2, .tryRecv]

/-- Steps that cannot drop a wake-up. -/
def harmless (s : System T) : Action T → Bool
  | .drop _ => false
  | .advance i =>
    match s.tasks i with
    | .recvTry _ _ | .timedRetry => false
    | _ => true
  | _ => true

theorem keepsWake_of_harmless (s : System T) (a : Action T) (h : harmless s a) :
    KeepsWake capacity s a := by
  cases a <;> simp only [harmless, KeepsWake] at h ⊢
  case drop => cases h
  case advance i => split at h <;> simp_all

end System

end Fibre.Channels.Mpmc
