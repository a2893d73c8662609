import Fibre.Channels.Mpmc.Sides

/-!
# The steps of the senders

The invariant of the bounded MPMC channel, and the steps that senders and callers from outside take.
-/

namespace Fibre.Channels.Mpmc

open WaiterState List

variable {T : Type*} {capacity : UInt64}

namespace System

variable {s s' : System T} {side : Side}

/-! ### The invariant along the steps -/

@[simp] theorem send_tasks (s : System T) (batch : Bool) (items : List T) :
    (s.send capacity batch items).2.tasks = s.tasks := by
  unfold System.send
  split
  · dsimp only
    split <;> rfl
  · rfl

@[simp] theorem recv_tasks (s : System T) (max : Option UInt64) :
    (s.recv capacity max).2.tasks = s.tasks := rfl

@[simp] theorem setTask_core (s : System T) (i : ℕ) (t : Task T) :
    (s.setTask i t).core = s.core := rfl

@[simp] theorem setTask_tasks_self (s : System T) (i : ℕ) (t : Task T) :
    (s.setTask i t).tasks i = t := by
  simp [System.setTask]

theorem setTask_tasks_of_ne (s : System T) {i j : ℕ} (t : Task T) (hj : j ≠ i) :
    (s.setTask i t).tasks j = s.tasks j := by
  simp [System.setTask, hj]

/-- The invariant of the channel. -/
structure Inv (capacity : UInt64) (s : System T) : Prop where
  sound : s.core.Sound capacity
  /-- a buffer without slots never parks a sender -/
  big : 2 ^ 63 < capacity.toNat → s.core.waiters .send = ∅
  send : SideInv capacity .send s
  recv : SideInv capacity .recv s

namespace Inv

variable {i : ℕ}

theorem init : Inv capacity (init capacity : System T) where
  sound := Internal.sound_new
  big := by
    intro _
    ext i
    simp [Internal.waiters, Internal.queues, System.init, Internal.new, Internal.asyncQueue,
      Internal.syncQueue]
  send := by
    refine ⟨fun i => ?_, nodup_nil, fun _ => .of_empty ?_⟩
    · exact (at_foreign rfl).mpr ⟨rfl, rfl⟩
    · ext i
      simp [Internal.waiters, Internal.queues, System.init, Internal.new, Internal.asyncQueue,
        Internal.syncQueue]
  recv := by
    refine ⟨fun i => ?_, nodup_nil, fun _ => .of_empty ?_⟩
    · exact (at_foreign rfl).mpr ⟨rfl, rfl⟩
    · ext i
      simp [Internal.waiters, Internal.queues, System.init, Internal.new, Internal.asyncQueue,
        Internal.syncQueue]

theorem waiters_send_subset (h : Inv capacity s) {W : Finset ℕ}
    (hwakes : Internal.Wakes .recv s.core s'.core W) (htasks : s'.tasks = s.tasks) :
    s'.core.waiters .send ⊆ s.core.waiters .send := by
  intro j hj
  exact (h.send.sameAt_of_wakes h.recv (by decide) hwakes (congrFun htasks j)).mem_waiters hj

theorem supply_send_le (s s' : System T)
    (hle : s.core.queueLen.toNat ≤ s'.core.queueLen.toNat) :
    s'.core.supply capacity .send ≤ s.core.supply capacity .send :=
  Nat.sub_le_sub_left hle _

theorem recv_of_send (h : Inv capacity s) (hpos : capacity ≠ 0) (batch : Bool) (items : List T) :
    SideInv capacity .recv (s.send capacity batch items).2 := by
  obtain ⟨W, hwakes, henough⟩ := (send_effect hpos h.sound batch items).wakes
  exact h.recv.wake hwakes (send_tasks s batch items) henough

theorem send_of_recv (h : Inv capacity s) (hpos : capacity ≠ 0) (max : Option UInt64) :
    SideInv capacity .send (s.recv capacity max).2 := by
  have heffect := recv_effect hpos h.sound max
  obtain ⟨W, hwakes, henough⟩ := heffect.wakes
  refine h.send.wake hwakes (recv_tasks s max) (henough.imp_right ?_)
  intro hcard
  have hle := heffect.sound.queueLen_le
  have hle' := h.sound.queueLen_le
  simp only [Internal.supply]
  omega

theorem trySend (h : Inv capacity s) (hpos : capacity ≠ 0) (batch : Bool) (items : List T) :
    Inv capacity (s.send capacity batch items).2 := by
  have heffect := send_effect hpos h.sound batch items
  obtain ⟨W, hwakes, -⟩ := heffect.wakes
  have htasks : (s.send capacity batch items).2.tasks = s.tasks := send_tasks s batch items
  obtain ⟨ha, hs⟩ := hwakes.frame .send (by decide)
  have hqueues : (s.send capacity batch items).2.core.queues .send = s.core.queues .send := by
    rw [Internal.queues, ha, hs, Internal.queues]
  refine ⟨heffect.sound, ?_, ?_, h.recv_of_send hpos batch items⟩
  · intro hbig
    exact Set.subset_empty_iff.mp ((h.waiters_send_subset hwakes htasks).trans_eq (h.big hbig))
  · refine h.send.frame ?_ ?_ (hqueues ▸ h.send.nodup) (supply_send_le s _ heffect.grows)
    · intro j
      exact h.send.sameAt_of_wakes h.recv (by decide) hwakes (congrFun htasks j)
    · simp only [Internal.closed, hwakes.receiverCount]

/-- A receive from outside. -/
theorem tryRecv (h : Inv capacity s) (hpos : capacity ≠ 0) (max : Option UInt64) :
    Inv capacity (s.recv capacity max).2 := by
  have heffect := recv_effect hpos h.sound max
  obtain ⟨W, hwakes, -⟩ := heffect.wakes
  obtain ⟨ha, hs⟩ := hwakes.frame .recv (by decide)
  have hqueues : (s.recv capacity max).2.core.queues .recv = s.core.queues .recv := by
    rw [Internal.queues, ha, hs, Internal.queues]
  refine ⟨heffect.sound, ?_, h.send_of_recv hpos max, ?_⟩
  · intro hbig
    ext j
    rw [hwakes.mem_waiters, h.big hbig]
    simp
  · refine h.recv.frame ?_ ?_ (hqueues ▸ h.recv.nodup) heffect.shrinks
    · intro j
      exact h.recv.sameAt_of_wakes h.send (by decide) hwakes rfl
    · simp only [Internal.closed, hwakes.senderCount]

/-! #### Senders -/

theorem sendTry (h : Inv capacity s) (hpos : capacity ≠ 0) {k : SendKind} {batch : Bool}
    {items : List T} (ht : s.tasks i = .sendTry k batch items) {t : Task T}
    (htask : t = .sendRegister k batch (s.send capacity batch items).1.2 ∧
        (s.send capacity batch items).1.1 = .full ∧ (s.send capacity batch items).1.2 ≠ [] ∨
      t = .done ∧ (s.send capacity batch items).1.1 ≠ .full) :
    Inv capacity ((s.send capacity batch items).2.setTask i t) := by
  have heffect := send_effect hpos h.sound batch items
  have hbase := h.trySend hpos batch items
  obtain ⟨W, hwakes, -⟩ := heffect.wakes
  have hat := h.send.here i
  rw [ht] at hat
  obtain ⟨hne, hu⟩ := hat
  -- the sender's own queues are untouched
  have hu' : ((s.send capacity batch items).2.core.view .send i).Unqueued := by
    obtain ⟨ha, hs⟩ := hwakes.frame .send (by decide)
    rw [Internal.unqueued_iff, Internal.queues, ha, hs, ← Internal.queues, ← Internal.unqueued_iff]
    exact hu
  refine ⟨hbase.sound, hbase.big, ?_, ?_⟩
  · refine h.send.move i ?_ ?_ hbase.send.nodup ?_ ?_
    · intro j hj
      have hwakes' : Internal.Wakes .recv s.core
        ((s.send capacity batch items).2.setTask i t).core W := hwakes
      refine h.send.sameAt_of_wakes h.recv (by decide) hwakes' ?_
      rw [setTask_tasks_of_ne _ t hj, send_tasks]
    · simp only [setTask_core, Internal.closed, hwakes.receiverCount]
    · rw [setTask_tasks_self, setTask_core]
      rcases htask with ⟨rfl, -, hrest⟩ | ⟨rfl, -⟩
      · exact ⟨hrest, hu'⟩
      · exact hu'
    · intro hopen
      have hopen' : s.core.receiverCount ≠ 0 := by simpa [Internal.closed] using hopen
      rw [setTask_core]
      cases hstatus : (s.send capacity batch items).1.1 with
      | full =>
        left
        rw [Internal.supply, heffect.full hstatus, Nat.sub_self]
      | closed => exact absurd (heffect.closed hstatus) hopen'
      | pushFailed => exact .inr (.inl (hbase.big (heffect.failed hstatus)))
      | complete =>
        refine .inr (.inr ⟨fun hw => absurd hu' ((Internal.mem_waiters_iff i).mp hw).1, .inl ?_⟩)
        have hlt := heffect.complete hstatus hne
        have hle := heffect.sound.queueLen_le
        simp only [Internal.supply]
        omega
  · refine hbase.recv.step_foreign i ?_ (fun j hj => setTask_tasks_of_ne _ t hj) rfl rfl
      (fun _ _ => rfl) rfl le_rfl ?_
    · rw [send_tasks, ht]
      rfl
    · rw [setTask_tasks_self]
      rcases htask with ⟨rfl, -, -⟩ | ⟨rfl, -⟩
      · exact fun v hv => hv
      · exact fun v hv => .inr hv

theorem send_full_ne {batch : Bool} {items : List T}
    (hfull : (s.send capacity batch items).1.1 = .full) :
    (s.send capacity batch items).1.2 ≠ [] := by
  have hloop : ∀ (items : List T) (c : Internal T),
      (Internal.sendBatchLoop capacity items c).1.1 = .full →
      (Internal.sendBatchLoop capacity items c).1.2 ≠ [] := by
    intro items
    induction items with
    | nil => simp [Internal.sendBatchLoop]
    | cons item rest ih =>
      intro c
      unfold Internal.sendBatchLoop
      dsimp only
      generalize (if c.isFull capacity then (false, c) else c.popReceiver) = r
      split_ifs
      · split
        · exact ih _
        · simp
      · simp
      · split
        · exact ih _
        · simp
      · simp
  unfold System.send at hfull ⊢
  split at hfull
  · dsimp only at hfull ⊢
    split at hfull <;> simp_all
  · unfold Internal.trySendBatchCore at hfull ⊢
    split_ifs at hfull ⊢
    exact hloop _ _ hfull

theorem queueLen_of_recheck (h : s.core.Sound capacity) (hpos : capacity ≠ 0)
    (hre : ¬ sendRecheck capacity s.core) : s.core.queueLen = capacity := by
  by_contra hne
  have hlt : s.core.queueLen < capacity := by
    by_contra hlt
    exact hne (h.queueLen_eq hlt)
  have hgt : capacity > 0 := UInt64.pos_iff_ne_zero.mpr hpos
  apply hre
  simp [sendRecheck, Internal.isFull, hpos, hne, hlt, hgt]

/-- The locked state changes only in what concerns the waiter `i` of one side. -/
structure OnlyAt (side : Side) (i : ℕ) (c c' : Internal T) : Prop where
  queue : c'.queue = c.queue
  queueLen : c'.queueLen = c.queueLen
  closed : ∀ side, c'.closed side = c.closed side
  other : c'.asyncQueue side.other = c.asyncQueue side.other ∧
    c'.syncQueue side.other = c.syncQueue side.other
  flags : ∀ j ≠ i, c'.flags j = c.flags j
  view : ∀ j ≠ i, c'.view side j = c.view side j

theorem OnlyAt.refl (side : Side) (i : ℕ) (c : Internal T) : OnlyAt side i c c :=
  ⟨rfl, rfl, fun _ => rfl, ⟨rfl, rfl⟩, fun _ _ => rfl, fun _ _ => rfl⟩

/-- A task moves, and only its own queue entry and flag change. -/
theorem moveTask (h : Inv capacity s) (side : Side) {c : Internal T}
    (honly : OnlyAt side i s.core c) {t : Task T} (hforeign : (s.tasks i).foreign side.other)
    (ht : ∀ v : View, v.Unqueued → At side.other v t)
    (hnodup : (c.queues side).Nodup) (hi : At side (c.view side i) t)
    (hbig : 2 ^ 63 < capacity.toNat → side = .send → i ∉ c.waiters .send)
    (hsupply : s.core.closed side = false → s.core.supply capacity side = 0 ∨
      c.waiters side = ∅ ∨ ((i ∈ c.waiters side → i ∈ s.core.waiters side) ∧
        ((s.tasks i).active side → i ∉ s.core.waiters side → t.active side))) :
    Inv capacity ({ s with core := c }.setTask i t) := by
  have hlen : ∀ side, ({ s with core := c }.setTask i t).core.supply capacity side =
      s.core.supply capacity side := by
    intro side
    cases side <;> simp only [setTask_core, Internal.supply, honly.queueLen]
  have hown : SideInv capacity side ({ s with core := c }.setTask i t) := by
    have hs : SideInv capacity side s := by
      cases side with
      | send => exact h.send
      | recv => exact h.recv
    refine hs.move i ?_ (honly.closed side) hnodup (by rwa [setTask_tasks_self]) ?_
    · intro j hj
      exact ⟨setTask_tasks_of_ne _ t hj, .inl (honly.view j hj)⟩
    · intro hopen
      rw [setTask_tasks_self, hlen]
      exact (hsupply hopen).imp_right (Or.imp_right fun hw => ⟨hw.1, .inr ⟨le_rfl, hw.2⟩⟩)
  have hother : SideInv capacity side.other ({ s with core := c }.setTask i t) := by
    have hs : SideInv capacity side.other s := by
      cases side with
      | send => exact h.recv
      | recv => exact h.send
    exact hs.step_foreign i hforeign (fun j hj => setTask_tasks_of_ne _ t hj) honly.other.1
      honly.other.2 honly.flags (honly.closed _) (hlen _).le (by rwa [setTask_tasks_self])
  have hsame : ∀ j ≠ i, j ∈ c.waiters .send → j ∈ s.core.waiters .send := by
    intro j hj hw
    have hview : c.view .send j = s.core.view .send j := by
      cases side with
      | send => exact honly.view j hj
      | recv =>
        have ha : c.asyncQueue .send = s.core.asyncQueue .send := honly.other.1
        have hs : c.syncQueue .send = s.core.syncQueue .send := honly.other.2
        exact Internal.view_congr (by rw [ha]) (by rw [hs]) (honly.flags j hj) (honly.closed _)
    rw [Internal.mem_waiters_iff] at hw ⊢
    rwa [← hview]
  refine ⟨h.sound.congr honly.queue honly.queueLen, ?_, ?_, ?_⟩
  · intro hlt
    rw [Set.eq_empty_iff_forall_notMem]
    intro j hj
    rcases eq_or_ne j i with rfl | hji
    · cases side with
      | send => exact hbig hlt rfl hj
      | recv =>
        -- a receiver is in no queue of senders
        have hq : c.queues .send = s.core.queues .send :=
          congrArg₂ (· ++ ·) honly.other.1 honly.other.2
        have hnot := h.send.not_foreign (hq ▸ hj.1)
        exact Bool.false_ne_true (hnot.symm.trans hforeign)
    · have hj' := hsame j hji hj
      rw [h.big hlt] at hj'
      exact hj'
  · cases side with
    | send => exact hown
    | recv => exact hother
  · cases side with
    | send => exact hother
    | recv => exact hown

theorem setTask (h : Inv capacity s) (side : Side) {t : Task T}
    (hforeign : (s.tasks i).foreign side.other) (ht : ∀ v : View, v.Unqueued → At side.other v t)
    (hi : At side (s.core.view side i) t)
    (hact : s.core.closed side = false → s.core.supply capacity side = 0 ∨
      s.core.waiters side = ∅ ∨
      ((s.tasks i).active side → i ∉ s.core.waiters side → t.active side)) :
    Inv capacity (s.setTask i t) := by
  refine h.moveTask side (.refl side i s.core) hforeign ht ?_ hi ?_ ?_
  · cases side with
    | send => exact h.send.nodup
    | recv => exact h.recv.nodup
  · intro hlt _
    rw [h.big hlt]
    exact Set.notMem_empty i
  · intro hopen
    exact (hact hopen).imp_right (Or.imp_right fun hw => ⟨fun hw => hw, hw⟩)

/-! #### Senders -/

theorem onlyAt_parkSender (c : Internal T) (i : ℕ) (k : SendKind) :
    OnlyAt .send i c (parkSender c i k) := by
  have hflags : ∀ j ≠ i, (parkSender c i k).flags j = c.flags j := by
    intro j hj
    cases k <;> simp [parkSender, Internal.setFlag, hj]
  have hclosed : ∀ side, (parkSender c i k).closed side = c.closed side := by
    intro side
    cases k <;> cases side <;> rfl
  cases k <;> refine ⟨rfl, rfl, hclosed, ⟨rfl, rfl⟩, hflags, fun j hj => ?_⟩
  · refine Internal.view_congr Iff.rfl ?_ (hflags j hj) rfl
    simp [parkSender, Internal.syncQueue, hj]
  · refine Internal.view_congr ?_ Iff.rfl (hflags j hj) rfl
    simp [parkSender, Internal.asyncQueue, hj]

theorem view_parkSender (c : Internal T) {i : ℕ} (k : SendKind) (hu : i ∉ c.queues .send) :
    (parkSender c i k).view .send i = ⟨k.isAsync, !k.isAsync, waiting, c.closed .send⟩ := by
  rw [Internal.queues, mem_append, not_or] at hu
  obtain ⟨ha, hs⟩ := hu
  simp only [Internal.asyncQueue] at ha
  simp only [Internal.syncQueue] at hs
  cases k <;> refine View.ext ?_ ?_ ?_ rfl <;> simp [parkSender, Internal.view,
    Internal.setFlag, Internal.asyncQueue, Internal.syncQueue, SendKind.isAsync, ha, hs]

theorem onlyAt_unlinkSender (c : Internal T) (i : ℕ) (k : SendKind) :
    OnlyAt .send i c (unlinkSender c i k) := by
  have hflags : ∀ j ≠ i, (unlinkSender c i k).flags j = c.flags j := by
    intro j _
    cases k <;> rfl
  have hclosed : ∀ side, (unlinkSender c i k).closed side = c.closed side := by
    intro side
    cases k <;> cases side <;> rfl
  cases k <;> refine ⟨rfl, rfl, hclosed, ⟨rfl, rfl⟩, hflags, fun j hj => ?_⟩
  · refine Internal.view_congr Iff.rfl ?_ (hflags j hj) rfl
    simp [unlinkSender, Internal.syncQueue, hj]
  · refine Internal.view_congr ?_ Iff.rfl (hflags j hj) rfl
    simp [unlinkSender, Internal.asyncQueue, hj]

theorem view_unlinkSender (c : Internal T) {i : ℕ} (k : SendKind)
    (hown : (c.view .send i).Own k.isAsync) : ((unlinkSender c i k).view .send i).Unqueued := by
  rw [Internal.unqueued_iff, Internal.queues, mem_append, not_or]
  cases k with
  | sync => exact ⟨of_decide_eq_false hown, by simp [unlinkSender, Internal.syncQueue]⟩
  | async => exact ⟨by simp [unlinkSender, Internal.asyncQueue], of_decide_eq_false hown⟩

theorem notMem_waiters {c : Internal T} {side : Side} {i : ℕ} (hu : (c.view side i).Unqueued) :
    i ∉ c.waiters side := by
  intro hw
  exact ((Internal.mem_waiters_iff i).mp hw).1 hu

theorem sendRegister (h : Inv capacity s) (hpos : capacity ≠ 0) {k : SendKind} {batch : Bool}
    {items : List T} (ht : s.tasks i = .sendRegister k batch items)
    (hs : s.advance capacity i = some s') : Inv capacity s' := by
  have hat := h.send.here i
  have hforeign : (s.tasks i).foreign .recv := by
    rw [ht]
    rfl
  rw [ht] at hat
  simp only [System.advance, ht] at hs
  split_ifs at hs with hre hcount <;> obtain rfl := Option.some.inj hs
  · exact h.setTask .send hforeign (fun _ hv => hv) hat fun _ => .inr (.inr fun _ _ => rfl)
  · -- every receiver is gone
    refine h.setTask .send hforeign (fun _ hv => .inr hv) hat.2 ?_
    intro hopen
    simp [Internal.closed, hcount] at hopen
  · have hfull := queueLen_of_recheck h.sound hpos hre
    have hu := (Internal.unqueued_iff i).mp hat.2
    have hview := view_parkSender s.core k hu
    refine h.moveTask .send (onlyAt_parkSender s.core i k) hforeign (fun _ hv => hv) ?_ ?_ ?_ ?_
    · obtain ⟨hfst, hsnd⟩ := Internal.nodup_push h.send.nodup hu
      cases k with
      | sync => exact hsnd
      | async => exact hfst
    · rw [hview]
      refine ⟨hat.1, ?_, .inr (.inr ⟨rfl, ?_, ?_⟩)⟩
      · cases k <;> rfl
      · cases k <;> exact ⟨rfl, rfl⟩
      · simpa [Internal.closed] using hcount
    · -- the buffer without slots is never full
      intro hbig _
      exact absurd (hfull.symm.trans (h.sound.queueLen_eq_zero hbig)) hpos
    · intro _
      left
      rw [Internal.supply, hfull, Nat.sub_self]

theorem unlink (h : Inv capacity s) {k : SendKind} {t : Task T}
    (hforeign : (s.tasks i).foreign .recv) (ht : ∀ v : View, v.Unqueued → At .recv v t)
    (hown : (s.core.view .send i).Own k.isAsync) (hi : ∀ v : View, v.Unqueued → SendAt v t)
    (hact : s.core.closed .send = false → (s.tasks i).active .send → t.active .send) :
    Inv capacity ({ s with core := unlinkSender s.core i k }.setTask i t) := by
  have hu := view_unlinkSender s.core k hown
  refine h.moveTask .send (onlyAt_unlinkSender s.core i k) hforeign ht ?_ (hi _ hu)
    (fun _ _ => notMem_waiters hu) ?_
  · refine h.send.nodup.sublist ?_
    cases k with
    | sync => exact (Sublist.refl _).append filter_sublist
    | async => exact filter_sublist.append (Sublist.refl _)
  · intro hopen
    exact .inr (.inr ⟨fun hw => absurd hw (notMem_waiters hu), fun hw _ => hact hopen hw⟩)

theorem sendWoken (h : Inv capacity s) {k : SendKind} {batch : Bool} {items : List T}
    {st : WaiterState} (ht : s.tasks i = .sendWoken k batch items st) :
    Inv capacity ({ s with core := unlinkSender s.core i k }.setTask i
      (if st.closed then .done else .sendTry k batch items)) := by
  have hat := h.send.here i
  have hforeign : (s.tasks i).foreign .recv := by
    rw [ht]
    rfl
  rw [ht] at hat
  obtain ⟨hne, hown, -, hst⟩ := hat
  by_cases hclosed : st.closed
  · rw [if_pos hclosed]
    refine h.unlink hforeign (fun _ hv => .inr hv) hown (fun _ hv => hv) ?_
    intro hopen
    exact absurd (hst hclosed) (Bool.eq_false_iff.mp hopen)
  · rw [if_neg hclosed]
    exact h.unlink hforeign (fun _ hv => hv) hown (fun _ hv => ⟨hne, hv⟩) fun _ _ => rfl

theorem sendDropped (h : Inv capacity s) {k : SendKind} (ht : s.tasks i = .sendDropped k) :
    Inv capacity ({ s with core := unlinkSender s.core i k }.setTask i .done) := by
  have hat := h.send.here i
  have hforeign : (s.tasks i).foreign .recv := by
    rw [ht]
    rfl
  rw [ht] at hat
  refine h.unlink hforeign (fun _ hv => .inr hv) hat.1 (fun _ hv => hv) ?_
  intro _ hact
  rw [ht] at hact
  cases hact

theorem onlyAt_cancelFlag (c : Internal T) (side : Side) (i : ℕ) :
    OnlyAt side i c (cancelFlag c i) := by
  unfold cancelFlag
  split_ifs
  · have hflags : ∀ j ≠ i, (c.setFlag i cancelled).flags j = c.flags j := by
      intro j hj
      simp [Internal.setFlag, hj]
    have hclosed : ∀ side, (c.setFlag i cancelled).closed side = c.closed side := by
      intro side
      cases side <;> rfl
    refine ⟨rfl, rfl, hclosed, ?_, hflags, fun j hj => ?_⟩
    · cases side <;> exact ⟨rfl, rfl⟩
    · cases side <;> exact Internal.view_congr Iff.rfl Iff.rfl (hflags j hj) (hclosed _)
  · exact .refl side i c

theorem view_cancelFlag (c : Internal T) (side : Side) (i : ℕ) :
    (cancelFlag c i).view side i = { c.view side i with flag := (cancelFlag c i).flags i } := by
  unfold cancelFlag
  split_ifs <;> cases side <;> rfl

theorem cancelFlag_self (c : Internal T) (i : ℕ) : (cancelFlag c i).flags i ≠ waiting := by
  unfold cancelFlag
  split_ifs with hflag
  · simp [Internal.setFlag]
  · exact hflag

theorem queues_cancelFlag (c : Internal T) (side : Side) (i : ℕ) :
    (cancelFlag c i).queues side = c.queues side := by
  unfold cancelFlag
  split_ifs <;> cases side <;> rfl

theorem cancel (h : Inv capacity s) (side : Side) {t : Task T}
    (hforeign : (s.tasks i).foreign side.other) (ht : ∀ v : View, v.Unqueued → At side.other v t)
    (hi : ∀ v : View, v.flag ≠ waiting → v.async = (s.core.view side i).async →
      v.sync = (s.core.view side i).sync → v.closed = s.core.closed side → At side v t)
    (hwake : s.core.closed side = false → i ∈ s.core.waiters side ∨
      s.core.supply capacity side = 0 ∨ s.core.waiters side = ∅) :
    Inv capacity ({ s with core := cancelFlag s.core i }.setTask i t) := by
  have hview := view_cancelFlag s.core side i
  have hflag := cancelFlag_self s.core i
  have hnot : i ∉ (cancelFlag s.core i).waiters side := fun hw => hflag hw.2
  have hsub : (cancelFlag s.core i).waiters side ⊆ s.core.waiters side := by
    intro j hj
    have hji : j ≠ i := fun hji => hnot (hji ▸ hj)
    rw [Internal.mem_waiters_iff] at hj ⊢
    rwa [(onlyAt_cancelFlag s.core side i).view j hji] at hj
  refine h.moveTask side (onlyAt_cancelFlag s.core side i) hforeign ht ?_ ?_ ?_ ?_
  · rw [queues_cancelFlag]
    cases side with
    | send => exact h.send.nodup
    | recv => exact h.recv.nodup
  · rw [hview]
    exact hi _ hflag rfl rfl rfl
  · intro _ _ hw
    exact hflag hw.2
  · intro hopen
    rcases hwake hopen with hi | hzero | hempty
    · exact .inr (.inr ⟨fun hw => absurd hw hnot, fun _ hnot => absurd hi hnot⟩)
    · exact .inl hzero
    · exact .inr (.inl (Set.subset_empty_iff.mp (hempty ▸ hsub)))

theorem dropSender (h : Inv capacity s) {batch : Bool} {items : List T}
    (ht : s.tasks i = .sendParked .async batch items)
    (hkeeps : s.core.flags i = successSpace →
      s.core.waiters .send = ∅ ∨ s.core.queueLen = capacity) :
    Inv capacity ({ s with core := cancelFlag s.core i }.setTask i (.sendDropped .async)) := by
  have hat := h.send.here i
  have hforeign : (s.tasks i).foreign .recv := by
    rw [ht]
    rfl
  rw [ht] at hat
  obtain ⟨-, hown, hflag⟩ := hat
  refine h.cancel .send hforeign (fun _ hv => hv) ?_ ?_
  · intro v hv _ hs _
    exact ⟨hs.trans hown, hv⟩
  · intro hopen
    rcases hflag with hwoken | ⟨-, hclosed⟩ | ⟨hwaiting, hqueued, -⟩
    · rcases hkeeps hwoken with hempty | hfull
      · exact .inr (.inr hempty)
      · refine .inr (.inl ?_)
        rw [Internal.supply, hfull, Nat.sub_self]
    · exact absurd hclosed (Bool.eq_false_iff.mp hopen)
    · left
      rw [Internal.mem_waiters_iff]
      refine ⟨fun hu => ?_, hwaiting⟩
      exact Bool.false_ne_true (hu.1.symm.trans hqueued.2)

theorem resumeSender (h : Inv capacity s) {k : SendKind} {batch : Bool} {items : List T}
    (ht : s.tasks i = .sendParked k batch items) (hfin : (s.core.flags i).finished) :
    Inv capacity (s.setTask i (.sendWoken k batch items (s.core.flags i))) := by
  have hat := h.send.here i
  have hforeign : (s.tasks i).foreign .recv := by
    rw [ht]
    rfl
  rw [ht] at hat
  obtain ⟨hne, hown, hflag⟩ := hat
  refine h.setTask .send hforeign (fun _ hv => hv) ⟨hne, hown, ?_, ?_⟩ fun _ =>
    .inr (.inr fun _ _ => rfl)
  · intro hwaiting
    have hwaiting' : s.core.flags i = waiting := hwaiting
    rw [hwaiting'] at hfin
    cases hfin
  · intro hclosed
    rcases hflag with hwoken | ⟨-, hc⟩ | ⟨hwaiting, -, -⟩
    · have hwoken' : s.core.flags i = successSpace := hwoken
      rw [hwoken'] at hclosed
      cases hclosed
    · exact hc
    · have hwaiting' : s.core.flags i = waiting := hwaiting
      rw [hwaiting'] at hfin
      cases hfin

end Inv

end System

end Fibre.Channels.Mpmc
