import Fibre.Channels.Mpmc.SendSteps

/-!
# The steps of the receivers

The points of a receiver's code, from the first locked section to its return, and what happens when
handles are cloned and closed.
-/

namespace Fibre.Channels.Mpmc

open WaiterState List

variable {T : Type*} {capacity : UInt64}

namespace System

variable {s s' : System T} {side : Side}

namespace Inv

variable {i : ℕ}

/-! #### Receivers -/

/-- What a receive that returns leaves of the state. -/
structure Returned (i : ℕ) (s s' : System T) : Prop where
  only : OnlyAt .recv i s.core s'.core
  queues : s'.core.queues .recv = s.core.queues .recv
  task : s'.tasks i = .streamIdle ∨ s'.tasks i = .done
  tasks : ∀ j ≠ i, s'.tasks j = s.tasks j

theorem returned (s : System T) (i : ℕ) (k : RecvKind) : Returned i s (s.recvReturned i k) := by
  have hdone : Returned i s (s.setTask i .done) :=
    ⟨.refl _ _ _, rfl, .inr (setTask_tasks_self s i _), fun j hj => setTask_tasks_of_ne s _ hj⟩
  cases k with
  | sync => exact hdone
  | timed => exact hdone
  | future => exact hdone
  | stream =>
    have hflags : ∀ j ≠ i, (s.core.setFlag i waiting).flags j = s.core.flags j := by
      intro j hj
      simp [Internal.setFlag, hj]
    have hclosed : ∀ side, (s.core.setFlag i waiting).closed side = s.core.closed side := by
      intro side
      cases side <;> rfl
    refine ⟨⟨rfl, rfl, hclosed, ⟨rfl, rfl⟩, hflags, fun j hj => ?_⟩, rfl, ?_, fun j hj => ?_⟩
    · exact Internal.view_congr Iff.rfl Iff.rfl (hflags j hj) (hclosed _)
    · exact .inl (setTask_tasks_self _ i _)
    · exact setTask_tasks_of_ne { s with core := s.core.setFlag i waiting } _ hj

namespace Returned

variable {r : System T}

theorem foreign_send (hret : Returned i r s') : (s'.tasks i).foreign .send := by
  rcases hret.task with ht | ht <;> rw [ht] <;> rfl

theorem at_recv (hret : Returned i r s')
    (hclear : r.core.closed .recv = true ∨ (r.core.view .recv i).Unqueued) :
    At .recv (s'.core.view .recv i) (s'.tasks i) := by
  have hclear' : (s'.core.view .recv i).closed = true ∨ (s'.core.view .recv i).Unqueued := by
    rw [Internal.unqueued_iff] at hclear ⊢
    rw [hret.queues]
    exact hclear.imp_left (hret.only.closed .recv).trans
  rcases hret.task with ht | ht <;> rw [ht] <;> exact hclear'

theorem inv (hret : Returned i r s') (hbase : Inv capacity r) (hforeign : (r.tasks i).foreign .send)
    (hrecv : SideInv capacity .recv s') : Inv capacity s' := by
  refine ⟨hbase.sound.congr hret.only.queue hret.only.queueLen, ?_, ?_, hrecv⟩
  · intro hlt
    rw [Set.eq_empty_iff_forall_notMem]
    intro j hj
    have hq : s'.core.queues .send = r.core.queues .send :=
      congrArg₂ (· ++ ·) hret.only.other.1 hret.only.other.2
    have hjq : j ∈ r.core.queues .send := hq ▸ hj.1
    rcases eq_or_ne j i with rfl | hji
    · exact Bool.false_ne_true ((hbase.send.not_foreign hjq).symm.trans hforeign)
    · have hj' : j ∈ r.core.waiters .send := ⟨hjq, (hret.only.flags j hji).symm.trans hj.2⟩
      rw [hbase.big hlt] at hj'
      exact hj'
  · refine hbase.send.step_foreign i hforeign hret.tasks hret.only.other.1 hret.only.other.2
      hret.only.flags (hret.only.closed _) (le_of_eq ?_) ?_
    · simp only [Internal.supply, hret.only.queueLen]
    · intro v hv
      exact (at_foreign hret.foreign_send).mpr hv

end Returned

/-- The locked section of a receiver: it returns with what it took, or finds nothing. -/
theorem recvThen (h : Inv capacity s) (hpos : capacity ≠ 0) {k : RecvKind} {max : Option UInt64}
    {next : Task T} (hforeign : (s.tasks i).foreign .send)
    (hown : (s.tasks i).foreign .recv = false) (hnext : next.foreign .send)
    (hclear : s.core.queueLen ≠ 0 ∨ max = some 0 → s.core.closed .recv = true ∨
      (s.core.view .recv i).Unqueued)
    (hmax : max = some 0 → (s.tasks i).active .recv = false)
    (hempty : s.core.queueLen = 0 → s.core.senderCount ≠ 0 → max ≠ some 0 →
      RecvAt (s.core.view .recv i) next) :
    Inv capacity (s.recvThen capacity i k max next) := by
  have heffect := recv_effect hpos h.sound max
  have hbase := h.tryRecv hpos max
  obtain ⟨W, hwakes, -⟩ := heffect.wakes
  have hsame : ∀ j, SideInv.SameAt .recv s (s.recv capacity max).2 j := by
    intro j
    exact h.recv.sameAt_of_wakes h.send (by decide) hwakes rfl
  have hclosed : (s.recv capacity max).2.core.closed .recv = s.core.closed .recv := by
    simp only [Internal.closed, hwakes.senderCount]
  obtain ⟨ha, hs⟩ := hwakes.frame .recv (by decide)
  have hqueues : (s.recv capacity max).2.core.queues .recv = s.core.queues .recv := by
    rw [Internal.queues, ha, hs, Internal.queues]
  have hunqueued : ((s.recv capacity max).2.core.view .recv i).Unqueued ↔
      (s.core.view .recv i).Unqueued := by
    rw [Internal.unqueued_iff, hqueues, Internal.unqueued_iff]
  -- a receive that returns with an item, or finds the channel closed
  have hreturn : (s.recv capacity max).1 ≠ .empty →
      Inv capacity ((s.recv capacity max).2.recvReturned i k) := by
    intro hne
    have hret := returned (s.recv capacity max).2 i k
    have hclear' : (s.recv capacity max).2.core.closed .recv = true ∨
        ((s.recv capacity max).2.core.view .recv i).Unqueued := by
      rw [hclosed, hunqueued]
      cases houtcome : (s.recv capacity max).1 with
      | empty => exact absurd houtcome hne
      | disconnected => exact .inl (by simp [Internal.closed, heffect.disconnected houtcome])
      | ok items =>
        apply hclear
        by_cases hm : max = some 0
        · exact .inr hm
        · left
          intro hzero
          have hlt := heffect.taken items houtcome hm
          rw [hzero] at hlt
          exact absurd hlt (Nat.not_lt_zero _)
    refine hret.inv hbase hforeign (h.recv.move i ?_ ?_ ?_ (hret.at_recv hclear') ?_)
    · intro j hj
      obtain ⟨ht, hv⟩ := hsame j
      refine ⟨(hret.tasks j hj).trans ht, ?_⟩
      rwa [hret.only.view j hj]
    · rw [hret.only.closed, hclosed]
    · rw [hret.queues, hqueues]
      exact h.recv.nodup
    · intro hopen
      have hu := hclear'.resolve_left (by rw [hclosed, hopen]; exact Bool.false_ne_true)
      have hu' : ¬ i ∈ ((s.recv capacity max).2.recvReturned i k).core.waiters .recv := by
        intro hw
        have := (Internal.unqueued_iff i).mp hu
        rw [← hret.queues] at this
        exact this hw.1
      refine .inr (.inr ⟨fun hw => absurd hw hu', ?_⟩)
      have hlen : ((s.recv capacity max).2.recvReturned i k).core.supply capacity .recv =
          (s.recv capacity max).2.core.queueLen.toNat := by
        simp only [Internal.supply, hret.only.queueLen]
      rw [hlen]
      by_cases hm : max = some 0
      · refine .inr ⟨heffect.shrinks, ?_⟩
        intro hact
        rw [hmax hm] at hact
        cases hact
      · left
        cases houtcome : (s.recv capacity max).1 with
        | empty => exact absurd houtcome hne
        | disconnected =>
          simp [Internal.closed, heffect.disconnected houtcome] at hopen
        | ok items => exact heffect.taken items houtcome hm
  unfold System.recvThen
  dsimp only
  split
  · rename_i items houtcome
    exact hreturn (by simp [houtcome])
  · rename_i houtcome
    exact hreturn (by simp [houtcome])
  · -- nothing to take: the receiver goes on as `next`
    rename_i houtcome
    obtain ⟨hzero, hopen, hm⟩ := heffect.empty houtcome
    have hzero' : (s.recv capacity max).2.core.queueLen.toNat = 0 := by
      have hle := heffect.shrinks
      rw [hzero] at hle
      exact Nat.le_zero.mp hle
    have hat := hempty hzero hopen hm
    refine hbase.setTask .recv hforeign (fun _ hv => (at_foreign hnext).mpr hv) ?_
      fun _ => .inl hzero'
    obtain ⟨-, hv | ⟨hf, -⟩⟩ := hsame i
    · rw [hv]
      exact hat
    · exact absurd (hown.symm.trans hf) Bool.false_ne_true

/-! The points of a receiver. -/

theorem recvTry (h : Inv capacity s) (hpos : capacity ≠ 0) {k : RecvKind} {max : Option UInt64}
    (ht : s.tasks i = .recvTry k max)
    (hkeeps : i ∈ s.core.waiters .recv → s.core.queueLen = 0 ∨ s.core.senderCount = 0) :
    Inv capacity (s.recvThen capacity i k max (.recvRegister k max)) := by
  have hat := h.recv.here i
  rw [ht] at hat
  refine h.recvThen hpos (by rw [ht]; rfl) (by rw [ht]; rfl) rfl ?_ ?_ ?_
  · intro hsome
    rcases hat with hclosed | hu | ⟨hm, -, hflag, hqueued⟩
    · exact .inl hclosed
    · exact .inr hu
    · have hw : i ∈ s.core.waiters .recv := by
        rw [Internal.mem_waiters_iff]
        refine ⟨fun hu => ?_, hflag⟩
        exact Bool.false_ne_true (hu.1.symm.trans hqueued.2)
      rcases hkeeps hw with hzero | hclosed
      · rcases hsome with hsome | hsome
        · exact absurd hzero hsome
        · exact absurd hsome hm
      · exact .inl (by simp [Internal.closed, hclosed])
  · rintro rfl
    rw [ht]
    rfl
  · intro _ _ hm
    exact ⟨hm, hat.imp_right (Or.imp_right fun hp => hp.2)⟩

theorem timedRetry (h : Inv capacity s) (hpos : capacity ≠ 0) (ht : s.tasks i = .timedRetry)
    (hkeeps : s.core.queueLen ≠ 0 ∨ s.core.senderCount = 0) :
    Inv capacity (s.recvThen capacity i .timed none .timedAsleep) := by
  have hat := h.recv.here i
  rw [ht] at hat
  refine h.recvThen hpos (by rw [ht]; rfl) (by rw [ht]; rfl) rfl (fun _ => hat) (by simp) ?_
  intro hzero hopen
  exact absurd hkeeps (not_or.mpr ⟨not_not.mpr hzero, hopen⟩)

theorem timedFinal (h : Inv capacity s) (hpos : capacity ≠ 0) (ht : s.tasks i = .timedFinal) :
    Inv capacity (s.recvThen capacity i .timed none .done) := by
  have hat := h.recv.here i
  rw [ht] at hat
  exact h.recvThen hpos (by rw [ht]; rfl) (by rw [ht]; rfl) rfl (fun _ => hat) (by simp)
    fun _ _ _ => hat

theorem onlyAt_parkReceiver (c : Internal T) (i : ℕ) (k : RecvKind) :
    OnlyAt .recv i c (parkReceiver c i k) := by
  have hflags : ∀ j ≠ i, (parkReceiver c i k).flags j = c.flags j := by
    intro j hj
    cases k <;> unfold parkReceiver <;> (try split_ifs) <;> simp [Internal.setFlag, hj]
  have hclosed : ∀ side, (parkReceiver c i k).closed side = c.closed side := by
    intro side
    cases k <;> cases side <;> unfold parkReceiver <;> (try split_ifs) <;> rfl
  refine ⟨(parkReceiver_queue c i k).1, (parkReceiver_queue c i k).2, hclosed, ?_, hflags, ?_⟩
  · cases k <;> unfold parkReceiver <;> (try split_ifs) <;> exact ⟨rfl, rfl⟩
  · intro j hj
    refine Internal.view_congr ?_ ?_ (hflags j hj) (hclosed _) <;> cases k <;>
      unfold parkReceiver <;> (try split_ifs) <;>
      simp [Internal.asyncQueue, Internal.syncQueue, Internal.setFlag, hj]

theorem view_parkReceiver (c : Internal T) {i : ℕ} (k : RecvKind) (hu : i ∉ c.queues .recv) :
    (parkReceiver c i k).view .recv i = ⟨k.isAsync, !k.isAsync, waiting, c.closed .recv⟩ := by
  rw [Internal.queues, mem_append, not_or] at hu
  obtain ⟨ha, hs⟩ := hu
  simp only [Internal.asyncQueue] at ha
  simp only [Internal.syncQueue] at hs
  have hclosed := (onlyAt_parkReceiver c i k).closed .recv
  refine View.ext ?_ ?_ ?_ hclosed <;> cases k <;>
    simp [parkReceiver, Internal.view, Internal.setFlag, Internal.asyncQueue, Internal.syncQueue,
      RecvKind.isAsync, ha, hs]

theorem parkReceiver_of_mem (c : Internal T) {i : ℕ} {k : RecvKind} (hk : k.isAsync)
    (hi : i ∈ c.waitingAsyncReceivers) : parkReceiver c i k = c := by
  cases k with
  | sync => cases hk
  | timed => cases hk
  | future => simp [parkReceiver, hi]
  | stream => simp [parkReceiver, hi]

theorem nodup_parkReceiver {c : Internal T} {i : ℕ} (k : RecvKind) (h : (c.queues .recv).Nodup)
    (hu : i ∉ c.queues .recv) : ((parkReceiver c i k).queues .recv).Nodup := by
  obtain ⟨hfst, hsnd⟩ := Internal.nodup_push h hu
  have ha : i ∉ c.waitingAsyncReceivers := fun hi => hu (mem_append_left _ hi)
  cases k with
  | sync => exact hsnd
  | timed => exact hsnd
  | future =>
    rw [parkReceiver, if_neg ha]
    exact hfst
  | stream =>
    rw [parkReceiver, if_neg ha]
    exact hfst

theorem queueLen_of_recvRecheck {k : RecvKind} (h : s.core.Sound capacity)
    (hre : ¬ recvRecheck capacity s.core k) : s.core.queueLen = 0 := by
  have hiff := h.isEmpty_iff
  unfold recvRecheck at hre
  cases k <;> simp_all [Internal.isEmpty]

theorem recvRegister (h : Inv capacity s) {k : RecvKind} {max : Option UInt64}
    (ht : s.tasks i = .recvRegister k max) (hs : s.advance capacity i = some s') :
    Inv capacity s' := by
  have hat := h.recv.here i
  have hforeign : (s.tasks i).foreign .send := by
    rw [ht]
    rfl
  rw [ht] at hat
  obtain ⟨hmax, hwhere⟩ := hat
  simp only [System.advance, ht] at hs
  by_cases hre : recvRecheck capacity s.core k
  · rw [if_pos hre] at hs
    obtain rfl := Option.some.inj hs
    by_cases hk : k = .timed
    · rw [if_pos hk]
      refine h.setTask .recv hforeign (fun _ hv => hv) ?_ fun _ => .inr (.inr fun _ _ => rfl)
      rcases hwhere with hclosed | hu | ⟨hasync, -⟩
      · exact .inl hclosed
      · exact .inr hu
      · rw [hk] at hasync
        cases hasync
    · rw [if_neg hk]
      refine h.setTask .recv hforeign (fun _ hv => hv) ?_ fun _ => .inr (.inr fun _ _ => ?_)
      · exact hwhere.imp_right (Or.imp_right fun hp => ⟨hmax, hp⟩)
      · simpa [Task.active] using hmax
  · rw [if_neg hre] at hs
    have hzero := queueLen_of_recvRecheck h.sound hre
    split_ifs at hs with hcount <;> obtain rfl := Option.some.inj hs
    · -- every sender is gone
      have hclosed : s.core.closed .recv = true := by simp [Internal.closed, hcount]
      have hret := returned s i k
      refine hret.inv h hforeign (h.recv.move i ?_ (hret.only.closed _) ?_
        (hret.at_recv (.inl hclosed)) ?_)
      · intro j hj
        exact ⟨hret.tasks j hj, .inl (hret.only.view j hj)⟩
      · rw [hret.queues]
        exact h.recv.nodup
      · intro hopen
        rw [hclosed] at hopen
        cases hopen
    · have hopen : s.core.closed .recv = false := by simp [Internal.closed, hcount]
      have hsupply : s.core.supply capacity .recv = 0 := by
        rw [Internal.supply, hzero]
        rfl
      rcases hwhere with hclosed | hu | ⟨hasync, hflag, hqueued⟩
      · exact absurd hclosed (Bool.eq_false_iff.mp hopen)
      · have hu' := (Internal.unqueued_iff i).mp hu
        refine h.moveTask .recv (onlyAt_parkReceiver s.core i k) hforeign (fun _ hv => hv)
          (nodup_parkReceiver k h.recv.nodup hu') ?_ (by simp) fun _ => .inl hsupply
        rw [view_parkReceiver s.core k hu']
        refine ⟨hmax, .inr (.inr ⟨rfl, ?_, hopen⟩)⟩
        cases k <;> exact ⟨rfl, rfl⟩
      · -- a future that was polled while it waited
        have hmem : i ∈ s.core.waitingAsyncReceivers := of_decide_eq_true hqueued.2
        rw [parkReceiver_of_mem s.core hasync hmem]
        refine h.setTask .recv hforeign (fun _ hv => hv) ?_ fun _ => .inl hsupply
        refine ⟨hmax, .inr (.inr ⟨hflag, ?_, hopen⟩)⟩
        rwa [hasync]

theorem onlyAt_unlinkReceiver (c : Internal T) (i : ℕ) (k : RecvKind) :
    OnlyAt .recv i c (unlinkReceiver c i k) := by
  have hflags : ∀ j ≠ i, (unlinkReceiver c i k).flags j = c.flags j := by
    intro j _
    cases k <;> rfl
  have hclosed : ∀ side, (unlinkReceiver c i k).closed side = c.closed side := by
    intro side
    cases k <;> cases side <;> rfl
  refine ⟨(unlinkReceiver_queue c i k).1, (unlinkReceiver_queue c i k).2, hclosed, ?_, hflags, ?_⟩
  · cases k <;> exact ⟨rfl, rfl⟩
  · intro j hj
    refine Internal.view_congr ?_ ?_ (hflags j hj) (hclosed _) <;> cases k <;>
      simp [unlinkReceiver, Internal.asyncQueue, Internal.syncQueue, hj]

theorem view_unlinkReceiver (c : Internal T) {i : ℕ} (k : RecvKind)
    (hown : (c.view .recv i).Own k.isAsync) :
    ((unlinkReceiver c i k).view .recv i).Unqueued := by
  rw [Internal.unqueued_iff, Internal.queues, mem_append, not_or]
  cases k <;> refine ⟨?_, ?_⟩ <;>
    first
    | exact of_decide_eq_false hown
    | simp [unlinkReceiver, Internal.asyncQueue, Internal.syncQueue]

theorem nodup_unlinkReceiver {c : Internal T} (i : ℕ) (k : RecvKind)
    (h : (c.queues .recv).Nodup) : ((unlinkReceiver c i k).queues .recv).Nodup := by
  refine h.sublist ?_
  cases k with
  | sync => exact (Sublist.refl _).append filter_sublist
  | timed => exact (Sublist.refl _).append filter_sublist
  | future => exact filter_sublist.append (Sublist.refl _)
  | stream => exact filter_sublist.append (Sublist.refl _)

theorem recvGone (h : Inv capacity s) {k : RecvKind}
    (ht : s.tasks i = .recvClosed k ∨ s.tasks i = .recvDropped k) :
    Inv capacity ({ s with core := unlinkReceiver s.core i k }.setTask i .done) := by
  have hat := h.recv.here i
  have hforeign : (s.tasks i).foreign .send := by
    rcases ht with ht | ht <;> rw [ht] <;> rfl
  have hact : (s.tasks i).active .recv = false := by
    rcases ht with ht | ht <;> rw [ht] <;> rfl
  have hclear : s.core.closed .recv = true ∨ (s.core.view .recv i).Own k.isAsync := by
    rcases ht with ht | ht <;> rw [ht] at hat
    · exact .inl hat
    · exact hat.imp_right fun hp => hp.1
  have honly := onlyAt_unlinkReceiver s.core i k
  refine h.moveTask .recv honly hforeign (fun _ hv => hv) (nodup_unlinkReceiver i k h.recv.nodup)
    ?_ (by simp) ?_
  · rcases hclear with hclosed | hown
    · exact .inl ((honly.closed .recv).trans hclosed)
    · exact .inr (view_unlinkReceiver s.core k hown)
  · intro hopen
    have hown := hclear.resolve_left (Bool.eq_false_iff.mp hopen)
    refine .inr (.inr ⟨fun hw => absurd hw (notMem_waiters (view_unlinkReceiver s.core k hown)), ?_⟩)
    intro hact'
    rw [hact] at hact'
    cases hact'

theorem parked_cases (h : Inv capacity s) {k : RecvKind} {max : Option UInt64}
    (ht : s.tasks i = .recvParked k max) : max ≠ some 0 ∧
      (((s.core.flags i).finished ∧ s.core.closed .recv = true) ∨
        (s.core.flags i = successSpace ∧ (s.core.view .recv i).Unqueued) ∨
        (s.core.flags i = waiting ∧ (s.core.view .recv i).Queued k.isAsync ∧
          i ∈ s.core.waiters .recv)) := by
  have hat := h.recv.here i
  rw [ht] at hat
  refine ⟨hat.1, hat.2.imp_right (Or.imp_right ?_)⟩
  rintro ⟨hflag, hqueued, -⟩
  exact ⟨hflag, hqueued, (Internal.mem_waiters_iff i).mpr ⟨hqueued.not_unqueued, hflag⟩⟩

theorem resumeReceiver (h : Inv capacity s) {k : RecvKind} {max : Option UInt64}
    (ht : s.tasks i = .recvParked k max) (hs : s.resume i = some s') : Inv capacity s' := by
  obtain ⟨hmax, hflag⟩ := h.parked_cases ht
  have hforeign : (s.tasks i).foreign .send := by
    rw [ht]
    rfl
  -- a receiver that tries again, woken or not
  have htry : k.isAsync ∨ (s.core.flags i).finished →
      Inv capacity (s.setTask i (.recvTry k max)) := by
    intro hk
    refine h.setTask .recv hforeign (fun _ hv => hv) ?_ fun _ => .inr (.inr fun _ _ => ?_)
    · rcases hflag with ⟨-, hclosed⟩ | ⟨-, hu⟩ | ⟨hwaiting, hqueued, -⟩
      · exact .inl hclosed
      · exact .inr (.inl hu)
      · rcases hk with hk | hfin
        · exact .inr (.inr ⟨hmax, hk, hwaiting, hk ▸ hqueued⟩)
        · rw [hwaiting] at hfin
          cases hfin
    · simpa [Task.active] using hmax
  have hdone : (s.core.flags i).finished → (s.core.flags i).closed →
      Inv capacity (s.setTask i (.recvClosed k)) := by
    intro hfin hc
    have hclosed : s.core.closed .recv = true := by
      rcases hflag with ⟨-, hclosed⟩ | ⟨hwoken, -⟩ | ⟨hwaiting, -⟩
      · exact hclosed
      · rw [hwoken] at hc
        cases hc
      · rw [hwaiting] at hfin
        cases hfin
    refine h.setTask .recv hforeign (fun _ hv => hv) hclosed ?_
    intro hopen
    rw [hclosed] at hopen
    cases hopen
  have htimed : (s.core.flags i).finished → Inv capacity (s.setTask i .timedRetry) := by
    intro hfin
    refine h.setTask .recv hforeign (fun _ hv => hv) ?_ fun _ => .inr (.inr fun _ _ => rfl)
    rcases hflag with ⟨-, hclosed⟩ | ⟨-, hu⟩ | ⟨hwaiting, -⟩
    · exact .inl hclosed
    · exact .inr hu
    · rw [hwaiting] at hfin
      cases hfin
  cases k <;> simp only [System.resume, ht] at hs
  case sync =>
    split_ifs at hs with hfin hc hk <;> cases hs
    · exact hdone hfin hc
    · exact htry (.inr hfin)
    · exact hk.elim
  case timed =>
    split_ifs at hs with hfin
    cases hs
    exact htimed hfin
  case future =>
    split_ifs at hs with hfin hc <;> cases hs
    · exact hdone hfin hc
    · exact htry (.inr hfin)
    · exact htry (.inl rfl)
  case stream =>
    cases hs
    exact htry (.inl rfl)

theorem cancelReceiver (h : Inv capacity s) {k : RecvKind} {max : Option UInt64}
    (ht : s.tasks i = .recvParked k max) (hkeeps : s.core.flags i = successSpace →
      s.core.waiters .recv = ∅ ∨ s.core.queueLen = 0) :
    Inv capacity ({ s with core := cancelFlag s.core i }.setTask i (.recvDropped k)) := by
  obtain ⟨-, hflag⟩ := h.parked_cases ht
  refine h.cancel .recv (by rw [ht]; rfl) (fun _ hv => hv) ?_ ?_
  · intro v hv ha hs hc
    rcases hflag with ⟨-, hclosed⟩ | ⟨-, hu⟩ | ⟨-, hqueued, -⟩
    · exact .inl (hc.trans hclosed)
    · refine .inr ⟨?_, hv⟩
      unfold View.Own
      split_ifs
      · exact hs.trans hu.2
      · exact ha.trans hu.1
    · refine .inr ⟨?_, hv⟩
      have hown := hqueued.1
      unfold View.Own at hown ⊢
      split_ifs at hown ⊢
      · exact hs.trans hown
      · exact ha.trans hown
  · intro hopen
    rcases hflag with ⟨-, hclosed⟩ | ⟨hwoken, -⟩ | ⟨-, -, hw⟩
    · exact absurd hclosed (Bool.eq_false_iff.mp hopen)
    · rcases hkeeps hwoken with hempty | hzero
      · exact .inr (.inr hempty)
      · refine .inr (.inl ?_)
        rw [Internal.supply, hzero]
        rfl
    · exact .inl hw

theorem leaveReceiver (h : Inv capacity s) {k : RecvKind} {max : Option UInt64} {t : Task T}
    (ht : s.tasks i = .recvParked k max) (hne : s.core.flags i ≠ waiting)
    (htask : t = .timedFinal ∨ t = .done ∧ (s.core.flags i = successSpace →
      s.core.waiters .recv = ∅ ∨ s.core.queueLen = 0)) : Inv capacity (s.setTask i t) := by
  obtain ⟨-, hflag⟩ := h.parked_cases ht
  have hclear : s.core.closed .recv = true ∨ (s.core.view .recv i).Unqueued := by
    rcases hflag with ⟨-, hclosed⟩ | ⟨-, hu⟩ | ⟨hwaiting, -⟩
    · exact .inl hclosed
    · exact .inr hu
    · exact absurd hwaiting hne
  rcases htask with rfl | ⟨rfl, hkeeps⟩
  · exact h.setTask .recv (by rw [ht]; rfl) (fun _ hv => hv) hclear fun _ =>
      .inr (.inr fun _ _ => rfl)
  · refine h.setTask .recv (by rw [ht]; rfl) (fun _ hv => hv) hclear ?_
    intro hopen
    rcases hflag with ⟨-, hclosed⟩ | ⟨hwoken, -⟩ | ⟨hwaiting, -⟩
    · exact absurd hclosed (Bool.eq_false_iff.mp hopen)
    · rcases hkeeps hwoken with hempty | hzero
      · exact .inr (.inl hempty)
      · left
        rw [Internal.supply, hzero]
        rfl
    · exact absurd hwaiting hne

/-! #### Handles -/

theorem congr (h : Inv capacity s) {c : Internal T} (hq : c.queue = s.core.queue)
    (hn : c.queueLen = s.core.queueLen) (hflags : c.flags = s.core.flags)
    (hqueues : ∀ side, c.asyncQueue side = s.core.asyncQueue side ∧
      c.syncQueue side = s.core.syncQueue side)
    (hclosed : ∀ side, c.closed side = s.core.closed side) : Inv capacity { s with core := c } := by
  have hside : ∀ side, SideInv capacity side s → SideInv capacity side { s with core := c } := by
    intro side hs
    obtain ⟨ha, hsync⟩ := hqueues side
    refine hs.frame ?_ (hclosed side) ?_ (le_of_eq ?_)
    · intro j
      exact ⟨rfl, .inl (Internal.view_congr (by rw [ha]) (by rw [hsync]) (by rw [hflags])
        (hclosed side))⟩
    · rw [Internal.queues, ha, hsync]
      exact hs.nodup
    · cases side <;> simp only [Internal.supply, hn]
  refine ⟨h.sound.congr hq hn, ?_, hside _ h.send, hside _ h.recv⟩
  intro hlt
  rw [← h.big hlt]
  obtain ⟨ha, hsync⟩ := hqueues .send
  simp only [Internal.waiters, Internal.queues, ha, hsync, hflags]

theorem finishAll_flags (c : Internal T) (q₁ q₂ : List ℕ) {st : WaiterState} (hst : st ≠ waiting)
    (j : ℕ) : ((c.finishAll q₁ st).finishAll q₂ st).flags j =
      if (j ∈ q₁ ∨ j ∈ q₂) ∧ c.flags j = waiting then st else c.flags j := by
  simp only [Internal.finishAll]
  split_ifs <;> simp_all

theorem finish (h : Inv capacity s) (side : Side) {c : Internal T} (hq : c.queue = s.core.queue)
    (hn : c.queueLen = s.core.queueLen)
    (hqueues : ∀ side, c.asyncQueue side = s.core.asyncQueue side ∧
      c.syncQueue side = s.core.syncQueue side)
    (hclosed : c.closed side.other = s.core.closed side.other)
    (hflags : ∀ j, c.flags j = s.core.flags j ∨ j ∈ s.core.queues side ∧ c.flags j ≠ waiting)
    (hown : SideInv capacity side { s with core := c }) : Inv capacity { s with core := c } := by
  have hother : ∀ side', side' ≠ side → side' = side.other := by
    intro side' hne
    cases side <;> cases side' <;> simp_all [Side.other]
  have hq' : ∀ side, c.queues side = s.core.queues side := by
    intro side
    rw [Internal.queues, (hqueues side).1, (hqueues side).2, Internal.queues]
  have hframe : ∀ side' ≠ side, SideInv capacity side' s → SideInv capacity side s →
      SideInv capacity side' { s with core := c } := by
    intro side' hne hs hs'
    obtain ⟨ha, hsync⟩ := hqueues side'
    have hc : c.closed side' = s.core.closed side' := by rw [hother side' hne, hclosed]
    refine hs.frame ?_ hc ((hq' side') ▸ hs.nodup) (le_of_eq ?_)
    · intro j
      refine hs.sameAt hs' hne ha hsync hc ?_ rfl
      intro hj
      exact (hflags j).resolve_right fun hp => hj hp.1
    · cases side' <;> simp only [Internal.supply, hn]
  refine ⟨h.sound.congr hq hn, ?_, ?_, ?_⟩
  · intro hlt
    rw [Set.eq_empty_iff_forall_notMem]
    intro j hj
    have hj' : j ∈ s.core.waiters .send := by
      refine ⟨(hq' .send) ▸ hj.1, ?_⟩
      rcases hflags j with hf | hf
      · exact hf.symm.trans hj.2
      · exact absurd hj.2 hf.2
    rw [h.big hlt] at hj'
    exact hj'
  · cases side with
    | send => exact hown
    | recv => exact hframe .send (by decide) h.send h.recv
  · cases side with
    | send => exact hframe .recv (by decide) h.recv h.send
    | recv => exact hown

/-- The last handle of one side goes: every waiter of the other side is told. -/
theorem close (h : Inv capacity s) (side : Side) {c : Internal T} {st : WaiterState}
    (hst : st.finished) (hq : c.queue = s.core.queue) (hn : c.queueLen = s.core.queueLen)
    (hqueues : ∀ side, c.asyncQueue side = s.core.asyncQueue side ∧
      c.syncQueue side = s.core.syncQueue side)
    (hclosed : c.closed side.other = s.core.closed side.other) (hnow : c.closed side = true)
    (hflags : ∀ j, c.flags j = if j ∈ s.core.queues side ∧ s.core.flags j = waiting then st
      else s.core.flags j) : Inv capacity { s with core := c } := by
  have hwaiting : st ≠ waiting := by
    rintro rfl
    cases hst
  have hs : SideInv capacity side s := by
    cases side with
    | send => exact h.send
    | recv => exact h.recv
  obtain ⟨ha, hsync⟩ := hqueues side
  refine h.finish side hq hn hqueues hclosed ?_ ⟨?_, ?_, ?_⟩
  · intro j
    rw [hflags j]
    split_ifs with hj
    · exact .inr ⟨hj.1, hwaiting⟩
    · exact .inl rfl
  · intro j
    have hat := hs.here j
    have hview : c.view side j = { s.core.view side j with flag := c.flags j, closed := true } := by
      simp only [Internal.view, ha, hsync, hnow]
    rw [hview]
    refine hat.close hst rfl rfl rfl ?_ ?_
    · intro hqueued hflag
      rw [Internal.unqueued_iff, not_not] at hqueued
      have hflag' : s.core.flags j = waiting := hflag
      dsimp only
      rw [hflags j, if_pos ⟨hqueued, hflag'⟩]
    · intro hflag
      dsimp only
      rw [hflags j, if_neg]
      · rfl
      · exact fun hp => hflag hp.2
  · rw [Internal.queues, ha, hsync]
    exact hs.nodup
  · intro hopen
    rw [hnow] at hopen
    cases hopen

theorem closeSender (h : Inv capacity s) (hpos : s.core.senderCount ≠ 0) :
    Inv capacity { s with core := s.core.closeSender } := by
  unfold Internal.closeSender
  dsimp only
  split_ifs with hlast
  · refine h.close .recv (rfl : closedBuffered.finished = true) rfl rfl ?_ ?_ ?_ ?_
    · intro side
      cases side <;> exact ⟨rfl, rfl⟩
    · rfl
    · simp [Internal.closed, Internal.finishAll, hlast]
    · intro j
      rw [finishAll_flags _ _ _ (by decide)]
      simp only [Internal.queues, Internal.asyncQueue, Internal.syncQueue, mem_append, or_comm]
  · refine h.congr rfl rfl rfl ?_ ?_
    · intro side
      cases side <;> exact ⟨rfl, rfl⟩
    · intro side
      cases side with
      | send => rfl
      | recv => simp [Internal.closed, hlast, hpos]

theorem closeReceiver (h : Inv capacity s) (hcap : capacity ≠ 0) (hpos : s.core.receiverCount ≠ 0) :
    Inv capacity { s with core := s.core.closeReceiver capacity } := by
  unfold Internal.closeReceiver
  dsimp only
  split_ifs with hlast
  · refine h.close .send (rfl : closedBuffered.finished = true) rfl rfl ?_ ?_ ?_ ?_
    · intro side
      cases side <;> exact ⟨rfl, rfl⟩
    · rfl
    · simp [Internal.closed, Internal.finishAll, hlast]
    · intro j
      rw [finishAll_flags _ _ _ (by decide)]
      simp only [Internal.queues, Internal.asyncQueue, Internal.syncQueue, mem_append, or_comm]
  · -- the first waiters are woken where they are
    have hclosed : ∀ side, Internal.closed
        ((Internal.finishAll { s.core with receiverCount := s.core.receiverCount - 1 }
          s.core.waitingSyncSenders.head?.toList successSpace).finishAll
          s.core.waitingAsyncSenders.head?.toList successSpace) side = s.core.closed side := by
      intro side
      cases side with
      | send => simp [Internal.closed, Internal.finishAll, hlast, hpos]
      | recv => rfl
    have hflags : ∀ j, ((Internal.finishAll
          { s.core with receiverCount := s.core.receiverCount - 1 }
          s.core.waitingSyncSenders.head?.toList successSpace).finishAll
          s.core.waitingAsyncSenders.head?.toList successSpace).flags j = s.core.flags j ∨
        j ∈ s.core.queues .send ∧ s.core.flags j = waiting ∧ ((Internal.finishAll
          { s.core with receiverCount := s.core.receiverCount - 1 }
          s.core.waitingSyncSenders.head?.toList successSpace).finishAll
          s.core.waitingAsyncSenders.head?.toList successSpace).flags j = successSpace := by
      intro j
      rw [finishAll_flags _ _ _ (by decide)]
      split_ifs with hj
      · refine .inr ⟨?_, hj.2, rfl⟩
        rw [Internal.queues, mem_append]
        rcases hj.1 with hj' | hj' <;> rw [Option.mem_toList] at hj'
        · exact .inr (mem_of_mem_head? hj')
        · exact .inl (mem_of_mem_head? hj')
      · exact .inl rfl
    refine h.finish .send rfl rfl ?_ rfl ?_ ⟨?_, h.send.nodup, ?_⟩
    · intro side
      cases side <;> exact ⟨rfl, rfl⟩
    · intro j
      refine (hflags j).imp_right ?_
      rintro ⟨hj, -, hf⟩
      rw [hf]
      exact ⟨hj, by decide⟩
    · intro j
      refine SendAt.wake (h.send.here j) rfl rfl (hclosed .send) ((hflags j).imp_right ?_)
      rintro ⟨hj, hf⟩
      rw [Internal.unqueued_iff, not_not]
      exact ⟨hj, hf⟩
    · intro hopen
      rw [hclosed] at hopen
      refine (h.send.covered hopen).mono le_rfl ?_ fun _ hj _ => hj
      intro j hj
      refine ⟨hj.1, ?_⟩
      rcases hflags j with hf | ⟨-, hf, -⟩
      · exact hf.symm.trans hj.2
      · exact hf

end Inv

end System

end Fibre.Channels.Mpmc
