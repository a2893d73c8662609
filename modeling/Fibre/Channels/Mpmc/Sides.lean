import Fibre.Math.Handover
import Fibre.Channels.Mpmc.Waiters

/-!
# One side of the bounded MPMC channel

Senders wait for space and receivers for items, in queues that are handled alike. What holds of a
task's queue entry and flag is said for each point of its code; beyond that, as long as the other
side is open, every unit of supply has a task of its own that will look for it.
-/

namespace Fibre.Channels.Mpmc

open WaiterState List

variable {T : Type*} {capacity : UInt64}

/-! ### What holds at each point of a task -/

/-- What the locked state and its flag say about one waiter of a side. -/
@[ext]
structure View where
  async : Bool
  sync : Bool
  flag : WaiterState
  /-- the other side has closed -/
  closed : Bool

namespace View

/-- In none of the side's queues. -/
def Unqueued (v : View) : Prop := v.async = false ∧ v.sync = false

/-- Queued and not woken. -/
def Waiting (v : View) : Prop := ¬ v.Unqueued ∧ v.flag = waiting

/-- Not in the queue of the other kind. -/
def Own (v : View) (async : Bool) : Prop := if async then v.sync = false else v.async = false

/-- Queued in the queue of its kind, and nowhere else. -/
def Queued (v : View) (async : Bool) : Prop :=
  v.Own async ∧ if async then v.async = true else v.sync = true

end View

def Internal.closed (c : Internal T) : Side → Bool
  | .send => c.receiverCount = 0
  | .recv => c.senderCount = 0

def Internal.view (c : Internal T) (side : Side) (i : ℕ) : View where
  async := i ∈ c.asyncQueue side
  sync := i ∈ c.syncQueue side
  flag := c.flags i
  closed := c.closed side

def SendKind.isAsync (k : SendKind) : Bool := k = .async

def RecvKind.isAsync (k : RecvKind) : Bool := k = .future ∨ k = .stream

/-- A sender at each point of its code. -/
def SendAt (v : View) : Task T → Prop
  | .sendTry _ _ items | .sendRegister _ _ items => items ≠ [] ∧ v.Unqueued
  | .sendParked k _ items => items ≠ [] ∧ v.Own k.isAsync ∧
      (v.flag = successSpace ∨ (v.flag.finished ∧ v.closed) ∨
        (v.flag = waiting ∧ v.Queued k.isAsync ∧ v.closed = false))
  | .sendWoken k _ items st => items ≠ [] ∧ v.Own k.isAsync ∧ v.flag ≠ waiting ∧
      (st.closed → v.closed)
  | .sendDropped k => v.Own k.isAsync ∧ v.flag ≠ waiting
  | _ => v.Unqueued

/-- A receiver at each point of its code. After the last sender has closed, the queues do not
matter any more. -/
def RecvAt (v : View) : Task T → Prop
  | .recvTry k max => v.closed ∨ v.Unqueued ∨
      (max ≠ some 0 ∧ k.isAsync ∧ v.flag = waiting ∧ v.Queued true)
  | .recvRegister k max => max ≠ some 0 ∧ (v.closed ∨ v.Unqueued ∨
      (k.isAsync ∧ v.flag = waiting ∧ v.Queued true))
  | .recvParked k max => max ≠ some 0 ∧ ((v.flag.finished ∧ v.closed) ∨
      (v.flag = successSpace ∧ v.Unqueued) ∨
      (v.flag = waiting ∧ v.Queued k.isAsync ∧ v.closed = false))
  | .recvClosed _ => v.closed
  | .recvDropped k => v.closed ∨ (v.Own k.isAsync ∧ v.flag ≠ waiting)
  | .timedRetry | .timedFinal | .streamIdle | .done => v.closed ∨ v.Unqueued
  | .timedAsleep => False
  | _ => v.Unqueued

/-- A task of the other side, or one not started. -/
def Task.foreign : Side → Task T → Bool
  | .send, .sendTry _ _ _ | .send, .sendRegister _ _ _ | .send, .sendParked _ _ _
  | .send, .sendWoken _ _ _ _ | .send, .sendDropped _ => false
  | .send, _ => true
  | .recv, .fresh | .recv, .sendTry _ _ _ | .recv, .sendRegister _ _ _ | .recv, .sendParked _ _ _
  | .recv, .sendWoken _ _ _ _ | .recv, .sendDropped _ => true
  | .recv, _ => false

/-- A task that will look for space, or an item, before it parks again. -/
def Task.active : Side → Task T → Bool
  | .send, .sendTry _ _ _ | .send, .sendRegister _ _ _ | .send, .sendParked _ _ _
  | .send, .sendWoken _ _ _ _ => true
  | .recv, .recvTry _ max => max ≠ some 0
  | .recv, .recvRegister _ _ | .recv, .recvParked _ _ | .recv, .timedRetry
  | .recv, .timedFinal => true
  | _, _ => false

def At : Side → View → Task T → Prop
  | .send => SendAt
  | .recv => RecvAt

section At

variable {side : Side} {v v' : View} {t : Task T}

attribute [local simp] Task.foreign Task.active At SendAt RecvAt

theorem at_foreign (ht : t.foreign side) : At side v t ↔ v.Unqueued := by
  cases side <;> cases t <;> simp_all

theorem not_active_of_foreign (ht : t.foreign side) : t.active side = false := by
  cases side <;> cases t <;> simp_all

theorem active_of_waiting (h : At side v t) (hopen : v.closed = false) (hw : v.Waiting) :
    t.active side := by
  obtain ⟨hq, hflag⟩ := hw
  cases side <;> cases t <;> simp_all

/-- A waiter that is woken. -/
theorem At.wake (h : At side v t) (hw : v.Waiting) :
    At side { v with async := false, sync := false, flag := successSpace } t := by
  obtain ⟨hq, hflag⟩ := hw
  cases side <;> cases t <;>
    simp_all [View.Unqueued, View.Own, finished, code]

theorem At.stale (h : At side v t) (hflag : v.flag ≠ waiting) (ha : v'.async → v.async)
    (hs : v'.sync → v.sync) (hf : v'.flag = v.flag) (hc : v'.closed = v.closed) :
    At side v' t := by
  have hu : v.Unqueued → v'.Unqueued := by
    rintro ⟨h1, h2⟩
    exact ⟨by simpa [h1] using ha, by simpa [h2] using hs⟩
  have ho : ∀ b, v.Own b → v'.Own b := by
    intro b
    unfold View.Own
    split_ifs
    · intro h1
      simpa [h1] using hs
    · intro h1
      simpa [h1] using ha
  cases side <;> cases t <;> simp only [At, SendAt, RecvAt, hf, hc] at h ⊢ <;> grind

theorem View.Queued.not_unqueued {async : Bool} (h : v.Queued async) : ¬ v.Unqueued := by
  rintro ⟨ha, hs⟩
  have hin := h.2
  split_ifs at hin
  · exact Bool.false_ne_true (ha.symm.trans hin)
  · exact Bool.false_ne_true (hs.symm.trans hin)

theorem At.close (h : At side v t) {st : WaiterState} (hst : st.finished)
    (ha : v'.async = v.async) (hs : v'.sync = v.sync) (hc : v'.closed = true)
    (hw : ¬ v.Unqueued → v.flag = waiting → v'.flag = st)
    (hf : v.flag ≠ waiting → v'.flag = v.flag) : At side v' t := by
  have hu : v.Unqueued → v'.Unqueued := fun hu => ⟨ha.trans hu.1, hs.trans hu.2⟩
  have ho : ∀ b, v.Own b → v'.Own b := by
    intro b
    unfold View.Own
    rw [ha, hs]
    exact id
  have hq : ∀ b, v.Queued b → ¬ v.Unqueued := fun b hb => hb.not_unqueued
  have hsucc : successSpace ≠ waiting := by decide
  have hfin : v.flag.finished = true → v.flag ≠ waiting := by
    intro hfin hflag
    rw [hflag] at hfin
    cases hfin
  cases side <;> cases t <;> simp only [At, SendAt, RecvAt, hc] at h ⊢ <;> grind

/-- A sender that stays queued is woken. -/
theorem SendAt.wake (h : SendAt v t) (ha : v'.async = v.async) (hs : v'.sync = v.sync)
    (hc : v'.closed = v.closed)
    (hf : v'.flag = v.flag ∨ ¬ v.Unqueued ∧ v.flag = waiting ∧ v'.flag = successSpace) :
    SendAt v' t := by
  have hu : v.Unqueued → v'.Unqueued := fun hu => ⟨ha.trans hu.1, hs.trans hu.2⟩
  have ho : ∀ b, v.Own b → v'.Own b := by
    intro b
    unfold View.Own
    rw [ha, hs]
    exact id
  have hq : ∀ b, v.Queued b → v'.Queued b := by
    intro b
    unfold View.Queued View.Own
    rw [ha, hs]
    exact id
  have hsucc : successSpace ≠ waiting := by decide
  cases t <;> simp only [SendAt, hc] at h ⊢ <;> grind

end At

namespace Internal

variable {c c' : Internal T} {side : Side}

theorem mem_waiters_iff (i : ℕ) : i ∈ c.waiters side ↔ (c.view side i).Waiting := by
  simp [waiters, queues, view, View.Waiting, View.Unqueued, imp_iff_or_not, or_comm]

theorem unqueued_iff (i : ℕ) : (c.view side i).Unqueued ↔ i ∉ c.queues side := by
  simp [queues, view, View.Unqueued]

theorem view_congr {j : ℕ} (ha : j ∈ c'.asyncQueue side ↔ j ∈ c.asyncQueue side)
    (hs : j ∈ c'.syncQueue side ↔ j ∈ c.syncQueue side) (hf : c'.flags j = c.flags j)
    (hc : c'.closed side = c.closed side) : c'.view side j = c.view side j := by
  simp only [view, ha, hs, hf, hc]

theorem nodup_push {a b : List ℕ} {i : ℕ} (h : (a ++ b).Nodup) (hi : i ∉ a ++ b) :
    ((a ++ [i]) ++ b).Nodup ∧ (a ++ (b ++ [i])).Nodup := by
  have hcons : (i :: (a ++ b)).Nodup := nodup_cons.mpr ⟨hi, h⟩
  constructor
  · rw [append_assoc, singleton_append]
    exact perm_middle.nodup_iff.mpr hcons
  · rw [← append_assoc]
    exact (perm_append_singleton i (a ++ b)).nodup_iff.mpr hcons

/-- The free space, or the items. -/
def supply (capacity : UInt64) (c : Internal T) : Side → ℕ
  | .send => capacity.toNat - c.queueLen.toNat
  | .recv => c.queueLen.toNat

end Internal

namespace System

variable {s s' : System T} {side : Side}

/-- The invariant of one side: every task is where its code says, and as long as the other side is
open each unit of supply has a task of its own that will look for it. -/
structure SideInv (capacity : UInt64) (side : Side) (s : System T) : Prop where
  here : ∀ i, At side (s.core.view side i) (s.tasks i)
  nodup : (s.core.queues side).Nodup
  covered : s.core.closed side = false →
    Covered (s.core.supply capacity side) (s.core.waiters side) {i | (s.tasks i).active side}

namespace SideInv

variable {i : ℕ}

/-- The waiter's task is the same, and so is what it sees of its queues and flag; the flag of a
task of the other side does not matter. -/
def SameAt (side : Side) (s s' : System T) (j : ℕ) : Prop :=
  s'.tasks j = s.tasks j ∧ (s'.core.view side j = s.core.view side j ∨
    ((s.tasks j).foreign side ∧ (s'.core.view side j).Unqueued))

theorem SameAt.at_ {j : ℕ} (hsame : SameAt side s s' j)
    (h : At side (s.core.view side j) (s.tasks j)) :
    At side (s'.core.view side j) (s'.tasks j) := by
  obtain ⟨ht, hv | ⟨hforeign, hu⟩⟩ := hsame
  · rwa [ht, hv]
  · rwa [ht, at_foreign hforeign]

theorem SameAt.mem_waiters {j : ℕ} (hsame : SameAt side s s' j)
    (hj : j ∈ s'.core.waiters side) : j ∈ s.core.waiters side := by
  rw [Internal.mem_waiters_iff] at hj ⊢
  obtain ⟨-, hv | ⟨-, hu⟩⟩ := hsame
  · rwa [← hv]
  · exact absurd hu hj.1

/-- One task moves. Either there is no supply, or it does not start to wait and, if it stops
looking, takes some of the supply with it. -/
theorem move (h : SideInv capacity side s) (i : ℕ) (hsame : ∀ j ≠ i, SameAt side s s' j)
    (hclosed : s'.core.closed side = s.core.closed side) (hnodup : (s'.core.queues side).Nodup)
    (hi : At side (s'.core.view side i) (s'.tasks i))
    (hsupply : s.core.closed side = false → s'.core.supply capacity side = 0 ∨
      s'.core.waiters side = ∅ ∨
      ((i ∈ s'.core.waiters side → i ∈ s.core.waiters side) ∧
        (s'.core.supply capacity side < s.core.supply capacity side ∨
          (s'.core.supply capacity side ≤ s.core.supply capacity side ∧
            ((s.tasks i).active side → i ∉ s.core.waiters side → (s'.tasks i).active side))))) :
    SideInv capacity side s' := by
  refine ⟨?_, hnodup, ?_⟩
  · intro j
    rcases eq_or_ne j i with rfl | hj
    · exact hi
    · exact (hsame j hj).at_ (h.here j)
  · intro hopen
    rw [hclosed] at hopen
    have hcov := h.covered hopen
    rcases hsupply hopen with hzero | hempty | ⟨hiw, hlt | ⟨hle, hact⟩⟩
    · rw [hzero]
      exact .zero _ _
    · exact .of_empty hempty
    all_goals
      have hsub : s'.core.waiters side ⊆ s.core.waiters side := by
        intro j hj
        rcases eq_or_ne j i with rfl | hji
        · exact hiw hj
        · exact (hsame j hji).mem_waiters hj
    · refine hcov.leave (i := i) (.inl hlt) hsub ?_
      intro j hj _ hji
      rw [Set.mem_ofPred_eq, (hsame j hji).1]
      exact hj
    · refine hcov.mono hle hsub ?_
      intro j hj hjw
      rcases eq_or_ne j i with rfl | hji
      · exact hact hj hjw
      · rw [Set.mem_ofPred_eq, (hsame j hji).1]
        exact hj

theorem frame (h : SideInv capacity side s) (hsame : ∀ j, SameAt side s s' j)
    (hclosed : s'.core.closed side = s.core.closed side) (hnodup : (s'.core.queues side).Nodup)
    (hle : s'.core.supply capacity side ≤ s.core.supply capacity side) :
    SideInv capacity side s' := by
  refine h.move 0 (fun j _ => hsame j) hclosed hnodup ((hsame 0).at_ (h.here 0)) ?_
  intro _
  refine .inr (.inr ⟨(hsame 0).mem_waiters, .inr ⟨hle, ?_⟩⟩)
  intro hact _
  rwa [(hsame 0).1]

theorem view_wakes {c c' : Internal T} {W : Finset ℕ} (hwakes : Internal.Wakes side c c' W)
    (hnodup : (c.queues side).Nodup) (hclosed : c'.closed side = c.closed side) (j : ℕ) :
    (j ∈ W ∧ (c.view side j).Waiting ∧ c'.view side j =
        { c.view side j with async := false, sync := false, flag := successSpace }) ∨
      (j ∉ W ∧ c'.view side j = c.view side j) ∨
      ((c.view side j).flag ≠ waiting ∧ ((c'.view side j).async → (c.view side j).async) ∧
        ((c'.view side j).sync → (c.view side j).sync) ∧
        (c'.view side j).flag = (c.view side j).flag ∧
        (c'.view side j).closed = (c.view side j).closed) := by
  have hasync : j ∈ c'.asyncQueue side → j ∈ c.asyncQueue side := fun h => hwakes.async.subset h
  have hsync : j ∈ c'.syncQueue side → j ∈ c.syncQueue side := fun h => hwakes.sync.subset h
  by_cases hjW : j ∈ W
  · refine .inl ⟨hjW, (Internal.mem_waiters_iff j).mp (hwakes.subset_waiters j hjW), ?_⟩
    have hgone := hwakes.taken.gone hnodup j hjW
    rw [Internal.queues, mem_append, not_or] at hgone
    ext
    · simp [Internal.view, hgone.1]
    · simp [Internal.view, hgone.2]
    · simp [Internal.view, hwakes.flags, wakeFlags, hjW]
    · simp [Internal.view, hclosed]
  · have hflags : c'.flags j = c.flags j := by rw [hwakes.flags, wakeFlags, if_neg hjW]
    by_cases hflag : c.flags j = waiting
    · -- who still waits is where it was: no task is in both queues
      refine .inr (.inl ⟨hjW, ?_⟩)
      have hkeep : j ∈ c.queues side → j ∈ c'.queues side :=
        fun hj => hwakes.taken.keep j hj hflag hjW
      have hdisj := (nodup_append.mp hnodup).2.2
      simp only [Internal.queues, mem_append] at hkeep
      have ha : j ∈ c'.asyncQueue side ↔ j ∈ c.asyncQueue side := by
        refine ⟨hasync, fun hj => (hkeep (.inl hj)).resolve_right ?_⟩
        intro hj'
        exact hdisj j hj j (hsync hj') rfl
      have hs : j ∈ c'.syncQueue side ↔ j ∈ c.syncQueue side := by
        refine ⟨hsync, fun hj => (hkeep (.inr hj)).resolve_left ?_⟩
        intro hj'
        exact hdisj j (hasync hj') j hj rfl
      simp only [Internal.view, ha, hs, hflags, hclosed]
    · refine .inr (.inr ⟨hflag, ?_, ?_, hflags, hclosed⟩)
      · simpa [Internal.view] using hasync
      · simpa [Internal.view] using hsync

/-- Waiters of this side are woken, as many as the supply grows, or all of them. -/
theorem wake (h : SideInv capacity side s) {W : Finset ℕ}
    (hwakes : Internal.Wakes side s.core s'.core W) (htasks : s'.tasks = s.tasks)
    (henough : s'.core.waiters side = ∅ ∨
      s'.core.supply capacity side ≤ s.core.supply capacity side + W.card) :
    SideInv capacity side s' := by
  have hclosed : s'.core.closed side = s.core.closed side := by
    cases side with
    | send => simp only [Internal.closed, hwakes.receiverCount]
    | recv => simp only [Internal.closed, hwakes.senderCount]
  refine ⟨?_, h.nodup.sublist hwakes.taken.sublist, ?_⟩
  · intro j
    rw [htasks]
    rcases view_wakes hwakes h.nodup hclosed j with ⟨-, hw, hv⟩ | ⟨-, hv⟩ | ⟨hf, ha, hs, hf', hc⟩
    · rw [hv]
      exact (h.here j).wake hw
    · rw [hv]
      exact h.here j
    · exact (h.here j).stale hf ha hs hf' hc
  · intro hopen
    rw [hclosed] at hopen
    rw [htasks]
    refine (h.covered hopen).wake hwakes.subset_waiters ?_ hwakes.mem_waiters henough
    intro j hj
    exact active_of_waiting (h.here j) hopen
      ((Internal.mem_waiters_iff j).mp (hwakes.subset_waiters j hj))

theorem not_foreign (h : SideInv capacity side s) {j : ℕ} (hj : j ∈ s.core.queues side) :
    (s.tasks j).foreign side = false := by
  by_contra hforeign
  rw [Bool.not_eq_false] at hforeign
  have hu := (at_foreign hforeign).mp (h.here j)
  exact (Internal.unqueued_iff j).mp hu hj

theorem sameAt (h : SideInv capacity side s) {side' : Side} (h' : SideInv capacity side' s)
    (hne : side ≠ side') (ha : s'.core.asyncQueue side = s.core.asyncQueue side)
    (hs : s'.core.syncQueue side = s.core.syncQueue side)
    (hclosed : s'.core.closed side = s.core.closed side) {j : ℕ}
    (hflags : j ∉ s.core.queues side' → s'.core.flags j = s.core.flags j)
    (ht : s'.tasks j = s.tasks j) : SameAt side s s' j := by
  refine ⟨ht, ?_⟩
  by_cases hj : j ∈ s.core.queues side'
  · have hforeign : (s.tasks j).foreign side := by
      have hown := h'.not_foreign hj
      cases side <;> cases side' <;> cases htask : s.tasks j <;> simp_all [Task.foreign]
    refine .inr ⟨hforeign, ?_⟩
    rw [Internal.unqueued_iff, Internal.queues, ha, hs, ← Internal.queues,
      ← Internal.unqueued_iff]
    exact (at_foreign hforeign).mp (h.here j)
  · left
    simp only [Internal.view, ha, hs, hflags hj, hclosed]

theorem sameAt_of_wakes (h : SideInv capacity side s) {side' : Side}
    (h' : SideInv capacity side' s) (hne : side ≠ side') {W : Finset ℕ}
    (hwakes : Internal.Wakes side' s.core s'.core W) {j : ℕ} (ht : s'.tasks j = s.tasks j) :
    SameAt side s s' j := by
  obtain ⟨ha, hs⟩ := hwakes.frame side hne
  refine h.sameAt h' hne ha hs ?_ ?_ ht
  · cases side with
    | send => simp only [Internal.closed, hwakes.receiverCount]
    | recv => simp only [Internal.closed, hwakes.senderCount]
  · intro hj
    rw [hwakes.flags, wakeFlags, if_neg]
    exact fun hW => hj (hwakes.taken.queued j hW).1

theorem step_foreign (h : SideInv capacity side s) (i : ℕ) (hforeign : (s.tasks i).foreign side)
    (htasks : ∀ j ≠ i, s'.tasks j = s.tasks j)
    (ha : s'.core.asyncQueue side = s.core.asyncQueue side)
    (hs : s'.core.syncQueue side = s.core.syncQueue side)
    (hflags : ∀ j ≠ i, s'.core.flags j = s.core.flags j)
    (hclosed : s'.core.closed side = s.core.closed side)
    (hle : s'.core.supply capacity side ≤ s.core.supply capacity side)
    (hi : ∀ v : View, v.Unqueued → At side v (s'.tasks i)) : SideInv capacity side s' := by
  have hqueues : s'.core.queues side = s.core.queues side := by
    rw [Internal.queues, ha, hs, Internal.queues]
  have hu : i ∉ s'.core.queues side := by
    rw [hqueues, ← Internal.unqueued_iff]
    exact (at_foreign hforeign).mp (h.here i)
  refine h.move i ?_ hclosed (hqueues ▸ h.nodup) (hi _ ((Internal.unqueued_iff i).mpr hu)) ?_
  · intro j hj
    refine ⟨htasks j hj, .inl ?_⟩
    simp only [Internal.view, ha, hs, hflags j hj, hclosed]
  · intro _
    refine .inr (.inr ⟨fun hw => absurd hw.1 hu, .inr ⟨hle, ?_⟩⟩)
    intro hact
    rw [not_active_of_foreign hforeign] at hact
    cases hact

end SideInv

end System

end Fibre.Channels.Mpmc
