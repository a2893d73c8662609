import Fibre.Channels.Mpmc.Listeners

/-!
# When a receive reports that the channel is disconnected

A receive looks at the buffer before it looks at the number of senders, so it reports
`Disconnected` only from a channel that is drained: no sender is left and the buffer is empty. One
exception is a receive that was parked when the last sender left. It is woken by a flag that says
so and returns without looking at the buffer again, where there can be an item: one whose sender
has woken another receiver, which has yet to come back for it.
-/

namespace Fibre.Channels.Mpmc

open WaiterState Machine Option

variable {T : Type*} {capacity : UInt64}

namespace System

/-- No sender is left and the buffer is empty. -/
def drained (s : System T) : Bool := s.core.senderCount = 0 && s.core.queue.isEmpty

/-- A call is under way. -/
def underway (s : System T) (i : ℕ) : Bool :=
  match s.tasks i with
  | .fresh | .streamIdle | .done => false
  | _ => true

/-- The last sender leaves a channel that is empty, or in which no receive waits that goes by its
flag; a closed receiver is used only when the channel is drained, and a closed sender is not
cloned when none is left. -/
def Orderly (s : System T) : Event T → Prop
  | .act .closeSender => s.core.senderCount = 1 → s.core.queue.isEmpty = true ∨
      ∀ i ∈ s.core.waiters .recv, (s.tasks i).goesByFlag = false
  | .recvOnClosed _ => s.drained = true
  | .reviveSender => False
  | _ => True

end System

/-- The channel, and which calls have seen it drained since they began. -/
structure Watched (T : Type*) where
  system : System T
  saw : ℕ → Bool

namespace Watched

/-- A new channel. -/
def init (capacity : UInt64) : Watched T := ⟨System.init capacity, fun _ => false⟩

def step (capacity : UInt64) (w : Watched T) (e : Event T) : Option (Watched T) :=
  (w.system.react capacity e).map fun s => ⟨s, fun i => s.drained || (w.saw i && s.underway i)⟩

/-- The call that the event ends with `Disconnected`, or, for a stream, with its end. -/
def disconnects (capacity : UInt64) (s : System T) : Event T → Option ℕ
  | .act (.advance i) =>
    let locked (max : Option UInt64) := match (s.recv capacity max).1 with
      | .disconnected => some i
      | .ok _ | .empty => none
    match s.tasks i with
    | .recvTry _ max => locked max
    | .timedRetry | .timedFinal => locked none
    | .recvRegister k _ =>
      if !System.recvRecheck capacity s.core k ∧ s.core.senderCount = 0 then some i else none
    | .recvClosed _ => some i
    | _ => none
  | .recvOnClosed i =>
    match s.tasks i with
    | .fresh => some i
    | _ => none
  | _ => none

variable {w w' : Watched T} {e : Event T} {i : ℕ}

/-- What holds along orderly runs. -/
structure Inv (capacity : UInt64) (w : Watched T) : Prop where
  listens : w.system.Listens capacity fun i => w.saw i = true
  now : w.system.drained = true → ∀ i, w.saw i = true
  idle : ∀ i, w.saw i = true → w.system.underway i = true ∨ w.system.drained = true
  gone : ∀ i, w.saw i = true → w.system.core.senderCount = 0

namespace Inv

theorem init : Inv capacity (init capacity : Watched T) where
  listens := .init
  now hdrained := by simp [Watched.init, System.drained, System.init, Internal.new] at hdrained
  idle _ hsaw := by cases hsaw
  gone _ hsaw := by cases hsaw

theorem step (h : Inv capacity w) (hpos : capacity ≠ 0) (hord : w.system.Orderly e)
    (hs : w.step capacity e = some w') : Inv capacity w' := by
  obtain ⟨s', hs', rfl⟩ := map_eq_some_iff.mp hs
  have he : e ≠ .reviveSender := by
    rintro rfl
    exact hord
  have hclosed := System.react_closed hpos h.listens.sound he hs'
  refine ⟨h.listens.react hpos he hs' ?_ ?_, ?_, ?_, ?_⟩
  · intro i hflag hsaw
    -- a call that goes by its flag is under way
    have hunder : s'.underway i = true := by
      unfold System.underway
      cases ht : s'.tasks i <;> simp [ht, Task.goesByFlag] at hflag ⊢
    simp [hsaw, hunder]
  · rintro rfl hlast i hi hflag
    have hempty := (hord hlast).resolve_right fun hnone => by
      rw [hnone i hi] at hflag
      cases hflag
    have hdrained : s'.drained = true := by
      simp only [System.react, System.step, hlast, Nat.one_ne_zero, if_false] at hs'
      obtain rfl := Option.some.inj hs'
      simp [System.drained, Internal.closeSender, hlast, Internal.finishAll, hempty]
    simp [hdrained]
  · intro hdrained i
    simp [hdrained]
  · intro i hsaw
    simp only [Bool.or_eq_true, Bool.and_eq_true] at hsaw
    exact hsaw.symm.imp_left And.right
  · intro i hsaw
    simp only [Bool.or_eq_true, Bool.and_eq_true] at hsaw
    rcases hsaw with hdrained | ⟨hsaw, -⟩
    · simpa [System.drained] using (Bool.and_eq_true_iff.mp hdrained).1
    · have hgone : w.system.core.closed .recv = true := decide_eq_true (h.gone i hsaw)
      exact of_decide_eq_true (hclosed hgone)

end Inv

theorem drained_of_recv {s : System T} (hpos : capacity ≠ 0) (h : s.core.Sound capacity)
    {max : Option UInt64} (hr : (s.recv capacity max).1 = .disconnected) : s.drained = true := by
  have hgone := (System.recv_effect hpos h max).disconnected hr
  have hzero : s.core.queueLen = 0 := by
    cases max with
    | none =>
      rcases h.popFront with ⟨r, hpop, -⟩ | ⟨-, hzero⟩
      · simp [System.recv, Internal.tryRecvCore, hpop] at hr
      · exact hzero
    | some max =>
      by_contra hne
      have hmax : max ≠ 0 := by
        rintro rfl
        simp [System.recv, Internal.tryRecvBatchCore] at hr
      simp [System.recv, Internal.tryRecvBatchCore_of_ne hmax hpos hne] at hr
  simp [System.drained, hgone, h.isEmpty_iff.mpr hzero]

theorem Inv.saw_of_disconnects (h : Inv capacity w) (hpos : capacity ≠ 0)
    (hord : w.system.Orderly e) (hd : disconnects capacity w.system e = some i) :
    w.saw i = true := by
  have hsound := h.listens.sound
  cases e with
  | reviveSender => cases hd
  | recvOnClosed j => exact h.now hord i
  | act a =>
    cases a <;> try cases hd
    rename_i j
    have hlocked : ∀ max, (match (w.system.recv capacity max).1 with
        | .disconnected => some j
        | .ok _ | .empty => none) = some i → w.saw i = true := by
      intro max hd
      split at hd <;> rename_i hr
      · exact h.now (drained_of_recv hpos hsound hr) i
      all_goals cases hd
    simp only [disconnects] at hd
    split at hd <;> rename_i ht
    · exact hlocked _ hd
    · exact hlocked _ hd
    · exact hlocked _ hd
    · split_ifs at hd with hre
      obtain ⟨hre, hgone⟩ := hre
      have hzero := System.Inv.queueLen_of_recvRecheck hsound (by simpa using hre)
      refine h.now ?_ i
      simp [System.drained, hgone, hsound.isEmpty_iff.mpr hzero]
    · obtain rfl := Option.some.inj hd
      have hi := (h.listens.here j).flag
      rwa [ht] at hi
    · cases hd

theorem step_unseen {s : System T} (hs : w.system.react capacity e = some s)
    (hnot : s.drained = false) (hsaw : w.saw i = false) :
    ∃ v, w.step capacity e = some v ∧ v.system = s ∧ v.saw i = false :=
  ⟨_, by rw [step, hs]; rfl, rfl, by simp [hnot, hsaw]⟩

theorem Inv.tell (h : Inv capacity w) (hlast : w.system.core.senderCount = 1)
    (hbuffer : w.system.core.queue.isEmpty = false) (hi : i ∈ w.system.core.waiters .recv)
    (hflag : (w.system.tasks i).goesByFlag) : ∃ v, Reachable (Watched.step capacity) w v ∧
      disconnects capacity v.system (.act (.advance i)) = some i ∧ v.saw i = false := by
  have hsaw : w.saw i = false := by
    by_contra hsaw
    have hgone := h.gone i (by simpa using hsaw)
    omega
  -- it is parked: one that has read its flag would have seen the channel drained
  obtain ⟨k, max, ht, hk⟩ : ∃ k max, w.system.tasks i = .recvParked k max ∧
      (k = .sync ∨ k = .future) := by
    have hplaced := (h.listens.here i).flag
    cases ht : w.system.tasks i <;> rw [ht] at hflag hplaced <;>
      simp only [Task.goesByFlag, Bool.false_eq_true, decide_eq_true_eq] at hflag
    · exact ⟨_, _, rfl, hflag⟩
    · exact absurd hplaced (by simp [FlagAt, hsaw])
  have hnew : w.system.core.closeSender.flags i = closedBuffered := by
    simp only [Internal.closeSender, hlast, Nat.sub_self, if_true]
    rw [System.Inv.finishAll_flags _ _ _ (by decide), if_pos]
    exact ⟨(List.mem_append.mp hi.1).symm, hi.2⟩
  have hnot : ({ w.system with core := w.system.core.closeSender } : System T).drained = false := by
    simp [System.drained, Internal.closeSender, hlast, Internal.finishAll, hbuffer]
  have hclose : w.system.react capacity (.act .closeSender) =
      some { w.system with core := w.system.core.closeSender } := by
    simp [System.react, System.step, hlast]
  obtain ⟨u, hu, husys, husaw⟩ := step_unseen hclose hnot hsaw
  -- the receive reads the flag, and has only to take its entry out
  have hresume : u.system.react capacity (.act (.resume i)) =
      some (u.system.setTask i (.recvClosed k)) := by
    rw [husys]
    rcases hk with rfl | rfl <;>
      simp [System.react, System.step, System.resume, ht, hnew, finished, WaiterState.closed, code]
  obtain ⟨v, hv, hvsys, hvsaw⟩ := step_unseen hresume (by rw [husys]; exact hnot) husaw
  refine ⟨v, .tail (.tail (.refl w) trivial hu) trivial hv, ?_, hvsaw⟩
  rw [hvsys]
  simp [disconnects]

/-- An event that is not orderly can make a call end with `Disconnected` that has not seen the
channel drained. -/
theorem Inv.exists_unseen (h : Inv capacity w) (he : e ≠ .reviveSender)
    (hs : w.step capacity e = some w') (hord : ¬ w.system.Orderly e) :
    ∃ v e' i, Reachable (Watched.step capacity) w v ∧
      disconnects capacity v.system e' = some i ∧ v.saw i = false := by
  cases e with
  | reviveSender => exact absurd rfl he
  | recvOnClosed i =>
    obtain ⟨s', hs', -⟩ := map_eq_some_iff.mp hs
    simp only [System.react] at hs'
    split at hs'
    · rename_i ht
      refine ⟨w, .recvOnClosed i, i, .refl w, by simp [disconnects, ht], ?_⟩
      by_contra hsaw
      rcases h.idle i (by simpa using hsaw) with hunder | hdrained
      · simp [System.underway, ht] at hunder
      · exact hord hdrained
    · cases hs'
  | act a =>
    cases a <;> simp only [System.Orderly, not_true] at hord
    push Not at hord
    obtain ⟨hlast, hbuffer, i, hi, hflag⟩ := hord
    obtain ⟨v, hv, hd, hsaw⟩ := h.tell hlast (by simpa using hbuffer) hi (by simpa using hflag)
    exact ⟨v, _, i, hv, hd, hsaw⟩

/-- In every orderly run a call that ends with `Disconnected` has seen the channel drained. An
event that is not orderly, in any such run, can make a call end so that has not. -/
theorem saw_drained_of_disconnects (hpos : capacity ≠ 0)
    (hrun : Run (step capacity) (fun w e => w.system.Orderly e) (init capacity) w) :
    (∀ e i, w.system.Orderly e → disconnects capacity w.system e = some i → w.saw i = true) ∧
      ∀ e w', w.step capacity e = some w' → e ≠ .reviveSender → ¬ w.system.Orderly e →
        ∃ v e' i, Reachable (step capacity) w v ∧
          disconnects capacity v.system e' = some i ∧ v.saw i = false := by
  have hinv : Inv capacity w :=
    hrun.invariant (Inv.init) fun _ _ _ hw hord hs => hw.step hpos hord hs
  exact ⟨fun _ _ hord hd => hinv.saw_of_disconnects hpos hord hd,
    fun _ _ hs he hord => hinv.exists_unseen he hs hord⟩

/-- A receiver is parked when the last sender leaves an empty channel. -/
def emptied : List (Event ℕ) :=
  [.act (.startRecv 1 .sync none), .act (.advance 1), .act (.advance 1), .act .closeSender,
    .act (.resume 1)]

/-- Two receivers are parked; one is notified of an item, and the last sender leaves. -/
def parkedTwice : List (Event ℕ) :=
  [.act (.startRecv 1 .sync none), .act (.advance 1), .act (.advance 1),
    .act (.startRecv 2 .sync none), .act (.advance 2), .act (.advance 2), .act (.trySend 7),
    .act .closeSender, .act (.resume 2)]

theorem saw_drained_emptied : ∃ w : Watched ℕ,
    Run (step 1) (fun w e => w.system.Orderly e) (init 1) w ∧
      disconnects 1 w.system (.act (.advance 1)) = some 1 ∧
      ((∀ e i, w.system.Orderly e → disconnects 1 w.system e = some i → w.saw i = true) ∧
        ∀ e w', w.step 1 e = some w' → e ≠ .reviveSender → ¬ w.system.Orderly e →
          ∃ v e' i, Reachable (step 1) w v ∧
            disconnects 1 v.system e' = some i ∧ v.saw i = false) := by
  have hexec : (exec (step 1) (fun (w : Watched ℕ) (e : Event ℕ) => match e with
      | .act .closeSender => w.system.core.queue.isEmpty
      | .act _ => true
      | _ => false) (init 1) emptied).map
        (fun w => disconnects 1 w.system (.act (.advance 1))) = some (some 1) := by
    rfl
  obtain ⟨w, hw, hd⟩ := Option.map_eq_some_iff.mp hexec
  have hrun : Run (step 1) (fun w e => w.system.Orderly e) (init 1) w := by
    refine run_of_exec (fun w e hok => ?_) hw
    cases e with
    | act a => cases a <;> first | exact fun _ => .inl hok | trivial
    | recvOnClosed i | reviveSender => cases hok
  exact ⟨w, hrun, hd, saw_drained_of_disconnects (by decide) hrun⟩

/-- The receiver that was not notified reports `Disconnected` beside the item. -/
theorem not_saw_of_parked : ¬ ∀ w : Watched ℕ, Reachable (step 1) (init 1) w →
    ∀ e i, disconnects 1 w.system e = some i → w.saw i = true := by
  intro hall
  have hexec : (exec (step 1) (fun _ _ => true) (init 1) parkedTwice).map
      (fun w => (disconnects 1 w.system (.act (.advance 2)), w.saw 2)) =
        some (some 2, false) := by
    rfl
  obtain ⟨w, hw, heq⟩ := Option.map_eq_some_iff.mp hexec
  obtain ⟨hd, hsaw⟩ := Prod.mk.inj heq
  have := hall w (reachable_of_exec hw) _ 2 hd
  rw [hsaw] at this
  cases this

end Watched

end Fibre.Channels.Mpmc
