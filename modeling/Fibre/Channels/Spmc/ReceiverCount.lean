import Mathlib.Algebra.BigOperators.Group.Finset.Piecewise
import Fibre.Math.Crew
import Fibre.Channels.Spmc.TopicSteps

/-!
# The count of the receivers of a topic channel

The dispatcher counts the receivers, and a send is refused when the count is zero. A clone adds one.
A close takes one off, and so does a drop, but a blocking receiver that was closed before is dropped
without. The drop of an asynchronous receiver does not look at its flag. A conversion makes a handle
that is not closed, without a change of the count.
-/

namespace Fibre.Channels.Topic

open Machine Crew Function Finset

variable {K V : Type*}

def Receiver.isOpen (q : Receiver K V) : Bool := !q.closed && !q.dropped

/-- The call is yet to take its receiver off the count. -/
def Call.leaves (c : Call K V) : ℕ := if c.after = .nothing then 0 else 1

namespace System

variable {s s' t : System K V} {r i : ℕ} {c c' : Call K V} {q : Receiver K V}

/-- How many receivers are neither closed nor dropped. -/
def opened (s : System K V) : ℕ :=
  ((Finset.range s.made).filter fun r => (s.receivers r).isOpen).card

/-- How many calls are yet to take a receiver off the count. -/
def leaving (s : System K V) : ℕ := weigh Call.leaves s.calls

/-- While the dispatcher is there, no receiver that was closed is converted, none that is asynchronous
is dropped, and the count does not come to its end. -/
def careful (s : System K V) : Action K V → Bool
  | .clone _ _ => !s.senderLive || decide (s.opened + s.leaving + 1 < 2 ^ 64)
  | .convert r => !s.senderLive || !(s.receivers r).closed
  | .drop r => !s.senderLive || !((s.receivers r).isAsync && (s.receivers r).closed)
  | _ => true

/-- The count is right, and a send goes by it. -/
structure Tallied [DecidableEq K] (s : System K V) : Prop where
  count : s.receiverCount.toNat = s.opened + s.leaving
  /-- when no close or drop is under way, the count is that of the open receivers -/
  settled : (∀ c ∈ s.calls, c.after = .nothing) → s.receiverCount.toNat = s.opened
  /-- the step that takes one off finds one -/
  positive : ∀ (i r : ℕ) (after : After), s.calls[i]? = some (.unsubscribing r [] after) →
    after ≠ .nothing → s.receiverCount ≠ 0
  /-- an open sender refuses a message only if no receiver is open -/
  refuses : ∀ i k v, s.calls[i]? = some (.sending k v) → s.senderClosed = false →
    s.advance i = some (s.setCall i .returned) → s.opened = 0
  /-- and it does so when none is open and none is on its way off the count -/
  closes : ∀ i k v, s.calls[i]? = some (.sending k v) → s.opened = 0 →
    (∀ c ∈ s.calls, c.after = .nothing) → s.advance i = some (s.setCall i .returned)

/-! ### Open receivers -/

theorem opened_eq_sum (s : System K V) :
    s.opened = ∑ r ∈ Finset.range s.made, (s.receivers r).isOpen.toNat := by
  rw [opened, card_filter]
  apply sum_congr rfl
  intro r _
  cases (s.receivers r).isOpen <;> rfl

theorem opened_congr (hmade : s'.made = s.made)
    (h : ∀ r, (s'.receivers r).isOpen = (s.receivers r).isOpen) : s'.opened = s.opened := by
  unfold opened
  rw [hmade]
  congr 1
  ext r
  rw [mem_filter, mem_filter, h]

theorem opened_setReceiver (hr : r < s.made) (q : Receiver K V) :
    (s.setReceiver r q).opened + (s.receivers r).isOpen.toNat = s.opened + q.isOpen.toNat := by
  have hmem : r ∈ Finset.range s.made := mem_range.mpr hr
  have hupdate : ∀ x, ((s.setReceiver r q).receivers x).isOpen.toNat =
      update (fun x => (s.receivers x).isOpen.toNat) r q.isOpen.toNat x := by
    intro x
    by_cases hx : x = r
    · subst hx
      simp [setReceiver]
    · simp [setReceiver, hx]
  calc (s.setReceiver r q).opened + (s.receivers r).isOpen.toNat
      = ∑ x ∈ Finset.range s.made, update (fun x => (s.receivers x).isOpen.toNat) r q.isOpen.toNat x
          + (s.receivers r).isOpen.toNat := by
        rw [opened_eq_sum]
        exact congrArg (· + _) (sum_congr rfl fun x _ => hupdate x)
    _ = (q.isOpen.toNat + ∑ x ∈ Finset.range s.made \ {r}, (s.receivers x).isOpen.toNat)
          + (s.receivers r).isOpen.toNat := by
        rw [sum_update_of_mem hmem]
    _ = s.opened + q.isOpen.toNat := by
        rw [opened_eq_sum, sum_eq_add_sum_sdiff_singleton_of_mem hmem]
        omega

theorem opened_setReceiver_of_eq (h : q.isOpen = (s.receivers r).isOpen) :
    (s.setReceiver r q).opened = s.opened := by
  refine opened_congr rfl ?_
  intro x
  by_cases hx : x = r
  · subst hx
    simpa [setReceiver] using h
  · simp [setReceiver, hx]

theorem opened_add (q : Receiver K V) : (s.add q).opened = s.opened + q.isOpen.toNat := by
  rw [opened_eq_sum, opened_eq_sum]
  show ∑ x ∈ Finset.range (s.made + 1), _ = _
  rw [sum_range_succ]
  congr 1
  · apply sum_congr rfl
    intro x hx
    have hne : x ≠ s.made := (mem_range.mp hx).ne
    simp [System.add, hne]
  · simp [System.add]

theorem leaving_setCall (hi : s.calls[i]? = some c) (ht : t.calls = s.calls) :
    (t.setCall i c').leaving + c.leaves = s.leaving + c'.leaves := by
  show weigh _ (t.calls.set i c') + _ = _
  rw [ht]
  exact weigh_set _ hi c'

theorem leaving_begin : (s.begin c).leaving = s.leaving + c.leaves :=
  weigh_append_singleton _ _ _

theorem leaving_eq_zero (h : ∀ c ∈ s.calls, c.after = .nothing) : s.leaving = 0 :=
  weigh_eq_zero fun c hc => if_pos (h c hc)

/-! ### The invariant -/

/-- While there is a dispatcher, it counts the receivers that are open or on their way off the count. -/
def Counted (s : System K V) : Prop :=
  s.senderLive → s.receiverCount.toNat = s.opened + s.leaving

theorem Counted.init (isAsync : Bool) (capacity : ℕ) :
    Counted (init isAsync capacity : System K V) := by
  intro _
  rw [opened_eq_sum]
  simp [System.init, leaving, fresh, Receiver.isOpen]

namespace Counted

theorem frame (h : Counted s) (hsender : s'.senderLive → s.senderLive)
    (hcount : s'.receiverCount = s.receiverCount)
    (hsum : s'.opened + s'.leaving = s.opened + s.leaving) : Counted s' := by
  intro hs
  rw [hcount, hsum]
  exact h (hsender hs)

theorem begin (h : Counted s) (hc : c.leaves = 0) : Counted (s.begin c) := by
  refine h.frame id rfl ?_
  rw [leaving_begin, hc]
  rfl

theorem setCall (h : Counted s) (hi : s.calls[i]? = some c) (hleaves : c'.leaves = c.leaves) :
    Counted (s.setCall i c') := by
  refine h.frame id rfl ?_
  have hset : (s.setCall i c').leaving + c.leaves = s.leaving + c'.leaves := leaving_setCall hi rfl
  show s.opened + _ = _
  omega

theorem receiver (h : Counted s) (hopen : q.isOpen = (s.receivers r).isOpen) :
    Counted (s.setReceiver r q) := by
  refine h.frame id rfl ?_
  rw [opened_setReceiver_of_eq hopen]
  rfl

theorem leave (h : Counted s) (hr : r < s.made) (hopen : (s.receivers r).isOpen)
    (hq : q.isOpen = false) (hc : c.leaves = 1) : Counted ((s.setReceiver r q).begin c) := by
  refine h.frame id rfl ?_
  have hsum := opened_setReceiver hr q
  simp only [hopen, hq, Bool.toNat_true, Bool.toNat_false] at hsum
  rw [leaving_begin, hc]
  show (s.setReceiver r q).opened + (s.leaving + 1) = _
  omega

theorem one_le (h : Counted s) (hs : s.senderLive) (hi : s.calls[i]? = some c) (hc : c.leaves = 1) :
    1 ≤ s.receiverCount.toNat := by
  have hle : c.leaves ≤ s.leaving := le_weigh Call.leaves hi
  rw [h hs]
  omega

theorem off (h : Counted s) (hi : s.calls[i]? = some c) (hc : c.leaves = 1) :
    Counted (s.leave.setCall i .returned) := by
  intro hs
  have hone := h.one_le hs hi hc
  have hset : (s.leave.setCall i .returned).leaving + c.leaves = s.leaving + 0 :=
    leaving_setCall hi rfl
  have hsub : (s.receiverCount - 1).toNat = s.receiverCount.toNat - 1 :=
    UInt64.toNat_sub_of_le _ _ (UInt64.le_iff_toNat_le.mpr hone)
  have hcount := h hs
  show (s.receiverCount - 1).toNat = s.opened + _
  omega

theorem finish {after : After} (h : Counted s)
    (hi : s.calls[i]? = some (.unsubscribing r [] after)) :
    Counted ((s.finish r after).setCall i .returned) := by
  cases after with
  | nothing => exact h.setCall hi rfl
  | close => exact h.off hi rfl
  | drop =>
    -- that the mailbox is gone does not matter to the count
    exact (h.off hi rfl).receiver (r := r) (q := { s.receivers r with live := false }) rfl

theorem clone {isAsync : Bool} {capacity : ℕ} (h : Counted s)
    (hroom : s.senderLive → s.opened + s.leaving + 1 < 2 ^ 64) (hc : c.leaves = 0) :
    Counted ((s.join.add (fresh isAsync capacity false false)).begin c) := by
  intro hs
  have hcount := h hs
  have hlt := hroom hs
  have hadd : (s.receiverCount + 1).toNat = s.receiverCount.toNat + 1 := by
    rw [UInt64.toNat_add]
    exact Nat.mod_eq_of_lt (by rw [hcount]; exact hlt)
  rw [leaving_begin, hc]
  show (s.receiverCount + 1).toNat = (s.join.add _).opened + (s.leaving + 0)
  rw [hadd, opened_add]
  show _ = s.opened + 1 + (s.leaving + 0)
  omega

theorem add {isAsync out : Bool} {capacity : ℕ} (h : Counted s) :
    Counted (s.add (fresh isAsync capacity true out)) := by
  refine h.frame id rfl ?_
  rw [opened_add]
  rfl

variable [DecidableEq K]

theorem modify (h : Counted s) (k : K) (f : List ℕ → List ℕ) : Counted (s.modify k f) := by
  unfold System.modify
  split
  · exact h.frame id rfl rfl
  · exact h

theorem step (h : Counted s) (hknown : Known s) {a : Action K V} (hcareful : s.careful a)
    (hs : s.step a = some s') : Counted s' := by
  cases step_cases hs with
  | subscribe | unsubscribe | send => exact h.begin rfl
  | closed => exact h
  | close r hheld hopen =>
    have hdropped : (s.receivers r).dropped = false := by
      simpa using (Bool.and_eq_true_iff.mp hheld).2
    apply h.leave (hknown.held_lt hheld) _ rfl rfl
    simp [Receiver.isOpen, hopen, hdropped]
  | dead => exact h.add
  | clone r topics =>
    apply h.clone _ rfl
    intro hs
    simpa [careful, hs] using hcareful
  | convert r hheld =>
    intro hs
    have hopen : (s.receivers r).closed = false := by
      simpa [careful, show s.senderLive = true from hs] using hcareful
    exact h.receiver (r := r) (by simp [Receiver.isOpen, hopen]) hs
  | dropClosed r hheld hidle hclosed =>
    apply h.receiver
    simp [Receiver.isOpen, hclosed]
  | dropAsync r hheld hidle hasync =>
    intro hs
    have hopen : (s.receivers r).closed = false := by
      simpa [careful, show s.senderLive = true from hs, hasync] using hcareful
    have hdropped : (s.receivers r).dropped = false := by
      simpa using (Bool.and_eq_true_iff.mp hheld).2
    exact h.leave (hknown.held_lt hheld) (by simp [Receiver.isOpen, hopen, hdropped])
      (by simp [Receiver.isOpen]) rfl hs
  | dropSync r hheld hidle hopen =>
    have hdropped : (s.receivers r).dropped = false := by
      simpa using (Bool.and_eq_true_iff.mp hheld).2
    exact h.leave (hknown.held_lt hheld) (by simp [Receiver.isOpen, hopen, hdropped])
      (by simp [Receiver.isOpen]) rfl
  | closeSender => exact h.frame id rfl rfl
  | dropSender => exact fun hfalse => nomatch hfalse
  | gone i topics r after hi hgone =>
    -- there is no dispatcher
    intro hs
    have hlive : s.senderLive := by split at hs <;> exact hs
    rw [hgone] at hlive
    cases hlive
  | drain i topics r after hi =>
    exact (h.receiver (q := { s.receivers r with subscriptions := ∅ }) rfl).setCall hi rfl
  | subscribed i r hi => exact h.setCall hi rfl
  | cloned i r hi =>
    exact (h.receiver (q := { s.receivers r with out := true }) rfl).setCall hi rfl
  | present i r k todo clone hi => exact h.setCall hi rfl
  | absent i r k todo after hi => exact h.setCall hi rfl
  | insert i r k todo clone hi =>
    exact (h.receiver (q := { s.receivers r with
      subscriptions := Insert.insert k (s.receivers r).subscriptions }) rfl).setCall hi rfl
  | erase i r k todo after hi =>
    exact (h.receiver (q := { s.receivers r with
      subscriptions := (s.receivers r).subscriptions.erase k }) rfl).setCall hi rfl
  | push i r k todo clone hi =>
    refine (h.modify k _).setCall (c := .pushing r k todo clone) ?_ rfl
    rw [calls_modify]
    exact hi
  | retain i r k todo after hi =>
    refine (h.modify k _).setCall (c := .retaining r k todo after) ?_ rfl
    rw [calls_modify]
    exact hi
  | finish i r after hi => exact h.finish hi
  | refuse i k v hi => exact h.setCall hi rfl
  | look i k v hi => exact h.setCall hi rfl
  | delivered i k v hi => exact h.setCall hi rfl
  | deliver i k v m targets hi =>
    exact (h.receiver (q := { s.receivers m with
      mailbox := (s.receivers m).mailbox.deliver (k, v) }) rfl).setCall hi rfl
  | lost i k v m targets hi => exact h.setCall hi rfl

theorem tallied (h : Counted s) (hs : s.senderLive) : s.Tallied := by
  have hcount := h hs
  refine ⟨hcount, fun hsettled => ?_, fun i r after hi hafter => ?_, fun i k v hi hopen hrefuse => ?_,
    fun i k v hi hnone hsettled => ?_⟩
  · rw [hcount, leaving_eq_zero hsettled]
    rfl
  · have hone := h.one_le hs hi (if_neg hafter)
    intro hzero
    rw [hzero] at hone
    exact absurd hone (by decide)
  · -- the other branch goes on to the mailboxes
    have hlt := (List.getElem?_eq_some_iff.mp hi).1
    simp only [System.advance, hi, hopen, Bool.false_eq_true, false_or] at hrefuse
    split at hrefuse
    · next hzero =>
      rw [hzero] at hcount
      have hsum : 0 = s.opened + s.leaving := hcount
      omega
    · have hcalls := congrArg (fun t : System K V => t.calls[i]?) (Option.some.inj hrefuse)
      simp [System.setCall, List.getElem?_set_self hlt] at hcalls
  · have hzero : s.receiverCount = 0 := by
      apply UInt64.toNat_inj.mp
      rw [hcount, hnone, leaving_eq_zero hsettled]
      rfl
    simp only [System.advance, hi, hzero, or_true, if_true]

end Counted

variable [DecidableEq K]

/-- Along every run of careful steps the count is that of the open receivers, and a send goes by it. -/
theorem tallied_of_careful {isAsync : Bool} {capacity : ℕ}
    (hrun : Run step (fun s a => careful s a) (init isAsync capacity) s) (hs : s.senderLive) :
    s.Tallied := by
  have hinv : Known s ∧ Counted s := by
    apply hrun.invariant (I := fun s => Known s ∧ Counted s)
    · exact ⟨.init isAsync capacity, .init isAsync capacity⟩
    · exact fun t a u h hcareful hstep => ⟨h.1.step hstep, h.2.step h.1 hcareful hstep⟩
  exact hinv.2.tallied hs

def convertedReceiver : List (Action ℕ ℕ) :=
  [.clone 0 [], .advance 0, .convert 0, .close 1, .drain 1 [], .advance 1, .drop 1]

theorem tallied_convertedReceiver : ∃ s : System ℕ ℕ,
    Run step (fun s a => careful s a) (init false 8) s ∧ s.opened = 1 ∧ s.Tallied := by
  have hexec : (exec step careful (init false 8) convertedReceiver).map (fun s =>
      decide (s.opened = 1 ∧ s.senderLive)) = some true := by
    decide
  obtain ⟨s, hs, hfacts⟩ := Option.map_eq_some_iff.mp hexec
  obtain ⟨hopened, hlive⟩ := of_decide_eq_true hfacts
  have hrun := run_of_exec (fun _ _ => id) hs
  exact ⟨s, hrun, hopened, tallied_of_careful hrun hlive⟩

def closedThenDropped (i : ℕ) : List (Action ℕ ℕ) :=
  [.close 0, .drain i [], .advance i, .drop 0, .drain (i + 1) [], .advance (i + 1)]

/-- The call has a message under way. -/
def sendsAt (s : System K V) (i : ℕ) : Option Bool := s.calls[i]?.map Call.sends

/-- With a clone that is open, the count is zero and a message is refused. Without one, the count has
gone below zero, and a message is not refused. -/
theorem not_tallied_dropped :
    (∃ s : System ℕ ℕ, Reachable step (init true 8) s ∧ s.senderLive ∧ s.senderClosed = false ∧
      s.opened = 1 ∧ s.receiverCount = 0 ∧ s.sendsAt 3 = some true ∧
      (s.advance 3).map (fun t => t.sendsAt 3) = some (some false) ∧ ¬ s.Tallied) ∧
    ∃ s : System ℕ ℕ, Reachable step (init true 8) s ∧ s.senderLive ∧ s.senderClosed = false ∧
      s.opened = 0 ∧ s.receiverCount.toNat = 2 ^ 64 - 1 ∧ s.sendsAt 2 = some true ∧
      (s.advance 2).map (fun t => t.sendsAt 2) = some (some true) ∧ ¬ s.Tallied := by
  constructor
  · have hexec : (exec step (fun _ _ => true) (init true 8)
        ([Action.clone 0 [], .advance 0] ++ closedThenDropped 1 ++ [Action.send 1 7])).map (fun s =>
        decide (s.senderLive ∧ s.senderClosed = false ∧ s.opened = 1 ∧ s.receiverCount = 0 ∧
          s.sendsAt 3 = some true ∧
          (s.advance 3).map (fun t => t.sendsAt 3) = some (some false))) = some true := by
      decide
    obtain ⟨s, hs, hfacts⟩ := Option.map_eq_some_iff.mp hexec
    obtain ⟨hlive, hopen, hopened, hcount, hcall, hrefused⟩ := of_decide_eq_true hfacts
    refine ⟨s, reachable_of_exec hs, hlive, hopen, hopened, hcount, hcall, hrefused, fun h => ?_⟩
    have hzero : (0 : UInt64).toNat = 1 + s.leaving := hcount ▸ hopened ▸ h.count
    rw [UInt64.toNat_zero] at hzero
    omega
  · have hexec : (exec step (fun _ _ => true) (init true 8)
        (closedThenDropped 0 ++ [Action.send 1 7])).map (fun s =>
        decide (s.senderLive ∧ s.senderClosed = false ∧ s.opened = 0 ∧
          s.receiverCount.toNat = 2 ^ 64 - 1 ∧ s.sendsAt 2 = some true ∧
          (s.advance 2).map (fun t => t.sendsAt 2) = some (some true) ∧ s.leaving = 0)) =
        some true := by
      decide
    obtain ⟨s, hs, hfacts⟩ := Option.map_eq_some_iff.mp hexec
    obtain ⟨hlive, hopen, hopened, hcount, hcall, hgoes, hleaving⟩ := of_decide_eq_true hfacts
    refine ⟨s, reachable_of_exec hs, hlive, hopen, hopened, hcount, hcall, hgoes, fun h => ?_⟩
    have hzero := h.count
    rw [hopened, hcount, hleaving] at hzero
    omega

end System

end Fibre.Channels.Topic
