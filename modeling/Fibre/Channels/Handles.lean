import Fibre.Math.Crew
import Fibre.Channels.Mpmc.Waiters
import Fibre.Channels.Rendezvous.Core

/-!
# The handles of the MPMC channels

Every handle of a channel carries a flag of its own that says whether it was closed, and the
channel counts its open senders and receivers. A clone is counted and starts out open. A
conversion between the blocking and the asynchronous kind forgets the old handle without running
its `Drop`, so the count stays; the bounded and the rendezvous channels make the new handle open,
the unbounded one keeps the flag.

So a closed handle that is converted is open again without being counted, and one that is cloned
brings a side back whose count was zero.
-/

namespace Fibre.Channels.Handles

open Crew Function Machine Option
open Mpmc (Side)

/-- The kinds of MPMC channels. -/
inductive Family
  | bounded
  | rendezvous
  | unbounded
  deriving DecidableEq

/-- The `closed` flag of a converted handle. -/
def Family.converts (family : Family) (closed : Bool) : Bool :=
  match family with
  | .bounded | .rendezvous => false
  | .unbounded => closed

/-- Blocking or asynchronous handles. -/
inductive Mode
  | sync
  | async
  deriving DecidableEq

structure Handle where
  side : Side
  mode : Mode
  closed : Bool
  deriving DecidableEq

def Handle.counts (side : Side) : Option Handle → ℕ
  | some handle => if handle.side = side ∧ handle.closed = false then 1 else 0
  | none => 0

/-- The counts of a channel and its handles, those that are dropped or converted being `none`;
`underflow` is set when a count of zero is decremented. -/
structure System where
  count : Side → ℕ
  handles : List (Option Handle)
  underflow : Bool

/-- A step of the machine. -/
inductive Action
  | clone (i : ℕ)
  | close (i : ℕ)
  | drop (i : ℕ)
  | toSync (i : ℕ)
  | toAsync (i : ℕ)
  deriving DecidableEq

namespace System

/-- A new channel, with one handle on each side. -/
def init (mode : Mode) : System where
  count _ := 1
  handles := [some ⟨.send, mode, false⟩, some ⟨.recv, mode, false⟩]
  underflow := false

/-- `sender_count -= 1` or `receiver_count -= 1` -/
def release (s : System) (side : Side) : System :=
  if s.count side = 0 then { s with underflow := true }
  else { s with count := update s.count side (s.count side - 1) }

/-- `close`: only the first call for a handle has an effect. -/
def close (s : System) (i : ℕ) (handle : Handle) : System :=
  if handle.closed then s
  else
    { s.release handle.side with
      handles := s.handles.set i (some { handle with closed := true }) }

/-- A conversion: the old handle is forgotten, without its `Drop`. -/
def convert (family : Family) (s : System) (i : ℕ) (handle : Handle) (mode : Mode) : System :=
  let handle := { handle with mode := mode, closed := family.converts handle.closed }
  { s with handles := s.handles.set i (some handle) }

/-- The handle `i`, unless it is gone. -/
def handle (s : System) (i : ℕ) : Option Handle := s.handles[i]?.join

/-- The system after an action; `none` when it is not possible. -/
def step (family : Family) (s : System) : Action → Option System
  | .clone i => (s.handle i).map fun handle =>
    { s with
      count := update s.count handle.side (s.count handle.side + 1)
      handles := s.handles ++ [some { handle with closed := false }] }
  | .close i => (s.handle i).map (s.close i)
  | .drop i => (s.handle i).map fun handle =>
    { s.close i handle with handles := s.handles.set i none }
  | .toSync i => (s.handle i).bind fun handle =>
    if handle.mode = .async then some (s.convert family i handle .sync) else none
  | .toAsync i => (s.handle i).bind fun handle =>
    if handle.mode = .sync then some (s.convert family i handle .async) else none

def Counted (s : System) : Prop :=
  (∀ side, s.count side = weigh (Handle.counts side) s.handles) ∧ s.underflow = false

/-- No closed handle is converted into an open one, and none is cloned while its side is gone. -/
def Honest (family : Family) (s : System) : Action → Prop
  | .clone i => ∀ handle, s.handle i = some handle → s.count handle.side ≠ 0
  | .toSync i | .toAsync i => ∀ handle, s.handle i = some handle → handle.closed = true →
      family.converts true = true
  | .close _ | .drop _ => True

def StaysGone (s t : System) : Prop := ∀ side, s.count side = 0 → t.count side = 0

variable {family : Family} {s t : System} {i : ℕ} {h h' : Handle} {side : Side}

/-! ### The counts behind the locks -/

section Cores

variable {T : Type*}

def boundedCounts (c : Mpmc.Internal T) : Side → ℕ
  | .send => c.senderCount
  | .recv => c.receiverCount

def rendezvousCounts (c : Rendezvous.Core T) : Side → ℕ
  | .send => c.senderCount
  | .recv => c.receiverCount

/-- `closeSender` and `closeReceiver` count as `release` does. -/
theorem release_bounded (c : Mpmc.Internal T) (capacity : UInt64) (hs : s.count = boundedCounts c) :
    (s.release .send).count = boundedCounts c.closeSender ∧
      (s.release .recv).count = boundedCounts (c.closeReceiver capacity) := by
  constructor <;> funext side <;> cases side <;>
    simp only [release, hs, boundedCounts, Mpmc.Internal.closeSender, Mpmc.Internal.closeReceiver,
      Mpmc.Internal.finishAll] <;>
    split_ifs <;> simp_all [boundedCounts, update]

theorem release_rendezvous (c : Rendezvous.Core T) (hs : s.count = rendezvousCounts c) :
    (s.release .send).count = rendezvousCounts c.dropSender ∧
      (s.release .recv).count = rendezvousCounts c.dropReceiver := by
  constructor <;> funext side <;> cases side <;>
    simp only [release, hs, rendezvousCounts, Rendezvous.Core.dropSender,
      Rendezvous.Core.dropReceiver, Rendezvous.Core.disconnect] <;>
    split_ifs <;> simp_all [rendezvousCounts, update]

end Cores

/-! ### What a step does to the counts -/

theorem handle_eq_some_iff : s.handle i = some h ↔ s.handles[i]? = some (some h) := by
  simp [handle, join_eq_some_iff]

theorem weigh_replace (hi : s.handle i = some h) (new : Option Handle) (side : Side) :
    weigh (Handle.counts side) (s.handles.set i new) + Handle.counts side (some h) =
      weigh (Handle.counts side) s.handles + Handle.counts side new :=
  weigh_set (Handle.counts side) (handle_eq_some_iff.mp hi) new

theorem Counted.pos (hs : s.Counted) (hi : s.handle i = some h) (hopen : h.closed = false) :
    s.count h.side ≠ 0 := by
  have hle := le_weigh (Handle.counts h.side) (handle_eq_some_iff.mp hi)
  rw [hs.1]
  simp only [Handle.counts, hopen, and_self, if_true] at hle
  omega

theorem Counted.clone (hs : s.Counted) (h : Handle) :
    ({ s with
      count := update s.count h.side (s.count h.side + 1)
      handles := s.handles ++ [some { h with closed := false }] } : System).Counted := by
  refine ⟨fun side => ?_, hs.2⟩
  rw [weigh_append_singleton, ← hs.1]
  simp only [Handle.counts, and_true]
  by_cases hside : h.side = side
  · subst hside
    simp
  · simp [hside, update_of_ne (Ne.symm hside)]

theorem Counted.close (hs : s.Counted) (hi : s.handle i = some h) (new : Option Handle)
    (hnew : ∀ side, Handle.counts side new = 0) :
    ({ s.close i h with handles := s.handles.set i new } : System).Counted ∧
      s.StaysGone (s.close i h) := by
  have hweigh := weigh_replace hi new
  by_cases hclosed : h.closed = true
  · have hzero : ∀ side, Handle.counts side (some h) = 0 := fun side => by
      simp [Handle.counts, hclosed]
    refine ⟨⟨fun side => ?_, ?_⟩, fun side hgone => ?_⟩
    · have hw := hweigh side
      rw [hnew, hzero] at hw
      simp only [System.close, hclosed, if_true]
      exact (hs.1 side).trans hw.symm
    · simpa [System.close, hclosed] using hs.2
    · simpa [System.close, hclosed] using hgone
  · have hpos := hs.pos hi (by simpa using hclosed)
    have hcount : ∀ side, (s.close i h).count side + Handle.counts side (some h) =
        s.count side := by
      intro side
      simp only [System.close, hclosed, release, if_neg hpos, Handle.counts]
      by_cases hside : h.side = side
      · subst hside
        simp
        omega
      · simp [hside, update_of_ne (Ne.symm hside)]
    refine ⟨⟨fun side => ?_, ?_⟩, fun side hgone => ?_⟩
    · have hw := hweigh side
      have hc := hcount side
      have hbefore := hs.1 side
      rw [hnew] at hw
      change (s.close i h).count side = weigh _ (s.handles.set i new)
      omega
    · simpa [System.close, hclosed, release, if_neg hpos] using hs.2
    · have hc := hcount side
      omega

/-- A conversion keeps the counts right if and only if it does not open a closed handle. -/
theorem counted_convert_iff (hs : s.Counted) (hi : s.handle i = some h) (mode : Mode) :
    (s.convert family i h mode).Counted ↔ (h.closed = true → family.converts true = true) := by
  have hweigh := weigh_replace hi (some { h with mode, closed := family.converts h.closed })
  have hiff : (s.convert family i h mode).Counted ↔ ∀ side, Handle.counts side (some h) =
      Handle.counts side (some { h with mode, closed := family.converts h.closed }) := by
    constructor
    · intro ht side
      have hafter : s.count side = weigh (Handle.counts side) (s.handles.set i _) := ht.1 side
      have hbefore := hs.1 side
      have hw := hweigh side
      omega
    · intro hsame
      refine ⟨fun side => ?_, hs.2⟩
      change s.count side = weigh (Handle.counts side) (s.handles.set i _)
      have hbefore := hs.1 side
      have hw := hweigh side
      have := hsame side
      omega
  rw [hiff]
  cases hclosed : h.closed with
  | false =>
    have hkeeps : family.converts false = false := by cases family <;> rfl
    simp [Handle.counts, hkeeps, hclosed]
  | true =>
    simp only [Handle.counts, hclosed, Bool.true_eq_false, and_false, if_false, true_imp_iff]
    cases hopen : family.converts true with
    | true => simp
    | false => simp

/-- A step keeps the handles counted and does not bring a side back, if and only if it is
honest. -/
theorem counted_step_iff {a : Action} (hs : s.Counted) (hstep : s.step family a = some t) :
    t.Counted ∧ s.StaysGone t ↔ s.Honest family a := by
  cases a with
  | clone i =>
    obtain ⟨h, hi, rfl⟩ := map_eq_some_iff.mp hstep
    constructor
    · rintro ⟨-, hgone⟩ h' hi' hzero
      obtain rfl := Option.some.inj (hi.symm.trans hi')
      have := hgone h.side hzero
      simp at this
    · intro honest
      refine ⟨hs.clone h, fun side hzero => ?_⟩
      have hne : side ≠ h.side := by
        rintro rfl
        exact honest h hi hzero
      simpa [update_of_ne hne] using hzero
  | close i =>
    obtain ⟨h, hi, rfl⟩ := map_eq_some_iff.mp hstep
    simp only [Honest, iff_true]
    obtain ⟨hcounted, hgone⟩ := hs.close hi (some { h with closed := true })
      fun side => by simp [Handle.counts]
    refine ⟨?_, hgone⟩
    by_cases hclosed : h.closed = true
    · rw [close, if_pos hclosed]
      exact hs
    · simpa only [close, if_neg hclosed] using hcounted
  | drop i =>
    obtain ⟨h, hi, rfl⟩ := map_eq_some_iff.mp hstep
    simp only [Honest, iff_true]
    exact hs.close hi none fun _ => rfl
  | toSync i | toAsync i =>
    obtain ⟨h, hi, hstep⟩ := bind_eq_some_iff.mp hstep
    split_ifs at hstep
    obtain rfl := Option.some.inj hstep
    have hgone : ∀ mode, s.StaysGone (s.convert family i h mode) := fun _ _ hzero => hzero
    simp only [Honest, counted_convert_iff hs hi, hgone, and_true]
    constructor
    · intro hkeeps h' hi' hclosed
      obtain rfl := Option.some.inj (hi.symm.trans hi')
      exact hkeeps hclosed
    · exact fun hkeeps => hkeeps h hi

theorem counted_init (mode : Mode) : (init mode).Counted := by
  refine ⟨fun side => ?_, rfl⟩
  cases side <;> rfl

/-- Along honest runs the counts are the numbers of open handles and none underflows, and a side
that is gone stays gone. No other step keeps this. -/
theorem counted_iff_honest {mode : Mode}
    (hrun : Run (step family) (Honest family) (init mode) s) :
    s.Counted ∧ (∀ t, Run (step family) (Honest family) s t → s.StaysGone t) ∧
      ∀ a t, s.step family a = some t → (t.Counted ∧ s.StaysGone t ↔ s.Honest family a) := by
  have hcounted : s.Counted :=
    hrun.invariant (counted_init mode) fun _ _ _ hs honest hstep =>
      ((counted_step_iff hs hstep).mpr honest).1
  refine ⟨hcounted, fun t ht => ?_, fun a t hstep => counted_step_iff hcounted hstep⟩
  -- the run goes on: what holds of `s` and every state reached from it
  have hboth : t.Counted ∧ s.StaysGone t := by
    refine ht.invariant (I := fun t => t.Counted ∧ s.StaysGone t)
      ⟨hcounted, fun _ hzero => hzero⟩ fun u a v hu honest hstep => ?_
    obtain ⟨hv, hgone⟩ := (counted_step_iff hu.1 hstep).mpr honest
    exact ⟨hv, fun side hzero => hgone side (hu.2 side hzero)⟩
  exact hboth.2

/-- The first sender is cloned and dropped, and the clone becomes asynchronous. -/
theorem counted_clone : ∃ s, Run (step .bounded) (Honest .bounded) (init .sync) s ∧
    (s.Counted ∧ (∀ t, Run (step .bounded) (Honest .bounded) s t → s.StaysGone t) ∧
      ∀ a t, s.step .bounded a = some t →
        (t.Counted ∧ s.StaysGone t ↔ s.Honest .bounded a)) ∧
    s.count .send = 1 ∧
      s.handles = [none, some ⟨.recv, .sync, false⟩, some ⟨.send, .async, false⟩] := by
  have hexec : (exec (step .bounded)
      (fun s a => match a with
        | .clone i => (s.handle i).all fun handle => decide (s.count handle.side ≠ 0)
        | .toSync i | .toAsync i => (s.handle i).all fun handle => !handle.closed
        | .close _ | .drop _ => true)
      (init .sync) [.clone 0, .drop 0, .toAsync 2]).map (fun s => (s.count .send, s.handles)) =
      some (1, [none, some ⟨.recv, .sync, false⟩, some ⟨.send, .async, false⟩]) := by
    rfl
  obtain ⟨s, hs, heq⟩ := Option.map_eq_some_iff.mp hexec
  have hrun : Run (step .bounded) (Honest .bounded) (init .sync) s := by
    refine run_of_exec (fun s a hok => ?_) hs
    cases a with
    | clone i =>
      intro handle hi
      simpa [hi] using hok
    | toSync i | toAsync i =>
      intro handle hi hclosed
      simp [hi, hclosed] at hok
    | close i | drop i => trivial
  exact ⟨s, hrun, counted_iff_honest hrun, (Prod.mk.inj heq).1, (Prod.mk.inj heq).2⟩

/-- A closed sender that is converted and dropped is counted down twice, and one that is cloned
brings the senders back. -/
theorem not_counted_of_closed :
    (¬ ∀ s, Reachable (step .bounded) (init .sync) s → s.Counted) ∧
      ¬ ∀ s t, Reachable (step .bounded) (init .sync) s →
        Reachable (step .bounded) s t → s.StaysGone t := by
  constructor
  · intro hall
    have hexec : (exec (step .bounded) (fun _ _ => true) (init .sync)
        [.close 0, .toAsync 0, .drop 0]).map System.underflow = some true := rfl
    obtain ⟨s, hs, hunderflow⟩ := Option.map_eq_some_iff.mp hexec
    have hcounted := hall s (reachable_of_exec hs)
    rw [hcounted.2] at hunderflow
    cases hunderflow
  · intro hall
    have hexec : (exec (step .bounded) (fun _ _ => true) (init .sync) [.close 0]).map
        (fun s => (s.count .send, (s.step .bounded (.clone 0)).map (·.count .send))) =
          some (0, some 1) := rfl
    obtain ⟨s, hs, heq⟩ := Option.map_eq_some_iff.mp hexec
    obtain ⟨hzero, hone⟩ := Prod.mk.inj heq
    obtain ⟨t, ht, hcount⟩ := Option.map_eq_some_iff.mp hone
    have hgone := hall s t (reachable_of_exec hs) (.tail (.refl s) trivial ht) .send hzero
    rw [hgone] at hcount
    cases hcount

end System

end Fibre.Channels.Handles
