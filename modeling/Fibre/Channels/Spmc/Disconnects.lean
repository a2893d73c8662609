import Fibre.Channels.Spmc.Deliveries

/-!
# The end of a topic channel

The close of the sender disconnects the mailboxes that it finds in the lists. A mailbox that is in no
list while the close reads them is not disconnected, then or later: that of a receiver without
subscriptions, of one that was closed, of a clone that is made afterwards. And who is displaced from the
place for the waiter is not woken.
-/

namespace Fibre.Channels.Topic

open Machine Function List Option

namespace Channel

variable {K V : Type*} {s s' : Channel K V} {r j : ℕ} {x : Receive (K × V)} {w : Waiter}

/-- Where the close of the sender has returned, its callers have receivers only that it has found in a
list; and no sleeper is displaced. -/
def covered (s : Channel K V) (a : Action K V) : Bool :=
  s.apart a &&
    match a with
    | .finish => (List.range s.base.made).all fun r => !s.base.held r || decide (r ∈ s.found)
    | .topic (.clone _ _) => s.base.senderLive
    | .topic (.advance i) =>
      match s.base.calls[i]? with
      | some (.subscribing r [] true) => !s.walk.ended || decide (r ∈ s.found)
      | _ => true
    | _ => true

/-- What is found is disconnected, or about to be, and nobody else has a receiver once the close has
returned. -/
structure Cut (s : Channel K V) : Prop where
  inv : s.Inv
  sleeps : s.Sleeps
  alive : s.base.Alive
  begun : s.base.senderClosed = false → s.walk = .open
  found : ∀ r ∈ s.found, r < s.base.made ∧ (r ∈ s.walk.targets ∨ s.isDisconnected r ∨
    (s.base.receivers r).live = false)
  held : s.walk.ended → ∀ r, s.base.held r → r ∈ s.found

/-- A call on a mailbox gets the messages that are there, and then the news; no call sleeps. -/
structure Answered [DecidableEq K] (s : Channel K V) : Prop where
  looks : ∀ j waker expired s', s.step (.look j waker expired) = some s' →
    ∃ x y, s.receives[j]? = some x ∧ s'.receives[j]? = some y ∧
      y.stage = .returned (match (s.mailbox x.receiver).buffer with
        | v :: _ => .value v
        | [] => .disconnected)
  wakes : ∀ x ∈ s.receives, x.sleeper = none

/-! ### Steps -/

theorem Cut.init (isAsync : Bool) (capacity : ℕ) : Cut (init isAsync capacity : Channel K V) :=
  ⟨.init isAsync capacity, .init isAsync capacity, .init isAsync capacity, fun _ => rfl,
    fun _ hr => absurd hr (Finset.notMem_empty _), nofun⟩

theorem isDisconnected_cutOff (s : Channel K V) (r : ℕ) :
    (s.cutOff r).isDisconnected = update s.isDisconnected r true := by
  unfold cutOff
  split
  · next hcut =>
    funext r'
    by_cases hr : r' = r
    · subst hr
      rw [update_self, hcut]
    · rw [update_of_ne hr]
  · exact (wakeConsumer_frame _ r).2.2.2.2.2.2

theorem Cut.quiet (h : Cut s) (hinv : Inv s') (hsleeps : Sleeps s') (boxes : ℕ → Mailbox (K × V))
    (hbase : s'.base = s.base.refill boxes) (hwalk : s'.walk = s.walk) (hfound : s'.found = s.found)
    (hdisconnected : s'.isDisconnected = s.isDisconnected) : Cut s' := by
  refine ⟨hinv, hsleeps, ?_, ?_, ?_, ?_⟩
  · rw [hbase]
    exact ⟨h.alive.alive, h.alive.drops⟩
  · rw [hbase, hwalk]
    exact h.begun
  · rw [hbase, hwalk, hfound, hdisconnected]
    exact h.found
  · rw [hbase, hwalk, hfound]
    exact h.held

section

variable [DecidableEq K]

theorem walk_note (s : Channel K V) (a : Topic.Action K V) :
    (s.note a).found = s.found ∧ (s.note a).isDisconnected = s.isDisconnected ∧
      ((s.note a).walk = s.walk ∨ s.base.senderClosed = false ∧
        (s.note a).walk.ended = false ∧ (s.note a).walk.targets = [] ∧ a = .closeSender) := by
  cases a with
  | advance i =>
    unfold note
    dsimp only
    split
    · next k v m targets _ =>
      split
      · exact ⟨rfl, rfl, .inl rfl⟩
      · split
        · exact ⟨rfl, rfl, .inl rfl⟩
        · obtain ⟨-, -, -, -, hwalk, hfound, hdisconnected⟩ := wakeConsumer_frame
            { s with log := update s.log m (s.log m ++ [Entry.mk i (k, v)]) } m
          exact ⟨hfound, hdisconnected, .inl hwalk⟩
    · split <;> exact ⟨rfl, rfl, .inl rfl⟩
    · exact ⟨rfl, rfl, .inl rfl⟩
  | closeSender =>
    unfold note
    dsimp only
    split
    · exact ⟨rfl, rfl, .inl rfl⟩
    · next hopen => exact ⟨rfl, rfl, .inr ⟨Bool.eq_false_iff.mpr hopen, rfl, rfl, rfl⟩⟩
  | _ => exact ⟨rfl, rfl, .inl rfl⟩

theorem Cut.topic (h : Cut s) {a : Topic.Action K V} (hcovered : s.covered (.topic a))
    (hs : s.step (.topic a) = some s') : Cut s' := by
  have hinv := h.inv.step hs
  have hsleeps := h.sleeps.step (Bool.and_eq_true_iff.mp hcovered).1 hs
  have hbase := (topic_of_step hs).2
  have hmade := System.made_le_of_step hbase
  obtain ⟨hfound, hdisconnected, hwalk⟩ := walk_note s a
  have hs' : s' = { s.note a with base := s'.base } := by
    simp only [Channel.step] at hs
    split_ifs at hs
    obtain ⟨base, -, rfl⟩ := map_eq_some_iff.mp hs
    rfl
  have hfound' : s'.found = s.found := (congrArg Channel.found hs').trans hfound
  have hdisconnected' : s'.isDisconnected = s.isDisconnected :=
    (congrArg Channel.isDisconnected hs').trans hdisconnected
  have hwalk' : s'.walk = (s.note a).walk := by
    rw [hs']
  -- who is found stays so
  have hkeep : ∀ r ∈ s.found, r < s'.base.made ∧ (r ∈ s.walk.targets ∨ s'.isDisconnected r ∨
      (s'.base.receivers r).live = false) := by
    intro r hr
    obtain ⟨hlt, hor⟩ := h.found r hr
    refine ⟨hlt.trans_le hmade, hor.imp_right (Or.imp ?_ ?_)⟩
    · rw [hdisconnected']
      exact id
    · intro hdead
      refine Bool.eq_false_iff.mpr fun hlive => ?_
      rw [live_of_step hs hlt hlive] at hdead
      cases hdead
  refine ⟨hinv, hsleeps, h.alive.step h.inv.known hbase, fun hopen => ?_, fun r hr => ?_,
    fun hended r hr => ?_⟩
  · -- an open sender was open
    have hbefore : s.base.senderClosed = false := by
      refine Bool.eq_false_iff.mpr fun hclosed => ?_
      rw [System.senderClosed_of_step hbase hclosed] at hopen
      cases hopen
    rw [hwalk']
    rcases hwalk with hsame | ⟨-, -, -, rfl⟩
    · rw [hsame]
      exact h.begun hbefore
    · generalize s'.base = base at hbase hopen
      cases System.step_cases hbase
      cases hopen
  · rw [hfound'] at hr
    obtain ⟨hlt, hor⟩ := hkeep r hr
    refine ⟨hlt, ?_⟩
    rw [hwalk']
    rcases hwalk with hsame | ⟨hopen, -, htargets, -⟩
    · rw [hsame]
      exact hor
    · rw [h.begun hopen] at hor
      exact .inr (hor.resolve_left not_mem_nil)
  · rw [hwalk'] at hended
    rw [hfound']
    rcases hwalk with hsame | ⟨-, hgoing, -⟩
    · rw [hsame] at hended
      have hnew := (Bool.and_eq_true_iff.mp hcovered).2
      rcases System.held_before hbase hr with hheld | ⟨i, rfl, hi⟩ | ⟨r', topics, rfl, hgone⟩
      · exact h.held hended r hheld
      · simp only [hi, hended, Bool.not_true, Bool.false_or, decide_eq_true_eq] at hnew
        exact hnew
      · rw [hgone] at hnew
        cases hnew
    · rw [hgoing] at hended
      cases hended

theorem Cut.step (h : Cut s) {a : Action K V} (hcovered : s.covered a)
    (hs : s.step a = some s') : Cut s' := by
  have hinv := h.inv.step hs
  have hsleeps := h.sleeps.step (Bool.and_eq_true_iff.mp hcovered).1 hs
  cases a with
  | topic a => exact h.topic hcovered hs
  | receive =>
    simp only [Channel.step] at hs
    split at hs <;> cases hs
    exact h.quiet hinv hsleeps s.mailbox rfl rfl rfl rfl
  | check | resume | abandon =>
    obtain ⟨x, -, hx⟩ := bind_eq_some_iff.mp hs
    split at hx <;> cases hx
    exact h.quiet hinv hsleeps s.mailbox rfl rfl rfl rfl
  | look j waker expired =>
    rcases base_of_step hs with ⟨b, hb, -⟩ | ⟨boxes, hbase⟩
    · cases hb
    obtain ⟨x, -, hx⟩ := bind_eq_some_iff.mp hs
    split at hx <;> cases hx
    refine h.quiet hinv hsleeps boxes hbase ?_ ?_ ?_ <;>
    · unfold Channel.look
      split <;> rfl
  | visit k =>
    simp only [Channel.step] at hs
    split at hs
    · next start visited hwalk =>
      split at hs <;> cases hs
      refine ⟨hinv, hsleeps, h.alive, fun hopen => ?_, fun r hr => ?_,
        fun hended => by cases hended⟩
      · rw [h.begun hopen] at hwalk
        cases hwalk
      · rcases Finset.mem_union.mp hr with hold | hnew
        · obtain ⟨hlt, hor⟩ := h.found r hold
          rw [hwalk] at hor
          exact ⟨hlt, .inr (hor.resolve_left not_mem_nil)⟩
        · have hmem := mem_toFinset.mp hnew
          exact ⟨h.inv.known.bound k r hmem, .inl hmem⟩
    · cases hs
  | disconnect =>
    simp only [Channel.step] at hs
    split at hs <;> cases hs
    next start visited m targets hwalk =>
    obtain ⟨hbase, -, -, -, hfound⟩ := cutOff_frame s m
    have hnext : (if (s.base.receivers m).live then s.cutOff m else s).base = s.base ∧
        (if (s.base.receivers m).live then s.cutOff m else s).found = s.found := by
      split
      · exact ⟨hbase, hfound⟩
      · exact ⟨rfl, rfl⟩
    -- the mailbox is disconnected, or gone
    have hcut : ∀ r, s.isDisconnected r ∨ r = m →
        (if (s.base.receivers m).live then s.cutOff m else s).isDisconnected r ∨
          (s.base.receivers r).live = false := by
      intro r hr
      by_cases hlive : (s.base.receivers m).live = true
      · rw [if_pos hlive, isDisconnected_cutOff]
        left
        by_cases heq : r = m
        · subst heq
          exact update_self ..
        · rw [update_of_ne heq]
          exact hr.resolve_right heq
      · rw [if_neg hlive]
        refine hr.imp_right ?_
        rintro rfl
        exact Bool.eq_false_iff.mpr hlive
    refine ⟨hinv, hsleeps, ?_, fun hopen => ?_, fun r hr => ?_, fun hended => by cases hended⟩
    · rw [show Channel.base _ = _ from hnext.1]
      exact h.alive
    · have hopen : s.base.senderClosed = false := (congrArg System.senderClosed hnext.1) ▸ hopen
      rw [h.begun hopen] at hwalk
      cases hwalk
    · have hr : r ∈ s.found := hnext.2 ▸ hr
      obtain ⟨hlt, hor⟩ := h.found r hr
      rw [hwalk] at hor
      rw [show Channel.base _ = _ from hnext.1]
      refine ⟨hlt, ?_⟩
      rcases hor with hmem | hdone | hdead
      · rcases mem_cons.mp hmem with heq | hrest
        · exact .inr (hcut r (.inr heq))
        · exact .inl hrest
      · exact .inr (hcut r (.inl hdone))
      · exact .inr (.inr hdead)
  | finish =>
    simp only [Channel.step] at hs
    split at hs
    · next start visited hwalk =>
      split at hs <;> cases hs
      refine ⟨hinv, hsleeps, h.alive, fun hopen => ?_, fun r hr => ?_, fun _ r hr => ?_⟩
      · rw [h.begun hopen] at hwalk
        cases hwalk
      · obtain ⟨hlt, hor⟩ := h.found r hr
        rw [hwalk] at hor
        exact ⟨hlt, hor⟩
      · have hall := (Bool.and_eq_true_iff.mp hcovered).2
        have hlt : r < s.base.made := h.inv.known.held_lt hr
        have hone := all_eq_true.mp hall r (mem_range.mpr hlt)
        have hr : s.base.held r = true := hr
        rw [hr, Bool.not_true, Bool.false_or] at hone
        exact of_decide_eq_true hone
    · cases hs

end

/-! ### What comes of it -/

theorem Cut.disconnected (h : Cut s) (hended : s.walk.ended) (hr : s.base.held r) :
    s.isDisconnected r := by
  obtain ⟨hlt, hor⟩ := h.found r (h.held hended r hr)
  rw [System.held, Bool.and_eq_true, Bool.not_eq_true'] at hr
  rcases hor with htarget | hdone | hdead
  · cases hwalk : s.walk with
    | going => rw [hwalk] at hended; cases hended
    | _ => rw [hwalk] at htarget; cases htarget
  · exact hdone
  · rcases h.alive.alive r hlt with hlive | hdropped
    · rw [hdead] at hlive
      cases hlive
    · rw [hr.2] at hdropped
      cases hdropped

theorem nothing_of_cut (x : Receive (K × V)) (waker : ℕ) (expired : Bool) :
    x.nothing waker expired true = .returned .disconnected := by
  unfold Receive.nothing
  split <;> simp

variable [DecidableEq K]

/-- In every run in which the close finds every receiver that callers have by then and later, each call
on a mailbox ends with a message or with the news, once the close has returned. -/
theorem answered_of_covered {isAsync : Bool} {capacity : ℕ}
    (hrun : Run step (fun s a => covered s a) (init isAsync capacity) s) (hended : s.walk.ended) :
    s.Answered := by
  have h : Cut s := hrun.invariant (.init isAsync capacity) fun _ _ _ ht hc hs => ht.step hc hs
  have hcut : ∀ x ∈ s.receives, x.ended = false → s.isDisconnected x.receiver := fun x hx hgoes =>
    h.disconnected hended (h.inv.borrowed x hx hgoes)
  refine ⟨fun j waker expired s' hs => ?_, fun x hx => ?_⟩
  · obtain ⟨x, hj, hx⟩ := Option.bind_eq_some_iff.mp hs
    split at hx <;> cases hx
    next hstage =>
    have hlt := (List.getElem?_eq_some_iff.mp hj).1
    have hdone := hcut x (List.mem_of_getElem? hj) (by simp [Receive.ended, hstage])
    unfold look
    cases hbuffer : (s.mailbox x.receiver).buffer with
    | nil =>
      refine ⟨x, _, hj, List.getElem?_set_self hlt, ?_⟩
      rw [hbuffer, hdone]
      exact nothing_of_cut x waker expired
    | cons v rest =>
      refine ⟨x, _, hj, List.getElem?_set_self hlt, ?_⟩
      rw [hbuffer]
  · cases hsleeper : x.sleeper with
    | none => rfl
    | some w =>
      have hopen := (h.sleeps x hx w hsleeper).2.2
      rw [hcut x hx (Receive.ended_of_sleeper hsleeper)] at hopen
      cases hopen

/-- A receiver subscribes and goes to sleep. The sender is closed, and the receiver wakes to the
news. -/
def closedSender : List (Action ℕ ℕ) :=
  [.topic (.subscribe 0 1), .topic (.advance 0), .topic (.advance 0), .topic (.advance 0),
    .receive 0 .recv 5, .look 0 0 false, .topic .closeSender, .visit 1, .disconnect, .finish,
    .resume 0, .look 0 0 false]

theorem answered_closedSender : ∃ s : Channel ℕ ℕ,
    Run step (fun s a => covered s a) (init false 8) s ∧ s.walk.ended ∧ s.Answered ∧
      s.receives.map Receive.stage = [.returned .disconnected] := by
  have hexec : (exec step covered (init false 8) closedSender).map
      (fun s => (s.walk.ended, s.receives.map Receive.stage)) =
      some (true, [.returned .disconnected]) := by
    decide
  obtain ⟨s, hs, heq⟩ := Option.map_eq_some_iff.mp hexec
  obtain ⟨hended, hstage⟩ := Prod.mk.inj heq
  have hrun := run_of_exec (C := fun s a => covered s a) (fun _ _ => id) hs
  exact ⟨s, hrun, hended, answered_of_covered hrun hended, hstage⟩

/-- The receiver has not subscribed to anything. -/
def unsubscribed : List (Action ℕ ℕ) :=
  [.topic .closeSender, .finish, .topic .dropSender, .receive 0 .recv 5, .look 0 0 false]

/-- It goes to sleep after the sender is gone. -/
theorem not_answered_unsubscribed : ∃ s : Channel ℕ ℕ, Reachable step (init false 8) s ∧
    s.walk.ended ∧ s.base.senderLive = false ∧ s.base.held 0 ∧ ¬ s.Answered := by
  have hexec : (exec step (fun _ _ => true) (init false 8) unsubscribed).map
      (fun s => decide (s.walk.ended ∧ s.base.senderLive = false ∧ s.base.held 0 ∧
        s.receives.map Receive.sleeper = [some (.sync 5)])) = some true := by
    decide
  obtain ⟨s, hs, hfacts⟩ := Option.map_eq_some_iff.mp hexec
  obtain ⟨hended, hgone, hheld, hsleeper⟩ := of_decide_eq_true hfacts
  refine ⟨s, reachable_of_exec hs, hended, hgone, hheld, fun hanswered => ?_⟩
  obtain ⟨x, hx, hw⟩ := List.mem_map.mp (hsleeper ▸ List.mem_cons_self :
    some (Waiter.sync 5) ∈ s.receives.map Receive.sleeper)
  rw [hanswered.wakes x hx] at hw
  cases hw

end Channel

end Fibre.Channels.Topic
