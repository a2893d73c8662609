import Fibre.Channels.Spmc.MailboxSteps
import Fibre.Channels.Spmc.Subscriptions

/-!
# What comes to a mailbox, and who takes it

A message goes to every mailbox of the list as its call has read it, one after the other, and a
mailbox is in a list once. So a call comes to a mailbox once, and its message is either put in behind
the earlier ones or counted as dropped. The calls that receive take the messages from the front.

A call that finds the mailbox empty sleeps in the one place for a waiter. While no other call takes the
place, whoever puts a message into the mailbox finds the sleeper there.
-/

namespace Fibre.Channels.Topic

open Machine Function List

/-- What a mailbox got, what it gave, and what is in it. -/
structure Box.Stored {K V : Type*} (b : Box K V) : Prop where
  fifo : b.taken.map Taken.message ++ b.mailbox.buffer = b.log.map Entry.message
  room : b.mailbox.buffer.length ≤ b.mailbox.capacity
  /-- a message is dropped only while the mailbox is full -/
  full : ∀ e ∈ b.lost, e.length = b.mailbox.capacity
  count : b.mailbox.droppedCount = b.lost.length

namespace Channel

variable {K V : Type*} {s s' t : Channel K V} {r m i j : ℕ} {x y : Receive (K × V)} {w : Waiter}

/-- The calls whose message came to a mailbox, and was put into it or dropped. -/
def heard (s : Channel K V) (r : ℕ) : List ℕ :=
  (s.log r).map Entry.call ++ (s.lost r).map Loss.call

/-- What every step keeps. -/
structure Inv (s : Channel K V) : Prop where
  known : s.base.Known
  stored : ∀ r, (s.box r).Stored
  unmade : ∀ r, s.base.made ≤ r → s.log r = [] ∧ s.lost r = []
  /-- a call that has come to the mailbox does not come again -/
  spent : ∀ r, ∀ i ∈ s.heard r, System.Avoids i r s.base
  once : ∀ r, (s.heard r).Nodup
  readers : ∀ r, ((s.taken r).map Taken.reader).Nodup
  took : ∀ r, ∀ e ∈ s.taken r, ∃ x, s.receives[e.reader]? = some x ∧ x.receiver = r ∧
    x.stage = .returned (.value e.message)
  given : ∀ (j : ℕ) (x : Receive (K × V)) (v : K × V), s.receives[j]? = some x →
    x.stage = .returned (.value v) → ⟨j, v⟩ ∈ s.taken x.receiver
  /-- a call has its receiver until it is over -/
  borrowed : ∀ x ∈ s.receives, x.ended = false → s.base.held x.receiver

/-- A call that sleeps is the one that waits at its mailbox, and there is nothing for it. -/
def Sleeps (s : Channel K V) : Prop :=
  ∀ x ∈ s.receives, ∀ w, x.sleeper = some w → s.consumerWaiter x.receiver = some w ∧
    (s.mailbox x.receiver).buffer = [] ∧ s.isDisconnected x.receiver = false

/-- A call goes to sleep only where no other one sleeps. -/
def apart (s : Channel K V) : Action K V → Bool
  | .look j waker expired =>
    match s.receives[j]? with
    | some x =>
      match x.nothing waker expired false with
      | .parked w _ => s.receives.all fun y =>
          decide (y.receiver ≠ x.receiver ∨ y.sleeper = none ∨ y.sleeper = some w)
      | _ => true
    | none => true
  | _ => true

/-- There is one call on a receiver at a time. -/
def single (s : Channel K V) : Action K V → Bool
  | .receive r _ _ => s.receives.all fun x => decide (x.receiver ≠ r) || x.ended
  | _ => true

/-! ### Messages -/

theorem Inv.init (isAsync : Bool) (capacity : ℕ) : Inv (init isAsync capacity : Channel K V) := by
  refine ⟨.init isAsync capacity, fun r => ⟨?_, ?_, nofun, ?_⟩, fun _ _ => ⟨rfl, rfl⟩, nofun,
    fun _ => .nil, fun _ => .nil, nofun, nofun, nofun⟩ <;>
  · by_cases hr : r = 0 <;>
      simp [Channel.init, box, mailbox, System.init, System.fresh, System.absent, hr]

theorem Change.stored {a : Action K V} {b : Box K V} (hchange : Change s a r b) (h : (s.box r).Stored)
    (hunmade : s.base.made ≤ r → s.log r = [] ∧ s.lost r = []) : b.Stored := by
  have hfifo : (s.taken r).map Taken.message ++ (s.mailbox r).buffer =
    (s.log r).map Entry.message := h.fifo
  have hroom : (s.mailbox r).buffer.length ≤ (s.mailbox r).capacity := h.room
  have hfull : ∀ e ∈ s.lost r, e.length = (s.mailbox r).capacity := h.full
  have hcount : (s.mailbox r).droppedCount = (s.lost r).length := h.count
  cases hchange with
  | same => exact ⟨hfifo, hroom, hfull, hcount⟩
  | made capacity hmade =>
    -- nothing has come to a mailbox that was not made
    obtain ⟨hlog, hlost⟩ := hunmade hmade.ge
    have hnil : (s.taken r).map Taken.message ++ (s.mailbox r).buffer = [] := by
      rw [hfifo, hlog, map_nil]
    have htaken := (append_eq_nil_iff.mp hnil).1
    refine ⟨?_, Nat.zero_le _, ?_, ?_⟩
    · show (s.taken r).map Taken.message ++ [] = (s.log r).map Entry.message
      rw [htaken, hlog]
      rfl
    · show ∀ e ∈ s.lost r, e.length = capacity
      rw [hlost]
      exact nofun
    · show 0 = (s.lost r).length
      rw [hlost]
      rfl
  | put i k v targets _ _ hlt =>
    refine ⟨?_, ?_, hfull, hcount⟩
    · show (s.taken r).map _ ++ ((s.mailbox r).buffer ++ [(k, v)]) = (s.log r ++ [_]).map _
      rw [← append_assoc, hfifo, map_append]
      rfl
    · show ((s.mailbox r).buffer ++ [(k, v)]).length ≤ (s.mailbox r).capacity
      rw [length_append]
      exact hlt
  | drop i k v targets _ _ hle =>
    refine ⟨hfifo, hroom, fun e he => ?_, ?_⟩
    · rcases mem_append.mp he with hold | hnew
      · exact hfull e hold
      · rw [mem_singleton.mp hnew]
        exact le_antisymm hroom hle
    · show (s.mailbox r).droppedCount + 1 = (s.lost r ++ [_]).length
      rw [length_append, hcount]
      rfl
  | pop j x v rest hj hx hstage hbuffer =>
    refine ⟨?_, ?_, hfull, hcount⟩
    · show (s.taken r ++ [_]).map _ ++ rest = (s.log r).map _
      rw [← hfifo, map_append, append_assoc, hbuffer]
      rfl
    · rw [hbuffer] at hroom
      exact (Nat.le_succ _).trans hroom

section

variable [DecidableEq K]

theorem made_le {a : Action K V} (hs : s.step a = some s') : s.base.made ≤ s'.base.made := by
  rcases base_of_step hs with ⟨b, -, -, hb⟩ | ⟨boxes, hb⟩
  · exact System.made_le_of_step hb
  · exact (congrArg System.made hb).ge

namespace Inv

omit [DecidableEq K] in
theorem unheard (h : Inv s) {k : K} {v : V} {targets : List ℕ}
    (hi : s.base.calls[i]? = some (.delivering k v (r :: targets))) : i ∉ s.heard r := by
  intro hmem
  obtain ⟨c, hc, hnot, -⟩ := h.spent r i hmem
  rw [hi] at hc
  obtain rfl := Option.some.inj hc
  exact hnot mem_cons_self

theorem heard_of_step {a : Action K V} (hs : s.step a = some s') (r : ℕ) :
    (s'.heard r = s.heard r ∧ s'.log r = s.log r ∧ s'.lost r = s.lost r) ∨
      ∃ i k v targets, a = .topic (.advance i) ∧
        s.base.calls[i]? = some (.delivering k v (r :: targets)) ∧
          (s'.heard r).Perm (i :: s.heard r) := by
  have hchange := change_of_step hs r
  generalize hbox : s'.box r = b at hchange
  have hlog : s'.log r = b.log := congrArg Box.log hbox
  have hlost : s'.lost r = b.lost := congrArg Box.lost hbox
  rw [heard, hlog, hlost]
  cases hchange with
  | same | made | pop => exact .inl ⟨rfl, rfl, rfl⟩
  | put i k v targets ha hi =>
    refine .inr ⟨i, k, v, targets, ha, hi, ?_⟩
    show ((s.log r ++ [Entry.mk i (k, v)]).map Entry.call ++ (s.lost r).map Loss.call).Perm _
    rw [map_append, append_assoc]
    exact perm_middle
  | drop i k v targets ha hi =>
    refine .inr ⟨i, k, v, targets, ha, hi, ?_⟩
    show ((s.log r).map Entry.call ++ (s.lost r ++ [Loss.mk i _]).map Loss.call).Perm _
    rw [map_append, ← append_assoc]
    exact perm_append_singleton i _

theorem avoids_of_step (h : Inv s) {a : Action K V} (hs : s.step a = some s') (r : ℕ) :
    ∀ i ∈ s'.heard r, System.Avoids i r s'.base := by
  -- who has come before does not come again
  have hkeep : ∀ i, System.Avoids i r s.base → System.Avoids i r s'.base := by
    intro i havoids
    rcases base_of_step hs with ⟨b, -, -, hb⟩ | ⟨boxes, hb⟩
    · exact havoids.step hb
    · rw [hb]
      exact havoids
  rcases heard_of_step hs r with ⟨hheard, -⟩ | ⟨i, k, v, targets, rfl, hi, hperm⟩
  · rw [hheard]
    exact fun i hmem => hkeep i (h.spent r i hmem)
  · intro j hmem
    rcases mem_cons.mp (hperm.mem_iff.mp hmem) with rfl | hold
    · -- the list had the mailbox once
      have hnodup := (h.known.calls _ (mem_of_getElem? hi)).nodup
      have hcalls := congrArg System.calls (System.delivered_of_step (topic_of_step hs).2 hi)
      have hlt := (List.getElem?_eq_some_iff.mp hi).1
      refine ⟨.delivering k v targets, ?_, (nodup_cons.mp hnodup).1, .inr ⟨rfl, nofun⟩⟩
      rw [hcalls]
      split <;> exact List.getElem?_set_self hlt
    · exact hkeep j (h.spent r j hold)

theorem held_of_step (h : Inv s) {a : Action K V} (hs : s.step a = some s')
    (hx : x ∈ s.receives) (hended : x.ended = false) : s'.base.held x.receiver := by
  have hheld := h.borrowed x hx hended
  have hlt := h.known.held_lt hheld
  rcases base_of_step hs with ⟨b, rfl, hallowed, hb⟩ | ⟨boxes, hb⟩
  · rcases System.keeps_of_step (r := x.receiver) hb with hkeeps | ⟨hmade, -⟩
    · have hnot : b ≠ .drop x.receiver := by
        rintro rfl
        have hall := all_eq_true.mp hallowed x hx
        rw [hended] at hall
        simp at hall
      have hdropped := hkeeps.held.resolve_left hnot
      rw [System.held, Bool.and_eq_true] at hheld ⊢
      refine ⟨hkeeps.out hheld.1, ?_⟩
      rw [hdropped]
      exact hheld.2
    · omega
  · rw [hb]
    exact hheld

omit [DecidableEq K] in
theorem value_of_set {z : Receive (K × V)} {v : K × V} (hz : z.stage ≠ .returned (.value v))
    (hj : (s.receives.set i z)[j]? = some y) (hy : y.stage = .returned (.value v)) :
    s.receives[j]? = some y := by
  by_cases hji : i = j
  · subst hji
    have hmem := List.getElem?_set_self' ▸ hj
    obtain ⟨x, -, rfl⟩ := Option.map_eq_some_iff.mp hmem
    exact absurd hy hz
  · rw [List.getElem?_set_ne hji] at hj
    exact hj

omit [DecidableEq K] in
theorem value_of_map {w : Waiter} {v : K × V} (hj : (s.receives.map (Receive.wake w))[j]? = some y)
    (hy : y.stage = .returned (.value v)) : s.receives[j]? = some y := by
  rw [List.getElem?_map] at hj
  obtain ⟨x, hx, rfl⟩ := Option.map_eq_some_iff.mp hj
  have hended : (x.wake w).ended := by
    rw [Receive.ended, hy]
  rw [Receive.ended_wake] at hended
  rw [Receive.wake_of_ended hended]
  exact hx

theorem taken_of_step {a : Action K V} (hs : s.step a = some s') :
    (s'.taken = s.taken ∧
      ∀ (j : ℕ) (y : Receive (K × V)) (v : K × V), s'.receives[j]? = some y →
        y.stage = .returned (.value v) → s.receives[j]? = some y) ∨
      ∃ j x v, s.receives[j]? = some x ∧ x.ended = false ∧
        s'.receives = s.receives.set j { x with stage := .returned (.value v) } ∧
        s'.taken = update s.taken x.receiver (s.taken x.receiver ++ [⟨j, v⟩]) := by
  cases a with
  | topic a =>
    simp only [step] at hs
    split_ifs at hs
    obtain ⟨base, hbase, rfl⟩ := Option.map_eq_some_iff.mp hs
    left
    rcases note_cases s a with ⟨⟨known, walk, hnote⟩, -⟩ | ⟨i, k, v, m, targets, rfl, -, -, hor⟩
    · rw [hnote]
      exact ⟨rfl, fun _ _ _ hj _ => hj⟩
    · rcases hor with ⟨-, hnote⟩ | ⟨-, hnote⟩
      · rw [hnote]
        exact ⟨rfl, fun _ _ _ hj _ => hj⟩
      · rw [hnote]
        refine ⟨(wakeConsumer_frame _ m).2.2.2.1, fun j y v hj hy => ?_⟩
        have hj : ((wakeConsumer { s with
          log := update s.log m (s.log m ++ [Entry.mk i (k, _)]) } m).receives)[j]? =
            some y := hj
        rcases receives_wakeConsumer _ m with heq | ⟨w, heq⟩ <;> rw [heq] at hj
        · exact hj
        · exact value_of_map hj hy
  | receive r method thread =>
    simp only [step] at hs
    split at hs <;> cases hs
    refine .inl ⟨rfl, fun j y v hj hy => ?_⟩
    rcases Nat.lt_or_ge j s.receives.length with hlt | hge
    · rw [List.getElem?_append_left hlt] at hj
      exact hj
    · rw [List.getElem?_append_right hge] at hj
      have hmem := mem_of_getElem? hj
      rw [mem_singleton.mp hmem] at hy
      dsimp only at hy
      split at hy <;> cases hy
  | check j =>
    obtain ⟨x, hj, hx⟩ := Option.bind_eq_some_iff.mp hs
    split at hx <;> cases hx
    refine .inl ⟨rfl, fun _ _ _ hj hy => value_of_set ?_ hj hy⟩
    simp
  | look j =>
    obtain ⟨x, hj, hx⟩ := Option.bind_eq_some_iff.mp hs
    split at hx <;> cases hx
    next hstage =>
    have hended : x.ended = false := by simp [Receive.ended, hstage]
    unfold look
    split
    · exact .inr ⟨j, x, _, hj, hended, rfl, rfl⟩
    · refine .inl ⟨rfl, fun _ _ v hj hy => value_of_set ?_ hj hy⟩
      -- a call that finds nothing gives no message
      unfold Receive.nothing
      split <;> (try split) <;> (try split) <;> simp
  | resume j =>
    obtain ⟨x, hj, hx⟩ := Option.bind_eq_some_iff.mp hs
    split at hx <;> cases hx
    refine .inl ⟨rfl, fun _ _ _ hj hy => value_of_set ?_ hj hy⟩
    simp
  | abandon j =>
    obtain ⟨x, hj, hx⟩ := Option.bind_eq_some_iff.mp hs
    split at hx <;> cases hx
    refine .inl ⟨rfl, fun _ _ _ hj hy => value_of_set ?_ hj hy⟩
    simp
  | visit =>
    simp only [step] at hs
    split at hs
    · split at hs <;> cases hs
      exact .inl ⟨rfl, fun _ _ _ hj _ => hj⟩
    · cases hs
  | disconnect =>
    simp only [step] at hs
    split at hs <;> cases hs
    next start visited m targets hwalk =>
    left
    split
    · refine ⟨(cutOff_frame s m).2.2.2.1, fun j y v hj hy => ?_⟩
      have hj : (s.cutOff m).receives[j]? = some y := hj
      unfold cutOff at hj
      split at hj
      · exact hj
      · rcases receives_wakeConsumer _ m with heq | ⟨w, heq⟩ <;> rw [heq] at hj
        · exact hj
        · exact value_of_map hj hy
    · exact ⟨rfl, fun _ _ _ hj _ => hj⟩
  | finish =>
    simp only [step] at hs
    split at hs
    · split at hs <;> cases hs
      exact .inl ⟨rfl, fun _ _ _ hj _ => hj⟩
    · cases hs

theorem step (h : Inv s) {a : Action K V} (hs : s.step a = some s') : Inv s' := by
  have hmade := made_le hs
  refine ⟨?_, fun r => ?_, fun r hr => ?_, h.avoids_of_step hs, fun r => ?_, ?_, ?_, ?_,
    fun y hy hended => ?_⟩
  · rcases base_of_step hs with ⟨b, -, -, hb⟩ | ⟨boxes, hb⟩
    · exact h.known.step hb
    · rw [hb]
      exact h.known.refill boxes
  · exact (change_of_step hs r).stored (h.stored r) (h.unmade r)
  · -- no message is under way to a mailbox that was not made
    rcases heard_of_step hs r with ⟨-, hlog, hlost⟩ | ⟨i, k, v, targets, -, hi, -⟩
    · rw [hlog, hlost]
      exact h.unmade r (hmade.trans hr)
    · have hlt := (h.known.calls _ (mem_of_getElem? hi)).targets r mem_cons_self
      omega
  · rcases heard_of_step hs r with ⟨hheard, -⟩ | ⟨i, k, v, targets, -, hi, hperm⟩
    · rw [hheard]
      exact h.once r
    · exact hperm.nodup_iff.mpr (nodup_cons.mpr ⟨h.unheard hi, h.once r⟩)
  · intro r
    rcases taken_of_step hs with ⟨htaken, -⟩ | ⟨j, x, v, hj, hended, -, htaken⟩
    · rw [htaken]
      exact h.readers r
    · rw [htaken]
      by_cases hr : r = x.receiver
      · subst hr
        rw [update_self, map_append]
        refine concat_eq_append ▸ (h.readers _).concat fun hmem => ?_
        -- the call had not returned
        obtain ⟨e, he, rfl⟩ := mem_map.mp hmem
        obtain ⟨y, hy, -, hstage⟩ := h.took _ e he
        rw [hj] at hy
        obtain rfl := Option.some.inj hy
        simp [Receive.ended, hstage] at hended
      · rw [update_of_ne hr]
        exact h.readers r
  · intro r e he
    have hkeep : e ∈ s.taken r → ∃ x, s'.receives[e.reader]? = some x ∧ x.receiver = r ∧
        x.stage = .returned (.value e.message) := by
      intro hold
      obtain ⟨x, hx, hreceiver, hstage⟩ := h.took r e hold
      exact ⟨x, receive_of_step hs hx (by rw [Receive.ended, hstage]), hreceiver, hstage⟩
    rcases taken_of_step hs with ⟨htaken, -⟩ | ⟨j, x, v, hj, -, hreceives, htaken⟩
    · rw [htaken] at he
      exact hkeep he
    · rw [htaken] at he
      by_cases hr : r = x.receiver
      · subst hr
        rw [update_self] at he
        rcases mem_append.mp he with hold | hnew
        · exact hkeep hold
        · obtain rfl := mem_singleton.mp hnew
          refine ⟨{ x with stage := .returned (.value v) }, ?_, rfl, rfl⟩
          rw [hreceives]
          exact List.getElem?_set_self (List.getElem?_eq_some_iff.mp hj).1
      · rw [update_of_ne hr] at he
        exact hkeep he
  · intro j y v hj hstage
    rcases taken_of_step hs with ⟨htaken, hback⟩ | ⟨i, x, u, hi, -, hreceives, htaken⟩
    · rw [htaken]
      exact h.given j y v (hback j y v hj hstage) hstage
    · rw [htaken]
      rw [hreceives] at hj
      by_cases hji : i = j
      · subst hji
        rw [List.getElem?_set_self (List.getElem?_eq_some_iff.mp hi).1] at hj
        obtain rfl := Option.some.inj hj
        obtain rfl : u = v := by simpa using hstage
        rw [update_self]
        exact mem_append_right _ mem_cons_self
      · rw [List.getElem?_set_ne hji] at hj
        have hold := h.given j y v hj hstage
        by_cases hr : y.receiver = x.receiver
        · rw [hr, update_self]
          exact mem_append_left _ (hr ▸ hold)
        · rw [update_of_ne hr]
          exact hold
  · obtain ⟨j, hj⟩ := mem_iff_getElem?.mp hy
    rcases receive_before hs hj with ⟨x, hx, hreceiver, hsame⟩ | ⟨-, -, hheld, method, thread, rfl⟩
    · have hnot : x.ended = false := by
        cases hended' : x.ended with
        | false => rfl
        | true =>
          rw [hsame hended', hended'] at hended
          cases hended
      rw [← hreceiver]
      exact h.held_of_step hs (mem_of_getElem? hx) hnot
    · rcases base_of_step hs with ⟨b, hb, -⟩ | ⟨boxes, hb⟩
      · cases hb
      · rw [hb]
        exact hheld

end Inv

/-! ### A message that is under way -/

/-- The message of call `i` is still to come to the mailbox, or it has come, unless the receiver is
gone. -/
def Served (s : Channel K V) (i r : ℕ) (message : K × V) : Prop :=
  r < s.base.made ∧
    ((∃ targets, s.base.calls[i]? = some (.delivering message.1 message.2 targets) ∧ r ∈ targets) ∨
      ((s.base.receivers r).live → ⟨i, message⟩ ∈ s.log r ∨ i ∈ (s.lost r).map Loss.call))

theorem live_of_step {a : Action K V} (hs : s.step a = some s') (hr : r < s.base.made)
    (hlive : (s'.base.receivers r).live) : (s.base.receivers r).live := by
  rcases base_of_step hs with ⟨b, -, -, hb⟩ | ⟨boxes, hb⟩
  · rcases System.keeps_of_step (r := r) hb with hkeeps | ⟨hmade, -⟩
    · exact hkeeps.live hlive
    · omega
  · rw [hb] at hlive
    exact hlive

theorem served_of_delivery {k : K} {v : V} {targets : List ℕ}
    (hs : s.step (.topic (.advance i)) = some s')
    (hi : s.base.calls[i]? = some (.delivering k v (r :: targets)))
    (hlive : (s.base.receivers r).live) :
    ⟨i, (k, v)⟩ ∈ s'.log r ∨ i ∈ (s'.lost r).map Loss.call := by
  simp only [step] at hs
  split_ifs at hs
  obtain ⟨base, hbase, rfl⟩ := Option.map_eq_some_iff.mp hs
  rcases note_cases s (.advance i) with ⟨-, hdead⟩ | ⟨j, k', v', m, targets', hj, hi', -, hor⟩
  · rw [hdead i k v r targets rfl hi] at hlive
    cases hlive
  · cases hj
    rw [hi] at hi'
    cases hi'
    rcases hor with ⟨-, hnote⟩ | ⟨-, hnote⟩ <;> rw [hnote]
    · right
      show i ∈ (update s.lost r _ r).map Loss.call
      rw [update_self, map_append]
      exact mem_append_right _ mem_cons_self
    · left
      have hlog := (wakeConsumer_frame
        { s with log := update s.log r (s.log r ++ [Entry.mk i (k, v)]) } r).2.1
      refine (congrArg (fun log => Entry.mk i (k, v) ∈ log r) hlog).mpr ?_
      show _ ∈ update s.log r _ r
      rw [update_self]
      exact mem_append_right _ mem_cons_self

theorem Served.step {message : K × V} (h : s.Served i r message) {a : Action K V}
    (hs : s.step a = some s') : s'.Served i r message := by
  obtain ⟨hr, hor⟩ := h
  refine ⟨hr.trans_le (made_le hs), ?_⟩
  rcases hor with ⟨targets, hi, hmem⟩ | hdone
  · rcases base_of_step hs with ⟨b, rfl, -, hb⟩ | ⟨boxes, hb⟩
    · by_cases hadvance : b = .advance i
      · -- the call goes to its next mailbox
        subst hadvance
        cases targets with
        | nil => cases hmem
        | cons m targets =>
          rcases mem_cons.mp hmem with rfl | hrest
          · right
            intro hlive
            exact served_of_delivery hs hi (live_of_step hs hr hlive)
          · left
            have hcalls := congrArg System.calls (System.delivered_of_step hb hi)
            have hlt := (List.getElem?_eq_some_iff.mp hi).1
            refine ⟨targets, ?_, hrest⟩
            rw [hcalls]
            split <;> exact List.getElem?_set_self hlt
      · refine .inl ⟨targets, System.call_of_step hb hi hadvance ?_, hmem⟩
        rintro topics rfl
        simp [System.step, System.drain, hi] at hb
    · left
      rw [hb]
      exact ⟨targets, hi, hmem⟩
  · right
    intro hlive
    obtain ⟨new, hlog, -⟩ := log_of_step hs r
    obtain ⟨gone, hlost⟩ := lost_of_step hs r
    rw [hlog, hlost, map_append]
    exact (hdone (live_of_step hs hr hlive)).imp (mem_append_left _) (mem_append_left _)

theorem served_of_look (h : Inv s) {k : K} {v : V}
    (hi : s.base.calls[i]? = some (.sending k v)) (hopen : s.base.senderClosed = false)
    (hcount : s.base.receiverCount ≠ 0) (hr : r ∈ s.base.subscribers k)
    (hs : s.step (.topic (.advance i)) = some s') : s'.Served i r (k, v) := by
  have hmade := h.known.bound k r hr
  refine ⟨hmade.trans_le (made_le hs), .inl ⟨s.base.subscribers k, ?_, hr⟩⟩
  have hb := (topic_of_step hs).2
  simp only [System.step, System.advance, hi, hopen, hcount, Bool.false_eq_true, or_self,
    if_false, Option.some.injEq] at hb
  rw [← hb]
  exact List.getElem?_set_self (List.getElem?_eq_some_iff.mp hi).1

/-! ### The order of the messages -/

theorem returned_of_step {a : Action K V} (hs : s.step a = some s')
    (hi : s.base.calls[i]? = some .returned) : s'.base.calls[i]? = some .returned := by
  rcases base_of_step hs with ⟨b, -, -, hb⟩ | ⟨boxes, hb⟩
  · exact System.returned_of_step hb hi
  · rw [hb]
    exact hi

theorem log_of_run (hrun : Reachable step s t) (r : ℕ) :
    ∃ new, t.log r = s.log r ++ new ∧ ∀ e ∈ new, s.base.calls[e.call]? ≠ some .returned := by
  -- the calls that had returned by the first state stay so
  have hboth : (∀ i : ℕ, s.base.calls[i]? = some .returned → t.base.calls[i]? = some .returned) ∧
      ∃ new, t.log r = s.log r ++ new ∧
        ∀ e ∈ new, s.base.calls[e.call]? ≠ some .returned := by
    induction hrun with
    | refl => exact ⟨fun _ => id, [], (append_nil _).symm, nofun⟩
    | tail _ _ hs ih =>
      obtain ⟨hreturned, new, hlog, hnew⟩ := ih
      obtain ⟨more, hmore, hunder⟩ := log_of_step hs r
      refine ⟨fun i hi => returned_of_step hs (hreturned i hi), new ++ more, ?_, fun e he => ?_⟩
      · rw [hmore, hlog, append_assoc]
      · rcases mem_append.mp he with hold | hlast
        · exact hnew e hold
        · intro hfalse
          obtain ⟨k, v, targets, hcall⟩ := hunder e hlast
          rw [hreturned _ hfalse] at hcall
          cases hcall
  exact hboth.2

omit [DecidableEq K] in
theorem Inv.began (h : Inv s) {e : Entry K V} (he : e ∈ s.log r) : e.call < s.base.calls.length := by
  obtain ⟨c, hc, -⟩ := h.spent r e.call (mem_append_left _ (mem_map_of_mem he))
  exact (List.getElem?_eq_some_iff.mp hc).1

/-! ### Sleepers -/

omit [DecidableEq K] in
theorem Sleeps.init (isAsync : Bool) (capacity : ℕ) :
    Sleeps (init isAsync capacity : Channel K V) :=
  fun _ hx => absurd hx not_mem_nil

omit [DecidableEq K] in
theorem Sleeps.wakeConsumer (h : Sleeps s) (hx : x ∈ (s.wakeConsumer m).receives)
    (hw : x.sleeper = some w) : x.receiver ≠ m ∧
      (s.wakeConsumer m).consumerWaiter x.receiver = some w ∧
        (s.mailbox x.receiver).buffer = [] ∧ s.isDisconnected x.receiver = false := by
  unfold Channel.wakeConsumer at hx ⊢
  cases hwaiter : s.consumerWaiter m with
  | none =>
    simp only [hwaiter] at hx ⊢
    obtain ⟨hreceiver, hrest⟩ := h x hx w hw
    refine ⟨?_, hreceiver, hrest⟩
    rintro rfl
    rw [hwaiter] at hreceiver
    cases hreceiver
  | some w' =>
    simp only [hwaiter] at hx ⊢
    obtain ⟨y, hy, rfl⟩ := mem_map.mp hx
    obtain ⟨hsleeper, hne⟩ := Receive.sleeper_wake hw
    obtain ⟨hreceiver, hrest⟩ := h y hy w hsleeper
    rw [Receive.wake_receiver]
    have hm : y.receiver ≠ m := by
      rintro rfl
      rw [hwaiter] at hreceiver
      exact hne (Option.some.inj hreceiver).symm
    refine ⟨hm, ?_, hrest⟩
    rw [update_of_ne hm]
    exact hreceiver

omit [DecidableEq K] in
theorem Sleeps.setReceive (h : Sleeps s) (hx : x.sleeper = none) : Sleeps (s.setReceive j x) := by
  intro y hy w hw
  rcases mem_or_eq_of_mem_set hy with hold | rfl
  · exact h y hold w hw
  · rw [hx] at hw
    cases hw

theorem Sleeps.topic (h : Sleeps s) {a : Topic.Action K V} {base : System K V}
    (hbase : s.base.step a = some base) : Sleeps { s.note a with base := base } := by
  rcases note_cases s a with ⟨⟨known, walk, hnote⟩, hdead⟩ | ⟨i, k, v, m, targets, rfl, hi, hlive, hor⟩
  · rw [hnote]
    intro x hx w hw
    obtain ⟨hwaiter, hbuffer, hopen⟩ := h x hx w hw
    refine ⟨hwaiter, ?_, hopen⟩
    show (base.receivers x.receiver).mailbox.buffer = []
    rcases System.keeps_of_step (r := x.receiver) hbase with hkeeps | ⟨-, _, _, _, _, hfresh⟩
    · rcases hkeeps.mailbox with hsame | ⟨i, k, v, targets, ha, hi, hlive, -⟩
      · rw [hsame]
        exact hbuffer
      · rw [hdead i k v _ targets ha hi] at hlive
        cases hlive
    · rw [hfresh]
      rfl
  · have hafter := System.delivered_of_step hbase hi
    rw [if_pos hlive] at hafter
    have hother : ∀ r, r ≠ m → (base.receivers r).mailbox = s.mailbox r := by
      intro r hr
      rw [hafter]
      simp [System.setReceiver, System.setCall, mailbox, hr]
    rcases hor with ⟨hfull, hnote⟩ | ⟨hroom, hnote⟩ <;> rw [hnote]
    · intro x hx w hw
      obtain ⟨hwaiter, hbuffer, hopen⟩ := h x hx w hw
      refine ⟨hwaiter, ?_, hopen⟩
      show (base.receivers x.receiver).mailbox.buffer = []
      by_cases hr : x.receiver = m
      · -- the message was dropped
        rw [hr, hafter]
        simp only [System.setReceiver, System.setCall, update_self]
        have hfull : (s.base.receivers m).mailbox.capacity ≤
          (s.base.receivers m).mailbox.buffer.length := hfull
        rw [Mailbox.deliver, if_pos hfull]
        exact hr ▸ hbuffer
      · rw [hother _ hr]
        exact hbuffer
    · intro x hx w hw
      have hlogged : Sleeps
        { s with log := update s.log m (s.log m ++ [Entry.mk i (k, v)]) } := h
      obtain ⟨hne, hwaiter, hbuffer, hopen⟩ := hlogged.wakeConsumer hx hw
      have hdisconnected := (wakeConsumer_frame
        { s with log := update s.log m (s.log m ++ [Entry.mk i (k, v)]) } m).2.2.2.2.2.2
      refine ⟨hwaiter, ?_, (congrFun hdisconnected _).trans hopen⟩
      show (base.receivers x.receiver).mailbox.buffer = []
      rw [hother _ hne]
      exact hbuffer

omit [DecidableEq K] in
theorem Sleeps.look (h : Sleeps s) {waker : ℕ} {expired : Bool} (hj : s.receives[j]? = some x)
    (hapart : s.apart (.look j waker expired)) : Sleeps (s.look j x waker expired) := by
  unfold Channel.look
  split
  · next v rest hbuffer =>
    -- nobody sleeps at a mailbox with a message
    intro y hy w hw
    rcases mem_or_eq_of_mem_set hy with hold | rfl
    · obtain ⟨hwaiter, hempty, hopen⟩ := h y hold w hw
      have hne : y.receiver ≠ x.receiver := by
        intro heq
        rw [heq, hbuffer] at hempty
        cases hempty
      refine ⟨hwaiter, ?_, hopen⟩
      simp only [Channel.setReceive, pop, mailbox, System.setReceiver]
      rw [update_of_ne hne]
      exact hempty
    · cases hw
  · next hbuffer =>
    cases hopen : s.isDisconnected x.receiver with
    | true =>
      have hnot : ∀ w woken, x.nothing waker expired true ≠ .parked w woken := fun w woken =>
        Receive.nothing_of_disconnected x waker expired woken
      intro y hy w hw
      unfold settle at hy ⊢
      have hwaiter : ∀ waiters : Waiter → ℕ → Option Waiter,
          (match x.nothing waker expired true with
            | .parked w _ => waiters w
            | _ => s.consumerWaiter) = s.consumerWaiter := by
        intro waiters
        split
        · next w woken heq => exact absurd heq (hnot w woken)
        · rfl
      rcases mem_or_eq_of_mem_set hy with hold | rfl
      · obtain ⟨hw', hempty, hopen'⟩ := h y hold w hw
        exact ⟨(congrFun (hwaiter _) _).trans hw', hempty, hopen'⟩
      · exfalso
        unfold Receive.sleeper at hw
        split at hw
        · next w' heq => exact hnot _ _ heq
        · cases hw
    | false =>
      simp only [apart, hj] at hapart
      intro y hy w hw
      unfold settle at hy ⊢
      cases hstage : x.nothing waker expired false with
      | parked w' woken =>
        simp only [hstage] at hapart hy ⊢
        rcases mem_or_eq_of_mem_set hy with hold | rfl
        · obtain ⟨hw', hempty, hopen'⟩ := h y hold w hw
          refine ⟨?_, hempty, hopen'⟩
          by_cases hr : y.receiver = x.receiver
          · have hall := of_decide_eq_true (all_eq_true.mp hapart y hold)
            rw [hw] at hall
            simp only [hr, ne_eq, not_true_eq_false, reduceCtorEq, false_or] at hall
            rw [hr, update_self, hall]
          · rw [update_of_ne hr]
            exact hw'
        · have heq : w' = w := by
            cases woken <;> simp [Receive.sleeper] at hw
            exact hw
          subst heq
          exact ⟨update_self .., hbuffer, hopen⟩
      | _ =>
        simp only [hstage] at hy ⊢
        rcases mem_or_eq_of_mem_set hy with hold | rfl
        · exact h y hold w hw
        · cases hw

theorem Sleeps.step (h : Sleeps s) {a : Action K V} (hapart : s.apart a)
    (hs : s.step a = some s') : Sleeps s' := by
  cases a with
  | topic a =>
    simp only [Channel.step] at hs
    split_ifs at hs
    obtain ⟨base, hbase, rfl⟩ := Option.map_eq_some_iff.mp hs
    exact h.topic hbase
  | receive r method thread =>
    simp only [Channel.step] at hs
    split at hs <;> cases hs
    intro y hy w hw
    rcases mem_append.mp hy with hold | hnew
    · exact h y hold w hw
    · rw [mem_singleton.mp hnew] at hw
      unfold Receive.sleeper at hw
      dsimp only at hw
      split_ifs at hw
  | check j =>
    obtain ⟨x, hj, hx⟩ := Option.bind_eq_some_iff.mp hs
    split at hx <;> cases hx
    exact h.setReceive rfl
  | look j waker expired =>
    obtain ⟨x, hj, hx⟩ := Option.bind_eq_some_iff.mp hs
    split at hx <;> cases hx
    exact h.look hj hapart
  | resume j =>
    obtain ⟨x, hj, hx⟩ := Option.bind_eq_some_iff.mp hs
    split at hx <;> cases hx
    exact h.setReceive rfl
  | abandon j =>
    obtain ⟨x, hj, hx⟩ := Option.bind_eq_some_iff.mp hs
    split at hx <;> cases hx
    exact h.setReceive rfl
  | visit k =>
    simp only [Channel.step] at hs
    split at hs
    · split at hs <;> cases hs
      exact h
    · cases hs
  | disconnect =>
    simp only [Channel.step] at hs
    split at hs <;> cases hs
    next start visited m targets hwalk =>
    split
    · show Sleeps (s.cutOff m)
      unfold cutOff
      split
      · exact h
      · have hsame : (Channel.wakeConsumer { s with
            isDisconnected := update s.isDisconnected m true } m).receives =
              (s.wakeConsumer m).receives ∧ (Channel.wakeConsumer { s with
            isDisconnected := update s.isDisconnected m true } m).consumerWaiter =
              (s.wakeConsumer m).consumerWaiter := by
          unfold Channel.wakeConsumer
          cases hwaiter : s.consumerWaiter m <;> simp only [and_self]
        obtain ⟨hbase, -, -, -, -, -, hdisconnected⟩ := wakeConsumer_frame
          { s with isDisconnected := update s.isDisconnected m true } m
        intro x hx w hw
        rw [hsame.1] at hx
        obtain ⟨hne, hwaiter, hbuffer, hopen⟩ := h.wakeConsumer hx hw
        refine ⟨(congrFun hsame.2 _).trans hwaiter, ?_, ?_⟩
        · rw [mailbox, hbase]
          exact hbuffer
        · rw [hdisconnected]
          exact (update_of_ne hne ..).trans hopen
    · exact h
  | finish =>
    simp only [Channel.step] at hs
    split at hs
    · split at hs <;> cases hs
      exact h
    · cases hs

/-- At most one call on a receiver is under way. -/
def Single (s : Channel K V) : Prop :=
  ∀ (i j : ℕ) (x y : Receive (K × V)), s.receives[i]? = some x → s.receives[j]? = some y →
    x.receiver = y.receiver → x.ended = false → y.ended = false → i = j

omit [DecidableEq K] in
theorem Single.init (isAsync : Bool) (capacity : ℕ) :
    Single (init isAsync capacity : Channel K V) := by
  intro i j x y hi
  rw [show (Channel.init isAsync capacity : Channel K V).receives = [] from rfl,
    List.getElem?_nil] at hi
  cases hi

theorem Single.step (h : Single s) {a : Action K V} (hsingle : s.single a)
    (hs : s.step a = some s') : Single s' := by
  -- a call that is under way was so before
  have hnot : ∀ x y : Receive (K × V), y.ended = false → (x.ended → y = x) → x.ended = false := by
    intro x y hy hsame
    cases hx : x.ended with
    | false => rfl
    | true =>
      rw [hsame hx, hx] at hy
      cases hy
  have hnew : ∀ x ∈ s.receives, ∀ r method thread, a = .receive r method thread →
      x.receiver = r → x.ended = false → False := by
    rintro x hx r method thread rfl hr hended
    have hall := all_eq_true.mp hsingle x hx
    rw [hended] at hall
    simp [hr] at hall
  intro i j x y hi hj hr hx hy
  rcases receive_before hs hi with ⟨x', hi', hr', hsame⟩ | ⟨rfl, -, -, method, thread, ha⟩ <;>
    rcases receive_before hs hj with ⟨y', hj', hr'', hsame'⟩ | ⟨rfl, -, -, method', thread', ha'⟩
  · exact h i j x' y' hi' hj' (by rw [hr', hr, hr'']) (hnot x' x hx hsame) (hnot y' y hy hsame')
  · exact (hnew x' (mem_of_getElem? hi') _ method' thread' ha' (hr'.trans hr)
      (hnot x' x hx hsame)).elim
  · exact (hnew y' (mem_of_getElem? hj') _ method thread ha (hr''.trans hr.symm)
      (hnot y' y hy hsame')).elim
  · rfl

theorem Single.apart (h : Single s) {a : Action K V} (hs : s.step a = some s') : s.apart a := by
  cases a with
  | look j waker expired =>
    obtain ⟨x, hj, hx⟩ := Option.bind_eq_some_iff.mp hs
    split at hx <;> cases hx
    next hstage =>
    simp only [Channel.apart, hj]
    split
    · refine all_eq_true.mpr fun y hy => decide_eq_true ?_
      by_cases hr : y.receiver = x.receiver
      · -- the other call would be this one, which does not sleep
        refine .inr (.inl ?_)
        obtain ⟨i, hi⟩ := mem_iff_getElem?.mp hy
        cases hsleeper : y.sleeper with
        | none => rfl
        | some w =>
          obtain rfl := h i j y x hi hj hr (Receive.ended_of_sleeper hsleeper)
            (by simp [Receive.ended, hstage])
          rw [hi] at hj
          obtain rfl := Option.some.inj hj
          simp [Receive.sleeper, hstage] at hsleeper
      · exact .inl hr
    · rfl
  | _ => rfl

/-! ### What comes of it -/

/-- The steps of the topic channel leave no set and list apart. -/
def clear (s : Channel K V) : Action K V → Bool
  | .topic a => s.base.clear a
  | _ => true

/-- What comes to the mailboxes, and who takes it. -/
structure Delivered (s : Channel K V) : Prop where
  /-- what was taken from a mailbox and what is in it is what was put into it, in this order, and
  what was dropped found it full -/
  stored : ∀ r, (s.box r).Stored
  /-- every message was taken by one call, which returns it -/
  readers : ∀ r, ((s.taken r).map Taken.reader).Nodup
  took : ∀ r, ∀ e ∈ s.taken r, ∃ x, s.receives[e.reader]? = some x ∧ x.receiver = r ∧
    x.stage = .returned (.value e.message)
  given : ∀ (j : ℕ) (x : Receive (K × V)) (v : K × V), s.receives[j]? = some x →
    x.stage = .returned (.value v) → ⟨j, v⟩ ∈ s.taken x.receiver
  /-- a send that finds the mailbox in the list of the topic: when it has returned, and the receiver is
  not gone, its message was put into the mailbox or dropped there, once -/
  served : ∀ (i r : ℕ) (k : K) (v : V) (s' t : Channel K V),
    s.base.calls[i]? = some (.sending k v) → s.base.senderClosed = false →
    s.base.receiverCount ≠ 0 → r ∈ s.base.subscribers k →
    s.step (.topic (.advance i)) = some s' → Reachable Channel.step s' t →
    t.base.calls[i]? = some .returned → (t.base.receivers r).live →
      (⟨i, (k, v)⟩ ∈ t.log r ∨ i ∈ (t.lost r).map Loss.call) ∧ (t.heard r).count i = 1
  /-- what has been put into a mailbox is of calls that had begun by now, and what comes later goes
  behind it and is of calls that have not returned by now -/
  ordered : ∀ (r : ℕ) (t : Channel K V), Reachable Channel.step s t →
    (∀ e ∈ s.log r, e.call < s.base.calls.length) ∧
      ∃ new, t.log r = s.log r ++ new ∧ ∀ e ∈ new, s.base.calls[e.call]? ≠ some .returned

/-- Nobody sleeps beside a message. -/
def Rested (s : Channel K V) : Prop :=
  ∀ x ∈ s.receives, ∀ w, x.sleeper = some w → (s.mailbox x.receiver).buffer = []

/-- A receiver whose set has a topic is in the list of the topic, unless a call is about to change the
list. -/
def Settled (s : Channel K V) : Prop :=
  ∀ r k, s.base.senderLive → (s.base.receivers r).live → (s.base.receivers r).dropped = false →
    ¬ s.base.Pending r k → k ∈ (s.base.receivers r).subscriptions → r ∈ s.base.subscribers k

theorem Inv.deliveries (h : Inv s) : s.Delivered := by
  refine ⟨h.stored, h.readers, h.took, h.given, ?_, ?_⟩
  · intro i r k v s' t hi hopen hcount hr hs hrun hreturned hlive
    have hserved : t.Served i r (k, v) := by
      apply hrun.invariant (I := fun t => t.Served i r (k, v))
      · exact served_of_look h hi hopen hcount hr hs
      · exact fun _ _ _ ht _ hstep => Served.step ht hstep
    have hinv : Inv t := hrun.invariant (h.step hs) fun _ _ _ ht _ hstep => Inv.step ht hstep
    have hdone : ⟨i, (k, v)⟩ ∈ t.log r ∨ i ∈ (t.lost r).map Loss.call := by
      rcases hserved.2 with ⟨targets, hcall, -⟩ | hdone
      · rw [hreturned] at hcall
        cases hcall
      · exact hdone hlive
    refine ⟨hdone, count_eq_one_of_mem (hinv.once r) (mem_append.mpr ?_)⟩
    exact hdone.imp_left fun hmem => mem_map.mpr ⟨_, hmem, rfl⟩
  · exact fun r t hrun => ⟨fun e he => h.began he, log_of_run hrun r⟩

theorem settled_of_step (h : System.Inv s.base) {a : Action K V} (hclear : s.clear a)
    (hs : s.step a = some s') : System.Inv s'.base := by
  rcases base_of_step hs with ⟨b, rfl, -, hb⟩ | ⟨boxes, hb⟩
  · exact h.step hclear hb
  · rw [hb]
    exact ⟨h.nodup, h.bound, h.out, fun c hc => (h.calls c hc).mono le_rfl fun _ => id, h.settled⟩

/-- A receiver subscribes and goes to sleep; of two messages, one wakes it and one is dropped; then it
takes the first. -/
def twoMessages : List (Action ℕ ℕ) :=
  [.topic (.subscribe 0 1), .topic (.advance 0), .topic (.advance 0), .topic (.advance 0),
    .receive 0 .recv 5, .look 0 0 false, .topic (.send 1 7), .topic (.advance 1),
    .topic (.advance 1), .topic (.advance 1), .topic (.send 1 8), .topic (.advance 2),
    .topic (.advance 2), .topic (.advance 2), .resume 0, .look 0 0 false]

end

end Channel

end Fibre.Channels.Topic
