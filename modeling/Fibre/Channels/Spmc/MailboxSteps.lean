import Fibre.Channels.Spmc.Mailboxes

/-!
# The steps of the mailboxes

What a step of the topic channel and of the calls on its mailboxes does to one mailbox and its history,
and to one call.
-/

namespace Fibre.Channels.Topic

open Function Option List

structure Box (K V : Type*) where
  mailbox : Mailbox (K × V)
  log : List (Entry K V)
  lost : List Loss
  taken : List (Taken K V)

namespace Receive

variable {α : Type*} {x : Receive α} {w w' : Waiter}

@[simp] theorem wake_receiver (w : Waiter) (x : Receive α) : (x.wake w).receiver = x.receiver := by
  unfold wake
  split
  · split <;> rfl
  · rfl

theorem wake_of_ended (hended : x.ended) : x.wake w = x := by
  unfold wake
  split
  · next hstage => simp [ended, hstage] at hended
  · rfl

theorem ended_wake (w : Waiter) (x : Receive α) : (x.wake w).ended = x.ended := by
  unfold wake
  split
  · next hstage =>
    split
    · simp [ended, hstage]
    · rfl
  · rfl

theorem sleeper_wake (h : (x.wake w).sleeper = some w') : x.sleeper = some w' ∧ w' ≠ w := by
  unfold wake at h
  split at h
  · next w₂ woken hstage =>
    split at h
    · simp [sleeper] at h
    · next hne =>
      refine ⟨h, ?_⟩
      rintro rfl
      apply hne
      cases woken <;> simp [sleeper, hstage] at h
      exact h
  · next hnot =>
    exfalso
    unfold sleeper at h
    split at h
    · next w₂ hstage => exact hnot w₂ false hstage
    · cases h

theorem ended_of_sleeper (h : x.sleeper = some w) : x.ended = false := by
  unfold sleeper at h
  split at h
  · next hstage => simp [ended, hstage]
  · cases h

theorem nothing_of_disconnected (x : Receive α) (waker : ℕ) (expired : Bool) (woken : Bool) :
    x.nothing waker expired true ≠ .parked w woken := by
  unfold nothing
  split <;> simp

end Receive

namespace System

variable {K V : Type*} [DecidableEq K] {s s' : System K V}

theorem delivered_of_step {i m : ℕ} {k : K} {v : V} {targets : List ℕ}
    (hs : s.step (.advance i) = some s') (hi : s.calls[i]? = some (.delivering k v (m :: targets))) :
    s' = (if (s.receivers m).live then
      s.setReceiver m { s.receivers m with mailbox := (s.receivers m).mailbox.deliver (k, v) }
      else s).setCall i (.delivering k v targets) := by
  simp only [System.step, System.advance, hi, Option.some.injEq] at hs
  exact hs.symm

end System

namespace Channel

variable {K V : Type*} {s s' : Channel K V} {r m i j : ℕ} {x y : Receive (K × V)}

def box (s : Channel K V) (r : ℕ) : Box K V := ⟨s.mailbox r, s.log r, s.lost r, s.taken r⟩

theorem box_eq {b : Box K V} (hmailbox : s.mailbox r = b.mailbox) (hlog : s.log r = b.log)
    (hlost : s.lost r = b.lost) (htaken : s.taken r = b.taken) : s.box r = b := by
  rw [box, hmailbox, hlog, hlost, htaken]

/-! ### Wake-ups -/

theorem wakeConsumer_frame (s : Channel K V) (r : ℕ) : (s.wakeConsumer r).base = s.base ∧
    (s.wakeConsumer r).log = s.log ∧ (s.wakeConsumer r).lost = s.lost ∧
      (s.wakeConsumer r).taken = s.taken ∧ (s.wakeConsumer r).walk = s.walk ∧
        (s.wakeConsumer r).found = s.found ∧
          (s.wakeConsumer r).isDisconnected = s.isDisconnected := by
  unfold wakeConsumer
  split <;> exact ⟨rfl, rfl, rfl, rfl, rfl, rfl, rfl⟩

theorem receives_wakeConsumer (s : Channel K V) (r : ℕ) :
    (s.wakeConsumer r).receives = s.receives ∨
      ∃ w, (s.wakeConsumer r).receives = s.receives.map (Receive.wake w) := by
  unfold wakeConsumer
  split
  · exact .inl rfl
  · next w _ => exact .inr ⟨w, rfl⟩

/-! ### One mailbox -/

/-- How a step changes a mailbox: it may be made, get a message or drop it, or give one. -/
inductive Change (s : Channel K V) (a : Action K V) (r : ℕ) : Box K V → Prop
  | same : Change s a r (s.box r)
  | made (capacity : ℕ) : r = s.base.made →
      Change s a r { s.box r with mailbox := ⟨[], capacity, 0⟩ }
  | put (i : ℕ) (k : K) (v : V) (targets : List ℕ) :
      a = .topic (.advance i) → s.base.calls[i]? = some (.delivering k v (r :: targets)) →
      (s.mailbox r).buffer.length < (s.mailbox r).capacity →
      Change s a r { s.box r with
        mailbox := { s.mailbox r with buffer := (s.mailbox r).buffer ++ [(k, v)] }
        log := s.log r ++ [⟨i, (k, v)⟩] }
  | drop (i : ℕ) (k : K) (v : V) (targets : List ℕ) :
      a = .topic (.advance i) → s.base.calls[i]? = some (.delivering k v (r :: targets)) →
      (s.mailbox r).capacity ≤ (s.mailbox r).buffer.length →
      Change s a r { s.box r with
        mailbox := { s.mailbox r with droppedCount := (s.mailbox r).droppedCount + 1 }
        lost := s.lost r ++ [⟨i, (s.mailbox r).buffer.length⟩] }
  | pop (j : ℕ) (x : Receive (K × V)) (v : K × V) (rest : List (K × V)) :
      s.receives[j]? = some x → x.receiver = r → x.stage = .looking →
      (s.mailbox r).buffer = v :: rest →
      Change s a r { s.box r with
        mailbox := { s.mailbox r with buffer := rest }
        taken := s.taken r ++ [⟨j, v⟩] }

section

variable [DecidableEq K]

/-- What a step of the topic channel does beside it: nothing to the mailboxes, unless a message is
dropped, or put into a mailbox whose consumer is woken. -/
theorem note_cases (s : Channel K V) (a : Topic.Action K V) :
    ((∃ known walk, s.note a = { s with known := known, walk := walk }) ∧
      ∀ i k v m targets, a = .advance i →
        s.base.calls[i]? = some (.delivering k v (m :: targets)) → (s.base.receivers m).live = false) ∨
    ∃ i k v m targets, a = .advance i ∧
      s.base.calls[i]? = some (.delivering k v (m :: targets)) ∧ (s.base.receivers m).live ∧
        ((s.mailbox m).capacity ≤ (s.mailbox m).buffer.length ∧ s.note a = { s with
            lost := update s.lost m (s.lost m ++ [Loss.mk i (s.mailbox m).buffer.length]) } ∨
          (s.mailbox m).buffer.length < (s.mailbox m).capacity ∧ s.note a =
            { s with log := update s.log m (s.log m ++ [Entry.mk i (k, v)]) }.wakeConsumer m) := by
  cases a with
  | advance i =>
    by_cases hdeliver : ∃ k v m targets, s.base.calls[i]? = some (.delivering k v (m :: targets)) ∧
        (s.base.receivers m).live
    · obtain ⟨k, v, m, targets, hi, hlive⟩ := hdeliver
      refine .inr ⟨i, k, v, m, targets, rfl, hi, hlive, ?_⟩
      simp only [note, hi, hlive, Bool.not_true, Bool.false_eq_true, if_false]
      split
      · next hfull => exact .inl ⟨hfull, rfl⟩
      · next hroom => exact .inr ⟨not_le.mp hroom, rfl⟩
    · left
      refine ⟨?_, fun i' k v m targets hi' hi => ?_⟩
      · unfold note
        dsimp only
        split
        · next k v m targets hi =>
          have hdead : (s.base.receivers m).live = false :=
            Bool.eq_false_iff.mpr fun hlive => hdeliver ⟨k, v, m, targets, hi, hlive⟩
          rw [hdead]
          exact ⟨s.known, s.walk, rfl⟩
        · split
          · exact ⟨_, s.walk, rfl⟩
          · exact ⟨s.known, s.walk, rfl⟩
        · exact ⟨s.known, s.walk, rfl⟩
      · cases hi'
        exact Bool.eq_false_iff.mpr fun hlive => hdeliver ⟨k, v, m, targets, hi, hlive⟩
  | closeSender =>
    refine .inl ⟨?_, fun _ _ _ _ _ hfalse => by cases hfalse⟩
    unfold note
    dsimp only
    split
    · exact ⟨s.known, s.walk, rfl⟩
    · exact ⟨s.known, _, rfl⟩
  | _ => exact .inl ⟨⟨s.known, s.walk, rfl⟩, fun _ _ _ _ _ hfalse => by cases hfalse⟩

theorem change_of_topic {a : Topic.Action K V} {base : System K V}
    (hbase : s.base.step a = some base) (r : ℕ) :
    Change s (.topic a) r (box { s.note a with base := base } r) := by
  have hkeeps := System.keeps_of_step (r := r) hbase
  rcases note_cases s a with ⟨⟨known, walk, hnote⟩, hdead⟩ | ⟨i, k, v, m, targets, rfl, hi, hlive, hor⟩
  · -- nothing is delivered
    rcases hkeeps with hkeeps | ⟨hmade, isAsync, capacity, closed, out, hfresh⟩
    · rcases hkeeps.mailbox with hsame | ⟨i, k, v, targets, ha, hi, hlive, -⟩
      · have hbox : box { s.note a with base := base } r = s.box r := by
          rw [hnote]
          exact box_eq hsame rfl rfl rfl
        exact hbox ▸ .same
      · rw [hdead i k v r targets ha hi] at hlive
        cases hlive
    · have hbox : box { s.note a with base := base } r =
          { s.box r with mailbox := ⟨[], capacity, 0⟩ } := by
        rw [hnote]
        exact box_eq (congrArg Receiver.mailbox hfresh) rfl rfl rfl
      exact hbox ▸ .made capacity hmade
  · -- the message goes to the mailbox `m`
    have hafter := System.delivered_of_step hbase hi
    rw [if_pos hlive] at hafter
    have hframe := wakeConsumer_frame
      { s with log := update s.log m (s.log m ++ [Entry.mk i (k, v)]) } m
    by_cases hr : r = m
    · subst hr
      have hmailbox : (base.receivers r).mailbox = (s.mailbox r).deliver (k, v) := by
        rw [hafter]
        simp [System.setReceiver, System.setCall, mailbox]
      rcases hor with ⟨hfull, hnote⟩ | ⟨hroom, hnote⟩
      · have hbox : box { s.note (.advance i) with base := base } r = { s.box r with
            mailbox := { s.mailbox r with droppedCount := (s.mailbox r).droppedCount + 1 }
            lost := s.lost r ++ [⟨i, (s.mailbox r).buffer.length⟩] } := by
          rw [hnote]
          refine box_eq ?_ rfl (update_self ..) rfl
          exact hmailbox.trans (if_pos hfull)
        exact hbox ▸ .drop i k v targets rfl hi hfull
      · have hbox : box { s.note (.advance i) with base := base } r = { s.box r with
            mailbox := { s.mailbox r with buffer := (s.mailbox r).buffer ++ [(k, v)] }
            log := s.log r ++ [⟨i, (k, v)⟩] } := by
          rw [hnote]
          refine box_eq ?_ ?_ (congrFun hframe.2.2.1 r) (congrFun hframe.2.2.2.1 r)
          · exact hmailbox.trans (if_neg (not_le.mpr hroom))
          · exact (congrFun hframe.2.1 r).trans (update_self ..)
        exact hbox ▸ .put i k v targets rfl hi hroom
    · have hmailbox : (base.receivers r).mailbox = s.mailbox r := by
        rw [hafter]
        simp [System.setReceiver, System.setCall, mailbox, hr]
      have hbox : box { s.note (.advance i) with base := base } r = s.box r := by
        rcases hor with ⟨-, hnote⟩ | ⟨-, hnote⟩
        · rw [hnote]
          exact box_eq hmailbox rfl (update_of_ne hr ..) rfl
        · rw [hnote]
          refine box_eq hmailbox ?_ (congrFun hframe.2.2.1 r) (congrFun hframe.2.2.2.1 r)
          exact (congrFun hframe.2.1 r).trans (update_of_ne hr ..)
      exact hbox ▸ .same

omit [DecidableEq K] in
theorem change_of_look {waker : ℕ} {expired : Bool} (hj : s.receives[j]? = some x)
    (hx : x.stage = .looking) (r : ℕ) :
    Change s (.look j waker expired) r ((s.look j x waker expired).box r) := by
  unfold look
  split
  · next v rest hbuffer =>
    by_cases hr : x.receiver = r
    · have hbox : ((s.pop x.receiver j v rest).setReceive j
          { x with stage := .returned (.value v) }).box r = { s.box r with
            mailbox := { s.mailbox r with buffer := rest }
            taken := s.taken r ++ [⟨j, v⟩] } := by
        subst hr
        refine box_eq ?_ rfl rfl (update_self ..)
        simp [setReceive, pop, mailbox, System.setReceiver]
      exact hbox ▸ .pop j x v rest hj hr hx (hr ▸ hbuffer)
    · have hbox : ((s.pop x.receiver j v rest).setReceive j
          { x with stage := .returned (.value v) }).box r = s.box r := by
        have hne : r ≠ x.receiver := Ne.symm hr
        refine box_eq ?_ rfl rfl (update_of_ne hne ..)
        simp [setReceive, pop, mailbox, System.setReceiver, hne, box]
      exact hbox ▸ .same
  · exact .same

omit [DecidableEq K] in
theorem cutOff_frame (s : Channel K V) (m : ℕ) : (s.cutOff m).base = s.base ∧
    (s.cutOff m).log = s.log ∧ (s.cutOff m).lost = s.lost ∧ (s.cutOff m).taken = s.taken ∧
      (s.cutOff m).found = s.found := by
  unfold cutOff
  split
  · exact ⟨rfl, rfl, rfl, rfl, rfl⟩
  · obtain ⟨hbase, hlog, hlost, htaken, -, hfound, -⟩ := wakeConsumer_frame
      { s with isDisconnected := update s.isDisconnected m true } m
    exact ⟨hbase, hlog, hlost, htaken, hfound⟩

theorem change_of_step {a : Action K V} (hs : s.step a = some s') (r : ℕ) :
    Change s a r (s'.box r) := by
  cases a with
  | topic a =>
    simp only [step] at hs
    split_ifs at hs
    obtain ⟨base, hbase, rfl⟩ := map_eq_some_iff.mp hs
    exact change_of_topic hbase r
  | receive =>
    simp only [step] at hs
    split at hs <;> cases hs
    exact .same
  | check =>
    obtain ⟨x, -, hx⟩ := bind_eq_some_iff.mp hs
    split at hx <;> cases hx
    exact .same
  | look =>
    obtain ⟨x, hj, hx⟩ := bind_eq_some_iff.mp hs
    split at hx <;> cases hx
    next hstage => exact change_of_look hj hstage r
  | resume =>
    obtain ⟨x, -, hx⟩ := bind_eq_some_iff.mp hs
    split at hx <;> cases hx
    exact .same
  | abandon =>
    obtain ⟨x, -, hx⟩ := bind_eq_some_iff.mp hs
    split at hx <;> cases hx
    exact .same
  | visit =>
    simp only [step] at hs
    split at hs
    · split at hs <;> cases hs
      exact .same
    · cases hs
  | disconnect =>
    simp only [step] at hs
    split at hs <;> cases hs
    next start visited m targets hwalk =>
    obtain ⟨hbase, hlog, hlost, htaken, -⟩ := cutOff_frame s m
    have hbox : ((s.cutOff m).box r) = s.box r := by
      refine box_eq ?_ (congrFun hlog r) (congrFun hlost r) (congrFun htaken r)
      rw [mailbox, hbase]
      rfl
    split
    · show Change s _ r ((s.cutOff m).box r)
      exact hbox ▸ .same
    · exact .same
  | finish =>
    simp only [step] at hs
    split at hs
    · split at hs <;> cases hs
      exact .same
    · cases hs

theorem log_of_step {a : Action K V} (hs : s.step a = some s') (r : ℕ) :
    ∃ new, s'.log r = s.log r ++ new ∧ ∀ e ∈ new, ∃ k v targets,
      s.base.calls[e.call]? = some (.delivering k v (r :: targets)) := by
  have hchange := change_of_step hs r
  generalize hbox : s'.box r = b at hchange
  have hlog : s'.log r = b.log := congrArg Box.log hbox
  rw [hlog]
  cases hchange with
  | put i k v targets ha hi =>
    refine ⟨_, rfl, fun e he => ?_⟩
    rw [mem_singleton.mp he]
    exact ⟨k, v, targets, hi⟩
  | same | made | drop | pop => exact ⟨[], (append_nil _).symm, nofun⟩

theorem lost_of_step {a : Action K V} (hs : s.step a = some s') (r : ℕ) :
    ∃ new, s'.lost r = s.lost r ++ new := by
  have hchange := change_of_step hs r
  generalize hbox : s'.box r = b at hchange
  have hlost : s'.lost r = b.lost := congrArg Box.lost hbox
  rw [hlost]
  cases hchange with
  | drop => exact ⟨_, rfl⟩
  | same | made | put | pop => exact ⟨[], (append_nil _).symm⟩

theorem topic_of_step {b : Topic.Action K V} (hs : s.step (.topic b) = some s') :
    s.allowed b ∧ s.base.step b = some s'.base := by
  simp only [step] at hs
  split_ifs at hs with hallowed
  obtain ⟨base, hbase, rfl⟩ := map_eq_some_iff.mp hs
  exact ⟨hallowed, hbase⟩

theorem base_of_step {a : Action K V} (hs : s.step a = some s') :
    (∃ b, a = .topic b ∧ s.allowed b ∧ s.base.step b = some s'.base) ∨
      ∃ boxes, s'.base = s.base.refill boxes := by
  have hsame : ∀ base : System K V, base = s.base → ∃ boxes, base = s.base.refill boxes :=
    fun base hbase => ⟨s.mailbox, hbase⟩
  cases a with
  | topic b =>
    exact .inl ⟨b, rfl, topic_of_step hs⟩
  | receive =>
    simp only [step] at hs
    split at hs <;> cases hs
    exact .inr (hsame _ rfl)
  | check | resume | abandon =>
    obtain ⟨x, -, hx⟩ := bind_eq_some_iff.mp hs
    split at hx <;> cases hx
    exact .inr (hsame _ rfl)
  | look =>
    obtain ⟨x, -, hx⟩ := bind_eq_some_iff.mp hs
    split at hx <;> cases hx
    right
    unfold look
    split
    · next v rest _ =>
      refine ⟨update s.mailbox x.receiver { s.mailbox x.receiver with buffer := rest }, ?_⟩
      show s.base.setReceiver x.receiver _ = _
      unfold System.setReceiver System.refill
      congr 1
      funext r
      by_cases hr : r = x.receiver
      · subst hr
        rw [update_self, update_self]
      · rw [update_of_ne hr, update_of_ne hr]
        rfl
    · exact hsame _ rfl
  | visit =>
    simp only [step] at hs
    split at hs
    · split at hs <;> cases hs
      exact .inr (hsame _ rfl)
    · cases hs
  | disconnect =>
    simp only [step] at hs
    split at hs <;> cases hs
    next m _ _ =>
    right
    split
    · exact hsame _ (cutOff_frame s m).1
    · exact hsame _ rfl
  | finish =>
    simp only [step] at hs
    split at hs
    · split at hs <;> cases hs
      exact .inr (hsame _ rfl)
    · cases hs

/-! ### One call -/

theorem receives_of_step {a : Action K V} (hs : s.step a = some s') :
    s'.receives = s.receives ∨ (∃ w, s'.receives = s.receives.map (Receive.wake w)) ∨
      (∃ x, s'.receives = s.receives ++ [x] ∧ x.ended = false ∧ s.base.held x.receiver ∧
        ∃ method thread, a = .receive x.receiver method thread) ∨
      ∃ j x y, s.receives[j]? = some x ∧ x.ended = false ∧
        s'.receives = s.receives.set j y ∧ y.receiver = x.receiver := by
  cases a with
  | topic a =>
    simp only [step] at hs
    split_ifs at hs
    obtain ⟨base, hbase, rfl⟩ := map_eq_some_iff.mp hs
    rcases note_cases s a with ⟨⟨known, walk, hnote⟩, -⟩ | ⟨i, k, v, m, targets, rfl, -, -, hor⟩
    · rw [hnote]
      exact .inl rfl
    · rcases hor with ⟨-, hnote⟩ | ⟨-, hnote⟩
      · rw [hnote]
        exact .inl rfl
      · rw [hnote]
        have hor := receives_wakeConsumer
          { s with log := update s.log m (s.log m ++ [Entry.mk i (k, v)]) } m
        exact hor.imp_right .inl
  | receive r method thread =>
    simp only [step] at hs
    split at hs <;> cases hs
    next hheld =>
    refine .inr (.inr (.inl ⟨_, rfl, ?_, hheld.1, method, thread, rfl⟩))
    by_cases htimeout : method = .recvTimeout
    · rw [if_pos htimeout]
      rfl
    · rw [if_neg htimeout]
      rfl
  | check j =>
    obtain ⟨x, hj, hx⟩ := bind_eq_some_iff.mp hs
    split at hx <;> cases hx
    next hstage => exact .inr (.inr (.inr ⟨j, x, _, hj, by simp [Receive.ended, hstage], rfl, rfl⟩))
  | look j =>
    obtain ⟨x, hj, hx⟩ := bind_eq_some_iff.mp hs
    split at hx <;> cases hx
    next hstage =>
    refine .inr (.inr (.inr ?_))
    have hended : x.ended = false := by simp [Receive.ended, hstage]
    unfold look
    split
    · exact ⟨j, x, _, hj, hended, rfl, rfl⟩
    · exact ⟨j, x, _, hj, hended, rfl, rfl⟩
  | resume j =>
    obtain ⟨x, hj, hx⟩ := bind_eq_some_iff.mp hs
    split at hx <;> cases hx
    next hstage => exact .inr (.inr (.inr ⟨j, x, _, hj, by simp [Receive.ended, hstage], rfl, rfl⟩))
  | abandon j =>
    obtain ⟨x, hj, hx⟩ := bind_eq_some_iff.mp hs
    split at hx <;> cases hx
    next hand => exact .inr (.inr (.inr ⟨j, x, _, hj, hand.2, rfl, rfl⟩))
  | visit =>
    simp only [step] at hs
    split at hs
    · split at hs <;> cases hs
      exact .inl rfl
    · cases hs
  | disconnect =>
    simp only [step] at hs
    split at hs <;> cases hs
    next start visited m targets hwalk =>
    split
    · show (s.cutOff m).receives = _ ∨ (∃ w, (s.cutOff m).receives = _) ∨ _
      unfold cutOff
      split
      · exact .inl rfl
      · have hor := receives_wakeConsumer
          { s with isDisconnected := update s.isDisconnected m true } m
        exact hor.imp_right .inl
    · exact .inl rfl
  | finish =>
    simp only [step] at hs
    split at hs
    · split at hs <;> cases hs
      exact .inl rfl
    · cases hs

theorem receive_of_step {a : Action K V} (hs : s.step a = some s') (hj : s.receives[j]? = some x)
    (hended : x.ended) : s'.receives[j]? = some x := by
  rcases receives_of_step hs with heq | ⟨w, heq⟩ | ⟨y, heq, -⟩ | ⟨i, y, z, hi, hnot, heq, -⟩ <;>
    rw [heq]
  · exact hj
  · rw [List.getElem?_map, hj, map_some, Receive.wake_of_ended hended]
  · rw [List.getElem?_append_left (List.getElem?_eq_some_iff.mp hj).1]
    exact hj
  · rw [List.getElem?_set_ne]
    · exact hj
    · rintro rfl
      rw [hi] at hj
      rw [Option.some.inj hj, hended] at hnot
      cases hnot

/-- A call has begun with this step, or it went on, on the same receiver. -/
theorem receive_before {a : Action K V} (hs : s.step a = some s') (hj : s'.receives[j]? = some y) :
    (∃ x, s.receives[j]? = some x ∧ x.receiver = y.receiver ∧ (x.ended → y = x)) ∨
      j = s.receives.length ∧ y.ended = false ∧ s.base.held y.receiver ∧
        ∃ method thread, a = .receive y.receiver method thread := by
  rcases receives_of_step hs with heq | ⟨w, heq⟩ | ⟨x, heq, hended, hheld, ha⟩ |
    ⟨i, x, z, hi, hnot, heq, hreceiver⟩ <;> rw [heq] at hj
  · exact .inl ⟨y, hj, rfl, fun _ => rfl⟩
  · rw [List.getElem?_map] at hj
    obtain ⟨x, hx, rfl⟩ := map_eq_some_iff.mp hj
    exact .inl ⟨x, hx, (Receive.wake_receiver w x).symm, Receive.wake_of_ended⟩
  · rcases Nat.lt_or_ge j s.receives.length with hlt | hge
    · rw [List.getElem?_append_left hlt] at hj
      exact .inl ⟨y, hj, rfl, fun _ => rfl⟩
    · have hlen := (List.getElem?_eq_some_iff.mp hj).1
      rw [length_append, length_singleton] at hlen
      obtain rfl : j = s.receives.length := by omega
      rw [List.getElem?_concat_length] at hj
      obtain rfl := Option.some.inj hj
      exact .inr ⟨rfl, hended, hheld, ha⟩
  · by_cases hji : j = i
    · subst hji
      rw [List.getElem?_set_self (List.getElem?_eq_some_iff.mp hi).1] at hj
      obtain rfl := Option.some.inj hj
      refine .inl ⟨x, hi, hreceiver.symm, fun hended => ?_⟩
      rw [hended] at hnot
      cases hnot
    · rw [List.getElem?_set_ne (Ne.symm hji)] at hj
      exact .inl ⟨y, hj, rfl, fun _ => rfl⟩

end

end Channel

end Fibre.Channels.Topic
