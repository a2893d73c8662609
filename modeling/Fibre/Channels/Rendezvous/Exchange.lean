import Fibre.Channels.Rendezvous.Handoff

/-!
# Who gets what

The handoffs of a rendezvous channel as its callers see them. Without cancellation an item goes to
exactly one receive exactly if its send returns `Ok`. With it, who cancelled takes part in no
handoff, unless a peer took its record while it was on its way to take it out.
-/

namespace Fibre.Channels.Rendezvous

open Machine Function List Option

variable {T : Type*}

def Action.cancels : Action T → Bool
  | .cancel _ | .unlink _ => true
  | _ => false

/-- The operation took its record out itself, or is on its way. -/
def Point.gaveUp : Point T → Bool
  | .cancelling _ _ | .returned _ .timeout | .returned _ .cancelled => true
  | _ => false

/-- The operation gave up, or dropped what it was handed. -/
def Point.cancels : Point T → Bool
  | .returned _ .abandoned => true
  | p => p.gaveUp

theorem Point.matched_cases {p : Point T} {side : Side} {st : WaiterState}
    (h : p.matched side st) : (∃ item, p = .returned side (.ok item)) ∨
      (st = .done ∧ (p.waits side ∨ p = .returned side .abandoned ∨ p.gaveUp)) := by
  cases p with
  | fresh => simp [Point.matched] at h
  | parked side' kind => simp_all [Point.matched, Point.waits]
  | polled side' => simp_all [Point.matched, Point.waits]
  | cancelling side' kind => simp_all [Point.matched, Point.waits]
  | returned side' outcome => cases outcome <;> simp_all [Point.matched, Point.gaveUp]

namespace System

variable {s t : System T} {strict : Prop} {i j k : ℕ} {item : T}

/-- The send returned `Ok`, or finds that its item was taken when it looks. -/
def Sent (s : System T) (i : ℕ) (item : T) : Prop :=
  s.point i = .returned .send (.ok item) ∨
    ((s.point i).waits .send ∧ s.core.state i = .done ∧ s.offered i = some item)

/-- The receive returned the item, or finds it when it looks. -/
def Received (s : System T) (j : ℕ) (item : T) : Prop :=
  s.point j = .returned .recv (.ok item) ∨
    ((s.point j).waits .recv ∧ s.core.state j = .done ∧ s.core.slot j = some item)

/-- What the next record taken by the action looks like: nobody has cancelled it. -/
def TakesLive (s : System T) : Action T → Prop
  | .trySend _ _ | .send _ _ _ => ∀ j ∈ s.core.receivers.head?, s.core.state j ≠ .cancelled
  | .tryRecv _ | .recv _ _ => ∀ j ∈ s.core.senderWaiters.head?, s.core.state j ≠ .cancelled
  | _ => True

/-- What a step does to the point and the state of the operation `k`. -/
inductive Moves (s : System T) (k : ℕ) : Action T → Point T → WaiterState → Prop
  | same (a : Action T) : Moves s k a (s.point k) (s.core.state k)
  | parked (a : Action T) (side : Side) (kind : Kind) (h : s.point k = .fresh) :
    Moves s k a (.parked side kind) .waiting
  | moved (a : Action T) (p : Point T) (h : (s.point k).looks) (hp : p.looks) :
    Moves s k a p (s.core.state k)
  | returned (a : Action T) (side : Side) (outcome : Outcome T)
    (hout : (∃ item, outcome = .ok item) ∨ outcome = .closed ∨ outcome = .nobody) :
    Moves s k a (.returned side outcome) (s.core.state k)
  | taken (a : Action T) (side : Side) (hmem : k ∈ s.core.queue side)
    (hlive : s.TakesLive a → s.core.state k ≠ .cancelled) : Moves s k a (s.point k) .done
  | disconnected (a : Action T) : Moves s k a (s.point k) .disconnected
  | cancelled (side : Side) (kind : Kind) :
    Moves s k (.cancel k) (.cancelling side kind) .cancelled
  | abandoned (side : Side) :
    Moves s k (.cancel k) (.returned side .abandoned) (s.core.state k)
  | unlinked (side : Side) (kind : Kind) (outcome : Outcome T)
    (h : s.point k = .cancelling side kind) (hout : outcome = .timeout ∨ outcome = .cancelled) :
    Moves s k (.unlink k) (.returned side outcome) (s.core.state k)

theorem moves_setPoint {a : Action T} {p : Point T}
    (h : Moves s i a p (s.core.state i)) (k : ℕ) :
    Moves s k a ((s.setPoint i p).point k) (s.core.state k) := by
  by_cases hk : k = i
  · subst hk
    simpa [System.setPoint] using h
  · simpa [System.setPoint, hk] using Moves.same a

theorem moves_finish {a : Action T} {side : Side} (h : s.finish side i = some t) (k : ℕ) :
    Moves s k a (t.point k) (t.core.state k) := by
  unfold System.finish at h
  split at h
  · obtain ⟨item, -, rfl⟩ := map_eq_some_iff.mp h
    exact moves_setPoint (.returned a side _ (.inl ⟨item, rfl⟩)) k
  · obtain rfl : _ = t := Option.some.inj h
    exact moves_setPoint (.returned a side _ (.inr (.inl rfl))) k

theorem moves_handed (h : s.Inv strict) {a : Action T} {side : Side} {o : Handoff T}
    {rest : List ℕ} (ht : Handed s t side o rest)
    (hlive : s.TakesLive a → s.core.state (o.party side.other) ≠ .cancelled) (k : ℕ) :
    Moves s k a (t.point k) (t.core.state k) := by
  by_cases hpeer : k = o.party side.other
  · subst hpeer
    rw [ht.point_of_ne (ht.peer_ne h), ht.state_peer]
    exact .taken a side.other ht.mem_peer hlive
  · rw [ht.state_of_ne hpeer]
    by_cases hactor : k = o.party side
    · subst hactor
      rw [ht.point_actor]
      exact .returned a side _ (.inl ⟨o.item, rfl⟩)
    · rw [ht.point_of_ne hactor]
      exact .same a

theorem moves_parked {a : Action T} {side : Side} {q : List ℕ} {kind : Kind}
    (ht : Parked s t side q i kind) (k : ℕ) : Moves s k a (t.point k) (t.core.state k) := by
  by_cases hk : k = i
  · subst hk
    rw [ht.point_self, ht.state_self]
    exact .parked a side kind ht.fresh
  · rw [ht.point_of_ne hk, ht.state_of_ne hk]
    exact .same a

theorem moves_disconnected {a : Action T} {side : Side} (ht : Disconnected s t side) (k : ℕ) :
    Moves s k a (t.point k) (t.core.state k) := by
  rw [ht.point, ht.state]
  split_ifs
  · exact .disconnected a
  · exact .same a

theorem Moves.of_offered {f : ℕ → Option T} {a : Action T} {p : Point T} {st : WaiterState}
    (h : Moves { s with offered := f } k a p st) : Moves s k a p st := by
  cases h with
  | same => exact .same a
  | parked _ side kind h => exact .parked a side kind h
  | moved _ _ h hp => exact .moved a p h hp
  | returned _ side outcome hout => exact .returned a side outcome hout
  | taken _ side hmem hlive => exact .taken a side hmem fun ha => hlive (by cases a <;> exact ha)
  | disconnected => exact .disconnected a
  | cancelled side kind => exact .cancelled side kind
  | abandoned side => exact .abandoned side
  | unlinked side kind outcome h hout => exact .unlinked side kind outcome h hout

theorem moves_startSend (h : s.Inv strict) (hi : s.point i = .fresh) {a : Action T}
    {park : System T → System T}
    (hlive : s.TakesLive a → ∀ j ∈ s.core.receivers.head?, s.core.state j ≠ .cancelled)
    (hpark : ∀ u : System T, u.point i = .fresh → u.offered i = some item →
      u.core.receivers = [] → u.core.receiverCount ≠ 0 →
      Moves u k a ((park u).point k) ((park u).core.state k))
    (ht : s.startSend i item park = some t) : Moves s k a (t.point k) (t.core.state k) := by
  have hu := h.offer hi item
  obtain ⟨u, rfl, hcases⟩ := startSend_cases hi ht
  refine Moves.of_offered (f := update s.offered i (some item)) ?_
  rcases hcases with rfl | ⟨j, rest, hand⟩ | ⟨rfl, hnil, hopen⟩
  · exact moves_setPoint (.returned a .send .closed (.inr (.inl rfl))) k
  · refine moves_handed hu hand (fun ha => ?_) k
    refine hlive (by cases a <;> exact ha) j ?_
    have hhead : s.core.receivers = j :: rest := hand.head
    simp [hhead]
  · exact hpark _ hi (update_self ..) hnil hopen

theorem moves_startRecv (h : s.Inv strict) (hi : s.point i = .fresh) {a : Action T}
    {park : System T → System T}
    (hlive : s.TakesLive a → ∀ j ∈ s.core.senderWaiters.head?, s.core.state j ≠ .cancelled)
    (hpark : s.core.senderWaiters = [] → s.core.senderCount ≠ 0 →
      Moves s k a ((park s).point k) ((park s).core.state k))
    (ht : s.startRecv i park = some t) : Moves s k a (t.point k) (t.core.state k) := by
  obtain ⟨rfl, -⟩ | ⟨j, item, rest, hand⟩ | ⟨rfl, hnil, hopen⟩ := h.startRecv_cases hi ht
  · exact moves_setPoint (.returned a .recv .closed (.inr (.inl rfl))) k
  · refine moves_handed h hand (fun ha => hlive ha j ?_) k
    have hhead : s.core.senderWaiters = j :: rest := hand.head
    simp [hhead]
  · exact hpark hnil hopen

/-- Every step does one of these to every operation. -/
theorem Inv.moves (h : s.Inv strict) {store : Store} {a : Action T}
    (ht : System.step store s a = some t) (k : ℕ) : Moves s k a (t.point k) (t.core.state k) := by
  cases a with
  | trySend i item =>
    simp only [System.step] at ht
    split at ht
    · next hi =>
      exact moves_startSend h hi id (fun u _ _ _ _ =>
        moves_setPoint (.returned _ .send .nobody (.inr (.inr rfl))) k) ht
    · cases ht
  | tryRecv i =>
    simp only [System.step] at ht
    split at ht
    · next hi =>
      exact moves_startRecv h hi id (fun _ _ =>
        moves_setPoint (.returned _ .recv .nobody (.inr (.inr rfl))) k) ht
    · cases ht
  | send i kind item =>
    simp only [System.step] at ht
    split at ht
    · next hi =>
      exact moves_startSend h hi id (fun u hfresh hoffer hnil hopen =>
        moves_parked (parked_parkSend hfresh hoffer hnil hopen kind) k) ht
    · cases ht
  | recv i kind =>
    simp only [System.step] at ht
    split at ht
    · next hi =>
      refine moves_startRecv h hi id (fun hnil hopen => ?_) ht
      obtain ⟨q, hparked, -⟩ := parked_parkRecv store hi hnil hopen kind
      exact moves_parked hparked k
    · cases ht
  | look i =>
    simp only [System.step] at ht
    split at ht
    · next side kind hp =>
      have hl : (s.point i).looks := by simp [hp, Point.looks]
      split_ifs at ht with hst hkind
      · obtain rfl : _ = t := Option.some.inj ht
        exact moves_setPoint (.moved _ _ hl rfl) k
      · obtain rfl : _ = t := Option.some.inj ht
        exact .same _
      · exact moves_finish ht k
    · cases ht
  | repoll i =>
    simp only [System.step] at ht
    split at ht
    · next side hp =>
      have hl : (s.point i).looks := by simp [hp, Point.looks]
      split_ifs at ht with hmem
      · obtain rfl : _ = t := Option.some.inj ht
        exact moves_setPoint (.moved _ _ hl rfl) k
      · exact moves_finish ht k
    · cases ht
  | cancel i =>
    simp only [System.step] at ht
    split at ht
    · next side kind hp =>
      split_ifs at ht with hkind hst htimed
      · obtain rfl : _ = t := Option.some.inj ht
        by_cases hk : k = i
        · subst hk
          simpa [System.setPoint] using Moves.cancelled (s := s) (k := k) side kind
        · simpa [System.setPoint, hk] using Moves.same (s := s) (k := k) _
      · exact moves_finish ht k
      · obtain rfl : _ = t := Option.some.inj ht
        exact moves_setPoint (.abandoned side) k
    · cases ht
  | unlink i =>
    simp only [System.step] at ht
    split at ht
    · next side kind hp =>
      obtain rfl : _ = t := Option.some.inj ht
      have hstate : (s.core.unlink side i).state k = s.core.state k := by cases side <;> rfl
      rw [hstate]
      refine moves_setPoint (.unlinked side kind _ hp ?_) k
      split_ifs
      · exact .inl rfl
      · exact .inr rfl
    · cases ht
  | cloneSender | cloneReceiver =>
    obtain rfl : _ = t := Option.some.inj ht
    exact .same _
  | dropSender =>
    simp only [System.step] at ht
    split_ifs at ht
    obtain rfl : _ = t := Option.some.inj ht
    rcases dropSender_cases s with ⟨heq, -⟩ | hdisc
    · rw [heq]
      exact .same _
    · exact moves_disconnected hdisc k
  | dropReceiver =>
    simp only [System.step] at ht
    split_ifs at ht
    obtain rfl : _ = t := Option.some.inj ht
    rcases dropReceiver_cases s with ⟨heq, -⟩ | hdisc
    · rw [heq]
      exact .same _
    · exact moves_disconnected hdisc k

theorem Moves.not_cancels {a : Action T} {p : Point T} {st : WaiterState} (h : Moves s k a p st)
    (ha : a.cancels = false) (hs : (s.point k).cancels = false) : p.cancels = false := by
  cases h with
  | same | taken | disconnected => exact hs
  | parked => rfl
  | moved _ _ h hp => cases p <;> simp_all [Point.looks, Point.cancels, Point.gaveUp]
  | returned _ side outcome hout =>
    obtain ⟨item, rfl⟩ | rfl | rfl := hout <;> rfl
  | cancelled | abandoned | unlinked => simp [Action.cancels] at ha

theorem Moves.gaveUp {a : Action T} {p : Point T} {st : WaiterState} (h : Moves s k a p st)
    (hinv : s.Inv strict) (hlive : s.TakesLive a)
    (hs : (s.point k).gaveUp → s.core.state k = .cancelled ∨ s.core.state k = .disconnected)
    (hp : p.gaveUp) : st = .cancelled ∨ st = .disconnected := by
  cases h with
  | same => exact hs hp
  | parked => simp [Point.gaveUp] at hp
  | moved _ _ h hl => cases p <;> simp_all [Point.looks, Point.gaveUp]
  | returned _ side outcome hout =>
    obtain ⟨item, rfl⟩ | rfl | rfl := hout <;> simp [Point.gaveUp] at hp
  | taken _ side hmem hlive' =>
    -- a record in a queue is waiting or cancelled
    have hlinked := (hinv.mem side k hmem).2
    have hne := hlive' hlive
    rcases hs hp with hst | hst
    · exact absurd hst hne
    · simp [hst, WaiterState.linked] at hlinked
  | disconnected => exact .inr rfl
  | cancelled => exact .inl rfl
  | abandoned => simp [Point.gaveUp] at hp
  | unlinked side kind outcome h => exact hs (by simp [h, Point.gaveUp])

theorem Inv.party_inj (h : s.Inv strict) (side : Side) {o o' : Handoff T} (ho : o ∈ s.handoffs)
    (ho' : o' ∈ s.handoffs) (heq : o.party side = o'.party side) : o = o' := by
  have hnodup : (s.handoffs.map (·.party side)).Nodup := by
    rw [nodup_iff_count_le_one]
    intro k
    rw [h.matched]
    split_ifs <;> omega
  exact inj_on_of_nodup_map hnodup ho ho' heq

theorem Inv.matched_of_handoff (h : s.Inv strict) {o : Handoff T} (ho : o ∈ s.handoffs)
    (side : Side) :
    (s.point (o.party side)).matched side (s.core.state (o.party side)) := by
  have hcount := h.matched side (o.party side)
  have hpos : 0 < (s.handoffs.map (·.party side)).count (o.party side) :=
    count_pos_iff.mpr (mem_map_of_mem ho)
  by_contra hcon
  rw [if_neg hcon] at hcount
  omega

theorem Inv.handoff_of_matched (h : s.Inv strict) {side : Side}
    (hm : (s.point i).matched side (s.core.state i)) : ∃ o ∈ s.handoffs, o.party side = i := by
  have hcount := h.matched side i
  rw [if_pos hm] at hcount
  have hmem : i ∈ s.handoffs.map (·.party side) := count_pos_iff.mp (by omega)
  obtain ⟨o, ho, heq⟩ := mem_map.mp hmem
  exact ⟨o, ho, heq⟩

/-- The sender of a handoff that did not give up has sent, or dropped its future since. -/
theorem Inv.sent_of_handoff (h : s.Inv strict) {o : Handoff T} (ho : o ∈ s.handoffs)
    (hup : (s.point o.sender).gaveUp → s.core.state o.sender ≠ .done) :
    s.Sent o.sender o.item ∨ s.point o.sender = .returned .send .abandoned := by
  rcases Point.matched_cases (h.matched_of_handoff ho .send) with ⟨item, hp⟩ | ⟨hst, hw | hp | hg⟩
  · have hitem : item = o.item := h.outcome o ho .send item hp
    exact .inl (.inl (hitem ▸ hp))
  · exact .inl (.inr ⟨hw, hst, h.offered o ho⟩)
  · exact .inr hp
  · exact absurd hst (hup hg)

/-- The receiver of a handoff that did not give up has the item, or dropped its future since. -/
theorem Inv.received_of_handoff (h : s.Inv strict) {o : Handoff T} (ho : o ∈ s.handoffs)
    (hup : (s.point o.receiver).gaveUp → s.core.state o.receiver ≠ .done) :
    s.Received o.receiver o.item ∨ s.point o.receiver = .returned .recv .abandoned := by
  rcases Point.matched_cases (h.matched_of_handoff ho .recv) with ⟨item, hp⟩ | ⟨hst, hw | hp | hg⟩
  · have hitem : item = o.item := h.outcome o ho .recv item hp
    exact .inl (.inl (hitem ▸ hp))
  · exact .inl (.inr ⟨hw, hst, h.dest o ho hw⟩)
  · exact .inr hp
  · exact absurd hst (hup hg)

theorem Inv.handoff_of_sent (h : s.Inv strict) (hs : s.Sent i item) :
    ∃ j, ⟨i, j, item⟩ ∈ s.handoffs := by
  have hm : (s.point i).matched .send (s.core.state i) := by
    rcases hs with hp | ⟨hw, hst, -⟩
    · simp [hp, Point.matched]
    · simp [Point.matched_of_waits hw, hst]
  obtain ⟨o, ho, heq⟩ := h.handoff_of_matched hm
  have hsender : o.sender = i := heq
  have hitem : item = o.item := by
    rcases hs with hp | ⟨-, -, hoffered⟩
    · exact h.outcome o ho .send item (by rw [heq, hp])
    · have := h.offered o ho
      rw [hsender, hoffered] at this
      exact Option.some.inj this
  exact ⟨o.receiver, by rw [hitem, ← hsender]; exact ho⟩

theorem Inv.handoff_of_received (h : s.Inv strict) (hr : s.Received j item) :
    ∃ i, ⟨i, j, item⟩ ∈ s.handoffs := by
  have hm : (s.point j).matched .recv (s.core.state j) := by
    rcases hr with hp | ⟨hw, hst, -⟩
    · simp [hp, Point.matched]
    · simp [Point.matched_of_waits hw, hst]
  obtain ⟨o, ho, heq⟩ := h.handoff_of_matched hm
  have hreceiver : o.receiver = j := heq
  have hitem : item = o.item := by
    rcases hr with hp | ⟨hw, -, hslot⟩
    · exact h.outcome o ho .recv item (by rw [heq, hp])
    · have := h.dest o ho (by rw [hreceiver]; exact hw)
      rw [hreceiver, hslot] at this
      exact Option.some.inj this
  exact ⟨o.sender, by rw [hitem, ← hreceiver]; exact ho⟩

/-- What the channel promises without cancellation. -/
structure Exact (store : Store) (s : System T) : Prop where
  /-- an item goes to exactly one receive exactly if its send goes through -/
  sent_iff : ∀ i item, s.Sent i item ↔ ∃! j, ⟨i, j, item⟩ ∈ s.handoffs ∧ s.Received j item
  /-- a receive gets an item exactly if it is that of one send that went through -/
  received_iff : ∀ j item, s.Received j item ↔ ∃! i, ⟨i, j, item⟩ ∈ s.handoffs ∧ s.Sent i item
  /-- whoever is told returns as soon as it looks -/
  returns : ∀ i side, (s.point i).waits side → s.core.state i ≠ .waiting →
    ∃ a t outcome, (a = .look i ∨ a = .repoll i) ∧ System.step store s a = some t ∧
      t.point i = .returned side outcome
  /-- those that parked are served in the order they came in, before those that wait -/
  served : s.arrivals.Nodup ∧
    ((s.handoffs.map (·.sender)).filter (· ∈ s.arrivals) ++ s.core.senderWaiters).Sublist s.arrivals
  exclusive : s.core.senderWaiters = [] ∨ s.core.receivers = []
  senders : s.core.receiverCount = 0 → ∀ i, (s.point i).waits .send → s.core.state i ≠ .waiting
  receivers : s.core.senderCount = 0 → ∀ i, (s.point i).waits .recv → s.core.state i ≠ .waiting

theorem Inv.finish_returns (h : s.Inv strict) {side : Side} (hw : (s.point i).waits side) :
    ∃ t outcome, s.finish side i = some t ∧ t.point i = .returned side outcome := by
  by_cases hst : s.core.state i = .done
  · have hitem : ∃ item, s.finish side i = some (s.setPoint i (.returned side (.ok item))) := by
      cases side with
      | send =>
        obtain ⟨item, hitem⟩ := isSome_iff_exists.mp (h.payload i hw).1
        exact ⟨item, by simp [System.finish, hst, hitem]⟩
      | recv =>
        have hm : (s.point i).matched .recv (s.core.state i) := by
          simp [Point.matched_of_waits hw, hst]
        obtain ⟨o, ho, heq⟩ := h.handoff_of_matched hm
        have hreceiver : o.receiver = i := heq
        have hslot := h.dest o ho (by rw [hreceiver]; exact hw)
        rw [hreceiver] at hslot
        exact ⟨o.item, by simp [System.finish, hst, hslot]⟩
    obtain ⟨item, hitem⟩ := hitem
    exact ⟨_, .ok item, hitem, update_self ..⟩
  · refine ⟨s.setPoint i (.returned side .closed), .closed, ?_, update_self ..⟩
    unfold System.finish
    split
    · contradiction
    · rfl

theorem Inv.returns (h : s.Inv strict) {store : Store} {side : Side}
    (hw : (s.point i).waits side) (hl : (s.point i).looks) (hst : s.core.state i ≠ .waiting) :
    ∃ a t outcome, (a = .look i ∨ a = .repoll i) ∧ System.step store s a = some t ∧
      t.point i = .returned side outcome := by
  obtain ⟨t, outcome, hfin, hp⟩ := h.finish_returns hw
  cases hpt : s.point i with
  | parked side' kind =>
    obtain rfl : side = side' := by simpa [hpt, Point.waits] using hw
    exact ⟨.look i, t, outcome, .inl rfl, by simp [System.step, hpt, hst, hfin], hp⟩
  | polled side' =>
    obtain rfl : side = side' := by simpa [hpt, Point.waits] using hw
    have hmem := h.not_mem_of_terminal hl hst side
    exact ⟨.repoll i, t, outcome, .inr rfl, by simp [System.step, hpt, hmem, hfin], hp⟩
  | fresh => simp [hpt, Point.looks] at hl
  | cancelling side' kind => simp [hpt, Point.looks] at hl
  | returned side' outcome => simp [hpt, Point.looks] at hl

theorem looks_of_waits {p : Point T} {side : Side} (hw : p.waits side) (hc : p.cancels = false) :
    p.looks := by
  cases p <;> simp_all [Point.waits, Point.cancels, Point.gaveUp, Point.looks]

theorem Inv.not_waiting (h : s.Inv True) (side : Side) (hc : s.core.count side = 0)
    (hw : (s.point i).waits side.other) : s.core.state i ≠ .waiting := by
  intro hst
  have hmem := h.complete trivial side.other i ⟨hw, by rw [hst]; rfl⟩
  rw [h.closed side hc] at hmem
  simp at hmem

theorem Inv.exact {store : Store} (h : s.Inv True) (hc : ∀ i, (s.point i).cancels = false) :
    s.Exact store := by
  have hup : ∀ k, (s.point k).gaveUp → s.core.state k ≠ .done := by
    intro k hk
    have := hc k
    cases hp : s.point k with
    | returned side outcome => cases outcome <;> simp_all [Point.cancels, Point.gaveUp]
    | _ => simp_all [Point.cancels, Point.gaveUp]
  have hab : ∀ k side, s.point k ≠ .returned side .abandoned := by
    intro k side hp
    simpa [hp, Point.cancels] using hc k
  have hsent : ∀ o ∈ s.handoffs, s.Sent o.sender o.item := fun o ho =>
    (h.sent_of_handoff ho (hup _)).resolve_right (hab _ _)
  have hreceived : ∀ o ∈ s.handoffs, s.Received o.receiver o.item := fun o ho =>
    (h.received_of_handoff ho (hup _)).resolve_right (hab _ _)
  refine ⟨fun i item => ⟨fun hs => ?_, fun hj => ?_⟩, fun j item => ⟨fun hr => ?_, fun hi => ?_⟩,
    fun i side hw hst => h.returns hw (looks_of_waits hw (hc i)) hst, ⟨h.arrivals.1, h.order⟩,
    h.exclusive, fun hz i hw => h.not_waiting .recv hz hw,
    fun hz i hw => h.not_waiting .send hz hw⟩
  · obtain ⟨j, hj⟩ := h.handoff_of_sent hs
    refine ⟨j, ⟨hj, hreceived _ hj⟩, fun j' hj' => ?_⟩
    exact (Handoff.mk.inj (h.party_inj .send hj'.1 hj rfl)).2.1
  · obtain ⟨j, hj, -⟩ := hj
    exact hsent _ hj.1
  · obtain ⟨i, hi⟩ := h.handoff_of_received hr
    refine ⟨i, ⟨hi, hsent _ hi⟩, fun i' hi' => ?_⟩
    exact (Handoff.mk.inj (h.party_inj .recv hi'.1 hi rfl)).1
  · obtain ⟨i, hi, -⟩ := hi
    exact hreceived _ hi.1

/-- What the channel promises holds along every run without cancellation, as long as the single
slot holds one receiver at a time. -/
theorem exact_of_allowed {store : Store}
    (h : Run (System.step store) (fun s a => Allowed store s a ∧ a.cancels = false) init s) :
    s.Exact store := by
  have hinv : s.Inv True ∧ ∀ i, (s.point i).cancels = false :=
    Run.invariant (I := fun s => s.Inv True ∧ ∀ i, (s.point i).cancels = false) h
      ⟨inv_init, fun _ => rfl⟩ fun _ _ _ ht hC hstep =>
        ⟨ht.1.step (fun _ => hC.1) hstep, fun i => (ht.1.moves hstep i).not_cancels hC.2 (ht.2 i)⟩
  exact hinv.1.exact hinv.2

/-- A receive parks, a send hands over to it, and it returns the item. -/
theorem exact_of_allowed_one_item : ∃ s : System ℕ,
    Run (System.step .slot) (fun s a => Allowed .slot s a ∧ a.cancels = false) init s ∧
      s.Exact .slot ∧ s.point 0 = .returned .recv (.ok 7) ∧ s.handoffs = [⟨1, 0, 7⟩] := by
  have hrecv : Run (System.step .slot) (fun (s : System ℕ) a => Allowed .slot s a ∧
      a.cancels = false) init (init.parkRecv .slot 0 .sync) :=
    .tail (a := .recv 0 .sync) (.refl _) ⟨fun _ => rfl, rfl⟩ rfl
  have hsend := hrecv.tail (a := Action.trySend 1 7) ⟨trivial, rfl⟩ rfl
  have hlook := hsend.tail (a := Action.look 0) ⟨trivial, rfl⟩ rfl
  exact ⟨_, hlook, exact_of_allowed hlook, rfl, rfl⟩

/-- Two receives park in the single slot, and the last sender goes: the first one is told nothing
and stays parked. -/
theorem not_exact_of_two_receives : ∃ s : System ℕ,
    Run (System.step .slot) (fun _ a => a.cancels = false) init s ∧ s.core.senderCount = 0 ∧
      s.point 0 = .parked .recv .future ∧ s.core.state 0 = .waiting ∧ ¬ s.Exact .slot := by
  have hrun : Run (System.step .slot) (fun (_ : System ℕ) a => a.cancels = false) init
      (init.parkRecv .slot 0 .future) :=
    .tail (a := .recv 0 .future) (.refl _) rfl rfl
  have hrecv := hrun.tail (a := Action.recv 1 .future) rfl rfl
  have hdrop := hrecv.tail (a := Action.dropSender) rfl rfl
  refine ⟨_, hdrop, rfl, rfl, rfl, fun hexact => ?_⟩
  exact hexact.receivers rfl 0 rfl rfl

/-- What the channel promises with cancellation. -/
structure Exclusive (s : System T) : Prop where
  /-- who cancelled takes part in no handoff -/
  gaveUp : ∀ i, (s.point i).gaveUp → ∀ o ∈ s.handoffs, ∀ side, o.party side ≠ i
  /-- the item of a send that returned `Ok` goes to exactly one receive, which returns it unless
  its future is dropped -/
  sent : ∀ i item, s.point i = .returned .send (.ok item) → ∃! j, ⟨i, j, item⟩ ∈ s.handoffs ∧
    (s.Received j item ∨ s.point j = .returned .recv .abandoned)
  /-- what a receive returns is the item of exactly one send, which returns `Ok` unless its future
  is dropped -/
  received : ∀ j item, s.point j = .returned .recv (.ok item) → ∃! i, ⟨i, j, item⟩ ∈ s.handoffs ∧
    (s.Sent i item ∨ s.point i = .returned .send .abandoned)
  /-- an item that stayed with its sender is never delivered -/
  kept : ∀ i outcome, s.point i = .returned .send outcome →
    outcome = .closed ∨ outcome = .nobody ∨ outcome = .cancelled →
      ∀ o ∈ s.handoffs, o.sender ≠ i

theorem Inv.exclusive_of_gaveUp (h : s.Inv strict)
    (hup : ∀ k, (s.point k).gaveUp → s.core.state k ≠ .done) : s.Exclusive := by
  have hparty : ∀ i, (s.point i).gaveUp → ∀ o ∈ s.handoffs, ∀ side, o.party side ≠ i := by
    rintro i hi o ho side rfl
    rcases Point.matched_cases (h.matched_of_handoff ho side) with ⟨item, hp⟩ | ⟨hst, -⟩
    · simp [hp, Point.gaveUp] at hi
    · exact hup _ hi hst
  refine ⟨hparty, fun i item hp => ?_, fun j item hp => ?_, fun i outcome hp hout o ho heq => ?_⟩
  · obtain ⟨j, hj⟩ := h.handoff_of_sent (.inl hp)
    refine ⟨j, ⟨hj, h.received_of_handoff hj (hup _)⟩, fun j' hj' => ?_⟩
    exact (Handoff.mk.inj (h.party_inj .send hj'.1 hj rfl)).2.1
  · obtain ⟨i, hi⟩ := h.handoff_of_received (.inl hp)
    refine ⟨i, ⟨hi, h.sent_of_handoff hi (hup _)⟩, fun i' hi' => ?_⟩
    exact (Handoff.mk.inj (h.party_inj .recv hi'.1 hi rfl)).1
  · rcases hout with rfl | rfl | rfl
    · have := h.matched_of_handoff ho .send
      simp [show o.party .send = i from heq, hp, Point.matched] at this
    · have := h.matched_of_handoff ho .send
      simp [show o.party .send = i from heq, hp, Point.matched] at this
    · exact hparty i (by simp [hp, Point.gaveUp]) o ho .send heq

/-- What the channel promises holds along every run in which no locked section takes a record that
its owner has cancelled. -/
theorem exclusive_of_takesLive {store : Store}
    (h : Run (System.step store) (fun s a => s.TakesLive a) init s) : s.Exclusive := by
  have hinv : s.Inv False ∧ ∀ i, (s.point i).gaveUp →
      s.core.state i = .cancelled ∨ s.core.state i = .disconnected :=
    Run.invariant (I := fun s => s.Inv False ∧ ∀ i, (s.point i).gaveUp →
        s.core.state i = .cancelled ∨ s.core.state i = .disconnected) h
      ⟨inv_init, fun i hi => by simp [init, Point.gaveUp] at hi⟩ fun _ _ _ ht hC hstep =>
        ⟨ht.1.step False.elim hstep, fun i => (ht.1.moves hstep i).gaveUp ht.1 hC (ht.2 i)⟩
  refine hinv.1.exclusive_of_gaveUp fun k hk hst => ?_
  rcases hinv.2 k hk with h | h <;> simp [h] at hst

/-- A timed receive cancels and takes its record out; a send finds nobody after that. -/
theorem exclusive_of_takesLive_timeout : ∃ s : System ℕ,
    Run (System.step .queue) (fun s a => s.TakesLive a) init s ∧ s.Exclusive ∧
      s.point 0 = .returned .recv .timeout ∧ s.point 1 = .returned .send .nobody := by
  have hrecv : Run (System.step .queue) (fun (s : System ℕ) a => s.TakesLive a) init
      (init.parkRecv .queue 0 .timed) :=
    .tail (a := .recv 0 .timed) (.refl _) (by simp [TakesLive, init, Core.new]) rfl
  have hcancel := hrecv.tail (a := Action.cancel 0) trivial rfl
  have hunlink := hcancel.tail (a := Action.unlink 0) trivial rfl
  have hsend := hunlink.tail (a := Action.trySend 1 7) (fun j hj => by cases hj) rfl
  exact ⟨_, hsend, exclusive_of_takesLive hsend, rfl, rfl⟩

/-- A filled receive future is dropped with its item, and a record is taken while its owner is on
its way to take it out: both sends return `Ok`, and nobody returns their items. The second receive
returns `Timeout`. -/
theorem handoff_lost :
    (∃ s : System ℕ, Reachable (System.step .queue) init s ∧
      s.point 1 = .returned .send (.ok 7) ∧ s.handoffs = [⟨1, 0, 7⟩] ∧
      s.point 0 = .returned .recv .abandoned) ∧
    ∃ s : System ℕ, Reachable (System.step .queue) init s ∧
      s.point 1 = .returned .send (.ok 7) ∧ s.handoffs = [⟨1, 0, 7⟩] ∧
      s.point 0 = .returned .recv .timeout := by
  constructor
  · have hrecv : Reachable (System.step .queue) (init : System ℕ)
        (init.parkRecv .queue 0 .future) := .tail (a := .recv 0 .future) (.refl _) trivial rfl
    have hsend := Run.tail (a := Action.trySend 1 7) hrecv trivial rfl
    have hdrop := Run.tail (a := Action.cancel 0) hsend trivial rfl
    exact ⟨_, hdrop, rfl, rfl, rfl⟩
  · have hrecv : Reachable (System.step .queue) (init : System ℕ)
        (init.parkRecv .queue 0 .timed) := .tail (a := .recv 0 .timed) (.refl _) trivial rfl
    have hcancel := Run.tail (a := Action.cancel 0) hrecv trivial rfl
    have hsend := Run.tail (a := Action.trySend 1 7) hcancel trivial rfl
    have hunlink := Run.tail (a := Action.unlink 0) hsend trivial rfl
    exact ⟨_, hunlink, rfl, rfl, rfl⟩

end System

end Fibre.Channels.Rendezvous
