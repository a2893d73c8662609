import Fibre.Channels.Rendezvous.Handoff

/-!
# Several receives on one receiver

The receiver of an MPSC rendezvous channel is not cloned, but any number of its receive futures can
be under way at once. The channel keeps one record of them: a receive that parks overwrites the
record that is there. The receive whose record it was is told nothing any more: a poll of it finds
its state `WAITING` and no record, takes that for a channel that closed, and returns `Disconnected`.
-/

namespace Fibre.Channels.Rendezvous

open Machine Function Option List

variable {T : Type*}

namespace Point

/-- A step from `p` to `p'` is one of the operation's call, or falls into it. -/
def during (p p' : Point T) : Bool :=
  match p, p' with
  | returned _ _, _ | _, fresh => false
  | _, _ => true

end Point

/-- The channel, which calls have seen it without senders, and whether senders came back to it when
none was left. -/
structure Watched (T : Type*) where
  system : System T
  saw : ℕ → Bool
  revived : Bool

namespace System

/-- A receive that parks overwrites no record of one that waits. -/
def Spares (s : System T) : Action T → Prop
  | .recv _ _ => ∀ j ∈ s.core.receivers, s.core.state j ≠ .waiting
  | _ => True

/-- What is known of the receives: who waits has its record in place, and `seen` holds of those
that were told of a channel without senders. -/
structure Tracks (s : System T) (seen : ℕ → Prop) : Prop where
  reach : ∀ i, (s.point i).waits .recv → s.core.state i = .waiting → i ∈ s.core.receivers
  told : ∀ i, (s.point i).waits .recv → s.core.state i = .disconnected → seen i
  back : ∀ i, s.point i = .returned .recv .closed → seen i

variable {s t u : System T} {seen seen' : ℕ → Prop} {strict : Prop} {i : ℕ} {item : T}

namespace Tracks

theorem mono (h : s.Tracks seen) (hseen : ∀ i, seen i → seen' i) : s.Tracks seen' where
  reach := h.reach
  told i hw hst := hseen i (h.told i hw hst)
  back i hp := hseen i (h.back i hp)

theorem setPoint (h : s.Tracks seen) {p : Point T}
    (hwaits : p.waits .recv → (s.point i).waits .recv)
    (hback : p = .returned .recv .closed → seen i) : (s.setPoint i p).Tracks seen := by
  refine ⟨fun k hk hst => ?_, fun k hk hst => ?_, fun k hk => ?_⟩ <;> by_cases hki : k = i
  · subst hki
    exact h.reach k (hwaits (by simpa [System.setPoint] using hk)) hst
  · exact h.reach k (by simpa [System.setPoint, hki] using hk) hst
  · subst hki
    exact h.told k (hwaits (by simpa [System.setPoint] using hk)) hst
  · exact h.told k (by simpa [System.setPoint, hki] using hk) hst
  · subst hki
    exact hback (by simpa [System.setPoint] using hk)
  · exact h.back k (by simpa [System.setPoint, hki] using hk)

theorem returned (h : s.Tracks seen) {side : Side} {outcome : Outcome T}
    (hback : side = .recv → outcome = .closed → seen i) :
    (s.setPoint i (.returned side outcome)).Tracks seen := by
  refine h.setPoint (fun hp => by simp [Point.waits] at hp) fun hp => ?_
  obtain ⟨hside, hout⟩ := Point.returned.inj hp
  exact hback hside hout

theorem handed (h : s.Tracks seen) (hinv : s.Inv strict) {a : Side} {o : Handoff T}
    {rest : List ℕ} (ht : Handed s t a o rest) : t.Tracks seen := by
  have hactor : ∀ k, (t.point k).waits .recv → k ≠ o.party a := by
    rintro k hk rfl
    rw [ht.point_actor] at hk
    simp [Point.waits] at hk
  refine ⟨fun k hk hst => ?_, fun k hk hst => ?_, fun k hk => ?_⟩
  · have hne := hactor k hk
    have hpeer : k ≠ o.party a.other := by
      rintro rfl
      rw [ht.state_peer] at hst
      cases hst
    rw [ht.point_of_ne hne] at hk
    rw [ht.state_of_ne hpeer] at hst
    exact (ht.mem_queue hinv .recv k).mpr ⟨h.reach k hk hst, hpeer⟩
  · have hne := hactor k hk
    have hpeer : k ≠ o.party a.other := by
      rintro rfl
      rw [ht.state_peer] at hst
      cases hst
    rw [ht.point_of_ne hne] at hk
    rw [ht.state_of_ne hpeer] at hst
    exact h.told k hk hst
  · by_cases hk' : k = o.party a
    · rw [hk', ht.point_actor] at hk
      cases hk
    · rw [ht.point_of_ne hk'] at hk
      exact h.back k hk

theorem parked (h : s.Tracks seen) {a : Side} {q : List ℕ} {kind : Kind}
    (ht : Parked s t a q i kind)
    (hkept : a = .recv → ∀ k ∈ s.core.receivers, s.core.state k = .waiting → k ∈ q) :
    t.Tracks seen := by
  refine ⟨fun k hk hst => ?_, fun k hk hst => ?_, fun k hk => ?_⟩ <;> by_cases hki : k = i
  · subst hki
    rw [ht.point_self] at hk
    obtain rfl : Side.recv = a := by simpa [Point.waits] using hk
    have hqueue : t.core.receivers = q ++ [k] := ht.queue
    rw [hqueue]
    exact mem_append_right _ mem_cons_self
  · rw [ht.point_of_ne hki] at hk
    rw [ht.state_of_ne hki] at hst
    have hmem := h.reach k hk hst
    cases a with
    | send =>
      have halone : s.core.receivers = [] := ht.alone
      rw [halone] at hmem
      cases hmem
    | recv =>
      have hqueue : t.core.receivers = q ++ [i] := ht.queue
      rw [hqueue]
      exact mem_append_left _ (hkept rfl k hmem hst)
  · rw [hki, ht.state_self] at hst
    cases hst
  · rw [ht.point_of_ne hki] at hk
    rw [ht.state_of_ne hki] at hst
    exact h.told k hk hst
  · rw [hki, ht.point_self] at hk
    cases hk
  · rw [ht.point_of_ne hki] at hk
    exact h.back k hk

theorem disconnected (h : s.Tracks seen) (hinv : s.Inv strict) {a : Side}
    (ht : Disconnected s t a)
    (hseen : a = .send → ∀ k ∈ s.core.receivers, seen k) : t.Tracks seen := by
  refine ⟨fun k hk hst => ?_, fun k hk hst => ?_, fun k hk => ?_⟩
  · rw [ht.point] at hk
    rw [ht.state] at hst
    split_ifs at hst with hmem
    have hold := h.reach k hk hst
    cases a with
    | send => exact absurd hold hmem
    | recv =>
      have hqueue : t.core.receivers = s.core.receivers := ht.queue
      rwa [hqueue]
  · rw [ht.point] at hk
    rw [ht.state] at hst
    split_ifs at hst with hmem
    · cases a with
      | send => exact hseen rfl k hmem
      | recv =>
        -- those that were told are senders
        cases Point.waits_unique hk (hinv.mem _ k hmem).1
    · exact h.told k hk hst
  · rw [ht.point] at hk
    exact h.back k hk

theorem finish (h : s.Tracks seen) {side : Side} (hw : (s.point i).waits side)
    (hgone : side = .recv → s.core.state i ≠ .done → s.core.state i = .disconnected)
    (hfin : s.finish side i = some t) : t.Tracks seen := by
  unfold System.finish at hfin
  split at hfin
  · obtain ⟨item, -, rfl⟩ := map_eq_some_iff.mp hfin
    exact h.returned (by simp)
  · next hst =>
    obtain rfl : _ = t := Option.some.inj hfin
    refine h.returned fun hside _ => ?_
    rw [hside] at hw
    exact h.told i hw (hgone hside hst)

end Tracks

theorem tracks_init : (init : System T).Tracks seen where
  reach i hi := by simp [init, Point.waits] at hi
  told i hi := by simp [init, Point.waits] at hi
  back i hi := by simp [init] at hi

theorem Tracks.startSend (h : s.Tracks seen) (hinv : s.Inv strict) (hi : s.point i = .fresh)
    {park : System T → System T}
    (hpark : ∀ u : System T, u.Tracks seen → u.Inv strict → u.point i = .fresh →
      u.offered i = some item → u.core.receivers = [] → u.core.receiverCount ≠ 0 →
      (park u).Tracks seen)
    (ht : s.startSend i item park = some t) : t.Tracks seen := by
  have hu := hinv.offer hi item
  have htracks : Tracks { s with offered := update s.offered i (some item) } seen :=
    ⟨h.reach, h.told, h.back⟩
  obtain ⟨u, rfl, rfl | ⟨j, rest, hand⟩ | ⟨rfl, hnil, hopen⟩⟩ := startSend_cases hi ht
  · exact htracks.returned (by simp)
  · exact htracks.handed hu hand
  · exact hpark _ htracks hu hi (update_self ..) hnil hopen

theorem Tracks.startRecv (h : s.Tracks seen) (hinv : s.Inv strict) (hi : s.point i = .fresh)
    {park : System T → System T}
    (hnow : t.core.senderCount = 0 → (s.point i).during (t.point i) → seen i)
    (hpark : s.core.senderWaiters = [] → s.core.senderCount ≠ 0 → (park s).Tracks seen)
    (ht : s.startRecv i park = some t) : t.Tracks seen := by
  obtain ⟨rfl, hzero⟩ | ⟨j, item, rest, hand⟩ | ⟨rfl, hnil, hopen⟩ := hinv.startRecv_cases hi ht
  · refine h.returned fun _ _ => hnow hzero ?_
    simp [hi, System.setPoint, Point.during]
  · exact h.handed hinv hand
  · exact hpark hnil hopen

theorem Tracks.congr_core (h : s.Tracks seen) {core : Core T}
    (hqueue : core.receivers = s.core.receivers) (hstate : core.state = s.core.state) :
    Tracks { s with core := core } seen := by
  refine ⟨fun i hi hst => ?_, fun i hi hst => ?_, h.back⟩
  · rw [hqueue]
    exact h.reach i hi (hstate ▸ hst)
  · exact h.told i hi (hstate ▸ hst)

theorem Tracks.cancelled (h : s.Tracks seen) {side : Side} {kind : Kind}
    (hp : s.point i = .parked side kind) :
    Tracks { s.setPoint i (.cancelling side kind) with
      core := { s.core with state := update s.core.state i .cancelled } } seen := by
  have hold : Tracks { s with
      core := { s.core with state := update s.core.state i .cancelled } } seen := by
    refine ⟨fun k hk hst => ?_, fun k hk hst => ?_, h.back⟩ <;> by_cases hki : k = i
    · simp [hki] at hst
    · exact h.reach k hk (by simpa [hki] using hst)
    · simp [hki] at hst
    · exact h.told k hk (by simpa [hki] using hst)
  exact hold.setPoint (i := i) (fun hw => by simpa [hp, Point.waits] using hw) (by simp)

theorem Tracks.unlink (h : s.Tracks seen) {side : Side} {kind : Kind}
    (hp : s.point i = .cancelling side kind) :
    Tracks { s.setPoint i (.returned side (if kind = .timed then .timeout else .cancelled)) with
      core := s.core.unlink side i } seen := by
  have hstate : (s.core.unlink side i).state = s.core.state := by cases side <;> rfl
  refine ⟨fun k hk hst => ?_, fun k hk hst => ?_, fun k hk => ?_⟩ <;> by_cases hki : k = i
  · simp [hki, System.setPoint, Point.waits] at hk
  · have hmem := h.reach k (by simpa [System.setPoint, hki] using hk) (hstate ▸ hst)
    cases side with
    | send => exact hmem
    | recv => exact (mem_erase_of_ne hki).mpr hmem
  · simp [hki, System.setPoint, Point.waits] at hk
  · exact h.told k (by simpa [System.setPoint, hki] using hk) (hstate ▸ hst)
  · simp [hki, System.setPoint] at hk
    split_ifs at hk <;> simp at hk
  · exact h.back k (by simpa [System.setPoint, hki] using hk)

theorem senderCount_of_dropSender {j : ℕ} (hj : j ∈ s.core.receivers)
    (hnil : s.core.dropSender.receivers = []) : s.core.dropSender.senderCount = 0 := by
  unfold Core.dropSender at hnil ⊢
  by_cases hlast : s.core.senderCount - 1 = 0
  · simp [hlast, Core.disconnect]
  · simp only [if_neg hlast] at hnil
    rw [hnil] at hj
    cases hj

/-- Every step that spares the receives keeps what is known of them, and those whose call goes on
without senders have seen it. -/
theorem Tracks.step (h : s.Tracks seen) (hinv : s.Inv strict) {a : Action T}
    (hspares : s.Spares a) (ht : System.step .slot s a = some t)
    (hnow : t.core.senderCount = 0 → ∀ i, (s.point i).during (t.point i) → seen i) :
    t.Tracks seen := by
  cases a with
  | trySend i item =>
    simp only [System.step] at ht
    split at ht
    · exact h.startSend hinv ‹_› (fun u hu _ _ _ _ _ => hu.returned (by simp)) ht
    · cases ht
  | tryRecv i =>
    simp only [System.step] at ht
    split at ht
    · exact h.startRecv hinv ‹_› (fun hz => hnow hz i) (fun _ _ => h.returned (by simp)) ht
    · cases ht
  | send i kind item =>
    simp only [System.step] at ht
    split at ht
    · refine h.startSend hinv ‹_› (fun u hu _ hfresh hoffer hnil hopen => ?_) ht
      exact hu.parked (parked_parkSend hfresh hoffer hnil hopen kind) (by simp)
    · cases ht
  | recv i kind =>
    simp only [System.step] at ht
    split at ht
    · next hi =>
      refine h.startRecv hinv hi (fun hz => hnow hz i) (fun hnil hopen => ?_) ht
      obtain ⟨q, hparked, -⟩ := parked_parkRecv .slot hi hnil hopen kind
      exact h.parked hparked fun _ k hk hst => absurd hst (hspares k hk)
    · cases ht
  | look i =>
    simp only [System.step] at ht
    split at ht
    · next side kind hp =>
      have hw : (s.point i).waits side := by simp [hp, Point.waits]
      split_ifs at ht with hst hkind
      · obtain rfl : _ = t := Option.some.inj ht
        exact h.setPoint (fun hside => by simpa [hp, Point.waits] using hside) (by simp)
      · obtain rfl : _ = t := Option.some.inj ht
        exact h
      · refine h.finish hw (fun _ hdone => ?_) ht
        have hnot := hinv.looks i (by simp [hp, Point.looks])
        cases hs : s.core.state i <;> simp_all
    · cases ht
  | repoll i =>
    simp only [System.step] at ht
    split at ht
    · next side hp =>
      have hw : (s.point i).waits side := by simp [hp, Point.waits]
      split_ifs at ht with hmem
      · obtain rfl : _ = t := Option.some.inj ht
        exact h.setPoint (fun hside => by simpa [hp, Point.waits] using hside) (by simp)
      · refine h.finish hw (fun hside hdone => ?_) ht
        subst hside
        have hnot := hinv.looks i (by simp [hp, Point.looks])
        -- a record that waits would be in its place
        have hwait : s.core.state i ≠ .waiting := fun hst =>
          hmem (h.reach i hw hst)
        cases hs : s.core.state i <;> simp_all
    · cases ht
  | cancel i =>
    simp only [System.step] at ht
    split at ht
    · next side kind hp =>
      have hw : (s.point i).waits side := by simp [hp, Point.waits]
      split_ifs at ht with hkind hst htimed
      · obtain rfl : _ = t := Option.some.inj ht
        exact h.cancelled hp
      · refine h.finish hw (fun _ hdone => ?_) ht
        have hnot := hinv.looks i (by simp [hp, Point.looks])
        cases hs : s.core.state i <;> simp_all
      · obtain rfl : _ = t := Option.some.inj ht
        exact h.returned (by simp)
    · cases ht
  | unlink i =>
    simp only [System.step] at ht
    split at ht
    · next side kind hp =>
      obtain rfl : _ = t := Option.some.inj ht
      exact h.unlink hp
    · cases ht
  | cloneSender =>
    obtain rfl : _ = t := Option.some.inj ht
    exact h.congr_core rfl rfl
  | cloneReceiver =>
    obtain rfl : _ = t := Option.some.inj ht
    exact h.congr_core rfl rfl
  | dropSender =>
    simp only [System.step] at ht
    split_ifs at ht
    obtain rfl : _ = t := Option.some.inj ht
    rcases dropSender_cases s with ⟨heq, -⟩ | hdisc
    · rw [heq]
      exact h.congr_core rfl rfl
    · refine h.disconnected hinv hdisc fun _ k hk => ?_
      refine hnow (senderCount_of_dropSender hk hdisc.other) k ?_
      have hw := (hinv.mem .recv k hk).1
      cases hp : s.point k <;> simp_all [Point.waits, Point.during]
  | dropReceiver =>
    simp only [System.step] at ht
    split_ifs at ht
    obtain rfl : _ = t := Option.some.inj ht
    rcases dropReceiver_cases s with ⟨heq, -⟩ | hdisc
    · rw [heq]
      exact h.congr_core rfl rfl
    · exact h.disconnected hinv hdisc (by simp)

end System

namespace Watched

/-- A new channel. -/
def init : Watched T := ⟨System.init, fun _ => false, false⟩

def step (w : Watched T) (a : Action T) : Option (Watched T) :=
  (System.step .slot w.system a).map fun t => {
    system := t
    saw := fun i => w.saw i ||
      (t.core.senderCount = 0 && (w.system.point i).during (t.point i))
    revived := w.revived || (w.system.core.senderCount = 0 && t.core.senderCount ≠ 0) }

/-- The call has seen the channel without senders, and so it is still, unless a handle that was
closed before has been cloned since. -/
def Seen (w : Watched T) (i : ℕ) : Prop :=
  w.saw i = true ∧ (w.revived = false → w.system.core.senderCount = 0)

/-- What is asked of the receives. -/
structure Sound (w : Watched T) : Prop where
  /-- `Disconnected` is the answer of a channel without senders -/
  disconnected : ∀ i, w.system.point i = .returned .recv .closed → w.Seen i
  /-- a send or the last sender finds every receive that waits -/
  reachable : ∀ i, (w.system.point i).waits .recv → w.system.core.state i = .waiting →
    i ∈ w.system.core.receivers

variable {w w' : Watched T} {a : Action T} {i : ℕ}

/-- What holds along the runs in which receives spare each other. -/
structure Inv (w : Watched T) : Prop where
  system : w.system.Inv False
  tracks : w.system.Tracks w.Seen

theorem Inv.toSound (h : Inv w) : w.Sound := ⟨h.tracks.back, h.tracks.reach⟩

theorem Seen.step (h : w.Seen i) (hs : w.step a = some w') : w'.Seen i := by
  obtain ⟨t, -, rfl⟩ := map_eq_some_iff.mp hs
  refine ⟨by simp [h.1], fun hrev => ?_⟩
  simp only [Bool.or_eq_false_iff, Bool.and_eq_false_iff, decide_eq_false_iff_not,
    ne_eq, Decidable.not_not] at hrev
  exact hrev.2.resolve_left (not_not.mpr (h.2 hrev.1))

theorem Inv.step (h : Inv w) (hspares : w.system.Spares a) (hs : w.step a = some w') :
    Inv w' := by
  obtain ⟨t, ht, rfl⟩ := map_eq_some_iff.mp hs
  refine ⟨h.system.step False.elim ht, ?_⟩
  refine (h.tracks.mono fun i hi => hi.step hs).step h.system hspares ht fun hzero i hd => ?_
  exact ⟨by simp [show t.core.senderCount = 0 from hzero, hd], fun _ => hzero⟩

theorem Inv.not_sound (h : Inv w) (hs : w.step a = some w') (hnot : ¬ w.system.Spares a) :
    ¬ w'.Sound := by
  obtain ⟨t, ht, rfl⟩ := map_eq_some_iff.mp hs
  cases a with
  | recv i kind =>
    simp only [System.Spares, not_forall, not_not] at hnot
    obtain ⟨j, hj, hst⟩ := hnot
    simp only [System.step] at ht
    split at ht
    · next hi =>
      have hne : j ≠ i := by
        rintro rfl
        exact h.system.not_mem hi .recv hj
      obtain ⟨-, hzero⟩ | ⟨k, item, rest, hand⟩ | ⟨rfl, -, -⟩ := h.system.startRecv_cases hi ht
      · have hnil : w.system.core.receivers = [] := h.system.closed .send hzero
        rw [hnil] at hj
        cases hj
      · have hhead : w.system.core.senderWaiters = k :: rest := hand.head
        rcases h.system.exclusive with hnil | hnil
        · rw [hnil] at hhead
          cases hhead
        · rw [hnil] at hj
          cases hj
      · intro hsound
        -- the record of `j` was the one that is overwritten
        have hmem := hsound.reachable j
          (by simpa [System.parkRecv, System.setPoint, hne] using (h.system.mem .recv j hj).1)
          (by simpa [System.parkRecv, System.setPoint, Core.pushReceiver, hne] using hst)
        simp [System.parkRecv, Core.pushReceiver, hne] at hmem
    · cases ht
  | _ => exact absurd trivial hnot

theorem Inv.init : Inv (init : Watched T) where
  system := System.inv_init
  tracks := System.tracks_init

/-- Along every run in which no receive parks over one that waits, who returned `Disconnected` has
seen the channel without senders, and who waits can be reached. A receive that does park so, in
any such run, leaves one out of reach. -/
theorem sound_of_spares (h : Run step (fun w a => w.system.Spares a) init w) :
    w.Sound ∧ ∀ a w', w.step a = some w' → ¬ w.system.Spares a → ¬ w'.Sound := by
  have hinv : Inv w := h.invariant Inv.init fun _ _ _ hw hC hs => hw.step hC hs
  exact ⟨hinv.toSound, fun a w' hs hnot => hinv.not_sound hs hnot⟩

/-- A future is polled, the last sender leaves, and the future is polled again. -/
def polledOnce : List (Action ℕ) := [.recv 0 .future, .dropSender, .look 0]

/-- Two futures are polled, and the first one is polled again. -/
def polledTwice : List (Action ℕ) := [.recv 0 .future, .recv 1 .future, .look 0, .repoll 0]

/-- A receive has returned `Disconnected`. -/
def isDisconnected : Point ℕ → Bool
  | .returned .recv .closed => true
  | _ => false

theorem eq_of_isDisconnected {p : Point ℕ} (h : isDisconnected p) :
    p = .returned .recv .closed := by
  cases p with
  | returned side outcome => cases side <;> cases outcome <;> simp_all [isDisconnected]
  | _ => simp [isDisconnected] at h

/-- `Spares`, for a run that is executed. -/
def spares (w : Watched ℕ) : Action ℕ → Bool
  | .recv _ _ => w.system.core.receivers.isEmpty
  | _ => true

theorem sound_polledOnce : ∃ w : Watched ℕ, Run step (fun w a => w.system.Spares a) init w ∧
    w.system.point 0 = .returned .recv .closed ∧
    (w.Sound ∧ ∀ a w', w.step a = some w' → ¬ w.system.Spares a → ¬ w'.Sound) := by
  have hexec : (exec step spares init polledOnce).map (fun w => isDisconnected (w.system.point 0)) =
        some true := by
    decide
  obtain ⟨w, hw, hpoint⟩ := Option.map_eq_some_iff.mp hexec
  have hrun : Run step (fun w a => w.system.Spares a) init w := by
    refine run_of_exec (fun w a hok => ?_) hw
    cases a with
    | recv i kind =>
      have hnil : w.system.core.receivers = [] := List.isEmpty_iff.mp hok
      simp [System.Spares, hnil]
    | _ => trivial
  exact ⟨w, hrun, eq_of_isDisconnected hpoint, sound_of_spares hrun⟩

/-- The first future returns `Disconnected` beside a sender. -/
theorem not_sound_polledTwice :
    ¬ ∀ w : Watched ℕ, Reachable step init w → w.Sound := by
  intro hall
  have hexec : (exec step (fun _ _ => true) init polledTwice).map
      (fun w => (isDisconnected (w.system.point 0), w.saw 0)) = some (true, false) := by
    decide
  obtain ⟨w, hw, heq⟩ := Option.map_eq_some_iff.mp hexec
  obtain ⟨hpoint, hsaw⟩ := Prod.mk.inj heq
  have hseen := (hall w (reachable_of_exec hw)).disconnected 0 (eq_of_isDisconnected hpoint)
  rw [hseen.1] at hsaw
  cases hsaw

end Watched

end Fibre.Channels.Rendezvous
