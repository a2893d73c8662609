import Mathlib.Data.List.Nodup
import Fibre.Channels.Rendezvous.System

/-!
# Handoffs

What the queues, the states and the handoffs of a rendezvous channel have to do with each other,
in every run.
-/

namespace Fibre.Channels.Rendezvous

open Function List Option

variable {T : Type*}

/-- A state in which the record is in a queue. -/
def WaiterState.linked : WaiterState → Bool
  | .waiting | .cancelled => true
  | _ => false

namespace Point

/-- The operation has a record on the side, or had one. -/
def waits (side : Side) : Point T → Bool
  | parked side' _ | polled side' | cancelling side' _ => side = side'
  | _ => false

/-- The operation looks at its state, and has not cancelled. -/
def looks : Point T → Bool
  | parked _ _ | polled _ => true
  | _ => false

/-- The operation took part in a handoff, given its state. -/
def matched (side : Side) (st : WaiterState) : Point T → Bool
  | fresh => false
  | parked side' _ | polled side' | cancelling side' _ => side = side' && st = .done
  | returned side' outcome => side = side' &&
    match outcome with
    | .ok _ => true
    | .closed | .nobody => false
    | .timeout | .cancelled | .abandoned => st = .done

variable {p : Point T} {a b : Side}

theorem waits_unique (h : p.waits a) (h' : p.waits b) : a = b := by
  cases p <;> simp_all [waits]

theorem matched_of_waits (h : p.waits a) (side : Side) (st : WaiterState) :
    p.matched side st = (side = a && st = .done) := by
  cases p <;> simp_all [waits, matched]

theorem matched_of_linked (h : p.waits a) {st : WaiterState} (hst : st.linked) (side : Side) :
    p.matched side st = false := by
  rw [matched_of_waits h]
  cases st <;> simp_all [WaiterState.linked]

end Point

theorem Side.other_ne (a : Side) : a.other ≠ a := by cases a <;> decide

theorem Side.eq_or_eq_other (a side : Side) : side = a ∨ side = a.other := by
  cases a <;> cases side <;> decide

namespace System

def Linked (s : System T) (side : Side) (i : ℕ) : Prop :=
  (s.point i).waits side ∧ (s.core.state i).linked

/-- The queues hold operations that wait (all of them, in a `strict` run: the single slot can
forget one), each handoff has its two operations, and only one side waits. -/
structure Inv (strict : Prop) (s : System T) : Prop where
  nodup : ∀ side, (s.core.queue side).Nodup
  mem : ∀ side i, i ∈ s.core.queue side → s.Linked side i
  complete : strict → ∀ side i, s.Linked side i → i ∈ s.core.queue side
  looks : ∀ i, (s.point i).looks → s.core.state i ≠ .cancelled
  payload : ∀ i, (s.point i).waits .send → (s.offered i).isSome ∧
    (i ∈ s.core.senderWaiters → s.core.slot i = s.offered i)
  matched : ∀ side i, (s.handoffs.map (·.party side)).count i =
    if (s.point i).matched side (s.core.state i) then 1 else 0
  offered : ∀ h ∈ s.handoffs, s.offered h.sender = some h.item
  outcome : ∀ h ∈ s.handoffs, ∀ side item,
    s.point (h.party side) = .returned side (.ok item) → item = h.item
  dest : ∀ h ∈ s.handoffs, (s.point h.receiver).waits .recv → s.core.slot h.receiver = some h.item
  exclusive : s.core.senderWaiters = [] ∨ s.core.receivers = []
  closed : ∀ side, s.core.count side = 0 → s.core.queue side.other = []
  order : (((s.handoffs.map (·.sender)).filter (· ∈ s.arrivals)) ++ s.core.senderWaiters).Sublist
    s.arrivals
  arrivals : s.arrivals.Nodup ∧ ∀ i, s.point i = .fresh → i ∉ s.arrivals

variable {s t : System T} {strict : Prop} {i j : ℕ} {item : T}

theorem inv_init : (init : System T).Inv strict where
  nodup side := by cases side <;> exact nodup_nil
  mem side i h := by cases side <;> simp [init, Core.new, Core.queue] at h
  complete _ side i h := by simp [init, Linked, Point.waits] at h
  looks i h := by simp [init, Point.looks] at h
  payload i h := by simp [init, Point.waits] at h
  matched side i := by simp [init, Point.matched]
  offered h hh := by simp [init] at hh
  outcome h hh := by simp [init] at hh
  dest h hh := by simp [init] at hh
  exclusive := .inl rfl
  closed side _ := by cases side <;> rfl
  order := by simp [init, Core.new]
  arrivals := ⟨nodup_nil, fun _ _ => not_mem_nil⟩

theorem Inv.not_party (h : s.Inv strict) (hi : s.point i = .fresh) {o : Handoff T}
    (ho : o ∈ s.handoffs) (side : Side) : o.party side ≠ i := by
  intro heq
  have hcount := h.matched side i
  rw [hi, Point.matched, if_neg Bool.false_ne_true, List.count_eq_zero] at hcount
  exact hcount (heq ▸ mem_map_of_mem ho)

theorem Inv.setPoint (h : s.Inv strict) {p : Point T} (hfresh : p ≠ .fresh)
    (hmem : ∀ side, i ∈ s.core.queue side → p.waits side)
    (hcomplete : strict → ∀ side, p.waits side → (s.core.state i).linked → i ∈ s.core.queue side)
    (hlooks : p.looks → s.core.state i ≠ .cancelled)
    (hpayload : p.waits .send → (s.offered i).isSome)
    (hmatched : ∀ side, p.matched side (s.core.state i) =
      (s.point i).matched side (s.core.state i))
    (houtcome : ∀ o ∈ s.handoffs, ∀ side item, o.party side = i →
      p = .returned side (.ok item) → item = o.item)
    (hdest : p.waits .recv → (s.point i).waits .recv) : (s.setPoint i p).Inv strict where
  nodup := h.nodup
  mem side k hk := by
    have hold := h.mem side k hk
    by_cases hki : k = i
    · subst hki
      exact ⟨by simpa [System.setPoint] using hmem side hk, hold.2⟩
    · exact ⟨by simpa [System.setPoint, hki] using hold.1, hold.2⟩
  complete hs side k hk := by
    by_cases hki : k = i
    · subst hki
      exact hcomplete hs side (by simpa [System.setPoint] using hk.1) hk.2
    · exact h.complete hs side k ⟨by simpa [System.setPoint, hki] using hk.1, hk.2⟩
  looks k hk := by
    by_cases hki : k = i
    · subst hki
      exact hlooks (by simpa [System.setPoint] using hk)
    · exact h.looks k (by simpa [System.setPoint, hki] using hk)
  payload k hk := by
    by_cases hki : k = i
    · subst hki
      refine ⟨hpayload (by simpa [System.setPoint] using hk), fun hk' => ?_⟩
      exact (h.payload k (h.mem .send k hk').1).2 hk'
    · exact h.payload k (by simpa [System.setPoint, hki] using hk)
  matched side k := by
    by_cases hki : k = i
    · subst hki
      simpa [System.setPoint, hmatched side] using h.matched side k
    · simpa [System.setPoint, hki] using h.matched side k
  offered := h.offered
  outcome o ho side item hp := by
    by_cases hi : o.party side = i
    · exact houtcome o ho side item hi (by simpa [System.setPoint, hi] using hp)
    · exact h.outcome o ho side item (by simpa [System.setPoint, hi] using hp)
  dest o ho hp := by
    by_cases hi : o.receiver = i
    · refine h.dest o ho ?_
      rw [hi]
      exact hdest (by simpa [System.setPoint, hi] using hp)
    · exact h.dest o ho (by simpa [System.setPoint, hi] using hp)
  exclusive := h.exclusive
  closed := h.closed
  order := h.order
  arrivals := by
    refine ⟨h.arrivals.1, fun k hk => ?_⟩
    by_cases hki : k = i
    · subst hki
      exact absurd (by simpa [System.setPoint] using hk) hfresh
    · exact h.arrivals.2 k (by simpa [System.setPoint, hki] using hk)

theorem Inv.returned (h : s.Inv strict) {side : Side} {outcome : Outcome T}
    (hmem : ∀ side', i ∉ s.core.queue side')
    (hmatched : ∀ side', (Point.returned side outcome).matched side' (s.core.state i) =
      (s.point i).matched side' (s.core.state i))
    (houtcome : ∀ o ∈ s.handoffs, ∀ item, o.party side = i → outcome = .ok item → item = o.item) :
    (s.setPoint i (.returned side outcome)).Inv strict := by
  refine h.setPoint (by simp) (fun side' hi => absurd hi (hmem side')) (by simp [Point.waits])
    (by simp [Point.looks]) (by simp [Point.waits]) hmatched (fun o ho side' item heq hp => ?_)
    (by simp [Point.waits])
  obtain ⟨rfl, hout⟩ := Point.returned.inj hp
  exact houtcome o ho item heq hout

theorem Inv.not_mem (h : s.Inv strict) (hi : s.point i = .fresh) (side : Side) :
    i ∉ s.core.queue side := by
  intro hmem
  have := (h.mem side i hmem).1
  simp [hi, Point.waits] at this

theorem Inv.not_party_of_mem (h : s.Inv strict) {side : Side} (hj : j ∈ s.core.queue side)
    {o : Handoff T} (ho : o ∈ s.handoffs) (side' : Side) : o.party side' ≠ j := by
  intro heq
  obtain ⟨hwaits, hlinked⟩ := h.mem side j hj
  have hmatched := Point.matched_of_linked hwaits hlinked side'
  have hcount := h.matched side' j
  rw [hmatched, if_neg Bool.false_ne_true, List.count_eq_zero] at hcount
  exact hcount (heq ▸ mem_map_of_mem ho)

theorem Inv.mem_arrivals (h : s.Inv strict) (hj : j ∈ s.core.senderWaiters) : j ∈ s.arrivals :=
  h.order.subset (mem_append_right _ hj)

theorem Inv.exclusive_of_subset (h : s.Inv strict)
    (hsub : ∀ side, t.core.queue side ⊆ s.core.queue side) :
    t.core.senderWaiters = [] ∨ t.core.receivers = [] := by
  refine h.exclusive.imp (fun hnil => ?_) (fun hnil => ?_)
  · have hsend : t.core.senderWaiters ⊆ s.core.senderWaiters := hsub .send
    rw [hnil] at hsend
    exact eq_nil_of_subset_nil hsend
  · have hrecv : t.core.receivers ⊆ s.core.receivers := hsub .recv
    rw [hnil] at hrecv
    exact eq_nil_of_subset_nil hrecv

theorem Inv.closed_of_subset (h : s.Inv strict) {side : Side} {l : List ℕ}
    (hsub : l ⊆ s.core.queue side.other) (hc : s.core.count side = 0) : l = [] := by
  rw [h.closed side hc] at hsub
  exact eq_nil_of_subset_nil hsub

theorem Inv.records (h : s.Inv strict) {P : ℕ → Prop}
    (hqueue : ∀ side k, k ∈ t.core.queue side ↔ k ∈ s.core.queue side ∧ P k)
    (hlinked : ∀ side k, t.Linked side k ↔ s.Linked side k ∧ P k) :
    (∀ side k, k ∈ t.core.queue side → t.Linked side k) ∧
      (strict → ∀ side k, t.Linked side k → k ∈ t.core.queue side) := by
  refine ⟨fun side k hk => ?_, fun hs side k hk => ?_⟩
  · rw [hlinked]
    rw [hqueue] at hk
    exact ⟨h.mem side k hk.1, hk.2⟩
  · rw [hqueue]
    rw [hlinked] at hk
    exact ⟨h.complete hs side k hk.1, hk.2⟩

/-- An operation of the side `a` hands over with the first one parked on the other side. -/
structure Handed (s t : System T) (a : Side) (o : Handoff T) (rest : List ℕ) : Prop where
  fresh : s.point (o.party a) = .fresh
  head : s.core.queue a.other = o.party a.other :: rest
  offer : s.offered o.sender = some o.item
  point : t.point = update s.point (o.party a) (.returned a (.ok o.item))
  offered : t.offered = s.offered
  handoffs : t.handoffs = s.handoffs ++ [o]
  arrivals : t.arrivals = s.arrivals
  queue : t.core.queue a = s.core.queue a
  rest : t.core.queue a.other = rest
  count : t.core.count = s.core.count
  state : t.core.state = update s.core.state (o.party a.other) .done
  slot : ∀ k, k ≠ o.party a.other → t.core.slot k = s.core.slot k
  dest : a = .send → t.core.slot o.receiver = some o.item

section Handed

variable {a : Side} {o : Handoff T} {rest : List ℕ}

theorem Handed.mem_peer (ht : Handed s t a o rest) : o.party a.other ∈ s.core.queue a.other := by
  rw [ht.head]
  exact mem_cons_self

theorem Handed.peer_ne (ht : Handed s t a o rest) (h : s.Inv strict) :
    o.party a.other ≠ o.party a := by
  intro heq
  exact h.not_mem ht.fresh a.other (heq ▸ ht.mem_peer)

theorem Handed.mem_queue (ht : Handed s t a o rest) (h : s.Inv strict) (side : Side) (k : ℕ) :
    k ∈ t.core.queue side ↔ k ∈ s.core.queue side ∧ k ≠ o.party a.other := by
  have hnd := h.nodup a.other
  rw [ht.head, nodup_cons] at hnd
  rcases a.eq_or_eq_other side with rfl | rfl
  · rw [ht.queue]
    refine ⟨fun hk => ⟨hk, ?_⟩, And.left⟩
    rintro rfl
    -- the peer waits on the other side only
    have hpeer := (h.mem side.other _ ht.mem_peer).1
    exact side.other_ne (Point.waits_unique hpeer (h.mem side _ hk).1)
  · rw [ht.rest, ht.head, mem_cons]
    constructor
    · intro hk
      exact ⟨.inr hk, fun heq => hnd.1 (heq ▸ hk)⟩
    · rintro ⟨hk | hk, hne⟩
      · exact absurd hk hne
      · exact hk

theorem Handed.point_of_ne (ht : Handed s t a o rest) {k : ℕ} (hk : k ≠ o.party a) :
    t.point k = s.point k := by
  rw [ht.point, update_of_ne hk]

theorem Handed.point_actor (ht : Handed s t a o rest) :
    t.point (o.party a) = .returned a (.ok o.item) := by
  rw [ht.point, update_self]

theorem Handed.state_of_ne (ht : Handed s t a o rest) {k : ℕ} (hk : k ≠ o.party a.other) :
    t.core.state k = s.core.state k := by
  rw [ht.state, update_of_ne hk]

theorem Handed.state_peer (ht : Handed s t a o rest) :
    t.core.state (o.party a.other) = .done := by
  rw [ht.state, update_self]

theorem Handed.linked (ht : Handed s t a o rest) (side : Side) (k : ℕ) :
    t.Linked side k ↔ s.Linked side k ∧ k ≠ o.party a.other := by
  unfold Linked
  by_cases hactor : k = o.party a
  · subst hactor
    rw [ht.fresh, ht.point_actor]
    simp [Point.waits]
  · rw [ht.point_of_ne hactor]
    by_cases hk : k = o.party a.other
    · subst hk
      rw [ht.state_peer]
      simp [WaiterState.linked]
    · rw [ht.state_of_ne hk]
      simp [hk]

/-- The actor and the peer are matched now, once. -/
theorem Handed.matched (ht : Handed s t a o rest) (h : s.Inv strict) (side : Side) (k : ℕ) :
    (t.handoffs.map (·.party side)).count k =
      if (t.point k).matched side (t.core.state k) then 1 else 0 := by
  have hpeer := h.mem a.other _ ht.mem_peer
  have hold := h.matched side k
  rw [ht.handoffs, map_append, count_append, hold, map_singleton,
    count_singleton]
  by_cases hactor : k = o.party a
  · subst hactor
    rw [ht.fresh, ht.point_actor]
    rcases a.eq_or_eq_other side with rfl | rfl
    · simp [Point.matched]
    · simp [Point.matched, a.other_ne, ht.peer_ne h]
  · rw [ht.point_of_ne hactor]
    by_cases hk : k = o.party a.other
    · subst hk
      rw [Point.matched_of_linked hpeer.1 hpeer.2, ht.state_peer, Point.matched_of_waits hpeer.1]
      rcases a.eq_or_eq_other side with rfl | rfl
      · simp [(Side.other_ne side).symm, (ht.peer_ne h).symm]
      · simp
    · have hne : o.party side ≠ k := by
        rcases a.eq_or_eq_other side with rfl | rfl
        · exact Ne.symm hactor
        · exact Ne.symm hk
      rw [ht.state_of_ne hk]
      simp [hne]

end Handed

theorem Inv.handed (h : s.Inv strict) {a : Side} {o : Handoff T} {rest : List ℕ}
    (ht : Handed s t a o rest) : t.Inv strict := by
  have hpeer := h.mem a.other _ ht.mem_peer
  have hne := ht.peer_ne h
  have hrecords := h.records (ht.mem_queue h) fun side k => ht.linked side k
  refine ⟨fun side => ?_, hrecords.1, hrecords.2, fun k hk => ?_, fun k hk => ?_, ht.matched h,
    fun o' ho' => ?_, fun o' ho' side item hp => ?_, fun o' ho' hp => ?_, ?_, fun side hc => ?_,
    ?_, ?_⟩
  · rcases a.eq_or_eq_other side with rfl | rfl
    · rw [ht.queue]
      exact h.nodup side
    · have hnd := h.nodup a.other
      rw [ht.head, nodup_cons] at hnd
      rw [ht.rest]
      exact hnd.2
  · by_cases hpeer : k = o.party a.other
    · rw [hpeer, ht.state_peer]
      decide
    · rw [ht.state_of_ne hpeer]
      by_cases hactor : k = o.party a
      · rw [hactor, ht.point_actor] at hk
        simp [Point.looks] at hk
      · rw [ht.point_of_ne hactor] at hk
        exact h.looks k hk
  · have hactor : k ≠ o.party a := by
      rintro rfl
      rw [ht.point_actor] at hk
      simp [Point.waits] at hk
    rw [ht.point_of_ne hactor] at hk
    refine ⟨by rw [ht.offered]; exact (h.payload k hk).1, fun hmem => ?_⟩
    obtain ⟨hmem, hk'⟩ := (ht.mem_queue h .send k).mp hmem
    rw [ht.slot k hk', ht.offered]
    exact (h.payload k hk).2 hmem
  · rw [ht.offered]
    rw [ht.handoffs] at ho'
    rcases mem_append.mp ho' with ho' | ho'
    · exact h.offered o' ho'
    · obtain rfl := mem_singleton.mp ho'
      exact ht.offer
  · rw [ht.handoffs] at ho'
    rcases mem_append.mp ho' with ho' | ho'
    · rw [ht.point_of_ne (h.not_party ht.fresh ho' side)] at hp
      exact h.outcome o' ho' side item hp
    · obtain rfl := mem_singleton.mp ho'
      rcases a.eq_or_eq_other side with rfl | rfl
      · rw [ht.point_actor] at hp
        simpa using hp.symm
      · -- the peer has not returned yet
        rw [ht.point_of_ne hne] at hp
        have hwaits := hpeer.1
        simp [hp, Point.waits] at hwaits
  · rw [ht.handoffs] at ho'
    rcases mem_append.mp ho' with ho' | ho'
    · have hactor : o'.receiver ≠ o.party a := h.not_party ht.fresh ho' .recv
      have hpeer' : o'.receiver ≠ o.party a.other := h.not_party_of_mem ht.mem_peer ho' .recv
      rw [ht.point_of_ne hactor] at hp
      rw [ht.slot _ hpeer']
      exact h.dest o' ho' hp
    · obtain rfl := mem_singleton.mp ho'
      cases a with
      | send => exact ht.dest rfl
      | recv =>
        rw [show o'.receiver = o'.party .recv from rfl, ht.point_actor] at hp
        simp [Point.waits] at hp
  · exact h.exclusive_of_subset fun side k hk => ((ht.mem_queue h side k).mp hk).1
  · rw [ht.count] at hc
    exact h.closed_of_subset (fun k hk => ((ht.mem_queue h side.other k).mp hk).1) hc
  · rw [ht.handoffs, ht.arrivals, map_append, filter_append]
    have horder := h.order
    cases a with
    | send =>
      -- the actor never parked, so it is not among the arrivals
      have hnew : o.sender ∉ s.arrivals := h.arrivals.2 _ ht.fresh
      have hqueue : t.core.senderWaiters = s.core.senderWaiters := ht.queue
      simpa [hnew, hqueue] using horder
    | recv =>
      have hhead : s.core.senderWaiters = o.sender :: rest := ht.head
      have hrest : t.core.senderWaiters = rest := ht.rest
      have hold : o.sender ∈ s.arrivals := h.mem_arrivals ht.mem_peer
      rw [hhead] at horder
      simpa [hold, hrest] using horder
  · rw [ht.arrivals]
    refine ⟨h.arrivals.1, fun k hk => ?_⟩
    by_cases hactor : k = o.party a
    · rw [hactor, ht.point_actor] at hk
      simp at hk
    · rw [ht.point_of_ne hactor] at hk
      exact h.arrivals.2 k hk

/-- A fresh operation of the side `a` parks behind those in `q`, with nobody parked on the other
side. -/
structure Parked (s t : System T) (a : Side) (q : List ℕ) (i : ℕ) (kind : Kind) : Prop where
  fresh : s.point i = .fresh
  alone : s.core.queue a.other = []
  open_ : s.core.count a.other ≠ 0
  offer : a = .send → (s.offered i).isSome ∧ t.core.slot i = s.offered i
  point : t.point = update s.point i (.parked a kind)
  offered : t.offered = s.offered
  handoffs : t.handoffs = s.handoffs
  arrivals : t.arrivals = if a = .send then s.arrivals ++ [i] else s.arrivals
  queue : t.core.queue a = q ++ [i]
  kept : q.Sublist (s.core.queue a)
  senders : a = .send → q = s.core.senderWaiters
  other : t.core.queue a.other = []
  count : t.core.count = s.core.count
  state : t.core.state = update s.core.state i .waiting
  slot : ∀ k, k ≠ i → t.core.slot k = s.core.slot k

section Parked

variable {a : Side} {q : List ℕ} {kind : Kind}

theorem Parked.mem_queue (ht : Parked s t a q i kind) (side : Side) {k : ℕ}
    (hk : k ∈ t.core.queue side) : k ∈ s.core.queue side ∨ (k = i ∧ side = a) := by
  rcases a.eq_or_eq_other side with rfl | rfl
  · rw [ht.queue, mem_append, mem_singleton] at hk
    exact hk.imp (fun hk => ht.kept.subset hk) fun hk => ⟨hk, rfl⟩
  · rw [ht.other] at hk
    simp at hk

theorem Parked.mem_queue_of_kept (ht : Parked s t a q i kind) (hq : q = s.core.queue a)
    {side : Side} {k : ℕ} (hk : k ∈ s.core.queue side ∨ (k = i ∧ side = a)) :
    k ∈ t.core.queue side := by
  rcases a.eq_or_eq_other side with rfl | rfl
  · rw [ht.queue, hq, mem_append, mem_singleton]
    exact hk.imp id And.left
  · rw [ht.alone] at hk
    rcases hk with hk | ⟨-, hk⟩
    · simp at hk
    · exact absurd hk a.other_ne

theorem Parked.point_of_ne (ht : Parked s t a q i kind) {k : ℕ} (hk : k ≠ i) :
    t.point k = s.point k := by
  rw [ht.point, update_of_ne hk]

theorem Parked.point_self (ht : Parked s t a q i kind) : t.point i = .parked a kind := by
  rw [ht.point, update_self]

theorem Parked.state_of_ne (ht : Parked s t a q i kind) {k : ℕ} (hk : k ≠ i) :
    t.core.state k = s.core.state k := by
  rw [ht.state, update_of_ne hk]

theorem Parked.state_self (ht : Parked s t a q i kind) : t.core.state i = .waiting := by
  rw [ht.state, update_self]

theorem Parked.linked (ht : Parked s t a q i kind) (side : Side) (k : ℕ) :
    t.Linked side k ↔ s.Linked side k ∨ (k = i ∧ side = a) := by
  unfold Linked
  by_cases hk : k = i
  · subst hk
    rw [ht.point_self, ht.state_self, ht.fresh]
    simp [Point.waits, WaiterState.linked]
  · rw [ht.point_of_ne hk, ht.state_of_ne hk]
    simp [hk]

end Parked

theorem Inv.parked (h : s.Inv strict) {a : Side} {q : List ℕ} {kind : Kind}
    (ht : Parked s t a q i kind) (hkept : strict → q = s.core.queue a) : t.Inv strict := by
  have hparty : ∀ o ∈ s.handoffs, ∀ side, o.party side ≠ i := fun o ho side =>
    h.not_party ht.fresh ho side
  refine ⟨fun side => ?_, fun side k hk => ?_, fun hs side k hk => ?_, fun k hk => ?_,
    fun k hk => ?_, fun side k => ?_, fun o ho => ?_, fun o ho side item hp => ?_,
    fun o ho hp => ?_, ?_, fun side hc => ?_, ?_, ?_⟩
  · rcases a.eq_or_eq_other side with rfl | rfl
    · rw [ht.queue]
      refine nodup_append.mpr ⟨(h.nodup side).sublist ht.kept, nodup_singleton i,
        fun k hk j hj heq => h.not_mem ht.fresh side (ht.kept.subset ?_)⟩
      rwa [heq, mem_singleton.mp hj] at hk
    · rw [ht.other]
      exact nodup_nil
  · rw [ht.linked]
    exact (ht.mem_queue side hk).imp (h.mem side k) id
  · rw [ht.linked] at hk
    exact ht.mem_queue_of_kept (hkept hs) (hk.imp (h.complete hs side k) id)
  · by_cases hki : k = i
    · rw [hki, ht.state_self]
      decide
    · rw [ht.point_of_ne hki] at hk
      rw [ht.state_of_ne hki]
      exact h.looks k hk
  · rw [ht.offered]
    by_cases hki : k = i
    · subst hki
      rw [ht.point_self] at hk
      have ha : a = .send := by simpa [Point.waits, eq_comm] using hk
      exact ⟨(ht.offer ha).1, fun _ => (ht.offer ha).2⟩
    · rw [ht.point_of_ne hki] at hk
      refine ⟨(h.payload k hk).1, fun hmem => ?_⟩
      rw [ht.slot k hki]
      rcases ht.mem_queue .send hmem with hmem | ⟨heq, -⟩
      · exact (h.payload k hk).2 hmem
      · exact absurd heq hki
  · rw [ht.handoffs, h.matched]
    by_cases hk : k = i
    · subst hk
      rw [ht.fresh, ht.point_self, ht.state_self]
      simp [Point.matched]
    · rw [ht.point_of_ne hk, ht.state_of_ne hk]
  · rw [ht.handoffs] at ho
    rw [ht.offered]
    exact h.offered o ho
  · rw [ht.handoffs] at ho
    rw [ht.point_of_ne (hparty o ho side)] at hp
    exact h.outcome o ho side item hp
  · rw [ht.handoffs] at ho
    have hne : o.receiver ≠ i := hparty o ho .recv
    rw [ht.point_of_ne hne] at hp
    rw [ht.slot _ hne]
    exact h.dest o ho hp
  · have hother := ht.other
    cases a with
    | send => exact .inr hother
    | recv => exact .inl hother
  · rw [ht.count] at hc
    rcases a.eq_or_eq_other side.other with heq | heq
    · -- the side it needs is still open
      have hside : side = a.other := by rw [← heq]; cases side <;> rfl
      rw [hside] at hc
      exact absurd hc ht.open_
    · rw [heq]
      exact ht.other
  · have horder := h.order
    have harrivals := ht.arrivals
    rw [ht.handoffs]
    cases a with
    | send =>
      have hqueue : t.core.senderWaiters = q ++ [i] := ht.queue
      have hfilter : (s.handoffs.map (·.sender)).filter (· ∈ s.arrivals ++ [i]) =
          (s.handoffs.map (·.sender)).filter (· ∈ s.arrivals) := by
        apply filter_congr
        intro k hk
        obtain ⟨o, ho, rfl⟩ := mem_map.mp hk
        have hne : o.sender ≠ i := hparty o ho .send
        simp [hne]
      rw [if_pos rfl] at harrivals
      rw [harrivals, hqueue, hfilter, ht.senders rfl, ← append_assoc]
      exact horder.append_right [i]
    | recv =>
      have hqueue : t.core.senderWaiters = s.core.senderWaiters := ht.other.trans ht.alone.symm
      rw [if_neg (by decide)] at harrivals
      rw [harrivals, hqueue]
      exact horder
  · have hnew := h.arrivals.2 i ht.fresh
    have harrivals := ht.arrivals
    rw [harrivals]
    refine ⟨?_, fun k hk => ?_⟩
    · split_ifs
      · exact nodup_append.mpr ⟨h.arrivals.1, nodup_singleton i, fun k hk j hj heq =>
          hnew (by rwa [heq, mem_singleton.mp hj] at hk)⟩
      · exact h.arrivals.1
    · have hki : k ≠ i := by
        rintro rfl
        rw [ht.point_self] at hk
        simp at hk
      rw [ht.point_of_ne hki] at hk
      split_ifs
      · simpa [hki] using h.arrivals.2 k hk
      · exact h.arrivals.2 k hk

theorem Inv.not_mem_of_terminal (h : s.Inv strict) (hlooks : (s.point i).looks)
    (hst : s.core.state i ≠ .waiting) (side : Side) : i ∉ s.core.queue side := by
  have hnot : (s.core.state i).linked = false := by
    have := h.looks i hlooks
    cases hs : s.core.state i <;> simp_all [WaiterState.linked]
  intro hmem
  rw [(h.mem side i hmem).2] at hnot
  simp at hnot

theorem Inv.abandoned (h : s.Inv strict) {side : Side} (hwaits : (s.point i).waits side)
    (hlooks : (s.point i).looks) (hst : s.core.state i ≠ .waiting) :
    (s.setPoint i (.returned side .abandoned)).Inv strict := by
  refine h.returned (h.not_mem_of_terminal hlooks hst) (fun side' => ?_) (by simp)
  rw [Point.matched_of_waits hwaits]
  rfl

theorem Inv.finish (h : s.Inv strict) {side : Side} (hwaits : (s.point i).waits side)
    (hmem : ∀ side', i ∉ s.core.queue side') (hfin : s.finish side i = some t) :
    t.Inv strict := by
  unfold System.finish at hfin
  split at hfin
  · next hdone =>
    obtain ⟨item, hitem, rfl⟩ := map_eq_some_iff.mp hfin
    refine h.returned hmem (fun side' => ?_) (fun o ho item' heq hp => ?_)
    · rw [Point.matched_of_waits hwaits, hdone]
      simp [Point.matched]
    · obtain rfl : item = item' := Outcome.ok.inj hp
      -- the item of its one handoff is the one it returns
      cases side with
      | send =>
        have hoffered := h.offered o ho
        rw [show o.sender = i from heq, show s.offered i = some item from hitem] at hoffered
        exact Option.some.inj hoffered
      | recv =>
        have hreceiver : o.receiver = i := heq
        have hdest := h.dest o ho (by rw [hreceiver]; exact hwaits)
        rw [hreceiver, show s.core.slot i = some item from hitem] at hdest
        exact Option.some.inj hdest
  · next hdone =>
    obtain rfl : _ = t := Option.some.inj hfin
    refine h.returned hmem (fun side' => ?_) (by simp)
    rw [Point.matched_of_waits hwaits, decide_eq_false hdone, Bool.and_false]
    simp [Point.matched]

theorem Inv.cancelled (h : s.Inv strict) {side : Side} {kind : Kind}
    (hp : s.point i = .parked side kind) (hst : s.core.state i = .waiting) :
    Inv strict { s.setPoint i (.cancelling side kind) with
      core := { s.core with state := update s.core.state i .cancelled } } := by
  have hlinked : ∀ side' k, Linked { s.setPoint i (.cancelling side kind) with
      core := { s.core with state := update s.core.state i .cancelled } } side' k ↔
      s.Linked side' k := by
    intro side' k
    by_cases hk : k = i
    · subst hk
      simp [Linked, System.setPoint, hp, hst, Point.waits, WaiterState.linked]
    · simp [Linked, System.setPoint, hk]
  refine ⟨h.nodup, fun side' k hk => ?_, fun hs side' k hk => ?_, fun k hk => ?_, fun k hk => ?_,
    fun side' k => ?_, h.offered, fun o ho side' item hp' => ?_, fun o ho hp' => ?_, h.exclusive,
    h.closed, h.order, h.arrivals.1, fun k hk => ?_⟩
  · rw [hlinked]
    exact h.mem side' k hk
  · rw [hlinked] at hk
    exact h.complete hs side' k hk
  · by_cases hki : k = i
    · subst hki
      simp [System.setPoint, Point.looks] at hk
    · simpa [System.setPoint, hki] using h.looks k (by simpa [System.setPoint, hki] using hk)
  · by_cases hki : k = i
    · subst hki
      exact h.payload k (by simpa [System.setPoint, hp, Point.waits] using hk)
    · exact h.payload k (by simpa [System.setPoint, hki] using hk)
  · refine (h.matched side' k).trans ?_
    by_cases hk : k = i
    · subst hk
      simp [System.setPoint, hp, hst, Point.matched]
    · simp [System.setPoint, hk]
  · by_cases hki : o.party side' = i
    · simp [System.setPoint, hki] at hp'
    · exact h.outcome o ho side' item (by simpa [System.setPoint, hki] using hp')
  · by_cases hki : o.receiver = i
    · refine h.dest o ho ?_
      simpa [System.setPoint, hki, hp, Point.waits] using hp'
    · exact h.dest o ho (by simpa [System.setPoint, hki] using hp')
  · by_cases hki : k = i
    · simp [System.setPoint, hki] at hk
    · exact h.arrivals.2 k (by simpa [System.setPoint, hki] using hk)

theorem Inv.unlink (h : s.Inv strict) {side : Side} {kind : Kind} {outcome : Outcome T}
    (hp : s.point i = .cancelling side kind) (hok : ∀ item, outcome ≠ .ok item)
    (hmatched : ∀ side' st, (Point.returned side outcome).matched side' st =
      (side' = side && st = .done)) :
    Inv strict { s.setPoint i (.returned side outcome) with core := s.core.unlink side i } := by
  have hi : (s.point i).waits side := by simp [hp, Point.waits]
  have hsub : ∀ side', ((s.core.unlink side i).queue side').Sublist (s.core.queue side') := by
    intro side'
    cases side <;> cases side' <;> simp [Core.unlink, Core.queue, erase_sublist]
  have hmem : ∀ side' k, k ∈ (s.core.unlink side i).queue side' ↔
      k ∈ s.core.queue side' ∧ k ≠ i := by
    intro side' k
    by_cases hside : side' = side
    · subst hside
      have hqueue : (s.core.unlink side' i).queue side' = (s.core.queue side').erase i := by
        cases side' <;> rfl
      rw [hqueue, (h.nodup side').mem_erase_iff, and_comm]
    · have hqueue : (s.core.unlink side i).queue side' = s.core.queue side' := by
        cases side <;> cases side' <;> simp_all [Core.unlink, Core.queue]
      have hne : k ∈ s.core.queue side' → k ≠ i := by
        rintro hk rfl
        exact hside (Point.waits_unique (h.mem side' k hk).1 hi)
      rw [hqueue]
      exact ⟨fun hk => ⟨hk, hne hk⟩, And.left⟩
  have hstate : (s.core.unlink side i).state = s.core.state := by cases side <;> rfl
  have hslot : (s.core.unlink side i).slot = s.core.slot := by cases side <;> rfl
  have hcount : (s.core.unlink side i).count = s.core.count := by
    cases side <;> funext side' <;> cases side' <;> rfl
  have hrecords := h.records (t := { s.setPoint i (.returned side outcome) with
    core := s.core.unlink side i }) hmem fun side' k => by
      by_cases hk : k = i
      · simp [Linked, System.setPoint, hk, Point.waits]
      · simp [Linked, System.setPoint, hk, hstate]
  refine ⟨fun side' => (h.nodup side').sublist (hsub side'), hrecords.1, hrecords.2,
    fun k hk => ?_, fun k hk => ?_, fun side' k => ?_, h.offered, fun o ho side' item hp' => ?_,
    fun o ho hp' => ?_, ?_, fun side' hc => ?_, ?_, h.arrivals.1, fun k hk => ?_⟩
  · rw [hstate]
    by_cases hki : k = i
    · simp [System.setPoint, hki, Point.looks] at hk
    · exact h.looks k (by simpa [System.setPoint, hki] using hk)
  · by_cases hki : k = i
    · simp [System.setPoint, hki, Point.waits] at hk
    · have hold := h.payload k (by simpa [System.setPoint, hki] using hk)
      rw [hslot]
      exact ⟨hold.1, fun hk' => hold.2 ((hmem .send k).mp hk').1⟩
  · rw [hstate]
    refine (h.matched side' k).trans ?_
    by_cases hk : k = i
    · subst hk
      rw [Point.matched_of_waits hi]
      simp [System.setPoint, hmatched]
    · simp [System.setPoint, hk]
  · by_cases hki : o.party side' = i
    · have heq : Point.returned side outcome = .returned side' (.ok item) := by
        simpa [System.setPoint, hki] using hp'
      exact absurd (Point.returned.inj heq).2 (hok item)
    · exact h.outcome o ho side' item (by simpa [System.setPoint, hki] using hp')
  · rw [hslot]
    by_cases hki : o.receiver = i
    · simp [System.setPoint, hki, Point.waits] at hp'
    · exact h.dest o ho (by simpa [System.setPoint, hki] using hp')
  · exact h.exclusive_of_subset fun side => (hsub side).subset
  · rw [hcount] at hc
    exact h.closed_of_subset (hsub side'.other).subset hc
  · exact ((Sublist.refl _).append (hsub .send)).trans h.order
  · by_cases hki : k = i
    · simp [System.setPoint, hki] at hk
    · exact h.arrivals.2 k (by simpa [System.setPoint, hki] using hk)

theorem Inv.recount (h : s.Inv strict) {n m : ℕ} (hn : n = 0 → s.core.senderCount = 0)
    (hm : m = 0 → s.core.receiverCount = 0) :
    Inv strict { s with core := { s.core with senderCount := n, receiverCount := m } } := by
  have hqueue : ∀ side, Core.queue { s.core with senderCount := n, receiverCount := m } side =
      s.core.queue side := fun side => by cases side <;> rfl
  refine { h with
    nodup := fun side => by rw [hqueue]; exact h.nodup side
    mem := fun side k => by rw [hqueue]; exact h.mem side k
    complete := fun hs side k => by rw [hqueue]; exact h.complete hs side k
    closed := fun side hc => ?_ }
  rw [hqueue]
  cases side with
  | send => exact h.closed .send (hn hc)
  | recv => exact h.closed .recv (hm hc)

/-- The last handle of a side goes: everybody parked on the other side is told. -/
structure Disconnected (s t : System T) (a : Side) : Prop where
  point : t.point = s.point
  offered : t.offered = s.offered
  handoffs : t.handoffs = s.handoffs
  arrivals : t.arrivals = s.arrivals
  queue : t.core.queue a = s.core.queue a
  other : t.core.queue a.other = []
  count : t.core.count a.other = s.core.count a.other
  state : ∀ k, t.core.state k =
    if k ∈ s.core.queue a.other then .disconnected else s.core.state k
  slot : t.core.slot = s.core.slot

theorem Inv.disconnected (h : s.Inv strict) {a : Side} (ht : Disconnected s t a) :
    t.Inv strict := by
  have hsub : ∀ side, (t.core.queue side).Sublist (s.core.queue side) := by
    intro side
    rcases a.eq_or_eq_other side with rfl | rfl
    · rw [ht.queue]
    · rw [ht.other]
      exact nil_sublist _
  have hqueue : ∀ side k, k ∈ t.core.queue side ↔
      k ∈ s.core.queue side ∧ k ∉ s.core.queue a.other := by
    intro side k
    rcases a.eq_or_eq_other side with rfl | rfl
    · rw [ht.queue]
      -- who waits on this side does not wait on the other
      refine ⟨fun hk => ⟨hk, fun hk' => ?_⟩, And.left⟩
      exact side.other_ne (Point.waits_unique (h.mem _ k hk').1 (h.mem _ k hk).1)
    · rw [ht.other]
      simp
  have hrecords := h.records hqueue fun side k => by
    unfold Linked
    rw [ht.point, ht.state]
    split_ifs with hk
    · simp [hk, WaiterState.linked]
    · simp [hk]
  refine ⟨fun side => (h.nodup side).sublist (hsub side), hrecords.1, hrecords.2, fun k hk => ?_,
    fun k hk => ?_, fun side k => ?_, ?_, ?_, ?_, ?_, fun side hc => ?_, ?_, ?_⟩
  · rw [ht.point] at hk
    rw [ht.state]
    split_ifs
    · decide
    · exact h.looks k hk
  · rw [ht.point] at hk
    rw [ht.offered, ht.slot]
    exact ⟨(h.payload k hk).1, fun hk' => (h.payload k hk).2 ((hsub .send).subset hk')⟩
  · rw [ht.handoffs, ht.point, ht.state, h.matched]
    by_cases hk : k ∈ s.core.queue a.other
    · have hmem := h.mem _ k hk
      rw [if_pos hk, Point.matched_of_linked hmem.1 hmem.2, Point.matched_of_waits hmem.1]
      simp
    · rw [if_neg hk]
  · rw [ht.handoffs, ht.offered]
    exact h.offered
  · rw [ht.handoffs, ht.point]
    exact h.outcome
  · rw [ht.handoffs, ht.point, ht.slot]
    exact h.dest
  · exact h.exclusive_of_subset fun side => (hsub side).subset
  · rcases a.eq_or_eq_other side with rfl | rfl
    · exact ht.other
    · rw [ht.count] at hc
      exact h.closed_of_subset (hsub a.other.other).subset hc
  · rw [ht.handoffs, ht.arrivals]
    exact ((Sublist.refl _).append (hsub .send)).trans h.order
  · rw [ht.arrivals, ht.point]
    exact h.arrivals

theorem Inv.offer (h : s.Inv strict) (hi : s.point i = .fresh) (item : T) :
    Inv strict { s with offered := update s.offered i (some item) } := by
  refine { h with
    payload := fun k hk => ?_
    offered := fun o ho => ?_ }
  · have hk' : (s.point k).waits .send := hk
    have hki : k ≠ i := by
      rintro rfl
      simp [hi, Point.waits] at hk'
    simpa [hki] using h.payload k hk
  · have hne : o.sender ≠ i := h.not_party hi ho .send
    simpa [hne] using h.offered o ho

theorem Inv.giveUp (h : s.Inv strict) (hi : s.point i = .fresh) (side : Side) {outcome : Outcome T}
    (hout : outcome = .closed ∨ outcome = .nobody) :
    (s.setPoint i (.returned side outcome)).Inv strict := by
  refine h.returned (h.not_mem hi) (fun side' => ?_) (fun o ho item heq => ?_)
  · rcases hout with rfl | rfl <;> simp [Point.matched, hi]
  · exact absurd heq (h.not_party hi ho side)

theorem startSend_cases (hi : s.point i = .fresh) {park : System T → System T}
    (ht : s.startSend i item park = some t) :
    ∃ u : System T, u = { s with offered := update s.offered i (some item) } ∧
      (t = u.setPoint i (.returned .send .closed) ∨
        (∃ j rest, Handed u t .send ⟨i, j, item⟩ rest) ∨
        (t = park u ∧ s.core.receivers = [] ∧ s.core.receiverCount ≠ 0)) := by
  refine ⟨_, rfl, ?_⟩
  unfold System.startSend Core.sendLocked at ht
  by_cases hclosed : s.core.receiverCount = 0
  · simp only [if_pos hclosed, Option.some.injEq] at ht
    exact .inl ht.symm
  · simp only [if_neg hclosed] at ht
    cases hq : s.core.receivers with
    | nil =>
      simp only [hq, Option.some.injEq] at ht
      exact .inr (.inr ⟨ht.symm, rfl, hclosed⟩)
    | cons j rest =>
      simp only [hq, Option.some.injEq] at ht
      subst ht
      exact .inr (.inl ⟨j, rest, hi, hq, update_self .., rfl, rfl, rfl, rfl, rfl, rfl,
        rfl, rfl, fun k hk => update_of_ne hk _ _, fun _ => update_self ..⟩)

theorem Inv.startRecv_cases (h : s.Inv strict) (hi : s.point i = .fresh)
    {park : System T → System T} (ht : s.startRecv i park = some t) :
    (t = s.setPoint i (.returned .recv .closed) ∧ s.core.senderCount = 0) ∨
      (∃ j item rest, Handed s t .recv ⟨j, i, item⟩ rest) ∨
      (t = park s ∧ s.core.senderWaiters = [] ∧ s.core.senderCount ≠ 0) := by
  unfold System.startRecv Core.recvLocked at ht
  cases hq : s.core.senderWaiters with
  | nil =>
    by_cases hclosed : s.core.senderCount = 0
    · simp only [hq, if_pos hclosed, Option.some.injEq] at ht
      exact .inl ⟨ht.symm, hclosed⟩
    · simp only [hq, if_neg hclosed, Option.some.injEq] at ht
      exact .inr (.inr ⟨ht.symm, rfl, hclosed⟩)
  | cons j rest =>
    have hj : j ∈ s.core.senderWaiters := hq ▸ mem_cons_self
    have hpayload := h.payload j (h.mem .send j hj).1
    obtain ⟨item, hitem⟩ := isSome_iff_exists.mp hpayload.1
    have hslot : s.core.slot j = some item := (hpayload.2 hj).trans hitem
    simp only [hq, Core.fulfillSender, hslot, map_some, Option.some.injEq] at ht
    subst ht
    exact .inr (.inl ⟨j, item, rest, hi, hq, hitem, rfl, rfl, rfl, rfl, rfl, rfl, rfl, rfl,
      fun k hk => update_of_ne hk _ _, by simp⟩)

theorem parked_parkSend (hi : s.point i = .fresh) (hoffer : s.offered i = some item)
    (hnil : s.core.receivers = []) (hopen : s.core.receiverCount ≠ 0) (kind : Kind) :
    Parked s (s.parkSend i kind item) .send s.core.senderWaiters i kind := by
  have hself : update s.core.slot i (some item) i = s.offered i := by
    rw [update_self, hoffer]
  exact ⟨hi, hnil, hopen, fun _ => ⟨by simp [hoffer], hself⟩, rfl, rfl, rfl, rfl, rfl, .refl _,
    fun _ => rfl, hnil, rfl, rfl, fun k hk => update_of_ne hk _ _⟩

theorem parked_parkRecv (store : Store) (hi : s.point i = .fresh)
    (hnil : s.core.senderWaiters = []) (hopen : s.core.senderCount ≠ 0) (kind : Kind) :
    ∃ q, Parked s (s.parkRecv store i kind) .recv q i kind ∧
      ((store = .slot → s.core.receivers = []) → q = s.core.receivers) := by
  cases store with
  | queue =>
    refine ⟨s.core.receivers, ?_, fun _ => rfl⟩
    exact ⟨hi, hnil, hopen, by simp, rfl, rfl, rfl, rfl, rfl, .refl _, by simp, hnil, rfl, rfl,
      fun k hk => update_of_ne hk _ _⟩
  | slot =>
    refine ⟨[], ?_, fun hslot => (hslot rfl).symm⟩
    exact ⟨hi, hnil, hopen, by simp, rfl, rfl, rfl, rfl, rfl, nil_sublist _, by simp, hnil,
      rfl, rfl, fun k hk => update_of_ne hk _ _⟩

/-- A handle goes: nothing else happens, unless it is the last of its side. -/
theorem dropSender_cases (s : System T) :
    (s.core.dropSender = { s.core with senderCount := s.core.senderCount - 1 } ∧
      s.core.senderCount - 1 ≠ 0) ∨ Disconnected s { s with core := s.core.dropSender } .send := by
  unfold Core.dropSender
  by_cases hlast : s.core.senderCount - 1 = 0
  · simp only [if_pos hlast]
    exact .inr ⟨rfl, rfl, rfl, rfl, rfl, rfl, rfl, fun _ => rfl, rfl⟩
  · exact .inl ⟨if_neg hlast, hlast⟩

theorem dropReceiver_cases (s : System T) :
    (s.core.dropReceiver = { s.core with receiverCount := s.core.receiverCount - 1 } ∧
      s.core.receiverCount - 1 ≠ 0) ∨
    Disconnected s { s with core := s.core.dropReceiver } .recv := by
  unfold Core.dropReceiver
  by_cases hlast : s.core.receiverCount - 1 = 0
  · simp only [if_pos hlast]
    exact .inr ⟨rfl, rfl, rfl, rfl, rfl, rfl, rfl, fun _ => rfl, rfl⟩
  · exact .inl ⟨if_neg hlast, hlast⟩

/-- A send starts: it returns or hands over, unless `park` has to keep the invariant. -/
theorem Inv.startSend (h : s.Inv strict) (hi : s.point i = .fresh) {park : System T → System T}
    (hpark : ∀ u : System T, u.Inv strict → u.point i = .fresh → u.offered i = some item →
      u.core.receivers = [] → u.core.receiverCount ≠ 0 → (park u).Inv strict)
    (ht : s.startSend i item park = some t) : t.Inv strict := by
  have hu := h.offer hi item
  obtain ⟨u, rfl, rfl | ⟨j, rest, hand⟩ | ⟨rfl, hnil, hopen⟩⟩ := startSend_cases hi ht
  · exact hu.giveUp hi .send (.inl rfl)
  · exact hu.handed hand
  · exact hpark _ hu hi (update_self ..) hnil hopen

theorem Inv.startRecv (h : s.Inv strict) (hi : s.point i = .fresh) {park : System T → System T}
    (hpark : s.core.senderWaiters = [] → s.core.senderCount ≠ 0 → (park s).Inv strict)
    (ht : s.startRecv i park = some t) : t.Inv strict := by
  obtain ⟨rfl, -⟩ | ⟨j, item, rest, hand⟩ | ⟨rfl, hnil, hopen⟩ := h.startRecv_cases hi ht
  · exact h.giveUp hi .recv (.inl rfl)
  · exact h.handed hand
  · exact hpark hnil hopen

theorem Inv.dropSender (h : s.Inv strict) : Inv strict { s with core := s.core.dropSender } := by
  rcases dropSender_cases s with ⟨heq, hlast⟩ | hdisc
  · rw [heq]
    exact h.recount (fun hn => absurd hn hlast) id
  · exact h.disconnected hdisc

theorem Inv.dropReceiver (h : s.Inv strict) :
    Inv strict { s with core := s.core.dropReceiver } := by
  rcases dropReceiver_cases s with ⟨heq, hlast⟩ | hdisc
  · rw [heq]
    exact h.recount id (fun hm => absurd hm hlast)
  · exact h.disconnected hdisc

theorem Inv.moved (h : s.Inv strict) {side : Side} {p : Point T} (hi : (s.point i).waits side)
    (hl : (s.point i).looks) (hp : p = .polled side ∨ ∃ kind, p = .parked side kind) :
    (s.setPoint i p).Inv strict := by
  have hwaits : ∀ side', p.waits side' = (s.point i).waits side' := by
    intro side'
    have hmove : (s.point i).waits side' = (side' = side : Bool) := by
      cases hpt : s.point i <;> simp_all [Point.waits]
    rw [hmove]
    rcases hp with rfl | ⟨kind, rfl⟩ <;> rfl
  have hw : p.waits side := by rw [hwaits]; exact hi
  refine h.setPoint ?_ (fun side' hmem => ?_) (fun hs side' hp' hst => ?_) (fun _ => h.looks i hl)
    (fun hsend => ?_) (fun side' => ?_) (fun o ho side' item heq hcon => ?_) (fun hrecv => ?_)
  · rintro rfl
    simp [Point.waits] at hw
  · rw [hwaits]
    exact (h.mem side' i hmem).1
  · rw [hwaits] at hp'
    exact h.complete hs side' i ⟨hp', hst⟩
  · exact (h.payload i (by rwa [← hwaits])).1
  · rw [Point.matched_of_waits hw, Point.matched_of_waits hi]
  · rw [hcon] at hw
    simp [Point.waits] at hw
  · rwa [← hwaits]

theorem Inv.step {store : Store} (h : s.Inv strict) {a : Action T}
    (hallowed : strict → Allowed store s a)
    (ht : System.step store s a = some t) : t.Inv strict := by
  cases a with
  | trySend i item =>
    simp only [System.step] at ht
    split at ht
    · next hi =>
      exact h.startSend hi (fun u hu hfresh _ _ _ => hu.giveUp hfresh .send (.inr rfl)) ht
    · cases ht
  | tryRecv i =>
    simp only [System.step] at ht
    split at ht
    · next hi => exact h.startRecv hi (fun _ _ => h.giveUp hi .recv (.inr rfl)) ht
    · cases ht
  | send i kind item =>
    simp only [System.step] at ht
    split at ht
    · next hi =>
      exact h.startSend hi (fun u hu hfresh hoffer hnil hopen =>
        hu.parked (parked_parkSend hfresh hoffer hnil hopen kind) fun _ => rfl) ht
    · cases ht
  | recv i kind =>
    simp only [System.step] at ht
    split at ht
    · next hi =>
      refine h.startRecv hi (fun hnil hopen => ?_) ht
      obtain ⟨q, hparked, hkept⟩ := parked_parkRecv store hi hnil hopen kind
      exact h.parked hparked fun hs => hkept (hallowed hs)
    · cases ht
  | look i =>
    simp only [System.step] at ht
    split at ht
    · next side kind hp =>
      have hi : (s.point i).waits side := by simp [hp, Point.waits]
      have hl : (s.point i).looks := by simp [hp, Point.looks]
      split_ifs at ht with hst hkind
      · obtain rfl : _ = t := Option.some.inj ht
        exact h.moved hi hl (.inl rfl)
      · obtain rfl : _ = t := Option.some.inj ht
        exact h
      · exact h.finish hi (h.not_mem_of_terminal hl hst) ht
    · cases ht
  | repoll i =>
    simp only [System.step] at ht
    split at ht
    · next side hp =>
      have hi : (s.point i).waits side := by simp [hp, Point.waits]
      have hl : (s.point i).looks := by simp [hp, Point.looks]
      split_ifs at ht with hmem
      · obtain rfl : _ = t := Option.some.inj ht
        exact h.moved hi hl (.inr ⟨.future, rfl⟩)
      · refine h.finish hi (fun side' hmem' => ?_) ht
        obtain rfl := Point.waits_unique hi (h.mem side' i hmem').1
        exact hmem hmem'
    · cases ht
  | cancel i =>
    simp only [System.step] at ht
    split at ht
    · next side kind hp =>
      have hi : (s.point i).waits side := by simp [hp, Point.waits]
      have hl : (s.point i).looks := by simp [hp, Point.looks]
      split_ifs at ht with hkind hst htimed
      · obtain rfl : _ = t := Option.some.inj ht
        exact h.cancelled hp hst
      · exact h.finish hi (h.not_mem_of_terminal hl hst) ht
      · obtain rfl : _ = t := Option.some.inj ht
        exact h.abandoned hi hl hst
    · cases ht
  | unlink i =>
    simp only [System.step] at ht
    split at ht
    · next side kind hp =>
      obtain rfl : _ = t := Option.some.inj ht
      refine h.unlink hp (fun item => ?_) (fun side' st => ?_)
      · split_ifs <;> simp
      · split_ifs <;> simp [Point.matched]
    · cases ht
  | cloneSender =>
    obtain rfl : _ = t := Option.some.inj ht
    exact h.recount (fun hn => absurd hn (Nat.succ_ne_zero _)) id
  | cloneReceiver =>
    obtain rfl : _ = t := Option.some.inj ht
    exact h.recount id (fun hm => absurd hm (Nat.succ_ne_zero _))
  | dropSender =>
    simp only [System.step] at ht
    split_ifs at ht
    obtain rfl : _ = t := Option.some.inj ht
    exact h.dropSender
  | dropReceiver =>
    simp only [System.step] at ht
    split_ifs at ht
    obtain rfl : _ = t := Option.some.inj ht
    exact h.dropReceiver

end System

end Fibre.Channels.Rendezvous
