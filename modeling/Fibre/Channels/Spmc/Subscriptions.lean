import Fibre.Channels.Spmc.TopicSteps

/-!
# The subscriptions of a topic receiver

A call changes the set of the receiver first and the list of the topic later. While such a call is
between the two, set and list may differ. They agree again when the list is changed for the last time
by the call that changed the set last. Two calls on one receiver may get there in the other order, and
`close` empties the set without a change of the lists.
-/

namespace Fibre.Channels.Topic

open Machine Function List Nat

namespace System

variable {K V : Type*} {s s' t : System K V} {r r' m i : ℕ} {k k' : K} {c c' : Call K V}

/-- A call is about to change the list for the receiver. -/
def Pending (s : System K V) (r : ℕ) (k : K) : Prop :=
  ∃ (j : ℕ) (c : Call K V), s.calls[j]? = some c ∧ c.pending = some (r, k)

section

variable [DecidableEq K]

/-- A call other than `i` is about to change the list for the receiver. -/
def pendingBut (s : System K V) (i r : ℕ) (k : K) : Bool :=
  (s.calls.eraseIdx i).any fun c => c.pending = some (r, k)

/-- The step does not leave the set of a receiver and a list apart: a close empties the set only of
topics whose list is yet to be changed, and the last change of a list is the one the set asks for. -/
def clear (s : System K V) : Action K V → Bool
  | .drain i _ =>
    match s.calls[i]? with
    | some (.closing r .close) =>
      !s.senderLive || decide (∀ k ∈ (s.receivers r).subscriptions, s.pendingBut i r k)
    | _ => true
  | .advance i =>
    match s.calls[i]? with
    | some (.pushing r k _ _) => decide (k ∈ (s.receivers r).subscriptions) || s.pendingBut i r k
    | some (.retaining _ _ _ .drop) => true
    | some (.retaining r k _ _) =>
      decide (k ∉ (s.receivers r).subscriptions) || s.pendingBut i r k
    | _ => true
  | _ => true

structure Agrees (s : System K V) : Prop where
  /-- a topic is in the set of a receiver when its list has the mailbox, once, and otherwise the list
  does not have it -/
  subscribed : ∀ r k, s.senderLive → (s.receivers r).live → (s.receivers r).dropped = false →
    s.idle r → (s.subscribers k).count r = if k ∈ (s.receivers r).subscriptions then 1 else 0
  /-- a message sent on another topic does not come to the mailbox: none of the steps of its call
  changes that -/
  unheard : ∀ r k, s.senderLive → (s.receivers r).live → (s.receivers r).dropped = false →
    ¬ s.Pending r k → k ∉ (s.receivers r).subscriptions → ∀ i v s',
    s.calls[i]? = some (.sending k v) → s.advance i = some s' → ∀ t u, Reachable step s' t →
      t.advance i = some u → (u.receivers r).mailbox = (t.receivers r).mailbox

end

/-! ### Calls -/

theorem pending_of_call {k : K} (h : c.pending = some (r, k)) : c.receiver = some r := by
  cases c <;> simp only [Call.pending, reduceCtorEq, Option.some.injEq, Prod.mk.injEq] at h <;>
    exact congrArg some h.1

theorem not_pending_of_idle (h : s.idle r) : ¬ s.Pending r k := by
  rintro ⟨j, c, hj, hp⟩
  have hne := all_eq_true.mp h c (mem_of_getElem? hj)
  exact of_decide_eq_true hne (pending_of_call hp)

section

variable [DecidableEq K]

theorem pendingBut_iff : s.pendingBut i r k ↔
    ∃ (j : ℕ) (c : Call K V), j ≠ i ∧ s.calls[j]? = some c ∧ c.pending = some (r, k) := by
  unfold pendingBut
  simp only [any_eq_true, decide_eq_true_eq, mem_eraseIdx_iff_getElem?]
  constructor
  · rintro ⟨c, ⟨j, hj, hc⟩, hp⟩
    exact ⟨j, c, hj, hc, hp⟩
  · rintro ⟨j, c, hj, hc, hp⟩
    exact ⟨c, ⟨j, hj, hc⟩, hp⟩

theorem pending_iff (hi : s.calls[i]? = some c) :
    s.Pending r k ↔ c.pending = some (r, k) ∨ s.pendingBut i r k := by
  rw [pendingBut_iff]
  constructor
  · rintro ⟨j, d, hj, hp⟩
    by_cases heq : j = i
    · subst heq
      rw [hi] at hj
      exact Or.inl (Option.some.inj hj ▸ hp)
    · exact Or.inr ⟨j, d, heq, hj, hp⟩
  · rintro (hp | ⟨j, d, -, hj, hp⟩)
    · exact ⟨i, c, hi, hp⟩
    · exact ⟨j, d, hj, hp⟩

theorem pending_setCall (hi : s.calls[i]? = some c) (ht : t.calls = s.calls) :
    (t.setCall i c').Pending r k ↔ c'.pending = some (r, k) ∨ s.pendingBut i r k := by
  have hlt := (List.getElem?_eq_some_iff.mp hi).1
  have hself : (t.setCall i c').calls[i]? = some c' := by
    show (t.calls.set i c')[i]? = _
    rw [ht, List.getElem?_set_self hlt]
  rw [pending_iff hself, pendingBut, pendingBut]
  show _ ∨ ((t.calls.set i c').eraseIdx i).any _ = true ↔ _
  rw [ht, eraseIdx_set_eq]

end

/-! ### The invariant -/

/-- What a call is about: a receiver that was made, and that is dropped if the call is its drop. -/
structure Fine (s : System K V) (c : Call K V) : Prop where
  made : ∀ r, c.receiver = some r → r < s.made
  closes : ∀ r after, c = .closing r after → after ≠ .nothing
  drops : ∀ r, c.receiver = some r → c.after = .drop → (s.receivers r).dropped

theorem Fine.mono (h : s.Fine c) (hmade : s.made ≤ t.made)
    (hdropped : ∀ r, (s.receivers r).dropped → (t.receivers r).dropped) : t.Fine c :=
  ⟨fun r hr => (h.made r hr).trans_le hmade, h.closes, fun r hr ha => hdropped r (h.drops r hr ha)⟩

theorem Fine.next (h : s.Fine c) (hr : c'.receiver = c.receiver) (ha : c'.after = c.after)
    (hc : ∀ r after, c' ≠ .closing r after) : s.Fine c' :=
  ⟨fun r hr' => h.made r (hr ▸ hr'), fun r after heq => absurd heq (hc r after),
    fun r hr' ha' => h.drops r (hr ▸ hr') (ha ▸ ha')⟩

theorem Fine.closing {after : After} (hr : r < s.made) (ha : after ≠ .nothing)
    (hdrop : after = .drop → (s.receivers r).dropped) : s.Fine (.closing r after) := by
  refine ⟨fun r' hr' => ?_, fun r' after' heq => ?_, fun r' hr' ha' => ?_⟩
  · exact Option.some.inj hr' ▸ hr
  · exact (Call.closing.inj heq).2 ▸ ha
  · exact Option.some.inj hr' ▸ hdrop ha'

/-- Set and list agree unless a call is between the two. -/
structure Inv (s : System K V) : Prop where
  nodup : ∀ k, (s.subscribers k).Nodup
  bound : ∀ k, ∀ m ∈ s.subscribers k, m < s.made
  out : ∀ r, (s.receivers r).out → r < s.made
  calls : ∀ c ∈ s.calls, s.Fine c
  settled : ∀ r k, s.senderLive → (s.receivers r).live → (s.receivers r).dropped = false →
    s.Pending r k ∨ (k ∈ (s.receivers r).subscriptions ↔ r ∈ s.subscribers k)

theorem Inv.init (isAsync : Bool) (capacity : ℕ) : Inv (init isAsync capacity : System K V) where
  nodup _ := nodup_nil
  bound _ _ hm := absurd hm not_mem_nil
  out r hr := by
    by_cases heq : r = 0
    · exact heq ▸ one_pos
    · simp [System.init, heq, absent] at hr
  calls _ hc := absurd hc not_mem_nil
  settled r k _ _ _ := by
    refine Or.inr (iff_of_false ?_ not_mem_nil)
    by_cases heq : r = 0
    · simp [System.init, heq, fresh]
    · simp [System.init, heq, absent]

namespace Inv

theorem frame (h : Inv s) (hlists : s'.subscribers = s.subscribers)
    (hsender : s'.senderLive → s.senderLive) (hmade : s'.made = s.made)
    (hreceiver : ∀ r, (s'.receivers r).subscriptions = (s.receivers r).subscriptions ∧
      ((s'.receivers r).live → (s.receivers r).live) ∧
      ((s.receivers r).dropped → (s'.receivers r).dropped))
    (hout : ∀ r, (s'.receivers r).out → r < s.made)
    (hpending : ∀ r k, s.Pending r k → s'.Pending r k)
    (hcalls : ∀ c ∈ s'.calls, s'.Fine c) : Inv s' := by
  refine ⟨hlists ▸ h.nodup, ?_, ?_, hcalls, fun r k hs hlive hdropped => ?_⟩
  · rw [hlists, hmade]
    exact h.bound
  · rw [hmade]
    exact hout
  · obtain ⟨hsubs, hlive', hdropped'⟩ := hreceiver r
    have hbefore : (s.receivers r).dropped = false := by
      cases hd : (s.receivers r).dropped with
      | false => rfl
      | true => rw [hdropped' hd] at hdropped; cases hdropped
    rw [hsubs, hlists]
    exact (h.settled r k (hsender hs) (hlive' hlive) hbefore).imp_left (hpending r k)

theorem begin (h : Inv s) (hc : s.Fine c) : Inv (s.begin c) := by
  refine h.frame rfl id rfl (fun _ => ⟨rfl, id, id⟩) h.out ?_ fun d hd => ?_
  · rintro r k ⟨j, d, hj, hd⟩
    have hlt := (List.getElem?_eq_some_iff.mp hj).1
    exact ⟨j, d, (List.getElem?_append_left hlt).trans hj, hd⟩
  · rcases mem_append.mp hd with hold | hnew
    · exact (h.calls d hold).mono le_rfl fun _ => id
    · rw [mem_singleton.mp hnew]
      exact hc.mono le_rfl fun _ => id

theorem receiver (h : Inv s) {q : Receiver K V}
    (hsubs : q.subscriptions = (s.receivers r).subscriptions)
    (hlive : q.live → (s.receivers r).live)
    (hdropped : (s.receivers r).dropped → q.dropped)
    (hout : q.out → r < s.made) : Inv (s.setReceiver r q) := by
  refine h.frame rfl id rfl (fun r' => ?_) (fun r' hr' => ?_)
    (fun _ _ ⟨j, d, hj, hp⟩ => ⟨j, d, hj, hp⟩) fun d hd => (h.calls d hd).mono le_rfl fun r' hr' => ?_
  · by_cases heq : r' = r
    · subst heq
      simpa [setReceiver] using ⟨hsubs, hlive, hdropped⟩
    · simp [setReceiver, heq]
  · by_cases heq : r' = r
    · subst heq
      exact hout (by simpa [setReceiver] using hr')
    · exact h.out r' (by simpa [setReceiver, heq] using hr')
  · by_cases heq : r' = r
    · subst heq
      simpa [setReceiver] using hdropped hr'
    · simpa [setReceiver, heq] using hr'

theorem add (h : Inv s) {isAsync closed out : Bool} {capacity : ℕ} :
    Inv (s.add (fresh isAsync capacity closed out)) := by
  refine ⟨h.nodup, fun k m hm => lt_succ_of_lt (h.bound k m hm), fun r hr => ?_, fun c hc => ?_,
    fun r k hs hlive hdropped => ?_⟩
  · by_cases heq : r = s.made
    · exact heq ▸ lt_succ_self _
    · exact lt_succ_of_lt (h.out r (by simpa [System.add, heq] using hr))
  · have hfine := h.calls c hc
    refine ⟨fun r hr => lt_succ_of_lt (hfine.made r hr), hfine.closes, fun r hr ha => ?_⟩
    have hne : r ≠ s.made := (hfine.made r hr).ne
    simpa [System.add, hne] using hfine.drops r hr ha
  · by_cases heq : r = s.made
    · subst heq
      refine Or.inr (iff_of_false ?_ fun hm => lt_irrefl _ (h.bound k _ hm))
      simp [System.add, fresh]
    · simp only [System.add, update_of_ne heq] at hlive hdropped ⊢
      exact h.settled r k hs hlive hdropped

theorem count (h : Inv s) (n : UInt64) : Inv { s with receiverCount := n } :=
  ⟨h.nodup, h.bound, h.out, fun c hc => (h.calls c hc).mono le_rfl fun _ => id, h.settled⟩

theorem kill (h : Inv s) (r : ℕ) : Inv (s.kill r) :=
  h.receiver rfl (fun hfalse => by cases hfalse) id (h.out r)

theorem finish (h : Inv s) (r : ℕ) (after : After) : Inv (s.finish r after) := by
  cases after with
  | nothing => exact h
  | close => exact h.count _
  | drop => exact (h.count _).kill r

theorem held_lt (h : Inv s) (hr : s.held r) : r < s.made :=
  h.out r (Bool.and_eq_true_iff.mp hr).1

variable [DecidableEq K]

/-- A call that is not about to change a list goes on, without a change of the sets or the lists. -/
theorem goes (h : Inv s) (hi : s.calls[i]? = some c) (hc : c.pending = none)
    (hc' : s.Fine c') : Inv (s.setCall i c') := by
  refine h.frame rfl id rfl (fun _ => ⟨rfl, id, id⟩) h.out (fun r k hp => ?_) fun d hd => ?_
  · rw [pending_iff hi, hc] at hp
    rw [pending_setCall hi rfl]
    exact Or.inr (hp.resolve_left (fun hnone => by cases hnone))
  · rcases mem_or_eq_of_mem_set hd with hold | rfl
    · exact (h.calls d hold).mono le_rfl fun _ => id
    · exact hc'.mono le_rfl fun _ => id

/-- A call goes on from a state whose sets and lists are settled but for what the calls are about to
change. -/
theorem ofCall (h : Inv s) (hi : s.calls[i]? = some c) (hc : s.Fine c')
    (ht : t.calls = s.calls) (hmade : t.made = s.made)
    (hdropped : ∀ r, (s.receivers r).dropped → (t.receivers r).dropped)
    (hnodup : ∀ k, (t.subscribers k).Nodup)
    (hbound : ∀ k, ∀ m ∈ t.subscribers k, m < s.made) (hout : ∀ r, (t.receivers r).out → r < s.made)
    (hsettled : ∀ r k, t.senderLive → (t.receivers r).live → (t.receivers r).dropped = false →
      (c'.pending = some (r, k) ∨ s.pendingBut i r k) ∨
        (k ∈ (t.receivers r).subscriptions ↔ r ∈ t.subscribers k)) : Inv (t.setCall i c') := by
  refine ⟨hnodup, ?_, ?_, fun d hd => ?_, fun r k hs hlive hdropped => ?_⟩
  · show ∀ k, ∀ m ∈ t.subscribers k, m < t.made
    rw [hmade]
    exact hbound
  · show ∀ r, (t.receivers r).out → r < t.made
    rw [hmade]
    exact hout
  · have hd' : d ∈ s.calls.set i c' := ht ▸ hd
    rcases mem_or_eq_of_mem_set hd' with hold | rfl
    · exact (h.calls d hold).mono hmade.ge hdropped
    · exact hc.mono hmade.ge hdropped
  · rw [pending_setCall hi ht]
    exact hsettled r k hs hlive hdropped

theorem subscriptions {subs : Finset K} (h : Inv s) (hi : s.calls[i]? = some c)
    (hp : c.pending = none) (hc : s.Fine c')
    (hsubs : ∀ k, (s.receivers r).dropped = false → (c'.pending = some (r, k) ∨ s.pendingBut i r k) ∨
      (k ∈ subs ↔ k ∈ (s.receivers r).subscriptions)) :
    Inv ((s.setReceiver r { s.receivers r with subscriptions := subs }).setCall i c') := by
  refine h.ofCall hi hc rfl rfl (fun r' hr' => ?_) h.nodup h.bound (fun r' hr' => ?_)
    fun r' k hs hlive hdropped => ?_
  · by_cases heq : r' = r
    · subst heq
      simpa [setReceiver] using hr'
    · simpa [setReceiver, heq] using hr'
  · by_cases heq : r' = r
    · subst heq
      exact h.out r' (by simpa [setReceiver] using hr')
    · exact h.out r' (by simpa [setReceiver, heq] using hr')
  · have hbefore := h.settled r' k hs
    rw [pending_iff hi, hp] at hbefore
    simp only [reduceCtorEq, false_or] at hbefore
    by_cases heq : r' = r
    · subst heq
      simp only [setReceiver, update_self] at hlive hdropped ⊢
      rcases hsubs k hdropped with hpending | hiff
      · exact Or.inl hpending
      · rw [hiff]
        exact (hbefore hlive hdropped).imp_left Or.inr
    · simp only [setReceiver, update_of_ne heq] at hlive hdropped ⊢
      exact (hbefore hlive hdropped).imp_left Or.inr

theorem insert {todo : List K} {clone : Bool} (h : Inv s)
    (hi : s.calls[i]? = some (.subscribing r (k :: todo) clone)) :
    Inv ((s.setReceiver r { s.receivers r with
      subscriptions := Insert.insert k (s.receivers r).subscriptions }).setCall i
        (.pushing r k todo clone)) := by
  have hfine := h.calls _ (mem_of_getElem? hi)
  refine h.subscriptions hi rfl (hfine.next rfl rfl fun _ _ => by simp) fun k' _ => ?_
  by_cases hk : k' = k
  · exact Or.inl (Or.inl (by rw [hk]; rfl))
  · exact Or.inr (by simp [hk])

theorem erase {todo : List K} {after : After} (h : Inv s)
    (hi : s.calls[i]? = some (.unsubscribing r (k :: todo) after)) :
    Inv ((s.setReceiver r { s.receivers r with
      subscriptions := (s.receivers r).subscriptions.erase k }).setCall i
        (.retaining r k todo after)) := by
  have hfine := h.calls _ (mem_of_getElem? hi)
  refine h.subscriptions hi rfl (hfine.next rfl rfl fun _ _ => by simp) fun k' _ => ?_
  by_cases hk : k' = k
  · exact Or.inl (Or.inl (by rw [hk]; rfl))
  · exact Or.inr (by simp [hk])

theorem drain {topics : List K} {after : After} (h : Inv s)
    (hi : s.calls[i]? = some (.closing r after)) (hsender : s.senderLive)
    (hclear : s.clear (.drain i topics)) :
    Inv ((s.setReceiver r { s.receivers r with subscriptions := ∅ }).setCall i
      (.unsubscribing r topics after)) := by
  have hfine := h.calls _ (mem_of_getElem? hi)
  refine h.subscriptions hi rfl (hfine.next rfl rfl fun _ _ => by simp) fun k hdropped => ?_
  have hclose : after = .close := by
    cases after with
    | nothing => exact absurd rfl (hfine.closes r .nothing rfl)
    | close => rfl
    | drop =>
      rw [hfine.drops r rfl rfl] at hdropped
      cases hdropped
  subst hclose
  simp only [clear, hi, hsender, Bool.not_true, Bool.false_or, decide_eq_true_eq] at hclear
  by_cases hk : k ∈ (s.receivers r).subscriptions
  · exact Or.inl (Or.inr (hclear k hk))
  · exact Or.inr (by simp [hk])

theorem modify (h : Inv s) {f : List ℕ → List ℕ} (hi : s.calls[i]? = some c)
    (hp : c.pending = some (r, k)) (hc : s.Fine c')
    (hnodup : ∀ l, l.Nodup → (f l).Nodup) (hmem : ∀ l, ∀ m ∈ f l, m ∈ l ∨ m = r)
    (hother : ∀ l m, m ≠ r → (m ∈ f l ↔ m ∈ l))
    (hclear : (s.receivers r).dropped = false →
      s.pendingBut i r k ∨ ∀ l, k ∈ (s.receivers r).subscriptions ↔ r ∈ f l) :
    Inv ((s.modify k f).setCall i c') := by
  unfold System.modify
  have hr : r < s.made := (h.calls c (mem_of_getElem? hi)).made r (pending_of_call hp)
  by_cases hsender : s.senderLive = true
  · rw [if_pos hsender]
    dsimp only
    refine h.ofCall hi hc rfl rfl (fun _ => id) (fun k' => ?_) (fun k' m hm => ?_) h.out
      fun r' k' hs hlive hdropped => ?_
    · dsimp only
      by_cases hk : k' = k
      · subst hk
        rw [update_self]
        exact hnodup _ ((h.nodup k').filter _)
      · rw [update_of_ne hk]
        exact h.nodup k'
    · dsimp only at hm
      by_cases hk : k' = k
      · subst hk
        rw [update_self] at hm
        rcases hmem _ m hm with hold | rfl
        · exact h.bound k' m (mem_of_mem_filter hold)
        · exact hr
      · rw [update_of_ne hk] at hm
        exact h.bound k' m hm
    · dsimp only at hs hlive hdropped ⊢
      have hbefore := h.settled r' k' hs hlive hdropped
      rw [pending_iff hi, hp] at hbefore
      by_cases hk : k' = k
      · subst hk
        rw [update_self]
        by_cases heq : r' = r
        · subst heq
          exact (hclear hdropped).imp Or.inr fun hall => hall _
        · -- the mailbox of another receiver stays in the list, or out of it
          rw [hother _ r' heq, mem_filter, and_iff_left hlive]
          refine hbefore.imp_left fun hor => Or.inr (hor.resolve_left fun hsome => heq ?_)
          exact (Prod.mk.inj (Option.some.inj hsome)).1.symm
      · rw [update_of_ne hk]
        refine hbefore.imp_left fun hor => Or.inr (hor.resolve_left fun hsome => hk ?_)
        exact (Prod.mk.inj (Option.some.inj hsome)).2.symm
  · rw [if_neg hsender]
    exact h.ofCall hi hc rfl rfl (fun _ => id) h.nodup h.bound h.out
      fun _ _ hs => absurd hs hsender

theorem pushing {todo : List K} {clone : Bool} (h : Inv s)
    (hi : s.calls[i]? = some (.pushing r k todo clone)) (hclear : s.clear (.advance i)) :
    Inv ((s.modify k fun list => if r ∈ list then list else list ++ [r]).setCall i
      (.subscribing r todo clone)) := by
  have hfine := h.calls _ (mem_of_getElem? hi)
  refine h.modify hi rfl (hfine.next rfl rfl fun _ _ => by simp) (fun l hl => ?_)
    (fun l m hm => ?_) (fun l m hm => ?_) fun _ => ?_
  · split
    · exact hl
    · next hnot =>
      refine nodup_append.mpr ⟨hl, nodup_singleton r, fun m hm n hn heq => hnot ?_⟩
      rwa [← mem_singleton.mp hn, ← heq]
  · split at hm
    · exact Or.inl hm
    · simpa using hm
  · split
    · exact Iff.rfl
    · simp [hm]
  · simp only [clear, hi, Bool.or_eq_true, decide_eq_true_eq] at hclear
    refine hclear.symm.imp_right fun hk l => iff_of_true hk ?_
    split
    · assumption
    · exact mem_append_right l mem_cons_self

theorem retaining {todo : List K} {after : After} (h : Inv s)
    (hi : s.calls[i]? = some (.retaining r k todo after)) (hclear : s.clear (.advance i)) :
    Inv ((s.modify k fun list => list.filter fun m => m ≠ r).setCall i
      (.unsubscribing r todo after)) := by
  have hfine := h.calls _ (mem_of_getElem? hi)
  refine h.modify hi rfl (hfine.next rfl rfl fun _ _ => by simp) (fun l hl => hl.filter _)
    (fun l m hm => Or.inl (mem_of_mem_filter hm)) (fun l m hm => ?_) fun hdropped => ?_
  · simp [hm]
  · have hne : after ≠ .drop := by
      rintro rfl
      rw [hfine.drops r rfl rfl] at hdropped
      cases hdropped
    have hor : k ∉ (s.receivers r).subscriptions ∨ s.pendingBut i r k := by
      cases after with
      | drop => exact absurd rfl hne
      | _ => simpa only [clear, hi, Bool.or_eq_true, decide_eq_true_eq] using hclear
    exact hor.symm.imp_right fun hk l => iff_of_false hk (by simp)

theorem returns (h : Inv s) (hi : s.calls[i]? = some c) (hc : c.pending = none) :
    Inv (s.setCall i .returned) :=
  h.goes hi hc ⟨fun _ hr => (by cases hr), fun _ _ heq => (by cases heq), fun _ hr => (by cases hr)⟩

theorem sends (h : Inv s) (hi : s.calls[i]? = some c) (hc : c.pending = none) {v : V}
    {targets : List ℕ} : Inv (s.setCall i (.delivering k v targets)) :=
  h.goes hi hc ⟨fun _ hr => (by cases hr), fun _ _ heq => (by cases heq), fun _ hr => (by cases hr)⟩

theorem advance (h : Inv s) (hclear : s.clear (.advance i)) (hs : s.advance i = some s') :
    Inv s' := by
  unfold System.advance at hs
  split at hs
  · next r clone hi =>
    cases hs
    have hr := (h.calls _ (mem_of_getElem? hi)).made r rfl
    cases clone with
    | true =>
      have hout := h.receiver (r := r) (q := { s.receivers r with out := true }) rfl id id
        fun _ => hr
      exact hout.returns (c := .subscribing r [] true) hi rfl
    | false => exact h.returns hi rfl
  · next r k todo clone hi =>
    have hfine := h.calls _ (mem_of_getElem? hi)
    split at hs <;> cases hs
    · exact h.goes hi rfl (hfine.next rfl rfl fun _ _ => by simp)
    · exact h.insert hi
  · next r k todo clone hi =>
    cases hs
    exact h.pushing hi hclear
  · next r after hi =>
    cases hs
    exact (h.finish r after).returns (c := .unsubscribing r [] after) (by cases after <;> exact hi) rfl
  · next r k todo after hi =>
    have hfine := h.calls _ (mem_of_getElem? hi)
    split at hs <;> cases hs
    · exact h.erase hi
    · exact h.goes hi rfl (hfine.next rfl rfl fun _ _ => by simp)
  · next r k todo after hi =>
    cases hs
    exact h.retaining hi hclear
  · next k v hi =>
    split at hs <;> cases hs
    · exact h.returns hi rfl
    · exact h.sends hi rfl
  · next hi =>
    cases hs
    exact h.returns hi rfl
  · next k v m targets hi =>
    cases hs
    split
    · have hbox := h.receiver (r := m) (q := { s.receivers m with
        mailbox := (s.receivers m).mailbox.deliver (k, v) }) rfl id id (h.out m)
      exact hbox.sends (c := .delivering k v (m :: targets)) hi rfl
    · exact h.sends hi rfl
  · cases hs

theorem step (h : Inv s) {a : Action K V} (hclear : s.clear a) (hs : s.step a = some s') :
    Inv s' := by
  cases a <;> simp only [System.step] at hs
  case subscribe r k =>
    split at hs <;> cases hs
    next hheld =>
    refine h.begin ⟨fun _ hr => ?_, fun _ _ heq => (by cases heq), fun _ _ ha => (by cases ha)⟩
    exact Option.some.inj hr ▸ h.held_lt hheld
  case unsubscribe r k =>
    split at hs <;> cases hs
    next hheld =>
    refine h.begin ⟨fun _ hr => ?_, fun _ _ heq => (by cases heq), fun _ _ ha => (by cases ha)⟩
    exact Option.some.inj hr ▸ h.held_lt hheld
  case close r =>
    split at hs
    · cases hs
    next hheld =>
    split at hs <;> cases hs
    · exact h
    have hr := h.held_lt (by simpa using hheld)
    refine Inv.begin ?_ (.closing hr After.noConfusion fun hdrop => by cases hdrop)
    exact h.receiver rfl id id fun _ => hr
  case clone r topics =>
    split at hs
    · cases hs
    split at hs
    · cases hs
      exact h.add
    split at hs <;> cases hs
    refine (h.count _).add.begin ⟨fun _ hr' => ?_, fun _ _ heq => (by cases heq),
      fun _ _ ha => (by cases ha)⟩
    exact Option.some.inj hr' ▸ lt_succ_self _
  case convert r =>
    split at hs <;> cases hs
    next hand => exact h.receiver rfl id id fun _ => h.held_lt hand.1
  case drop r =>
    split at hs
    · cases hs
    next hand =>
    have hr := h.held_lt (not_not.mp hand).1
    split at hs
    · cases hs
      exact h.receiver rfl (fun hfalse => by cases hfalse) (fun _ => rfl) fun _ => hr
    split at hs <;> cases hs
    all_goals
      refine Inv.begin ?_ (.closing hr After.noConfusion fun _ => by simp [setReceiver])
      exact h.receiver rfl id (fun _ => rfl) fun _ => hr
  case send k v =>
    split at hs <;> cases hs
    exact h.begin ⟨fun _ hr => (by cases hr), fun _ _ heq => (by cases heq),
      fun _ hr => (by cases hr)⟩
  case closeSender =>
    split at hs <;> cases hs
    exact ⟨h.nodup, h.bound, h.out, fun c hc => (h.calls c hc).mono le_rfl fun _ => id, h.settled⟩
  case dropSender =>
    split at hs <;> cases hs
    exact ⟨h.nodup, h.bound, h.out, fun c hc => (h.calls c hc).mono le_rfl fun _ => id,
      fun _ _ hfalse => by cases hfalse⟩
  case drain i topics =>
    unfold System.drain at hs
    split at hs
    · next r after hi =>
      split at hs
      · cases hs
        split
        · exact (h.kill r).returns (c := .closing r after) hi rfl
        · exact h.returns hi rfl
      next hsender =>
      split at hs <;> cases hs
      exact h.drain hi (by simpa using hsender) hclear
    · cases hs
  case advance i => exact h.advance hclear hs

end Inv

/-! ### Messages -/

/-- The message of call `i` does not go to a mailbox. -/
def Avoids (i r : ℕ) (s : System K V) : Prop :=
  ∃ c, s.calls[i]? = some c ∧ r ∉ c.targets ∧ (c = .returned ∨ c.sends ∧ ∀ k v, c ≠ .sending k v)

variable [DecidableEq K]

theorem advance_calls {j : ℕ} (hs : s.advance j = some s') :
    ∃ c, s'.calls = s.calls.set j c := by
  unfold advance at hs
  split at hs
  · cases hs
    split <;> exact ⟨_, rfl⟩
  · split at hs <;> cases hs <;> exact ⟨_, rfl⟩
  · cases hs
    exact ⟨_, by rw [setCall, calls_modify]⟩
  · cases hs
    exact ⟨_, by rw [setCall, calls_finish]⟩
  · split at hs <;> cases hs <;> exact ⟨_, rfl⟩
  · cases hs
    exact ⟨_, by rw [setCall, calls_modify]⟩
  · split at hs <;> cases hs <;> exact ⟨_, rfl⟩
  · cases hs
    exact ⟨_, rfl⟩
  · cases hs
    split <;> exact ⟨_, rfl⟩
  · cases hs

theorem Avoids.advance (h : Avoids i r s) (hs : s.advance i = some s') :
    Avoids i r s' ∧ (s'.receivers r).mailbox = (s.receivers r).mailbox := by
  obtain ⟨c, hi, hr, rfl | ⟨hsends, hnot⟩⟩ := h
  · simp [System.advance, hi] at hs
  have hlt := (List.getElem?_eq_some_iff.mp hi).1
  cases c with
  | sending k v => exact absurd rfl (hnot k v)
  | delivering k v targets =>
    cases targets with
    | nil =>
      simp only [System.advance, hi] at hs
      cases hs
      exact ⟨⟨.returned, List.getElem?_set_self hlt, not_mem_nil, Or.inl rfl⟩, rfl⟩
    | cons m targets =>
      simp only [System.advance, hi] at hs
      cases hs
      obtain ⟨hne, hrest⟩ := ne_and_not_mem_of_not_mem_cons hr
      refine ⟨⟨.delivering k v targets, ?_, hrest, Or.inr ⟨rfl, fun _ _ => by simp⟩⟩, ?_⟩
      · split <;> exact List.getElem?_set_self hlt
      · split
        · simp [setCall, setReceiver, hne]
        · rfl
  | _ => cases hsends

theorem Avoids.step (h : Avoids i r s) {a : Action K V} (hs : s.step a = some s') :
    Avoids i r s' := by
  obtain ⟨c, hi, hr, hc⟩ := h
  have hlt := (List.getElem?_eq_some_iff.mp hi).1
  -- the other calls go on beside this one
  have hbegin : ∀ d : Call K V, (s.calls ++ [d])[i]? = some c := fun d => by
    rw [List.getElem?_append_left hlt, hi]
  cases a <;> simp only [System.step] at hs
  case advance j =>
    by_cases hij : i = j
    · subst hij
      exact (Avoids.advance ⟨c, hi, hr, hc⟩ hs).1
    · obtain ⟨d, hd⟩ := advance_calls hs
      exact ⟨c, by rw [hd, List.getElem?_set_ne (Ne.symm hij), hi], hr, hc⟩
  case drain j topics =>
    unfold System.drain at hs
    split at hs
    · next r' after hj =>
      have hij : j ≠ i := by
        rintro rfl
        rw [hj] at hi
        obtain rfl := Option.some.inj hi
        rcases hc with heq | ⟨hsends, -⟩
        · cases heq
        · cases hsends
      have hset : ∀ d : Call K V, (s.calls.set j d)[i]? = some c := fun d => by
        rw [List.getElem?_set_ne hij, hi]
      split at hs
      · cases hs
        refine ⟨c, ?_, hr, hc⟩
        split <;> exact hset _
      · split at hs <;> cases hs
        exact ⟨c, hset _, hr, hc⟩
    · cases hs
  case subscribe => split at hs <;> cases hs; exact ⟨c, hbegin _, hr, hc⟩
  case unsubscribe => split at hs <;> cases hs; exact ⟨c, hbegin _, hr, hc⟩
  case send => split at hs <;> cases hs; exact ⟨c, hbegin _, hr, hc⟩
  case convert => split at hs <;> cases hs; exact ⟨c, hi, hr, hc⟩
  case closeSender => split at hs <;> cases hs; exact ⟨c, hi, hr, hc⟩
  case dropSender => split at hs <;> cases hs; exact ⟨c, hi, hr, hc⟩
  case close =>
    split at hs
    · cases hs
    split at hs <;> cases hs
    · exact ⟨c, hi, hr, hc⟩
    · exact ⟨c, hbegin _, hr, hc⟩
  case clone =>
    split at hs
    · cases hs
    split at hs
    · cases hs
      exact ⟨c, hi, hr, hc⟩
    split at hs <;> cases hs
    exact ⟨c, hbegin _, hr, hc⟩
  case drop =>
    split at hs
    · cases hs
    split at hs
    · cases hs
      exact ⟨c, hi, hr, hc⟩
    split at hs <;> cases hs <;> exact ⟨c, hbegin _, hr, hc⟩

/-- A list that settled without a receiver: a message that takes it does not come to the mailbox. -/
theorem Inv.avoids (h : Inv s) (hsender : s.senderLive) (hlive : (s.receivers r).live)
    (hdropped : (s.receivers r).dropped = false) (hp : ¬ s.Pending r k)
    (hk : k ∉ (s.receivers r).subscriptions) {v : V} (hi : s.calls[i]? = some (.sending k v))
    (hs : s.advance i = some s') : Avoids i r s' := by
  have hlt := (List.getElem?_eq_some_iff.mp hi).1
  have hnot : r ∉ s.subscribers k := fun hin =>
    hk (((h.settled r k hsender hlive hdropped).resolve_left hp).mpr hin)
  simp only [System.advance, hi] at hs
  split at hs <;> cases hs
  · exact ⟨.returned, List.getElem?_set_self hlt, not_mem_nil, Or.inl rfl⟩
  · exact ⟨_, List.getElem?_set_self hlt, hnot, Or.inr ⟨rfl, fun _ _ => by simp⟩⟩

/-- In every run whose steps are clear, a topic is in the set of a receiver exactly when the mailbox is
in the list of the topic. -/
theorem agrees_of_clear {isAsync : Bool} {capacity : ℕ}
    (hrun : Run step (fun s a => clear s a) (init isAsync capacity) s) : s.Agrees := by
  have hinv : Inv s := hrun.invariant (.init isAsync capacity) fun _ _ _ h hc hs => h.step hc hs
  refine ⟨fun r k hsender hlive hdropped hidle => ?_,
    fun r k hsender hlive hdropped hp hk i v s' hi hs t u hrun' ht => ?_⟩
  · have hiff := (hinv.settled r k hsender hlive hdropped).resolve_left (not_pending_of_idle hidle)
    split
    · next hk => exact List.count_eq_one_of_mem (hinv.nodup k) (hiff.mp hk)
    · next hk => exact List.count_eq_zero_of_not_mem fun hin => hk (hiff.mpr hin)
  · have havoids : Avoids i r t := hrun'.invariant
      (hinv.avoids hsender hlive hdropped hp hk hi hs) fun _ _ _ h _ hs => h.step hs
    exact (havoids.advance ht).2

/-- A receiver subscribes to two topics, gives one up, and is cloned. -/
def cloned : List (Action ℕ ℕ) :=
  [.subscribe 0 1, .advance 0, .subscribe 0 2, .advance 0, .advance 1, .advance 1, .advance 0,
    .advance 1, .unsubscribe 0 1, .advance 2, .advance 2, .advance 2, .clone 0 [2], .advance 3,
    .advance 3, .advance 3, .send 2 7, .advance 4]

theorem agrees_cloned : ∃ s : System ℕ ℕ,
    Run step (fun s a => clear s a) (init false 8) s ∧ s.subscribers 2 = [0, 1] ∧ s.Agrees := by
  have hexec : (exec step clear (init false 8) cloned).map (fun s => s.subscribers 2) =
      some [0, 1] := by
    decide
  obtain ⟨s, hs, hlist⟩ := Option.map_eq_some_iff.mp hexec
  have hrun := run_of_exec (fun _ _ => id) hs
  exact ⟨s, hrun, hlist, agrees_of_clear hrun⟩

def closedReceiver : List (Action ℕ ℕ) :=
  [.subscribe 0 1, .advance 0, .advance 0, .advance 0, .close 0, .drain 1 [1], .advance 1, .advance 1]

/-- The set is empty, and the mailbox is in the list of the topic still. -/
theorem not_agrees_closed : ∃ s : System ℕ ℕ, Reachable step (init false 8) s ∧ s.idle 0 ∧
    s.senderLive ∧ (s.receivers 0).live ∧ (s.receivers 0).subscriptions = ∅ ∧
    s.subscribers 1 = [0] ∧ ¬ s.Agrees := by
  have hexec : (exec step (fun _ _ => true) (init false 8) closedReceiver).map (fun s =>
      decide (s.idle 0 ∧ s.senderLive ∧ (s.receivers 0).live ∧ (s.receivers 0).dropped = false ∧
        (s.receivers 0).subscriptions = ∅ ∧ s.subscribers 1 = [0])) = some true := by
    decide
  obtain ⟨s, hs, hfacts⟩ := Option.map_eq_some_iff.mp hexec
  obtain ⟨hidle, hsender, hlive, hdropped, hsubs, hlist⟩ := of_decide_eq_true hfacts
  refine ⟨s, reachable_of_exec hs, hidle, hsender, hlive, hsubs, hlist, fun hagrees => ?_⟩
  have hcount := hagrees.subscribed 0 1 hsender hlive hdropped hidle
  rw [hsubs, hlist] at hcount
  exact absurd hcount (by decide)

end System

end Fibre.Channels.Topic
