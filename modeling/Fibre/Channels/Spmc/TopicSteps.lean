import Fibre.Channels.Spmc.Topic

/-!
# The steps of the topic channel

Each step of the channel with what it needs and the state it leads to, so that what holds in every run
is read off one case of a step at a time.
-/

namespace Fibre.Channels.Topic

open Function List Bool

namespace System

variable {K V : Type*} {s s' t : System K V} {r i : ℕ} {k : K} {c c' : Call K V}

section

variable [DecidableEq K]

/-- A step, with what it needs and where it leads. -/
inductive Move (s : System K V) : Action K V → System K V → Prop
  | subscribe (r : ℕ) (k : K) : s.held r →
      Move s (.subscribe r k) (s.begin (.subscribing r [k] false))
  | unsubscribe (r : ℕ) (k : K) : s.held r →
      Move s (.unsubscribe r k) (s.begin (.unsubscribing r [k] .nothing))
  | closed (r : ℕ) : s.held r → (s.receivers r).closed → Move s (.close r) s
  | close (r : ℕ) : s.held r → (s.receivers r).closed = false →
      Move s (.close r)
        ((s.setReceiver r { s.receivers r with closed := true }).begin (.closing r .close))
  | dead (r : ℕ) (topics : List K) : s.held r → s.senderLive = false →
      Move s (.clone r topics) (s.add (fresh (s.receivers r).isAsync 0 true true))
  | clone (r : ℕ) (topics : List K) : s.held r → s.senderLive → topics.Nodup →
      topics.toFinset = (s.receivers r).subscriptions →
      Move s (.clone r topics) ((s.join.add (fresh (s.receivers r).isAsync
        (s.receivers r).mailbox.capacity false false)).begin (.subscribing s.made topics true))
  | convert (r : ℕ) : s.held r → s.idle r →
      Move s (.convert r) (s.setReceiver r { s.receivers r with
        isAsync := !(s.receivers r).isAsync
        closed := false })
  | dropClosed (r : ℕ) : s.held r → s.idle r → (s.receivers r).closed →
      (s.receivers r).isAsync = false →
      Move s (.drop r) (s.setReceiver r { s.receivers r with dropped := true, live := false })
  | dropAsync (r : ℕ) : s.held r → s.idle r → (s.receivers r).isAsync →
      Move s (.drop r)
        ((s.setReceiver r { s.receivers r with dropped := true }).begin (.closing r .drop))
  | dropSync (r : ℕ) : s.held r → s.idle r → (s.receivers r).closed = false →
      (s.receivers r).isAsync = false →
      Move s (.drop r) ((s.setReceiver r { s.receivers r with
        dropped := true
        closed := true }).begin (.closing r .drop))
  | send (k : K) (v : V) : s.senderLive → Move s (.send k v) (s.begin (.sending k v))
  | closeSender : s.senderLive → Move s .closeSender { s with senderClosed := true }
  | dropSender : s.senderLive → (∀ c ∈ s.calls, c.sends = false) →
      Move s .dropSender { s with senderClosed := true, senderLive := false }
  | gone (i : ℕ) (topics : List K) (r : ℕ) (after : After) :
      s.calls[i]? = some (.closing r after) → s.senderLive = false →
      Move s (.drain i topics) ((if after = .drop then s.kill r else s).setCall i .returned)
  | drain (i : ℕ) (topics : List K) (r : ℕ) (after : After) :
      s.calls[i]? = some (.closing r after) → s.senderLive → topics.Nodup →
      topics.toFinset = (s.receivers r).subscriptions →
      Move s (.drain i topics) ((s.setReceiver r { s.receivers r with subscriptions := ∅ }).setCall i
        (.unsubscribing r topics after))
  | subscribed (i r : ℕ) : s.calls[i]? = some (.subscribing r [] false) →
      Move s (.advance i) (s.setCall i .returned)
  | cloned (i r : ℕ) : s.calls[i]? = some (.subscribing r [] true) →
      Move s (.advance i) ((s.setReceiver r { s.receivers r with out := true }).setCall i .returned)
  | present (i r : ℕ) (k : K) (todo : List K) (clone : Bool) :
      s.calls[i]? = some (.subscribing r (k :: todo) clone) → k ∈ (s.receivers r).subscriptions →
      Move s (.advance i) (s.setCall i (.subscribing r todo clone))
  | insert (i r : ℕ) (k : K) (todo : List K) (clone : Bool) :
      s.calls[i]? = some (.subscribing r (k :: todo) clone) → k ∉ (s.receivers r).subscriptions →
      Move s (.advance i) ((s.setReceiver r { s.receivers r with
        subscriptions := Insert.insert k (s.receivers r).subscriptions }).setCall i
          (.pushing r k todo clone))
  | push (i r : ℕ) (k : K) (todo : List K) (clone : Bool) :
      s.calls[i]? = some (.pushing r k todo clone) →
      Move s (.advance i) ((s.modify k fun list => if r ∈ list then list else list ++ [r]).setCall i
        (.subscribing r todo clone))
  | finish (i r : ℕ) (after : After) : s.calls[i]? = some (.unsubscribing r [] after) →
      Move s (.advance i) ((s.finish r after).setCall i .returned)
  | absent (i r : ℕ) (k : K) (todo : List K) (after : After) :
      s.calls[i]? = some (.unsubscribing r (k :: todo) after) → k ∉ (s.receivers r).subscriptions →
      Move s (.advance i) (s.setCall i (.unsubscribing r todo after))
  | erase (i r : ℕ) (k : K) (todo : List K) (after : After) :
      s.calls[i]? = some (.unsubscribing r (k :: todo) after) → k ∈ (s.receivers r).subscriptions →
      Move s (.advance i) ((s.setReceiver r { s.receivers r with
        subscriptions := (s.receivers r).subscriptions.erase k }).setCall i
          (.retaining r k todo after))
  | retain (i r : ℕ) (k : K) (todo : List K) (after : After) :
      s.calls[i]? = some (.retaining r k todo after) →
      Move s (.advance i) ((s.modify k fun list => list.filter fun m => m ≠ r).setCall i
        (.unsubscribing r todo after))
  | refuse (i : ℕ) (k : K) (v : V) : s.calls[i]? = some (.sending k v) →
      s.senderClosed ∨ s.receiverCount = 0 → Move s (.advance i) (s.setCall i .returned)
  | look (i : ℕ) (k : K) (v : V) : s.calls[i]? = some (.sending k v) → s.senderClosed = false →
      s.receiverCount ≠ 0 →
      Move s (.advance i) (s.setCall i (.delivering k v (s.subscribers k)))
  | delivered (i : ℕ) (k : K) (v : V) : s.calls[i]? = some (.delivering k v []) →
      Move s (.advance i) (s.setCall i .returned)
  | deliver (i : ℕ) (k : K) (v : V) (m : ℕ) (targets : List ℕ) :
      s.calls[i]? = some (.delivering k v (m :: targets)) → (s.receivers m).live →
      Move s (.advance i) ((s.setReceiver m { s.receivers m with
        mailbox := (s.receivers m).mailbox.deliver (k, v) }).setCall i (.delivering k v targets))
  | lost (i : ℕ) (k : K) (v : V) (m : ℕ) (targets : List ℕ) :
      s.calls[i]? = some (.delivering k v (m :: targets)) → (s.receivers m).live = false →
      Move s (.advance i) (s.setCall i (.delivering k v targets))

theorem advance_cases (hs : s.advance i = some s') : Move s (.advance i) s' := by
  unfold System.advance at hs
  split at hs
  case h_1 r clone hi =>
    cases hs
    cases clone with
    | false => exact .subscribed i r hi
    | true => exact .cloned i r hi
  case h_2 r k todo clone hi =>
    split at hs <;> cases hs
    · next hk => exact .present i r k todo clone hi hk
    · next hk => exact .insert i r k todo clone hi hk
  case h_3 r k todo clone hi =>
    cases hs
    exact .push i r k todo clone hi
  case h_4 r after hi =>
    cases hs
    exact .finish i r after hi
  case h_5 r k todo after hi =>
    split at hs <;> cases hs
    · next hk => exact .erase i r k todo after hi hk
    · next hk => exact .absent i r k todo after hi hk
  case h_6 r k todo after hi =>
    cases hs
    exact .retain i r k todo after hi
  case h_7 k v hi =>
    split at hs <;> cases hs
    · next hrefuse => exact .refuse i k v hi hrefuse
    · next hlook =>
      obtain ⟨hopen, hcount⟩ := not_or.mp hlook
      exact .look i k v hi (eq_false_iff.mpr hopen) hcount
  case h_8 k v hi =>
    cases hs
    exact .delivered i k v hi
  case h_9 k v m targets hi =>
    cases hs
    split
    · next hlive => exact .deliver i k v m targets hi hlive
    · next hlive => exact .lost i k v m targets hi (eq_false_iff.mpr hlive)
  case h_10 => cases hs

theorem drain_cases {topics : List K} (hs : s.drain i topics = some s') :
    Move s (.drain i topics) s' := by
  unfold System.drain at hs
  split at hs
  · next r after hi =>
    split at hs
    · next hgone =>
      cases hs
      exact .gone i topics r after hi (by simpa using hgone)
    · next hlive =>
      split at hs <;> cases hs
      next htopics => exact .drain i topics r after hi (by simpa using hlive) htopics.1 htopics.2
  · cases hs

theorem step_cases {a : Action K V} (hs : s.step a = some s') : Move s a s' := by
  cases a <;> simp only [System.step] at hs
  case subscribe r k =>
    split at hs <;> cases hs
    next hheld => exact .subscribe r k hheld
  case unsubscribe r k =>
    split at hs <;> cases hs
    next hheld => exact .unsubscribe r k hheld
  case close r =>
    split at hs
    · cases hs
    next hheld =>
    have hheld : s.held r := by simpa using hheld
    split at hs <;> cases hs
    · next hclosed => exact .closed r hheld hclosed
    · next hopen => exact .close r hheld (eq_false_iff.mpr hopen)
  case clone r topics =>
    split at hs
    · cases hs
    next hheld =>
    have hheld : s.held r := by simpa using hheld
    split at hs
    · next hgone =>
      cases hs
      exact .dead r topics hheld (by simpa using hgone)
    · next hlive =>
      split at hs <;> cases hs
      next htopics => exact .clone r topics hheld (by simpa using hlive) htopics.1 htopics.2
  case convert r =>
    split at hs <;> cases hs
    next hand => exact .convert r hand.1 hand.2
  case drop r =>
    split at hs
    · cases hs
    next hand =>
    obtain ⟨hheld, hidle⟩ := not_not.mp hand
    split at hs
    · next hclosed =>
      cases hs
      exact .dropClosed r hheld hidle hclosed.1 (by simpa using hclosed.2)
    next hnot =>
    split at hs <;> cases hs
    · next hasync => exact .dropAsync r hheld hidle hasync
    · next hsync =>
      have hsync : (s.receivers r).isAsync = false := eq_false_iff.mpr hsync
      refine .dropSync r hheld hidle (eq_false_iff.mpr fun hclosed => hnot ⟨hclosed, ?_⟩) hsync
      rw [hsync]
      rfl
  case send k v =>
    split at hs <;> cases hs
    next hlive => exact .send k v hlive
  case closeSender =>
    split at hs <;> cases hs
    next hlive => exact .closeSender hlive
  case dropSender =>
    split at hs <;> cases hs
    next hand =>
    exact .dropSender hand.1 fun c hc => by simpa using all_eq_true.mp hand.2 c hc
  case drain i topics => exact drain_cases hs
  case advance i => exact advance_cases hs

end

/-! ### What a step leaves alone -/

theorem calls_finish (s : System K V) (r : ℕ) (after : After) : (s.finish r after).calls = s.calls := by
  cases after <;> rfl

theorem finish_made (s : System K V) (r : ℕ) (after : After) : (s.finish r after).made = s.made := by
  cases after <;> rfl

theorem calls_modify [DecidableEq K] (s : System K V) (k : K) (f : List ℕ → List ℕ) :
    (s.modify k f).calls = s.calls := by
  unfold modify
  split <;> rfl

theorem modify_made [DecidableEq K] (s : System K V) (k : K) (f : List ℕ → List ℕ) :
    (s.modify k f).made = s.made := by
  unfold modify
  split <;> rfl

/-! ### What was made -/

/-- The call is about receivers that were made, and a message goes to a mailbox once. -/
structure Call.Known (made : ℕ) (c : Call K V) : Prop where
  receiver : ∀ r, c.receiver = some r → r < made
  targets : ∀ m ∈ c.targets, m < made
  nodup : c.targets.Nodup

/-- The receivers that are named anywhere were made. -/
structure Known (s : System K V) : Prop where
  nodup : ∀ k, (s.subscribers k).Nodup
  bound : ∀ k, ∀ m ∈ s.subscribers k, m < s.made
  out : ∀ r, (s.receivers r).out → r < s.made
  calls : ∀ c ∈ s.calls, Call.Known s.made c

theorem Call.Known.mono {made made' : ℕ} (h : Call.Known made c) (hle : made ≤ made') :
    Call.Known made' c :=
  ⟨fun r hr => (h.receiver r hr).trans_le hle, fun m hm => (h.targets m hm).trans_le hle, h.nodup⟩

theorem Call.Known.of_receiver {made : ℕ} (hc : c.receiver = some r) (hr : r < made) :
    Call.Known made c := by
  have htargets : c.targets = [] := by
    cases c <;> first | rfl | cases hc
  refine ⟨fun r' hr' => ?_, ?_, ?_⟩
  · rw [hc] at hr'
    exact Option.some.inj hr' ▸ hr
  · rw [htargets]
    exact fun m hm => absurd hm not_mem_nil
  · rw [htargets]
    exact nodup_nil

theorem Call.Known.returned {made : ℕ} : Call.Known made (.returned : Call K V) :=
  ⟨fun _ hr => (nomatch hr), fun _ hm => absurd hm not_mem_nil, nodup_nil⟩

theorem Call.Known.delivering {made : ℕ} {v : V} {targets : List ℕ}
    (hbound : ∀ m ∈ targets, m < made) (hnodup : targets.Nodup) :
    Call.Known made (.delivering k v targets : Call K V) :=
  ⟨fun _ hr => (nomatch hr), hbound, hnodup⟩

theorem Call.Known.next {made m : ℕ} {v : V} {targets : List ℕ}
    (h : Call.Known made (.delivering k v (m :: targets) : Call K V)) :
    Call.Known made (.delivering k v targets : Call K V) :=
  .delivering (fun x hx => h.targets x (mem_cons_of_mem m hx)) h.nodup.of_cons

namespace Known

theorem init (isAsync : Bool) (capacity : ℕ) : Known (init isAsync capacity : System K V) where
  nodup _ := nodup_nil
  bound _ _ hm := absurd hm not_mem_nil
  out r hr := by
    by_cases heq : r = 0
    · exact heq ▸ Nat.one_pos
    · simp [System.init, heq, absent] at hr
  calls _ hc := absurd hc not_mem_nil

theorem held_lt (h : Known s) (hr : s.held r) : r < s.made :=
  h.out r (and_eq_true_iff.mp hr).1

theorem receiver_lt (h : Known s) (hi : s.calls[i]? = some c) (hc : c.receiver = some r) :
    r < s.made :=
  (h.calls c (mem_of_getElem? hi)).receiver r hc

theorem begin (h : Known s) (hc : Call.Known s.made c) : Known (s.begin c) := by
  refine ⟨h.nodup, h.bound, h.out, fun d hd => ?_⟩
  rcases mem_append.mp hd with hold | hnew
  · exact h.calls d hold
  · exact mem_singleton.mp hnew ▸ hc

theorem setCall (h : Known s) (hc : Call.Known s.made c) : Known (s.setCall i c) := by
  refine ⟨h.nodup, h.bound, h.out, fun d hd => ?_⟩
  rcases mem_or_eq_of_mem_set hd with hold | rfl
  · exact h.calls d hold
  · exact hc

theorem setReceiver (h : Known s) {q : Receiver K V} (hout : q.out → r < s.made) :
    Known (s.setReceiver r q) := by
  refine ⟨h.nodup, h.bound, fun x hx => ?_, h.calls⟩
  by_cases heq : x = r
  · subst heq
    exact hout (by simpa [System.setReceiver] using hx)
  · exact h.out x (by simpa [System.setReceiver, heq] using hx)

theorem add (h : Known s) (q : Receiver K V) : Known (s.add q) := by
  refine ⟨h.nodup, fun k m hm => Nat.lt_succ_of_lt (h.bound k m hm), fun x hx => ?_, fun c hc =>
    (h.calls c hc).mono (Nat.le_succ _)⟩
  by_cases heq : x = s.made
  · exact heq ▸ Nat.lt_succ_self _
  · exact Nat.lt_succ_of_lt (h.out x (by simpa [System.add, heq] using hx))

theorem frame (h : Known s) (hlists : s'.subscribers = s.subscribers)
    (hreceivers : s'.receivers = s.receivers) (hmade : s'.made = s.made)
    (hcalls : s'.calls = s.calls) : Known s' := by
  obtain ⟨hnodup, hbound, hout, hknown⟩ := h
  constructor
  · rwa [hlists]
  · rwa [hlists, hmade]
  · rwa [hreceivers, hmade]
  · rwa [hcalls, hmade]

theorem modify [DecidableEq K] (h : Known s) {f : List ℕ → List ℕ}
    (hnodup : ∀ l : List ℕ, l.Nodup → (f l).Nodup)
    (hbound : ∀ l, ∀ m ∈ f l, m ∈ l ∨ m < s.made) : Known (s.modify k f) := by
  unfold System.modify
  split
  · refine ⟨fun k' => ?_, fun k' m hm => ?_, h.out, h.calls⟩
    · by_cases hk : k' = k
      · subst hk
        simpa using hnodup _ ((h.nodup k').filter _)
      · simpa [hk] using h.nodup k'
    · by_cases hk : k' = k
      · subst hk
        have hm : m ∈ f ((s.subscribers k').filter fun r => (s.receivers r).live) := by
          simpa using hm
        rcases hbound _ m hm with hold | hlt
        · exact h.bound k' m (mem_of_mem_filter hold)
        · exact hlt
      · exact h.bound k' m (by simpa [hk] using hm)
  · exact h

theorem kill (h : Known s) (r : ℕ) : Known (s.kill r) := h.setReceiver (h.out r)

theorem finish (h : Known s) (r : ℕ) (after : After) : Known (s.finish r after) := by
  have hleave : Known s.leave := h.frame rfl rfl rfl rfl
  cases after with
  | nothing => exact h
  | close => exact hleave
  | drop => exact hleave.kill r

theorem step [DecidableEq K] (h : Known s) {a : Action K V} (hs : s.step a = some s') :
    Known s' := by
  -- a call on a receiver goes on
  have hgoes : ∀ {i : ℕ} {c c' : Call K V} {r : ℕ}, s.calls[i]? = some c → c.receiver = some r →
      c'.receiver = some r → Call.Known s.made c' := fun hi hc hc' =>
    .of_receiver hc' (h.receiver_lt hi hc)
  cases step_cases hs with
  | subscribe r k hheld => exact h.begin (.of_receiver rfl (h.held_lt hheld))
  | unsubscribe r k hheld => exact h.begin (.of_receiver rfl (h.held_lt hheld))
  | closed => exact h
  | close r hheld =>
    apply (h.setReceiver fun _ => h.held_lt hheld).begin
    exact .of_receiver rfl (h.held_lt hheld)
  | dead => exact h.add _
  | clone r topics =>
    have hjoin : Known s.join := h.frame rfl rfl rfl rfl
    apply (hjoin.add _).begin
    exact .of_receiver rfl (Nat.lt_succ_self s.made)
  | convert r hheld => exact h.setReceiver fun _ => h.held_lt hheld
  | dropClosed r hheld => exact h.setReceiver fun _ => h.held_lt hheld
  | dropAsync r hheld | dropSync r hheld =>
    apply (h.setReceiver fun _ => h.held_lt hheld).begin
    exact .of_receiver rfl (h.held_lt hheld)
  | send k v =>
    exact h.begin ⟨fun _ hr => (nomatch hr), fun _ hm => absurd hm not_mem_nil, nodup_nil⟩
  | closeSender | dropSender => exact h.frame rfl rfl rfl rfl
  | gone i topics r after hi =>
    split
    · exact (h.kill r).setCall .returned
    · exact h.setCall .returned
  | drain i topics r after hi =>
    refine (h.setReceiver ?_).setCall ?_
    · exact h.out r
    · exact hgoes hi rfl rfl
  | subscribed | delivered | refuse => exact h.setCall .returned
  | cloned i r hi => exact (h.setReceiver fun _ => h.receiver_lt hi rfl).setCall .returned
  | present i r k todo clone hi => exact h.setCall (hgoes hi rfl rfl)
  | absent i r k todo after hi => exact h.setCall (hgoes hi rfl rfl)
  | insert i r k todo clone hi =>
    refine (h.setReceiver ?_).setCall ?_
    · exact h.out r
    · exact hgoes hi rfl rfl
  | erase i r k todo after hi =>
    refine (h.setReceiver ?_).setCall ?_
    · exact h.out r
    · exact hgoes hi rfl rfl
  | push i r k todo clone hi =>
    refine (h.modify (fun l hl => ?_) fun l m hm => ?_).setCall ?_
    · split
      · exact hl
      · next hnot => exact concat_eq_append ▸ hl.concat hnot
    · split at hm
      · exact .inl hm
      · rcases mem_append.mp hm with hold | hnew
        · exact .inl hold
        · rw [mem_singleton.mp hnew]
          exact .inr (h.receiver_lt hi rfl)
    · rw [modify_made]
      exact hgoes hi rfl rfl
  | finish i r after hi => exact (h.finish r after).setCall .returned
  | retain i r k todo after hi =>
    refine (h.modify (fun l hl => hl.filter _) fun l m hm => .inl (mem_of_mem_filter hm)).setCall ?_
    rw [modify_made]
    exact hgoes hi rfl rfl
  | look i k v => exact h.setCall (.delivering (h.bound k) (h.nodup k))
  | deliver i k v m targets hi =>
    refine (h.setReceiver ?_).setCall ?_
    · exact h.out m
    · exact (h.calls _ (mem_of_getElem? hi)).next
  | lost i k v m targets hi => exact h.setCall (h.calls _ (mem_of_getElem? hi)).next

end Known

/-! ### What a step changes of a call and of a receiver -/

section

variable [DecidableEq K]

theorem call_of_step {a : Action K V} (hs : s.step a = some s') (hi : s.calls[i]? = some c)
    (hadvance : a ≠ .advance i) (hdrain : ∀ topics, a ≠ .drain i topics) :
    s'.calls[i]? = some c := by
  have hbegin : ∀ d : Call K V, (s.calls ++ [d])[i]? = some c := by
    intro d
    rw [List.getElem?_append_left (List.getElem?_eq_some_iff.mp hi).1]
    exact hi
  have hset : ∀ (j : ℕ) (d : Call K V), j ≠ i → (s.calls.set j d)[i]? = some c := by
    intro j d hji
    rw [List.getElem?_set_ne hji]
    exact hi
  cases step_cases hs with
  | subscribe | unsubscribe | close | clone | dropAsync | dropSync | send => exact hbegin _
  | closed | dead | convert | dropClosed | closeSender | dropSender => exact hi
  | gone j topics r after =>
    have hji : j ≠ i := fun heq => hdrain topics (by rw [heq])
    split <;> exact hset j _ hji
  | drain j topics => exact hset j _ fun heq => hdrain topics (by rw [heq])
  | push j | retain j =>
    rw [System.setCall, calls_modify]
    exact hset j _ fun heq => hadvance (by rw [heq])
  | finish j =>
    rw [System.setCall, calls_finish]
    exact hset j _ fun heq => hadvance (by rw [heq])
  | subscribed j | cloned j | present j | insert j | absent j | erase j | refuse j | look j
  | delivered j | deliver j | lost j =>
    exact hset j _ fun heq => hadvance (by rw [heq])

theorem returned_of_step {a : Action K V} (hs : s.step a = some s')
    (hi : s.calls[i]? = some .returned) : s'.calls[i]? = some .returned := by
  refine call_of_step hs hi ?_ ?_
  · rintro rfl
    simp [System.step, System.advance, hi] at hs
  · rintro topics rfl
    simp [System.step, System.drain, hi] at hs

/-- A receiver that was made stays, until it is dropped, and its mailbox changes by messages only. -/
structure Keeps (s : System K V) (a : Action K V) (r : ℕ) (q : Receiver K V) : Prop where
  live : q.live → (s.receivers r).live
  out : (s.receivers r).out → q.out
  dropped : (s.receivers r).dropped → q.dropped
  held : a = .drop r ∨ q.dropped = (s.receivers r).dropped
  mailbox : q.mailbox = (s.receivers r).mailbox ∨ ∃ (i : ℕ) (k : K) (v : V) (targets : List ℕ),
    a = .advance i ∧ s.calls[i]? = some (.delivering k v (r :: targets)) ∧
      (s.receivers r).live ∧ q.mailbox = (s.receivers r).mailbox.deliver (k, v)

omit [DecidableEq K] in
theorem Keeps.same {a : Action K V} : Keeps s a r (s.receivers r) :=
  ⟨id, id, id, .inr (rfl), .inl (rfl)⟩

omit [DecidableEq K] in
theorem Keeps.update {a : Action K V} {r' : ℕ} {q : Receiver K V} (h : Keeps s a r' q) :
    Keeps s a r (update s.receivers r' q r) := by
  by_cases heq : r = r'
  · subst heq
    rw [update_self]
    exact h
  · rw [update_of_ne heq]
    exact .same

theorem receivers_modify (s : System K V) (k : K) (f : List ℕ → List ℕ) :
    (s.modify k f).receivers = s.receivers := by
  unfold modify
  split <;> exact rfl

theorem keeps_of_step {a : Action K V} (hs : s.step a = some s') :
    Keeps s a r (s'.receivers r) ∨ r = s.made ∧ ∃ isAsync capacity closed out,
      s'.receivers r = fresh isAsync capacity closed out := by
  have hkill : ∀ r', Keeps s a r ((s.kill r').receivers r) := fun r' =>
    Keeps.update ⟨nofun, id, id, .inr (rfl), .inl (rfl)⟩
  cases step_cases hs with
  | subscribe | unsubscribe | closed | send | closeSender | dropSender | subscribed | present
  | absent | refuse | look | delivered | lost => exact .inl .same
  | close | convert | drain | insert | erase =>
    exact .inl (.update ⟨id, id, id, .inr (rfl), .inl (rfl)⟩)
  | cloned =>
    exact .inl (.update ⟨id, fun _ => rfl, id, .inr (rfl), .inl (rfl)⟩)
  | dead | clone =>
    by_cases heq : r = s.made
    · subst heq
      exact .inr ⟨rfl, _, _, _, _, update_self ..⟩
    · left
      show Keeps s _ r (update s.receivers s.made _ r)
      rw [update_of_ne heq]
      exact .same
  | dropClosed r' =>
    left
    by_cases heq : r = r'
    · subst heq
      exact .update ⟨nofun, id, fun _ => rfl, .inl (rfl), .inl (rfl)⟩
    · show Keeps s _ r (update s.receivers r' _ r)
      rw [update_of_ne heq]
      exact .same
  | dropAsync r' | dropSync r' =>
    left
    by_cases heq : r = r'
    · subst heq
      exact .update ⟨id, id, fun _ => rfl, .inl (rfl), .inl (rfl)⟩
    · show Keeps s _ r (update s.receivers r' _ r)
      rw [update_of_ne heq]
      exact .same
  | gone j topics r' =>
    left
    split
    · exact hkill r'
    · exact .same
  | push | retain =>
    left
    show Keeps s _ r ((s.modify _ _).receivers r)
    rw [receivers_modify]
    exact .same
  | finish j r' after =>
    left
    cases after with
    | nothing | close => exact .same
    | drop => exact hkill r'
  | deliver j k v m targets hj hlive =>
    left
    by_cases heq : r = m
    · subst heq
      show Keeps s _ r (update s.receivers r _ r)
      rw [update_self]
      exact ⟨id, id, id, .inr (rfl),
        .inr ⟨j, k, v, targets, rfl, hj, hlive, rfl⟩⟩
    · show Keeps s _ r (update s.receivers m _ r)
      rw [update_of_ne heq]
      exact .same

theorem senderClosed_of_step {a : Action K V} (hs : s.step a = some s') (h : s.senderClosed) :
    s'.senderClosed := by
  cases step_cases hs with
  | closeSender | dropSender => rfl
  | gone => split <;> exact h
  | push | retain =>
    unfold System.modify
    split <;> exact h
  | finish j r after => cases after <;> exact h
  | subscribe | unsubscribe | closed | close | dead | clone | convert | dropClosed | dropAsync
  | dropSync | send | drain | subscribed | cloned | present | insert | absent | erase | refuse | look
  | delivered | deliver | lost => exact h

theorem held_before {a : Action K V} (hs : s.step a = some s') (hr : s'.held r) :
    s.held r ∨ (∃ i, a = .advance i ∧ s.calls[i]? = some (.subscribing r [] true)) ∨
      ∃ r' topics, a = .clone r' topics ∧ s.senderLive = false := by
  have hupdate : ∀ {r' : ℕ} {q : Receiver K V},
      (update s.receivers r' q r).out && !(update s.receivers r' q r).dropped →
        (q.out && !q.dropped → (s.receivers r').out && !(s.receivers r').dropped) → s.held r := by
    intro r' q hheld hq
    by_cases heq : r = r'
    · subst heq
      rw [update_self] at hheld
      exact hq hheld
    · rw [update_of_ne heq] at hheld
      exact hheld
  cases step_cases hs with
  | subscribe | unsubscribe | closed | send | closeSender | dropSender | subscribed | present
  | absent | refuse | look | delivered | lost => exact .inl hr
  | close | convert | drain | insert | erase | deliver => exact .inl (hupdate hr id)
  | dropClosed | dropAsync | dropSync => exact .inl (hupdate hr (by simp))
  | cloned i r' hi =>
    by_cases heq : r = r'
    · subst heq
      exact .inr (.inl ⟨i, rfl, hi⟩)
    · have hother : (update s.receivers r' { s.receivers r' with out := true } r) =
        s.receivers r := update_of_ne heq ..
      refine .inl ?_
      rw [held, System.setCall, System.setReceiver] at hr
      dsimp only at hr
      rw [hother] at hr
      exact hr
  | dead r' topics _ hgone => exact .inr (.inr ⟨r', topics, rfl, hgone⟩)
  | clone r' topics =>
    by_cases heq : r = s.made
    · subst heq
      exfalso
      rw [held] at hr
      simp [System.begin, System.add, System.join, fresh] at hr
    · left
      have hother : (update s.receivers s.made (fresh (s.receivers r').isAsync
        (s.receivers r').mailbox.capacity false false) r) = s.receivers r :=
          update_of_ne heq ..
      rw [held, System.begin, System.add, System.join] at hr
      dsimp only at hr
      rw [hother] at hr
      exact hr
  | gone j topics r' after =>
    left
    revert hr
    split
    · exact fun hr => hupdate hr id
    · exact id
  | push | retain =>
    left
    rw [held, System.setCall, receivers_modify] at hr
    exact hr
  | finish j r' after =>
    left
    cases after with
    | nothing | close => exact hr
    | drop => exact hupdate hr id

theorem made_le_of_step {a : Action K V} (hs : s.step a = some s') : s.made ≤ s'.made := by
  cases step_cases hs with
  | dead | clone => exact Nat.le_succ _
  | gone => split <;> exact le_rfl
  | push | retain => exact (modify_made ..).ge
  | finish => exact (finish_made ..).ge
  | subscribe | unsubscribe | closed | close | convert | dropClosed | dropAsync | dropSync | send
  | closeSender | dropSender | drain | subscribed | cloned | present | insert | absent | erase
  | refuse | look | delivered | deliver | lost => exact le_rfl

end

/-! ### What is gone -/

/-- Only a receiver whose drop has begun is gone. -/
structure Alive (s : System K V) : Prop where
  alive : ∀ r < s.made, (s.receivers r).live ∨ (s.receivers r).dropped
  drops : ∀ c ∈ s.calls, ∀ r, c.receiver = some r → c.after = .drop → (s.receivers r).dropped

namespace Alive

theorem init (isAsync : Bool) (capacity : ℕ) : Alive (init isAsync capacity : System K V) := by
  refine ⟨fun r hr => .inl ?_, nofun⟩
  obtain rfl : r = 0 := Nat.lt_one_iff.mp hr
  rfl

theorem begin (h : Alive s) (hc : ∀ r, c.receiver = some r → c.after = .drop →
    (s.receivers r).dropped) : Alive (s.begin c) := by
  refine ⟨h.alive, fun d hd => ?_⟩
  rcases mem_append.mp hd with hold | hnew
  · exact h.drops d hold
  · rw [mem_singleton.mp hnew]
    exact hc

theorem setCall (h : Alive s) (hc : ∀ r, c.receiver = some r → c.after = .drop →
    (s.receivers r).dropped) : Alive (s.setCall i c) := by
  refine ⟨h.alive, fun d hd => ?_⟩
  rcases mem_or_eq_of_mem_set hd with hold | rfl
  · exact h.drops d hold
  · exact hc

theorem setReceiver (h : Alive s) {q : Receiver K V} (hq : (s.receivers r).live → q.live ∨ q.dropped)
    (hdropped : (s.receivers r).dropped → q.dropped) : Alive (s.setReceiver r q) := by
  have hkeep : ∀ r', (s.receivers r').dropped → ((s.setReceiver r q).receivers r').dropped := by
    intro r' hd
    by_cases heq : r' = r
    · subst heq
      simpa [System.setReceiver] using hdropped hd
    · simpa [System.setReceiver, heq] using hd
  refine ⟨fun r' hr' => ?_, fun d hd r' hr' ha => hkeep r' (h.drops d hd r' hr' ha)⟩
  by_cases heq : r' = r
  · subst heq
    have hor := (h.alive r' hr').elim hq fun hd => .inr (hdropped hd)
    simpa [System.setReceiver] using hor
  · simpa [System.setReceiver, heq] using h.alive r' hr'

theorem add (h : Alive s) (hknown : Known s) {q : Receiver K V} (hq : q.live) :
    Alive (s.add q) := by
  refine ⟨fun r hr => ?_, fun d hd r hr ha => ?_⟩
  · by_cases heq : r = s.made
    · subst heq
      exact .inl (by simpa [System.add] using hq)
    · have hlt : r < s.made := Nat.lt_of_le_of_ne (Nat.lt_succ_iff.mp hr) heq
      simpa [System.add, heq] using h.alive r hlt
  · have hne : r ≠ s.made := ((hknown.calls d hd).receiver r hr).ne
    simpa [System.add, hne] using h.drops d hd r hr ha

theorem frame (h : Alive s) (hreceivers : s'.receivers = s.receivers) (hmade : s'.made = s.made)
    (hcalls : s'.calls = s.calls) : Alive s' := by
  obtain ⟨halive, hdrops⟩ := h
  constructor
  · rwa [hreceivers, hmade]
  · rwa [hcalls, hreceivers]

theorem kill (h : Alive s) (hr : (s.receivers r).dropped) : Alive (s.kill r) :=
  h.setReceiver (fun _ => .inr hr) id

theorem step [DecidableEq K] (h : Alive s) (hknown : Known s) {a : Action K V}
    (hs : s.step a = some s') : Alive s' := by
  have hnot : ∀ {t : System K V} {c : Call K V}, c.after ≠ .drop → ∀ r, c.receiver = some r →
      c.after = .drop → (t.receivers r).dropped := fun hne _ _ ha => absurd ha hne
  -- a call goes on, on the same receiver and to the same end
  have hgoes : ∀ {i : ℕ} {c d : Call K V}, s.calls[i]? = some c → d.receiver = c.receiver →
      d.after = c.after → ∀ r, d.receiver = some r → d.after = .drop →
        (s.receivers r).dropped := by
    intro i c d hi hr ha r hr' ha'
    exact h.drops c (mem_of_getElem? hi) r (hr ▸ hr') (ha ▸ ha')
  cases step_cases hs with
  | subscribe | unsubscribe | send => exact h.begin (hnot nofun)
  | closed => exact h
  | close =>
    refine (h.setReceiver ?_ ?_).begin (hnot ?_)
    · exact .inl
    · exact id
    · exact nofun
  | dead => exact h.add hknown rfl
  | clone =>
    have hjoin : Alive s.join := h.frame rfl rfl rfl
    exact (hjoin.add (hknown.frame rfl rfl rfl rfl) rfl).begin (hnot nofun)
  | convert => exact h.setReceiver .inl id
  | dropClosed => exact h.setReceiver (fun _ => .inr rfl) fun _ => rfl
  | dropAsync r | dropSync r =>
    refine (h.setReceiver (fun _ => .inr rfl) fun _ => rfl).begin fun r' hr' _ => ?_
    obtain rfl := Option.some.inj hr'
    simp [System.setReceiver]
  | closeSender | dropSender => exact h.frame rfl rfl rfl
  | gone i topics r after hi =>
    split
    · next hafter =>
      exact (h.kill (h.drops _ (mem_of_getElem? hi) r rfl hafter)).setCall (hnot nofun)
    · exact h.setCall (hnot nofun)
  | drain i topics r after hi =>
    refine Alive.setCall (h.setReceiver .inl id) fun r' hr' ha => ?_
    have hdropped := hgoes hi (d := .unsubscribing r topics after) rfl rfl r' hr' ha
    by_cases heq : r' = r
    · subst heq
      simpa [System.setReceiver] using hdropped
    · simpa [System.setReceiver, heq] using hdropped
  | subscribed | delivered | refuse | present | look | lost => exact h.setCall (hnot nofun)
  | cloned | insert | deliver =>
    refine (h.setReceiver ?_ ?_).setCall (hnot ?_)
    · exact .inl
    · exact id
    · exact nofun
  | push i r k =>
    have hmodify : Alive (s.modify k fun list => if r ∈ list then list else list ++ [r]) :=
      h.frame (receivers_modify ..) (modify_made ..) (calls_modify ..)
    exact hmodify.setCall (hnot nofun)
  | finish i r after hi =>
    cases after with
    | nothing => exact h.setCall (hnot nofun)
    | close =>
      have hleave : Alive s.leave := h.frame rfl rfl rfl
      exact hleave.setCall (hnot nofun)
    | drop =>
      have hleave : Alive s.leave := h.frame rfl rfl rfl
      exact (hleave.kill (h.drops _ (mem_of_getElem? hi) r rfl rfl)).setCall (hnot nofun)
  | absent i r k todo after hi => exact h.setCall (hgoes hi rfl rfl)
  | erase i r k todo after hi =>
    refine Alive.setCall (h.setReceiver .inl id) fun r' hr' ha => ?_
    have hdropped := hgoes hi (d := .retaining r k todo after) rfl rfl r' hr' ha
    by_cases heq : r' = r
    · subst heq
      simpa [System.setReceiver] using hdropped
    · simpa [System.setReceiver, heq] using hdropped
  | retain i r k todo after hi =>
    have hmodify : Alive (s.modify k fun list => list.filter fun m => m ≠ r) :=
      h.frame (receivers_modify ..) (modify_made ..) (calls_modify ..)
    refine hmodify.setCall fun r' hr' ha => ?_
    rw [receivers_modify]
    exact hgoes hi (d := .unsubscribing r todo after) rfl rfl r' hr' ha

end Alive

/-- The same channel with other messages in the mailboxes. -/
def refill (s : System K V) (boxes : ℕ → Mailbox (K × V)) : System K V :=
  { s with receivers := fun r => { s.receivers r with mailbox := boxes r } }

theorem Known.refill (h : Known s) (boxes : ℕ → Mailbox (K × V)) : Known (s.refill boxes) :=
  ⟨h.nodup, h.bound, h.out, h.calls⟩

end System

end Fibre.Channels.Topic
