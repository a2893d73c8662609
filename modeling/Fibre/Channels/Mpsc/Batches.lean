import Fibre.Channels.Mpsc.Delivery

/-!
# Batches that are sent in part

A batch that is given up has put the items into the channel that it reports, and has the others left:
they are in its error, in the vector of the caller, or in the future that is dropped.
-/

namespace Fibre.Channels.Mpsc

open Machine Function Option List

variable {T : Type*} {shape : Shape}

namespace Result

/-- How many items were sent. -/
def count : Result T → ℕ
  | .sent n | .full n _ | .closed n _ => n
  | .isFull _ => 0

/-- The items of the error, which the in-place sends leave in the vector. -/
def rest : Result T → List T
  | .full _ unsent | .closed _ unsent => unsent
  | .sent _ | .isFull _ => []

def ofSend : Result T → Bool
  | .isFull _ => false
  | _ => true

end Result

namespace Producer

variable {pc pc' : Producer T} {c : Call T} {r : Result T}

/-- A send is under way before it goes on, and returns what it has. -/
structure Leads (pc pc' : Producer T) : Prop where
  under : pc'.call.isSome → pc.call.isSome ∧ pc'.reported = 0
  returns : ∀ r, pc' = .done r → r.ofSend → ∃ c, pc.call = some c ∧ r.count = c.sent ∧ r.rest = c.items

theorem Leads.of_call (h : pc'.call.isSome → pc.call.isSome) (hnot : ∀ r, pc' ≠ .done r) :
    Leads pc pc' where
  under hc := ⟨h hc, by cases pc' with
    | done r => exact absurd rfl (hnot r)
    | _ => rfl⟩
  returns r hr := absurd hr (hnot r)

theorem Leads.of_done (h : pc.call = some c) (hcount : r.count = c.sent) (hrest : r.rest = c.items) :
    Leads pc (.done r) where
  under hc := by cases hc
  returns r' hr _ := by
    cases hr
    exact ⟨c, h, hcount, hrest⟩

theorem attempt_leads (m : Mode) (h : pc.call = some c) : Leads pc (attempt m c) := by
  refine .of_call (fun _ => by rw [h]; rfl) fun r hr => ?_
  simpa [hr, call] using (call_attempt m c).1

theorem closedWindow_leads (m : Mode) (h : pc.call = some c) : Leads pc (closedWindow m c) := by
  have hcall : pc.call.isSome := by rw [h]; rfl
  unfold closedWindow
  split
  · exact .of_call (fun _ => hcall) fun r hr => by cases hr
  · cases m with
    | hot =>
      dsimp only
      split
      · exact .of_call (fun _ => hcall) fun r hr => by cases hr
      · exact attempt_leads _ h
    -- full for the fresh counter too
    | cold => exact .of_done h rfl rfl

theorem finish_leads {w : Writes T} (h : pc.call = some w.call) : Leads pc (finish w) := by
  have hcall : pc.call.isSome := by rw [h]; rfl
  unfold finish
  split
  · next hnil => exact .of_done h rfl hnil.symm
  split
  · exact attempt_leads _ h
  split
  · exact .of_call (fun _ => hcall) fun r hr => by cases hr
  split
  · cases w.mode with
    | hot => exact .of_call (fun _ => hcall) fun r hr => by cases hr
    | cold => exact .of_done h rfl rfl
  · exact .of_call (fun _ => hcall) fun r hr => by cases hr

end Producer

open Producer in
theorem Shared.leads_of_advance {s u : Shared T} {closed : ℕ → Bool} {pc pc' : Producer T}
    (hs : s.advanceProducer shape closed pc = some (u, pc')) : Leads pc pc' := by
  cases pc with
  | idle | waiting c | done r => simp [advanceProducer] at hs
  | enter c | again m c =>
    cases hs
    split
    · exact .of_done rfl rfl rfl
    · exact attempt_leads _ rfl
  | runCap m c | gate m c r | claim m c k | publish c d | lenTail | credit m c t k =>
    cases hs
    exact .of_call (fun h => h) fun r hr => by cases hr
  | lenDrained tail =>
    cases hs
    exact ⟨fun h => (by cases h), fun r hr hsend => by cases hr; cases hsend⟩
  | window m c r g =>
    cases hs
    split
    · exact closedWindow_leads _ rfl
    · exact .of_call (fun h => h) fun r hr => by cases hr
  | resident w =>
    simp only [advanceProducer] at hs
    split at hs
    · cases hs
      exact finish_leads rfl
    · cases hs
      split <;> exact .of_call (fun h => h) fun r hr => by cases hr
  | retired w cur | install w cur | write w =>
    simp only [advanceProducer] at hs
    split at hs <;> try split at hs
    all_goals
      cases hs
      try split
      all_goals exact .of_call (fun h => h) fun r hr => by cases hr

/-- The channel, and what was accepted from each producer before its last send. -/
structure Batches (T : Type*) where
  traffic : Traffic T
  before : ℕ → List T

namespace Batches

def init (shape : Shape) (publishChunk : ℕ) : Batches T := ⟨.init shape publishChunk, fun _ => []⟩

/-- What was accepted from the producer. -/
def put (s : Batches T) (p : ℕ) : List T := (s.traffic.ledger.entries p).map Entry.item

def producer (s : Batches T) (p : ℕ) : Producer T := s.traffic.ledger.system.producer p

def step (shape : Shape) (s : Batches T) (a : Action T) : Option (Batches T) :=
  (s.traffic.step shape a).map fun t =>
    match a with
    | .send p _ => ⟨t, update s.before p (s.put p)⟩
    | _ => ⟨t, s.before⟩

/-- What is known of the last send of a producer. -/
structure Tells (s : Batches T) (p : ℕ) : Prop where
  under : (s.producer p).call.isSome → s.before p = s.traffic.returned p
  ended : ∀ r, s.producer p = .done r → r.ofSend →
    s.traffic.returned p = s.before p ++ (s.traffic.opened p).take r.count ∧
      r.rest = (s.traffic.opened p).drop r.count

variable {s s' : Batches T} {p : ℕ}

theorem Tells.move (h : s.Tells p) (ht : s.traffic.Accounts p) (hbefore : s'.before p = s.before p)
    (hopened : s'.traffic.opened p = s.traffic.opened p)
    (hreturned : s'.traffic.returned p = s.traffic.returned p ++
      (s.traffic.opened p).take (s'.producer p).reported)
    (hleads : (s.producer p).Leads (s'.producer p)) : s'.Tells p where
  under hc := by
    obtain ⟨hcall, hzero⟩ := hleads.under hc
    rw [hbefore, hreturned, hzero, take_zero, append_nil, h.under hcall]
  ended r hr hsend := by
    obtain ⟨c, hc, hcount, hrest⟩ := hleads.returns r hr hsend
    have hreported : (s'.producer p).reported = r.count := by
      rw [hr]
      cases r with
      | isFull => cases hsend
      | _ => rfl
    rw [hreturned, hbefore, hopened, hreported, h.under (by rw [hc]; rfl)]
    exact ⟨rfl, by rw [hrest, hcount, ht.rest c hc]⟩

theorem Tells.same (h : s.Tells p) (hbefore : s'.before p = s.before p)
    (hopened : s'.traffic.opened p = s.traffic.opened p)
    (hreturned : s'.traffic.returned p = s.traffic.returned p)
    (hp : s'.producer p = s.producer p) : s'.Tells p where
  under hc := by
    rw [hbefore, hreturned]
    exact h.under (by rwa [← hp])
  ended r hr hsend := by
    rw [hbefore, hreturned, hopened]
    exact h.ended r (by rwa [← hp]) hsend

/-- A send that goes on or returns changes what is known of its producer alone. -/
theorem tells_of_update (hinv : s.traffic.Inv shape) (h : ∀ p, s.Tells p) {q : ℕ} (pc : Producer T)
    (hleads : (s.producer q).Leads pc) (hbefore : s'.before = s.before)
    (hproducer : s'.producer = update s.producer q pc)
    (hopened : s'.traffic.opened = s.traffic.opened)
    (hreturned : s'.traffic.returned = update s.traffic.returned q
      (s.traffic.returned q ++ (s.traffic.opened q).take pc.reported)) : ∀ p, s'.Tells p := by
  intro p
  by_cases hp : p = q
  · subst hp
    have hpc : s'.producer p = pc := by rw [hproducer, update_self]
    refine (h p).move (hinv.accounts p) (by rw [hbefore]) (by rw [hopened]) ?_ (by rwa [hpc])
    rw [hreturned, update_self, hpc]
  · refine (h p).same (by rw [hbefore]) (by rw [hopened]) ?_ ?_
    · rw [hreturned, update_of_ne hp]
    · rw [hproducer, update_of_ne hp]

theorem tells_step (hinv : s.traffic.Inv shape) (h : ∀ p, s.Tells p) {a : Action T}
    (hs : s.step shape a = some s') : ∀ p, s'.Tells p := by
  obtain ⟨t, ht, rfl⟩ := map_eq_some_iff.mp hs
  obtain ⟨l, hl, rfl⟩ := map_eq_some_iff.mp ht
  obtain ⟨u, hu, rfl⟩ := map_eq_some_iff.mp hl
  have hkeep : ∀ q (pc : Producer T), pc.reported = 0 → s.traffic.returned = update
      s.traffic.returned q (s.traffic.returned q ++ (s.traffic.opened q).take pc.reported) := by
    intro q pc hpc
    rw [hpc, take_zero, append_nil, update_eq_self]
  cases a with
  | producer q =>
    obtain ⟨⟨v, pc⟩, hadvance, rfl⟩ := map_eq_some_iff.mp hu
    refine tells_of_update hinv h _ (Shared.leads_of_advance hadvance) rfl rfl rfl ?_
    simp only [Traffic.settle, System.setProducer, update_self]
  | send q c =>
    simp only [System.step, ite_none_right_eq_some, Bool.and_eq_true] at hu
    obtain ⟨⟨⟨⟨hresting, -⟩, -⟩, -⟩, heq⟩ := hu
    cases heq
    intro p
    by_cases hp : p = q
    · subst hp
      -- no call was under way, so what was accepted has been returned
      obtain ⟨hsent, -⟩ := hinv.accounts p
      rw [Traffic.underWay, Producer.call_of_resting hresting, append_nil] at hsent
      refine ⟨fun _ => ?_, fun r hr => ?_⟩
      · exact (update_self p _ _).trans hsent
      · simp [producer, System.setProducer] at hr
    · exact (h p).same (update_of_ne hp _ _) (update_of_ne hp _ _) rfl
        (update_of_ne hp _ _)
  | isFull q =>
    simp only [System.step, ite_none_right_eq_some] at hu
    obtain ⟨hresting, heq⟩ := hu
    cases heq
    exact tells_of_update hinv h .lenTail
      (.of_call (fun hc => by cases hc) fun r hr => by cases hr) rfl rfl rfl (hkeep q _ rfl)
  | retry q m =>
    simp only [System.step] at hu
    split at hu
    · next c hp =>
      split at hu <;> cases hu
      exact tells_of_update hinv h _ (Producer.attempt_leads m (by rw [producer, hp]; rfl)) rfl rfl rfl
        (hkeep q _ (Producer.call_attempt m c).2)
    · cases hu
  | publishFromDrained q =>
    simp only [System.step] at hu
    split at hu
    · next c hp =>
      cases hu
      exact tells_of_update hinv h _ (.of_call (fun _ => by rw [producer, hp]; rfl) fun r hr => by cases hr)
        rfl rfl rfl (hkeep q _ rfl)
    · cases hu
  | giveUp q =>
    simp only [System.step] at hu
    split at hu
    · next c hp =>
      cases hu
      -- what was not sent goes back, as in a failed attempt
      refine tells_of_update hinv h (.done (.closed c.sent c.items))
        (.of_done (by rw [producer, hp]; rfl) rfl rfl) rfl rfl rfl ?_
      simp only [Traffic.settle, System.setProducer, update_self]
    · cases hu
  | close handle | dropReceiver =>
    cases hu
    exact fun p => (h p).same rfl rfl rfl rfl
  | deq once max =>
    simp only [System.step] at hu
    split at hu
    · split at hu <;> cases hu <;> exact fun p => (h p).same rfl rfl rfl rfl
    · cases hu
  | flushProgress | setPublishChunk v =>
    simp only [System.step] at hu
    split at hu
    · cases hu
      exact fun p => (h p).same rfl rfl rfl rfl
    · cases hu
  | consumer waits =>
    obtain ⟨⟨v, k, item⟩, -, rfl⟩ := map_eq_some_iff.mp hu
    exact fun p => (h p).same rfl rfl rfl rfl

/-- What a send has put into the channel when it has ended is what it reports, and its items are in
their slots; it has the rest. -/
theorem returns_rest {publishChunk : ℕ} (hs : Reachable (step shape) (init shape publishChunk) s) {p : ℕ}
    {r : Result T} (hr : s.producer p = .done r) (hsend : r.ofSend) :
    s.put p = s.before p ++ (s.traffic.opened p).take r.count ∧
      r.rest = (s.traffic.opened p).drop r.count ∧
      ∀ e ∈ s.traffic.ledger.entries p, e.ticket ∉ s.traffic.ledger.system.held := by
  have hinv : s.traffic.Inv shape ∧ ∀ p, s.Tells p := by
    refine hs.invariant (I := fun s => s.traffic.Inv shape ∧ ∀ p, s.Tells p)
      ⟨.init publishChunk, fun p => ⟨fun hc => (by cases hc), fun r hr => by cases hr⟩⟩
      fun u a v hu _ hstep => ⟨?_, tells_step hu.1 hu.2 hstep⟩
    obtain ⟨t, ht, rfl⟩ := map_eq_some_iff.mp hstep
    cases a <;> exact hu.1.step ht
  obtain ⟨hreturned, hrest⟩ := (hinv.2 p).ended r hr hsend
  obtain ⟨hsent, -⟩ := hinv.1.accounts p
  have hunder : s.traffic.underWay p = [] := by
    rw [Traffic.underWay, show s.traffic.ledger.system.producer p = .done r from hr]
    rfl
  rw [hunder, append_nil] at hsent
  refine ⟨hsent.trans hreturned, hrest, fun e he => hinv.1.settled p e ?_⟩
  rwa [← hsent, length_map, take_length]

end Batches

end Fibre.Channels.Mpsc
