import Fibre.Channels.Mpsc.Core

/-!
# When a channel is reported full

`try_send` and `is_full` load the tail and then `drained`, and subtract with wrap-around. When other
parties send and drain between the two loads, `drained` passes the tail that was loaded, and the
difference is huge: a channel with room, and even an empty one, is reported full.
-/

namespace Fibre.Channels.Mpsc

open Machine Function Option

variable {T : Type*} {shape : Shape}

/-- No dequeue is under way, or it has stored its position and moves no more. -/
def Consumer.between : Consumer T → Bool
  | .idle | .publishDrained none | .publishProgress none | .tail | .runCap _ => true
  | _ => false

/-- At least the capacity is claimed and not drained. -/
def Shared.IsFull (shape : Shape) (s : Shared T) : Prop := s.drained + shape.cap ≤ s.gTail

instance (s : Shared T) : Decidable (s.IsFull shape) := Nat.decLe _ _

/-- The call reported the channel full. -/
def Result.isVerdict : Result T → Bool
  | .full _ _ => true
  | .isFull answer => answer
  | _ => false

@[simp] theorem Deq.between_next (d : Deq T) : d.next.between = false := by
  unfold Deq.next
  split <;> rfl

namespace Shared

variable {s t : Shared T} {closed : ℕ → Bool} {pc pc' : Producer T} {c : Call T}

theorem advanceProducer_frame (h : s.advanceProducer shape closed pc = some (t, pc')) :
    t.drained = s.drained ∧ t.head = s.head ∧ s.gTail ≤ t.gTail := by
  cases pc <;> simp only [advanceProducer] at h <;> try split at h
  all_goals try split at h
  all_goals cases h
  all_goals simp [setSlot]

theorem advanceConsumer_gTail {waits : Bool} {k k' : Consumer T} {item : Option T}
    (h : s.advanceConsumer shape waits k = some (t, k', item)) : t.gTail = s.gTail := by
  cases k <;> simp only [advanceConsumer] at h <;> try split at h
  all_goals try split at h
  all_goals cases h
  all_goals rfl

theorem advanceConsumer_exact {waits : Bool} {k k' : Consumer T} {item : Option T}
    (h : s.advanceConsumer shape waits k = some (t, k', item))
    (hs : k.between → s.drained = s.head.pos) (hk : k'.between) : t.drained = t.head.pos := by
  cases k with
  | idle => cases h
  | look d =>
    simp only [advanceConsumer] at h
    split at h
    · cases h
      cases hk
    · split at h <;> cases h <;> cases hk
  | retire d =>
    cases h
    cases hk
  | load d =>
    simp only [advanceConsumer] at h
    split at h <;> cases h <;> cases hk
  | drain d =>
    simp only [advanceConsumer, Option.some.injEq, Prod.mk.injEq] at h
    obtain ⟨-, rfl, -⟩ := h
    split at hk
    · cases hk
    · simp at hk
  | count d =>
    simp only [advanceConsumer, Option.some.injEq, Prod.mk.injEq] at h
    obtain ⟨-, rfl, -⟩ := h
    split at hk
    · cases hk
    · simp at hk
  | publishDrained d =>
    cases h
    rfl
  | publishProgress d =>
    cases h
    cases d with
    | none => exact hs rfl
    | some d => simp at hk
  | store d =>
    cases h
    rfl
  | tail =>
    cases h
    exact hs rfl
  | runCap k =>
    cases h
    exact hs rfl

theorem le_wrappingSub_of_grant {runCap g d : ℕ} (h : grant shape c runCap g d = 0)
    (hitems : c.items ≠ []) (hcap : 1 ≤ runCap) : shape.cap ≤ wrappingSub g d := by
  have hpos := List.length_pos_iff.mpr hitems
  unfold grant at h
  omega

theorem lt_of_valid {t k d : ℕ} (hbatch : c.batch = true) (h : valid shape c t k d < k) :
    d + shape.cap < t + k := by
  rw [valid, if_pos hbatch] at h
  omega

end Shared

namespace System

variable {s t : System T} {a : Action T} {publishChunk : ℕ}

/-- Between two dequeues `drained` is the consumer's position. -/
def Exact (s : System T) : Prop :=
  s.consumer.between → s.shared.drained = s.shared.head.pos

theorem exact_init : (init shape publishChunk : System T).Exact := fun _ => rfl

theorem Exact.step (h : s.Exact) (hs : s.step shape a = some t) : t.Exact := by
  cases a with
  | producer p =>
    obtain ⟨⟨u, pc⟩, hu, rfl⟩ := map_eq_some_iff.mp hs
    obtain ⟨hdrained, hhead, -⟩ := Shared.advanceProducer_frame hu
    intro hk
    rw [hdrained, hhead]
    exact h hk
  | consumer waits =>
    obtain ⟨⟨u, k, item⟩, hu, rfl⟩ := map_eq_some_iff.mp hs
    exact Shared.advanceConsumer_exact hu h
  | send p c | isFull p =>
    simp only [System.step] at hs
    split at hs <;> cases hs
    exact h
  | retry p m =>
    simp only [System.step] at hs
    split at hs
    · split at hs <;> cases hs
      exact h
    · cases hs
  | publishFromDrained p | giveUp p =>
    simp only [System.step] at hs
    split at hs <;> cases hs
    exact h
  | close handle | dropReceiver =>
    cases hs
    exact h
  | deq once max =>
    simp only [System.step] at hs
    split at hs
    · next hidle =>
      intro _
      have hexact := h (by rw [hidle]; rfl)
      split at hs <;> cases hs <;> exact hexact
    · cases hs
  | flushProgress =>
    simp only [System.step] at hs
    split at hs
    · next hidle =>
      cases hs
      exact fun _ => h (by rw [hidle]; rfl)
    · cases hs
  | setPublishChunk v =>
    simp only [System.step] at hs
    split at hs
    · next hidle =>
      cases hs
      exact fun _ => h (by rw [hidle]; rfl)
    · cases hs

/-- In every run `drained` is the consumer's position, but for a dequeue that is under way. -/
theorem drained_eq_pos (h : Reachable (step shape) (init shape publishChunk) s)
    (hs : s.consumer.between) : s.shared.drained = s.shared.head.pos := by
  have hexact : s.Exact := h.invariant exact_init fun _ _ _ ht _ hstep => ht.step hstep
  exact hexact hs

/-- An item is sent and received. -/
theorem drained_eq_pos_received : ∃ s : System ℕ,
    s.shared.head.pos = 1 ∧ s.shared.drained = s.shared.head.pos := by
  have hexec : (exec (System.step (.new 2 128 (by decide))) (fun _ _ => true)
      (init (.new 2 128 (by decide)) 2) (Action.send 1 ⟨0, false, false, [5], 0⟩ ::
        List.replicate 8 (Action.producer 1) ++ Action.deq true 1 ::
          List.replicate 4 (Action.consumer false))).map
      (fun s => (s.consumer.between, s.shared.head.pos)) = some (true, 1) := by decide
  obtain ⟨s, hs, hstate⟩ := map_eq_some_iff.mp hexec
  obtain ⟨hbetween, hpos⟩ := Prod.mk.inj hstate
  exact ⟨s, hpos, drained_eq_pos (reachable_of_exec hs) hbetween⟩

/-! ### Verdicts -/

/-- A verdict, where it loads `drained`, does not find it past the tail it has loaded. -/
def InOrder (s : System T) : Action T → Prop
  | .producer p =>
    match s.producer p with
    | .window .cold c _ g => c.waits = false → s.shared.drained ≤ g
    | .lenDrained tail => s.shared.drained ≤ tail
    | _ => True
  | _ => True

end System

/-- What is known of a producer, and of its call if it has seen the channel full. -/
def Producer.Ok (s : Shared T) (saw : Bool) : Producer T → Prop
  | .enter c | .again _ c | .runCap _ c | .waiting c | .publish c _ => c.items ≠ []
  | .gate _ c cap => c.items ≠ [] ∧ 1 ≤ cap
  | .window _ c cap g => c.items ≠ [] ∧ 1 ≤ cap ∧ g ≤ s.gTail
  | .credit _ _ t k => t + k ≤ s.gTail
  -- a run on the cold path that was not all in the window
  | .resident w | .retired w _ | .install w _ | .write w =>
    w.mode = .cold → w.call.batch → w.short → saw
  | .lenDrained tail => tail ≤ s.gTail
  | .done r => r.isVerdict → saw
  | .idle | .claim _ _ _ | .lenTail => True

namespace Producer

variable {s t : Shared T} {saw saw' : Bool} {pc pc' : Producer T} {c : Call T} {m : Mode}
  {closed : ℕ → Bool}

theorem Ok.mono (h : pc.Ok s saw) (hg : s.gTail ≤ t.gTail) (hsaw : saw → saw') :
    pc.Ok t saw' := by
  cases pc <;> simp only [Ok] at h ⊢
  case window m c cap g => exact ⟨h.1, h.2.1, h.2.2.trans hg⟩
  case credit m c t' k => exact h.trans hg
  case lenDrained tail => exact h.trans hg
  case done r => exact fun hr => hsaw (h hr)
  case resident w => exact fun hm hb hshort => hsaw (h hm hb hshort)
  case retired w cur => exact fun hm hb hshort => hsaw (h hm hb hshort)
  case install w cur => exact fun hm hb hshort => hsaw (h hm hb hshort)
  case write w => exact fun hm hb hshort => hsaw (h hm hb hshort)
  all_goals exact h

theorem Ok.attempt (h : c.items ≠ []) : (attempt m c).Ok s saw := by
  unfold Producer.attempt
  split
  · exact h
  · exact ⟨h, le_rfl⟩

theorem Ok.closedWindow (h : c.items ≠ []) (hfull : m = .cold → c.waits = false → saw) :
    (closedWindow m c).Ok s saw := by
  unfold Producer.closedWindow
  split
  · exact h
  · next hwaits =>
    cases m with
    | hot =>
      dsimp only
      split
      · exact h
      · exact Ok.attempt h
    | cold => exact fun _ => hfull rfl (by simpa using hwaits)

theorem Ok.finish {w : Writes T} (h : w.mode = .cold → w.call.batch → w.short → saw) :
    (finish w).Ok s saw := by
  unfold Producer.finish
  split
  · exact fun hr => by cases hr
  · next hitems =>
    split
    · exact Ok.attempt hitems
    · next hbatch =>
      split
      · exact hitems
      · split
        · next hshort =>
          split
          · exact hitems
          · next hm => exact fun _ => h hm (by simpa using hbatch) hshort
        · exact hitems

/-- One access of a producer, if a verdict loads in order and the call has seen the state after it
when that is full. -/
theorem Ok.advance (h : pc.Ok s saw) (hs : s.advanceProducer shape closed pc = some (t, pc'))
    (hcold : ∀ c cap g, pc = .window .cold c cap g → c.waits = false → s.drained ≤ g)
    (hlen : ∀ tail, pc = .lenDrained tail → s.drained ≤ tail)
    (hsaw : saw → saw') (hfull : t.IsFull shape → saw') : pc'.Ok t saw' := by
  cases pc with
  | idle | waiting c | done r => cases hs
  | enter c | again m c =>
    simp only [Shared.advanceProducer, Option.some.injEq, Prod.mk.injEq] at hs
    obtain ⟨rfl, rfl⟩ := hs
    split
    · exact fun hr => by cases hr
    · exact Ok.attempt h
  | runCap m c =>
    cases hs
    exact ⟨h, le_max_right _ _⟩
  | gate m c cap =>
    cases hs
    exact ⟨h.1, h.2, le_rfl⟩
  | window m c cap g =>
    simp only [Shared.advanceProducer, Option.some.injEq, Prod.mk.injEq] at hs
    obtain ⟨rfl, rfl⟩ := hs
    split
    · next hgrant =>
      refine Ok.closedWindow h.1 ?_
      rintro rfl hwaits
      have hcap := Shared.le_wrappingSub_of_grant hgrant h.1 h.2.1
      have hle := hcold c cap g rfl hwaits
      have hsub : shape.cap ≤ g - s.drained := le_sub_of_le_wrappingSub hle hcap
      have hg : g ≤ s.gTail := h.2.2
      apply hfull
      show s.drained + shape.cap ≤ s.gTail
      omega
    · trivial
  | claim m c k =>
    cases hs
    exact le_rfl
  | credit m c t' k =>
    simp only [Shared.advanceProducer, Option.some.injEq, Prod.mk.injEq] at hs
    obtain ⟨rfl, rfl⟩ := hs
    rintro rfl hbatch hshort
    have hlt := Shared.lt_of_valid hbatch (of_decide_eq_true hshort)
    have hk : t' + k ≤ s.gTail := h
    apply hfull
    show s.drained + shape.cap ≤ s.gTail
    exact hlt.le.trans hk
  | resident w =>
    simp only [Shared.advanceProducer] at hs
    split at hs
    · cases hs
      exact Ok.finish fun hm hb hshort => hsaw (h hm hb hshort)
    · simp only [Option.some.injEq, Prod.mk.injEq] at hs
      obtain ⟨rfl, rfl⟩ := hs
      split <;> exact fun hm hb hshort => hsaw (h hm hb hshort)
  | retired w cur =>
    simp only [Shared.advanceProducer] at hs
    split at hs <;> cases hs
    exact fun hm hb hshort => hsaw (h hm hb hshort)
  | install w cur =>
    simp only [Shared.advanceProducer] at hs
    split at hs
    · cases hs
    · split at hs <;> cases hs <;> exact fun hm hb hshort => hsaw (h hm hb hshort)
  | write w =>
    simp only [Shared.advanceProducer] at hs
    split at hs
    · cases hs
    · simp only [Option.some.injEq, Prod.mk.injEq] at hs
      obtain ⟨rfl, rfl⟩ := hs
      split <;> exact fun hm hb hshort => hsaw (h hm hb hshort)
  | publish c d =>
    cases hs
    exact h
  | lenTail =>
    cases hs
    exact le_rfl
  | lenDrained tail =>
    cases hs
    intro hr
    have hcap : shape.cap ≤ wrappingSub tail s.drained := by
      have := of_decide_eq_true hr
      omega
    have hsub := le_sub_of_le_wrappingSub (hlen tail rfl) hcap
    have htail : tail ≤ s.gTail := h
    have hpos := shape.cap_pos
    apply hfull
    show s.drained + shape.cap ≤ s.gTail
    omega

end Producer

/-! ### What the calls have seen -/

/-- The channel, and which calls have seen it full. -/
structure Watched (T : Type*) where
  system : System T
  saw : ℕ → Bool

namespace Watched

/-- What a call has seen after a step. Between two calls nothing is seen, and a new call begins
with what it sees then. -/
def watch (before after : Producer T) (saw full : Bool) : Bool :=
  if before.resting then (if after.resting then saw else full) else saw || full

/-- A new channel. -/
def init (shape : Shape) (publishChunk : ℕ) : Watched T :=
  ⟨.init shape publishChunk, fun _ => false⟩

def step (shape : Shape) (w : Watched T) (a : Action T) : Option (Watched T) :=
  (w.system.step shape a).map fun t => {
    system := t
    saw := fun p =>
      watch (w.system.producer p) (t.producer p) (w.saw p) (t.shared.IsFull shape) }

/-- Who reported the channel full has seen it full during the call. -/
def Sound (w : Watched T) : Prop :=
  ∀ p r, w.system.producer p = .done r → r.isVerdict → w.saw p

/-- What holds along the runs whose verdicts load in order. -/
def Inv (w : Watched T) : Prop := ∀ p, (w.system.producer p).Ok w.system.shared (w.saw p)

theorem Inv.toSound {w : Watched T} (h : w.Inv) : w.Sound := by
  intro p r hp hr
  have hok := h p
  rw [hp] at hok
  exact hok hr

variable {w w' : Watched T} {a : Action T} {s t : System T} {publishChunk : ℕ}

theorem watch_of_call {before after : Producer T} {saw full : Bool} (h : before.resting = false) :
    watch before after saw full = (saw || full) := by
  simp [watch, h]

theorem ok_of_still {pc : Producer T} {saw full : Bool} {u v : Shared T} (h : pc.Ok u saw)
    (hg : u.gTail ≤ v.gTail) : pc.Ok v (watch pc pc saw full) := by
  refine h.mono hg fun hsaw => ?_
  unfold watch
  split <;> simp [hsaw]

theorem Inv.move (h : w.Inv) {p : ℕ} {pc : Producer T}
    (ht : t.producer = update w.system.producer p pc)
    (hg : w.system.shared.gTail ≤ t.shared.gTail)
    (hpc : pc.Ok t.shared
      (watch (w.system.producer p) pc (w.saw p) (t.shared.IsFull shape))) :
    ∀ q, (t.producer q).Ok t.shared
      (watch (w.system.producer q) (t.producer q) (w.saw q) (t.shared.IsFull shape)) := by
  intro q
  rw [ht]
  by_cases hq : q = p
  · subst hq
    rwa [update_self]
  · rw [update_of_ne hq]
    exact ok_of_still (h q) hg

theorem Inv.rest (h : w.Inv) (ht : t.producer = w.system.producer)
    (hg : w.system.shared.gTail ≤ t.shared.gTail) :
    ∀ q, (t.producer q).Ok t.shared
      (watch (w.system.producer q) (t.producer q) (w.saw q) (t.shared.IsFull shape)) := by
  intro q
  rw [ht]
  exact ok_of_still (h q) hg

theorem Inv.step (h : w.Inv) (hC : w.system.InOrder a) (hs : w.step shape a = some w') :
    w'.Inv := by
  obtain ⟨t, ht, rfl⟩ := map_eq_some_iff.mp hs
  cases a with
  | send p c =>
    simp only [System.step] at ht
    split at ht <;> cases ht
    next hok =>
    refine h.move rfl le_rfl ?_
    simp only [Bool.and_eq_true, Bool.not_eq_true', List.isEmpty_eq_false_iff] at hok
    exact hok.1.1.2
  | isFull p =>
    simp only [System.step] at ht
    split at ht <;> cases ht
    exact h.move rfl le_rfl trivial
  | producer p =>
    obtain ⟨⟨u, pc⟩, hu, rfl⟩ := map_eq_some_iff.mp ht
    have hcall : (w.system.producer p).resting = false := by
      cases hp : w.system.producer p <;> first | rfl | simp [hp, Shared.advanceProducer] at hu
    refine h.move rfl (Shared.advanceProducer_frame hu).2.2 ?_
    rw [watch_of_call hcall]
    refine (h p).advance hu ?_ ?_ (fun hsaw => by simp [hsaw]) (fun hfull => by simp [hfull])
    · intro c runCap g hp hwaits
      simp only [System.InOrder, hp] at hC
      exact hC hwaits
    · intro tail hp
      simpa only [System.InOrder, hp] using hC
  | retry p m =>
    simp only [System.step] at ht
    split at ht
    · next c hp =>
      split at ht <;> cases ht
      have hok := h p
      rw [hp] at hok
      exact h.move rfl le_rfl (Producer.Ok.attempt hok)
    · cases ht
  | publishFromDrained p =>
    simp only [System.step] at ht
    split at ht <;> cases ht
    next c hp =>
    have hok := h p
    rw [hp] at hok
    exact h.move rfl le_rfl hok
  | giveUp p =>
    simp only [System.step] at ht
    split at ht <;> cases ht
    exact h.move rfl le_rfl fun hr => by cases hr
  | close handle | dropReceiver =>
    cases ht
    exact h.rest rfl le_rfl
  | deq once max =>
    simp only [System.step] at ht
    split at ht
    · split at ht <;> cases ht <;> exact h.rest rfl le_rfl
    · cases ht
  | flushProgress | setPublishChunk v =>
    simp only [System.step] at ht
    split at ht <;> cases ht
    exact h.rest rfl le_rfl
  | consumer waits =>
    obtain ⟨⟨u, k, item⟩, hu, rfl⟩ := map_eq_some_iff.mp ht
    exact h.rest rfl (Shared.advanceConsumer_gTail hu).ge

theorem inv_init : (init shape publishChunk : Watched T).Inv := fun _ => trivial

/-- Capacity 2, as `bounded` builds it. -/
def two : Shape := .new 2 128 (by decide)

def single (item : ℕ) : Call ℕ := ⟨0, false, false, [item], 0⟩

/-- Two items are sent, and a `try_send` of a third one. -/
def filled : List (Action ℕ) :=
  Action.send 1 (single 5) :: List.replicate 8 (Action.producer 1) ++
    Action.send 1 (single 6) :: List.replicate 8 (Action.producer 1) ++
    Action.send 0 (single 7) :: List.replicate 5 (Action.producer 0)

/-- `is_full` loads the tail, one item is sent and received, and `is_full` loads `drained`. -/
def overtaken : List (Action ℕ) :=
  [Action.isFull 0, .producer 0] ++
    Action.send 1 (single 5) :: List.replicate 8 (Action.producer 1) ++
    Action.deq true 1 :: List.replicate 4 (Action.consumer false) ++ [Action.producer 0]

/-- A call has returned a verdict. -/
def verdict : Producer ℕ → Bool
  | .done r => r.isVerdict
  | _ => false

theorem exists_of_verdict {pc : Producer ℕ} (h : verdict pc) : ∃ r, pc = .done r ∧ r.isVerdict := by
  cases pc with
  | done r => exact ⟨r, rfl, h⟩
  | _ => cases h

/-- `InOrder` for verdicts on what a producer has loaded. -/
def inOrder (s : System ℕ) : Action ℕ → Bool
  | .producer p =>
    match s.producer p with
    | .window .cold _ _ g => s.shared.drained ≤ g
    | .lenDrained tail => s.shared.drained ≤ tail
    | _ => true
  | _ => true

theorem inOrder_of_true (w : Watched ℕ) (a : Action ℕ) (h : inOrder w.system a) :
    w.system.InOrder a := by
  cases a with
  | producer p =>
    simp only [inOrder] at h
    simp only [System.InOrder]
    cases hp : w.system.producer p with
    | window m c cap g =>
      rw [hp] at h
      cases m with
      | hot => trivial
      | cold => exact fun _ => of_decide_eq_true h
    | lenDrained tail =>
      rw [hp] at h
      exact of_decide_eq_true h
    | _ => trivial
  | _ => trivial

end Watched

end Fibre.Channels.Mpsc
