import Fibre.Channels.Mpsc.FullVerdicts
import Fibre.Channels.Mpsc.LedgerSteps

/-!
# The places of the chunk table

A producer takes the place of its ticket's chunk over when the chunk that is there is retired, and
does not look whether it leaves a chunk out. The table has places for the capacity and `SLACK` more
tickets. As long as the claims keep to that, a place never goes past a ticket that is not resolved,
and the chunk that a producer finds in its place is retired already.
-/

namespace Fibre.Channels.Mpsc

open Machine Function Option

variable {T : Type*} {shape : Shape}

theorem Shape.add_n_le {a b : ℕ} (hlt : a < b) (h : shape.place a = shape.place b) :
    a + shape.n ≤ b := by
  have hdvd := (Nat.modEq_iff_dvd' hlt.le).mp h
  have hle := Nat.le_of_dvd (Nat.sub_pos_of_lt hlt) hdvd
  omega

/-- The layout has places for what is claimed, wherever the consumer is in its chunk. -/
theorem Shape.new_room (cap chunkFloor : ℕ) (h : 0 < chunkFloor) :
    let shape := Shape.new cap chunkFloor h
    shape.cap + SLACK + shape.chunkCap ≤ shape.n * shape.chunkCap := by
  intro shape
  have hlt := Nat.lt_div_mul_add (a := shape.cap + SLACK + shape.chunkCap - 1) shape.chunkCap_pos
  have hn : shape.n = (shape.cap + SLACK + shape.chunkCap - 1) / shape.chunkCap + 2 := rfl
  rw [hn, Nat.add_mul]
  omega

namespace Shared

variable {s u : Shared T} {closed : ℕ → Bool} {pc pc' : Producer T} {t : ℕ}

theorem advanceProducer_id (h : s.advanceProducer shape closed pc = some (u, pc')) :
    u.id = s.id ∨ ∃ c, (∃ t, pc.holds t ∧ shape.chunk t = c) ∧
      u.id = update s.id (shape.place c) c := by
  cases pc with
  | install w cur =>
    simp only [advanceProducer] at h
    split at h
    · cases h
    · next t v rest htodo =>
      split at h <;> cases h
      · exact .inr ⟨_, ⟨t, by simp [Producer.holds, htodo], rfl⟩, rfl⟩
      · exact .inl rfl
  | _ =>
    left
    simp only [advanceProducer] at h
    try split at h
    all_goals cases h
    all_goals rfl

theorem advanceProducer_holds (h : s.advanceProducer shape closed pc = some (u, pc'))
    (ht : pc'.holds t) : pc.holds t ∨ ∃ m c k, pc = .claim m c k ∧ t < s.gTail + k := by
  cases pc with
  | idle | waiting c | done r => cases h
  | claim m c k =>
    cases h
    exact .inr ⟨m, c, k, rfl, ht.2⟩
  | credit m c t₀ k =>
    cases h
    exact .inl (mem_map_fst_writes.mp ht)
  | resident w =>
    simp only [advanceProducer] at h
    split at h <;> cases h
    · exact absurd ht ((@Ledger.Inv.finish_quiet _ shape 0 w s []).1 t)
    · split at ht <;> exact .inl ht
  | retired w cur =>
    simp only [advanceProducer] at h
    split at h <;> cases h
    exact .inl ht
  | install w cur =>
    simp only [advanceProducer] at h
    split at h
    · cases h
    · split at h <;> cases h <;> exact .inl ht
  | write w =>
    simp only [advanceProducer] at h
    split at h
    · cases h
    · next htodo =>
      cases h
      left
      show t ∈ w.todo.map Prod.fst
      rw [htodo]
      split at ht <;> exact List.mem_cons_of_mem _ ht
  | enter c | again m c =>
    cases h
    split at ht
    · exact ht.elim
    · exact absurd ht ((@Ledger.Inv.attempt_quiet _ shape 0 _ c s []).1 t)
  | window m c r g =>
    cases h
    split at ht
    · exact absurd ht ((@Ledger.Inv.closedWindow_quiet _ shape 0 m c s []).1 t)
    · exact ht.elim
  | runCap m c | gate m c r | publish c d | lenTail | lenDrained tail =>
    cases h
    exact ht.elim

theorem advanceConsumer_id {waits : Bool} {k k' : Consumer T} {item : Option T}
    (h : s.advanceConsumer shape waits k = some (u, k', item)) :
    u.id = s.id ∧ s.head.cid ≤ u.head.cid := by
  cases k <;> simp only [advanceConsumer] at h <;> try split at h
  all_goals try split at h
  all_goals cases h
  all_goals exact ⟨rfl, by simp [take, setSlot]⟩

end Shared

namespace System

variable {s t : System T} {a : Action T}

/-- A claim leaves at most `SLACK` tickets beyond the capacity that are not drained. -/
def withinSlack (shape : Shape) (s : System T) : Action T → Bool
  | .producer p =>
    match s.producer p with
    | .claim _ _ k => s.shared.gTail + k ≤ s.shared.head.pos + shape.cap + SLACK
    | _ => true
  | _ => true

theorem step_cases (hs : s.step shape a = some t) :
    (∃ p u pc, a = .producer p ∧
      s.shared.advanceProducer shape s.closed (s.producer p) = some (u, pc) ∧ t = s.moved p pc u) ∨
    (t.shared.id = s.shared.id ∧ s.shared.head.cid ≤ t.shared.head.cid ∧ t.held ⊆ s.held) := by
  have hset : ∀ p (pc : Producer T), (∀ x, ¬ pc.holds x) → (s.moved p pc s.shared).held ⊆ s.held := by
    intro p pc hpc x hx
    rcases mem_held_moved.mp hx with hx | ⟨q, -, hq⟩
    · exact absurd hx (hpc x)
    · exact ⟨q, hq⟩
  cases a with
  | producer p =>
    obtain ⟨⟨u, pc⟩, hadvance, rfl⟩ := map_eq_some_iff.mp hs
    exact .inl ⟨p, u, pc, rfl, hadvance, rfl⟩
  | consumer waits =>
    obtain ⟨⟨u, k, item⟩, hadvance, rfl⟩ := map_eq_some_iff.mp hs
    obtain ⟨hid, hcid⟩ := Shared.advanceConsumer_id hadvance
    exact .inr ⟨hid, hcid, subset_rfl⟩
  | retry p m =>
    simp only [step] at hs
    split at hs
    · split at hs <;> cases hs
      exact .inr ⟨rfl, le_rfl, hset p _
        (@Ledger.Inv.attempt_quiet _ shape 0 _ _ s.shared []).1⟩
    · cases hs
  | send p c | isFull p | publishFromDrained p | giveUp p =>
    simp only [step] at hs
    split at hs <;> cases hs
    exact .inr ⟨rfl, le_rfl, hset p _ fun _ hx => hx⟩
  | close handle | dropReceiver =>
    cases hs
    exact .inr ⟨rfl, le_rfl, subset_rfl⟩
  | deq once max =>
    simp only [step] at hs
    split at hs
    · split at hs <;> cases hs <;> exact .inr ⟨rfl, le_rfl, subset_rfl⟩
    · cases hs
  | flushProgress | setPublishChunk v =>
    simp only [step] at hs
    split at hs <;> cases hs
    exact .inr ⟨rfl, le_rfl, subset_rfl⟩

end System

namespace Ledger

variable {l l' : Ledger T} {a : Action T} {t : ℕ}

/-- The tickets that are not resolved are in the table's reach, and from the consumer's chunk on no
place is ahead. -/
structure Placed (shape : Shape) (l : Ledger T) : Prop where
  inv : l.Inv shape
  within : ∀ t ∈ l.system.held, shape.chunk t < l.system.shared.head.cid + shape.n
  ahead : ∀ c, l.system.shared.head.cid ≤ c → l.system.shared.id (shape.place c) ≤ c

theorem Placed.cid_le_chunk (h : l.Placed shape) (ht : t ∈ l.system.held) :
    l.system.shared.head.cid ≤ shape.chunk t := by
  rw [← h.inv.table.retired]
  exact h.inv.table.retired_le_chunk (h.inv.table.held_ge t ht)

theorem Placed.step (h : l.Placed shape)
    (hroom : shape.cap + SLACK + shape.chunkCap ≤ shape.n * shape.chunkCap)
    (hC : l.system.withinSlack shape a) (hs : l.step shape a = some l') : l'.Placed shape := by
  refine ⟨h.inv.step hs, ?_, ?_⟩ <;> obtain ⟨s, hstep, rfl⟩ := map_eq_some_iff.mp hs <;>
    rcases System.step_cases hstep with ⟨p, u, pc, rfl, hadvance, rfl⟩ | ⟨hid, hcid, hheld⟩
  · intro t ht
    obtain ⟨-, hhead, -⟩ := Shared.advanceProducer_frame hadvance
    show _ < u.head.cid + _
    rw [hhead]
    rcases System.mem_held_moved.mp ht with ht | ⟨q, -, hq⟩
    · rcases Shared.advanceProducer_holds hadvance ht with hold | ⟨m, c, k, hpc, hlt⟩
      · exact h.within t ⟨p, hold⟩
      · -- the ticket is new, and the consumer is in its chunk or at its end
        simp only [System.withinSlack, hpc, decide_eq_true_eq] at hC
        have hpos := h.inv.table.pos_eq
        have hidx := h.inv.table.idx_le
        apply (Nat.div_lt_iff_lt_mul shape.chunkCap_pos).mpr
        rw [Nat.add_mul]
        omega
    · exact h.within t ⟨q, hq⟩
  · exact fun t ht => (h.within t (hheld ht)).trans_le (Nat.add_le_add_right hcid _)
  · intro c hc
    obtain ⟨-, hhead, -⟩ := Shared.advanceProducer_frame hadvance
    change u.head.cid ≤ c at hc
    rw [hhead] at hc
    show u.id _ ≤ c
    rcases Shared.advanceProducer_id hadvance with hid | ⟨c', ⟨t, hold, rfl⟩, hid⟩
    · rw [hid]
      exact h.ahead c hc
    · rw [hid, update_apply]
      split_ifs with hplace
      · -- a chunk a table behind would be before the consumer's
        by_contra hlt
        have hadd := shape.add_n_le (not_le.mp hlt) hplace
        have hwithin := h.within t ⟨p, hold⟩
        omega
      · exact h.ahead c hc
  · intro c hc
    show s.shared.id _ ≤ c
    rw [hid]
    exact h.ahead c (hcid.trans hc)

end Ledger

end Fibre.Channels.Mpsc
