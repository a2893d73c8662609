import Mathlib.Data.List.TakeWhile
import Fibre.Channels.Mpsc.Ledger

/-!
# The steps of the ledger

The invariant of the ledger holds in every state that any parties can reach, with any number of
producers.
-/

namespace Fibre.Channels.Mpsc

open Machine List Option

variable {T : Type*} {shape : Shape}

theorem Shared.chunk_of_mem_segment {e f : ℕ × Option T} {rest : List (ℕ × Option T)}
    (hf : f ∈ (e :: rest).take (segment shape (e :: rest))) :
    shape.chunk f.1 = shape.chunk e.1 := by
  obtain ⟨t, v⟩ := e
  rw [segment, Nat.add_comm, take_succ_cons] at hf
  rcases mem_cons.mp hf with rfl | hmem
  · rfl
  · rw [← prefix_iff_eq_take.mp ( takeWhile_prefix _)] at hmem
    have hp := mem_takeWhile_imp hmem
    simp only [Bool.and_eq_true, decide_eq_true_eq] at hp
    exact hp.1

theorem Shared.segment_pos (e : ℕ × Option T) (rest : List (ℕ × Option T)) :
    0 < segment shape (e :: rest) := by
  rw [segment]
  exact Nat.add_pos_left Nat.one_pos _

namespace Ledger

variable {l l' : Ledger T} {p : ℕ} {pc : Producer T} {u : Shared T}

namespace Inv

theorem attempt_quiet (m : Mode) (c : Call T) (s : Shared T) (accepted : List (Entry T)) :
    (∀ t, ¬ (Producer.attempt m c).holds t) ∧
      (Producer.attempt m c).Knows shape s accepted p := by
  unfold Producer.attempt
  split
  · next hbatch => exact ⟨fun _ ht => ht, hbatch⟩
  · exact ⟨fun _ ht => ht, fun _ => le_rfl⟩

theorem closedWindow_quiet (m : Mode) (c : Call T) (s : Shared T) (accepted : List (Entry T)) :
    (∀ t, ¬ (Producer.closedWindow m c).holds t) ∧
      (Producer.closedWindow m c).Knows shape s accepted p := by
  unfold Producer.closedWindow
  split
  · exact ⟨fun _ ht => ht, trivial⟩
  · cases m with
    | hot =>
      dsimp only
      split
      · exact ⟨fun _ ht => ht, trivial⟩
      · exact attempt_quiet _ _ _ _
    | cold => exact ⟨fun _ ht => ht, trivial⟩

theorem finish_quiet (w : Writes T) (s : Shared T) (accepted : List (Entry T)) :
    (∀ t, ¬ (Producer.finish w).holds t) ∧ (Producer.finish w).Knows shape s accepted p := by
  unfold Producer.finish
  split
  · exact ⟨fun _ ht => ht, trivial⟩
  split
  · exact attempt_quiet _ _ _ _
  split
  · exact ⟨fun _ ht => ht, trivial⟩
  split
  · cases w.mode with
    | hot => exact ⟨fun _ ht => ht, trivial⟩
    | cold => exact ⟨fun _ ht => ht, trivial⟩
  · exact ⟨fun _ ht => ht, trivial⟩

theorem pass (h : l.Inv shape) (hp : ∀ t, ¬ (l.system.producer p).holds t)
    (hpc : (∀ t, ¬ pc.holds t) ∧ pc.Knows shape l.system.shared l.accepted p) :
    Inv shape ⟨l.system.moved p pc l.system.shared, l.accepted⟩ :=
  h.quiet h.progress_le (fun t => iff_of_false (hpc.1 t) (hp t)) hpc.2

/-- The tickets that are found to be in the window are less than the capacity away from the
cursor. -/
theorem lt_of_valid (h : l.Inv shape) {m : Mode} {c : Call T} {t k : ℕ}
    (hp : l.system.producer p = .credit m c t k) (hlt : l.system.shared.gTail < 2 ^ 64) (v : ℕ)
    (hv : v < Shared.valid shape c t k (l.system.shared.counter m)) (hk : v < k) :
    t + v < l.system.shared.head.pos + shape.cap := by
  have hknows := h.knows p
  rw [hp] at hknows
  have hmem : t + v ∈ l.system.held := ⟨p, by
    rw [hp]
    exact ⟨Nat.le_add_right t v, Nat.add_lt_add_left hk t⟩⟩
  have hcounter : l.system.shared.counter m ≤ l.system.shared.head.pos := by
    cases m with
    | hot => exact h.progress_le
    | cold => exact h.drained_le
  unfold Shared.valid at hv
  split at hv
  · omega
  · next hbatch =>
    split at hv
    · next hcredit =>
      -- a single ticket, and the counter is not beyond it
      have hone : k ≤ 1 := hknows.1 (Bool.not_eq_true _ ▸ hbatch)
      obtain rfl : v = 0 := by omega
      have hge := h.table.held_ge _ hmem
      have hlt' := h.table.held_lt _ hmem
      rw [Nat.add_zero] at hge hlt' ⊢
      rw [wrappingSub_of_le (hcounter.trans hge) (hlt'.trans hlt)] at hcredit
      omega
    · omega

theorem produce (h : l.Inv shape)
    (hs : l.system.shared.advanceProducer shape l.system.closed (l.system.producer p) =
      some (u, pc)) :
    Inv shape ⟨l.system.moved p pc u, l.accepted ++ l.system.accepts shape p⟩ := by
  have hknows := h.knows p
  have hstill : ∀ {x : Producer T}, l.system.producer p = x → (∀ m c t k, x ≠ .credit m c t k) →
      l.accepted ++ l.system.accepts shape p = l.accepted := by
    intro x hp hx
    unfold System.accepts
    rw [hp]
    cases x with
    | credit m c t k => exact absurd rfl (hx m c t k)
    | _ => exact append_nil _
  cases hp : l.system.producer p with
  | credit m c t k =>
    rw [hp] at hs
    cases hs
    rw [System.accepts, hp]
    exact h.credit hp rfl fun hlt v hv hk => h.lt_of_valid hp hlt v hv hk
  | idle | waiting c | done r => simp [hp, Shared.advanceProducer] at hs
  | claim m c k =>
    rw [hstill hp (by simp)]
    rw [hp] at hs hknows
    cases hs
    refine h.claim (fun t => ?_) hknows
    rw [hp]
    exact id
  | resident w =>
    rw [hstill hp (by simp)]
    rw [hp] at hknows
    simp only [hp, Shared.advanceProducer] at hs
    split at hs
    · next htodo =>
      cases hs
      refine h.pass (fun t => ?_) (finish_quiet _ _ _)
      rw [hp, Producer.holds, htodo]
      exact not_mem_nil
    · next t v rest htodo =>
      cases hs
      refine h.quiet h.progress_le (fun t => ?_) ?_
      · rw [hp]
        split <;> rfl
      · split
        · next hres =>
          refine ⟨⟨hknows.values, hknows.nodup⟩, ?_, fun f hf => ?_⟩
          · dsimp only
            rw [htodo]
            exact Shared.segment_pos _ _
          · -- the whole segment is in the chunk that is in place
            dsimp only at hf
            rw [htodo] at hf
            rw [Shared.Resident, Shared.chunk_of_mem_segment hf]
            exact hres
        · exact hknows
  | retired w cur =>
    rw [hstill hp (by simp)]
    rw [hp] at hknows
    simp only [hp, Shared.advanceProducer] at hs
    split at hs
    · cases hs
    · next hretired =>
      cases hs
      refine h.quiet h.progress_le (fun t => ?_) ⟨hknows, by omega⟩
      rw [hp]
      rfl
  | install w cur =>
    rw [hstill hp (by simp)]
    rw [hp] at hknows
    simp only [hp, Shared.advanceProducer] at hs
    split at hs
    · cases hs
    · next t v rest htodo =>
      split at hs
      · next hid =>
        cases hs
        refine h.install (e := (t, v)) hp hid rfl ?_ fun f hf => ?_
        · dsimp only
          rw [htodo]
          exact Shared.segment_pos _ _
        · dsimp only at hf
          rw [htodo] at hf
          exact Shared.chunk_of_mem_segment hf
      · cases hs
        refine h.quiet h.progress_le (fun t => ?_) hknows.1
        rw [hp]
        rfl
  | write w =>
    rw [hstill hp (by simp)]
    rw [hp] at hknows
    simp only [hp, Shared.advanceProducer] at hs
    split at hs
    · cases hs
    · next t v rest htodo =>
      cases hs
      refine @fill _ _ _ _ _ h w ⟨w.mode, w.call, rest, w.segment - 1, w.short⟩ (t, v) _ hp htodo
        rfl ?_
      split
      · exact Or.inl rfl
      · next hseg =>
        have := hknows.2.1
        exact Or.inr ⟨rfl, Nat.pos_of_ne_zero hseg, by dsimp only; omega⟩
  | enter c =>
    rw [hstill hp (by simp)]
    rw [hp] at hs
    cases hs
    refine h.pass (fun t => by rw [hp]; exact id) ?_
    split
    · exact ⟨fun _ ht => ht, trivial⟩
    · exact attempt_quiet _ _ _ _
  | again m c =>
    rw [hstill hp (by simp)]
    rw [hp] at hs
    cases hs
    refine h.pass (fun t => by rw [hp]; exact id) ?_
    split
    · exact ⟨fun _ ht => ht, trivial⟩
    · exact attempt_quiet _ _ _ _
  | runCap m c =>
    rw [hstill hp (by simp)]
    rw [hp] at hs hknows
    cases hs
    refine h.pass (fun t => by rw [hp]; exact id) ⟨fun _ ht => ht, fun hbatch => ?_⟩
    -- only a batch loads the length of a run
    exact absurd (hbatch.symm.trans hknows) Bool.false_ne_true
  | gate m c r =>
    rw [hstill hp (by simp)]
    rw [hp] at hs hknows
    cases hs
    exact h.pass (fun t => by rw [hp]; exact id) ⟨fun _ ht => ht, hknows⟩
  | window m c r g =>
    rw [hstill hp (by simp)]
    rw [hp] at hs hknows
    cases hs
    refine h.pass (fun t => by rw [hp]; exact id) ?_
    split
    · exact closedWindow_quiet _ _ _ _
    · exact ⟨fun _ ht => ht, fun hbatch => (min_le_right _ _).trans (hknows hbatch)⟩
  | publish c d =>
    rw [hstill hp (by simp)]
    rw [hp] at hs hknows
    cases hs
    refine h.quiet (max_le h.progress_le hknows) (fun t => ?_) trivial
    rw [hp]
    rfl
  | lenTail =>
    rw [hstill hp (by simp)]
    rw [hp] at hs
    cases hs
    exact h.pass (fun t => by rw [hp]; exact id) ⟨fun _ ht => ht, trivial⟩
  | lenDrained tail =>
    rw [hstill hp (by simp)]
    rw [hp] at hs
    cases hs
    exact h.pass (fun t => by rw [hp]; exact id) ⟨fun _ ht => ht, trivial⟩

/-! ### Every step -/

theorem set (h : l.Inv shape) (hp : ∀ t, ¬ (l.system.producer p).holds t)
    (hpc : (∀ t, ¬ pc.holds t) ∧ pc.Knows shape l.system.shared l.accepted p) :
    Inv shape ⟨l.system.setProducer p pc, l.accepted⟩ := h.pass hp hpc

theorem init (shape : Shape) (publishChunk : ℕ) : (init shape publishChunk : Ledger T).Inv shape where
  table := by
    have hheld : (System.init shape publishChunk : System T).held = ∅ := by
      ext t
      exact iff_of_false (fun ⟨_, hq⟩ => hq) id
    show Shared.Table shape _ (System.init shape publishChunk : System T).held _
    rw [hheld]
    exact Shared.Table.new publishChunk
  alone _ _ _ hp := absurd hp id
  knows _ := trivial
  consumer := trivial
  progress_le := Nat.zero_le _
  drained_le := Nat.zero_le _
  nodup := nodup_nil
  ordered _ := Pairwise.nil
  received := rfl
  within _ _ he := absurd he not_mem_nil

theorem not_holds_of_resting {pc : Producer T} (h : pc.resting) (t : ℕ) : ¬ pc.holds t := by
  cases pc with
  | idle | done r => exact id
  | _ => simp [Producer.resting] at h

theorem step (h : l.Inv shape) {a : Action T} (hs : l.step shape a = some l') : l'.Inv shape := by
  obtain ⟨s, hstep, rfl⟩ := map_eq_some_iff.mp hs
  have hsame : Shared.SameTable l.system.shared l.system.shared :=
    ⟨rfl, rfl, rfl, rfl, rfl, rfl, rfl⟩
  cases a with
  | producer p =>
    simp only [System.step, map_eq_some_iff] at hstep
    obtain ⟨⟨u, pc⟩, hadvance, rfl⟩ := hstep
    exact h.produce hadvance
  | send p c =>
    simp only [System.step, ite_none_right_eq_some, Bool.and_eq_true] at hstep
    obtain ⟨⟨⟨⟨hresting, -⟩, -⟩, -⟩, hs'⟩ := hstep
    cases hs'
    rw [append_nil]
    exact h.set (not_holds_of_resting hresting) ⟨fun _ ht => ht, trivial⟩
  | isFull p =>
    simp only [System.step, ite_none_right_eq_some] at hstep
    obtain ⟨hresting, hs'⟩ := hstep
    cases hs'
    rw [append_nil]
    exact h.set (not_holds_of_resting hresting) ⟨fun _ ht => ht, trivial⟩
  | retry p m =>
    simp only [System.step] at hstep
    split at hstep
    · next c hp =>
      split at hstep
      · cases hstep
      · cases hstep
        rw [append_nil]
        exact h.set (fun t => by rw [hp]; exact id) (attempt_quiet _ _ _ _)
    · cases hstep
  | publishFromDrained p =>
    simp only [System.step] at hstep
    split at hstep
    · next c hp =>
      cases hstep
      rw [append_nil]
      exact h.set (fun t => by rw [hp]; exact id) ⟨fun _ ht => ht, h.drained_le⟩
    · cases hstep
  | giveUp p =>
    simp only [System.step] at hstep
    split at hstep
    · next c hp =>
      cases hstep
      rw [append_nil]
      exact h.set (fun t => by rw [hp]; exact id) ⟨fun _ ht => ht, trivial⟩
    · cases hstep
  | close handle =>
    cases hstep
    rw [append_nil]
    exact h.still rfl rfl hsame h.consumer h.progress_le h.drained_le
  | dropReceiver =>
    cases hstep
    rw [append_nil]
    exact h.still rfl rfl ⟨rfl, rfl, rfl, rfl, rfl, rfl, rfl⟩ (h.consumer.congr rfl rfl rfl)
      h.progress_le h.drained_le
  | deq once max =>
    simp only [System.step] at hstep
    split at hstep
    · rw [append_nil]
      split at hstep
      · cases hstep
        exact h.still rfl rfl hsame trivial h.progress_le h.drained_le
      · cases hstep
        refine h.still rfl rfl hsame ?_ h.progress_le h.drained_le
        dsimp only
        split <;> trivial
    · cases hstep
  | flushProgress =>
    simp only [System.step] at hstep
    split at hstep
    · cases hstep
      rw [append_nil]
      refine h.still rfl rfl hsame ?_ h.progress_le h.drained_le
      dsimp only
      split <;> trivial
    · cases hstep
  | setPublishChunk v =>
    simp only [System.step] at hstep
    split at hstep
    · cases hstep
      rw [append_nil]
      exact h.still rfl rfl ⟨rfl, rfl, rfl, rfl, rfl, rfl, rfl⟩ trivial h.progress_le h.drained_le
    · cases hstep
  | consumer waits =>
    simp only [System.step, map_eq_some_iff] at hstep
    obtain ⟨⟨u, pc, item⟩, hadvance, rfl⟩ := hstep
    rw [append_nil]
    exact h.consume hadvance

end Inv

end Ledger

end Fibre.Channels.Mpsc
