import Fibre.Cache.QueuedPolicy
import Fibre.Cache.S3Fifo

/-!
# The order in which S3-FIFO evicts

A turn of the eviction loop drops a stale entry, sends a key round, or takes it. Each turn leaves
less to do, so what the turns take until nothing is queued is a queue of all keys. All this holds
however many stamps were taken: an entry whose stamp has come round again is taken for its key's
own, which is then the one that is stale.
-/

namespace Fibre.Cache.S3Fifo

open CostQueue List

variable {K : Type*} [DecidableEq K]

/-- Takes the turns of the eviction loop until nothing is queued. -/
def drainTurns : ℕ → S3Fifo K → List (K × UInt64)
  | 0, _ => []
  | fuel + 1, s =>
    match s.evictTurn with
    | none => []
    | some (taken, s) => taken.toList ++ drainTurns fuel s

/-- The keys with their costs, in the order in which they are evicted. -/
def queue (s : S3Fifo K) : List (K × UInt64) := drainTurns s.evictTurns s

def costs (s : S3Fifo K) (key : K) : Option UInt64 := (s.metas.lookup key).map (·.cost)

/-- Each tracked key has an entry in the queue that its metadata names. -/
structure Tidy (s : S3Fifo K) : Prop where
  queued : ∀ k m, s.metas.lookup k = some m → (k, m.stamp) ∈ s.deque m.queue
  freq_le : ∀ k m, s.metas.lookup k = some m → m.freq ≤ 3

/-- How often a key goes round before it is evicted. -/
def rounds (metas : AList fun _ : K => S3Meta) (e : K × UInt32) : ℕ :=
  ((metas.lookup e.1).map S3Meta.freq).getD 0

/-- The turns that the main queue takes. -/
def mainWork (metas : AList fun _ : K => S3Meta) (l : List (K × UInt32)) : ℕ :=
  (l.map fun e => rounds metas e + 1).sum

/-- The turns that are left, at most. -/
def work (s : S3Fifo K) : ℕ := 2 * s.small.length + mainWork s.metas s.main

variable {s s' : S3Fifo K} {key k : K} {m : S3Meta} {q : S3Kind} {e : K × UInt32}
  {rest : List (K × UInt32)} {taken : Option (K × UInt64)}

/-! ### The calls but for eviction -/

theorem lookup_insert (metas : AList fun _ : K => S3Meta) (key k : K) (m : S3Meta) :
    (metas.insert key m).lookup k = if k = key then some m else metas.lookup k := by
  split_ifs with heq
  · rw [heq, AList.lookup_insert]
  · rw [AList.lookup_insert_ne heq]

theorem lookup_erase (metas : AList fun _ : K => S3Meta) (key k : K) :
    (metas.erase key).lookup k = if k = key then none else metas.lookup k := by
  split_ifs with heq
  · rw [heq, AList.lookup_erase]
  · rw [AList.lookup_erase_ne heq]

namespace Tidy

theorem new (capacity : UInt64) : (new capacity : S3Fifo K).Tidy :=
  ⟨fun _ _ hk => by simp [S3Fifo.new] at hk, fun _ _ hk => by simp [S3Fifo.new] at hk⟩

theorem modify (h : s.Tidy) (hl : s.metas.lookup key = some m) (m' : S3Meta)
    (hstamp : m'.stamp = m.stamp) (hqueue : m'.queue = m.queue) (hfreq : m'.freq ≤ 3)
    (hmetas : s'.metas = s.metas.insert key m') (hdeque : ∀ q, s'.deque q = s.deque q) :
    s'.Tidy := by
  constructor
  · intro k n hk
    rw [hmetas, lookup_insert] at hk
    rw [hdeque]
    split_ifs at hk with heq
    · obtain rfl := Option.some.inj hk
      rw [heq, hstamp, hqueue]
      exact h.queued key m hl
    · exact h.queued k n hk
  · intro k n hk
    rw [hmetas, lookup_insert] at hk
    split_ifs at hk
    · obtain rfl := Option.some.inj hk
      exact hfreq
    · exact h.freq_le k n hk

/-- A key queued under a new stamp, whatever was queued of it before. -/
theorem push (hqueued : ∀ k m, k ≠ key → s.metas.lookup k = some m → (k, m.stamp) ∈ s.deque m.queue)
    (hfreq : ∀ k m, s.metas.lookup k = some m → m.freq ≤ 3) (hl : s.metas.lookup key = some m)
    (q : S3Kind) : (s.push key q).Tidy := by
  constructor
  · intro k n hk
    rw [metas_push hl, lookup_insert] at hk
    rw [deque_push hl]
    split_ifs at hk with heq
    · obtain rfl := Option.some.inj hk
      rw [heq, if_pos rfl]
      exact mem_append_right _ mem_cons_self
    · have hmem := hqueued k n heq hk
      split_ifs
      · exact mem_append_left _ hmem
      · exact hmem
  · intro k n hk
    rw [metas_push hl, lookup_insert] at hk
    split_ifs at hk
    · obtain rfl := Option.some.inj hk
      exact hfreq key m hl
    · exact hfreq k n hk

theorem compact (h : s.Tidy) : s.compact.Tidy := by
  unfold S3Fifo.compact
  split_ifs
  · exact h
  refine ⟨fun k m hk => ?_, h.freq_le⟩
  have hkept := S3Fifo.Refines.mem_filter_live hk (h.queued k m hk)
  cases hq : m.queue <;> rw [hq] at hkept <;> exact hkept

theorem onAccess (h : s.Tidy) (key : K) : (s.onAccess key).Tidy := by
  unfold S3Fifo.onAccess
  cases hl : s.metas.lookup key with
  | none => exact h
  | some m =>
    exact h.modify hl { m with freq := min (m.freq + 1) 3 } rfl rfl (Nat.min_le_right _ _) rfl
      fun q => by cases q <;> rfl

theorem onAdmit (h : s.Tidy) (key : K) (cost : UInt64) : (s.onAdmit key cost).Tidy := by
  unfold S3Fifo.onAdmit
  cases hl : s.metas.lookup key with
  | some m =>
    exact h.modify hl { m with cost := cost } rfl rfl (h.freq_le key m hl) rfl
      fun q => by cases q <;> rfl
  | none =>
    refine compact (push (m := ⟨cost, 0, .small, 0⟩) ?_ ?_ (AList.lookup_insert _) _)
    · intro k n hne hk
      have hmem := h.queued k n (by rwa [AList.lookup_insert_ne hne] at hk)
      revert hmem
      cases n.queue <;> exact id
    · intro k n hk
      rw [lookup_insert] at hk
      split_ifs at hk
      · obtain rfl := Option.some.inj hk
        exact Nat.zero_le 3
      · exact h.freq_le k n hk

theorem onRemove (h : s.Tidy) (key : K) : (s.onRemove key).Tidy := by
  unfold S3Fifo.onRemove
  cases s.metas.lookup key with
  | none => exact h
  | some m =>
    constructor
    · intro k n hk
      rw [lookup_erase] at hk
      split_ifs at hk
      have hmem := h.queued k n hk
      revert hmem
      cases n.queue <;> exact id
    · intro k n hk
      rw [lookup_erase] at hk
      split_ifs at hk
      exact h.freq_le k n hk

theorem clear (s : S3Fifo K) : s.clear.Tidy :=
  ⟨fun _ _ hk => by simp [S3Fifo.clear] at hk, fun _ _ hk => by simp [S3Fifo.clear] at hk⟩

end Tidy

/-! ### One turn -/

theorem evictTurn_cases (ht : s.evictTurn = some (taken, s')) :
    ∃ q e rest, s.deque q = e :: rest ∧
      ((liveMeta s.metas q e = none ∧ taken = none ∧ s' = s.setDeque rest q) ∨
        ∃ m, liveMeta s.metas q e = some m ∧
          ((taken = some (e.1, m.cost) ∧ s'.metas = s.metas.erase e.1 ∧
              ∀ q', s'.deque q' = (s.setDeque rest q).deque q') ∨
            ∃ f stamp, taken = none ∧ (q = .small ∧ f = 0 ∨ q = .main ∧ f + 1 = m.freq) ∧
              s'.metas = s.metas.insert e.1 { m with freq := f, stamp := stamp, queue := .main } ∧
              s'.small = (s.setDeque rest q).small ∧
              s'.main = (s.setDeque rest q).main ++ [(e.1, stamp)])) := by
  unfold evictTurn at ht
  split at ht
  · cases ht
  next e rest hd =>
  refine ⟨s.turnQueue, e, rest, hd, ?_⟩
  cases hlive : liveMeta s.metas s.turnQueue e with
  | none =>
    obtain ⟨rfl, rfl⟩ : none = taken ∧ s.setDeque rest s.turnQueue = s' := by simpa [hlive] using ht
    exact .inl ⟨rfl, rfl, rfl⟩
  | some m =>
    refine .inr ⟨m, rfl, ?_⟩
    rw [hlive] at ht
    generalize s.turnQueue = q at *
    cases q with
    | small =>
      simp only at ht
      split_ifs at ht with hfreq
      · obtain ⟨rfl, rfl⟩ : none = taken ∧ _ = s' := by simpa using ht
        refine .inr ⟨0, UInt32.ofNat (s.nextStamp + 1), rfl, .inl ⟨rfl, rfl⟩, ?_, ?_, ?_⟩
        · rw [metas_push (AList.lookup_insert _), AList.insert_insert]
        · simp [S3Fifo.push, setDeque]
        · simp [S3Fifo.push, setDeque]
      · obtain ⟨rfl, rfl⟩ : some _ = taken ∧ _ = s' := by simpa using ht
        exact .inl ⟨rfl, rfl, fun q' => by cases q' <;> rfl⟩
    | main =>
      simp only at ht
      split_ifs at ht with hfreq
      · obtain ⟨rfl, rfl⟩ : none = taken ∧ _ = s' := by simpa using ht
        refine .inr ⟨m.freq - 1, UInt32.ofNat (s.nextStamp + 1), rfl, .inr ⟨rfl, by omega⟩, ?_, ?_,
          ?_⟩
        · rw [metas_push (AList.lookup_insert _), AList.insert_insert]
        · simp [S3Fifo.push, setDeque]
        · simp [S3Fifo.push, setDeque]
      · obtain ⟨rfl, rfl⟩ : some _ = taken ∧ _ = s' := by simpa using ht
        exact .inl ⟨rfl, rfl, fun q' => by cases q' <;> rfl⟩

theorem deque_of_evictTurn_none (ht : s.evictTurn = none) (q : S3Kind) : s.deque q = [] := by
  have hnil : s.deque s.turnQueue = [] := by
    cases hd : s.deque s.turnQueue with
    | nil => rfl
    | cons e rest =>
      unfold evictTurn at ht
      rw [hd] at ht
      simp only at ht
      split at ht
      · cases ht
      · split_ifs at ht
      · split_ifs at ht
  unfold turnQueue at hnil
  split_ifs at hnil with hq
  · exact absurd hnil hq.1
  · have hmain : s.main = [] := hnil
    have hsmall : s.small = [] := by
      by_contra hne
      exact hq ⟨hne, .inr hmain⟩
    cases q with
    | small => exact hsmall
    | main => exact hmain

omit [DecidableEq K] in
theorem mem_setDeque (hd : s.deque q = e :: rest) {d : K × UInt32} {q' : S3Kind}
    (hmem : d ∈ s.deque q') (hne : q' = q → d ≠ e) : d ∈ (s.setDeque rest q).deque q' := by
  rw [deque_setDeque]
  split_ifs with hq
  · rw [hq, hd] at hmem
    exact (mem_cons.mp hmem).resolve_left (hne hq)
  · exact hmem

theorem Tidy.turn (h : s.Tidy) (ht : s.evictTurn = some (taken, s')) : s'.Tidy := by
  obtain ⟨q, e, rest, hd, ⟨hstale, -, rfl⟩ | ⟨m, hlive, hcase⟩⟩ := evictTurn_cases ht
  · -- a stale entry is no key's own
    have hmetas := (setDeque_frame s rest q).1
    constructor
    · intro k n hk
      rw [hmetas] at hk
      apply mem_setDeque hd (h.queued k n hk)
      rintro hq rfl
      rw [liveMeta_eq_some.mpr ⟨hk, rfl, hq⟩] at hstale
      cases hstale
    · intro k n hk
      exact h.freq_le k n (hmetas ▸ hk)
  · obtain ⟨hl, hstamp, hqueue⟩ := liveMeta_eq_some.mp hlive
    -- the entries of the other keys
    have hothers : ∀ k n, k ≠ e.1 → s.metas.lookup k = some n →
        (k, n.stamp) ∈ (s.setDeque rest q).deque n.queue := by
      intro k n hne hk
      apply mem_setDeque hd (h.queued k n hk)
      rintro - rfl
      exact hne rfl
    rcases hcase with ⟨-, hmetas, hdeque⟩ | ⟨f, stamp, -, hf, hmetas, hsmall, hmain⟩
    · constructor
      · intro k n hk
        rw [hmetas, lookup_erase] at hk
        split_ifs at hk with heq
        rw [hdeque]
        exact hothers k n heq hk
      · intro k n hk
        rw [hmetas, lookup_erase] at hk
        split_ifs at hk
        exact h.freq_le k n hk
    · constructor
      · intro k n hk
        rw [hmetas, lookup_insert] at hk
        split_ifs at hk with heq
        · obtain rfl := Option.some.inj hk
          show (k, stamp) ∈ s'.main
          rw [hmain, heq]
          exact mem_append_right _ mem_cons_self
        · have hmem := hothers k n heq hk
          cases hn : n.queue with
          | small =>
            rw [hn] at hmem
            show _ ∈ s'.small
            rw [hsmall]
            exact hmem
          | main =>
            rw [hn] at hmem
            show _ ∈ s'.main
            rw [hmain]
            exact mem_append_left _ hmem
      · intro k n hk
        rw [hmetas, lookup_insert] at hk
        split_ifs at hk
        · obtain rfl := Option.some.inj hk
          have hle := h.freq_le e.1 m hl
          show f ≤ 3
          omega
        · exact h.freq_le k n hk

theorem costs_turn_none (ht : s.evictTurn = some (none, s')) (k : K) : s'.costs k = s.costs k := by
  obtain ⟨q, e, rest, -, ⟨-, -, rfl⟩ | ⟨m, hlive, ⟨hno, -, -⟩ | ⟨f, stamp, -, -, hmetas, -, -⟩⟩⟩ :=
    evictTurn_cases ht
  · rw [costs, costs, (setDeque_frame s rest q).1]
  · cases hno
  · have hl := (liveMeta_eq_some.mp hlive).1
    rw [costs, costs, hmetas, lookup_insert]
    split_ifs with heq
    · rw [heq, hl]
      rfl
    · rfl

theorem costs_turn_some {kc : K × UInt64} (ht : s.evictTurn = some (some kc, s')) :
    s.costs kc.1 = some kc.2 ∧ ∀ k, s'.costs k = if k = kc.1 then none else s.costs k := by
  obtain ⟨q, e, rest, -, ⟨-, hno, -⟩ | ⟨m, hlive, ⟨heq, hmetas, -⟩ | ⟨f, stamp, hno, -⟩⟩⟩ :=
    evictTurn_cases ht
  · cases hno
  · obtain rfl := Option.some.inj heq
    have hl := (liveMeta_eq_some.mp hlive).1
    refine ⟨by rw [costs, hl]; rfl, fun k => ?_⟩
    rw [costs, costs, hmetas, lookup_erase]
    split_ifs <;> rfl
  · cases hno

theorem Tidy.costs_eq_none (h : s.Tidy) (ht : s.evictTurn = none) (k : K) : s.costs k = none := by
  cases hk : s.metas.lookup k with
  | none => rw [costs, hk]; rfl
  | some m =>
    have hmem := h.queued k m hk
    rw [deque_of_evictTurn_none ht] at hmem
    cases hmem

/-! ### The turns that are left -/

theorem mainWork_le (metas metas' : AList fun _ : K => S3Meta)
    (h : ∀ e, rounds metas' e ≤ rounds metas e) (l : List (K × UInt32)) :
    mainWork metas' l ≤ mainWork metas l :=
  sum_le_sum fun e _ => Nat.succ_le_succ (h e)

theorem mainWork_append (metas : AList fun _ : K => S3Meta) (l l' : List (K × UInt32)) :
    mainWork metas (l ++ l') = mainWork metas l + mainWork metas l' := by
  simp [mainWork]

theorem mainWork_cons (metas : AList fun _ : K => S3Meta) (e : K × UInt32)
    (l : List (K × UInt32)) : mainWork metas (e :: l) = rounds metas e + 1 + mainWork metas l := by
  simp [mainWork]

theorem work_setDeque (hd : s.deque q = e :: rest) :
    2 * (s.setDeque rest q).small.length + mainWork s.metas (s.setDeque rest q).main +
      (match q with
        | .small => 2
        | .main => rounds s.metas e + 1) = s.work := by
  cases q with
  | small =>
    have hs : s.small = e :: rest := hd
    simp only [setDeque, work, hs, length_cons]
    omega
  | main =>
    have hm : s.main = e :: rest := hd
    simp only [setDeque, work, hm, mainWork_cons]
    omega

theorem work_turn (ht : s.evictTurn = some (taken, s')) : s'.work < s.work := by
  obtain ⟨q, e, rest, hd, ⟨-, -, rfl⟩ | ⟨m, hlive, hcase⟩⟩ := evictTurn_cases ht
  · have hwork := work_setDeque hd
    have hmetas := (setDeque_frame s rest q).1
    rw [work, hmetas]
    cases q <;> simp only at hwork <;> omega
  · obtain ⟨hl, -, -⟩ := liveMeta_eq_some.mp hlive
    have hwork := work_setDeque hd
    rcases hcase with ⟨-, hmetas, hdeque⟩ | ⟨f, stamp, -, hf, hmetas, hsmall, hmain⟩
    · have hle := mainWork_le s.metas s'.metas (fun d => by
        rw [rounds, rounds, hmetas, lookup_erase]
        split_ifs
        · exact Nat.zero_le _
        · exact le_rfl) (s.setDeque rest q).main
      have hs : s'.small = (s.setDeque rest q).small := hdeque .small
      have hm : s'.main = (s.setDeque rest q).main := hdeque .main
      rw [work, hs, hm]
      cases q <;> simp only at hwork <;> omega
    · -- the key comes back with fewer rounds, or from the small queue with none
      have hround : rounds s.metas e = m.freq := by rw [rounds, hl]; rfl
      have hback : rounds s'.metas (e.1, stamp) = f := by
        rw [rounds, hmetas, AList.lookup_insert]
        rfl
      have hle := mainWork_le s.metas s'.metas (fun d => by
        rw [rounds, rounds, hmetas, lookup_insert]
        split_ifs with heq
        · rw [heq, hl]
          show f ≤ m.freq
          omega
        · exact le_rfl) (s.setDeque rest q).main
      rw [work, hsmall, hmain, mainWork_append, mainWork_cons, hback]
      rcases hf with ⟨rfl, rfl⟩ | ⟨rfl, hf⟩
      · simp only [mainWork, map_nil, sum_nil] at hwork hle ⊢
        omega
      · simp only [hround, mainWork, map_nil, sum_nil] at hwork hle ⊢
        omega

theorem Tidy.work_le (h : s.Tidy) : s.work ≤ s.evictTurns := by
  have hmain : ∀ l : List (K × UInt32), mainWork s.metas l ≤ 4 * l.length := by
    intro l
    induction l with
    | nil => exact le_rfl
    | cons e l ih =>
      have hround : rounds s.metas e ≤ 3 := by
        unfold rounds
        cases hk : s.metas.lookup e.1 with
        | none => exact Nat.zero_le 3
        | some m => exact h.freq_le e.1 m hk
      rw [mainWork_cons, length_cons]
      omega
  have hle := hmain s.main
  unfold work evictTurns
  omega

/-! ### The order of eviction -/

theorem drainTurns_steady {fuel fuel' : ℕ} (hfuel : s.work ≤ fuel) (hfuel' : s.work ≤ fuel') :
    drainTurns fuel' s = drainTurns fuel s := by
  -- with nothing left to do there is no turn
  have hstop : ∀ s : S3Fifo K, s.work = 0 → s.evictTurn = none := by
    intro s hzero
    cases ht : s.evictTurn with
    | none => rfl
    | some r => exact absurd (work_turn ht) (by omega)
  induction fuel generalizing s fuel' with
  | zero =>
    have hnone := hstop s (by omega)
    cases fuel' with
    | zero => rfl
    | succ fuel' => simp [drainTurns, hnone]
  | succ fuel ih =>
    cases ht : s.evictTurn with
    | none => cases fuel' <;> simp [drainTurns, ht]
    | some r =>
      have hlt := work_turn ht
      cases fuel' with
      | zero => omega
      | succ fuel' =>
        rw [drainTurns, drainTurns, ht]
        simp only
        rw [ih (by omega) (by omega : r.2.work ≤ fuel')]

theorem queue_of_none (ht : s.evictTurn = none) : s.queue = [] := by
  unfold queue
  cases s.evictTurns with
  | zero => rfl
  | succ n => rw [drainTurns, ht]

theorem Tidy.queue_turn (h : s.Tidy) (ht : s.evictTurn = some (taken, s')) :
    s.queue = taken.toList ++ s'.queue := by
  have hlt := work_turn ht
  have hle := h.work_le
  have hle' := (h.turn ht).work_le
  have hone : drainTurns (s.work + 1 + s'.evictTurns) s =
      taken.toList ++ drainTurns (s.work + s'.evictTurns) s' := by
    rw [Nat.add_right_comm, drainTurns, ht]
  have hrest : drainTurns (s.work + s'.evictTurns) s' = s'.queue :=
    drainTurns_steady hle' (by omega)
  rw [← hrest, ← hone]
  exact drainTurns_steady (by omega) hle

theorem Tidy.costOf_queue (h : s.Tidy) :
    (s.queue.map Prod.fst).Nodup ∧ ∀ k, s.costs k = costOf s.queue k := by
  induction hn : s.work using Nat.strong_induction_on generalizing s with
  | h n ih =>
    cases ht : s.evictTurn with
    | none =>
      rw [queue_of_none ht]
      exact ⟨nodup_nil, fun k => h.costs_eq_none ht k⟩
    | some r =>
      obtain ⟨taken, s'⟩ := r
      have hlt := work_turn ht
      obtain ⟨hnodup, hcosts⟩ := ih s'.work (by omega) (h.turn ht) rfl
      rw [h.queue_turn ht]
      cases taken with
      | none => exact ⟨hnodup, fun k => (costs_turn_none ht k).symm.trans (hcosts k)⟩
      | some kc =>
        obtain ⟨hkc, hafter⟩ := costs_turn_some ht
        have hout : kc.1 ∉ s'.queue.map Prod.fst := by
          rw [← costOf_eq_none, ← hcosts, hafter, if_pos rfl]
        refine ⟨nodup_cons.mpr ⟨hout, hnodup⟩, fun k => ?_⟩
        show s.costs k = costOf (kc :: s'.queue) k
        rw [costOf_cons, ← hcosts, hafter]
        split_ifs with heq
        · rw [heq, hkc]
        · rfl

/-- The eviction takes from the queue until the costs, added up, come to enough. -/
theorem Tidy.evictLoop_eq (h : s.Tidy) {fuel : ℕ} (hfuel : s.work ≤ fuel) (c freed : UInt64) :
    ∃ s' : S3Fifo K, s'.Tidy ∧ s'.queue = (drain Prod.snd c freed s.queue).2.2 ∧
      evictLoop fuel c freed s = (((drain Prod.snd c freed s.queue).1.map Prod.fst,
        (drain Prod.snd c freed s.queue).2.1), s') := by
  -- enough is taken, or there is no turn
  have hstop : ∀ (s : S3Fifo K) (freed : UInt64), s.Tidy → ¬ freed < c ∨ s.evictTurn = none →
      drain Prod.snd c freed s.queue = ([], freed, s.queue) := by
    intro s freed _ hcase
    cases hqueue : s.queue with
    | nil => rfl
    | cons e rest =>
      rcases hcase with hnot | hnone
      · rw [drain, if_neg hnot]
      · rw [queue_of_none hnone] at hqueue
        cases hqueue
  induction fuel generalizing s freed with
  | zero =>
    have hnone : s.evictTurn = none := by
      cases ht : s.evictTurn with
      | none => rfl
      | some r => exact absurd (work_turn ht) (by omega)
    rw [hstop s freed h (.inr hnone)]
    exact ⟨s, h, rfl, rfl⟩
  | succ fuel ih =>
    by_cases hlt : freed < c
    · cases ht : s.evictTurn with
      | none =>
        rw [hstop s freed h (.inr ht), evictLoop, if_pos hlt, ht]
        exact ⟨s, h, rfl, rfl⟩
      | some r =>
        obtain ⟨taken, s₁⟩ := r
        have hless := work_turn ht
        rw [evictLoop, if_pos hlt, ht, h.queue_turn ht]
        cases taken with
        | none => exact ih (h.turn ht) (by omega) freed
        | some kc =>
          obtain ⟨s', h', hrest, hloop⟩ := ih (h.turn ht) (by omega) (freed + kc.2)
          have hdrain : drain Prod.snd c freed (kc :: s₁.queue) =
              (kc :: (drain Prod.snd c (freed + kc.2) s₁.queue).1,
                (drain Prod.snd c (freed + kc.2) s₁.queue).2) := by
            rw [drain, if_pos hlt]
          simp only [Option.toList_some, singleton_append, hdrain, hloop, map_cons]
          exact ⟨s', h', hrest, rfl⟩
    · rw [hstop s freed h (.inl hlt), evictLoop, if_neg hlt]
      exact ⟨s, h, rfl, rfl⟩

theorem evictLoop_steady {fuel fuel' : ℕ} (hfuel : s.work ≤ fuel) (hfuel' : s.work ≤ fuel')
    (c freed : UInt64) : evictLoop fuel' c freed s = evictLoop fuel c freed s := by
  induction fuel generalizing s freed fuel' with
  | zero =>
    have hnone : s.evictTurn = none := by
      cases ht : s.evictTurn with
      | none => rfl
      | some r => exact absurd (work_turn ht) (by omega)
    cases fuel' with
    | zero => rfl
    | succ fuel' => simp [evictLoop, hnone]
  | succ fuel ih =>
    cases ht : s.evictTurn with
    | none => cases fuel' <;> simp [evictLoop, ht]
    | some r =>
      obtain ⟨taken, s'⟩ := r
      have hless := work_turn ht
      cases fuel' with
      | zero => omega
      | succ fuel' =>
        have hrest := fun freed => ih (s := s') (by omega) (by omega : s'.work ≤ fuel') freed
        rw [evictLoop, evictLoop, ht]
        cases taken <;> simp only [hrest]

/-! ### What each call records -/

theorem costs_onAccess (s : S3Fifo K) (key k : K) : (s.onAccess key).costs k = s.costs k := by
  unfold onAccess
  cases hl : s.metas.lookup key with
  | none => rfl
  | some m =>
    simp only [costs, lookup_insert]
    split_ifs with heq
    · rw [heq, hl]
      rfl
    · rfl

theorem metas_compact (s : S3Fifo K) : s.compact.metas = s.metas := by
  unfold compact
  split_ifs <;> rfl

theorem costs_onAdmit (s : S3Fifo K) (key : K) (cost : UInt64) (k : K) :
    (s.onAdmit key cost).costs k = if k = key then some cost else s.costs k := by
  unfold onAdmit
  cases hl : s.metas.lookup key with
  | some m =>
    simp only [costs, lookup_insert]
    split_ifs <;> rfl
  | none =>
    simp only [costs, metas_compact]
    rw [metas_push (AList.lookup_insert _), AList.insert_insert, lookup_insert]
    split_ifs <;> rfl

theorem costs_onRemove (s : S3Fifo K) (key k : K) :
    (s.onRemove key).costs k = if k = key then none else s.costs k := by
  unfold onRemove
  cases hl : s.metas.lookup key with
  | none =>
    simp only [costs]
    split_ifs with heq
    · rw [heq, hl]
      rfl
    · rfl
  | some m =>
    simp only [costs, lookup_erase]
    split_ifs <;> rfl

instance : QueuedPolicy (S3Fifo K) K where
  Tidy := Tidy
  costs := costs
  queue := queue
  updatesCost := true
  recordsReads := false
  evictLoops fuel c s := evictLoop fuel c 0 s
  turns := evictTurns
  nodup h := h.costOf_queue.1
  costs_eq h := h.costOf_queue.2
  onAccess {s} key _ h := ⟨h.onAccess key, fun k => .inl (costs_onAccess s key k)⟩
  onAdmit {s} key cost h := ⟨rfl, h.onAdmit key cost, .inl (costs_onAdmit s key cost)⟩
  onRemove {s} key h := ⟨h.onRemove key, costs_onRemove s key⟩
  clear {s} _ := ⟨Tidy.clear s, fun k => by
    show (s.clear.metas.lookup k).map _ = none
    simp [S3Fifo.clear]⟩
  evict_eq _ _ := rfl
  steady c h hfuel := evictLoop_steady h.work_le (h.work_le.trans hfuel) c 0
  evict {s} c h := by
    obtain ⟨s', h', hrest, hloop⟩ := h.evictLoop_eq h.work_le c 0
    have hfreed := drain_freed Prod.snd c 0 s.queue
    rw [UInt64.zero_add] at hfreed
    refine ⟨(drain Prod.snd c 0 s.queue).1, s', h', ?_, ?_, drain_zero_eq⟩
    · rw [hrest, drain_append]
    · rw [hloop, hfreed]

end Fibre.Cache.S3Fifo
