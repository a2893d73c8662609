import Fibre.Cache.Consistency

/-!
# The capacity of a shard

An insert into a shard with a built-in policy returns with the shard within its budget, as
long as two things hold of the state it starts from: the costs it adds up fit a word, and,
under TinyLFU, it does not replace an entry of the admission window by one too large for the
budget. Evictions never take from the window, and a replacement does not settle it.
-/

namespace Fibre.Cache.ShardMap

open CostQueue Word List

variable {K V π : Type*}

/-- Table and policy agree, and the entries and the window are within the budget. -/
structure Bounded (hash : K → UInt64) (choice : BuiltinChoice) (s : ShardMap K V π)
    (b : Builtin) : Prop where
  consistent : s.Consistent hash b
  choice : b.choice = choice
  cost_le : s.residentCost ≤ s.budget.toNat
  target_le : b.windowTarget ≤ s.budget
  window_le : b.windowCost ≤ s.budget

variable {hash : K → UInt64} {choice : BuiltinChoice} {s s' : ShardMap K V π} {b b' : Builtin}

/-! ### Calls that write no entry -/

theorem Bounded.residentCost_lt (h : s.Bounded hash choice b) : s.residentCost < 2 ^ 64 :=
  h.cost_le.trans_lt s.budget.toNat_lt

theorem Bounded.cost_eq (h : s.Bounded hash choice b) : s.cost.toNat = s.residentCost := by
  rw [h.consistent.cost, toNat_total h.residentCost_lt, residentCost]

theorem Bounded.quiet (h : s.Bounded hash choice b) (hq : Quiet hash s b s' b') :
    s'.Bounded hash choice b' := by
  have hk := hq.kept h.residentCost_lt
  refine ⟨hq.consistent, hk.choice.trans h.choice, ?_, ?_, ?_⟩
  · rw [hq.budget]
    exact hq.cost_le.trans h.cost_le
  · rw [hk.windowTarget, hq.budget]
    exact h.target_le
  · rw [hq.budget]
    exact UInt64.le_trans hk.window_le h.window_le

theorem Consistent.evictOver_bounded (hc : s.Consistent hash b) (hlt : s.residentCost < 2 ^ 64)
    (hch : b.choice = choice) (ht : b.windowTarget ≤ s.budget) (hw : b.windowCost ≤ s.budget) :
    ∃ b', (s.evictOver hash).2.Bounded hash choice b' ∧
      (s.evictOver hash).2.budget = s.budget := by
  have hcost : s.cost.toNat = s.residentCost := by
    rw [hc.cost, toNat_total hlt, residentCost]
  unfold ShardMap.evictOver
  simp only [hc.builtin]
  split_ifs with hover
  · have hE : totalNat Tracked.cost (s.table.map (track hash)) < 2 ^ 64 := by
      rw [totalNat_map_track]
      exact hlt
    obtain ⟨victims, E, htr, hperm, hout, hk, hdone⟩ :=
      hc.tracks.evict_enough (s.cost - s.budget) hE
    have hev := consistent_evictVictims (s := { s with builtin := some (b.evict _ []).1 }) rfl htr
      hperm hc.tracks.nodup_names hc.keys hc.cost
    rw [hout]
    refine ⟨_, ⟨hev.1, hk.choice.trans hch, ?_, ?_, ?_⟩, hev.2.1⟩
    · rw [hev.2.1]
      have hsum := hev.2.2
      have hsub : (s.cost - s.budget).toNat = s.cost.toNat - s.budget.toNat :=
        UInt64.toNat_sub_of_le _ _ (UInt64.le_of_lt hover)
      rcases hdone with hfreed | hrest
      · simp only [residentCost] at hsum ⊢ hcost
        omega
      · -- only the window is left, and it is within the budget
        have hE' := totalNat_perm Tracked.cost hperm
        rw [totalNat_append, totalNat_map_track] at hE'
        have hw' := UInt64.le_iff_toNat_le.mp hw
        simp only [residentCost] at hsum ⊢
        omega
    · rw [hk.windowTarget, hev.2.1]
      exact ht
    · rw [hev.2.1]
      exact UInt64.le_trans hk.window_le hw
  · refine ⟨b, ⟨hc, hch, ?_, ht, hw⟩, rfl⟩
    rw [← hcost]
    exact UInt64.le_iff_toNat_le.mp (UInt64.not_lt.mp hover)

theorem bounded_newBuiltin (hash : K → UInt64) (capacity shards : UInt64) (policy : π)
    (choice : BuiltinChoice) (wheel : TimerWheel) (graceNs ttiNs : UInt64) :
    (newBuiltin capacity shards policy choice wheel graceNs ttiNs : ShardMap K V π).Bounded hash
      choice (.new choice (builtinCapacity capacity shards)) := by
  refine ⟨⟨rfl, Builtin.tracks_new choice _, nodup_nil, rfl⟩, ?_, Nat.zero_le _, ?_, ?_⟩
  · cases choice <;> rfl
  · cases choice with
    | tinyLfu => exact windowTarget_le_shardBudget capacity shards
    | s3Fifo => exact UInt64.zero_le
  · cases choice <;> exact UInt64.zero_le

/-! ### The conditions -/

variable [DecidableEq K]

/-- The cost the resident entry of `key` counts for. -/
def replacedCost (s : ShardMap K V π) (key : K) : ℕ :=
  ((s.get key).map fun e => e.cost.toNat).getD 0

/-- The costs fit a word once `key` has this entry. -/
def FitsWord (s : ShardMap K V π) (key : K) (entry : CacheEntry V) : Prop :=
  s.residentCost - s.replacedCost key + entry.cost.toNat < 2 ^ 64

/-- If the entry replaces one in the window, the window still fits the budget. -/
def FitsWindow (s : ShardMap K V π) (key : K) (entry : CacheEntry V) : Prop :=
  ∀ b ∈ s.builtin, ∀ old ∈ s.get key, b.inWindow old.node →
    b.windowCost - old.cost + entry.cost ≤ s.budget

/-- What an insert under TinyLFU needs. -/
def FitsTinyLfu (s : ShardMap K V π) (key : K) (entry : CacheEntry V) : Prop :=
  s.FitsWord key entry ∧ s.FitsWindow key entry

instance (s : ShardMap K V π) (key : K) (entry : CacheEntry V) : Decidable (s.FitsWord key entry) :=
  inferInstanceAs (Decidable (_ < _))

instance (s : ShardMap K V π) (key : K) (entry : CacheEntry V) :
    Decidable (s.FitsWindow key entry) :=
  inferInstanceAs (Decidable (∀ b ∈ s.builtin, ∀ old ∈ s.get key, b.inWindow old.node → _ ≤ _))

instance (s : ShardMap K V π) (key : K) (entry : CacheEntry V) :
    Decidable (s.FitsTinyLfu key entry) :=
  inferInstanceAs (Decidable (_ ∧ _))

section Run

variable [CachePolicy π K] (hash : K → UInt64) (P : ShardMap K V π → K → CacheEntry V → Prop)

/-- The condition `P` at each insert of a restore. -/
def FitsAll (clock : UInt64) (s : ShardMap K V π) : List (K × CacheEntry V) → Prop
  | [] => True
  | ke :: entries => P s ke.1 ke.2 ∧
      FitsAll clock (s.insertInner hash clock ke.1 ke.2 false).2 entries

/-- The condition `P` at the inserts of one call. -/
def Fits (s : ShardMap K V π) : Op K V → Prop
  | .insert _ key entry => P s key entry
  | .replaceAll clock entries => FitsAll hash P clock s.clear entries
  | _ => True

/-- The condition `P` at every insert of a run. -/
def FitsRun (s : ShardMap K V π) : List (Op K V) → Prop
  | [] => True
  | op :: ops => Fits hash P s op ∧ FitsRun (s.step hash op) ops

variable [∀ s key entry, Decidable (P s key entry)]

instance decidableFitsAll (clock : UInt64) :
    ∀ entries (s : ShardMap K V π), Decidable (FitsAll hash P clock s entries)
  | [], _ => .isTrue trivial
  | _ :: entries, _ =>
    have := decidableFitsAll clock entries
    inferInstanceAs (Decidable (_ ∧ _))

instance decidableFits (s : ShardMap K V π) : ∀ op, Decidable (Fits hash P s op)
  | .insert _ key entry => inferInstanceAs (Decidable (P s key entry))
  | .replaceAll clock entries => inferInstanceAs (Decidable (FitsAll hash P clock s.clear entries))
  | .remove _ | .expireDue _ _ | .expireAll _ | .removeExpiredHashes _ _ | .clear | .applyReads
  | .applyDeferred _ | .touchRead _ | .pushRing _ | .pushLog _ _ | .modifyEntry _ _ _ =>
    .isTrue trivial

instance decidableFitsRun : ∀ ops (s : ShardMap K V π), Decidable (FitsRun hash P s ops)
  | [], _ => .isTrue trivial
  | _ :: ops, _ =>
    have := decidableFitsRun ops
    inferInstanceAs (Decidable (_ ∧ _))

end Run

/-! ### Inserts -/

variable {key : K} {entry : CacheEntry V}

theorem track_mem_of_get {old : CacheEntry V} (h : s.get key = some old) :
    track hash (key, old) ∈ s.table.map (track hash) := by
  simp only [get, Option.map_eq_some_iff] at h
  obtain ⟨⟨k, e⟩, hfind, rfl⟩ := h
  obtain rfl : k = key := by simpa using List.find?_some hfind
  exact mem_map_of_mem (mem_of_find?_eq_some hfind)

theorem Bounded.writeBuiltin_window (h : s.Bounded hash choice b) (hw : s.FitsWindow key entry)
    (hb' : (s.writeBuiltin b key entry (hash key)).2.1.builtin = some b') :
    b'.choice = choice ∧ b'.windowTarget ≤ s.budget ∧ b'.windowCost ≤ s.budget := by
  have hr := h.consistent.tracks.applyReads s.ring
  have hk := h.consistent.tracks.kept_applyReads s.ring
  have htarget : (b.applyReads s.ring).1.windowTarget ≤ s.budget := by
    rw [hk.windowTarget]
    exact h.target_le
  cases hget : s.get key with
  | none =>
    have hget' : ShardMap.get { s with ring := (b.applyReads s.ring).2 } key = none := hget
    simp only [ShardMap.writeBuiltin, hget', Option.some.injEq] at hb'
    obtain ⟨hch, ht, hcost⟩ := hr.windowCost_admitEntry (hash key) entry.cost
    subst hb'
    refine ⟨hch.trans (hk.choice.trans h.choice), ?_, UInt64.le_trans hcost htarget⟩
    rw [ht]
    exact htarget
  | some old =>
    have hget' : ShardMap.get { s with ring := (b.applyReads s.ring).2 } key = some old := hget
    simp only [ShardMap.writeBuiltin, hget', Option.some.injEq] at hb'
    obtain ⟨hch, ht, hcost⟩ : (Builtin.update _ old.node entry.cost).choice = _ ∧
        (Builtin.update _ old.node entry.cost).windowTarget = _ ∧
        (Builtin.update _ old.node entry.cost).windowCost = _ :=
      hr.windowCost_update (track_mem_of_get hget) entry.cost
    subst hb'
    refine ⟨hch.trans (hk.choice.trans h.choice), by rw [ht]; exact htarget, ?_⟩
    rw [hcost]
    split_ifs with hin
    · -- reads leave the window's cost alone, so the condition is about this sum
      have hin' := h.consistent.tracks.inWindow_applyReads s.ring old.node
      rw [h.consistent.tracks.windowCost_applyReads]
      exact hw b h.consistent.builtin old hget (hin'.symm.trans hin)
    · exact UInt64.le_trans hk.window_le h.window_le

theorem Bounded.insertBuiltin (h : s.Bounded hash choice b) (hfit : s.FitsWord key entry)
    (hwin : s.FitsWindow key entry) :
    ∃ b', (s.insertBuiltin hash b key entry (hash key)).2.Bounded hash choice b' := by
  obtain ⟨rejected, E, b', hb', htr, hout, hw⟩ := h.consistent.writeBuiltin key entry
  obtain ⟨hch, ht, hcost⟩ := h.writeBuiltin_window hwin hb'
  have hev := consistent_evictVictims hb' htr hw.perm hw.names hw.keys hw.cost
  rw [← hout] at hev
  have hlt : (evictVictims hash (s.writeBuiltin b key entry (hash key)).2.1
      (s.writeBuiltin b key entry (hash key)).2.2).2.residentCost < 2 ^ 64 := by
    have hres := hw.resident
    have hev' := hev.2.2
    unfold FitsWord replacedCost at hfit
    omega
  have hbud := hev.2.1.trans hw.budget
  obtain ⟨b'', hb'', -⟩ := hev.1.evictOver_bounded hlt hch (by rw [hbud]; exact ht)
    (by rw [hbud]; exact hcost)
  exact ⟨b'', hb''.consistent.congr rfl rfl rfl, hb''.choice, hb''.cost_le, hb''.target_le,
    hb''.window_le⟩

variable [CachePolicy π K]

theorem Bounded.insertInner (h : s.Bounded hash choice b) (hfit : s.FitsWord key entry)
    (hwin : s.FitsWindow key entry) (clock : UInt64) (count : Bool) :
    ∃ b', (s.insertInner hash clock key entry count).2.Bounded hash choice b' := by
  obtain ⟨w, t, w', n, heq⟩ : ∃ w t w' n, (s.insertInner hash clock key entry count).2 = _ :=
    insertInner_eq h.consistent.builtin clock key entry count
  have h' : Bounded hash choice { s with wheel := w } b :=
    ⟨h.consistent.congr rfl rfl rfl, h.choice, h.cost_le, h.target_le, h.window_le⟩
  have hfit' : FitsWord { s with wheel := w } key
      { entry with keyHash := hash key, ttlTimerHandle := t } := hfit
  obtain ⟨b', hb'⟩ := h'.insertBuiltin hfit' hwin
  rw [heq]
  exact ⟨b', hb'.consistent.congr rfl rfl rfl, hb'.choice, hb'.cost_le, hb'.target_le,
    hb'.window_le⟩

/-! ### Runs -/

section Run

variable {P : ShardMap K V π → K → CacheEntry V → Prop}
  (hP : ∀ (s : ShardMap K V π) b key entry, s.Bounded hash choice b → P s key entry →
    s.FitsWord key entry ∧ s.FitsWindow key entry)

include hP

theorem Bounded.insertAll (h : s.Bounded hash choice b) (clock : UInt64)
    (entries : List (K × CacheEntry V)) (hf : FitsAll hash P clock s entries) :
    ∃ b', (s.insertAll hash clock entries).Bounded hash choice b' := by
  induction entries generalizing s b with
  | nil => exact ⟨b, h⟩
  | cons ke entries ih =>
    obtain ⟨hfit, hwin⟩ := hP s b ke.1 ke.2 h hf.1
    obtain ⟨b', hb'⟩ := h.insertInner hfit hwin clock false
    exact ih hb' hf.2

theorem Bounded.step (h : s.Bounded hash choice b) (op : Op K V) (hf : Fits hash P s op) :
    ∃ b', (s.step hash op).Bounded hash choice b' := by
  by_cases hins : ∃ clock key entry, op = .insert clock key entry
  · obtain ⟨clock, key, entry, rfl⟩ := hins
    obtain ⟨hfit, hwin⟩ := hP s b key entry h hf
    exact h.insertInner hfit hwin clock true
  by_cases hrep : ∃ clock entries, op = .replaceAll clock entries
  · obtain ⟨clock, entries, rfl⟩ := hrep
    exact (h.quiet h.consistent.clear).insertAll hP clock entries hf
  push Not at hins hrep
  obtain ⟨b', hq⟩ := h.consistent.quiet_step op hins hrep
  exact ⟨b', h.quiet hq⟩

theorem Bounded.run (h : s.Bounded hash choice b) (ops : List (Op K V))
    (hf : FitsRun hash P s ops) : ∃ b', (s.run hash ops).Bounded hash choice b' := by
  induction ops generalizing s b with
  | nil => exact ⟨b, h⟩
  | cons op ops ih =>
    obtain ⟨b', hb'⟩ := h.step hP op hf.1
    exact ih hb' hf.2

end Run

/-! ### The capacity bound -/

section Bound

variable (hash) (capacity shards : UInt64) (policy : π) (wheel : TimerWheel)
  (graceNs ttiNs : UInt64)

theorem bounded_insert {choice : BuiltinChoice} {P : ShardMap K V π → K → CacheEntry V → Prop}
    (hP : ∀ (s : ShardMap K V π) b key entry, s.Bounded hash choice b → P s key entry →
      s.FitsWord key entry ∧ s.FitsWindow key entry)
    (ops : List (Op K V)) (clock : UInt64) (key : K) (entry : CacheEntry V)
    (hf : FitsRun hash P
      (newBuiltin capacity shards policy choice wheel graceNs ttiNs : ShardMap K V π)
      (ops ++ [.insert clock key entry])) :
    let s := run hash (newBuiltin capacity shards policy choice wheel graceNs ttiNs) ops
    let s' := (s.insert hash clock key entry).2
    s'.cost.toNat = s'.residentCost ∧ s'.residentCost ≤ s'.budget.toNat := by
  obtain ⟨b, hb⟩ := (bounded_newBuiltin hash capacity shards policy choice wheel graceNs
    ttiNs).run hP _ hf
  rw [run, foldl_append] at hb
  exact ⟨hb.cost_eq, hb.cost_le⟩

/-- S3-FIFO: when an insert returns, the shard's cost, which is the sum of the costs of its
entries, is at most its budget, provided no insert so far added up to `2 ^ 64` or more. -/
theorem residentCost_insert_s3Fifo_le (ops : List (Op K V)) (clock : UInt64) (key : K)
    (entry : CacheEntry V)
    (hf : FitsRun hash FitsWord
      (newBuiltin capacity shards policy .s3Fifo wheel graceNs ttiNs : ShardMap K V π)
      (ops ++ [.insert clock key entry])) :
    let s := run hash (newBuiltin capacity shards policy .s3Fifo wheel graceNs ttiNs) ops
    let s' := (s.insert hash clock key entry).2
    s'.cost.toNat = s'.residentCost ∧ s'.residentCost ≤ s'.budget.toNat := by
  refine bounded_insert hash capacity shards policy wheel graceNs ttiNs ?_ ops clock key entry hf
  intro s b key entry hs hfit
  refine ⟨hfit, ?_⟩
  intro b' hb' old _ hin
  -- S3-FIFO has no window
  obtain rfl : b = b' := Option.some.inj (hs.consistent.builtin.symm.trans hb')
  have hch := hs.choice
  cases b with
  | tinyLfu p => exact absurd hch (by simp [Builtin.choice])
  | s3Fifo p => simp [Builtin.inWindow] at hin

/-- TinyLFU: the same, provided also that no insert replaced an entry of the window by one
too large for the budget next to the rest of the window. -/
theorem residentCost_insert_tinyLfu_le (ops : List (Op K V)) (clock : UInt64) (key : K)
    (entry : CacheEntry V)
    (hf : FitsRun hash FitsTinyLfu
      (newBuiltin capacity shards policy .tinyLfu wheel graceNs ttiNs : ShardMap K V π)
      (ops ++ [.insert clock key entry])) :
    let s := run hash (newBuiltin capacity shards policy .tinyLfu wheel graceNs ttiNs) ops
    let s' := (s.insert hash clock key entry).2
    s'.cost.toNat = s'.residentCost ∧ s'.residentCost ≤ s'.budget.toNat :=
  bounded_insert hash capacity shards policy wheel graceNs ttiNs (fun _ _ _ _ _ h => h) ops clock key
    entry hf

end Bound

/-! ### Runs within and past the conditions -/

def plainEntry (cost : UInt64) : CacheEntry Unit := ⟨(), cost, 0, 0, NO_NODE, 0, none⟩

abbrev tenShard (choice : BuiltinChoice) : ShardMap UInt64 Unit NullPolicy :=
  newBuiltin 10 1 ⟨⟩ choice (.new 60 1 0) 0 0

/-- Three inserts that fit, the last in place of the first. -/
theorem residentCost_s3Fifo_fits :
    let s := run id (tenShard .s3Fifo) [.insert 0 1 (plainEntry 4), .insert 0 2 (plainEntry 6)]
    let s' := (s.insert id 0 1 (plainEntry 9)).2
    s'.cost.toNat = s'.residentCost ∧ s'.residentCost ≤ s'.budget.toNat := by
  have h := residentCost_insert_s3Fifo_le id 10 1 (⟨⟩ : NullPolicy) (.new 60 1 0) 0 0
    [.insert 0 1 (plainEntry 4), .insert 0 2 (plainEntry 6)] 0 1 (plainEntry 9)
    (by decide)
  exact h

theorem residentCost_tinyLfu_fits :
    let s := run id (tenShard .tinyLfu) [.insert 0 1 (plainEntry 1), .insert 0 2 (plainEntry 9)]
    let s' := (s.insert id 0 1 (plainEntry 5)).2
    s'.cost.toNat = s'.residentCost ∧ s'.residentCost ≤ s'.budget.toNat := by
  have h := residentCost_insert_tinyLfu_le id 10 1 (⟨⟩ : NullPolicy) (.new 60 1 0) 0 0
    [.insert 0 1 (plainEntry 1), .insert 0 2 (plainEntry 9)] 0 1 (plainEntry 5)
    (by decide +kernel)
  exact h

/-- A cost three short of `2 ^ 64` on top of five wraps to two, and nothing is evicted. -/
theorem residentCost_s3Fifo_wraps :
    let s := run id (tenShard .s3Fifo) [.insert 0 1 (plainEntry 5)]
    let s' := (s.insert id 0 2 (plainEntry (0 - 3))).2
    ¬ s'.residentCost ≤ s'.budget.toNat := by
  decide

/-- A window entry replaced by one of ten times the budget stays: evictions do not take from
the window. -/
theorem residentCost_tinyLfu_grows :
    let s := run id (tenShard .tinyLfu) [.insert 0 1 (plainEntry 1)]
    let s' := (s.insert id 0 1 (plainEntry 100)).2
    ¬ s'.residentCost ≤ s'.budget.toNat := by
  decide +kernel

end Fibre.Cache.ShardMap
