import Mathlib.Data.List.AList
import Fibre.Math.Machine
import Fibre.Cache.Handle

/-!
# Many reads at once

`multiget` reads a list of keys. The handle of `Cache` splits the list among threads, each of
which reads its keys one after the other; that of `AsyncCache` splits it by shard, and reads all
the keys of a shard under one read lock. Whoever reads keeps a map of what it found, and the maps
are put together at the end. The threads run in any order.
-/

namespace Fibre.Cache

open List Function

variable {K V π : Type*}

/-! ### A shard that never spins -/

namespace LoggedShard

/-- The log and the ring hold some reads, as they do in every shard that is used. -/
structure Sound (s : LoggedShard K V π) : Prop where
  log : ∃ l, s.log.Holds l
  ring : ∃ r, s.ring.Holds r

theorem Sound.congr {s s' : LoggedShard K V π} (h : s.Sound) (hlog : s'.log = s.log)
    (hring : s'.ring = s.ring) : s'.Sound := ⟨hlog ▸ h.log, hring ▸ h.ring⟩

variable {s : LoggedShard K V π}

theorem Sound.drain (h : s.Sound) :
    ∃ s', s.drain = some s' ∧ s'.Sound ∧ s'.map.table = s.map.table := by
  obtain ⟨l, hlog⟩ := h.log
  obtain ⟨r, hring⟩ := h.ring
  unfold LoggedShard.drain
  split
  · obtain ⟨ring', hdrain, hring'⟩ := hring.drain
    exact ⟨_, rfl, ⟨⟨l, hlog⟩, [], by simpa only [hdrain] using hring'⟩, rfl⟩
  · exact ⟨s, rfl, h, rfl⟩
  · obtain ⟨log', hdrain, hlog'⟩ := hlog.drain
    rw [hdrain]
    exact ⟨_, rfl, ⟨⟨[], hlog'⟩, r, hring⟩, rfl⟩

theorem Sound.record (h : s.Sound) (cfg : ReadConfig) (key : K) (e : CacheEntry V) :
    ∃ r, s.record cfg key e = some r ∧ r.2.Sound ∧ r.2.map.table = s.map.table := by
  obtain ⟨l, hlog⟩ := h.log
  obtain ⟨nodes, hring⟩ := h.ring
  unfold LoggedShard.record
  split
  · have hpush : ∃ nodes', (s.ring.push e.node).2.Holds nodes' := by
      by_cases hnode : e.node = NO_NODE
      · exact ⟨nodes, by simpa only [ReadRing.push, if_pos hnode] using hring⟩
      · rcases hring.length_le.lt_or_eq with hlt | hfull
        · obtain ⟨ring', heq, hholds⟩ := hring.push hlt hnode
          exact ⟨_, by rwa [heq]⟩
        · exact ⟨nodes, by rwa [hring.push_full hfull hnode]⟩
    dsimp only
    split_ifs <;> exact ⟨_, rfl, ⟨⟨l, hlog⟩, hpush⟩, rfl⟩
  · exact ⟨_, rfl, ⟨⟨l, hlog⟩, nodes, hring⟩, rfl⟩
  · split_ifs
    · exact ⟨_, rfl, h, rfl⟩
    · rcases hlog.length_le.lt_or_eq with hlt | hfull
      · obtain ⟨log', heq, hholds⟩ := hlog.push hlt key e.cost
        rw [heq, Option.map_some, if_pos rfl]
        exact ⟨_, rfl, ⟨⟨_, hholds⟩, nodes, hring⟩, rfl⟩
      · rw [hlog.push_full hfull key e.cost, Option.map_some, if_neg Bool.false_ne_true]
        exact ⟨_, rfl, h, rfl⟩

section Calls

variable [CachePolicy π K]

theorem Sound.applyDeferred (h : s.Sound) (read : DeferredRead K) :
    ∃ s', s.applyDeferred read = some s' ∧ s'.Sound ∧ s'.map.table = s.map.table := by
  obtain ⟨s₁, hdrain, hsound, htable⟩ := h.drain
  have hreads := ShardMap.applyReads_table s₁.map
  rw [LoggedShard.applyDeferred, hdrain, Option.map_some, ← htable]
  cases read <;> exact ⟨_, rfl, hsound.congr rfl rfl, hreads⟩

theorem Sound.settle (h : s.Sound) (read : Option (DeferredRead K)) :
    ∃ s', s.settle read = some s' ∧ s'.Sound ∧ s'.map.table = s.map.table := by
  cases read with
  | none => exact ⟨s, rfl, h, rfl⟩
  | some read => exact h.applyDeferred read

variable [DecidableEq K]

theorem Sound.write (h : s.Sound) (hash : K → UInt64) (cfg : ReadConfig) {a : Access K V}
    (ha : a.IsWrite) : ∃ s', s.step hash cfg a = some s' ∧ s'.Sound := by
  obtain ⟨s₁, hdrain, hsound, -⟩ := h.drain
  cases a with
  | fetch now key => exact ha.elim
  | insert clock key entry =>
    rw [LoggedShard.step, hdrain, Option.map_some]
    exact ⟨_, rfl, hsound.congr rfl rfl⟩
  | remove key =>
    rw [LoggedShard.step, hdrain, Option.map_some]
    exact ⟨_, rfl, hsound.congr rfl rfl⟩

end Calls


end LoggedShard

/-! ### What a lookup changes -/

/-- The entry after a hit at `now`. -/
def CacheEntry.stamped (e : CacheEntry V) (tti : Option UInt64) (now : UInt64) : CacheEntry V :=
  if tti.isSome then { e with lastAccessed := now } else e

theorem find?_map_of_key [DecidableEq K] {α : Type*} {f : K × α → K × α}
    (hf : ∀ ke, (f ke).1 = ke.1) (l : List (K × α)) (k : K) :
    (l.map f).find? (fun ke => decide (ke.1 = k)) =
      (l.find? fun ke => decide (ke.1 = k)).map f := by
  have hkeys : ((fun ke : K × α => decide (ke.1 = k)) ∘ f) = fun ke => decide (ke.1 = k) := by
    funext ke
    rw [comp_apply, hf]
  rw [List.find?_map, hkeys]

theorem ShardMap.get_modifyEntry [DecidableEq K] (s : ShardMap K V π) (key k : K) (value : V → V)
    (lastAccessed : UInt64 → UInt64) :
    (s.modifyEntry key value lastAccessed).get k = (s.get k).map fun e =>
      if k = key then
        { e with value := value e.value, lastAccessed := lastAccessed e.lastAccessed }
      else e := by
  rw [get, modifyEntry, find?_map_of_key fun ke => by split_ifs <;> rfl, get, Option.map_map,
    Option.map_map]
  refine Option.map_congr fun ke hke => ?_
  obtain rfl : ke.1 = k := by simpa using List.find?_some hke
  simp only [comp_apply]
  split_ifs <;> rfl

theorem ShardMap.get_stamp [DecidableEq K] (s : ShardMap K V π) (tti : Option UInt64)
    (now : UInt64) (key k : K) :
    (s.stamp tti now key).get k =
      (s.get k).map fun e => if k = key then e.stamped tti now else e := by
  unfold ShardMap.stamp CacheEntry.stamped
  by_cases htti : tti.isSome
  · simp only [if_pos htti, get_modifyEntry]
    rfl
  · simp only [if_neg htti, ite_self, Option.map_id']

theorem card_sdiff_insert_of_notMem [DecidableEq K] {k : K} {F : Finset K} (hk : k ∉ F)
    (S : Finset K) : (F \ insert k S).card = (F \ S).card := by
  rw [Finset.sdiff_insert, Finset.erase_eq_of_notMem]
  exact fun hmem => hk (Finset.mem_sdiff.mp hmem).1

theorem card_insert_sdiff [DecidableEq K] {k : K} (F : Finset K) {S : Finset K} (hk : k ∉ S) :
    (insert k F \ S).card = 1 + (F \ insert k S).card := by
  have hsplit : insert k F \ S = insert k (F \ insert k S) := by
    ext x
    simp only [Finset.mem_sdiff, Finset.mem_insert]
    grind
  rw [hsplit, Finset.card_insert_of_notMem (by simp), Nat.add_comm]

namespace CacheHandle

/-- An entry accessed at `now` is idle at `now`: the time to idle is cut to zero, or wraps. -/
def lapses (c : CacheHandle K V π) (now : UInt64) : Bool :=
  match c.timeToIdle with
  | none => false
  | some d => now ≥ now + d.asNanosU64

def Sound (c : CacheHandle K V π) : Prop := ∀ j, (c.shards j).Sound

theorem Sound.setShard {c : CacheHandle K V π} (h : c.Sound) (i : ℕ) {s : LoggedShard K V π}
    (hs : s.Sound) : (c.setShard i s).Sound := by
  intro j
  rw [setShard_shards]
  split_ifs
  · exact hs
  · exact h j

/-- The cache `c'` is `c` after lookups of the keys `seen` at `now`. -/
structure Looked [DecidableEq K] (c : CacheHandle K V π) (now : UInt64) (seen : List K)
    (c' : CacheHandle K V π) : Prop where
  index : c'.index = c.index
  timeToIdle : c'.timeToIdle = c.timeToIdle
  sound : c'.Sound
  resident : ∀ k, c'.resident k = (c.resident k).map fun e =>
    if k ∈ seen ∧ (c.peek now k).isSome then e.stamped c.config.timeToIdle now else e

variable [DecidableEq K] {c c' : CacheHandle K V π} {now : UInt64} {seen : List K}

theorem Sound.looked (h : c.Sound) (now : UInt64) : c.Looked now [] c :=
  ⟨rfl, rfl, h, fun k => by simp⟩

theorem Looked.config (h : c.Looked now seen c') :
    c'.config.timeToIdle = c.config.timeToIdle :=
  congrArg (Option.map Duration.asNanosU64) h.timeToIdle

omit [DecidableEq K] in
/-- A stamped entry is found again, unless it lapses. -/
theorem isExpiredCoarse_stamped (c : CacheHandle K V π) {e : CacheEntry V}
    (h : e.isExpiredCoarse c.config.timeToIdle now = false) :
    (e.stamped c.config.timeToIdle now).isExpiredCoarse c.config.timeToIdle now =
      c.lapses now := by
  have hnot := (CacheEntry.isExpiredCoarse_eq e c.timeToIdle now).symm.trans h
  refine (CacheEntry.isExpiredCoarse_eq _ c.timeToIdle now).trans ?_
  have hpast : ¬(e.expiresAt > 0 ∧ now ≥ e.expiresAt) := by
    intro hpast
    rw [CacheEntry.isExpiredAt, if_pos hpast] at hnot
    exact Bool.noConfusion hnot
  have hexpires : (e.stamped c.config.timeToIdle now).expiresAt = e.expiresAt := by
    unfold CacheEntry.stamped
    split_ifs <;> rfl
  rw [CacheEntry.isExpiredAt, hexpires, if_neg hpast]
  unfold CacheEntry.isIdleAt lapses
  cases htti : c.timeToIdle with
  | none => rfl
  | some d =>
    simp only [CacheEntry.stamped, config, htti, Option.map_some, Option.isSome_some, if_true]

theorem Looked.peek (h : c.Looked now seen c') (k : K) :
    c'.peek now k = if k ∈ seen ∧ c.lapses now then none else c.peek now k := by
  have hpeek : ∀ c : CacheHandle K V π, c.peek now k = (c.resident k).bind fun e =>
      if e.isExpiredCoarse c.config.timeToIdle now then none else some e.value := by
    intro c
    unfold CacheHandle.peek
    cases c.resident k <;> rfl
  rw [hpeek c', h.resident, h.config]
  cases hres : c.resident k with
  | none => simp [hpeek, hres]
  | some e =>
    cases hexp : e.isExpiredCoarse c.config.timeToIdle now with
    | true => simp [hpeek, hres, hexp]
    | false =>
      have hfound : c.peek now k = some e.value := by simp [hpeek, hres, hexp]
      have hvalue : (e.stamped c.config.timeToIdle now).value = e.value := by
        unfold CacheEntry.stamped
        split_ifs <;> rfl
      by_cases hk : k ∈ seen
      · simp [hfound, hk, isExpiredCoarse_stamped c hexp, hvalue]
      · simp [hfound, hk, hexp]

theorem Looked.missed (h : c.Looked now seen c') {k : K} (hk : c'.peek now k = none) :
    c.Looked now (k :: seen) c' := by
  refine ⟨h.index, h.timeToIdle, h.sound, fun k' => (h.resident k').trans ?_⟩
  rw [h.peek] at hk
  refine Option.map_congr fun e _ => ?_
  by_cases heq : k' = k
  · subst heq
    by_cases hseen : k' ∈ seen
    · simp [hseen]
    · -- it was not found the first time
      have hnone : c.peek now k' = none := by simpa [hseen] using hk
      simp [hnone]
  · simp [heq]

theorem Looked.found (h : c.Looked now seen c') {k : K} (hk : (c'.peek now k).isSome)
    {s : LoggedShard K V π} (hs : s.Sound)
    (hget : ∀ k', s.map.get k' = ((c'.shards (c'.index k)).map.get k').map fun e =>
      if k' = k then e.stamped c'.config.timeToIdle now else e) :
    c.Looked now (k :: seen) (c'.setShard (c'.index k) s) := by
  have hfound : (c.peek now k).isSome := by
    rw [h.peek] at hk
    split_ifs at hk
    · exact absurd hk Bool.false_ne_true
    · exact hk
  refine ⟨h.index, h.timeToIdle, h.sound.setShard _ hs, fun k' => ?_⟩
  have hresident : (c'.setShard (c'.index k) s).resident k' =
      (c'.resident k').map fun e => if k' = k then e.stamped c'.config.timeToIdle now else e := by
    rw [resident_setShard]
    by_cases hi : c'.index k' = c'.index k
    · rw [if_pos hi, hget, CacheHandle.resident, hi]
    · have hne : k' ≠ k := fun heq => hi (congrArg c'.index heq)
      simp only [if_neg hi, if_neg hne, Option.map_id']
  rw [hresident, h.resident, Option.map_map, h.config]
  refine Option.map_congr fun e _ => ?_
  simp only [comp_apply]
  by_cases heq : k' = k
  · subst heq
    simp only [if_true, mem_cons, true_or, hfound, and_true]
    split_ifs
    · unfold CacheEntry.stamped
      split_ifs <;> rfl
    · rfl
  · simp [heq]

theorem Looked.lookup (h : c.Looked now seen c') (k : K) : ∃ read c'',
    c'.lookup now k = some ((c'.peek now k, read), c'') ∧ c.Looked now (k :: seen) c'' ∧
      c''.metrics = c'.metrics := by
  have hsame : c'.setShard (c'.index k) (c'.shards (c'.index k)) = c' := by
    unfold CacheHandle.setShard
    rw [update_eq_self]
  have hmiss : c'.peek now k = none →
      (c'.shards (c'.index k)).lookup c'.config now k =
        some ((none, none), c'.shards (c'.index k)) →
      ∃ read c'', c'.lookup now k = some ((c'.peek now k, read), c'') ∧
        c.Looked now (k :: seen) c'' ∧ c''.metrics = c'.metrics := by
    intro hnone hlookup
    refine ⟨none, c', ?_, h.missed hnone, rfl⟩
    rw [CacheHandle.lookup, hlookup, Option.map_some, hsame, hnone]
  cases hres : (c'.shards (c'.index k)).map.get k with
  | none =>
    apply hmiss
    · simp only [CacheHandle.peek, CacheHandle.resident, hres]
    · simp only [LoggedShard.lookup, hres]
  | some e =>
    cases hexp : e.isExpiredCoarse c'.config.timeToIdle now with
    | true =>
      apply hmiss
      · simp only [CacheHandle.peek, CacheHandle.resident, hres, hexp, if_true]
      · simp only [LoggedShard.lookup, hres, hexp, if_true]
    | false =>
      have hpeek : c'.peek now k = some e.value := by
        simp [CacheHandle.peek, CacheHandle.resident, hres, hexp]
      -- the entry is stamped first, and then the read is recorded
      have hstamped : LoggedShard.Sound { c'.shards (c'.index k) with
          map := (c'.shards (c'.index k)).map.stamp c'.config.timeToIdle now k } :=
        (h.sound _).congr rfl rfl
      obtain ⟨r, hr, hsound, htable⟩ := hstamped.record c'.config k e
      refine ⟨r.1, c'.setShard (c'.index k) r.2, ?_, ?_, rfl⟩
      · simp only [CacheHandle.lookup, LoggedShard.lookup, hres, hexp, Bool.false_eq_true, if_false,
          LoggedShard.onHit, hr, Option.map_some, hpeek]
      · refine h.found (by rw [hpeek]; rfl) hsound fun k' => ?_
        rw [ShardMap.get, htable]
        exact ShardMap.get_stamp _ _ _ _ _

section Policy

variable [CachePolicy π K]

theorem Looked.settle (h : c.Looked now seen c') (i : ℕ) (read : Option (DeferredRead K)) :
    ∃ c'', c'.settle i read = some c'' ∧ c.Looked now seen c'' ∧ c''.metrics = c'.metrics := by
  obtain ⟨s, hs, hsound, htable⟩ := (h.sound i).settle read
  refine ⟨c'.setShard i s, by rw [CacheHandle.settle, hs, Option.map_some],
    ⟨h.index, h.timeToIdle, h.sound.setShard i hsound, fun k => ?_⟩, rfl⟩
  have hsame : (c'.setShard i s).resident k = c'.resident k := by
    rw [resident_setShard]
    split_ifs with hi
    · rw [CacheHandle.resident, hi, ShardMap.get, ShardMap.get, htable]
    · rfl
  exact hsame.trans (h.resident k)

theorem Looked.fetch (h : c.Looked now seen c') (k : K) : ∃ c'',
    c'.fetch now k = some (c'.peek now k, c'') ∧ c.Looked now (k :: seen) c'' ∧
      c''.metrics = { c'.metrics with
        hits := c'.metrics.hits + if (c'.peek now k).isSome then 1 else 0
        misses := c'.metrics.misses + if (c'.peek now k).isSome then 0 else 1 } := by
  obtain ⟨read, c₁, hlookup, hlooked, hmetrics⟩ := h.lookup k
  obtain ⟨c₂, hsettle, hlooked₂, hmetrics₂⟩ := hlooked.settle (c'.index k) read
  rw [CacheHandle.fetch, hlookup, Option.bind_some, hsettle, Option.map_some, ← hmetrics,
    ← hmetrics₂]
  have hcount : ∀ m : Metrics, c.Looked now (k :: seen) { c₂ with metrics := m } := fun m =>
    ⟨hlooked₂.index, hlooked₂.timeToIdle, hlooked₂.sound, hlooked₂.resident⟩
  refine ⟨_, rfl, ?_, ?_⟩
  · split_ifs <;> exact hcount _
  · split_ifs <;> rfl

/-! ### Fetching each key in turn -/

/-- Fetches each key in turn; also returns the pairs found. -/
def fetchAll (c : CacheHandle K V π) (now : UInt64) :
    List K → Option (List (K × V) × CacheHandle K V π)
  | [] => some ([], c)
  | k :: ks =>
    (c.fetch now k).bind fun r =>
      (fetchAll r.2 now ks).map fun q => ((r.1.map (k, ·)).toList ++ q.1, q.2)

/-- The keys that a lookup finds. -/
def foundIn (c : CacheHandle K V π) (now : UInt64) (keys : List K) : List K :=
  keys.filter fun k => (c.peek now k).isSome

/-- The hits of fetching each key in turn, after lookups of the keys `seen`. -/
def hitsOf (c : CacheHandle K V π) (now : UInt64) (seen keys : List K) : ℕ :=
  if c.lapses now then ((c.foundIn now keys).toFinset \ seen.toFinset).card
  else (c.foundIn now keys).length

omit [CachePolicy π K] in
theorem hitsOf_cons (c : CacheHandle K V π) (now : UInt64) (seen : List K) (k : K) (ks : List K) :
    c.hitsOf now seen (k :: ks) =
      (if (if k ∈ seen ∧ c.lapses now then none else c.peek now k).isSome then 1 else 0) +
        c.hitsOf now (k :: seen) ks := by
  have hfound : c.foundIn now (k :: ks) =
      if (c.peek now k).isSome then k :: c.foundIn now ks else c.foundIn now ks :=
    filter_cons
  unfold hitsOf
  rw [hfound]
  cases hlapses : c.lapses now with
  | false =>
    cases c.peek now k with
    | none => simp
    | some v => simp [Nat.add_comm]
  | true =>
    cases hpeek : c.peek now k with
    | none =>
      -- the key is not among those found, seen or not
      have hk : k ∉ (c.foundIn now ks).toFinset := by simp [foundIn, hpeek]
      have hsame := card_sdiff_insert_of_notMem hk seen.toFinset
      simp [hsame]
    | some v =>
      by_cases hk : k ∈ seen
      · simp [hk, Finset.insert_sdiff_of_mem]
      · have hcard := card_insert_sdiff (S := seen.toFinset) (c.foundIn now ks).toFinset
          (by simpa using hk)
        simp [hk, hcard]

/-- Fetching each key in turn never spins; it finds what a lookup of each key finds, and counts as
many lookups as there are keys. -/
theorem Looked.fetchAll (h : c.Looked now seen c') (keys : List K) : ∃ pairs c'',
    c'.fetchAll now keys = some (pairs, c'') ∧ c''.Sound ∧
      (∀ k v, (k, v) ∈ pairs → k ∈ keys ∧ c.peek now k = some v) ∧
      (∀ k ∈ keys, k ∉ seen → ∀ v, c.peek now k = some v → (k, v) ∈ pairs) ∧
      c''.metrics.hits = c'.metrics.hits + c.hitsOf now seen keys ∧
      c''.metrics.hits + c''.metrics.misses =
        c'.metrics.hits + c'.metrics.misses + keys.length ∧
      c''.metrics.updates = c'.metrics.updates := by
  induction keys generalizing c' seen with
  | nil =>
    refine ⟨[], c', rfl, h.sound, nofun, nofun, ?_, rfl, rfl⟩
    simp [hitsOf, foundIn]
  | cons k ks ih =>
    obtain ⟨c₁, hfetch, hlooked, hmetrics⟩ := h.fetch k
    obtain ⟨pairs, c₂, hall, hsound, hpairs, hfound, hhits, htotal, hupdates⟩ :=
      ih hlooked
    have hpeek := h.peek k
    refine ⟨_, c₂, by rw [CacheHandle.fetchAll, hfetch, Option.bind_some, hall, Option.map_some],
      hsound, ?_, ?_, ?_, ?_, ?_⟩
    · intro k' v hmem
      rcases mem_append.mp hmem with hnow | hlater
      · obtain ⟨v', hv', heq⟩ := Option.map_eq_some_iff.mp (Option.mem_toList.mp hnow)
        obtain ⟨rfl, rfl⟩ := Prod.ext_iff.mp heq
        rw [hpeek] at hv'
        split_ifs at hv'
        exact ⟨mem_cons_self, hv'⟩
      · obtain ⟨hmem, hv⟩ := hpairs k' v hlater
        exact ⟨mem_cons_of_mem _ hmem, hv⟩
    · intro k' hmem hseen v hv
      by_cases heq : k' = k
      · subst heq
        rw [hpeek, if_neg fun hlapsed => hseen hlapsed.1, hv]
        exact mem_append_left _ mem_cons_self
      · have hlater := hfound k' ((mem_cons.mp hmem).resolve_left heq)
          (by simp [heq, hseen]) v hv
        exact mem_append_right _ hlater
    · rw [hhits, hmetrics, hpeek, hitsOf_cons]
      exact Nat.add_assoc _ _ _
    · rw [htotal, hmetrics, length_cons]
      dsimp only
      split_ifs <;> omega
    · rw [hupdates, hmetrics]

end Policy

end CacheHandle

/-! ### The call -/

inductive Handle
  | sync
  | async

/-- What one thread, or one task, of a call has to do: keys to look at, each with the index of its
shard, the reads that could not be logged, and what was found. -/
structure Job (K V : Type*) where
  todo : List (ℕ × K)
  deferred : List (ℕ × DeferredRead K)
  found : AList fun _ : K => V

namespace Job

variable [DecidableEq K]

/-- Nothing is left to do. -/
def Done (j : Job K V) : Prop := j.todo = [] ∧ j.deferred = []

/-- Looks at the next key, under the read lock of its shard. -/
def look (j : Job K V) (c : CacheHandle K V π) (now : UInt64) :
    Option (CacheHandle K V π × Job K V) :=
  match j.todo with
  | [] => none
  | (i, key) :: rest =>
    ((c.shards i).lookup c.config now key).map fun r =>
      (c.setShard i r.2,
        { todo := rest
          deferred := j.deferred ++ (r.1.2.map (i, ·)).toList
          found := match r.1.1 with
            | none => j.found
            | some value => j.found.insert key value })

variable [CachePolicy π K]

/-- Applies the first of the reads that could not be logged, under the write lock of its shard. -/
def settle (j : Job K V) (c : CacheHandle K V π) : Option (CacheHandle K V π × Job K V) :=
  match j.deferred with
  | [] => none
  | (i, read) :: rest => (c.settle i (some read)).map fun c => (c, { j with deferred := rest })

/-- The next turn. A thread of `Cache` applies a read before it looks at another key; a task of
`AsyncCache` looks at all its keys first. -/
def turn (handle : Handle) (j : Job K V) (c : CacheHandle K V π) (now : UInt64) :
    Option (CacheHandle K V π × Job K V) :=
  match handle with
  | .sync => if j.deferred.isEmpty then j.look c now else j.settle c
  | .async => if j.todo.isEmpty then j.settle c else j.look c now

/-- The maps put together; a later one wins. -/
def merge (jobs : List (Job K V)) : AList fun _ : K => V :=
  jobs.foldl (fun found j => j.found ∪ found) ∅

end Job

namespace CacheHandle

variable [DecidableEq K] [CachePolicy π K]

/-- Some job takes its next turn. -/
def multigetStep (handle : Handle) (now : UInt64) (s : CacheHandle K V π × List (Job K V)) (n : ℕ) :
    Option (CacheHandle K V π × List (Job K V)) :=
  s.2[n]?.bind fun j => (j.turn handle s.1 now).map fun r => (r.1, s.2.set n r.2)

/-- The hits and misses of a call for `total` keys. -/
def count (handle : Handle) (c : CacheHandle K V π) (total hits : ℕ) : CacheHandle K V π :=
  match handle with
  | .sync =>
    let c := c.recordHits hits
    if total > hits then c.recordMisses (total - hits) else c
  | .async => (c.recordHits hits).recordMisses (total - hits)

/-- The jobs of the threads among which the keys are split. -/
def jobs (c : CacheHandle K V π) (parts : List (List K)) : List (Job K V) :=
  parts.map fun part => ⟨part.map fun k => (c.index k, k), [], ∅⟩

def jobsByShard (c : CacheHandle K V π) (keys : List K) : List (Job K V) :=
  (((List.range c.numShards.toNat).map fun i =>
      (i, keys.filter fun k => (c.hasher k % c.numShards).toNat = i)).filter fun shard =>
        !shard.2.isEmpty).map fun shard => ⟨shard.2.map (shard.1, ·), [], ∅⟩

/-- The jobs `start` may all be done, in some order, and the call then returns `r`. -/
def Returns (handle : Handle) (c : CacheHandle K V π) (now : UInt64) (total : ℕ)
    (start : List (Job K V)) (r : AList (fun _ : K => V) × CacheHandle K V π) : Prop :=
  ∃ c' done, Machine.Reachable (multigetStep handle now) (c, start) (c', done) ∧
    (∀ j ∈ done, j.Done) ∧ r = (Job.merge done, c'.count handle total (Job.merge done).keys.length)

/-- `multiget` of `Cache` may return `r`. The keys are split among threads in some way. -/
def Multiget (c : CacheHandle K V π) (now : UInt64) (keys : List K)
    (r : AList (fun _ : K => V) × CacheHandle K V π) : Prop :=
  ∃ parts : List (List K), parts.flatten = keys ∧
    c.Returns .sync now keys.length (c.jobs parts) r

/-- `multiget` of `AsyncCache` may return `r`. -/
def MultigetAsync (c : CacheHandle K V π) (now : UInt64) (keys : List K)
    (r : AList (fun _ : K => V) × CacheHandle K V π) : Prop :=
  c.Returns .async now keys.length (c.jobsByShard keys) r

/-! ### Every order of turns -/

section Middle

variable {α : Type*} {p : α → Prop} {a b : List α} {x : α}

theorem forall_mem_middle :
    (∀ y ∈ a ++ x :: b, p y) ↔ (∀ y ∈ a, p y) ∧ p x ∧ ∀ y ∈ b, p y := by
  rw [forall_mem_append, forall_mem_cons]

theorem exists_mem_middle :
    (∃ y ∈ a ++ x :: b, p y) ↔ (∃ y ∈ a, p y) ∨ p x ∨ ∃ y ∈ b, p y := by
  simp only [mem_append, mem_cons, or_and_right, exists_or, exists_eq_left]

end Middle

/-- The jobs of a call for `keys`, after looks at the keys `seen`. -/
structure Working (c : CacheHandle K V π) (now : UInt64) (keys : List K)
    (s : CacheHandle K V π × List (Job K V)) (seen : List K) : Prop where
  looked : c.Looked now seen s.1
  metrics : s.1.metrics = c.metrics
  todo : ∀ j ∈ s.2, ∀ t ∈ j.todo, t.1 = c.index t.2 ∧ t.2 ∈ keys
  listed : ∀ k ∈ seen, k ∈ keys
  left : ∀ k ∈ keys, k ∈ seen ∨ ∃ j ∈ s.2, ∃ t ∈ j.todo, t.2 = k
  found : ∀ j ∈ s.2, ∀ k v, j.found.lookup k = some v → k ∈ seen ∧ c.peek now k = some v
  kept : ∀ k ∈ seen, (c.peek now k).isSome → ∃ j ∈ s.2, k ∈ j.found

variable {c c' : CacheHandle K V π} {now : UInt64} {keys seen : List K}

omit [CachePolicy π K] in
theorem Working.look {a b : List (Job K V)} {j : Job K V}
    (h : c.Working now keys (c', a ++ j :: b) seen) (htodo : j.todo ≠ []) :
    ∃ k c'' j', j.look c' now = some (c'', j') ∧ j'.todo.length + 1 = j.todo.length ∧
      j'.deferred.length ≤ j.deferred.length + 1 ∧
      c.Working now keys (c'', a ++ j' :: b) (k :: seen) := by
  cases ht : j.todo with
  | nil => exact absurd ht htodo
  | cons t rest =>
    obtain ⟨i, k⟩ := t
    obtain ⟨hindex, hk⟩ := h.todo j (by simp) (i, k) (by simp [ht])
    obtain ⟨hold, hm, htodo, hlisted, hleft, hfound, hkept⟩ := h
    have hpeek : c'.peek now k = if k ∈ seen ∧ c.lapses now then none else c.peek now k :=
      hold.peek k
    obtain ⟨read, c'', hlookup, hlooked, hmetrics⟩ :
        ∃ read c'', c'.lookup now k = some ((c'.peek now k, read), c'') ∧
          c.Looked now (k :: seen) c'' ∧ c''.metrics = c'.metrics := hold.lookup k
    obtain ⟨r, hs, heq⟩ := Option.map_eq_some_iff.mp hlookup
    obtain ⟨hr, hset⟩ := Prod.mk.inj heq
    have hi : i = c'.index k := hindex.trans (congrFun hold.index k).symm
    have hlook : j.look c' now = some (c'',
        { todo := rest
          deferred := j.deferred ++ (read.map (i, ·)).toList
          found := match c'.peek now k with
            | none => j.found
            | some value => j.found.insert k value }) := by
      simp only [Job.look, ht, hi, hs, Option.map_some, hr, hset]
    refine ⟨k, _, _, hlook, rfl, by cases read <;> simp, ?_⟩
    simp only [forall_mem_middle, exists_mem_middle] at htodo hleft hfound hkept
    refine ⟨hlooked, hmetrics.trans hm, ?_, ?_, ?_, ?_, ?_⟩
    · rw [ht] at htodo
      rw [forall_mem_middle]
      exact ⟨htodo.1, fun t hmem => htodo.2.1 t (mem_cons_of_mem _ hmem), htodo.2.2⟩
    · exact forall_mem_cons.mpr ⟨hk, hlisted⟩
    · intro k' hk'
      rw [exists_mem_middle]
      simp only [ht, mem_cons, exists_eq_or_imp] at hleft
      rcases hleft k' hk' with hseen | hbefore | (rfl | hrest) | hafter
      · exact .inl (mem_cons_of_mem _ hseen)
      · exact .inr (.inl hbefore)
      · exact .inl mem_cons_self
      · exact .inr (.inr (.inl hrest))
      · exact .inr (.inr (.inr hafter))
    · rw [forall_mem_middle]
      have hmono : ∀ x ∈ a ++ b, ∀ k' v, x.found.lookup k' = some v →
          k' ∈ k :: seen ∧ c.peek now k' = some v := by
        intro x hx k' v hv
        have hboth := forall_mem_append.mpr ⟨hfound.1, hfound.2.2⟩ x hx k' v hv
        exact ⟨mem_cons_of_mem _ hboth.1, hboth.2⟩
      obtain ⟨hbefore, hafter⟩ := forall_mem_append.mp hmono
      refine ⟨hbefore, fun k' v hv => ?_, hafter⟩
      cases hnow : c'.peek now k with
      | none =>
        simp only [hnow] at hv
        obtain ⟨hseen, hv'⟩ := hfound.2.1 k' v hv
        exact ⟨mem_cons_of_mem _ hseen, hv'⟩
      | some value =>
        simp only [hnow] at hv
        by_cases hk' : k' = k
        · subst hk'
          rw [AList.lookup_insert] at hv
          rw [hnow] at hpeek
          split_ifs at hpeek
          exact ⟨mem_cons_self, hpeek.symm.trans hv⟩
        · rw [AList.lookup_insert_ne hk'] at hv
          obtain ⟨hseen, hv'⟩ := hfound.2.1 k' v hv
          exact ⟨mem_cons_of_mem _ hseen, hv'⟩
    · intro k' hk' hsome
      rw [exists_mem_middle]
      have hgrow : ∀ x, x ∈ j.found → x ∈ (match c'.peek now k with
          | none => j.found
          | some value => j.found.insert k value) := by
        intro x hx
        split
        · exact hx
        · exact (AList.mem_insert _).mpr (.inr hx)
      by_cases hseen : k' ∈ seen
      · exact (hkept k' hseen hsome).imp_right (.imp_left (hgrow k'))
      · -- found for the first time
        obtain rfl := (mem_cons.mp hk').resolve_right hseen
        obtain ⟨value, hvalue⟩ := Option.isSome_iff_exists.mp hsome
        rw [if_neg fun hlapsed => hseen hlapsed.1, hvalue] at hpeek
        rw [hpeek]
        exact .inr (.inl ((AList.mem_insert _).mpr (.inl rfl)))

theorem Working.settle {a b : List (Job K V)} {j : Job K V}
    (h : c.Working now keys (c', a ++ j :: b) seen) (hdeferred : j.deferred ≠ []) :
    ∃ c'' j', j.settle c' = some (c'', j') ∧ j'.todo = j.todo ∧
      j'.deferred.length + 1 = j.deferred.length ∧ c.Working now keys (c'', a ++ j' :: b) seen := by
  cases hd : j.deferred with
  | nil => exact absurd hd hdeferred
  | cons d rest =>
    obtain ⟨i, read⟩ := d
    obtain ⟨c'', hsettle, hlooked, hmetrics⟩ := h.looked.settle i (some read)
    refine ⟨c'', { j with deferred := rest }, ?_, rfl, rfl, ?_⟩
    · simp only [Job.settle, hd, hsettle, Option.map_some]
    · obtain ⟨-, hm, htodo, hlisted, hleft, hfound, hkept⟩ := h
      simp only [forall_mem_middle, exists_mem_middle] at htodo hleft hfound hkept
      refine ⟨hlooked, hmetrics.trans hm, ?_, hlisted, ?_, ?_, ?_⟩ <;>
        simpa only [forall_mem_middle, exists_mem_middle]

/-- A turn is a look at a key or a read applied. -/
theorem Working.turn {a b : List (Job K V)} {j : Job K V}
    (h : c.Working now keys (c', a ++ j :: b) seen) (hdone : ¬ j.Done) (handle : Handle) :
    ∃ c'' j' seen', j.turn handle c' now = some (c'', j') ∧
      2 * j'.todo.length + j'.deferred.length < 2 * j.todo.length + j.deferred.length ∧
      c.Working now keys (c'', a ++ j' :: b) seen' := by
  have hlook : j.todo ≠ [] → ∃ c'' j' seen', j.look c' now = some (c'', j') ∧
      2 * j'.todo.length + j'.deferred.length < 2 * j.todo.length + j.deferred.length ∧
      c.Working now keys (c'', a ++ j' :: b) seen' := by
    intro htodo
    obtain ⟨k, c'', j', hturn, htodo, hdeferred, hworking⟩ := h.look htodo
    exact ⟨c'', j', _, hturn, by omega, hworking⟩
  have hsettle : j.deferred ≠ [] → ∃ c'' j' seen', j.settle c' = some (c'', j') ∧
      2 * j'.todo.length + j'.deferred.length < 2 * j.todo.length + j.deferred.length ∧
      c.Working now keys (c'', a ++ j' :: b) seen' := by
    intro hdeferred
    obtain ⟨c'', j', hturn, htodo, hdeferred, hworking⟩ := h.settle hdeferred
    exact ⟨c'', j', _, hturn, by rw [htodo]; omega, hworking⟩
  unfold Job.Done at hdone
  unfold Job.turn
  cases handle with
  | sync =>
    by_cases hdeferred : j.deferred = []
    · simp only [hdeferred, isEmpty_nil, if_true]
      exact hdeferred ▸ hlook fun htodo => hdone ⟨htodo, hdeferred⟩
    · simp only [List.isEmpty_iff, hdeferred, if_false]
      exact hsettle hdeferred
  | async =>
    by_cases htodo : j.todo = []
    · simp only [htodo, isEmpty_nil, if_true]
      exact htodo ▸ hsettle fun hdeferred => hdone ⟨htodo, hdeferred⟩
    · simp only [List.isEmpty_iff, htodo, if_false]
      exact hlook htodo

theorem Job.turn_done {j : Job K V} (h : j.Done) (handle : Handle) (c : CacheHandle K V π)
    (now : UInt64) : j.turn handle c now = none := by
  cases handle <;> simp [Job.turn, Job.look, Job.settle, h.1, h.2]

theorem multigetStep_middle (handle : Handle) (now : UInt64) (c : CacheHandle K V π)
    (a b : List (Job K V)) (j : Job K V) :
    multigetStep handle now (c, a ++ j :: b) a.length =
      (j.turn handle c now).map fun r => (r.1, a ++ r.2 :: b) := by
  simp [multigetStep]

theorem Working.step {handle : Handle} {s t : CacheHandle K V π × List (Job K V)} {n : ℕ}
    (h : ∃ seen, c.Working now keys s seen) (hstep : multigetStep handle now s n = some t) :
    ∃ seen, c.Working now keys t seen := by
  obtain ⟨seen, h⟩ := h
  obtain ⟨c', jobs⟩ := s
  obtain ⟨j, hj, -⟩ := Option.bind_eq_some_iff.mp hstep
  obtain ⟨hlt, hget⟩ := List.getElem?_eq_some_iff.mp hj
  obtain ⟨a, b, heq, hlen, -⟩ : ∃ a b, jobs = a ++ jobs[n] :: b ∧ a.length = n ∧
      jobs.set n j = a ++ j :: b := exists_of_set hlt
  rw [hget] at heq
  subst heq hlen
  rw [multigetStep_middle] at hstep
  have hdone : ¬ j.Done := by
    intro hdone
    rw [Job.turn_done hdone, Option.map_none] at hstep
    exact absurd hstep.symm (Option.some_ne_none t)
  obtain ⟨c'', j', seen', hturn, -, hworking⟩ := h.turn hdone handle
  rw [hturn, Option.map_some] at hstep
  exact ⟨seen', Option.some.inj hstep ▸ hworking⟩

def work (s : CacheHandle K V π × List (Job K V)) : ℕ :=
  (s.2.map fun j => 2 * j.todo.length + j.deferred.length).sum

theorem Working.progress {s : CacheHandle K V π × List (Job K V)}
    (h : ∃ seen, c.Working now keys s seen) (hdone : ¬ ∀ j ∈ s.2, j.Done) (handle : Handle) :
    ∃ n t, multigetStep handle now s n = some t ∧ (∃ seen, c.Working now keys t seen) ∧
      work t < work s := by
  obtain ⟨seen, h⟩ := h
  obtain ⟨c', jobs⟩ := s
  push Not at hdone
  obtain ⟨j, hj, hdone⟩ := hdone
  obtain ⟨a, b, rfl⟩ := append_of_mem hj
  obtain ⟨c'', j', seen', hturn, hlt, hworking⟩ := h.turn hdone handle
  refine ⟨a.length, (c'', a ++ j' :: b), ?_, ⟨seen', hworking⟩, ?_⟩
  · rw [multigetStep_middle, hturn, Option.map_some]
  · simp only [work, map_append, map_cons, sum_append, sum_cons]
    omega

/-! ### The result -/

/-- The call finds the pairs that fetching each key in turn finds, and counts the same. -/
def Agrees (c : CacheHandle K V π) (now : UInt64) (keys : List K)
    (r : AList (fun _ : K => V) × CacheHandle K V π) : Prop :=
  ∃ pairs c', c.fetchAll now keys = some (pairs, c') ∧
    (∀ k v, r.1.lookup k = some v ↔ (k, v) ∈ pairs) ∧ r.2.metrics = c'.metrics

theorem lookup_merge {jobs : List (Job K V)} {p : K → Option V}
    (h : ∀ j ∈ jobs, ∀ k v, j.found.lookup k = some v → p k = some v) (k : K) (v : V) :
    (Job.merge jobs).lookup k = some v ↔ p k = some v ∧ ∃ j ∈ jobs, k ∈ j.found := by
  have hfold : ∀ found : AList fun _ : K => V, (∀ k v, found.lookup k = some v → p k = some v) →
      ((jobs.foldl (fun found j => j.found ∪ found) found).lookup k = some v ↔
        p k = some v ∧ (k ∈ found ∨ ∃ j ∈ jobs, k ∈ j.found)) := by
    induction jobs with
    | nil =>
      intro found hfound
      constructor
      · intro hv
        rw [foldl_nil] at hv
        exact ⟨hfound k v hv, .inl (AList.lookup_isSome.mp (by rw [hv]; rfl))⟩
      · rintro ⟨hp, hmem | ⟨j, hj, -⟩⟩
        · obtain ⟨v', hv'⟩ := Option.isSome_iff_exists.mp (AList.lookup_isSome.mpr hmem)
          rw [foldl_nil, hv', ← hp, hfound k v' hv']
        · exact absurd hj not_mem_nil
    | cons j jobs ih =>
      intro found hfound
      obtain ⟨hj, hjobs⟩ := forall_mem_cons.mp h
      have hunion : ∀ k v, (j.found ∪ found).lookup k = some v → p k = some v := by
        intro k v hv
        rcases AList.mem_lookup_union.mp hv with hnew | ⟨-, hold⟩
        · exact hj k v hnew
        · exact hfound k v hold
      rw [foldl_cons, ih hjobs _ hunion, AList.mem_union]
      simp only [mem_cons, exists_eq_or_imp]
      tauto
  have hempty := hfold ∅ fun k v hv => by rw [AList.lookup_empty] at hv; exact nomatch hv
  rw [Job.merge, hempty]
  simp only [AList.notMem_empty, false_or]

omit [CachePolicy π K] in
/-- When every job is done, the maps put together have the keys that a lookup finds. -/
theorem Working.finish {s : CacheHandle K V π × List (Job K V)}
    (h : ∃ seen, c.Working now keys s seen) (hdone : ∀ j ∈ s.2, j.Done) (k : K) (v : V) :
    (Job.merge s.2).lookup k = some v ↔ k ∈ keys ∧ c.peek now k = some v := by
  obtain ⟨seen, h⟩ := h
  have hseen : ∀ k ∈ keys, k ∈ seen := by
    intro k hk
    refine (h.left k hk).resolve_right ?_
    rintro ⟨j, hj, t, ht, -⟩
    rw [(hdone j hj).1] at ht
    exact absurd ht not_mem_nil
  rw [lookup_merge fun j hj k v hv => (h.found j hj k v hv).2]
  constructor
  · rintro ⟨hv, j, hj, hmem⟩
    obtain ⟨v', hv'⟩ := Option.isSome_iff_exists.mp (AList.lookup_isSome.mpr hmem)
    exact ⟨h.listed k (h.found j hj k v' hv').1, hv⟩
  · rintro ⟨hk, hv⟩
    exact ⟨hv, h.kept k (hseen k hk) (by rw [hv]; rfl)⟩

omit [DecidableEq K] [CachePolicy π K] in
theorem count_metrics (handle : Handle) (c : CacheHandle K V π) (total hits : ℕ) :
    (c.count handle total hits).metrics = { c.metrics with
      hits := c.metrics.hits + hits
      misses := c.metrics.misses + (total - hits) } := by
  cases handle with
  | sync =>
    unfold count
    dsimp only
    split_ifs with h
    · rfl
    · rw [Nat.sub_eq_zero_of_le (not_lt.mp h)]
      rfl
  | async => rfl

/-- The map has every key found once, and fetching each key in turn counts it as often as it is
listed, but for a time to idle that ends the entry at its first hit. -/
theorem agrees_iff (hc : c.Sound) (handle : Handle) {m : AList fun _ : K => V}
    {c' : CacheHandle K V π}
    (hm : ∀ k v, m.lookup k = some v ↔ k ∈ keys ∧ c.peek now k = some v)
    (hmetrics : c'.metrics = c.metrics) :
    c.Agrees now keys (m, c'.count handle keys.length m.keys.length) ↔
      c.lapses now = true ∨ (c.foundIn now keys).Nodup := by
  obtain ⟨pairs, c₂, hall, -, hpairs, hfound, hhits, htotal, hupdates⟩ :=
    (hc.looked now).fetchAll keys
  have hsame : ∀ k v, m.lookup k = some v ↔ (k, v) ∈ pairs := by
    intro k v
    rw [hm]
    exact ⟨fun h => hfound k h.1 not_mem_nil v h.2, hpairs k v⟩
  have hkeys : m.keys.length = (c.foundIn now keys).toFinset.card := by
    rw [← toFinset_card_of_nodup m.keys_nodup]
    congr 1
    ext k
    rw [mem_toFinset, mem_toFinset, ← AList.mem_keys, ← AList.lookup_isSome, foundIn,
      mem_filter, Option.isSome_iff_exists]
    simp only [hm, exists_and_left, Option.isSome_iff_exists]
  have hle : (c.foundIn now keys).toFinset.card ≤ keys.length :=
    (toFinset_card_le _).trans (length_filter_le _ _)
  have hcount : (c'.count handle keys.length m.keys.length).metrics = c₂.metrics ↔
      (c.foundIn now keys).toFinset.card = c.hitsOf now [] keys := by
    have heta : c₂.metrics = ⟨c₂.metrics.hits, c₂.metrics.misses, c₂.metrics.updates⟩ := rfl
    rw [count_metrics, hmetrics, hkeys, heta, hupdates]
    simp only [Metrics.mk.injEq, and_true]
    omega
  have hagrees : c.Agrees now keys (m, c'.count handle keys.length m.keys.length) ↔
      (c.foundIn now keys).toFinset.card = c.hitsOf now [] keys := by
    rw [← hcount]
    constructor
    · rintro ⟨pairs', c₃, hall', -, heq⟩
      obtain ⟨rfl, rfl⟩ := Prod.mk.inj (Option.some.inj (hall.symm.trans hall'))
      exact heq
    · exact fun heq => ⟨pairs, c₂, hall, hsame, heq⟩
  rw [hagrees, hitsOf]
  cases c.lapses now with
  | true => simp
  | false =>
    simp only [Bool.false_eq_true, if_false, false_or]
    exact Multiset.toFinset_card_eq_card_iff_nodup

omit [CachePolicy π K] in
theorem working_start {start : List (Job K V)} (hc : c.Sound)
    (hempty : ∀ j ∈ start, j.found = ∅)
    (htodo : ∀ j ∈ start, ∀ t ∈ j.todo, t.1 = c.index t.2 ∧ t.2 ∈ keys)
    (hleft : ∀ k ∈ keys, ∃ j ∈ start, ∃ t ∈ j.todo, t.2 = k) :
    c.Working now keys (c, start) [] where
  looked := hc.looked now
  metrics := rfl
  todo := htodo
  listed := nofun
  left k hk := .inr (hleft k hk)
  found j hj k v hv := by
    rw [hempty j hj, AList.lookup_empty] at hv
    exact nomatch hv
  kept := nofun

/-- Whatever the order of the turns, the call returns, and what it returns is right but for the
counts. -/
theorem returns_iff (handle : Handle) {start : List (Job K V)} (hc : c.Sound)
    (hstart : c.Working now keys (c, start) []) :
    (∃ r, c.Returns handle now keys.length start r) ∧
    ∀ r, c.Returns handle now keys.length start r →
      (c.Agrees now keys r ↔ c.lapses now = true ∨ (c.foundIn now keys).Nodup) := by
  constructor
  · obtain ⟨⟨c', done⟩, hreach, -, hdone⟩ := Machine.exists_reachable_of_measure
      (I := fun s => ∃ seen, c.Working now keys s seen) (D := fun s => ∀ j ∈ s.2, j.Done) work
      (fun s h hdone => Working.progress h hdone handle) ⟨[], hstart⟩
    exact ⟨_, c', done, hreach, hdone, rfl⟩
  · rintro r ⟨c', done, hreach, hdone, rfl⟩
    have hworking := hreach.invariant (I := fun s => ∃ seen, c.Working now keys s seen)
      ⟨[], hstart⟩ fun s n t h _ hstep => Working.step h hstep
    obtain ⟨seen, h⟩ := hworking
    exact agrees_iff hc handle (Working.finish ⟨seen, h⟩ hdone) h.metrics

omit [CachePolicy π K] in
theorem working_jobs (hc : c.Sound) (now : UInt64) (parts : List (List K)) :
    c.Working now parts.flatten (c, c.jobs parts) [] := by
  apply working_start hc
  · intro j hj
    obtain ⟨part, -, rfl⟩ := mem_map.mp hj
    rfl
  · intro j hj t ht
    obtain ⟨part, hpart, rfl⟩ := mem_map.mp hj
    obtain ⟨k, hk, rfl⟩ := mem_map.mp ht
    exact ⟨rfl, mem_flatten.mpr ⟨part, hpart, hk⟩⟩
  · intro k hk
    obtain ⟨part, hpart, hk⟩ := mem_flatten.mp hk
    exact ⟨_, mem_map_of_mem hpart, _, mem_map_of_mem hk, rfl⟩

omit [CachePolicy π K] in
theorem working_jobsByShard (hc : c.Sound) (now : UInt64) (keys : List K) :
    c.Working now keys (c, c.jobsByShard keys) [] := by
  apply working_start hc
  · intro j hj
    obtain ⟨shard, -, rfl⟩ := mem_map.mp hj
    rfl
  · intro j hj t ht
    obtain ⟨shard, hshard, rfl⟩ := mem_map.mp hj
    obtain ⟨k, hk, rfl⟩ := mem_map.mp ht
    obtain ⟨i, -, rfl⟩ := mem_map.mp (mem_filter.mp hshard).1
    obtain ⟨hmem, hi⟩ := mem_filter.mp hk
    rw [c.index_eq_mod]
    exact ⟨(of_decide_eq_true hi).symm, hmem⟩
  · intro k hk
    have hlt : (c.hasher k % c.numShards).toNat < c.numShards.toNat := by
      obtain ⟨j, hj⟩ := c.powerOfTwo
      rw [UInt64.toNat_mod, hj]
      exact Nat.mod_lt _ (Nat.two_pow_pos j)
    have hmem : k ∈ keys.filter fun k' =>
        (c.hasher k' % c.numShards).toNat = (c.hasher k % c.numShards).toNat :=
      mem_filter.mpr ⟨hk, by simp⟩
    refine ⟨_, mem_map_of_mem (mem_filter.mpr
      ⟨mem_map_of_mem (mem_range.mpr hlt), ?_⟩), _, mem_map_of_mem hmem, rfl⟩
    cases hkeys : keys.filter fun k' =>
        (c.hasher k' % c.numShards).toNat = (c.hasher k % c.numShards).toNat with
    | nil =>
      rw [hkeys] at hmem
      exact absurd hmem not_mem_nil
    | cons => rfl

/-! ### The caches that are used -/

omit [DecidableEq K] [CachePolicy π K] in
theorem sound_new (numShards : UInt64) (powerOfTwo : ∃ j, numShards.toNat = 2 ^ j)
    (hasher : K → UInt64) (capacity : UInt64) (shards : ℕ → ShardMap K V π) :
    (new numShards powerOfTwo hasher capacity shards).Sound :=
  fun _ => ⟨⟨[], ReadLog.holds_new⟩, [], ReadRing.holds_new⟩

theorem Sound.insertEntry (hc : c.Sound) (clock : UInt64) (key : K) (entry : CacheEntry V) :
    ∃ c', c.insertEntry clock key entry = some c' ∧ c'.Sound ∧ c'.timeToIdle = c.timeToIdle := by
  have ha : (Access.insert clock key entry).IsWrite := trivial
  obtain ⟨s, hs, hsound⟩ := (hc (c.index key)).write c.hasher c.config ha
  rw [CacheHandle.insertEntry, hs, Option.map_some]
  exact ⟨_, rfl, hc.setShard _ hsound, rfl⟩

/-! ### What a call returns -/

/-- However the keys are split and in whatever order the threads run, both handles return; they
find the pairs and count the lookups of fetching each key in turn exactly when no key that is
found is listed twice, or the time to idle ends an entry at its first hit. -/
theorem multiget_agrees_iff (hc : c.Sound) (now : UInt64) (keys : List K) :
    (∃ r, c.Multiget now keys r) ∧ (∃ r, c.MultigetAsync now keys r) ∧
    ∀ r, c.Multiget now keys r ∨ c.MultigetAsync now keys r →
      (c.Agrees now keys r ↔ c.lapses now = true ∨ (c.foundIn now keys).Nodup) := by
  have hasync := returns_iff .async hc (working_jobsByShard hc now keys)
  refine ⟨?_, hasync.1, ?_⟩
  · obtain ⟨r, hr⟩ := (returns_iff .sync hc (working_jobs hc now [keys])).1
    have hone : [keys].flatten = keys := by simp
    rw [hone] at hr
    exact ⟨r, [keys], hone, hr⟩
  · rintro r (⟨parts, rfl, hr⟩ | hr)
    · exact (returns_iff .sync hc (working_jobs hc now parts)).2 r hr
    · exact hasync.2 r hr

/-- A key that is there and one that is not. -/
theorem multiget_agrees_two :
    let c : CacheHandle UInt64 UInt64 NullPolicy :=
      new 1 ⟨0, rfl⟩ id 10 fun _ => .new 10 1 ⟨⟩ none (.new 60 1 0) 0 0
    ∃ c', c.insert 5 7 70 1 = some c' ∧ ∃ r, c'.Multiget 5 [7, 8] r ∧ c'.Agrees 5 [7, 8] r := by
  intro c
  obtain ⟨c', hc', hsound, htti⟩ := (sound_new 1 ⟨0, rfl⟩ id 10 fun _ =>
    ShardMap.new 10 1 (⟨⟩ : NullPolicy) none (.new 60 1 0) 0 0).insertEntry 5 7
      (CacheEntry.new (70 : UInt64) 1 none none 5)
  obtain ⟨⟨r, hr⟩, -, hagrees⟩ := multiget_agrees_iff hsound 5 [7, 8]
  have hfound : (c.insert 5 7 70 1).map (fun c => c.foundIn 5 [7, 8]) = some [7] := by
    decide
  have hinsert : c.insert 5 7 70 1 = some c' := hc'
  rw [hinsert, Option.map_some, Option.some_inj] at hfound
  refine ⟨c', hinsert, r, hr, (hagrees r (.inl hr)).mpr (.inr ?_)⟩
  rw [hfound]
  exact List.nodup_singleton 7

/-- A key listed twice is fetched with two hits, and `multiget` counts a hit and a miss. -/
theorem multiget_miscounts :
    let c : CacheHandle UInt64 UInt64 NullPolicy :=
      new 1 ⟨0, rfl⟩ id 10 fun _ => .new 10 1 ⟨⟩ none (.new 60 1 0) 0 0
    ∃ c', c.insert 5 7 70 1 = some c' ∧
      (c'.fetchAll 5 [7, 7]).map (fun r => r.2.metrics) = some ⟨2, 0, 0⟩ ∧
      (∃ r, c'.Multiget 5 [7, 7] r) ∧ ∀ r, c'.Multiget 5 [7, 7] r → ¬ c'.Agrees 5 [7, 7] r := by
  intro c
  obtain ⟨c', hc', hsound, htti⟩ := (sound_new 1 ⟨0, rfl⟩ id 10 fun _ =>
    ShardMap.new 10 1 (⟨⟩ : NullPolicy) none (.new 60 1 0) 0 0).insertEntry 5 7
      (CacheEntry.new (70 : UInt64) 1 none none 5)
  have hinsert : c.insert 5 7 70 1 = some c' := hc'
  have hfound : (c.insert 5 7 70 1).map (fun c => c.foundIn 5 [7, 7]) = some [7, 7] := by
    decide
  have hcounts : ((c.insert 5 7 70 1).bind fun c =>
      (c.fetchAll 5 [7, 7]).map fun r => r.2.metrics) = some ⟨2, 0, 0⟩ := by decide
  rw [hinsert, Option.map_some, Option.some_inj] at hfound
  rw [hinsert, Option.bind_some] at hcounts
  have hlapses : c'.lapses 5 = false := by
    rw [lapses, htti]
    rfl
  refine ⟨c', hinsert, hcounts, ?_, ?_⟩
  · obtain ⟨r, hr⟩ := (returns_iff .sync hsound (working_jobs hsound 5 [[7, 7]])).1
    exact ⟨r, [[7, 7]], rfl, hr⟩
  · rintro r ⟨parts, hparts, hr⟩
    rw [← hparts] at hr ⊢
    rw [(returns_iff .sync hsound (working_jobs hsound 5 parts)).2 r hr, hparts, hfound, hlapses]
    decide

end CacheHandle

end Fibre.Cache
