import Fibre.Cache.ReadLog
import Fibre.Cache.Consistency

/-!
# Deferred reads

A hit only records its read; the next write of the shard applies what was recorded to the policy
first, and so does a hit that finds the log full. A cache that applies each read at once is the
reference.
-/

namespace Fibre.Cache

open Word Function List Option

/-- How a hit reaches the shard's built-in policy, if there is one. -/
inductive BuiltinReads
  | none
  | ring
  | freq

/-- What a hit reads of the cache's configuration. `trackReads` says whether some shard's policy
uses access events. -/
structure ReadConfig where
  timeToIdle : Option UInt64
  trackReads : Bool

/-- A call of a handle. The clock readings are arguments. -/
inductive Access (K V : Type*)
  | fetch (now : UInt64) (key : K)
  | insert (clock : UInt64) (key : K) (entry : CacheEntry V)
  | remove (key : K)

namespace Access

variable {K V : Type*}

/-- The key a call is about. -/
def key : Access K V → K
  | fetch _ key => key
  | insert _ key _ => key
  | remove key => key

/-- An insert or a removal. -/
def IsWrite : Access K V → Prop
  | fetch _ _ => False
  | _ => True

end Access

namespace CacheEntry

variable {V : Type*}

/-- `is_expired_coarse`: past its TTL, or idle for too long. -/
def isExpiredCoarse (e : CacheEntry V) (tti : Option UInt64) (now : UInt64) : Bool :=
  if e.expiresAt = 0 ∧ tti = none then false
  else if e.expiresAt > 0 ∧ now ≥ e.expiresAt then true
  else
    match tti with
    | none => false
    | some tti => now ≥ e.lastAccessed + tti

end CacheEntry

namespace ShardMap

variable {K V π : Type*}

/-- How a hit is recorded: `select::reads`, and no built-in policy. -/
def builtinReads (s : ShardMap K V π) : BuiltinReads :=
  match s.builtin with
  | none => .none
  | some (.tinyLfu _) => .ring
  | some (.s3Fifo _) => .freq

/-- A hit stamps the entry when the cache has a time to idle. -/
def stamp [DecidableEq K] (s : ShardMap K V π) (tti : Option UInt64) (now : UInt64) (key : K) :
    ShardMap K V π :=
  if tti.isSome then s.modifyEntry key id fun _ => now else s

section Now

variable [DecidableEq K] [CachePolicy π K]

/-- Applies a read to the policy at once. An entry without a node has nothing to apply. -/
def accessNow (s : ShardMap K V π) (key : K) (e : CacheEntry V) : ShardMap K V π :=
  match s.builtin with
  | some (.tinyLfu p) =>
    if e.node = NO_NODE then s else { s with builtin := some (.tinyLfu (p.touchNode e.node)) }
  | some (.s3Fifo p) => { s with builtin := some (.s3Fifo (p.touch e.node)) }
  | none => { s with policy := CachePolicy.onAccess s.policy key e.cost }

/-- The reference for `fetch`: a hit that applies its read at once. -/
def fetchNow (s : ShardMap K V π) (tti : Option UInt64) (now : UInt64) (key : K) :
    ShardMap K V π :=
  match s.get key with
  | none => s
  | some e => if e.isExpiredCoarse tti now then s else (s.stamp tti now key).accessNow key e

/-- The reference: every read is applied at once. -/
def stepNow (hash : K → UInt64) (tti : Option UInt64) (s : ShardMap K V π) :
    Access K V → ShardMap K V π
  | .fetch now key => s.fetchNow tti now key
  | .insert clock key entry => (s.insert hash clock key entry).2
  | .remove key => (s.remove key).2

end Now

end ShardMap

/-- A shard with the log of a key-based policy and the ring of a built-in one. The lists of reads
in `map` hold what a write has drained and not applied yet. -/
structure LoggedShard (K V π : Type*) where
  map : ShardMap K V π
  log : ReadLog K
  ring : ReadRing

namespace LoggedShard

variable {K V π : Type*}

/-- What `apply_reads` drains: the ring of TinyLFU, the log of a factory policy. -/
def drain (s : LoggedShard K V π) : Option (LoggedShard K V π) :=
  match s.map.builtin with
  | some (.tinyLfu _) =>
    let r := s.ring.drain
    some { s with map.ring := r.1, ring := r.2 }
  | some (.s3Fifo _) => some s
  | none => s.log.drain.map fun r => { s with map.reads := r.1, log := r.2 }

/-- Records the read of an entry, or returns it when the log or the ring is full. -/
def record (cfg : ReadConfig) (s : LoggedShard K V π) (key : K) (e : CacheEntry V) :
    Option (Option (DeferredRead K) × LoggedShard K V π) :=
  match s.map.builtinReads with
  | .ring =>
    let r := s.ring.push e.node
    if r.1 then some (none, { s with ring := r.2 })
    else some (some (.node e.node), { s with ring := r.2 })
  | .freq => some (none, { s with map := s.map.touchRead e.node })
  | .none =>
    if !cfg.trackReads then some (none, s)
    else
      (s.log.push key e.cost).map fun r =>
        if r.1 then (none, { s with log := r.2 })
        else (some (.key key e.cost), { s with log := r.2 })

variable [DecidableEq K]

/-- `on_hit`: stamps the entry and records the read. -/
def onHit (cfg : ReadConfig) (s : LoggedShard K V π) (now : UInt64) (key : K)
    (e : CacheEntry V) : Option (Option (DeferredRead K) × LoggedShard K V π) :=
  record cfg { s with map := s.map.stamp cfg.timeToIdle now key } key e

variable [CachePolicy π K]

/-- `apply_deferred`, under the write lock. -/
def applyDeferred (s : LoggedShard K V π) (read : DeferredRead K) : Option (LoggedShard K V π) :=
  s.drain.map fun s => { s with map := s.map.applyDeferred read }

/-- `apply_reads`, under the write lock. -/
def applyReads (s : LoggedShard K V π) : Option (LoggedShard K V π) :=
  s.drain.map fun s => { s with map := s.map.applyReads }

/-- `fetch`: a hit records its read, and applies it itself when it could not. -/
def fetch (cfg : ReadConfig) (s : LoggedShard K V π) (now : UInt64) (key : K) :
    Option (LoggedShard K V π) :=
  match s.map.get key with
  | none => some s
  | some e =>
    if e.isExpiredCoarse cfg.timeToIdle now then some s
    else
      (s.onHit cfg now key e).bind fun r =>
        match r.1 with
        | none => some r.2
        | some read => r.2.applyDeferred read

/-- A call; `none` when a loop would not end. -/
def step (hash : K → UInt64) (cfg : ReadConfig) (s : LoggedShard K V π) :
    Access K V → Option (LoggedShard K V π)
  | .fetch now key => s.fetch cfg now key
  | .insert clock key entry =>
    s.drain.map fun s => { s with map := (s.map.insert hash clock key entry).2 }
  | .remove key => s.drain.map fun s => { s with map := (s.map.remove key).2 }

end LoggedShard

theorem Builtin.applyReads_applyReads (b : Builtin) (ring : List NodeId) :
    (b.applyReads ring).1.applyReads (b.applyReads ring).2 = b.applyReads ring := by
  cases b <;> rfl

namespace ShardMap

variable {K V π : Type*} {hash : K → UInt64} {s s' : ShardMap K V π}

/-! ### The lists of drained reads -/

/-- No drained read is left to apply. -/
structure Drained (s : ShardMap K V π) : Prop where
  reads : s.reads = []
  ring : s.ring = []

theorem Drained.congr (h : s.Drained) (hreads : s'.reads = s.reads) (hring : s'.ring = s.ring) :
    s'.Drained := ⟨hreads.trans h.reads, hring.trans h.ring⟩

theorem Drained.disarm (h : s.Drained) (e : CacheEntry V) : (s.disarm e).Drained := by
  obtain ⟨w, hw⟩ := disarm_eq s e
  rw [hw]
  exact h.congr rfl rfl

theorem Drained.takeEntry (h : s.Drained) {p : K × CacheEntry V → Bool} {ke : K × CacheEntry V}
    (ht : s.takeEntry p = some (ke, s')) : s'.Drained := by
  unfold ShardMap.takeEntry at ht
  split at ht
  · simp at ht
  · obtain ⟨-, rfl⟩ := Prod.ext_iff.mp (Option.some.inj ht)
    apply Drained.disarm
    exact h.congr rfl rfl

theorem Drained.evictVictims (h : s.Drained) (vs : List Victim) :
    (s.evictVictims hash vs).2.Drained := by
  induction vs generalizing s with
  | nil => exact h
  | cons v vs ih =>
    unfold ShardMap.evictVictims
    split
    · exact ih h
    · next r hr => exact ih ((h.takeEntry hr).congr rfl rfl)

theorem Drained.evictOver (h : s.Drained) : (s.evictOver hash).2.Drained := by
  unfold ShardMap.evictOver
  split
  · exact h
  · split_ifs
    · apply Drained.evictVictims
      exact h.congr rfl rfl
    · exact h

def withReads (s : ShardMap K V π) (l : List (K × UInt64)) (r : List NodeId) : ShardMap K V π :=
  { s with reads := l, ring := r }

theorem Drained.withReads (h : s.Drained) : s.withReads [] [] = s := by
  have hreads := h.reads
  have hring := h.ring
  obtain ⟨table, cost, budget, policy, reads, builtin, ring, counters, wheel, graceNs, ttiNs⟩ := s
  subst hreads hring
  rfl

/-! ### Writes apply the drained reads first -/

section Apply

variable [CachePolicy π K]

theorem applyReads_of_none (hb : s.builtin = none) : s.applyReads = { s with
    reads := []
    policy := s.reads.foldl (fun p kc => CachePolicy.onAccess p kc.1 kc.2) s.policy } := by
  simp only [applyReads, hb]

theorem applyReads_of_some {b : Builtin} (hb : s.builtin = some b) : s.applyReads = { s with
    builtin := some (b.applyReads s.ring).1
    ring := (b.applyReads s.ring).2 } := by
  simp only [applyReads, hb]

theorem arm_applyReads (s : ShardMap K V π) (clock h : UInt64) (e : CacheEntry V) :
    s.applyReads.arm clock h e =
      ((s.arm clock h e).1, (s.arm clock h e).2.applyReads) := by
  cases hb : s.builtin <;> simp only [applyReads, arm, hb] <;> split_ifs <;> simp only [hb]

theorem applyReads_applyReads (s : ShardMap K V π) : s.applyReads.applyReads = s.applyReads := by
  cases hb : s.builtin with
  | none => simp only [applyReads, hb, foldl_nil]
  | some b => simp only [applyReads, hb, Builtin.applyReads_applyReads]

theorem applyReads_table (s : ShardMap K V π) : s.applyReads.table = s.table := by
  cases hb : s.builtin <;> simp only [applyReads, hb]

theorem Drained.forget (h : s.Drained) (key : K) (e : CacheEntry V) :
    (s.forget key e).Drained := by
  unfold ShardMap.forget
  split <;> exact h.congr rfl rfl

theorem Drained.applyReads (h : s.Drained) : s.applyReads = s := by
  have hreads := h.reads
  have hring := h.ring
  obtain ⟨table, cost, budget, policy, reads, builtin, ring, counters, wheel, graceNs, ttiNs⟩ := s
  subst hreads hring
  cases builtin with
  | none => rfl
  | some b => cases b <;> rfl

end Apply

section Keys

variable [DecidableEq K]

theorem writeBuiltin_applyReads (s : ShardMap K V π) (b : Builtin) (key : K)
    (entry : CacheEntry V) (h : UInt64) :
    writeBuiltin { s with builtin := some (b.applyReads s.ring).1, ring := (b.applyReads s.ring).2 }
      (b.applyReads s.ring).1 key entry h = s.writeBuiltin b key entry h := by
  have hget : ∀ (c : Option Builtin) (r : List NodeId),
      ShardMap.get { s with builtin := c, ring := r } key = s.get key := fun _ _ => rfl
  cases hold : s.get key with
  | none =>
    simp only [writeBuiltin, Builtin.applyReads_applyReads, hget, hold, putEntry]
  | some old =>
    simp only [writeBuiltin, Builtin.applyReads_applyReads, hget, hold, putEntry]

theorem insertBuiltin_applyReads (s : ShardMap K V π) (b : Builtin) (key : K)
    (entry : CacheEntry V) (h : UInt64) :
    insertBuiltin hash
      { s with builtin := some (b.applyReads s.ring).1, ring := (b.applyReads s.ring).2 }
      (b.applyReads s.ring).1 key entry h = s.insertBuiltin hash b key entry h := by
  simp only [insertBuiltin, writeBuiltin_applyReads]

theorem Drained.putEntry (h : s.Drained) (key : K) (entry : CacheEntry V) :
    (s.putEntry key entry).Drained := by
  rw [putEntry_eq]
  exact h.congr rfl rfl

theorem Drained.insertBuiltin (h : s.Drained) (b : Builtin) (key : K) (entry : CacheEntry V)
    (hh : UInt64) : (s.insertBuiltin hash b key entry hh).2.Drained := by
  have hring : (b.applyReads s.ring).2 = [] := by
    rw [h.ring]
    cases b <;> rfl
  have hwrite : (s.writeBuiltin b key entry hh).2.1.Drained := by
    have hput : ∀ e,
        (ShardMap.putEntry { s with ring := (b.applyReads s.ring).2 } key e).Drained := by
      intro e
      apply Drained.putEntry
      exact ⟨h.reads, hring⟩
    unfold ShardMap.writeBuiltin
    dsimp only
    split <;> exact (hput _).congr rfl rfl
  exact ((hwrite.evictVictims _).evictOver).congr rfl rfl

theorem stamp_withReads (s : ShardMap K V π) (tti : Option UInt64) (now : UInt64) (key : K)
    (l : List (K × UInt64)) (r : List NodeId) :
    (s.withReads l r).stamp tti now key = (s.stamp tti now key).withReads l r := by
  unfold stamp
  split_ifs <;> rfl

theorem Drained.stamp (h : s.Drained) (tti : Option UInt64) (now : UInt64) (key : K) :
    (s.stamp tti now key).Drained := by
  unfold ShardMap.stamp
  split_ifs
  · exact h.congr rfl rfl
  · exact h

variable [CachePolicy π K]

theorem insertPolicy_applyReads (s : ShardMap K V π) (key : K) (entry : CacheEntry V) :
    insertPolicy { s with
      reads := []
      policy := s.reads.foldl (fun p kc => CachePolicy.onAccess p kc.1 kc.2) s.policy } key entry =
      s.insertPolicy key entry := by
  simp only [insertPolicy, foldl_nil]
  rfl

theorem insertInner_applyReads (s : ShardMap K V π) (clock : UInt64) (key : K)
    (entry : CacheEntry V) (count : Bool) :
    s.applyReads.insertInner hash clock key entry count =
      s.insertInner hash clock key entry count := by
  have hcost : s.applyReads.cost = s.cost := by
    cases hb : s.builtin <;> simp only [applyReads, hb]
  simp only [insertInner, arm_applyReads, hcost]
  generalize s.arm clock (hash key) entry = a
  cases hb : a.2.builtin with
  | none =>
    simp only [applyReads, hb]
    rw [← insertPolicy_applyReads a.2]
    simp only [hb]
  | some b =>
    simp only [applyReads, hb]
    rw [← insertBuiltin_applyReads a.2]

theorem remove_applyReads (s : ShardMap K V π) (key : K) :
    s.applyReads.remove key = s.remove key := by
  simp only [remove, applyReads_applyReads]

theorem Drained.evictKeys (h : s.Drained) (tell : Bool) (ks : List K) :
    (s.evictKeys tell ks).2.Drained := by
  induction ks generalizing s with
  | nil => exact h
  | cons k ks ih =>
    unfold ShardMap.evictKeys
    split
    · exact ih h
    · next r hr =>
      cases tell
      · exact ih ((h.takeEntry hr).congr rfl rfl)
      · exact ih ((h.takeEntry hr).congr rfl rfl)

theorem Drained.insertPolicy (h : s.Drained) (key : K) (entry : CacheEntry V) :
    (s.insertPolicy key entry).2.Drained := by
  simp only [ShardMap.insertPolicy]
  generalize CachePolicy.onAdmit (s.reads.foldl
    (fun p kc => CachePolicy.onAccess p kc.1 kc.2) s.policy) key entry.cost = d
  have hput : (ShardMap.putEntry { s with reads := [], policy := d.2 } key entry).Drained := by
    apply Drained.putEntry
    exact ⟨rfl, h.ring⟩
  have hover : ∀ r : ℕ × ShardMap K V π, r.2.Drained →
      (if r.2.cost > r.2.budget then
        ShardMap.evictKeys false
          { r.2 with policy := (CachePolicy.evict (K := K) r.2.policy (r.2.cost - r.2.budget)).2 }
          (CachePolicy.evict (K := K) r.2.policy (r.2.cost - r.2.budget)).1.1
        else (0, r.2)).2.Drained := by
    intro r hr
    split_ifs
    · apply Drained.evictKeys
      exact hr.congr rfl rfl
    · exact hr
  refine (hover _ ?_).congr rfl rfl
  split
  · apply Drained.evictKeys
    exact hput.congr rfl rfl
  · exact hput.congr rfl rfl

theorem Drained.insertInner (h : s.Drained) (clock : UInt64) (key : K) (entry : CacheEntry V)
    (count : Bool) : (s.insertInner hash clock key entry count).2.Drained := by
  obtain ⟨w, t, harm⟩ := arm_eq s clock (hash key) entry
  have ha : (s.arm clock (hash key) entry).2.Drained := by
    rw [harm]
    exact h.congr rfl rfl
  simp only [ShardMap.insertInner]
  generalize s.arm clock (hash key) entry = a at ha ⊢
  have hwrite : ∀ r : Option (CacheEntry V) × ShardMap K V π, r.2.Drained →
      (match r.1 with
        | none => r.2
        | some old => r.2.disarm old).Drained := by
    intro r hr
    split
    · exact hr
    · exact hr.disarm _
  cases hb : a.2.builtin with
  | none => cases count <;> exact (hwrite _ (ha.insertPolicy key a.1)).congr rfl rfl
  | some b =>
    cases count <;> exact (hwrite _ (ha.insertBuiltin b key a.1 (hash key))).congr rfl rfl

theorem Drained.remove (h : s.Drained) (key : K) : (s.remove key).2.Drained := by
  have hreads : s.applyReads.Drained := by
    rw [h.applyReads]
    exact h
  unfold ShardMap.remove
  dsimp only
  split
  · exact hreads
  · next ht =>
    apply Drained.forget
    exact (hreads.takeEntry ht).congr rfl rfl

theorem stamp_applyReads (s : ShardMap K V π) (tti : Option UInt64) (now : UInt64) (key : K) :
    s.applyReads.stamp tti now key = (s.stamp tti now key).applyReads := by
  unfold stamp
  split_ifs
  · cases hb : s.builtin <;> simp only [applyReads, modifyEntry, hb]
  · rfl

end Keys

end ShardMap

/-! ### The shard and the reference -/

namespace LoggedShard

open ShardMap

variable {K V π : Type*} [CachePolicy π K] {hash : K → UInt64} {cfg : ReadConfig}
  {d d' : LoggedShard K V π} {i : ShardMap K V π}

/-- The shard `d` is behind the reference `i` by the reads `l` in its log and `r` in its ring. -/
structure BehindBy (d : LoggedShard K V π) (i : ShardMap K V π) (l : List (K × UInt64))
    (r : List NodeId) : Prop where
  log : d.log.Holds l
  ring : d.ring.Holds r
  drained : d.map.Drained
  eq : i = (d.map.withReads l r).applyReads
  ahead : i.Drained

/-- The shard is behind the reference by the reads in its logs. -/
def Behind (d : LoggedShard K V π) (i : ShardMap K V π) : Prop := ∃ l r, d.BehindBy i l r

variable {l : List (K × UInt64)} {r : List NodeId}

theorem BehindBy.table (h : d.BehindBy i l r) : i.table = d.map.table := by
  rw [h.eq, applyReads_table]
  rfl

theorem behindBy_nil (hlog : d.log.Holds []) (hring : d.ring.Holds []) (hdrained : d.map.Drained) :
    d.BehindBy d.map [] [] where
  log := hlog
  ring := hring
  drained := hdrained
  eq := by rw [hdrained.withReads, hdrained.applyReads]
  ahead := hdrained

theorem BehindBy.ring_nil (h : d.BehindBy i l r) (hb : d.map.builtin = none) : r = [] := by
  have hring := h.ahead.ring
  rw [h.eq, applyReads_of_none (s := d.map.withReads l r) hb] at hring
  exact hring

theorem BehindBy.log_nil (h : d.BehindBy i l r) {b : Builtin} (hb : d.map.builtin = some b) :
    l = [] := by
  have hreads := h.ahead.reads
  rw [h.eq, applyReads_of_some (s := d.map.withReads l r) hb] at hreads
  exact hreads

theorem BehindBy.ring_nil_of_s3Fifo (h : d.BehindBy i l r) {p : HS3Fifo}
    (hb : d.map.builtin = some (.s3Fifo p)) : r = [] := by
  have hring := h.ahead.ring
  rw [h.eq, applyReads_of_some (s := d.map.withReads l r) hb] at hring
  exact hring

theorem BehindBy.drain (h : d.BehindBy i l r) :
    ∃ d', d.drain = some d' ∧ d'.map.applyReads = i ∧ d'.log.Holds [] ∧ d'.ring.Holds [] := by
  cases hb : d.map.builtin with
  | none =>
    obtain rfl := h.ring_nil hb
    obtain ⟨log', hdrain, hlog⟩ := h.log.drain
    refine ⟨{ d with map := { d.map with reads := l }, log := log' }, ?_, ?_, hlog, h.ring⟩
    · simp only [LoggedShard.drain, hb, hdrain, map_some]
    · rw [h.eq, withReads, ← h.drained.ring]
  | some b =>
    obtain rfl := h.log_nil hb
    cases b with
    | tinyLfu p =>
      obtain ⟨ring', hdrain, hring'⟩ := h.ring.drain
      refine ⟨{ d with map := { d.map with ring := r }, ring := ring' }, ?_, ?_, h.log, hring'⟩
      · simp only [LoggedShard.drain, hb, hdrain]
      · rw [h.eq, withReads, ← h.drained.reads]
    | s3Fifo p =>
      obtain rfl := h.ring_nil_of_s3Fifo hb
      refine ⟨d, by simp only [LoggedShard.drain, hb], ?_, h.log, h.ring⟩
      rw [h.eq, h.drained.withReads]

theorem BehindBy.write (h : d.BehindBy i l r) (f : ShardMap K V π → ShardMap K V π)
    (hf : ∀ m : ShardMap K V π, f m.applyReads = f m) (hdrained : (f i).Drained) :
    ∃ d', d.drain.map (fun d => { d with map := f d.map }) = some d' ∧ d'.map = f i ∧
      d'.BehindBy (f i) [] [] := by
  obtain ⟨d₁, hdrain, hmap, hlog, hring⟩ := h.drain
  have hfi : f d₁.map = f i := by rw [← hmap, hf]
  have hbehind := behindBy_nil (d := { d₁ with map := f i }) hlog hring hdrained
  refine ⟨{ d₁ with map := f i }, ?_, rfl, hbehind⟩
  rw [hdrain, map_some, hfi]

theorem BehindBy.applyDeferred (h : d.BehindBy i l r) {key : K} {e : CacheEntry V}
    (read : DeferredRead K) (hread : i.applyDeferred read = i.accessNow key e)
    (hdrained : (i.accessNow key e).Drained) :
    ∃ d', d.applyDeferred read = some d' ∧ d'.Behind (i.accessNow key e) := by
  obtain ⟨d', hwrite, -, hbehind⟩ := h.write (fun m => m.applyDeferred read)
    (fun m => by simp only [ShardMap.applyDeferred, applyReads_applyReads]) (by rwa [hread])
  rw [hread] at hbehind
  exact ⟨d', hwrite, [], [], hbehind⟩

theorem BehindBy.access (h : d.BehindBy i l r)
    (hlawful : cfg.trackReads = false → ∀ (p : π) (k : K) (c : UInt64),
      CachePolicy.onAccess p k c = p) (key : K) (e : CacheEntry V) :
    ∃ d', ((record cfg d key e).bind fun q =>
        match q.1 with
        | none => some q.2
        | some read => q.2.applyDeferred read) = some d' ∧
      d'.Behind (i.accessNow key e) := by
  cases hb : d.map.builtin with
  | none =>
    obtain rfl := h.ring_nil hb
    have hi := h.eq.trans (applyReads_of_none (s := d.map.withReads l []) hb)
    have hdrained : (i.accessNow key e).Drained := by
      rw [hi]
      simp only [accessNow, withReads, hb]
      exact ⟨rfl, rfl⟩
    cases htrack : cfg.trackReads with
    | false =>
      refine ⟨d, by simp [record, builtinReads, hb, htrack], l, [], ?_⟩
      have : i.accessNow key e = i := by
        rw [hi]
        simp only [accessNow, withReads, hb, hlawful htrack]
      rwa [this]
    | true =>
      rcases h.log.length_le.lt_or_eq with hlt | hfull
      · obtain ⟨log', hpush, hlog⟩ := h.log.push hlt key e.cost
        refine ⟨{ d with log := log' }, ?_, l ++ [(key, e.cost)], [], hlog, h.ring, h.drained,
          ?_, hdrained⟩
        · simp [record, builtinReads, hb, htrack, hpush]
        · rw [hi, applyReads_of_none (s := ShardMap.withReads _ (l ++ [(key, e.cost)]) []) hb]
          simp [accessNow, withReads, hb]
      · have hpush := h.log.push_full hfull key e.cost
        obtain ⟨d', hd', hbehind⟩ := h.applyDeferred (.key key e.cost)
          (by
            rw [ShardMap.applyDeferred, h.ahead.applyReads, hi]
            simp only [accessNow, withReads, hb]) hdrained
        refine ⟨d', ?_, hbehind⟩
        simpa [record, builtinReads, hb, htrack, hpush] using hd'
  | some b =>
    obtain rfl := h.log_nil hb
    have hi := h.eq.trans (applyReads_of_some (s := d.map.withReads [] r) hb)
    cases b with
    | tinyLfu p =>
      by_cases hnode : e.node = NO_NODE
      · -- the entry has no node: nothing is recorded, and nothing applied
        refine ⟨d, by simp [record, builtinReads, hb, ReadRing.push, hnode], [], r, ?_⟩
        have : i.accessNow key e = i := by
          rw [hi]
          simp only [accessNow, withReads, Builtin.applyReads, hnode, if_true]
        rwa [this]
      · have hdrained : (i.accessNow key e).Drained := by
          rw [hi]
          simp only [accessNow, withReads, Builtin.applyReads, hnode, if_false]
          exact ⟨rfl, rfl⟩
        rcases h.ring.length_le.lt_or_eq with hlt | hfull
        · obtain ⟨ring', hpush, hring⟩ := h.ring.push hlt hnode
          refine ⟨{ d with ring := ring' }, ?_, [], r ++ [e.node], h.log, hring, h.drained,
            ?_, hdrained⟩
          · simp [record, builtinReads, hb, hpush]
          · rw [hi, applyReads_of_some (s := ShardMap.withReads _ [] (r ++ [e.node])) hb]
            simp [accessNow, withReads, Builtin.applyReads, HTinyLfu.applyReads, hnode]
        · have hpush := h.ring.push_full hfull hnode
          obtain ⟨d', hd', hbehind⟩ := h.applyDeferred (.node e.node)
            (by
              rw [ShardMap.applyDeferred, h.ahead.applyReads, hi]
              simp [accessNow, withReads, Builtin.applyReads, Builtin.applyRead, hnode]) hdrained
          refine ⟨d', ?_, hbehind⟩
          simpa [record, builtinReads, hb, hpush] using hd'
    | s3Fifo p =>
      obtain rfl := h.ring_nil_of_s3Fifo hb
      refine ⟨{ d with map := d.map.touchRead e.node }, ?_, ?_⟩
      · simp [record, builtinReads, hb]
      · have hdrained : (d.map.touchRead e.node).Drained := h.drained.congr rfl rfl
        have : i.accessNow key e = d.map.touchRead e.node := by
          rw [hi]
          simp [accessNow, withReads, touchRead, Builtin.applyReads, Builtin.touch, hb,
            h.drained.reads, h.drained.ring]
        rw [this]
        exact ⟨[], [], behindBy_nil h.log h.ring hdrained⟩

/-- A call keeps the shard behind the reference, and a write lets it catch up. -/
theorem Behind.step [DecidableEq K] (h : d.Behind i)
    (hlawful : cfg.trackReads = false → ∀ (p : π) (k : K) (c : UInt64),
      CachePolicy.onAccess p k c = p) (a : Access K V) :
    ∃ d', d.step hash cfg a = some d' ∧ d'.Behind (i.stepNow hash cfg.timeToIdle a) ∧
      (a.IsWrite → d'.map = i.stepNow hash cfg.timeToIdle a) := by
  obtain ⟨l, r, h⟩ := h
  cases a with
  | fetch now key =>
    have hget : i.get key = d.map.get key := by rw [ShardMap.get, h.table, ShardMap.get]
    suffices ∃ d', d.fetch cfg now key = some d' ∧
        d'.Behind (i.fetchNow cfg.timeToIdle now key) by
      obtain ⟨d', hd', hbehind⟩ := this
      exact ⟨d', hd', hbehind, False.elim⟩
    unfold fetch fetchNow
    rw [hget]
    cases d.map.get key with
    | none => exact ⟨d, rfl, l, r, h⟩
    | some e =>
      dsimp only
      split_ifs
      · exact ⟨d, rfl, l, r, h⟩
      · -- the stamp reaches both alike
        have hstamp : BehindBy { d with map := d.map.stamp cfg.timeToIdle now key }
            (i.stamp cfg.timeToIdle now key) l r :=
          ⟨h.log, h.ring, h.drained.stamp _ now key,
            by rw [h.eq, stamp_applyReads, stamp_withReads], h.ahead.stamp _ now key⟩
        exact hstamp.access hlawful key e
  | insert clock key entry =>
    obtain ⟨d', hd', hmap, hbehind⟩ := h.write (fun m => (m.insert hash clock key entry).2)
      (fun m => by rw [ShardMap.insert, ShardMap.insert, insertInner_applyReads])
      (h.ahead.insertInner clock key entry true)
    exact ⟨d', hd', ⟨[], [], hbehind⟩, fun _ => hmap⟩
  | remove key =>
    obtain ⟨d', hd', hmap, hbehind⟩ := h.write (fun m => (m.remove key).2)
      (fun m => by rw [remove_applyReads]) (h.ahead.remove key)
    exact ⟨d', hd', ⟨[], [], hbehind⟩, fun _ => hmap⟩

end LoggedShard

/-! ### The cache -/

/-- The shard a key belongs to, for a cache of `shards` shards. -/
def shardIndex {K : Type*} (hash : K → UInt64) (shards : UInt64) (key : K) : ℕ :=
  (hash key &&& (shards - 1)).toNat

namespace ReadCache

variable {K V π : Type*} [DecidableEq K] [CachePolicy π K] (hash : K → UInt64) (shards : UInt64)

/-- A call on the shard of its key. -/
def step (cfg : ReadConfig) (c : ℕ → LoggedShard K V π) (a : Access K V) :
    Option (ℕ → LoggedShard K V π) :=
  ((c (shardIndex hash shards a.key)).step hash cfg a).map
    (update c (shardIndex hash shards a.key))

/-- A sequence of calls. -/
def run (cfg : ReadConfig) : (ℕ → LoggedShard K V π) → List (Access K V) →
    Option (ℕ → LoggedShard K V π)
  | c, [] => some c
  | c, a :: as => (step hash shards cfg c a).bind fun c => run cfg c as

/-- A call on the cache that applies each read at once. -/
def stepNow (tti : Option UInt64) (c : ℕ → ShardMap K V π) (a : Access K V) :
    ℕ → ShardMap K V π :=
  update c (shardIndex hash shards a.key)
    ((c (shardIndex hash shards a.key)).stepNow hash tti a)

/-- A sequence of calls on the cache that applies each read at once. -/
def runNow (tti : Option UInt64) (c : ℕ → ShardMap K V π) (as : List (Access K V)) :
    ℕ → ShardMap K V π :=
  as.foldl (stepNow hash shards tti) c

/-- The shards as the builder makes them. -/
def newShards (capacity : UInt64) (policies : ℕ → π) (builtin : Option Builtin)
    (wheel : TimerWheel) (graceNs ttiNs : UInt64) (j : ℕ) : ShardMap K V π :=
  .new capacity shards (policies j) builtin wheel graceNs ttiNs

variable {hash shards} {cfg : ReadConfig} {c : ℕ → LoggedShard K V π} {m : ℕ → ShardMap K V π}

theorem step_behind (h : ∀ j, (c j).Behind (m j))
    (hlawful : cfg.trackReads = false → ∀ (p : π) (k : K) (c : UInt64),
      CachePolicy.onAccess p k c = p) (a : Access K V) :
    ∃ c', step hash shards cfg c a = some c' ∧
      (∀ j, (c' j).Behind (stepNow hash shards cfg.timeToIdle m a j)) ∧
      (a.IsWrite → (c' (shardIndex hash shards a.key)).map =
        stepNow hash shards cfg.timeToIdle m a (shardIndex hash shards a.key)) := by
  obtain ⟨d, hstep, hbehind, hwrite⟩ := (h (shardIndex hash shards a.key)).step hlawful a
  refine ⟨update c _ d, by rw [step, hstep, map_some], fun j => ?_, fun ha => ?_⟩
  · unfold stepNow
    by_cases hj : j = shardIndex hash shards a.key
    · subst hj
      rw [update_self, update_self]
      exact hbehind
    · rw [update_of_ne hj, update_of_ne hj]
      exact h j
  · rw [stepNow, update_self, update_self]
    exact hwrite ha

theorem run_behind (h : ∀ j, (c j).Behind (m j))
    (hlawful : cfg.trackReads = false → ∀ (p : π) (k : K) (c : UInt64),
      CachePolicy.onAccess p k c = p) (as : List (Access K V)) (a : Access K V) :
    ∃ c', run hash shards cfg c (as ++ [a]) = some c' ∧
      (∀ j, (c' j).Behind (runNow hash shards cfg.timeToIdle m (as ++ [a]) j)) ∧
      (a.IsWrite → (c' (shardIndex hash shards a.key)).map =
        runNow hash shards cfg.timeToIdle m (as ++ [a]) (shardIndex hash shards a.key)) := by
  induction as generalizing c m with
  | nil =>
    obtain ⟨c', hstep, hbehind, hwrite⟩ := step_behind h hlawful a
    exact ⟨c', by rw [nil_append, run, hstep]; rfl, hbehind, hwrite⟩
  | cons b as ih =>
    obtain ⟨c₁, hstep, hbehind, -⟩ := step_behind h hlawful b
    obtain ⟨c', hrun, hrest⟩ := ih hbehind
    exact ⟨c', by rw [cons_append, run, hstep]; exact hrun, hrest⟩

variable (hash shards) in
/-- For every policy, built in or from a factory, and every sequence of fetches, inserts and
removals that ends with a write: the shard written is the one of a cache that applies each read
at once, every shard has the same entries, and applying its recorded reads makes every other
shard the same too. A factory policy that says it does not use access events has to ignore
them. -/
theorem deferred_eq_immediate (cfg : ReadConfig) (capacity : UInt64) (policies : ℕ → π)
    (builtin : Option Builtin) (wheel : TimerWheel) (graceNs ttiNs : UInt64)
    (hlawful : cfg.trackReads = false → ∀ (p : π) (k : K) (c : UInt64),
      CachePolicy.onAccess p k c = p)
    (as : List (Access K V)) (a : Access K V) (ha : a.IsWrite) :
    ∃ c, run hash shards cfg (fun j =>
        ⟨newShards shards capacity policies builtin wheel graceNs ttiNs j, .new, .new⟩)
        (as ++ [a]) = some c ∧
      let now := runNow hash shards cfg.timeToIdle
        (newShards shards capacity policies builtin wheel graceNs ttiNs) (as ++ [a])
      (c (shardIndex hash shards a.key)).map = now (shardIndex hash shards a.key) ∧
      (∀ j, (c j).map.table = (now j).table) ∧
      ∀ j, ((c j).applyReads.map LoggedShard.map) = some (now j) := by
  have hnew : ∀ j, LoggedShard.Behind
      (⟨newShards shards capacity policies builtin wheel graceNs ttiNs j, .new, .new⟩ :
        LoggedShard K V π) (newShards shards capacity policies builtin wheel graceNs ttiNs j) :=
    fun j => ⟨[], [], LoggedShard.behindBy_nil ReadLog.holds_new ReadRing.holds_new ⟨rfl, rfl⟩⟩
  obtain ⟨c, hrun, hbehind, hwrite⟩ := run_behind hnew hlawful as a
  refine ⟨c, hrun, hwrite ha, fun j => ?_, fun j => ?_⟩
  · obtain ⟨l, r, h⟩ := hbehind j
    exact h.table.symm
  · obtain ⟨l, r, h⟩ := hbehind j
    obtain ⟨d', hd', hmap, -⟩ := h.write ShardMap.applyReads ShardMap.applyReads_applyReads
      (by rw [h.ahead.applyReads]; exact h.ahead)
    rw [h.ahead.applyReads] at hmap
    rw [LoggedShard.applyReads, hd', Option.map_some, hmap]

/-- An insert, a read and a removal under a policy that ignores reads and says so. -/
theorem deferred_eq_immediate_null :
    ∃ c, run (fun k : ℕ => UInt64.ofNat k) 1 ⟨none, false⟩ (fun j =>
        ⟨newShards 1 10 (fun _ => NullPolicy.mk) none (.new 60 10 0) 0 0 j, .new, .new⟩)
        ([.insert 0 7 ⟨(), 1, 0, 0, NO_NODE, 0, none⟩, .fetch 0 7] ++ [.remove 7]) = some c ∧
      (c 0).map = runNow (fun k : ℕ => UInt64.ofNat k) 1 none
        (newShards 1 10 (fun _ => NullPolicy.mk) none (.new 60 10 0) 0 0)
        ([.insert 0 7 ⟨(), 1, 0, 0, NO_NODE, 0, none⟩, .fetch 0 7] ++ [.remove 7]) 0 := by
  obtain ⟨c, hrun, hmap, -⟩ := deferred_eq_immediate (fun k : ℕ => UInt64.ofNat k) 1
    ⟨none, false⟩ 10 (fun _ => NullPolicy.mk) none (.new 60 10 0) 0 0 (fun _ _ _ _ => rfl)
    [.insert 0 7 ⟨(), 1, 0, 0, NO_NODE, 0, none⟩, .fetch 0 7] (.remove 7) trivial
  exact ⟨c, hrun, hmap⟩

end ReadCache

end Fibre.Cache
