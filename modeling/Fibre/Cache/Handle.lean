import Fibre.Cache.Expiry

/-!
# The handle of the cache

Calls on one key: the reads `get`, `fetch` and `peek`, the inserts, the entry API and `compute`.
Each takes the lock of the key's shard. The reads test the entry they find against the clock; the
entry API and `compute` ask the table only.
-/

namespace Fibre.Cache

/-- What the handles count: the lookups, and the values changed in place. -/
structure Metrics where
  hits : ℕ
  misses : ℕ
  updates : ℕ
  deriving DecidableEq

structure CacheHandle (K V π : Type*) where
  shards : ℕ → LoggedShard K V π
  numShards : UInt64
  /-- The builder rounds the number of shards up. -/
  powerOfTwo : ∃ j, numShards.toNat = 2 ^ j
  hasher : K → UInt64
  capacity : UInt64
  timeToLive : Option Duration
  timeToIdle : Option Duration
  trackReads : Bool
  maintenanceOnIntrospection : Bool
  metrics : Metrics

namespace LoggedShard

variable {K V π : Type*} [DecidableEq K]

/-- What a read does under the read lock: the value found, and the read that could not be logged. -/
def lookup (cfg : ReadConfig) (s : LoggedShard K V π) (now : UInt64) (key : K) :
    Option ((Option V × Option (DeferredRead K)) × LoggedShard K V π) :=
  match s.map.get key with
  | none => some ((none, none), s)
  | some e =>
    if e.isExpiredCoarse cfg.timeToIdle now then some ((none, none), s)
    else (s.onHit cfg now key e).map fun r => ((some e.value, r.1), r.2)

variable [CachePolicy π K]

/-- Applies the read that could not be logged. -/
def settle (s : LoggedShard K V π) (read : Option (DeferredRead K)) : Option (LoggedShard K V π) :=
  match read with
  | none => some s
  | some read => s.applyDeferred read

theorem fetch_eq (cfg : ReadConfig) (s : LoggedShard K V π) (now : UInt64) (key : K) :
    s.fetch cfg now key = (s.lookup cfg now key).bind fun r => r.2.settle r.1.2 := by
  unfold fetch lookup
  cases s.map.get key with
  | none => rfl
  | some e =>
    dsimp only
    split_ifs
    · rfl
    · rw [Option.bind_map]
      apply congrArg
      funext r
      cases hread : r.1 <;> simp only [Function.comp_apply, hread, settle]

end LoggedShard

namespace CacheHandle

variable {K V π : Type*}

def index (c : CacheHandle K V π) (key : K) : ℕ := shardIndex c.hasher c.numShards key

theorem index_eq_mod (c : CacheHandle K V π) (key : K) :
    c.index key = (c.hasher key % c.numShards).toNat := by
  obtain ⟨j, hj⟩ := c.powerOfTwo
  have hpos : (1 : UInt64) ≤ c.numShards := by
    rw [UInt64.le_iff_toNat_le, hj]
    exact Nat.one_le_two_pow
  have hmask : (c.numShards - 1).toNat = 2 ^ j - 1 := by
    rw [UInt64.toNat_sub_of_le _ _ hpos, hj]
    rfl
  rw [index, shardIndex, UInt64.toNat_and, hmask, Nat.and_two_pow_sub_one_eq_mod, UInt64.toNat_mod,
    hj]

/-- The shards after the work on one of them. -/
def setShard (c : CacheHandle K V π) (i : ℕ) (s : LoggedShard K V π) : CacheHandle K V π :=
  { c with shards := Function.update c.shards i s }

theorem setShard_shards (c : CacheHandle K V π) (i : ℕ) (s : LoggedShard K V π) (j : ℕ) :
    (c.setShard i s).shards j = if j = i then s else c.shards j :=
  Function.update_apply c.shards i s j

/-- What a hit reads of the configuration. -/
def config (c : CacheHandle K V π) : ReadConfig :=
  ⟨c.timeToIdle.map Duration.asNanosU64, c.trackReads⟩

def recordHits (c : CacheHandle K V π) (n : ℕ) : CacheHandle K V π :=
  { c with metrics := { c.metrics with hits := c.metrics.hits + n } }

def recordMisses (c : CacheHandle K V π) (n : ℕ) : CacheHandle K V π :=
  { c with metrics := { c.metrics with misses := c.metrics.misses + n } }

/-- A cache of shards with empty logs, in which nothing is configured and nothing was counted. -/
def new (numShards : UInt64) (powerOfTwo : ∃ j, numShards.toNat = 2 ^ j) (hasher : K → UInt64)
    (capacity : UInt64) (shards : ℕ → ShardMap K V π) : CacheHandle K V π where
  shards j := ⟨shards j, .new, .new⟩
  numShards := numShards
  powerOfTwo := powerOfTwo
  hasher := hasher
  capacity := capacity
  timeToLive := none
  timeToIdle := none
  trackReads := false
  maintenanceOnIntrospection := false
  metrics := ⟨0, 0, 0⟩

variable [DecidableEq K]

/-- The resident entry of a key, expired or not. -/
def resident (c : CacheHandle K V π) (key : K) : Option (CacheEntry V) :=
  (c.shards (c.index key)).map.get key

theorem resident_setShard (c : CacheHandle K V π) (i : ℕ) (s : LoggedShard K V π) (key : K) :
    (c.setShard i s).resident key = if c.index key = i then s.map.get key else c.resident key := by
  change (((c.setShard i s).shards (c.index key)).map.get key) = _
  rw [setShard_shards]
  split_ifs <;> rfl

/-! ### The reads -/

def lookup (c : CacheHandle K V π) (now : UInt64) (key : K) :
    Option ((Option V × Option (DeferredRead K)) × CacheHandle K V π) :=
  ((c.shards (c.index key)).lookup c.config now key).map fun r =>
    (r.1, c.setShard (c.index key) r.2)

/-- `peek`: neither the policy nor the access time is told. -/
def peek (c : CacheHandle K V π) (now : UInt64) (key : K) : Option V :=
  match c.resident key with
  | none => none
  | some e => if e.isExpiredCoarse c.config.timeToIdle now then none else some e.value

section Policy

variable [CachePolicy π K]

/-- The write lock of a shard, for a read that could not be logged. -/
def settle (c : CacheHandle K V π) (i : ℕ) (read : Option (DeferredRead K)) :
    Option (CacheHandle K V π) :=
  ((c.shards i).settle read).map (c.setShard i)

/-- `fetch`. -/
def fetch (c : CacheHandle K V π) (now : UInt64) (key : K) :
    Option (Option V × CacheHandle K V π) :=
  (c.lookup now key).bind fun r =>
    (r.2.settle (c.index key) r.1.2).map fun c =>
      (r.1.1, if r.1.1.isSome then c.recordHits 1 else c.recordMisses 1)

/-- `get`: a function is applied to the value. -/
def get {R : Type*} (c : CacheHandle K V π) (now : UInt64) (key : K) (f : V → R) :
    Option (Option R × CacheHandle K V π) :=
  (c.fetch now key).map fun r => (r.1.map f, r.2)

/-! ### The inserts -/

/-- Puts an entry into the shard of its key, under the write lock. -/
def insertEntry (c : CacheHandle K V π) (clock : UInt64) (key : K) (entry : CacheEntry V) :
    Option (CacheHandle K V π) :=
  ((c.shards (c.index key)).step c.hasher c.config (.insert clock key entry)).map
    (c.setShard (c.index key))

/-- `insert`, at a clock value. -/
def insert (c : CacheHandle K V π) (clock : UInt64) (key : K) (value : V) (cost : UInt64) :
    Option (CacheHandle K V π) :=
  c.insertEntry clock key (.new value cost c.timeToLive c.timeToIdle clock)

/-- `insert_with_ttl`, at a clock value. -/
def insertWithTtl (c : CacheHandle K V π) (clock : UInt64) (key : K) (value : V) (cost : UInt64)
    (ttl : Duration) : Option (CacheHandle K V π) :=
  c.insertEntry clock key
    (.newWithCustomExpiry value cost (clock + ttl.asNanosU64) c.timeToIdle clock)

end Policy

end CacheHandle

/-! ### The entry API -/

/-- A view of an entry that is there, with the write lock of its shard. -/
structure OccupiedEntry (K V π : Type*) where
  key : K
  shardGuard : LoggedShard K V π

/-- A view of an entry that is not there, with the write lock of its shard. -/
structure VacantEntry (K V π : Type*) where
  key : K
  shared : CacheHandle K V π
  shardGuard : LoggedShard K V π

/-- What `entry` returns. -/
inductive Entry (K V π : Type*)
  | occupied (o : OccupiedEntry K V π)
  | vacant (v : VacantEntry K V π)

section EntryApi

variable {K V π : Type*} [DecidableEq K]

/-- The value in the entry. Panics when the key is not in the table. -/
def OccupiedEntry.get (o : OccupiedEntry K V π) : Option V :=
  (o.shardGuard.map.get o.key).map (·.value)

/-- `entry`: occupied when the table contains the key. -/
def CacheHandle.entry (c : CacheHandle K V π) (key : K) : Entry K V π :=
  let guard := c.shards (c.index key)
  if (guard.map.get key).isSome then
    .occupied ⟨key, guard⟩
  else
    .vacant ⟨key, c, guard⟩

variable [CachePolicy π K]

def VacantEntry.insert (v : VacantEntry K V π) (clock : UInt64) (value : V) (cost : UInt64) :
    Option (V × LoggedShard K V π) :=
  let newCacheEntry : CacheEntry V :=
    .new value cost v.shared.timeToLive v.shared.timeToIdle clock
  (v.shardGuard.step v.shared.hasher v.shared.config (.insert clock v.key newCacheEntry)).map
    (newCacheEntry.value, ·)

namespace Entry

/-- The value in the entry, or the one that a function gives, inserted. The function is not
called when the entry is there. -/
def orInsertWith (e : Entry K V π) (clock : UInt64) (default : Unit → V) (cost : UInt64) :
    Option (V × LoggedShard K V π) :=
  match e with
  | occupied o => o.get.map (·, o.shardGuard)
  | vacant v => v.insert clock (default ()) cost

def orInsert (e : Entry K V π) (clock : UInt64) (default : V) (cost : UInt64) :
    Option (V × LoggedShard K V π) := e.orInsertWith clock (fun _ => default) cost

def orDefault [Inhabited V] (e : Entry K V π) (clock cost : UInt64) :
    Option (V × LoggedShard K V π) := e.orInsertWith clock (fun _ => default) cost

end Entry

end EntryApi

/-! ### Changing a value -/

/-- What a try to change a value ends with. -/
inductive ComputeResult (R : Type*)
  | ok (r : R)
  | fail
  | notFound

namespace CacheHandle

variable {K V π R : Type*} [DecidableEq K]

/-- `try_compute_val`: changes the value in place, unless somebody else holds it. -/
def tryComputeVal (c : CacheHandle K V π) (key : K) (held : Bool) (f : V → R × V) :
    ComputeResult R × CacheHandle K V π :=
  let shard := c.shards (c.index key)
  match shard.map.get key with
  | none => (.notFound, c)
  | some e =>
    if held then (.fail, c)
    else
      let c := c.setShard (c.index key)
        { shard with map := shard.map.modifyEntry key (fun v => (f v).2) id }
      (.ok (f e.value).1, { c with metrics := { c.metrics with updates := c.metrics.updates + 1 } })

/-- `try_compute`: whether the value was changed, or nothing when there is none. -/
def tryCompute (c : CacheHandle K V π) (key : K) (held : Bool) (f : V → V) :
    Option Bool × CacheHandle K V π :=
  let r := c.tryComputeVal key held fun v => ((), f v)
  match r.1 with
  | .ok _ => (some true, r.2)
  | .fail => (some false, r.2)
  | .notFound => (none, r.2)

/-- `compute_val`: tries until nobody else holds the value. The list says of each try whether
somebody does; the loop is not over when it ends. -/
def computeVal (c : CacheHandle K V π) (key : K) (f : V → R × V) :
    List Bool → Option (ComputeResult R × CacheHandle K V π)
  | [] => none
  | held :: tries =>
    let r := c.tryComputeVal key held f
    match r.1 with
    | .fail => computeVal r.2 key f tries
    | _ => some r

/-- `compute`: whether there was a value to change. -/
def compute (c : CacheHandle K V π) (key : K) (f : V → V) :
    List Bool → Option (Bool × CacheHandle K V π)
  | [] => none
  | held :: tries =>
    let r := c.tryCompute key held f
    match r.1 with
    | some true => some (true, r.2)
    | some false => compute r.2 key f tries
    | none => some (false, r.2)

end CacheHandle

/-! ### An entry past its time to live -/

/-- The entry has a time to live, and it is over. -/
def CacheEntry.PastTtl {V : Type*} (e : CacheEntry V) (now : UInt64) : Prop :=
  e.expiresAt > 0 ∧ now ≥ e.expiresAt

theorem CacheEntry.PastTtl.isExpiredCoarse {V : Type*} {e : CacheEntry V} {now : UInt64}
    (h : e.PastTtl now) (tti : Option UInt64) : e.isExpiredCoarse tti now = true := by
  have hzero : e.expiresAt ≠ 0 := fun heq => UInt64.lt_irrefl 0 (heq ▸ h.1)
  unfold CacheEntry.isExpiredCoarse
  rw [if_neg fun hnone => hzero hnone.1, if_pos ⟨h.1, h.2⟩]

namespace CacheHandle

variable {K V π : Type*} [DecidableEq K] [CachePolicy π K] {c : CacheHandle K V π} {key : K}
  {e : CacheEntry V} {now : UInt64}

/-- The reads find nothing. -/
structure AbsentToReads (c : CacheHandle K V π) (now : UInt64) (key : K) : Prop where
  fetch : ∀ r, c.fetch now key = some r → r.1 = none
  get : ∀ (f : V → V) r, c.get now key f = some r → r.1 = none
  peek : c.peek now key = none

/-- The entry API and `compute` find nothing: the value given is inserted and returned, and no
value is changed. -/
structure AbsentToWrites (c : CacheHandle K V π) (key : K) : Prop where
  entry : ∃ v, c.entry key = .vacant v
  orInsert : ∀ clock cost value r, (c.entry key).orInsert clock value cost = some r → r.1 = value
  orInsertWith : ∀ clock cost value r,
    (c.entry key).orInsertWith clock value cost = some r → r.1 = value ()
  compute : ∀ held tries f, c.compute key f (held :: tries) = some (false, c)

theorem absentToReads_of_expired (hres : c.resident key = some e)
    (hexp : e.isExpiredCoarse c.config.timeToIdle now = true) : c.AbsentToReads now key := by
  have hfetch : ∃ c', c.fetch now key = some (none, c') := by
    unfold resident at hres
    simp [fetch, lookup, LoggedShard.lookup, hres, hexp, settle, LoggedShard.settle]
  obtain ⟨c', hc'⟩ := hfetch
  refine ⟨fun r hr => ?_, fun f r hr => ?_, ?_⟩
  · rw [hc'] at hr
    exact (congrArg Prod.fst (Option.some.inj hr)).symm
  · rw [get, hc'] at hr
    exact (congrArg Prod.fst (Option.some.inj hr)).symm
  · simp only [peek, hres, hexp, if_true]

theorem handed_out (hres : c.resident key = some e) (clock cost : UInt64) (value : V) :
    ∃ o, c.entry key = .occupied o ∧ o.get = some e.value ∧
      (c.entry key).orInsert clock value cost = some (e.value, c.shards (c.index key)) ∧
      ∀ f tries, ∃ c', c.compute key f (false :: tries) = some (true, c') := by
  unfold resident at hres
  have hentry : c.entry key = .occupied ⟨key, c.shards (c.index key)⟩ := by
    simp [entry, hres]
  have hget : OccupiedEntry.get ⟨key, c.shards (c.index key)⟩ = some e.value := by
    simp [OccupiedEntry.get, hres]
  refine ⟨_, hentry, hget, ?_, fun f tries => ?_⟩
  · rw [hentry, Entry.orInsert, Entry.orInsertWith, hget]
    rfl
  · simp [compute, tryCompute, tryComputeVal, hres]

/-- A key whose entry is past its time to live is absent to the reads. It is absent to the entry
API and to `compute` as well exactly when there is no such entry. -/
theorem absent_iff (c : CacheHandle K V π) (now : UInt64) (key : K) :
    (∀ e, c.resident key = some e → e.PastTtl now → c.AbsentToReads now key) ∧
    ((∀ e, c.resident key = some e → e.PastTtl now → c.AbsentToWrites key) ↔
      ∀ e, c.resident key = some e → ¬ e.PastTtl now) := by
  refine ⟨fun e hres hpast => absentToReads_of_expired hres (hpast.isExpiredCoarse _), ?_⟩
  refine forall₂_congr fun e hres => ⟨fun habsent hpast => ?_, fun hpast h => absurd h hpast⟩
  obtain ⟨v, hvacant⟩ := (habsent hpast).entry
  obtain ⟨o, hoccupied, -⟩ := handed_out hres 0 0 e.value
  rw [hoccupied] at hvacant
  exact nomatch hvacant

/-- An entry with a nanosecond to live, five later: the reads find nothing, `or_insert` returns it
and `compute` changes it. -/
theorem expired_handed_out :
    let c : CacheHandle UInt64 UInt64 NullPolicy :=
      new 1 ⟨0, rfl⟩ id 10 fun _ => .new 10 1 ⟨⟩ none (.new 60 1 0) 0 0
    ∃ c', c.insertWithTtl 5 7 70 1 ⟨1, by decide⟩ = some c' ∧
      (∃ e, c'.resident 7 = some e ∧ e.PastTtl 10) ∧
      (c'.fetch 10 7).map Prod.fst = some none ∧
      ((c'.entry 7).orInsert 10 71 1).map Prod.fst = some 70 ∧
      (c'.compute 7 (· + 1) [false]).map Prod.fst = some true ∧
      ¬ c'.AbsentToWrites 7 := by
  intro c
  obtain ⟨c', hc'⟩ := Option.isSome_iff_exists.mp
    (show (c.insertWithTtl 5 7 70 1 ⟨1, by decide⟩).isSome = true by decide)
  have hres : ((c.insertWithTtl 5 7 70 1 ⟨1, by decide⟩).bind fun c =>
      (c.resident 7).map fun e => (e.value, e.expiresAt)) = some (70, 6) := by decide
  have hfetch : ((c.insertWithTtl 5 7 70 1 ⟨1, by decide⟩).bind fun c =>
      (c.fetch 10 7).map Prod.fst) = some none := by decide
  rw [hc', Option.bind_some] at hres hfetch
  obtain ⟨e, he, heq⟩ := Option.map_eq_some_iff.mp hres
  obtain ⟨hvalue, hexp⟩ := Prod.ext_iff.mp heq
  have hpast : e.PastTtl 10 := by
    rw [CacheEntry.PastTtl, show e.expiresAt = 6 from hexp]
    decide
  obtain ⟨o, hentry, -, hinsert, hcompute⟩ := handed_out he 10 1 71
  obtain ⟨c'', hc''⟩ := hcompute (· + 1) []
  refine ⟨c', hc', ⟨e, he, hpast⟩, hfetch, ?_, ?_, fun habsent => ?_⟩
  · rw [hinsert, Option.map_some, show e.value = 70 from hvalue]
  · rw [hc'', Option.map_some]
  · obtain ⟨v, hvacant⟩ := habsent.entry
    rw [hentry] at hvacant
    exact nomatch hvacant

end CacheHandle

end Fibre.Cache
