import Fibre.Cache.Builtin
import Fibre.Cache.Policy
import Fibre.Cache.TimerWheel

/-!
# A shard of the cache

One independently locked partition: its entries, their cost, the policy that decides which
of them to evict, the reads not yet applied to the policy, and the TTL timers. Every
operation runs under the shard's lock, so an operation is a function of the state.

The hash table is the list of its entries; looking one up by hash and predicate gives the
first whose key has that hash and which the predicate accepts. Clock readings are arguments.
The eviction listener is left out, as nothing is read back from it.
-/

namespace Fibre.Cache

open Word

/-- The id of no node, `u64::MAX`. -/
def NO_NODE : NodeId := ⟨0xffffffff, 0xffffffff⟩

/-- A value in the cache with its metadata. A zero `expiresAt` means no TTL. -/
structure CacheEntry (V : Type*) where
  value : V
  cost : UInt64
  expiresAt : UInt64
  lastAccessed : UInt64
  node : NodeId
  keyHash : UInt64
  ttlTimerHandle : Option TimerHandle

/-- Counters a shard bumps under its write lock. -/
structure ShardCounters where
  inserts : UInt64
  keysAdmitted : UInt64
  totalCostAdded : UInt64
  evictedByCapacity : UInt64
  costDelta : UInt64

/-- Which limit removed an entry. -/
inductive ExpiredBy
  | ttl
  | tti
  deriving DecidableEq

/-- A read the hit path could not log. -/
inductive DeferredRead (K : Type*)
  | key (key : K) (cost : UInt64)
  | node (node : NodeId)

/-- A shard's entries, its cost and its policy. `builtin` is set when no factory was given;
`policy` is then unused. `reads` is the log for a factory policy, `ring` the one for a
built-in policy, both oldest first. -/
structure ShardMap (K V π : Type*) where
  table : List (K × CacheEntry V)
  cost : UInt64
  budget : UInt64
  policy : π
  reads : List (K × UInt64)
  builtin : Option Builtin
  ring : List NodeId
  counters : ShardCounters
  wheel : TimerWheel
  graceNs : UInt64
  ttiNs : UInt64

def readSlots : ℕ := 256

namespace CacheEntry

variable {V : Type*}

/-- Whether the entry has been idle for too long. -/
def isIdle (e : CacheEntry V) (now ttiNs : UInt64) : Bool :=
  ttiNs > 0 && now ≥ satAdd e.lastAccessed ttiNs

/-- The limit the entry is past at `now`, if any. -/
def expiredBy (e : CacheEntry V) (now graceNs ttiNs : UInt64) : Option ExpiredBy :=
  if e.expiresAt > 0 ∧ now ≥ satAdd e.expiresAt graceNs then
    some .ttl
  else if e.isIdle now ttiNs then
    -- past its TTL and waiting on the grace period, the TTL is what ended it
    some (if e.expiresAt > 0 ∧ now ≥ e.expiresAt then .ttl else .tti)
  else
    none

end CacheEntry

namespace ShardMap

variable {K V π : Type*}

/-- An empty shard of a cache of `capacity` over `shards` shards. -/
def new (capacity shards : UInt64) (policy : π) (builtin : Option Builtin) (wheel : TimerWheel)
    (graceNs ttiNs : UInt64) : ShardMap K V π where
  table := []
  cost := 0
  budget := shardBudget capacity shards
  policy := policy
  reads := []
  builtin := builtin
  ring := []
  counters := ⟨0, 0, 0, 0, 0⟩
  wheel := wheel
  graceNs := graceNs
  ttiNs := ttiNs

/-- A shard with the built-in policy `choice`, as the builder makes it. -/
def newBuiltin (capacity shards : UInt64) (policy : π) (choice : BuiltinChoice)
    (wheel : TimerWheel) (graceNs ttiNs : UInt64) : ShardMap K V π :=
  new capacity shards policy (some (.new choice (builtinCapacity capacity shards))) wheel
    graceNs ttiNs

def disarm (s : ShardMap K V π) (e : CacheEntry V) : ShardMap K V π :=
  match e.ttlTimerHandle with
  | none => s
  | some h => { s with wheel := s.wheel.cancel h }

def arm (s : ShardMap K V π) (clock hash : UInt64) (e : CacheEntry V) :
    CacheEntry V × ShardMap K V π :=
  let e := { e with keyHash := hash }
  if e.expiresAt > 0 then
    let r := s.wheel.schedule clock hash (satAdd e.expiresAt s.graceNs)
    ({ e with ttlTimerHandle := some r.1 }, { s with wheel := r.2 })
  else
    (e, s)

/-- Removes the first entry that `p` accepts and takes its timer off the wheel. -/
def takeEntry (s : ShardMap K V π) (p : K × CacheEntry V → Bool) :
    Option ((K × CacheEntry V) × ShardMap K V π) :=
  match s.table.find? p with
  | none => none
  | some ke => some (ke, { s with table := s.table.eraseP p : ShardMap K V π }.disarm ke.2)

def forget [CachePolicy π K] (s : ShardMap K V π) (key : K) (e : CacheEntry V) : ShardMap K V π :=
  match s.builtin with
  | some b => { s with builtin := some (b.remove e.node) }
  | none => { s with policy := CachePolicy.onRemove s.policy key }

def accountEviction (s : ShardMap K V π) (e : CacheEntry V) : ShardMap K V π :=
  { s with cost := s.cost - e.cost }

section Keys

variable [DecidableEq K]

/-- The resident entry of a key. -/
def get (s : ShardMap K V π) (k : K) : Option (CacheEntry V) :=
  (s.table.find? (·.1 = k)).map (·.2)

/-- Puts `key` in the table, in place when it is resident. -/
def putEntry (s : ShardMap K V π) (key : K) (entry : CacheEntry V) : ShardMap K V π :=
  match s.get key with
  | some _ => { s with
      table := s.table.map fun ke => if ke.1 = key then (ke.1, entry) else ke }
  | none => { s with table := s.table ++ [(key, entry)] }

/-- Removes the entry of `k`. -/
def take (s : ShardMap K V π) (k : K) : Option ((K × CacheEntry V) × ShardMap K V π) :=
  s.takeEntry (·.1 = k)

end Keys

section Hashed

variable (hash : K → UInt64)

def takeVictim (s : ShardMap K V π) (v : Victim) : Option ((K × CacheEntry V) × ShardMap K V π) :=
  s.takeEntry fun ke => hash ke.1 = v.1 ∧ ke.2.node = v.2

/-- Removes the policy's victims; also returns how many were resident. -/
def evictVictims (s : ShardMap K V π) : List Victim → ℕ × ShardMap K V π
  | [] => (0, s)
  | v :: vs =>
    match s.takeVictim hash v with
    | none => evictVictims s vs
    | some r =>
      let r := evictVictims (r.2.accountEviction r.1.2) vs
      (r.1 + 1, r.2)

def addEvicted (s : ShardMap K V π) (n : ℕ) : ShardMap K V π :=
  { s with counters :=
    { s.counters with evictedByCapacity := s.counters.evictedByCapacity + UInt64.ofNat n } }

variable [DecidableEq K]

/-- The table and cost after the write itself, before anything is evicted, with the victims
the policy named while admitting. -/
def writeBuiltin (s : ShardMap K V π) (b : Builtin) (key : K) (entry : CacheEntry V) (h : UInt64) :
    Option (CacheEntry V) × ShardMap K V π × List Victim :=
  let r := b.applyReads s.ring
  let s := { s with ring := r.2 }
  match s.get key with
  | some old =>
    let s := s.putEntry key { entry with node := old.node }
    (some old, { s with
      builtin := some (r.1.update old.node entry.cost)
      cost := s.cost - old.cost + entry.cost }, [])
  | none =>
    let a := r.1.admitEntry h entry.cost []
    let s := s.putEntry key { entry with node := a.1 }
    (none, { s with builtin := some a.2.1, cost := s.cost + entry.cost }, a.2.2)

/-- Evicts what the policy names when the shard is over its budget; also returns how many
were resident. -/
def evictOver (s : ShardMap K V π) : ℕ × ShardMap K V π :=
  match s.builtin with
  | none => (0, s)
  | some b =>
    if s.cost > s.budget then
      let r := b.evict (s.cost - s.budget) []
      evictVictims hash { s with builtin := some r.1 } r.2
    else
      (0, s)

/-- An insert under a built-in policy. Returns the entry replaced. -/
def insertBuiltin (s : ShardMap K V π) (b : Builtin) (key : K) (entry : CacheEntry V) (h : UInt64) :
    Option (CacheEntry V) × ShardMap K V π :=
  let w := s.writeBuiltin b key entry h
  let r := w.2.1.evictVictims hash w.2.2
  let q := r.2.evictOver hash
  (w.1, q.2.addEvicted (r.1 + q.1))

/-- Removes the keys a factory policy names; also returns how many were resident. The flag
says whether the policy is told, as it is for victims named while admitting. -/
def evictKeys [CachePolicy π K] (tell : Bool) (s : ShardMap K V π) : List K → ℕ × ShardMap K V π
  | [] => (0, s)
  | k :: ks =>
    match s.take k with
    | none => evictKeys tell s ks
    | some r =>
      let s := if tell then { r.2 with policy := CachePolicy.onRemove r.2.policy k } else r.2
      let r := evictKeys tell (s.accountEviction r.1.2) ks
      (r.1 + 1, r.2)

def insertPolicy [CachePolicy π K] (s : ShardMap K V π) (key : K) (entry : CacheEntry V) :
    Option (CacheEntry V) × ShardMap K V π :=
  let policy := s.reads.foldl (fun p kc => CachePolicy.onAccess p kc.1 kc.2) s.policy
  let d := CachePolicy.onAdmit policy key entry.cost
  let old := s.get key
  let s := { s with reads := [], policy := d.2 : ShardMap K V π }.putEntry key entry
  let s := { s with cost := s.cost - (old.map CacheEntry.cost).getD 0 + entry.cost }
  let r := match d.1 with
    | .admitAndEvict victims => s.evictKeys true victims
    | _ => (0, s)
  let q :=
    if r.2.cost > r.2.budget then
      let e := CachePolicy.evict r.2.policy (r.2.cost - r.2.budget)
      evictKeys false { r.2 with policy := e.2 } e.1.1
    else
      (0, r.2)
  (old, q.2.addEvicted (r.1 + q.1))

def countInsert (s : ShardMap K V π) (cost : UInt64) : ShardMap K V π :=
  { s with counters := { s.counters with
    inserts := s.counters.inserts + 1
    keysAdmitted := s.counters.keysAdmitted + 1
    totalCostAdded := s.counters.totalCostAdded + cost } }

/-- `insert_inner`: arms the entry's timer, writes it, evicts, disarms the entry replaced and
counts. -/
def insertInner [CachePolicy π K] (s : ShardMap K V π) (clock : UInt64) (key : K)
    (entry : CacheEntry V) (count : Bool) : Option (CacheEntry V) × ShardMap K V π :=
  let before := s.cost
  let a := s.arm clock (hash key) entry
  let r := match a.2.builtin with
    | some b => a.2.insertBuiltin hash b key a.1 (hash key)
    | none => a.2.insertPolicy key a.1
  let s := match r.1 with
    | none => r.2
    | some old => r.2.disarm old
  let s := if count then s.countInsert entry.cost else s
  (r.1, { s with counters :=
    { s.counters with costDelta := s.counters.costDelta + (s.cost - before) } })

/-- Inserts or replaces the entry of `key`. -/
def insert [CachePolicy π K] (s : ShardMap K V π) (clock : UInt64) (key : K)
    (entry : CacheEntry V) : Option (CacheEntry V) × ShardMap K V π :=
  s.insertInner hash clock key entry true

end Hashed

section Policy

variable [CachePolicy π K]

def applyReads (s : ShardMap K V π) : ShardMap K V π :=
  match s.builtin with
  | some b =>
    let r := b.applyReads s.ring
    { s with builtin := some r.1, ring := r.2 }
  | none =>
    { s with
      reads := []
      policy := s.reads.foldl (fun p kc => CachePolicy.onAccess p kc.1 kc.2) s.policy }

/-- Applies a read a hit path could not log, after the reads logged before it. -/
def applyDeferred (s : ShardMap K V π) (read : DeferredRead K) : ShardMap K V π :=
  let s := s.applyReads
  match read with
  | .key k c => { s with policy := CachePolicy.onAccess s.policy k c }
  | .node n => { s with builtin := s.builtin.map (·.applyRead n) }

/-- Removes the entry of `k`. -/
def remove [DecidableEq K] (s : ShardMap K V π) (k : K) :
    Option (CacheEntry V) × ShardMap K V π :=
  let s := s.applyReads
  match s.take k with
  | none => (none, s)
  | some ((key, e), s) => (some e, { s with cost := s.cost - e.cost : ShardMap K V π }.forget key e)

/-- The entries under `hash` past a limit at `now` are removed, at most `fuel` of them. -/
def removeExpiredLoop (hash : K → UInt64) (h now : UInt64) :
    ℕ → ShardMap K V π → List (K × CacheEntry V × ExpiredBy) →
      ShardMap K V π × List (K × CacheEntry V × ExpiredBy)
  | 0, s, out => (s, out)
  | fuel + 1, s, out =>
    match s.takeEntry fun ke =>
        hash ke.1 = h ∧ ke.2.keyHash = h ∧ (ke.2.expiredBy now s.graceNs s.ttiNs).isSome with
    | none => (s, out)
    | some ((key, e), s') =>
      let reason := e.expiredBy now s.graceNs s.ttiNs
      let s' := { s' with cost := s'.cost - e.cost : ShardMap K V π }.forget key e
      removeExpiredLoop hash h now fuel s' (out ++ (reason.map fun limit => (key, e, limit)).toList)

/-- Removes the entries under `h` past a limit. Each turn removes one entry, so the table's
length bounds the turns. -/
def removeExpired (hash : K → UInt64) (s : ShardMap K V π) (h now : UInt64)
    (out : List (K × CacheEntry V × ExpiredBy)) :
    ShardMap K V π × List (K × CacheEntry V × ExpiredBy) :=
  removeExpiredLoop hash h now s.table.length s out

/-- Arms again an entry whose timer fired before it expired. -/
def rearm (hash : K → UInt64) (s : ShardMap K V π) (clock h : UInt64) : ShardMap K V π :=
  let due (ke : K × CacheEntry V) : Bool := hash ke.1 = h && ke.2.keyHash = h &&
    match ke.2.ttlTimerHandle with
    | none => false
    | some t => !s.wheel.isArmed t
  match s.table.findIdx? due with
  | none => s
  | some i =>
    match s.table[i]? with
    | none => s
    | some ke =>
      let r := s.wheel.schedule clock h (satAdd ke.2.expiresAt s.graceNs)
      { s with
        wheel := r.2
        table := s.table.set i (ke.1, { ke.2 with ttlTimerHandle := some r.1 }) }

/-- Advances the TTL timers to `now` and removes the entries past a limit. -/
def expireDue (hash : K → UInt64) (s : ShardMap K V π) (clock now : UInt64) :
    List (K × CacheEntry V × ExpiredBy) × ShardMap K V π :=
  let fired := s.wheel.advance now
  let s := { s with wheel := fired.2 }
  if fired.1 = [] then ([], s) else
  let r := fired.1.foldl (fun (r : ShardMap K V π × List (K × CacheEntry V × ExpiredBy)) h =>
    let q := removeExpired hash r.1 h now r.2
    (q.1.rearm hash clock h, q.2)) (s.applyReads, [])
  (r.2, r.1)

/-- Removes the entries under `hashes` still past a limit at `now`. -/
def removeExpiredHashes (hash : K → UInt64) (s : ShardMap K V π) (hashes : List UInt64)
    (now : UInt64) : List (K × CacheEntry V × ExpiredBy) × ShardMap K V π :=
  let r := hashes.foldl (fun (r : ShardMap K V π × List (K × CacheEntry V × ExpiredBy)) h =>
    removeExpired hash r.1 h now r.2) (s.applyReads, [])
  (r.2, r.1)

/-- Removes every entry past a limit at `now`, whatever the wheel's position. -/
def expireAll (hash : K → UInt64) (s : ShardMap K V π) (now : UInt64) :
    List (K × CacheEntry V × ExpiredBy) × ShardMap K V π :=
  let expired := s.table.filter fun ke => (ke.2.expiredBy now s.graceNs s.ttiNs).isSome
  s.removeExpiredHashes hash (expired.map (·.2.keyHash)) now

/-- Forgets everything. -/
def clear (s : ShardMap K V π) : ShardMap K V π :=
  let s' := { s with
    table := []
    wheel := s.wheel.clear
    counters := { s.counters with costDelta := s.counters.costDelta + (0 - s.cost) }
    cost := 0 }
  match s.builtin with
  | some b => { s' with builtin := some b.clear }
  | none => { s' with policy := CachePolicy.clear K s.policy }

/-- Inserts entries one after the other without counting them. -/
def insertAll [DecidableEq K] (hash : K → UInt64) (s : ShardMap K V π) (clock : UInt64)
    (entries : List (K × CacheEntry V)) : ShardMap K V π :=
  entries.foldl (fun s ke => (s.insertInner hash clock ke.1 ke.2 false).2) s

/-- Replaces the contents, as a snapshot restore does. -/
def replaceAll [DecidableEq K] (hash : K → UInt64) (s : ShardMap K V π) (clock : UInt64)
    (entries : List (K × CacheEntry V)) : ShardMap K V π :=
  s.clear.insertAll hash clock entries

end Policy

/-! ### The read path -/

/-- A hit of the built-in policy's node, under the read lock. -/
def touchRead (s : ShardMap K V π) (node : NodeId) : ShardMap K V π :=
  { s with builtin := s.builtin.map (·.touch node) }

/-- Records a read in the ring. Returns false when it is full. -/
def pushRing (s : ShardMap K V π) (node : NodeId) : Bool × ShardMap K V π :=
  if node = NO_NODE then (true, s)
  else if s.ring.length < readSlots then (true, { s with ring := s.ring ++ [node] })
  else (false, s)

/-- Records a read in the log. Returns false when it is full. -/
def pushLog (s : ShardMap K V π) (key : K) (cost : UInt64) : Bool × ShardMap K V π :=
  if s.reads.length < readSlots then (true, { s with reads := s.reads ++ [(key, cost)] })
  else (false, s)

/-- Changes the resident entry of `k` in place: a reader stamps its access time, `compute`
changes its value. Cost, node, hash and timer are not writable there. -/
def modifyEntry [DecidableEq K] (s : ShardMap K V π) (k : K) (value : V → V)
    (lastAccessed : UInt64 → UInt64) : ShardMap K V π :=
  { s with table := s.table.map fun ke =>
    if ke.1 = k then
      (ke.1, { ke.2 with
        value := value ke.2.value
        lastAccessed := lastAccessed ke.2.lastAccessed })
    else ke }

/-! ### Runs -/

/-- A call on a shard. -/
inductive Op (K V : Type*)
  | insert (clock : UInt64) (key : K) (entry : CacheEntry V)
  | remove (key : K)
  | expireDue (clock now : UInt64)
  | expireAll (now : UInt64)
  | removeExpiredHashes (hashes : List UInt64) (now : UInt64)
  | clear
  | replaceAll (clock : UInt64) (entries : List (K × CacheEntry V))
  | applyReads
  | applyDeferred (read : DeferredRead K)
  | touchRead (node : NodeId)
  | pushRing (node : NodeId)
  | pushLog (key : K) (cost : UInt64)
  | modifyEntry (key : K) (value : V → V) (lastAccessed : UInt64 → UInt64)

/-- The shard after a call. -/
def step [DecidableEq K] [CachePolicy π K] (hash : K → UInt64) (s : ShardMap K V π) :
    Op K V → ShardMap K V π
  | .insert clock key entry => (s.insert hash clock key entry).2
  | .remove key => (s.remove key).2
  | .expireDue clock now => (s.expireDue hash clock now).2
  | .expireAll now => (s.expireAll hash now).2
  | .removeExpiredHashes hashes now => (s.removeExpiredHashes hash hashes now).2
  | .clear => s.clear
  | .replaceAll clock entries => s.replaceAll hash clock entries
  | .applyReads => s.applyReads
  | .applyDeferred read => s.applyDeferred read
  | .touchRead node => s.touchRead node
  | .pushRing node => (s.pushRing node).2
  | .pushLog key cost => (s.pushLog key cost).2
  | .modifyEntry key value lastAccessed => s.modifyEntry key value lastAccessed

/-- The shard after a sequence of calls. -/
def run [DecidableEq K] [CachePolicy π K] (hash : K → UInt64) (s : ShardMap K V π)
    (ops : List (Op K V)) : ShardMap K V π := ops.foldl (step hash) s

end ShardMap

end Fibre.Cache
