import Fibre.Cache.Multiget

/-!
# Snapshots

A snapshot holds the entries that are not expired, with the time they have left to live, and the
size of the cache. A cache built from it gives each entry a deadline on its own clock and puts it
into the shard that its own hasher names.
-/

namespace Fibre.Cache

open List

variable {K V π : Type*}

namespace Duration

def fromNanos (n : UInt64) : Duration :=
  ⟨n.toNat, by
    have hlt := n.toNat_lt
    omega⟩

/-- `checked_sub`. -/
def checkedSub (a b : Duration) : Option Duration :=
  if b.asNanos ≤ a.asNanos then some ⟨a.asNanos - b.asNanos, (Nat.sub_le _ _).trans_lt a.lt⟩
  else none

/-- The sum. Panics when it is too long. -/
def add (a b : Duration) : Option Duration :=
  if h : a.asNanos + b.asNanos < 2 ^ 64 * 10 ^ 9 then some ⟨a.asNanos + b.asNanos, h⟩ else none

end Duration

structure PersistentEntry (K V : Type*) where
  key : K
  value : V
  cost : UInt64
  ttlRemaining : Option Duration

structure CacheSnapshot (K V : Type*) where
  entries : List (PersistentEntry K V)
  capacity : UInt64
  shards : UInt64
  /-- As in the cache it was taken of. -/
  powerOfTwo : ∃ j, shards.toNat = 2 ^ j

/-! ### Taking a snapshot -/

/-- The time the entry has left to live at `now`. -/
def CacheEntry.ttlRemaining (now : UInt64) (e : CacheEntry V) : Option Duration :=
  if e.expiresAt = 0 then none
  else (Duration.fromNanos e.expiresAt).checkedSub (.fromNanos now)

/-- The entry in a snapshot taken at `now`. -/
def CacheEntry.persist (now : UInt64) (key : K) (e : CacheEntry V) : PersistentEntry K V where
  key := key
  value := e.value
  cost := e.cost
  ttlRemaining := e.ttlRemaining now

namespace CacheHandle

section Flush

variable [CachePolicy π K]

/-- Applies the recorded reads of every shard, in a cache that asks for it. -/
def flushForIntrospection (c : CacheHandle K V π) : Option (CacheHandle K V π) :=
  if c.maintenanceOnIntrospection then
    (List.range c.numShards.toNat).foldlM
      (fun c i => ((c.shards i).applyReads).map (c.setShard i)) c
  else
    some c

/-- `to_snapshot`. The clock is read once at first, and again for each entry. -/
def toSnapshot (c : CacheHandle K V π) (now : UInt64) (clock : K → UInt64) :
    Option (CacheSnapshot K V × CacheHandle K V π) :=
  c.flushForIntrospection.map fun c =>
    ({ entries := (List.range c.numShards.toNat).flatMap fun i =>
          ((c.shards i).map.table.filter fun ke => !ke.2.isExpired c.timeToIdle (clock ke.1)).map
            fun ke => ke.2.persist now ke.1
       capacity := c.capacity
       shards := c.numShards
       powerOfTwo := c.powerOfTwo }, c)

end Flush

end CacheHandle

/-! ### Building a cache -/

/-- Why a cache is not built. -/
inductive BuildError
  | zeroCapacity
  | zeroShards
  deriving DecidableEq

/-- What is set in a builder to which no policy was given, but for the sizes. -/
structure CacheBuilder (K : Type*) where
  hasher : K → UInt64
  timeToLive : Option Duration
  timeToIdle : Option Duration
  builtinChoice : BuiltinChoice
  maintenanceOnIntrospection : Bool
  wheel : TimerWheel
  graceNs : UInt64
  ttiNs : UInt64

/-- `new_with_expiry`. -/
def CacheEntry.newWithExpiry (value : V) (cost : UInt64) (expiresAt tti : Option Duration)
    (clock : UInt64) : CacheEntry V where
  value := value
  cost := cost
  expiresAt := expiresAt.elim 0 Duration.asNanosU64
  lastAccessed := tti.elim 0 fun _ => clock
  node := NO_NODE
  keyHash := 0
  ttlTimerHandle := none

namespace CacheBuilder

/-- `validate`, with the sizes of a snapshot. -/
def validate (capacity shards : UInt64) : Except BuildError Unit :=
  if capacity = 0 then .error .zeroCapacity
  else if shards = 0 then .error .zeroShards
  else .ok ()

def restore (b : CacheBuilder K) (now : UInt64) (clock : K → UInt64) (p : PersistentEntry K V) :
    Option (K × CacheEntry V) :=
  let entry (expiresAt : Option Duration) : K × CacheEntry V :=
    (p.key, { CacheEntry.newWithExpiry p.value p.cost expiresAt b.timeToIdle (clock p.key) with
      keyHash := b.hasher p.key })
  match p.ttlRemaining with
  | none => some (entry none)
  | some ttl => ((Duration.fromNanos now).add ttl).map fun expiresAt => entry (some expiresAt)

/-- A shard of the new cache. An unbounded cache has no built-in policy. -/
def newShard (b : CacheBuilder K) (capacity shards : UInt64) : ShardMap K V NullPolicy :=
  if capacity = -1 then .new capacity shards ⟨⟩ none b.wheel b.graceNs b.ttiNs
  else .newBuiltin capacity shards ⟨⟩ b.builtinChoice b.wheel b.graceNs b.ttiNs

def restoreShard [DecidableEq K] (b : CacheBuilder K) (snap : CacheSnapshot K V) (clock : UInt64)
    (entries : List (K × CacheEntry V)) (i : ℕ) : ShardMap K V NullPolicy :=
  let entries := entries.filter fun ke => (b.hasher ke.1 % snap.shards).toNat = i
  let s := b.newShard snap.capacity snap.shards
  if entries.isEmpty then s else s.replaceAll b.hasher clock entries

def populate [DecidableEq K] (b : CacheBuilder K) (snap : CacheSnapshot K V) (wheelClock : UInt64)
    (entries : List (K × CacheEntry V)) : CacheHandle K V NullPolicy where
  shards i := ⟨b.restoreShard snap wheelClock entries i, .new, .new⟩
  numShards := snap.shards
  powerOfTwo := snap.powerOfTwo
  hasher := b.hasher
  capacity := snap.capacity
  timeToLive := b.timeToLive
  timeToIdle := b.timeToIdle
  trackReads := false
  maintenanceOnIntrospection := b.maintenanceOnIntrospection
  metrics := ⟨0, 0, 0⟩

/-- `build_from_snapshot`. The clock is read once for the deadlines, again for the access time of
each entry, and by the wheels. Panics when a deadline is too long. -/
def buildFromSnapshot [DecidableEq K] (b : CacheBuilder K) (snap : CacheSnapshot K V) (now : UInt64)
    (clock : K → UInt64) (wheelClock : UInt64) :
    Except BuildError (Option (CacheHandle K V NullPolicy)) :=
  (validate snap.capacity snap.shards).map fun _ =>
    (snap.entries.mapM (b.restore now clock)).map (b.populate snap wheelClock)

end CacheBuilder

/-! ### The flush -/

section Flush

variable [CachePolicy π K]

theorem LoggedShard.Sound.applyReads {s : LoggedShard K V π} (h : s.Sound) :
    ∃ s', s.applyReads = some s' ∧ s'.Sound ∧ s'.map.table = s.map.table := by
  obtain ⟨s₁, hdrain, hsound, htable⟩ := h.drain
  have hreads := ShardMap.applyReads_table s₁.map
  rw [LoggedShard.applyReads, hdrain, Option.map_some, ← htable]
  exact ⟨_, rfl, hsound.congr rfl rfl, hreads⟩

/-- The cache `c'` has the entries of `c`, and its configuration. -/
structure CacheHandle.SameEntries (c c' : CacheHandle K V π) : Prop where
  numShards : c'.numShards = c.numShards
  hasher : c'.hasher = c.hasher
  capacity : c'.capacity = c.capacity
  timeToIdle : c'.timeToIdle = c.timeToIdle
  table : ∀ i, (c'.shards i).map.table = (c.shards i).map.table

theorem CacheHandle.Sound.flush {c : CacheHandle K V π} (h : c.Sound) :
    ∃ c', c.flushForIntrospection = some c' ∧ c.SameEntries c' := by
  have hfold : ∀ (l : List ℕ) (c : CacheHandle K V π), c.Sound → ∃ c',
      l.foldlM (fun c i => ((c.shards i).applyReads).map (c.setShard i)) c = some c' ∧
        c.SameEntries c' := by
    intro l
    induction l with
    | nil => exact fun c h => ⟨c, rfl, rfl, rfl, rfl, rfl, fun _ => rfl⟩
    | cons i l ih =>
      intro c h
      obtain ⟨s, hs, hsound, htable⟩ := (h i).applyReads
      obtain ⟨c', hc', hn, hh, hcap, htti, htables⟩ := ih _ (h.setShard i hsound)
      refine ⟨c', ?_, hn, hh, hcap, htti, fun j => (htables j).trans ?_⟩
      · rw [foldlM_cons, hs]
        exact hc'
      · rw [setShard_shards]
        split_ifs with hj
        · rw [htable, hj]
        · rfl
  unfold flushForIntrospection
  split_ifs
  · exact hfold _ c h
  · exact ⟨c, rfl, rfl, rfl, rfl, rfl, fun _ => rfl⟩

end Flush

/-! ### The keys of a shard -/

namespace ShardMap

/-- The keys of the shard are distinct, and each is one that it should have. -/
structure Owns (P : K → Prop) (s : ShardMap K V π) : Prop where
  nodup : (s.table.map Prod.fst).Nodup
  keys : ∀ ke ∈ s.table, P ke.1

variable {P : K → Prop} {s s' : ShardMap K V π} {hash : K → UInt64}

theorem Owns.congr (h : s.Owns P) (ht : s'.table = s.table) : s'.Owns P :=
  ⟨ht ▸ h.nodup, ht ▸ h.keys⟩

theorem Owns.taken {p : K × CacheEntry V → Bool} {ke : K × CacheEntry V} (h : s.Owns P)
    (htake : s.takeEntry p = some (ke, s')) :
    ({ s' with cost := s'.cost - ke.2.cost } : ShardMap K V π).Owns P := by
  obtain ⟨-, hperm, -⟩ := takeEntry_eq_some htake
  refine ⟨keys_nodup_of_perm h.nodup hperm, fun ke' hke' => h.keys ke' ?_⟩
  exact hperm.mem_iff.mpr (mem_cons_of_mem _ hke')

theorem Owns.of_map (h : s.Owns P) (ht : s'.table.map Prod.fst = s.table.map Prod.fst) :
    s'.Owns P := by
  refine ⟨ht ▸ h.nodup, fun ke hke => ?_⟩
  have hmem := mem_map_of_mem (f := Prod.fst) hke
  rw [ht] at hmem
  obtain ⟨ke', hke', heq⟩ := mem_map.mp hmem
  exact heq ▸ h.keys ke' hke'

section Calls

variable [DecidableEq K]

theorem Owns.wrote {key : K} {entry : CacheEntry V} (h : s.Owns P) (hkey : P key)
    (hw : Wrote s key entry s') : s'.Owns P := by
  obtain ⟨node, htable⟩ := hw.table
  obtain ⟨rest, hold, hput, hout⟩ := putEntry_perm h.nodup key { entry with node := node }
  rw [← htable] at hput
  have hrest : (rest.map Prod.fst).Nodup := by
    have hnodup := (hold.map Prod.fst).nodup_iff.mp h.nodup
    rw [map_append] at hnodup
    exact (nodup_append.mp hnodup).2.1
  refine ⟨(hput.map Prod.fst).nodup_iff.mpr (nodup_cons.mpr ⟨hout, hrest⟩), ?_⟩
  intro ke hke
  rcases mem_cons.mp (hput.mem_iff.mp hke) with rfl | hke
  · exact hkey
  · exact h.keys ke (hold.mem_iff.mpr (mem_append_right _ hke))

variable [CachePolicy π K]

theorem invariant_owns (P : K → Prop) : Invariant P (Owns P : ShardMap K V π → Prop) where
  taken h htake := h.taken htake
  of_map h _ ht := by
    have hkeys := congrArg (List.map Prod.fst) ht
    rw [map_map, map_map] at hkeys
    exact h.of_map hkeys
  wrote h hkey hw := h.wrote hkey hw
  clear s := by
    unfold ShardMap.clear
    split <;> exact ⟨nodup_nil, nofun⟩

end Calls

end ShardMap

/-! ### The caches that are used -/

namespace CacheHandle

/-- Every shard has keys of its own, each once. -/
def Placed (c : CacheHandle K V π) : Prop :=
  ∀ i, (c.shards i).map.Owns fun k => c.index k = i

/-- The caches that calls make: a call on a shard, before which its reads may be drained, and a
read that is recorded. -/
inductive Reachable [DecidableEq K] [CachePolicy π K] : CacheHandle K V π → Prop
  | new (c : CacheHandle K V π) (empty : ∀ i, (c.shards i).map.table = [] ∧
      (c.shards i).log = .new ∧ (c.shards i).ring = .new) : Reachable c
  | drain {c : CacheHandle K V π} {i : ℕ} {s : LoggedShard K V π} : Reachable c →
      (c.shards i).drain = some s → Reachable (c.setShard i s)
  | call {c : CacheHandle K V π} {i : ℕ} {op : ShardMap.Op K V} : Reachable c →
      op.Writes (fun k => c.index k = i) →
      Reachable (c.setShard i { c.shards i with map := (c.shards i).map.step c.hasher op })
  | record {c : CacheHandle K V π} {i : ℕ} {key : K} {e : CacheEntry V}
      {r : Option (DeferredRead K) × LoggedShard K V π} : Reachable c →
      (c.shards i).record c.config key e = some r → Reachable (c.setShard i r.2)

theorem Placed.setShard {c : CacheHandle K V π} (h : c.Placed) {i : ℕ} {s : LoggedShard K V π}
    (hs : s.map.Owns fun k => c.index k = i) : (c.setShard i s).Placed := by
  intro j
  rw [setShard_shards]
  split_ifs with hj
  · exact hj ▸ hs
  · exact h j

theorem Reachable.placed_sound [DecidableEq K] [CachePolicy π K] {c : CacheHandle K V π}
    (h : c.Reachable) : c.Placed ∧ c.Sound := by
  induction h with
  | new c empty =>
    refine ⟨fun i => ⟨?_, ?_⟩, fun i => ⟨⟨[], ?_⟩, [], ?_⟩⟩
    · rw [(empty i).1]
      exact nodup_nil
    · rw [(empty i).1]
      exact nofun
    · rw [(empty i).2.1]
      exact ReadLog.holds_new
    · rw [(empty i).2.2]
      exact ReadRing.holds_new
  | @drain c i s _ hdrain ih =>
    obtain ⟨s', hs', hsound, htable⟩ := (ih.2 i).drain
    obtain rfl := Option.some.inj (hdrain.symm.trans hs')
    exact ⟨ih.1.setShard ((ih.1 i).congr htable), ih.2.setShard i hsound⟩
  | @call c i op _ hop ih =>
    have howns : ((c.shards i).map.step c.hasher op).Owns fun k => c.index k = i :=
      (ShardMap.invariant_owns _).step (ih.1 i) hop
    exact ⟨ih.1.setShard howns, ih.2.setShard i ((ih.2 i).congr rfl rfl)⟩
  | @record c i key e r _ hr ih =>
    obtain ⟨r', hr', hsound, htable⟩ := (ih.2 i).record c.config key e
    obtain rfl := Option.some.inj (hr.symm.trans hr')
    exact ⟨ih.1.setShard ((ih.1 i).congr htable), ih.2.setShard i hsound⟩

end CacheHandle

/-! ### Filling a shard -/

namespace ShardMap

variable [DecidableEq K] {hash : K → UInt64}

theorem get_congr {s s' : ShardMap K V π} (h : s'.table = s.table) (k : K) :
    s'.get k = s.get k := by
  rw [get, h, get]

theorem get_putEntry (s : ShardMap K V π) (key : K) (entry : CacheEntry V) (k : K) :
    (s.putEntry key entry).get k = if k = key then some entry else s.get k := by
  cases hget : s.get key with
  | none =>
    have hnone : s.table.find? (fun ke => decide (ke.1 = key)) = none :=
      Option.map_eq_none_iff.mp hget
    rw [get, putEntry_table_of_none hget, List.find?_append]
    split_ifs with hk
    · subst hk
      simp [hnone]
    · simp [get, Ne.symm hk]
  | some old =>
    have htable : (s.putEntry key entry).table =
        s.table.map fun ke => if ke.1 = key then (ke.1, entry) else ke := by
      simp only [putEntry, hget]
    have hresident : (s.putEntry key entry).get k = (s.get k).map fun e =>
        if k = key then entry else e := by
      rw [get, htable, find?_map_of_key fun ke => by split_ifs <;> rfl, get, Option.map_map,
        Option.map_map]
      refine Option.map_congr fun ke hke => ?_
      obtain rfl : ke.1 = k := by simpa using List.find?_some hke
      simp only [Function.comp_apply]
      split_ifs <;> rfl
    rw [hresident]
    split_ifs with hk
    · rw [hk, hget]
      rfl
    · exact Option.map_id'

theorem insertPolicy_null (s : ShardMap K V NullPolicy) (key : K) (entry : CacheEntry V) :
    (s.insertPolicy key entry).2.builtin = s.builtin ∧
      (s.insertPolicy key entry).2.table = (s.putEntry key entry).table := by
  have hput : ∀ p : NullPolicy,
      (ShardMap.putEntry { s with reads := [], policy := p } key entry).builtin = s.builtin ∧
        (ShardMap.putEntry { s with reads := [], policy := p } key entry).table =
          (s.putEntry key entry).table := by
    intro p
    refine ⟨by rw [putEntry_eq], putEntry_table_congr s _ ?_ key entry⟩
    rfl
  simp only [insertPolicy]
  split_ifs <;> exact hput _

theorem get_insertInner {s : ShardMap K V NullPolicy} (hb : s.builtin = none) (clock : UInt64)
    (key : K) (entry : CacheEntry V) (count : Bool) (k : K) :
    (s.insertInner hash clock key entry count).2.builtin = none ∧
      ((s.insertInner hash clock key entry count).2.get k).map CacheEntry.contents =
        if k = key then some entry.contents else (s.get k).map CacheEntry.contents := by
  obtain ⟨w, t, harm⟩ := arm_eq s clock (hash key) entry
  have htable : ∃ e, e.contents = entry.contents ∧
      (s.insertInner hash clock key entry count).2.builtin = none ∧
      (s.insertInner hash clock key entry count).2.table = (s.putEntry key e).table := by
    have hnone : (s.arm clock (hash key) entry).2.builtin = none := by rw [harm, hb]
    obtain ⟨hbuiltin, htable⟩ := insertPolicy_null (s.arm clock (hash key) entry).2 key
      (s.arm clock (hash key) entry).1
    simp only [insertInner, hnone]
    refine ⟨(s.arm clock (hash key) entry).1, by rw [harm]; rfl, ?_⟩
    have hsame : (s.arm clock (hash key) entry).2.table = s.table := by rw [harm]
    rw [← putEntry_table_congr _ _ hsame, ← htable, ← hnone, ← hbuiltin]
    generalize (s.arm clock (hash key) entry).2.insertPolicy key
      (s.arm clock (hash key) entry).1 = r
    cases r.1 with
    | none => cases count <;> exact ⟨rfl, rfl⟩
    | some old =>
      obtain ⟨w', hw⟩ := disarm_eq r.2 old
      simp only [hw]
      cases count <;> exact ⟨rfl, rfl⟩
  obtain ⟨e, hcontents, hbuiltin, htable⟩ := htable
  rw [get_congr htable, get_putEntry]
  refine ⟨hbuiltin, ?_⟩
  split_ifs
  · exact congrArg some hcontents
  · rfl

theorem get_insertAll {s : ShardMap K V NullPolicy} (hb : s.builtin = none) (clock : UInt64)
    {entries : List (K × CacheEntry V)} (hkeys : (entries.map Prod.fst).Nodup) (k : K) :
    ((s.insertAll hash clock entries).get k).map CacheEntry.contents =
      ((entries.find? fun ke => decide (ke.1 = k)).map fun ke => ke.2.contents).or
        ((s.get k).map CacheEntry.contents) := by
  induction entries generalizing s with
  | nil => rfl
  | cons ke entries ih =>
    obtain ⟨key, entry⟩ := ke
    rw [map_cons, nodup_cons] at hkeys
    obtain ⟨hbuiltin, hget⟩ : (s.insertInner hash clock key entry false).2.builtin = none ∧ _ :=
      get_insertInner hb clock key entry false k
    have hfold : s.insertAll hash clock ((key, entry) :: entries) =
        (s.insertInner hash clock key entry false).2.insertAll hash clock entries := rfl
    rw [hfold, ih hbuiltin hkeys.2, hget]
    by_cases hk : k = key
    · subst hk
      have hnone : entries.find? (fun ke => decide (ke.1 = k)) = none := by
        rw [List.find?_eq_none]
        intro ke hke heq
        exact hkeys.1 (mem_map.mpr ⟨ke, hke, of_decide_eq_true heq⟩)
      simp [hnone]
    · simp [hk, Ne.symm hk]

end ShardMap

/-! ### What the new cache has -/

section Restore

variable [DecidableEq K] (b : CacheBuilder K) (now : UInt64) (clock : K → UInt64)

/-- The deadline on the clock of the new cache, cut to a word. -/
def deadline (now : UInt64) (ttlRemaining : Option Duration) : UInt64 :=
  ttlRemaining.elim 0 fun ttl => UInt64.ofNat (now.toNat + ttl.asNanos)

/-- The entry of the new cache, when the deadline is not too long. -/
def CacheBuilder.restored (p : PersistentEntry K V) : K × CacheEntry V :=
  (p.key, ⟨p.value, p.cost, deadline now p.ttlRemaining,
    b.timeToIdle.elim 0 fun _ => clock p.key, NO_NODE, b.hasher p.key, none⟩)

omit [DecidableEq K] in
theorem restore_eq {p : PersistentEntry K V}
    (h : ∀ ttl ∈ p.ttlRemaining, ttl.asNanos < 2 ^ 64) :
    b.restore now clock p = some (b.restored now clock p) := by
  unfold CacheBuilder.restore CacheBuilder.restored deadline
  cases hp : p.ttlRemaining with
  | none => rfl
  | some ttl =>
    have hlt := h ttl hp
    have hnow := now.toNat_lt
    have hfits : (Duration.fromNanos now).asNanos + ttl.asNanos < 2 ^ 64 * 10 ^ 9 := by
      change now.toNat + ttl.asNanos < _
      omega
    simp only [Duration.add, dif_pos hfits]
    rfl

/-- A map that gives a value for every element. -/
theorem mapM_eq_some {α β : Type*} {f : α → Option β} {g : α → β} {l : List α}
    (h : ∀ a ∈ l, f a = some (g a)) : l.mapM f = some (l.map g) := by
  induction l with
  | nil => rfl
  | cons a l ih =>
    obtain ⟨ha, hl⟩ := forall_mem_cons.mp h
    rw [mapM_cons, ha, ih hl]
    rfl

variable {b now clock} {snap : CacheSnapshot K V}

omit [DecidableEq K] in
theorem builtin_newShard {capacity shards : UInt64} (hmax : capacity = -1) :
    (b.newShard capacity shards : ShardMap K V NullPolicy).builtin = none := by
  unfold CacheBuilder.newShard
  rw [if_pos hmax]
  rfl

omit [DecidableEq K] in
theorem table_newShard (capacity shards : UInt64) :
    (b.newShard capacity shards : ShardMap K V NullPolicy).table = [] := by
  unfold CacheBuilder.newShard
  split_ifs <;> rfl

theorem get_restoreShard (hmax : snap.capacity = -1) (wheelClock : UInt64)
    {entries : List (K × CacheEntry V)} (hkeys : (entries.map Prod.fst).Nodup) (k : K) :
    ((b.restoreShard snap wheelClock entries (b.hasher k % snap.shards).toNat).get k).map
        CacheEntry.contents =
      (entries.find? fun ke => decide (ke.1 = k)).map fun ke => ke.2.contents := by
  set L := entries.filter fun ke => decide ((b.hasher ke.1 % snap.shards).toNat =
    (b.hasher k % snap.shards).toNat) with hL
  have hfind : L.find? (fun ke => decide (ke.1 = k)) =
      entries.find? fun ke => decide (ke.1 = k) := by
    rw [hL, List.find?_filter]
    congr 1
    funext ke
    by_cases hk : ke.1 = k
    · simp [hk]
    · simp [hk]
  have hrestore : b.restoreShard snap wheelClock entries (b.hasher k % snap.shards).toNat =
      if L.isEmpty then b.newShard snap.capacity snap.shards
      else (b.newShard snap.capacity snap.shards).replaceAll b.hasher wheelClock L := rfl
  rw [hrestore, ← hfind]
  split_ifs with hempty
  · rw [List.isEmpty_iff.mp hempty, ShardMap.get, table_newShard]
    rfl
  · have hclear : (b.newShard snap.capacity snap.shards :
        ShardMap K V NullPolicy).clear.builtin = none := by
      rw [ShardMap.clear, builtin_newShard hmax]
    have hget : ((b.newShard snap.capacity snap.shards : ShardMap K V NullPolicy).clear).get k =
        none := by
      rw [ShardMap.get, ShardMap.clear, builtin_newShard hmax]
      rfl
    have hsub : (L.map Prod.fst).Nodup := hkeys.sublist (filter_sublist.map _)
    rw [ShardMap.replaceAll, ShardMap.get_insertAll hclear wheelClock hsub, hget]
    exact Option.or_none

end Restore

/-! ### What the snapshot has -/

namespace CacheHandle

/-- What a snapshot has of a shard. -/
def persisted (c : CacheHandle K V π) (now : UInt64) (clock : K → UInt64) (i : ℕ) :
    List (PersistentEntry K V) :=
  ((c.shards i).map.table.filter fun ke => !ke.2.isExpired c.timeToIdle (clock ke.1)).map
    fun ke => ke.2.persist now ke.1

/-- The resident entry of a key, unless it is expired. -/
def unexpired [DecidableEq K] (c : CacheHandle K V π) (clock : UInt64) (k : K) :
    Option (CacheEntry V) :=
  (c.resident k).filter fun e => !e.isExpired c.timeToIdle clock

variable {c : CacheHandle K V π} {now : UInt64} {clock : K → UInt64}

theorem key_persisted (i : ℕ) : (c.persisted now clock i).map PersistentEntry.key =
    ((c.shards i).map.table.filter fun ke => !ke.2.isExpired c.timeToIdle (clock ke.1)).map
      Prod.fst := by
  rw [persisted, map_map]
  rfl

theorem Placed.nodup_persisted (h : c.Placed) (n : ℕ) :
    (((List.range n).flatMap (c.persisted now clock)).map PersistentEntry.key).Nodup := by
  rw [map_flatMap, nodup_flatMap]
  refine ⟨fun i _ => ?_, ?_⟩
  · rw [key_persisted]
    exact (h i).nodup.sublist (filter_sublist.map _)
  · refine Pairwise.imp (fun {i j} hne => ?_) nodup_range
    intro k hi hj
    simp only [key_persisted] at hi hj
    obtain ⟨ke, hke, rfl⟩ := mem_map.mp hi
    obtain ⟨ke', hke', heq⟩ := mem_map.mp hj
    apply hne
    have hindex := (h i).keys ke (mem_filter.mp hke).1
    have hindex' := (h j).keys ke' (mem_filter.mp hke').1
    rw [← hindex, ← hindex', heq]

theorem findSome?_of_unique {α β : Type*} {g : α → Option β} {l : List α} {a : α} (ha : a ∈ l)
    (h : ∀ x ∈ l, x ≠ a → g x = none) : l.findSome? g = g a := by
  induction l with
  | nil => exact absurd ha not_mem_nil
  | cons x l ih =>
    obtain ⟨hx, hl⟩ := forall_mem_cons.mp h
    rw [List.findSome?_cons]
    by_cases heq : x = a
    · subst heq
      cases hg : g x with
      | some y => rfl
      | none =>
        refine List.findSome?_eq_none_iff.mpr fun y hy => ?_
        by_cases hyx : y = x
        · rw [hyx, hg]
        · exact hl y hy hyx
    · rw [hx heq]
      exact ih ((mem_cons.mp ha).resolve_left (Ne.symm heq)) hl

variable [DecidableEq K]

/-- What a snapshot has of a key: its resident entry, unless it is expired. -/
theorem Placed.find?_persisted (h : c.Placed) (k : K) :
    ((List.range c.numShards.toNat).flatMap (c.persisted now clock)).find?
        (fun p => decide (p.key = k)) =
      (c.unexpired (clock k) k).map (CacheEntry.persist now k) := by
  have hfind : ∀ i, (c.persisted now clock i).find? (fun p => decide (p.key = k)) =
      ((c.shards i).map.table.find? fun ke =>
        !ke.2.isExpired c.timeToIdle (clock k) && decide (ke.1 = k)).map
          fun ke => ke.2.persist now ke.1 := by
    intro i
    rw [persisted, List.find?_map, List.find?_filter]
    congr 2
    funext ke
    by_cases hk : ke.1 = k
    · simp [hk, CacheEntry.persist]
    · simp [hk, CacheEntry.persist]
  have hlt : c.index k < c.numShards.toNat := by
    obtain ⟨j, hj⟩ := c.powerOfTwo
    rw [c.index_eq_mod, UInt64.toNat_mod, hj]
    exact Nat.mod_lt _ (Nat.two_pow_pos j)
  have hnone : ∀ l : List (K × CacheEntry V), (∀ ke ∈ l, ke.1 ≠ k) →
      (l.find? fun ke => !ke.2.isExpired c.timeToIdle (clock k) && decide (ke.1 = k)) = none := by
    intro l hl
    rw [List.find?_eq_none]
    intro ke hke hboth
    rw [Bool.and_eq_true, decide_eq_true_eq] at hboth
    exact hl ke hke hboth.2
  rw [List.find?_flatMap, findSome?_of_unique (mem_range.mpr hlt), hfind]
  · unfold unexpired
    cases hres : c.resident k with
    | none =>
      rw [hnone _ fun ke hke heq => ShardMap.get_eq_none hres (mem_map.mpr ⟨ke, hke, heq⟩)]
      rfl
    | some e =>
      obtain ⟨l, r, htable, hl, hr⟩ := ShardMap.get_eq_some (h _).nodup hres
      rw [htable, List.find?_append, hnone l hl, Option.none_or, List.find?_cons, hnone r hr]
      cases hexp : e.isExpired c.timeToIdle (clock k) with
      | true => simp [hexp]
      | false => simp [hexp]
  · intro i _ hi
    rw [hfind, hnone _ fun ke hke heq =>
      hi (((h i).keys ke hke).symm.trans (congrArg c.index heq))]
    rfl

/-! ### The round trip -/

def liveAt (c : CacheHandle K V π) (clock : UInt64) (k : K) : Option (V × UInt64) :=
  (c.unexpired clock k).map fun e => (e.value, e.cost)

/-- At `now'`, the cache `c'` has the keys, values and costs that `c` had in the snapshot. An
entry has a deadline if it had one, and then as long to live as at `now`. -/
structure RoundTrip (c : CacheHandle K V π) (now : UInt64) (clock : K → UInt64)
    (c' : CacheHandle K V NullPolicy) (now' : UInt64) : Prop where
  live : ∀ k, c'.liveAt now' k = c.liveAt (clock k) k
  timed : ∀ k e e', c.unexpired (clock k) k = some e → c'.resident k = some e' →
    (e'.expiresAt = 0 ↔ e.expiresAt = 0)
  remaining : ∀ k e e', c.unexpired (clock k) k = some e → c'.resident k = some e' →
    e.expiresAt ≠ 0 →
      (e'.expiresAt.toNat : ℤ) - now'.toNat = e.expiresAt.toNat - now.toNat

/-- The new deadline of the entry fits a word, and the new entry is not idle at once. -/
structure Fits (e : CacheEntry V) (now now' : UInt64) (timeToIdle : Option Duration)
    (accessed : UInt64) : Prop where
  deadline : e.expiresAt ≠ 0 → now'.toNat + (e.expiresAt.toNat - now.toNat) < 2 ^ 64
  access : ∀ d ∈ timeToIdle, now' < accessed + d.asNanosU64

theorem ttlRemaining_eq {e : CacheEntry V} {now clock : UInt64} {tti : Option Duration}
    (hclock : now ≤ clock) (hlive : e.isExpired tti clock = false) (hexp : e.expiresAt ≠ 0) :
    now.toNat < e.expiresAt.toNat ∧
      ∃ ttl, e.ttlRemaining now = some ttl ∧ ttl.asNanos = e.expiresAt.toNat - now.toNat := by
  have hlt : clock < e.expiresAt := by
    rw [CacheEntry.isExpired_eq, CacheEntry.isExpiredAt] at hlive
    by_contra hge
    have hpast : e.expiresAt > 0 ∧ clock ≥ e.expiresAt := by
      refine ⟨?_, UInt64.not_lt.mp hge⟩
      rw [gt_iff_lt, UInt64.lt_iff_toNat_lt, UInt64.toNat_zero]
      exact Nat.pos_of_ne_zero fun hzero => hexp (UInt64.toNat_inj.mp hzero)
    rw [if_pos hpast] at hlive
    exact Bool.noConfusion hlive
  rw [UInt64.le_iff_toNat_le] at hclock
  rw [UInt64.lt_iff_toNat_lt] at hlt
  have hsub : (Duration.fromNanos now).asNanos ≤ (Duration.fromNanos e.expiresAt).asNanos := by
    change now.toNat ≤ e.expiresAt.toNat
    omega
  have hword := e.expiresAt.toNat_lt
  refine ⟨by omega, ⟨e.expiresAt.toNat - now.toNat, by omega⟩, ?_, rfl⟩
  rw [CacheEntry.ttlRemaining, if_neg hexp, Duration.checkedSub, if_pos hsub]
  rfl

/-- The entry of the new cache is like that of the old one, exactly when it fits. -/
theorem fits_iff {e e' : CacheEntry V} {now clock now' accessed : UInt64}
    {tti tti' : Option Duration} (hclock : now ≤ clock) (hlive : e.isExpired tti clock = false)
    (hexpires : e'.expiresAt = deadline now' (e.ttlRemaining now))
    (haccessed : e'.lastAccessed = tti'.elim 0 fun _ => accessed) :
    (e'.isExpired tti' now' = false ∧ (e'.expiresAt = 0 ↔ e.expiresAt = 0) ∧
      (e.expiresAt ≠ 0 → (e'.expiresAt.toNat : ℤ) - now'.toNat = e.expiresAt.toNat - now.toNat)) ↔
    Fits e now now' tti' accessed := by
  have hidle : e'.isIdleAt tti' now' = false ↔ ∀ d ∈ tti', now' < accessed + d.asNanosU64 := by
    unfold CacheEntry.isIdleAt
    cases tti' with
    | none => exact iff_of_true rfl nofun
    | some d => simp [haccessed]
  have hsplit : Fits e now now' tti' accessed ↔
      (e.expiresAt ≠ 0 → now'.toNat + (e.expiresAt.toNat - now.toNat) < 2 ^ 64) ∧
        e'.isIdleAt tti' now' = false := by
    rw [hidle]
    exact ⟨fun h => ⟨h.deadline, h.access⟩, fun h => ⟨h.1, h.2⟩⟩
  rw [hsplit, CacheEntry.isExpired_eq, CacheEntry.isExpiredAt]
  by_cases hexp : e.expiresAt = 0
  · have hzero : e'.expiresAt = 0 := by
      rw [hexpires, CacheEntry.ttlRemaining, if_pos hexp]
      rfl
    simp [hzero, hexp]
  · obtain ⟨hlt, ttl, httl, hnanos⟩ := ttlRemaining_eq hclock hlive hexp
    have hdeadline : e'.expiresAt.toNat =
        (now'.toNat + (e.expiresAt.toNat - now.toNat)) % 2 ^ 64 := by
      rw [hexpires, httl, ← hnanos]
      exact UInt64.toNat_ofNat'
    have hzero : e'.expiresAt = 0 ↔ e'.expiresAt.toNat = 0 := by
      rw [← UInt64.toNat_inj, UInt64.toNat_zero]
    have hpast : e'.expiresAt > 0 ∧ now' ≥ e'.expiresAt ↔
        0 < e'.expiresAt.toNat ∧ e'.expiresAt.toNat ≤ now'.toNat := by
      rw [gt_iff_lt, ge_iff_le, UInt64.lt_iff_toNat_lt, UInt64.le_iff_toNat_le, UInt64.toNat_zero]
    have hexpLt := e.expiresAt.toNat_lt
    have hnow := now'.toNat_lt
    simp only [hpast, hzero, hexp, iff_false, ne_eq, not_false_eq_true, forall_const]
    constructor
    · rintro ⟨hlive', hne, heq⟩
      split_ifs at hlive' with hdead
      exact ⟨by omega, hlive'⟩
    · rintro ⟨hfits, hidle'⟩
      rw [if_neg (by omega)]
      exact ⟨hidle', by omega, by omega⟩

def restoredContents (e : CacheEntry V) (now now' : UInt64) (timeToIdle : Option Duration)
    (accessed : UInt64) : V × UInt64 × UInt64 × UInt64 :=
  (e.value, e.cost, deadline now' (e.ttlRemaining now), timeToIdle.elim 0 fun _ => accessed)

theorem roundTrip_iff_fits {c' : CacheHandle K V NullPolicy} {now' : UInt64} {clock' : K → UInt64}
    (hclock : ∀ k, now ≤ clock k)
    (hres : ∀ k, (c'.resident k).map CacheEntry.contents =
      (c.unexpired (clock k) k).map fun e =>
        restoredContents e now now' c'.timeToIdle (clock' k)) :
    c.RoundTrip now clock c' now' ↔ ∀ k e, c.unexpired (clock k) k = some e →
      Fits e now now' c'.timeToIdle (clock' k) := by
  -- the two entries of a key
  have hpair : ∀ k e, c.unexpired (clock k) k = some e →
      ∃ e', c'.resident k = some e' ∧ e'.value = e.value ∧ e'.cost = e.cost ∧
        ((e'.isExpired c'.timeToIdle now' = false ∧ (e'.expiresAt = 0 ↔ e.expiresAt = 0) ∧
          (e.expiresAt ≠ 0 →
            (e'.expiresAt.toNat : ℤ) - now'.toNat = e.expiresAt.toNat - now.toNat)) ↔
          Fits e now now' c'.timeToIdle (clock' k)) := by
    intro k e he
    have hk := hres k
    rw [he, Option.map_some] at hk
    obtain ⟨e', hres', hcontents⟩ := Option.map_eq_some_iff.mp hk
    simp only [CacheEntry.contents, restoredContents, Prod.mk.injEq] at hcontents
    obtain ⟨hvalue, hcost, hexpires, haccessed⟩ := hcontents
    have hlive : e.isExpired c.timeToIdle (clock k) = false := by
      simpa using (Option.filter_eq_some_iff.mp he).2
    exact ⟨e', hres', hvalue, hcost, fits_iff (hclock k) hlive hexpires haccessed⟩
  constructor
  · intro h k e he
    obtain ⟨e', hres', -, -, hfits⟩ := hpair k e he
    refine hfits.mp ⟨?_, h.timed k e e' he hres', h.remaining k e e' he hres'⟩
    have hlive := h.live k
    rw [liveAt, liveAt, he, unexpired, hres'] at hlive
    cases hexp : e'.isExpired c'.timeToIdle now' with
    | false => rfl
    | true => simp [hexp] at hlive
  · intro h
    refine ⟨fun k => ?_, fun k e e' he he' => ?_, fun k e e' he he' => ?_⟩
    · unfold liveAt
      cases hun : c.unexpired (clock k) k with
      | none =>
        have hk := hres k
        rw [hun, Option.map_none, Option.map_eq_none_iff] at hk
        rw [unexpired, hk]
        rfl
      | some e =>
        obtain ⟨e', hres', hvalue, hcost, hfits⟩ := hpair k e hun
        have hlive := (hfits.mpr (h k e hun)).1
        simp [unexpired, hres', hlive, hvalue, hcost]
    · obtain ⟨e'', hres', -, -, hfits⟩ := hpair k e he
      obtain rfl := Option.some.inj (he'.symm.trans hres')
      exact (hfits.mpr (h k e he)).2.1
    · obtain ⟨e'', hres', -, -, hfits⟩ := hpair k e he
      obtain rfl := Option.some.inj (he'.symm.trans hres')
      exact (hfits.mpr (h k e he)).2.2

/-- Rebuilding an unbounded cache from its snapshot: each key has the contents of the entry that
was not expired, on the new clock. -/
theorem Reachable.rebuild [CachePolicy π K] (hreach : c.Reachable) (hmax : c.capacity = -1)
    (b : CacheBuilder K) (now : UInt64) (clock : K → UInt64) (now' : UInt64) (clock' : K → UInt64)
    (wheelClock : UInt64) :
    ∃ snap c₁ c', c.toSnapshot now clock = some (snap, c₁) ∧
      b.buildFromSnapshot snap now' clock' wheelClock = .ok (some c') ∧
      c'.timeToIdle = b.timeToIdle ∧
      ∀ k, (c'.resident k).map CacheEntry.contents = (c.unexpired (clock k) k).map fun e =>
        restoredContents e now now' b.timeToIdle (clock' k) := by
  obtain ⟨hc, hs⟩ := hreach.placed_sound
  obtain ⟨c₁, hflush, hsame⟩ := hs.flush
  have hpersisted : c₁.persisted now clock = c.persisted now clock := by
    funext i
    rw [persisted, persisted, hsame.table, hsame.timeToIdle]
  set entries := (List.range c.numShards.toNat).flatMap (c.persisted now clock)
  let snap : CacheSnapshot K V :=
    { entries := (List.range c₁.numShards.toNat).flatMap (c₁.persisted now clock)
      capacity := c₁.capacity
      shards := c₁.numShards
      powerOfTwo := c₁.powerOfTwo }
  have hsnap : c.toSnapshot now clock = some (snap, c₁) := by
    rw [toSnapshot, hflush]
    rfl
  have hentries : snap.entries = entries := by
    change (List.range c₁.numShards.toNat).flatMap (c₁.persisted now clock) = entries
    rw [hpersisted, hsame.numShards]
  have hcapacity : snap.capacity = -1 := hsame.capacity.trans hmax
  have hvalid : CacheBuilder.validate snap.capacity snap.shards = .ok () := by
    have hshards : snap.shards ≠ 0 := by
      obtain ⟨j, hj⟩ := snap.powerOfTwo
      intro hzero
      rw [hzero, UInt64.toNat_zero] at hj
      exact (Nat.two_pow_pos j).ne hj
    rw [CacheBuilder.validate, hcapacity, if_neg (by decide), if_neg hshards]
  -- no deadline is too long
  have hrestore : entries.mapM (b.restore now' clock') =
      some (entries.map (b.restored now' clock')) := by
    refine mapM_eq_some fun p hp => restore_eq b now' clock' fun ttl httl => ?_
    obtain ⟨i, -, hp⟩ := mem_flatMap.mp hp
    obtain ⟨ke, -, rfl⟩ := mem_map.mp hp
    have hsub : ke.2.ttlRemaining now = some ttl := httl
    unfold CacheEntry.ttlRemaining Duration.checkedSub at hsub
    split_ifs at hsub
    have hword := ke.2.expiresAt.toNat_lt
    rw [← Option.some.inj hsub]
    exact (Nat.sub_le _ _).trans_lt hword
  have hkeys : ((entries.map (b.restored now' clock')).map Prod.fst).Nodup := by
    rw [map_map]
    exact hc.nodup_persisted _
  refine ⟨snap, c₁, b.populate snap wheelClock (entries.map (b.restored now' clock')), hsnap, ?_,
    rfl, fun k => ?_⟩
  · rw [CacheBuilder.buildFromSnapshot, hvalid, hentries, hrestore]
    rfl
  · have hfind : entries.find? (fun p => decide (p.key = k)) =
        (c.unexpired (clock k) k).map (CacheEntry.persist now k) := hc.find?_persisted k
    have hrestored : ((fun ke : K × CacheEntry V => decide (ke.1 = k)) ∘ b.restored now' clock') =
        fun p => decide (p.key = k) := rfl
    rw [resident, index_eq_mod]
    refine (get_restoreShard hcapacity wheelClock hkeys k).trans ?_
    rw [List.find?_map, hrestored, hfind, Option.map_map, Option.map_map]
    rfl

/-- An unbounded cache with one entry. -/
def single (expiresAt : UInt64) : CacheHandle UInt64 UInt64 NullPolicy :=
  let c : CacheHandle UInt64 UInt64 NullPolicy :=
    new 1 ⟨0, rfl⟩ id (-1) fun _ => .new (-1) 1 ⟨⟩ none (.new 60 1 0) 0 0
  c.setShard 0 { c.shards 0 with
    map := (c.shards 0).map.step id (.insert 10 7 (.newWithCustomExpiry 70 1 expiresAt none 10)) }

theorem reachable_single (expiresAt : UInt64) : (single expiresAt).Reachable := by
  refine .call (.new _ fun i => ⟨rfl, rfl, rfl⟩) ?_
  rfl

theorem contents_single (expiresAt k : UInt64) :
    ((single expiresAt).resident k).map CacheEntry.contents =
      if k = 7 then some (70, 1, expiresAt, 0) else none := by
  have hindex : (single expiresAt).index k = 0 := by
    change (k &&& (1 - 1)).toNat = 0
    simp
  have hresident : (single expiresAt).resident k =
      ((ShardMap.new (-1) 1 ⟨⟩ none (.new 60 1 0) 0 0 :
        ShardMap UInt64 UInt64 NullPolicy).insertInner id 10 7
          (.newWithCustomExpiry 70 1 expiresAt none 10) true).2.get k := by
    rw [resident, hindex]
    rfl
  rw [hresident, (ShardMap.get_insertInner rfl 10 7 _ true k).2]
  rfl

end CacheHandle

end Fibre.Cache
