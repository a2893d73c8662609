import Fibre.Cache.Deferred
import Fibre.Cache.Upkeep

/-!
# Expiry

An entry is given its deadline when it is made, from the clock and a time to live. Reads test it
against the clock and a time to idle, and so does the sweep, with a grace period and in words of
its own.
-/

namespace Fibre.Cache

open Word List

theorem toNat_satAdd (a b : UInt64) : (satAdd a b).toNat = min (a.toNat + b.toNat) (2 ^ 64 - 1) := by
  have hmax : (-1 : UInt64).toNat = 2 ^ 64 - 1 := rfl
  have hsum := UInt64.toNat_add a b
  have ha := a.toNat_lt
  have hb := b.toNat_lt
  unfold satAdd
  split_ifs with h <;> rw [UInt64.le_iff_toNat_le] at h <;> omega

/-- A span of time, told by its nanoseconds: at most `2 ^ 64 - 1` seconds and a part of one. -/
structure Duration where
  asNanos : ℕ
  lt : asNanos < 2 ^ 64 * 10 ^ 9

namespace Duration

/-- The nanoseconds cut to a word. -/
def asNanosU64 (d : Duration) : UInt64 := UInt64.ofNat d.asNanos

theorem toNat_asNanosU64 (d : Duration) : d.asNanosU64.toNat = d.asNanos % 2 ^ 64 :=
  UInt64.toNat_ofNat'

end Duration

namespace CacheEntry

variable {V : Type*}

def new (value : V) (cost : UInt64) (ttl tti : Option Duration) (clock : UInt64) : CacheEntry V :=
  let now := if ttl.isSome ∨ tti.isSome then clock else 0
  { value := value
    cost := cost
    expiresAt := ttl.elim 0 fun d => now + d.asNanosU64
    lastAccessed := tti.elim 0 fun _ => now
    node := NO_NODE
    keyHash := 0
    ttlTimerHandle := none }

def newWithCustomExpiry (value : V) (cost expiresAt : UInt64) (tti : Option Duration)
    (clock : UInt64) : CacheEntry V where
  value := value
  cost := cost
  expiresAt := expiresAt
  lastAccessed := tti.elim 0 fun _ => clock
  node := NO_NODE
  keyHash := 0
  ttlTimerHandle := none

/-- Whether the entry was not accessed for the time to idle. -/
def isIdleAt (e : CacheEntry V) (tti : Option Duration) (now : UInt64) : Bool :=
  match tti with
  | none => false
  | some d => now ≥ e.lastAccessed + d.asNanosU64

/-- The test of the reads. -/
def isExpiredAt (e : CacheEntry V) (tti : Option Duration) (now : UInt64) : Bool :=
  if e.expiresAt > 0 ∧ now ≥ e.expiresAt then true
  else e.isIdleAt tti now

/-- `is_expired`, on the precise clock. Without a deadline and a time to idle it is not read. -/
def isExpired (e : CacheEntry V) (tti : Option Duration) (clock : UInt64) : Bool :=
  if e.expiresAt = 0 ∧ tti = none then false
  else e.isExpiredAt tti clock

theorem isExpired_eq (e : CacheEntry V) (tti : Option Duration) (clock : UInt64) :
    e.isExpired tti clock = e.isExpiredAt tti clock := by
  unfold isExpired
  split_ifs with h
  · obtain ⟨hzero, rfl⟩ := h
    simp [isExpiredAt, isIdleAt, hzero]
  · rfl

theorem isExpiredCoarse_eq (e : CacheEntry V) (tti : Option Duration) (now : UInt64) :
    e.isExpiredCoarse (tti.map Duration.asNanosU64) now = e.isExpiredAt tti now := by
  cases tti with
  | none =>
    have hpos : 0 < e.expiresAt → e.expiresAt ≠ 0 := fun hlt heq =>
      UInt64.lt_irrefl 0 (heq ▸ hlt)
    simp +contextual [isExpiredCoarse, isExpiredAt, isIdleAt, hpos]
  | some d => simp [isExpiredCoarse, isExpiredAt, isIdleAt]

/-! ### The sweep and the reads -/

/-- The time to idle as the sweep has it, zero for none. -/
def ttiNs (tti : Option Duration) : UInt64 := tti.elim 0 Duration.asNanosU64

/-- Reads take the entry for idle, and the sweep does not: the time to idle is cut to zero, or the
deadline that the reads work out has wrapped. -/
def IdleToReads (e : CacheEntry V) (tti : Option Duration) (now : UInt64) : Prop :=
  ∃ d ∈ tti, (d.asNanosU64 = 0 ∧ e.lastAccessed ≤ now) ∨
    (2 ^ 64 ≤ e.lastAccessed.toNat + d.asNanosU64.toNat ∧
      e.lastAccessed.toNat + d.asNanosU64.toNat - 2 ^ 64 ≤ now.toNat ∧ now.toNat < 2 ^ 64 - 1)

theorem isIdleAt_of_isIdle {e : CacheEntry V} {tti : Option Duration} {now : UInt64}
    (h : e.isIdle now (ttiNs tti) = true) : e.isIdleAt tti now = true := by
  simp only [isIdle, Bool.and_eq_true, decide_eq_true_eq] at h
  obtain ⟨hpos, hidle⟩ := h
  cases tti with
  | none => exact absurd hpos (UInt64.lt_irrefl 0)
  | some d =>
    have hsat := toNat_satAdd e.lastAccessed d.asNanosU64
    have hsum := UInt64.toNat_add e.lastAccessed d.asNanosU64
    have hlast := e.lastAccessed.toNat_lt
    have hd := d.asNanosU64.toNat_lt
    change satAdd e.lastAccessed d.asNanosU64 ≤ now at hidle
    rw [UInt64.le_iff_toNat_le] at hidle
    simp only [isIdleAt, ge_iff_le, decide_eq_true_eq, UInt64.le_iff_toNat_le]
    omega

theorem isIdle_iff (e : CacheEntry V) (tti : Option Duration) (now : UInt64) :
    e.isIdle now (ttiNs tti) = e.isIdleAt tti now ↔ ¬ e.IdleToReads tti now := by
  cases tti with
  | none => simp [isIdle, isIdleAt, ttiNs, IdleToReads]
  | some d =>
    have hsat := toNat_satAdd e.lastAccessed d.asNanosU64
    have hsum := UInt64.toNat_add e.lastAccessed d.asNanosU64
    have hlast := e.lastAccessed.toNat_lt
    have hd := d.asNanosU64.toNat_lt
    have hnow := now.toNat_lt
    have hzero : d.asNanosU64 = 0 ↔ d.asNanosU64.toNat = 0 := by
      rw [← UInt64.toNat_inj, UInt64.toNat_zero]
    have hidle : e.isIdle now (ttiNs (some d)) = true ↔
        0 < d.asNanosU64.toNat ∧
          min (e.lastAccessed.toNat + d.asNanosU64.toNat) (2 ^ 64 - 1) ≤ now.toNat := by
      rw [← hsat]
      simp [isIdle, ttiNs, UInt64.lt_iff_toNat_lt, UInt64.le_iff_toNat_le]
    have hreads : e.isIdleAt (some d) now = true ↔
        (e.lastAccessed.toNat + d.asNanosU64.toNat) % 2 ^ 64 ≤ now.toNat := by
      rw [← hsum]
      simp [isIdleAt, UInt64.le_iff_toNat_le]
    have hcase : e.IdleToReads (some d) now ↔
        (d.asNanosU64.toNat = 0 ∧ e.lastAccessed.toNat ≤ now.toNat) ∨
          (2 ^ 64 ≤ e.lastAccessed.toNat + d.asNanosU64.toNat ∧
            e.lastAccessed.toNat + d.asNanosU64.toNat - 2 ^ 64 ≤ now.toNat ∧
              now.toNat < 2 ^ 64 - 1) := by
      simp [IdleToReads, hzero, UInt64.le_iff_toNat_le]
    rw [Bool.eq_iff_iff, hidle, hreads, hcase]
    omega

theorem isSome_expiredBy (e : CacheEntry V) (now graceNs ttiNs : UInt64) :
    (e.expiredBy now graceNs ttiNs).isSome = true ↔
      (e.expiresAt > 0 ∧ now ≥ satAdd e.expiresAt graceNs) ∨ e.isIdle now ttiNs = true := by
  unfold expiredBy
  split_ifs with hpast hidle
  · exact iff_of_true rfl (.inl hpast)
  · exact iff_of_true rfl (.inr hidle)
  · exact iff_of_true rfl (.inr hidle)
  · exact iff_of_false nofun (not_or.mpr ⟨hpast, hidle⟩)

/-- What the sweep finds expired the reads do; and with no grace period the two agree, exactly
when the entry is not one that is idle to the reads only. -/
theorem expiredBy_agrees_iff (e : CacheEntry V) (tti : Option Duration) (graceNs now : UInt64) :
    (((e.expiredBy now graceNs (ttiNs tti)).isSome = true → e.isExpiredAt tti now = true) ∧
      (graceNs = 0 → (e.expiredBy now graceNs (ttiNs tti)).isSome = e.isExpiredAt tti now)) ↔
    (graceNs = 0 → (e.expiresAt > 0 ∧ now ≥ e.expiresAt) ∨ ¬ e.IdleToReads tti now) := by
  have hsweep : (e.expiredBy now graceNs (ttiNs tti)).isSome = true → e.isExpiredAt tti now = true := by
    rw [isSome_expiredBy, isExpiredAt]
    rintro (⟨hpos, hpast⟩ | hidle)
    · have hle : e.expiresAt ≤ satAdd e.expiresAt graceNs := by
        rw [UInt64.le_iff_toNat_le, toNat_satAdd]
        have hlt := e.expiresAt.toNat_lt
        omega
      rw [if_pos ⟨hpos, UInt64.le_trans hle hpast⟩]
    · split_ifs
      · rfl
      · exact isIdleAt_of_isIdle hidle
  refine (and_iff_right hsweep).trans (forall_congr' fun hgrace => ?_)
  subst hgrace
  have hzero : satAdd e.expiresAt 0 = e.expiresAt := by
    rw [← UInt64.toNat_inj, toNat_satAdd, UInt64.toNat_zero]
    have hlt := e.expiresAt.toNat_lt
    omega
  rw [Bool.eq_iff_iff, isSome_expiredBy, hzero, isExpiredAt]
  split_ifs with hpast
  · exact iff_of_true (iff_of_true (.inl hpast) rfl) (.inl hpast)
  · rw [or_iff_right hpast, or_iff_right hpast, ← Bool.eq_iff_iff]
    exact isIdle_iff e tti now

/-- An entry that was accessed at the time the reads find it idle: 20 seconds into a time to idle of
ten seconds less than `2 ^ 64` nanoseconds. The sweep would keep it. -/
theorem expiredBy_disagrees :
    let e : CacheEntry Unit := ⟨(), 1, 0, 20000000000, NO_NODE, 0, none⟩
    let tti : Option Duration := some ⟨2 ^ 64 - 10000000000, by decide⟩
    e.expiredBy 20000000000 0 (ttiNs tti) = none ∧ e.isExpiredAt tti 20000000000 = true := by
  decide

end CacheEntry

/-! ### The time to live -/

namespace CacheEntry

variable {V : Type*} {e : CacheEntry V}

/-- An entry made at `t` is past its deadline when its time to live is over, and not before. -/
structure KeepsTtl (t : UInt64) (ttl : Duration) (e : CacheEntry V) : Prop where
  /-- Nothing was cut off the sum. -/
  exact : e.expiresAt.toNat = t.toNat + ttl.asNanos
  /-- Until then only a time to idle ends it. -/
  alive : ∀ tti now, t ≤ now → now.toNat < t.toNat + ttl.asNanos →
    e.isExpiredAt tti now = e.isIdleAt tti now

theorem keepsTtl_iff {t : UInt64} {ttl : Duration} (h : e.expiresAt = t + ttl.asNanosU64) :
    e.KeepsTtl t ttl ↔ t.toNat + ttl.asNanos < 2 ^ 64 := by
  have hsum := UInt64.toNat_add t ttl.asNanosU64
  rw [← h, ttl.toNat_asNanosU64] at hsum
  constructor
  · intro hkept
    rw [← hkept.exact]
    exact e.expiresAt.toNat_lt
  · intro hfits
    have hexact : e.expiresAt.toNat = t.toNat + ttl.asNanos := by omega
    refine ⟨hexact, fun tti now _ hnow => ?_⟩
    have hpast : ¬(e.expiresAt > 0 ∧ now ≥ e.expiresAt) := by
      rw [ge_iff_le, UInt64.le_iff_toNat_le, hexact]
      omega
    rw [isExpiredAt, if_neg hpast]

/-- What an entry says, but for its place in the shard. -/
def contents (e : CacheEntry V) : V × UInt64 × UInt64 × UInt64 :=
  (e.value, e.cost, e.expiresAt, e.lastAccessed)

end CacheEntry

namespace ShardMap

variable {K V π : Type*} {hash : K → UInt64} [DecidableEq K] [CachePolicy π K]

theorem contents_insertInner (s : ShardMap K V π) (clock : UInt64) (key : K) (entry : CacheEntry V)
    (count : Bool) : ∀ ke ∈ (s.insertInner hash clock key entry count).2.table,
      ke.1 = key → ke.2.contents = entry.contents := by
  have hstable : Stable fun s : ShardMap K V π =>
      ∀ ke ∈ s.table, ke.1 = key → ke.2.contents = entry.contents := by
    refine ⟨fun h ht _ _ _ => ht ▸ h, fun h htake ke hke => ?_⟩
    obtain ⟨-, hperm, -⟩ := takeEntry_eq_some htake
    exact h ke (hperm.mem_iff.mpr (mem_cons_of_mem _ hke))
  obtain ⟨w, t, harm⟩ := arm_eq s clock (hash key) entry
  have hwrite : ∀ s', Wrote (s.arm clock (hash key) entry).2 key
      (s.arm clock (hash key) entry).1 s' →
      ∀ ke ∈ s'.table, ke.1 = key → ke.2.contents = entry.contents := by
    intro s' hw ke hke hkey
    obtain ⟨node, htable⟩ := hw.table
    rw [htable, harm] at hke
    unfold ShardMap.putEntry at hke
    split at hke
    · obtain ⟨ke', -, rfl⟩ := mem_map.mp hke
      split_ifs at hkey ⊢ with hold
      · rfl
      · exact absurd hkey hold
    · next hnone =>
      rcases mem_append.mp hke with hold | hnew
      · exact absurd (hkey ▸ mem_map_of_mem hold) (get_eq_none hnone)
      · rw [mem_singleton.mp hnew]
        rfl
  obtain ⟨s', hs', n, heq, -⟩ := hstable.insertInner clock count hwrite
  rw [heq]
  cases s.get key with
  | none => exact hs'
  | some old =>
    obtain ⟨w, hw⟩ := disarm_eq s' old
    simp only [hw]
    exact hs'

/-- `insert_with_ttl`. The clock is read for the deadline, for the time to idle and by the wheel. -/
def insertWithTtl (hash : K → UInt64) (s : ShardMap K V π) (tti : Option Duration)
    (now clock clock' : UInt64) (key : K) (value : V) (cost : UInt64) (ttl : Duration) :
    ShardMap K V π :=
  (s.insert hash clock' key
    (.newWithCustomExpiry value cost (now + ttl.asNanosU64) tti clock)).2

/-- `insert`, in a cache with a time to live. -/
def insertValue (hash : K → UInt64) (s : ShardMap K V π) (ttl tti : Option Duration)
    (now clock : UInt64) (key : K) (value : V) (cost : UInt64) : ShardMap K V π :=
  (s.insert hash clock key (.new value cost ttl tti now)).2

omit [CachePolicy π K] in
theorem mem_of_get {s : ShardMap K V π} {key : K} {e : CacheEntry V} (h : s.get key = some e) :
    (key, e) ∈ s.table := by
  obtain ⟨⟨k, d⟩, hfind, rfl⟩ := Option.map_eq_some_iff.mp h
  obtain rfl : k = key := by simpa using List.find?_some hfind
  exact mem_of_find?_eq_some hfind

theorem expiresAt_insert {s : ShardMap K V π} {clock : UInt64} {key : K} {entry e : CacheEntry V}
    (h : (s.insert hash clock key entry).2.get key = some e) : e.expiresAt = entry.expiresAt := by
  have hsame := contents_insertInner s clock key entry true (key, e) (mem_of_get h) rfl
  exact congrArg (fun c => c.2.2.1) hsame

/-- An entry inserted at `t` with a time to live, its own or that of the cache, is found expired
by its deadline after just that time, exactly when the sum of the two fits a word. -/
theorem ttl_kept_iff (hash : K → UInt64) (s : ShardMap K V π) (tti : Option Duration)
    (t clock clock' : UInt64) (key : K) (value : V) (cost : UInt64) (ttl : Duration) :
    (∀ e, (s.insertWithTtl hash tti t clock clock' key value cost ttl).get key = some e →
      (e.KeepsTtl t ttl ↔ t.toNat + ttl.asNanos < 2 ^ 64)) ∧
    (∀ e, (s.insertValue hash (some ttl) tti t clock key value cost).get key = some e →
      (e.KeepsTtl t ttl ↔ t.toNat + ttl.asNanos < 2 ^ 64)) := by
  refine ⟨fun e h => CacheEntry.keepsTtl_iff (expiresAt_insert h), fun e h => ?_⟩
  exact CacheEntry.keepsTtl_iff (expiresAt_insert h)

theorem ttl_kept_minute :
    let ttl : Duration := ⟨60 * 10 ^ 9, by decide⟩
    let s : ShardMap UInt64 Unit NullPolicy := new 10 1 ⟨⟩ none (.new 60 1 0) 0 0
    ∃ e, (s.insertWithTtl id none 5 5 5 7 () 1 ttl).get 7 = some e ∧ e.KeepsTtl 5 ttl := by
  intro ttl s
  obtain ⟨e, he⟩ := Option.isSome_iff_exists.mp
    (show ((s.insertWithTtl id none 5 5 5 7 () 1 ttl).get 7).isSome = true by decide)
  exact ⟨e, he, ((ttl_kept_iff id s none 5 5 5 7 () 1 ttl).1 e he).mpr (by decide)⟩

/-- The longest time to live ends an entry a nanosecond before it is made. -/
theorem ttl_wraps :
    let ttl : Duration := ⟨2 ^ 64 * 10 ^ 9 - 1, by decide⟩
    let s : ShardMap UInt64 Unit NullPolicy := new 10 1 ⟨⟩ none (.new 60 1 0) 0 0
    ∃ e, (s.insertWithTtl id none 1000000000 0 0 7 () 1 ttl).get 7 = some e ∧
      e.isExpiredAt none 1000000000 = true ∧ ¬ e.KeepsTtl 1000000000 ttl := by
  intro ttl s
  obtain ⟨e, he⟩ := Option.isSome_iff_exists.mp
    (show ((s.insertWithTtl id none 1000000000 0 0 7 () 1 ttl).get 7).isSome = true by
      decide)
  have hdeadline : e.expiresAt = 1000000000 + ttl.asNanosU64 := expiresAt_insert he
  refine ⟨e, he, ?_, ?_⟩
  · rw [CacheEntry.isExpiredAt, hdeadline, if_pos (by decide)]
  · rw [CacheEntry.keepsTtl_iff hdeadline]
    decide

end ShardMap

end Fibre.Cache
