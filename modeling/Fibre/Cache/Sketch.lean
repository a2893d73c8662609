import Fibre.Cache.TinyQueue

/-!
# Count-min sketches

The frequency sketches of the two TinyLFU policies: four rows of counters, a key's column
in each row from one mixed hash, all counters halved every `resetThreshold` increments.
The node policy counts in 32 bits and saturates; the key-based policy counts in machine
words.
-/

namespace Fibre.Cache

open Word Function

/-- MurmurHash3's 64-bit finalizer. -/
def fmix64 (h : UInt64) : UInt64 :=
  let h := h ^^^ (h >>> 33)
  let h := h * 0xff51afd7ed558ccd
  let h := h ^^^ (h >>> 33)
  let h := h * 0xc4ceb9fe1a85ec53
  h ^^^ (h >>> 33)

def sketchDepth : ℕ := 4

/-- Rows of counters and the bookkeeping of the halving. -/
structure CountMin where
  counters : ℕ → UInt64 → ℕ
  mask : UInt64
  increments : ℕ
  resetThreshold : ℕ

namespace CountMin

/-- A sketch of zeros, sized for `resetThreshold` increments between halvings. -/
def new (resetThreshold : UInt64) : CountMin where
  counters _ _ := 0
  mask := nextPowerOfTwo (max (resetThreshold * 2 / 4) 256) - 1
  increments := 0
  resetThreshold := resetThreshold.toNat

def index (s : CountMin) (hash : UInt64) (row : ℕ) : UInt64 :=
  let mixed := fmix64 hash
  let h1 := mixed
  let h2 := (mixed >>> 32) ||| 1
  (h1 + UInt64.ofNat row * h2) &&& s.mask

/-- Counts `hash`, `add` being the machine's increment, and halves all counters when due. -/
def incrementWith (add : ℕ → ℕ) (s : CountMin) (hash : UInt64) : CountMin :=
  let counters := fun row i =>
    if row < sketchDepth ∧ i = s.index hash row then add (s.counters row i) else s.counters row i
  if s.increments + 1 ≥ s.resetThreshold then
    { s with increments := 0, counters := fun row i => counters row i / 2 }
  else
    { s with increments := s.increments + 1, counters := counters }

/-- The least counter of `hash` over the rows. -/
def estimate (s : CountMin) (hash : UInt64) : ℕ :=
  min (min (s.counters 0 (s.index hash 0)) (s.counters 1 (s.index hash 1)))
    (min (s.counters 2 (s.index hash 2)) (s.counters 3 (s.index hash 3)))

/-- All counters back to zero. -/
def clear (s : CountMin) : CountMin := { s with increments := 0, counters := fun _ _ => 0 }

end CountMin

/-- The node policy's sketch: 32-bit saturating counters, by shard hash. -/
structure Sketch extends CountMin

namespace Sketch

/-- The largest counter value. -/
def counterMax : ℕ := 2 ^ 32 - 1

def new (resetThreshold : UInt64) : Sketch := ⟨.new resetThreshold⟩

def increment (s : Sketch) (hash : UInt64) : Sketch :=
  ⟨s.incrementWith (fun c => min (c + 1) counterMax) hash⟩

def clear (s : Sketch) : Sketch := ⟨s.toCountMin.clear⟩

instance : FrequencySketch Sketch UInt64 := ⟨increment, fun s => s.estimate⟩

end Sketch

/-- The key-based policy's sketch: machine-word counters, keys hashed with `hasher`. -/
structure CountMinSketch (K : Type*) extends CountMin where
  hasher : K → UInt64

namespace CountMinSketch

variable {K : Type*}

def new (resetThreshold : UInt64) (hasher : K → UInt64) : CountMinSketch K :=
  ⟨.new resetThreshold, hasher⟩

def increment (s : CountMinSketch K) (key : K) : CountMinSketch K :=
  { s with toCountMin := s.incrementWith (fun c => (c + 1) % 2 ^ 64) (s.hasher key) }

def estimate (s : CountMinSketch K) (key : K) : ℕ := s.toCountMin.estimate (s.hasher key)

def clear (s : CountMinSketch K) : CountMinSketch K := { s with toCountMin := s.toCountMin.clear }

instance : FrequencySketch (CountMinSketch K) K := ⟨increment, estimate⟩

end CountMinSketch

/-! ### The two sketches side by side -/

theorem CountMin.incrementWith_congr {add add' : ℕ → ℕ} {s : CountMin}
    (h : ∀ row i, add (s.counters row i) = add' (s.counters row i)) (hash : UInt64) :
    s.incrementWith add hash = s.incrementWith add' hash := by
  simp only [incrementWith, h]

namespace Sketch

variable {K : Type*} {hash : K → UInt64} {s : Sketch} {t : CountMinSketch K}

structure Agrees (hash : K → UInt64) (s : Sketch) (t : CountMinSketch K) : Prop where
  counters : s.toCountMin = t.toCountMin
  hasher : t.hasher = hash

theorem agrees_new (hash : K → UInt64) (n : UInt64) : (new n).Agrees hash (.new n hash) := ⟨rfl, rfl⟩

theorem Agrees.clear (h : s.Agrees hash t) : s.clear.Agrees hash t.clear :=
  ⟨congrArg CountMin.clear h.counters, h.hasher⟩

theorem Agrees.estimate (h : s.Agrees hash t) (key : K) :
    FrequencySketch.estimate s (hash key) = FrequencySketch.estimate t key := by
  simp only [FrequencySketch.estimate, CountMinSketch.estimate, h.counters, h.hasher]

theorem Agrees.increment (h : s.Agrees hash t) (hlt : ∀ row i, s.counters row i < counterMax)
    (key : K) : (s.increment (hash key)).Agrees hash (t.increment key) := by
  refine ⟨?_, h.hasher⟩
  simp only [Sketch.increment, CountMinSketch.increment, h.hasher, ← h.counters]
  refine CountMin.incrementWith_congr ?_ _
  intro row i
  have hc := hlt row i
  unfold counterMax at hc ⊢
  omega

theorem counters_increment_le (s : Sketch) {n : ℕ} (h : ∀ row i, s.counters row i ≤ n)
    (hash : UInt64) (row : ℕ) (i : UInt64) : (s.increment hash).counters row i ≤ n + 1 := by
  have hc := h row i
  have hadd : (if row < sketchDepth ∧ i = s.index hash row
      then min (s.counters row i + 1) counterMax else s.counters row i) ≤ n + 1 := by
    split_ifs <;> omega
  simp only [Sketch.increment, CountMin.incrementWith]
  split_ifs
  · exact (Nat.div_le_self _ _).trans hadd
  · exact hadd

end Sketch

/-! ### Exact counts -/

/-- How often each key was counted, halved when a sketch of the same threshold halves. -/
structure ExactCounts (K : Type*) where
  counts : K → ℕ
  increments : ℕ

namespace ExactCounts

variable {K : Type*}

def new : ExactCounts K := ⟨fun _ => 0, 0⟩

/-- Counts `key`, and halves all counts when due. -/
def increment [DecidableEq K] (resetThreshold : ℕ) (e : ExactCounts K) (key : K) : ExactCounts K :=
  let counts := update e.counts key (e.counts key + 1)
  if e.increments + 1 ≥ resetThreshold then
    ⟨fun k => counts k / 2, 0⟩
  else
    ⟨counts, e.increments + 1⟩

end ExactCounts

namespace CountMin

/-- No counter of a hash is at the limit when it is counted, along a sequence of increments. -/
def Unsaturated (limit : ℕ) (add : ℕ → ℕ) (s : CountMin) : List UInt64 → Prop
  | [] => True
  | hash :: hashes => (∀ row < sketchDepth, s.counters row (s.index hash row) < limit) ∧
      Unsaturated limit add (s.incrementWith add hash) hashes

instance decidableUnsaturated (limit : ℕ) (add : ℕ → ℕ) :
    ∀ hashes (s : CountMin), Decidable (Unsaturated limit add s hashes)
  | [], _ => .isTrue trivial
  | _ :: hashes, _ =>
    have := decidableUnsaturated limit add hashes
    inferInstanceAs (Decidable (_ ∧ _))

variable {K : Type*} {hash : K → UInt64} {s : CountMin} {e : ExactCounts K}

/-- Every counter of a key is at least its exact count. -/
structure Covers (hash : K → UInt64) (s : CountMin) (e : ExactCounts K) : Prop where
  increments : s.increments = e.increments
  le : ∀ key, ∀ row < sketchDepth, e.counts key ≤ s.counters row (s.index (hash key) row)

theorem covers_new (hash : K → UInt64) (n : UInt64) : Covers hash (.new n) .new :=
  ⟨rfl, fun _ _ _ => Nat.zero_le _⟩

theorem Covers.le_estimate (h : Covers hash s e) (key : K) : e.counts key ≤ s.estimate (hash key) := by
  have hrow : ∀ row < sketchDepth, _ := h.le key
  unfold estimate
  exact le_min (le_min (hrow 0 (by decide)) (hrow 1 (by decide)))
    (le_min (hrow 2 (by decide)) (hrow 3 (by decide)))

theorem index_incrementWith (add : ℕ → ℕ) (s : CountMin) (h h' : UInt64) (row : ℕ) :
    (s.incrementWith add h).index h' row = s.index h' row := by
  unfold incrementWith
  split_ifs <;> rfl

theorem resetThreshold_incrementWith (add : ℕ → ℕ) (s : CountMin) (h : UInt64) :
    (s.incrementWith add h).resetThreshold = s.resetThreshold := by
  unfold incrementWith
  split_ifs <;> rfl

variable [DecidableEq K] {limit : ℕ} {add : ℕ → ℕ}

/-- One increment raises every counter of the key, and no other counter is lowered; both sides are
halved together. -/
theorem Covers.incrementWith (h : Covers hash s e) (hadd : ∀ c < limit, add c = c + 1) {key : K}
    (hlt : ∀ row < sketchDepth, s.counters row (s.index (hash key) row) < limit) :
    Covers hash (s.incrementWith add (hash key)) (e.increment s.resetThreshold key) := by
  -- the counters and the counts before they are halved
  have hraised : ∀ k, ∀ row < sketchDepth,
      update e.counts key (e.counts key + 1) k ≤
        if row < sketchDepth ∧ s.index (hash k) row = s.index (hash key) row then
          add (s.counters row (s.index (hash k) row))
        else s.counters row (s.index (hash k) row) := by
    intro k row hrow
    have hk := h.le k row hrow
    rcases eq_or_ne k key with rfl | hne
    · rw [update_self, if_pos ⟨hrow, rfl⟩, hadd _ (hlt row hrow)]
      exact Nat.succ_le_succ hk
    · rw [update_of_ne hne]
      split_ifs with hsame
      · rw [hsame.2] at hk ⊢
        rw [hadd _ (hlt row hrow)]
        exact Nat.le_succ_of_le hk
      · exact hk
  refine ⟨?_, fun k row hrow => ?_⟩
  · unfold CountMin.incrementWith ExactCounts.increment
    rw [h.increments]
    split_ifs <;> rfl
  · rw [index_incrementWith]
    have hle := hraised k row hrow
    unfold CountMin.incrementWith ExactCounts.increment
    rw [h.increments]
    split_ifs
    · exact Nat.div_le_div_right hle
    · exact hle

theorem Covers.increments_all (hadd : ∀ c < limit, add c = c + 1) (keys : List K)
    (h : Covers hash s e) (hun : Unsaturated limit add s (keys.map hash)) :
    Covers hash ((keys.map hash).foldl (CountMin.incrementWith add) s)
      (keys.foldl (ExactCounts.increment s.resetThreshold) e) := by
  induction keys generalizing s e with
  | nil => exact h
  | cons key keys ih =>
    have hstep := ih (h.incrementWith hadd hun.1) hun.2
    rwa [resetThreshold_incrementWith] at hstep

end CountMin

section Estimates

variable {K : Type*} [DecidableEq K]

def Sketch.countAll (hash : K → UInt64) (s : Sketch) (keys : List K) : Sketch :=
  keys.foldl (fun s key => s.increment (hash key)) s

def CountMinSketch.countAll (s : CountMinSketch K) (keys : List K) : CountMinSketch K :=
  keys.foldl CountMinSketch.increment s

omit [DecidableEq K] in
theorem Sketch.toCountMin_countAll (hash : K → UInt64) (s : Sketch) (keys : List K) :
    (s.countAll hash keys).toCountMin =
      (keys.map hash).foldl (CountMin.incrementWith fun c => min (c + 1) counterMax)
        s.toCountMin := by
  induction keys generalizing s with
  | nil => rfl
  | cons key keys ih => exact ih (s.increment (hash key))

omit [DecidableEq K] in
theorem CountMinSketch.toCountMin_countAll (s : CountMinSketch K) (keys : List K) :
    (s.countAll keys).toCountMin =
      (keys.map s.hasher).foldl (CountMin.incrementWith fun c => (c + 1) % 2 ^ 64) s.toCountMin ∧
      (s.countAll keys).hasher = s.hasher := by
  induction keys generalizing s with
  | nil => exact ⟨rfl, rfl⟩
  | cons key keys ih => exact ih (s.increment key)

/-- While no counter is at its limit, neither sketch estimates a key below its exact count,
halved at the same increments. -/
theorem exactCount_le_estimate (hash : K → UInt64) (resetThreshold : UInt64) (keys : List K)
    (key : K) :
    let exact := (keys.foldl (ExactCounts.increment resetThreshold.toNat) .new).counts key
    (CountMin.Unsaturated Sketch.counterMax (fun c => min (c + 1) Sketch.counterMax)
        (.new resetThreshold) (keys.map hash) →
      exact ≤ ((Sketch.new resetThreshold).countAll hash keys).estimate (hash key)) ∧
    (CountMin.Unsaturated (2 ^ 64 - 1) (fun c => (c + 1) % 2 ^ 64)
        (.new resetThreshold) (keys.map hash) →
      exact ≤ ((CountMinSketch.new resetThreshold hash).countAll keys).estimate key) := by
  intro exact
  refine ⟨fun hun => ?_, fun hun => ?_⟩
  · have hcovers := (CountMin.covers_new hash resetThreshold).increments_all
      (fun c hc => by unfold Sketch.counterMax at hc ⊢; omega) keys hun
    have hle := hcovers.le_estimate key
    rw [Sketch.toCountMin_countAll]
    exact hle
  · have hcovers := (CountMin.covers_new hash resetThreshold).increments_all
      (fun c hc => Nat.mod_eq_of_lt (by omega)) keys hun
    have hle := hcovers.le_estimate key
    obtain ⟨hcount, hhash⟩ :=
      CountMinSketch.toCountMin_countAll (.new resetThreshold hash) keys
    show exact ≤ CountMin.estimate _ _
    rw [hcount, hhash]
    exact hle

/-- Three increments of one key and one of another, with a halving after the second. -/
theorem exactCount_le_estimate_four :
    1 ≤ ((Sketch.new 2).countAll id [7, 7, 7, 5]).estimate 7 ∧
      1 ≤ ((CountMinSketch.new 2 id).countAll [7, 7, 7, 5]).estimate 7 := by
  have h := exactCount_le_estimate id 2 [7, 7, 7, 5] 7
  exact ⟨h.1 (by decide), h.2 (by decide)⟩

end Estimates

end Fibre.Cache
