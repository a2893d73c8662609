import Mathlib.Tactic.Abel
import Fibre.Math.Word

/-!
# The unsynchronized ring buffer

A preallocated circular buffer, its storage rounded up to a power of two, its indices free-running
machine words that are masked on access. It is used under a lock.
-/

namespace Fibre.Channels

open Word Function List

/-- A flat circular buffer. -/
structure RingBuffer (T : Type*) where
  buffer : UInt64 → Option T
  mask : UInt64
  head : UInt64
  tail : UInt64

namespace RingBuffer

variable {T : Type*}

/-- An empty buffer of at least `capacity` slots. -/
def new (capacity : UInt64) : RingBuffer T where
  buffer _ := none
  mask := nextPowerOfTwo capacity - 1
  head := 0
  tail := 0

def capacity (r : RingBuffer T) : UInt64 := r.mask + 1

/-- The number of stored items. -/
def len (r : RingBuffer T) : UInt64 := r.tail - r.head

def isEmpty (r : RingBuffer T) : Bool := r.head = r.tail

def isFull (r : RingBuffer T) : Bool := r.len = r.capacity

/-- Stores an item; `none` when the buffer is full. -/
def push (r : RingBuffer T) (val : T) : Option (RingBuffer T) :=
  if r.isFull then none
  else some { r with
    buffer := update r.buffer (r.tail &&& r.mask) (some val)
    tail := r.tail + 1 }

/-- Takes the oldest item. -/
def pop (r : RingBuffer T) : Option (T × RingBuffer T) :=
  if r.isEmpty then none
  else
    match r.buffer (r.head &&& r.mask) with
    -- the slot at the head is initialized whenever the buffer is not empty
    | none => none
    | some val => some (val, { r with head := r.head + 1 })

/-! ### What the buffer holds -/

/-- The buffer has `2 ^ k` slots and holds the items `l`, oldest first. -/
structure HoldsAt (r : RingBuffer T) (k : ℕ) (l : List T) : Prop where
  exp_lt : k < 64
  mask : r.mask.toNat = 2 ^ k - 1
  length_le : l.length ≤ 2 ^ k
  tail : r.tail = r.head + UInt64.ofNat l.length
  slots : ∀ j (h : j < l.length), r.buffer ((r.head + UInt64.ofNat j) &&& r.mask) = some l[j]

/-- The buffer holds the items `l`, oldest first, and has room for `capacity`. -/
def Holds (r : RingBuffer T) (capacity : ℕ) (l : List T) : Prop :=
  ∃ k, capacity ≤ 2 ^ k ∧ r.HoldsAt k l

variable {r : RingBuffer T} {k : ℕ} {l : List T} {cap : ℕ}

namespace HoldsAt

theorem length_lt (h : r.HoldsAt k l) : l.length < 2 ^ 64 :=
  h.length_le.trans_lt (Nat.pow_lt_pow_right (by decide) h.exp_lt)

theorem toNat_len (h : r.HoldsAt k l) : r.len.toNat = l.length := by
  have hlt := h.length_lt
  have hlen : r.len = UInt64.ofNat l.length := by
    rw [len, h.tail, add_sub_cancel_left]
  rw [hlen, UInt64.toNat_ofNat']
  exact Nat.mod_eq_of_lt hlt

theorem toNat_capacity (h : r.HoldsAt k l) : r.capacity.toNat = 2 ^ k := by
  have hpos : 0 < 2 ^ k := Nat.two_pow_pos k
  have hlt : 2 ^ k < 2 ^ 64 := Nat.pow_lt_pow_right (by decide) h.exp_lt
  have hone : (1 : UInt64).toNat = 1 := rfl
  rw [capacity, UInt64.toNat_add, h.mask, hone, Nat.sub_add_cancel hpos, Nat.mod_eq_of_lt hlt]

theorem isFull_iff (h : r.HoldsAt k l) : r.isFull ↔ l.length = 2 ^ k := by
  rw [isFull, decide_eq_true_iff, ← UInt64.toNat_inj, h.toNat_len, h.toNat_capacity]

theorem isEmpty_iff (h : r.HoldsAt k l) : r.isEmpty ↔ l = [] := by
  have hlen := h.toNat_len
  rw [isEmpty, decide_eq_true_iff, ← length_eq_zero_iff, ← hlen, len]
  constructor
  · intro heq
    rw [heq, sub_self]
    rfl
  · intro hzero
    have hsub : r.tail - r.head = 0 := UInt64.toNat_inj.mp hzero
    exact (sub_eq_zero.mp hsub).symm

theorem slot_ne (h : r.HoldsAt k l) {i j : ℕ} (hij : i < j) (hlt : j < i + 2 ^ k) :
    (r.head + UInt64.ofNat i) &&& r.mask ≠ (r.head + UInt64.ofNat j) &&& r.mask :=
  add_and_ne h.mask h.exp_lt r.head hij hlt

theorem push (h : r.HoldsAt k l) (hlt : l.length < 2 ^ k) (val : T) :
    ∃ r', r.push val = some r' ∧ r'.HoldsAt k (l ++ [val]) := by
  have hfull : ¬ r.isFull := h.isFull_iff.not.mpr hlt.ne
  have hone : UInt64.ofNat 1 = 1 := rfl
  refine ⟨{ r with
    buffer := update r.buffer (r.tail &&& r.mask) (some val)
    tail := r.tail + 1 }, by rw [RingBuffer.push, if_neg hfull], h.exp_lt, h.mask, ?_, ?_, ?_⟩
  · rw [length_append, length_singleton]
    exact hlt
  · rw [length_append, length_singleton, h.tail, UInt64.ofNat_add, hone, add_assoc]
  · intro j hj
    rw [length_append, length_singleton] at hj
    simp only [h.tail]
    rcases Nat.lt_succ_iff_lt_or_eq.mp hj with hj | rfl
    · -- an older item is in another slot
      rw [update_of_ne (h.slot_ne hj (by omega)), getElem_append_left hj]
      exact h.slots j hj
    · rw [update_self, getElem_append_right le_rfl]
      simp

theorem pop_cons {a : T} (h : r.HoldsAt k (a :: l)) :
    ∃ r', r.pop = some (a, r') ∧ r'.HoldsAt k l := by
  have hempty : ¬ r.isEmpty := h.isEmpty_iff.not.mpr (by simp)
  have hone : UInt64.ofNat 1 = 1 := rfl
  have hslot : r.buffer (r.head &&& r.mask) = some a := by
    have hzero := h.slots 0 (by simp)
    have hadd : r.head + UInt64.ofNat 0 = r.head := add_zero _
    rwa [hadd] at hzero
  refine ⟨{ r with head := r.head + 1 }, ?_, h.exp_lt, h.mask, ?_, ?_, ?_⟩
  · rw [RingBuffer.pop, if_neg hempty, hslot]
  · exact (Nat.le_succ _).trans h.length_le
  · simp only [h.tail, length_cons, UInt64.ofNat_add, hone]
    abel
  · intro j hj
    have hnext := h.slots (j + 1) (by simpa using hj)
    have hadd : r.head + 1 + UInt64.ofNat j = r.head + UInt64.ofNat (j + 1) := by
      rw [UInt64.ofNat_add, hone]
      abel
    simpa [hadd] using hnext

theorem pop_nil (h : r.HoldsAt k []) : r.pop = none := by
  rw [RingBuffer.pop, if_pos (h.isEmpty_iff.mpr rfl)]

end HoldsAt

namespace Holds

theorem push (h : r.Holds cap l) (hlt : l.length < cap) (val : T) :
    ∃ r', r.push val = some r' ∧ r'.Holds cap (l ++ [val]) := by
  obtain ⟨k, hk, h⟩ := h
  obtain ⟨r', hr', h'⟩ := h.push (hlt.trans_le hk) val
  exact ⟨r', hr', k, hk, h'⟩

theorem pop_cons {a : T} (h : r.Holds cap (a :: l)) :
    ∃ r', r.pop = some (a, r') ∧ r'.Holds cap l := by
  obtain ⟨k, hk, h⟩ := h
  obtain ⟨r', hr', h'⟩ := h.pop_cons
  exact ⟨r', hr', k, hk, h'⟩

theorem pop_nil (h : r.Holds cap []) : r.pop = none := h.elim fun _ h => h.2.pop_nil

theorem toNat_len (h : r.Holds cap l) : r.len.toNat = l.length := h.elim fun _ h => h.2.toNat_len

theorem isEmpty_iff (h : r.Holds cap l) : r.isEmpty ↔ l = [] := h.elim fun _ h => h.2.isEmpty_iff

theorem length_lt (h : r.Holds cap l) : l.length < 2 ^ 64 := h.elim fun _ h => h.2.length_lt

end Holds

theorem holds_new {capacity : UInt64} (hle : capacity.toNat ≤ 2 ^ 63) :
    (new capacity : RingBuffer T).Holds capacity.toNat [] := by
  obtain ⟨k, hk, hroom, hnext⟩ := nextPowerOfTwo_eq hle
  refine ⟨k, hroom, hk, ?_, by simp, ?_, by simp⟩
  · rw [new, hnext]
    exact toNat_two_pow_sub_one hk
  · simp [new]

/-- A buffer without a slot: it is full, and empty. -/
structure Broken (r : RingBuffer T) : Prop where
  capacity : r.capacity = 0
  indices : r.head = r.tail

theorem Broken.push (h : r.Broken) (val : T) : r.push val = none := by
  have hfull : r.isFull := by
    rw [isFull, decide_eq_true_iff, len, h.capacity, h.indices, sub_self]
  rw [RingBuffer.push, if_pos hfull]

theorem Broken.pop (h : r.Broken) : r.pop = none := by
  have hempty : r.isEmpty := by
    rw [isEmpty, decide_eq_true_iff, h.indices]
  rw [RingBuffer.pop, if_pos hempty]

/-- Above `2 ^ 63` the next power of two wraps to zero. -/
theorem broken_new {capacity : UInt64} (hlt : 2 ^ 63 < capacity.toNat) :
    (new capacity : RingBuffer T).Broken := by
  refine ⟨?_, rfl⟩
  simp only [new, RingBuffer.capacity, nextPowerOfTwo_eq_zero hlt]
  rfl

end RingBuffer

end Fibre.Channels
