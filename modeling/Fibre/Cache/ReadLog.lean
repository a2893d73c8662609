import Fibre.Cache.ShardMap

/-!
# The logs of reads

A hit is recorded under the shard's read lock, and the shard's writer applies what was recorded
under its write lock. A key-based policy has a `ReadLog` of keys, with a sequence number for each
slot; a built-in policy has a `ReadRing` of node ids. Both have 256 slots and refuse a read when
they are full. A push may spin while other threads push, so it returns no result when it would
spin for ever.
-/

namespace Fibre.Cache

open Word Function List

/-! ### The log of a key-based policy -/

/-- A slot of the log: its sequence number, and the read in it. -/
structure ReadSlot (K : Type*) where
  seq : UInt64
  val : Option (K × UInt64)

/-- Per-shard log of the reads a key-based policy has not seen yet. -/
structure ReadLog (K : Type*) where
  slots : UInt64 → ReadSlot K
  tail : UInt64
  head : UInt64

namespace ReadLog

variable {K : Type*}

/-- `SLOTS - 1`. -/
def mask : UInt64 := 255

def new : ReadLog K := ⟨fun i => ⟨i, none⟩, 0, 0⟩

/-- Appends a read. Returns false when the log is full. -/
def push (log : ReadLog K) (key : K) (cost : UInt64) : Option (Bool × ReadLog K) :=
  let pos := log.tail
  let slot := log.slots (pos &&& mask)
  let diff := slot.seq.toInt64 - pos.toInt64
  if diff = 0 then
    some (true, { log with
      tail := pos + 1
      slots := update log.slots (pos &&& mask) ⟨pos + 1, some (key, cost)⟩ })
  else if diff < 0 then
    some (false, log)
  else
    none

/-- The loop of `drain` at `pos`, with the reads handed on so far. A slot that is read must have
been written. -/
def drainLoop : ℕ → ReadLog K → UInt64 → List (K × UInt64) →
    Option (List (K × UInt64) × ReadLog K)
  | 0, _, _, _ => none
  | fuel + 1, log, pos, out =>
    let slot := log.slots (pos &&& mask)
    if slot.seq = pos + 1 then
      slot.val.bind fun read => drainLoop fuel { log with
        slots := update log.slots (pos &&& mask) ⟨pos + 256, none⟩ } (pos + 1)
          (out ++ [read])
    else
      some (out, { log with head := pos })

/-- Hands on every logged read in order. A drained slot stops the loop, so it turns at most once
more than there are slots. -/
def drain (log : ReadLog K) : Option (List (K × UInt64) × ReadLog K) :=
  drainLoop (readSlots + 1) log log.head []

/-- The log holds the reads `l` from the position `pos` on, oldest first. -/
structure HoldsFrom (log : ReadLog K) (pos : UInt64) (l : List (K × UInt64)) : Prop where
  length_le : l.length ≤ readSlots
  tail : log.tail = pos + UInt64.ofNat l.length
  stored : ∀ j (h : j < l.length), log.slots ((pos + UInt64.ofNat j) &&& mask) =
    ⟨pos + UInt64.ofNat (j + 1), some l[j]⟩
  free : ∀ j, l.length ≤ j → j < readSlots →
    (log.slots ((pos + UInt64.ofNat j) &&& mask)).seq = pos + UInt64.ofNat j

/-- The log holds the reads `l`, oldest first. -/
def Holds (log : ReadLog K) (l : List (K × UInt64)) : Prop := log.HoldsFrom log.head l

variable {log : ReadLog K} {pos : UInt64} {l out : List (K × UInt64)}

theorem slot_ne {i j : ℕ} (pos : UInt64) (hij : i < j) (hlt : j < i + readSlots) :
    (pos + UInt64.ofNat i) &&& mask ≠ (pos + UInt64.ofNat j) &&& mask :=
  add_and_ne (k := 8) rfl (by decide) pos hij hlt

theorem holds_new : (new : ReadLog K).Holds [] where
  length_le := Nat.zero_le _
  tail := rfl
  stored j h := absurd h (Nat.not_lt_zero j)
  free j _ hj := by
    have hmod : (((0 : UInt64) + UInt64.ofNat j) &&& mask).toNat = j := by
      rw [toNat_add_and (k := 8) rfl (by decide)]
      exact (Nat.mod_eq_of_lt (by rwa [UInt64.toNat_zero, zero_add])).trans (zero_add j)
    have hj' : ((0 : UInt64) + UInt64.ofNat j).toNat = j := by
      rw [zero_add, UInt64.toNat_ofNat']
      exact Nat.mod_eq_of_lt (hj.trans (by decide))
    exact UInt64.toNat_inj.mp (hmod.trans hj'.symm)

theorem Holds.push (h : log.Holds l) (hlt : l.length < readSlots) (key : K) (cost : UInt64) :
    ∃ log', log.push key cost = some (true, log') ∧ log'.Holds (l ++ [(key, cost)]) := by
  have hseq := h.free l.length le_rfl hlt
  rw [← h.tail] at hseq
  have hdiff : log.tail.toInt64 - log.tail.toInt64 = 0 := Int64.sub_self _
  refine ⟨_, by simp only [ReadLog.push, hseq, hdiff, if_true]; rfl, ?_, ?_, ?_, ?_⟩
  · rw [length_append, length_singleton]
    exact hlt
  · rw [length_append, length_singleton, add_ofNat_succ, ← h.tail]
  · intro j hj
    rw [length_append, length_singleton] at hj
    simp only [h.tail]
    rcases Nat.lt_succ_iff_lt_or_eq.mp hj with hj | rfl
    · -- an older read is in another slot
      rw [update_of_ne (slot_ne _ hj (by omega)), getElem_append_left hj]
      exact h.stored j hj
    · rw [update_self, getElem_append_right le_rfl, add_ofNat_succ]
      simp
  · intro j hle hj
    rw [length_append, length_singleton] at hle
    simp only [h.tail]
    rw [update_of_ne (slot_ne _ (by omega) (by omega)).symm]
    exact h.free j (by omega) hj

theorem Holds.push_full (h : log.Holds l) (hfull : l.length = readSlots) (key : K)
    (cost : UInt64) : log.push key cost = some (false, log) := by
  -- the slot at the tail is the one at the head, and holds the oldest read
  have hindex : log.tail &&& mask = (log.head + UInt64.ofNat 0) &&& mask := by
    apply UInt64.toNat_inj.mp
    rw [h.tail, toNat_add_and (k := 8) rfl (by decide), toNat_add_and (k := 8) rfl (by decide),
      hfull]
    exact Nat.add_mod_right _ _
  have hslot := congrArg ReadSlot.seq (h.stored 0 (by rw [hfull]; decide))
  have hdiff : log.head + UInt64.ofNat 1 - log.tail = 1 - 256 := by
    rw [h.tail, hfull]
    exact add_sub_add_left_eq_sub _ _ _
  simp only [ReadLog.push, hindex, hslot, ← UInt64.toInt64_sub, hdiff]
  rw [if_neg (by decide), if_pos (by decide)]

theorem HoldsFrom.drop {read : K × UInt64} (h : log.HoldsFrom pos (read :: l)) :
    HoldsFrom { log with
      slots := update log.slots (pos &&& mask) ⟨pos + 256, none⟩ } (pos + 1) l := by
  have hlen := h.length_le
  rw [length_cons] at hlen
  have hshift : ∀ j, pos + 1 + UInt64.ofNat j = pos + UInt64.ofNat (j + 1) := by
    intro j
    rw [add_ofNat_succ]
    abel
  have hne : ∀ j, j + 1 < readSlots → (pos + UInt64.ofNat (j + 1)) &&& mask ≠ pos &&& mask := by
    intro j hj
    have := slot_ne pos (Nat.succ_pos j) (by omega)
    rw [show pos + UInt64.ofNat 0 = pos from add_zero pos] at this
    exact this.symm
  refine ⟨by omega, ?_, fun j hj => ?_, fun j hle hj => ?_⟩
  · rw [hshift]
    exact h.tail
  · simp only [hshift, update_of_ne (hne j (by omega))]
    exact h.stored (j + 1) (by simpa using hj)
  · by_cases hlast : j + 1 = readSlots
    · -- the slot just drained is the last free one
      have hindex : (pos + UInt64.ofNat (j + 1)) &&& mask = pos &&& mask := by
        have hzero := toNat_add_and (m := mask) (k := 8) rfl (by decide) pos 0
        rw [show pos + UInt64.ofNat 0 = pos from add_zero pos] at hzero
        apply UInt64.toNat_inj.mp
        rw [toNat_add_and (k := 8) rfl (by decide), hzero, hlast]
        exact Nat.add_mod_right _ _
      rw [hshift]
      simp only [hindex, update_self]
      rw [hlast]
      rfl
    · simp only [hshift, update_of_ne (hne j (by omega))]
      exact h.free (j + 1) (by simpa using hle) (by omega)

theorem HoldsFrom.drainLoop (h : log.HoldsFrom pos l) {fuel : ℕ} (hfuel : l.length < fuel)
    (out : List (K × UInt64)) :
    ∃ log', ReadLog.drainLoop fuel log pos out = some (out ++ l, log') ∧ log'.Holds [] := by
  induction fuel generalizing log pos l out with
  | zero => omega
  | succ fuel ih =>
    have hzero : pos + UInt64.ofNat 0 = pos := add_zero pos
    cases l with
    | nil =>
      have hfree := h.free 0 (Nat.zero_le _) (by decide)
      rw [hzero] at hfree
      have hne : pos ≠ pos + 1 := by
        intro heq
        exact absurd (left_eq_add.mp heq) (by decide)
      refine ⟨{ log with head := pos }, ?_, ⟨h.length_le, h.tail, h.stored, h.free⟩⟩
      simp only [ReadLog.drainLoop, hfree, if_neg hne, append_nil]
    | cons read l =>
      have hslot : log.slots (pos &&& mask) = ⟨pos + 1, some read⟩ := by
        have hstored := h.stored 0 (by simp)
        rwa [hzero] at hstored
      obtain ⟨log', hdrain, hholds⟩ := ih h.drop (by simpa using hfuel) (out ++ [read])
      refine ⟨log', ?_, hholds⟩
      simp only [ReadLog.drainLoop, hslot, if_true, Option.bind_some, hdrain,
        append_assoc, singleton_append]

/-- The writer gets every read in order and leaves the log empty. -/
theorem Holds.drain (h : log.Holds l) :
    ∃ log', log.drain = some (l, log') ∧ log'.Holds [] :=
  HoldsFrom.drainLoop h (Nat.lt_succ_of_le h.length_le) []

end ReadLog

/-! ### The ring of a built-in policy -/

/-- Per-shard record of the nodes read. A slot stores a node's id plus one, so that zero is
empty; here an empty slot is `none`. -/
structure ReadRing where
  slots : ℕ → Option NodeId
  cursor : ℕ

namespace ReadRing

def new : ReadRing := ⟨fun _ => none, 0⟩

/-- Records a read of `node`. Returns false when the ring is full. -/
def push (r : ReadRing) (node : NodeId) : Bool × ReadRing :=
  if node = NO_NODE then (true, r)
  else if r.cursor ≥ readSlots then (false, r)
  else
    let i := r.cursor
    let r := { r with cursor := r.cursor + 1 }
    if i < readSlots then (true, { r with slots := update r.slots i (some node) })
    else (false, r)

/-- Hands on the recorded nodes, and empties their slots. -/
def drain (r : ReadRing) : List NodeId × ReadRing :=
  let n := min r.cursor readSlots
  ((List.range n).filterMap r.slots,
    { slots := fun i => if i < n then none else r.slots i, cursor := 0 })

/-- The ring holds the nodes `l`, oldest first. -/
structure Holds (r : ReadRing) (l : List NodeId) : Prop where
  length_le : l.length ≤ readSlots
  cursor : r.cursor = l.length
  slots : ∀ i, r.slots i = l[i]?

variable {r : ReadRing} {l : List NodeId}

theorem holds_new : new.Holds [] := ⟨Nat.zero_le _, rfl, fun _ => rfl⟩

theorem Holds.push (h : r.Holds l) (hlt : l.length < readSlots) {node : NodeId}
    (hnode : node ≠ NO_NODE) :
    ∃ r', r.push node = (true, r') ∧ r'.Holds (l ++ [node]) := by
  have hroom : ¬ r.cursor ≥ readSlots := by
    rw [h.cursor]
    omega
  refine ⟨⟨update r.slots r.cursor (some node), r.cursor + 1⟩, ?_, ?_, ?_, ?_⟩
  · simp only [ReadRing.push, if_neg hnode, if_neg hroom, if_pos (not_le.mp hroom)]
  · rw [length_append, length_singleton]
    exact hlt
  · simp [h.cursor]
  · intro i
    simp only [h.cursor, update_apply, h.slots]
    split_ifs with hi
    · rw [hi, List.getElem?_concat_length]
    · rcases Nat.lt_or_gt_of_ne hi with hi | hi
      · rw [List.getElem?_append_left hi]
      · rw [List.getElem?_eq_none (by omega), List.getElem?_eq_none (by simp; omega)]

theorem Holds.push_full (h : r.Holds l) (hfull : l.length = readSlots) {node : NodeId}
    (hnode : node ≠ NO_NODE) : r.push node = (false, r) := by
  have hroom : r.cursor ≥ readSlots := by rw [h.cursor, hfull]
  simp only [ReadRing.push, if_neg hnode, if_pos hroom]

theorem filterMap_range (l : List NodeId) :
    (List.range l.length).filterMap (fun i => l[i]?) = l := by
  induction l with
  | nil => rfl
  | cons node l ih =>
    rw [length_cons, range_succ_eq_map, filterMap_cons, filterMap_map]
    exact congrArg (node :: ·) ih

/-- The writer gets every read in order and leaves the ring empty. -/
theorem Holds.drain (h : r.Holds l) : ∃ r', r.drain = (l, r') ∧ r'.Holds [] := by
  have hmin : min r.cursor readSlots = l.length := by
    rw [h.cursor]
    exact min_eq_left h.length_le
  refine ⟨_, Prod.ext ?_ rfl, Nat.zero_le _, rfl, fun i => ?_⟩
  · simp only [ReadRing.drain, hmin]
    rw [funext h.slots]
    exact filterMap_range l
  · simp only [ReadRing.drain, hmin]
    split_ifs with hi
    · rfl
    · rw [h.slots, List.getElem?_eq_none (by omega)]
      rfl

end ReadRing

end Fibre.Cache
