import Fibre.Cache.Accounting
import Fibre.Cache.Expiry

/-!
# Iterating over a cache

An iterator copies the entries of one shard after the other in batches, and keeps a cursor for the
next batch. The stream does the same, but where the iterator waits for the lock of a shard, it
gives way and goes on from there when it is polled again.
-/

namespace Fibre.Cache

open List

variable {K V π : Type*}

/-- A position within the cache's iteration. -/
structure Cursor where
  shardIndex : ℕ
  itemsSeenInShard : ℕ

/-- A batch and the position after it. -/
structure Batch (K V : Type*) where
  cursor : Cursor
  buffer : List (K × V)

/-- The keys and values of the entries that are not expired. -/
def live (tti : Option Duration) (now : UInt64) (chunk : List (K × CacheEntry V)) : List (K × V) :=
  (chunk.filter fun ke => !ke.2.isExpired tti now).map fun ke => (ke.1, ke.2.value)

theorem live_append (tti : Option Duration) (now : UInt64) (chunk chunk' : List (K × CacheEntry V)) :
    live tti now (chunk ++ chunk') = live tti now chunk ++ live tti now chunk' := by
  rw [live, filter_append, map_append]
  rfl

theorem map_range_succ {α : Type*} (items : List α) (n : ℕ) :
    ((List.range (n + 1)).map fun i => items[i]?) =
      items.head? :: (List.range n).map fun i => items.tail[i]? := by
  rw [range_succ_eq_map, map_cons, map_map, List.head?_eq_getElem?]
  congr 1
  apply map_congr_left
  intro i _
  simp

section Filling

variable (c : CacheShared K V π) (tti : Option Duration) (now : UInt64)

/-- One turn of the loop that fills a batch, when it has the lock of the shard: on to the next
shard, or a chunk of this one. `none` when the loop ends. -/
def Batch.turn (batchSize : ℕ) (b : Batch K V) : Option (Batch K V) :=
  match c.shards[b.cursor.shardIndex]? with
  | none => none
  | some shard =>
    if b.buffer.length < batchSize then
      if shard.table.length ≤ b.cursor.itemsSeenInShard then
        some { b with cursor := ⟨b.cursor.shardIndex + 1, 0⟩ }
      else
        let needed := batchSize - b.buffer.length
        let chunk := (shard.table.drop b.cursor.itemsSeenInShard).take needed
        some
          { cursor := ⟨b.cursor.shardIndex, b.cursor.itemsSeenInShard + chunk.length⟩
            buffer := b.buffer ++ live tti now chunk }
    else none

/-- The loop while it gets a lock, for `locks` of them; also whether it has ended. -/
def Batch.advance (batchSize : ℕ) : ℕ → Batch K V → Batch K V × Bool
  | 0, b => (b, (b.turn c tti now batchSize).isNone)
  | locks + 1, b =>
    match b.turn c tti now batchSize with
    | none => (b, true)
    | some b => advance batchSize locks b

/-- Turns that are enough from a position. -/
def Cursor.turns (cursor : Cursor) : ℕ :=
  match c.shards.drop cursor.shardIndex with
  | [] => 0
  | shard :: shards => shard.table.length - cursor.itemsSeenInShard + 1 +
      (shards.map fun s => s.table.length + 1).sum

/-- The entries from a position on. -/
def Cursor.rest (cursor : Cursor) : List (K × V) :=
  match c.shards.drop cursor.shardIndex with
  | [] => []
  | shard :: shards => live tti now (shard.table.drop cursor.itemsSeenInShard) ++
      shards.flatMap fun s => live tti now s.table

def CacheShared.entries : List (K × V) := c.shards.flatMap fun s => live tti now s.table

variable {c tti now}

theorem Cursor.rest_zero (i : ℕ) :
    Cursor.rest c tti now ⟨i, 0⟩ = (c.shards.drop i).flatMap fun s => live tti now s.table := by
  unfold Cursor.rest
  cases c.shards.drop i with
  | nil => rfl
  | cons shard shards => rfl

theorem Cursor.turns_zero (i : ℕ) :
    Cursor.turns c ⟨i, 0⟩ = ((c.shards.drop i).map fun s => s.table.length + 1).sum := by
  unfold Cursor.turns
  cases c.shards.drop i with
  | nil => rfl
  | cons shard shards => rfl

theorem Cursor.rest_eq_nil {cursor : Cursor} (h : c.shards.length ≤ cursor.shardIndex) :
    cursor.rest c tti now = [] := by
  rw [Cursor.rest, drop_eq_nil_of_le h]

namespace Batch

variable {b b' : Batch K V} {batchSize : ℕ}

/-- A turn leaves what is in the batch and what is left of the cache as they are together, and
less to do. -/
theorem turn_eq_some (h : b.turn c tti now batchSize = some b') :
    b'.buffer ++ b'.cursor.rest c tti now = b.buffer ++ b.cursor.rest c tti now ∧
      b'.cursor.turns c < b.cursor.turns c := by
  unfold turn at h
  split at h
  · cases h
  · next shard hshard =>
    obtain ⟨hlt, rfl⟩ := List.getElem?_eq_some_iff.mp hshard
    have hdrop := drop_eq_getElem_cons hlt
    have hrest : b.cursor.rest c tti now =
        live tti now (c.shards[b.cursor.shardIndex].table.drop b.cursor.itemsSeenInShard) ++
          (c.shards.drop (b.cursor.shardIndex + 1)).flatMap fun s => live tti now s.table := by
      rw [Cursor.rest, hdrop]
    have hturns : b.cursor.turns c =
        c.shards[b.cursor.shardIndex].table.length - b.cursor.itemsSeenInShard + 1 +
          ((c.shards.drop (b.cursor.shardIndex + 1)).map fun s => s.table.length + 1).sum := by
      rw [Cursor.turns, hdrop]
    split_ifs at h with hroom hseen
    · obtain rfl := Option.some.inj h
      refine ⟨?_, ?_⟩
      · rw [hrest, drop_eq_nil_of_le hseen, Cursor.rest_zero]
        rfl
      · rw [hturns, Cursor.turns_zero]
        omega
    · obtain rfl := Option.some.inj h
      set table := c.shards[b.cursor.shardIndex].table with htable
      set needed := batchSize - b.buffer.length with hneeded
      -- the chunk and what the shard has after it
      set chunk := (table.drop b.cursor.itemsSeenInShard).take needed with hchunk
      have hsplit : table.drop b.cursor.itemsSeenInShard =
          chunk ++ table.drop (b.cursor.itemsSeenInShard + chunk.length) := by
        rw [← drop_drop]
        exact (prefix_iff_eq_append.mp ( take_prefix needed _)).symm
      have hpos : 0 < chunk.length := by
        rw [hchunk, length_take, length_drop]
        omega
      refine ⟨?_, ?_⟩
      · rw [Cursor.rest, hdrop, hrest, hsplit, live_append]
        simp only [append_assoc]
        rfl
      · rw [hturns, Cursor.turns, hdrop]
        simp only [← htable]
        omega

theorem turn_eq_none (h : b.turn c tti now batchSize = none) :
    c.shards.length ≤ b.cursor.shardIndex ∨ batchSize ≤ b.buffer.length := by
  unfold turn at h
  split at h
  · next hnone => exact .inl (List.getElem?_eq_none_iff.mp hnone)
  · split_ifs at h with hroom
    exact .inr (not_lt.mp hroom)

variable (c tti now batchSize) in
theorem advance_spec (locks : ℕ) (b : Batch K V) :
    let r := b.advance c tti now batchSize locks
    r.1.buffer ++ r.1.cursor.rest c tti now = b.buffer ++ b.cursor.rest c tti now ∧
      (r.2 = true ↔ r.1.turn c tti now batchSize = none) ∧
      (r.2 = false → r.1.cursor.turns c + locks ≤ b.cursor.turns c) ∧
      r.1.cursor.turns c ≤ b.cursor.turns c := by
  induction locks generalizing b with
  | zero =>
    exact ⟨rfl, Option.isNone_iff_eq_none, fun _ => le_rfl, le_rfl⟩
  | succ locks ih =>
    intro r
    cases hturn : b.turn c tti now batchSize with
    | none =>
      have hr : r = (b, true) := by
        show b.advance c tti now batchSize (locks + 1) = _
        rw [advance, hturn]
      rw [hr]
      exact ⟨rfl, iff_of_true rfl hturn, nofun, le_rfl⟩
    | some b' =>
      have hr : r = b'.advance c tti now batchSize locks := by
        show b.advance c tti now batchSize (locks + 1) = _
        rw [advance, hturn]
      obtain ⟨hsame, hless⟩ := turn_eq_some hturn
      obtain ⟨hrest, hend, hleft, hle⟩ := ih b'
      rw [hr]
      refine ⟨hrest.trans hsame, hend, fun hopen => ?_, ?_⟩
      · have hsteps := hleft hopen
        omega
      · omega

theorem advance_ends {locks : ℕ} (h : b.cursor.turns c ≤ locks) :
    (b.advance c tti now batchSize locks).2 = true := by
  obtain ⟨-, hend, hleft, -⟩ := advance_spec c tti now batchSize locks b
  by_contra hopen
  have hsteps := hleft (Bool.eq_false_iff.mpr hopen)
  refine hopen (hend.mpr ?_)
  -- no turn is left
  unfold turn
  cases hshard : c.shards[(b.advance c tti now batchSize locks).1.cursor.shardIndex]? with
  | none => rfl
  | some shard =>
    obtain ⟨hlt, -⟩ := List.getElem?_eq_some_iff.mp hshard
    rw [Cursor.turns, drop_eq_getElem_cons hlt] at hsteps
    simp only at hsteps
    omega

end Batch

end Filling

/-! ### The iterator -/

/-- `Iter`. -/
structure Iter (K V : Type*) where
  buffer : List (K × V)
  cursor : Cursor
  batchSize : ℕ
  finished : Bool

namespace Iter

def new (batchSize : ℕ) : Iter K V := ⟨[], ⟨0, 0⟩, batchSize, false⟩

variable (c : CacheShared K V π) (tti : Option Duration) (now : UInt64)

/-- Fills the buffer. The lock of a shard is waited for, so the loop runs to its end. -/
def refillBuffer (it : Iter K V) : Iter K V :=
  if it.finished then it
  else
    let b := (Batch.advance c tti now it.batchSize (it.cursor.turns c) ⟨it.cursor, it.buffer⟩).1
    { it with
      buffer := b.buffer
      cursor := b.cursor
      finished := decide (c.shards.length ≤ b.cursor.shardIndex) }

def popFront (it : Iter K V) : Option (K × V) × Iter K V :=
  match it.buffer with
  | [] => (none, it)
  | item :: buffer => (some item, { it with buffer := buffer })

def next (it : Iter K V) : Option (K × V) × Iter K V :=
  if it.buffer ≠ [] then it.popFront
  else if it.finished then (none, it)
  else (it.refillBuffer c tti now).popFront

/-- What `n` calls return. -/
def nexts : ℕ → Iter K V → List (Option (K × V))
  | 0, _ => []
  | n + 1, it => (it.next c tti now).1 :: nexts n (it.next c tti now).2

variable {c tti now} {it : Iter K V} {items : List (K × V)}

/-- What the iterator has yet to yield. -/
structure Holds (c : CacheShared K V π) (tti : Option Duration) (now : UInt64) (it : Iter K V)
    (items : List (K × V)) : Prop where
  items_eq : it.buffer ++ it.cursor.rest c tti now = items
  finished : it.finished = true → c.shards.length ≤ it.cursor.shardIndex
  batchSize : 1 ≤ it.batchSize

theorem Holds.new {batchSize : ℕ} (h : 1 ≤ batchSize) :
    Holds c tti now (.new batchSize) (c.entries tti now) := by
  refine ⟨?_, nofun, h⟩
  rw [Iter.new, Cursor.rest_zero]
  rfl

theorem Holds.refillBuffer (h : it.Holds c tti now items) :
    (it.refillBuffer c tti now).Holds c tti now items ∧
      ((it.refillBuffer c tti now).buffer = [] → items = []) := by
  unfold Iter.refillBuffer
  split_ifs with hfin
  · refine ⟨h, fun hnil => ?_⟩
    rw [← h.items_eq, hnil, Cursor.rest_eq_nil (h.finished hfin)]
    rfl
  · obtain ⟨hsame, hend, -, -⟩ := Batch.advance_spec c tti now it.batchSize
      (it.cursor.turns c) ⟨it.cursor, it.buffer⟩
    have hturn := hend.mp (Batch.advance_ends le_rfl)
    refine ⟨⟨hsame.trans h.items_eq, of_decide_eq_true, h.batchSize⟩, fun hnil => ?_⟩
    rcases Batch.turn_eq_none hturn with hlast | hfull
    · rw [← h.items_eq, ← hsame, Cursor.rest_eq_nil hlast, append_nil]
      exact hnil
    · have hbatch := h.batchSize
      simp only at hnil
      rw [hnil, length_nil] at hfull
      omega

theorem Holds.popFront (h : it.Holds c tti now items) (hnil : it.buffer = [] → items = []) :
    it.popFront.1 = items.head? ∧ it.popFront.2.Holds c tti now items.tail := by
  unfold Iter.popFront
  split
  · next hempty =>
    obtain rfl := hnil hempty
    exact ⟨rfl, h⟩
  · next item buffer hbuffer =>
    obtain rfl : (item :: buffer) ++ it.cursor.rest c tti now = items := by
      rw [← hbuffer]
      exact h.items_eq
    exact ⟨rfl, rfl, h.finished, h.batchSize⟩

/-- A call returns the first of what is left. -/
theorem Holds.next (h : it.Holds c tti now items) :
    (it.next c tti now).1 = items.head? ∧ (it.next c tti now).2.Holds c tti now items.tail := by
  unfold Iter.next
  split_ifs with hbuffer hfin
  · exact h.popFront fun hempty => absurd hempty hbuffer
  · have hnil : items = [] := by
      rw [← h.items_eq, not_not.mp hbuffer, Cursor.rest_eq_nil (h.finished hfin)]
      rfl
    subst hnil
    exact ⟨rfl, h⟩
  · obtain ⟨hfilled, hnil⟩ := h.refillBuffer
    exact hfilled.popFront hnil

theorem Holds.nexts (h : it.Holds c tti now items) (n : ℕ) :
    it.nexts c tti now n = (List.range n).map fun i => items[i]? := by
  induction n generalizing it items with
  | zero => rfl
  | succ n ih =>
    obtain ⟨hhead, htail⟩ := h.next
    rw [Iter.nexts, ih htail, hhead, map_range_succ]

end Iter

/-! ### The stream -/

inductive Poll (α : Type*)
  | ready (a : α)
  | pending
  deriving DecidableEq

def Poll.result? {α : Type*} : Poll α → Option α
  | ready a => some a
  | pending => none

/-- `IterStream`. A refill in flight has its own position and buffer. -/
structure IterStream (K V : Type*) where
  buffer : List (K × V)
  cursor : Cursor
  batchSize : ℕ
  finished : Bool
  refillFuture : Option (Batch K V)

namespace IterStream

def new (batchSize : ℕ) : IterStream K V := ⟨[], ⟨0, 0⟩, batchSize, false, none⟩

/-- Polls a refill, which gets so many locks. When it is done its batch is taken over. -/
def pollRefill (c : CacheShared K V π) (tti : Option Duration) (now : UInt64) (locks : ℕ)
    (it : IterStream K V) (b : Batch K V) : Poll (Option (K × V)) × IterStream K V :=
  match b.advance c tti now it.batchSize locks with
  | (b, false) => (.pending, { it with refillFuture := some b })
  | (b, true) =>
    let it := { it with
      refillFuture := none
      cursor := b.cursor
      finished := decide (c.shards.length ≤ b.cursor.shardIndex) }
    match it.buffer ++ b.buffer with
    | [] => (.ready none, { it with buffer := [] })
    | item :: buffer => (.ready (some item), { it with buffer := buffer })

/-- `poll_next`, which gets the lock of a shard so many times. -/
def pollNext (c : CacheShared K V π) (tti : Option Duration) (now : UInt64) (locks : ℕ)
    (it : IterStream K V) : Poll (Option (K × V)) × IterStream K V :=
  match it.buffer with
  | item :: buffer => (.ready (some item), { it with buffer := buffer })
  | [] =>
    if it.finished then (.ready none, it)
    else
      match it.refillFuture with
      | some b => it.pollRefill c tti now locks b
      | none => it.pollRefill c tti now locks ⟨it.cursor, []⟩

/-- What polls return, each with the locks that it gets. -/
def polls (c : CacheShared K V π) (tti : Option Duration) (now : UInt64) :
    List ℕ → IterStream K V → List (Poll (Option (K × V)))
  | [], _ => []
  | locks :: more, it =>
    (it.pollNext c tti now locks).1 :: polls c tti now more (it.pollNext c tti now locks).2

variable {c : CacheShared K V π} {tti : Option Duration} {now : UInt64} {it : IterStream K V}
  {items : List (K × V)}

/-- The refill in flight, or the one that the next poll would start. -/
def inFlight (it : IterStream K V) : Batch K V := it.refillFuture.getD ⟨it.cursor, []⟩

/-- What the stream has yet to yield. A refill is in flight only while the buffer is empty. -/
structure Holds (c : CacheShared K V π) (tti : Option Duration) (now : UInt64)
    (it : IterStream K V) (items : List (K × V)) : Prop where
  items_eq : it.buffer ++ (it.inFlight.buffer ++ it.inFlight.cursor.rest c tti now) = items
  finished : it.finished = true →
    it.refillFuture = none ∧ c.shards.length ≤ it.cursor.shardIndex
  batchSize : 1 ≤ it.batchSize

theorem Holds.new {batchSize : ℕ} (h : 1 ≤ batchSize) :
    Holds c tti now (.new batchSize) (c.entries tti now) := by
  refine ⟨?_, nofun, h⟩
  show [] ++ ([] ++ Cursor.rest c tti now ⟨0, 0⟩) = _
  rw [Cursor.rest_zero]
  rfl

/-- Turns that are enough to end the refill in flight and all after it. -/
def turns (c : CacheShared K V π) (it : IterStream K V) : ℕ := it.inFlight.cursor.turns c

theorem Holds.pollRefill (h : it.Holds c tti now items) (hempty : it.buffer = [])
    (hopen : it.finished = false) (locks : ℕ) :
    let r := it.pollRefill c tti now locks it.inFlight
    (r.1 = .ready items.head? ∧ r.2.Holds c tti now items.tail ∧ r.2.turns c ≤ it.turns c) ∨
      (r.1 = .pending ∧ r.2.Holds c tti now items ∧ r.2.turns c + locks ≤ it.turns c) := by
  intro r
  obtain ⟨hsame, hend, hleft, hle⟩ := Batch.advance_spec c tti now it.batchSize locks it.inFlight
  have hitems := h.items_eq
  rw [hempty, nil_append, ← hsame] at hitems
  cases hadvance : it.inFlight.advance c tti now it.batchSize locks with
  | mk b ended =>
    rw [hadvance] at hend hleft hle hitems
    cases ended with
    | false =>
      right
      have hr : r = (.pending, { it with refillFuture := some b }) := by
        show it.pollRefill c tti now locks it.inFlight = _
        rw [IterStream.pollRefill, hadvance]
      rw [hr]
      refine ⟨rfl, ⟨?_, fun hfin => absurd hfin (Bool.eq_false_iff.mp hopen), h.batchSize⟩,
        hleft rfl⟩
      rw [hempty]
      exact hitems
    | true =>
      left
      have hlast : b.buffer = [] → b.cursor.rest c tti now = [] := by
        intro hnil
        rcases Batch.turn_eq_none (hend.mp rfl) with hlast | hfull
        · exact Cursor.rest_eq_nil hlast
        · have hbatch := h.batchSize
          rw [hnil, length_nil] at hfull
          omega
      cases hbuffer : b.buffer with
      | nil =>
        have hr : r = (.ready none, { it with
            buffer := []
            refillFuture := none
            cursor := b.cursor
            finished := decide (c.shards.length ≤ b.cursor.shardIndex) }) := by
          show it.pollRefill c tti now locks it.inFlight = _
          simp only [IterStream.pollRefill, hadvance, hempty, hbuffer, nil_append]
        have hnone := hlast hbuffer
        obtain rfl : [] = items := by
          rw [← hitems]
          show [] = b.buffer ++ _
          rw [hbuffer, hnone]
          rfl
        rw [hr]
        exact ⟨rfl, ⟨hnone, fun hfin => ⟨rfl, of_decide_eq_true hfin⟩, h.batchSize⟩, hle⟩
      | cons item buffer =>
        have hr : r = (.ready (some item), { it with
            buffer := buffer
            refillFuture := none
            cursor := b.cursor
            finished := decide (c.shards.length ≤ b.cursor.shardIndex) }) := by
          show it.pollRefill c tti now locks it.inFlight = _
          simp only [IterStream.pollRefill, hadvance, hempty, hbuffer, nil_append]
        obtain rfl : item :: buffer ++ b.cursor.rest c tti now = items := by
          rw [← hitems, ← hbuffer]
        rw [hr]
        exact ⟨rfl, ⟨rfl, fun hfin => ⟨rfl, of_decide_eq_true hfin⟩, h.batchSize⟩, hle⟩

theorem Holds.pollNext (h : it.Holds c tti now items) (locks : ℕ) :
    let r := it.pollNext c tti now locks
    (r.1 = .ready items.head? ∧ r.2.Holds c tti now items.tail ∧ r.2.turns c ≤ it.turns c) ∨
      (r.1 = .pending ∧ r.2.Holds c tti now items ∧ r.2.turns c + locks ≤ it.turns c) := by
  intro r
  cases hbuffer : it.buffer with
  | cons item buffer =>
    left
    have hr : r = (.ready (some item), { it with buffer := buffer }) := by
      show it.pollNext c tti now locks = _
      unfold IterStream.pollNext
      rw [hbuffer]
    obtain rfl := h.items_eq
    rw [hr, hbuffer]
    exact ⟨rfl, ⟨rfl, h.finished, h.batchSize⟩, le_rfl⟩
  | nil =>
    cases hfin : it.finished with
    | true =>
      left
      have hr : r = (.ready none, it) := by
        show it.pollNext c tti now locks = _
        unfold IterStream.pollNext
        rw [hbuffer, hfin]
        rfl
      obtain ⟨hnone, hpast⟩ := h.finished hfin
      obtain rfl : [] = items := by
        rw [← h.items_eq, hbuffer, inFlight, hnone]
        exact (Cursor.rest_eq_nil hpast).symm
      rw [hr]
      exact ⟨rfl, h, le_rfl⟩
    | false =>
      have hr : r = it.pollRefill c tti now locks it.inFlight := by
        show it.pollNext c tti now locks = _
        unfold IterStream.pollNext inFlight
        rw [hbuffer, hfin]
        cases it.refillFuture <;> rfl
      rw [hr]
      exact h.pollRefill hbuffer hfin locks

theorem Holds.polls (h : it.Holds c tti now items) (schedule : List ℕ) :
    ∃ n, (it.polls c tti now schedule).filterMap Poll.result? =
      (List.range n).map fun i => items[i]? := by
  induction schedule generalizing it items with
  | nil => exact ⟨0, rfl⟩
  | cons locks schedule ih =>
    rw [IterStream.polls]
    rcases h.pollNext locks with ⟨hready, hrest, -⟩ | ⟨hpending, hrest, -⟩
    · obtain ⟨n, hn⟩ := ih hrest
      refine ⟨n + 1, ?_⟩
      have hresult : Poll.result? (.ready items.head?) = some items.head? := rfl
      rw [hready, filterMap_cons_some hresult, hn, map_range_succ]
    · obtain ⟨n, hn⟩ := ih hrest
      refine ⟨n, ?_⟩
      rw [hpending, filterMap_cons_none rfl, hn]

theorem Holds.ends (h : it.Holds c tti now items) {schedule : List ℕ}
    (hlong : it.turns c + items.length < schedule.countP (0 < ·)) :
    .ready none ∈ it.polls c tti now schedule := by
  induction schedule generalizing it items with
  | nil => cases hlong
  | cons locks schedule ih =>
    rw [IterStream.polls, mem_cons]
    rw [countP_cons] at hlong
    rcases h.pollNext locks with ⟨hready, hrest, hle⟩ | ⟨hpending, hrest, hle⟩
    · cases items with
      | nil => exact .inl hready.symm
      | cons item items =>
        refine .inr (ih hrest ?_)
        rw [length_cons] at hlong
        simp only [tail_cons]
        split_ifs at hlong <;> omega
    · refine .inr (ih hrest ?_)
      by_cases hpos : 0 < locks
      · rw [if_pos (by simpa using hpos)] at hlong
        omega
      · rw [if_neg (by simpa using hpos)] at hlong
        omega

end IterStream

end Fibre.Cache
