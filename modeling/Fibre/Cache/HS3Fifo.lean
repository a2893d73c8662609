import Mathlib.Tactic.FinCases
import Fibre.Cache.Slab
import Fibre.Cache.S3Queue

/-!
# S3-FIFO on node handles

The shard's default policy. A resident entry is a slab node; the policy keeps the
entry's hash as the node's payload and its read count in a vector beside the slab.
-/

namespace Fibre.Cache

open List Function

/-- An entry the policy wants removed: its hash and its node id. -/
abbrev Victim := UInt64 × NodeId

/-- S3-FIFO on node handles. `freq` is the source's vector of `freqLen` counters. -/
structure HS3Fifo where
  slab : Slab UInt64
  freq : ℕ → ℕ
  freqLen : ℕ
  smallTarget : UInt64
  ghost : Finset UInt64
  ghostOrder : List UInt64
  ghostCap : ℕ

namespace HS3Fifo

/-- The small queue's list in the slab. -/
abbrev SMALL : Fin 3 := 0

/-- The main queue's list in the slab. -/
abbrev MAIN : Fin 3 := 1

/-- An empty policy for `capacity` cost units. -/
def new (capacity : UInt64) : HS3Fifo where
  slab := .new
  freq _ := 0
  freqLen := 0
  smallTarget := max (capacity / 10) 1
  ghost := ∅
  ghostOrder := []
  ghostCap := (max capacity 1).toNat

/-- The hash a live slot holds. -/
def hashOf (p : HS3Fifo) (i : ℕ) : UInt64 := (p.slab.payload i).getD 0

/-- Sets the read count of a slot. -/
def setFreq (p : HS3Fifo) (i f : ℕ) : HS3Fifo := { p with freq := Function.update p.freq i f }

/-- One more read of a slot, up to 3. -/
def bump (p : HS3Fifo) (i : ℕ) : HS3Fifo :=
  if p.freq i < 3 then p.setFreq i (p.freq i + 1) else p

/-- Pops the oldest ghost before adding this one, so a stale copy of the same hash at
the front cannot cancel the new membership. -/
def remember (p : HS3Fifo) (hash : UInt64) : HS3Fifo :=
  let kept := rememberGhost p.ghostCap p.ghost p.ghostOrder hash
  { p with ghost := kept.1, ghostOrder := kept.2 }

/-- Frees an unlinked slot and names it a victim; returns its cost. -/
def dropNode (p : HS3Fifo) (i : ℕ) (out : List Victim) : UInt64 × HS3Fifo × List Victim :=
  let freed := p.slab.release i
  (p.slab.costs i, { p with slab := freed.2 }, out ++ [(freed.1.getD 0, p.slab.id i)])

/-- Evicts one entry from the small queue or promotes it; returns the cost freed. -/
def evictSmall (p : HS3Fifo) (out : List Victim) : UInt64 × HS3Fifo × List Victim :=
  match (p.slab.lists SMALL).tail with
  | none => (0, p, out)
  | some t =>
    let p := { p with slab := p.slab.unlink t }
    if p.freq t > 1 then
      let p := p.setFreq t 0
      (0, { p with slab := p.slab.pushFront MAIN t }, out)
    else
      let hash := p.hashOf t
      let r := p.dropNode t out
      (r.1, r.2.1.remember hash, r.2.2)

/-- Evicts one entry from the main queue or sends it round again. -/
def evictMain (p : HS3Fifo) (out : List Victim) : UInt64 × HS3Fifo × List Victim :=
  match (p.slab.lists MAIN).tail with
  | none => (0, p, out)
  | some t =>
    let p := { p with slab := p.slab.unlink t }
    let f := p.freq t
    if f > 0 then
      let p := p.setFreq t (f - 1)
      (0, { p with slab := p.slab.pushFront MAIN t }, out)
    else
      p.dropNode t out

/-- Puts a new entry in the small queue, or in the main queue when its hash is a ghost. -/
def admitKey (p : HS3Fifo) (hash cost : UInt64) : NodeId × HS3Fifo :=
  let seg := if hash ∈ p.ghost then MAIN else SMALL
  let r := p.slab.alloc hash cost
  let i := r.1
  let p := { p with ghost := p.ghost.erase hash, slab := r.2 }
  -- the counter vector is as long as the slab has ever been
  let p : HS3Fifo :=
    if i ≥ p.freqLen then
      { p with freq := Function.update p.freq p.freqLen 0, freqLen := p.freqLen + 1 }
    else
      p.setFreq i 0
  let p := { p with slab := p.slab.pushFront seg i }
  (p.slab.id i, p)

/-- A resident entry's value was replaced with one of `cost`. -/
def update (p : HS3Fifo) (node : NodeId) (cost : UInt64) : HS3Fifo :=
  match p.slab.resolve node with
  | none => p
  | some i => { p with slab := p.slab.setCost i cost }

/-- Forgets an entry the shard removed. -/
def remove (p : HS3Fifo) (node : NodeId) : HS3Fifo :=
  match p.slab.resolve node with
  | none => p
  | some i => { p with slab := ((p.slab.unlink i).release i).2 }

/-- A read of `node`. The source has it twice, under the read lock (`touch`) and under
the write lock (`apply_read`). -/
def touch (p : HS3Fifo) (node : NodeId) : HS3Fifo :=
  match p.slab.resolve node with
  | none => p
  | some i => p.bump i

/-- The eviction loop, for at most `fuel` turns. -/
def evictLoop : ℕ → UInt64 → UInt64 → HS3Fifo → List Victim → UInt64 × HS3Fifo × List Victim
  | 0, _, freed, p, out => (freed, p, out)
  | fuel + 1, costToFree, freed, p, out =>
    if freed < costToFree then
      let small := p.slab.lists SMALL
      let main := p.slab.lists MAIN
      if small.tail ≠ none ∧ (small.cost > p.smallTarget ∨ main.tail = none) then
        let r := p.evictSmall out
        evictLoop fuel costToFree (freed + r.1) r.2.1 r.2.2
      else if main.tail ≠ none then
        let r := p.evictMain out
        evictLoop fuel costToFree (freed + r.1) r.2.1 r.2.2
      else
        (freed, p, out)
    else
      (freed, p, out)

/-- Turns that are always enough: each slot is promoted at most once and goes round the
main queue at most three times before it is evicted (`Refines.work_le`). -/
def evictTurns (p : HS3Fifo) : ℕ := 4 * p.slab.size

/-- Evicts until `costToFree` is released or the policy is empty. The source drops the
cost freed, which is the first component here. -/
def evict (p : HS3Fifo) (costToFree : UInt64) (out : List Victim) :
    UInt64 × HS3Fifo × List Victim :=
  evictLoop p.evictTurns costToFree 0 p out

/-- Forgets everything; the read counters stay and are reset as slots are taken. -/
def clear (p : HS3Fifo) : HS3Fifo :=
  { p with slab := p.slab.clear, ghost := ∅, ghostOrder := [] }

/-- The small and the main queue, oldest first, with their hashes and read counts, the ghosts
and their order. -/
def debugState (p : HS3Fifo) : List (UInt64 × ℕ) × List (UInt64 × ℕ) × Finset UInt64 × List UInt64 :=
  let list := fun seg => (p.slab.fromTail seg).map fun i => (p.hashOf i, p.freq i)
  (list SMALL, list MAIN, p.ghost, p.ghostOrder)

/-! ### The queues it stores -/

def entryOf (p : HS3Fifo) (i : ℕ) : S3Entry NodeId UInt64 :=
  ⟨p.slab.id i, p.hashOf i, p.slab.costs i, p.freq i⟩

/-- The slab's first two lists, from the tail, are the queues of `A`. -/
structure RefinesAt (p : HS3Fifo) (A : S3Queue NodeId UInt64) (q : Fin 3 → List ℕ) : Prop where
  repr : p.slab.Repr q none
  unused : q 2 = []
  small : A.small = (q SMALL).reverse.map p.entryOf
  main : A.main = (q MAIN).reverse.map p.entryOf
  ghost : A.ghost = p.ghost
  ghostOrder : A.ghostOrder = p.ghostOrder
  smallTarget : A.smallTarget = p.smallTarget
  ghostCap : A.ghostCap = p.ghostCap
  freqLen : p.slab.size ≤ p.freqLen
  freq_le : ∀ i, p.freq i ≤ 3

/-- The policy stores the queues of `A`. -/
def Refines (p : HS3Fifo) (A : S3Queue NodeId UInt64) : Prop := ∃ q, p.RefinesAt A q

variable {p : HS3Fifo} {A : S3Queue NodeId UInt64} {q : Fin 3 → List ℕ} {i j : ℕ}
  {node : NodeId} {hash cost : UInt64} {out : List Victim}

theorem bump_eq : p.bump i = p.setFreq i (if p.freq i < 3 then p.freq i + 1 else p.freq i) := by
  unfold bump
  split_ifs
  · rfl
  · simp [setFreq]

theorem refines_new (capacity : UInt64) : (new capacity).Refines (.new capacity) :=
  ⟨fun _ => [], Slab.repr_new, rfl, rfl, rfl, rfl, rfl, rfl, rfl, le_rfl, fun _ => Nat.zero_le _⟩

theorem refines_clear (h : p.Refines A) :
    p.clear.Refines { A with small := [], main := [], ghost := ∅, ghostOrder := [] } := by
  obtain ⟨q, h⟩ := h
  exact ⟨fun _ => [], Slab.repr_new, rfl, rfl, rfl, rfl, rfl, h.smallTarget, h.ghostCap,
    Nat.zero_le _, h.freq_le⟩

namespace RefinesAt

theorem smallCost (h : p.RefinesAt A q) : A.smallCost = (p.slab.lists SMALL).cost := by
  rw [h.repr.cost, S3Queue.smallCost, h.small]
  simp only [map_map, map_reverse, sum_reverse]
  rfl

theorem small_eq_nil (h : p.RefinesAt A q) : A.small = [] ↔ (p.slab.lists SMALL).tail = none := by
  simp [h.small, h.repr.tail]

theorem main_eq_nil (h : p.RefinesAt A q) : A.main = [] ↔ (p.slab.lists MAIN).tail = none := by
  simp [h.main, h.repr.tail]

theorem work_le (h : p.RefinesAt A q) : A.work ≤ p.evictTurns := by
  have hsub : (q SMALL ++ q MAIN) ⊆ List.range p.slab.size := by
    intro i hi
    rcases mem_append.mp hi with hi | hi <;> simpa using h.repr.lt_size hi
  have hnd : (q SMALL ++ q MAIN).Nodup := by
    refine nodup_append.mpr ⟨h.repr.nodup _, h.repr.nodup _, ?_⟩
    rintro i hi j hj rfl
    simpa using h.repr.seg_unique hi hj
  have hlen := (subperm_of_subset hnd hsub).length_le
  have hwork : A.work ≤ 2 * A.small.length + 4 * A.main.length := by
    refine S3Queue.work_le ?_
    intro e he
    rw [h.main] at he
    obtain ⟨i, -, rfl⟩ := mem_map.mp he
    exact h.freq_le i
  simp only [h.small, h.main, evictTurns, length_append, length_range, length_map,
    length_reverse] at *
  omega

theorem name_eq_iff (h : p.RefinesAt A q) (hr : p.slab.resolve node = some i) :
    (p.entryOf j).name = node ↔ j = i := h.repr.id_eq_iff hr

theorem name_ne (h : p.RefinesAt A q) {a : Fin 3} (hr : p.slab.resolve node = none)
    (hj : j ∈ q a) : (p.entryOf j).name ≠ node := h.repr.id_ne hr hj

theorem mapEntries (h : p.RefinesAt A q) {p' : HS3Fifo}
    {f : S3Entry NodeId UInt64 → S3Entry NodeId UInt64} (hrepr : p'.slab.Repr q none)
    (hf : ∀ a, ∀ i ∈ q a, f (p.entryOf i) = p'.entryOf i)
    (hghost : p'.ghost = p.ghost) (horder : p'.ghostOrder = p.ghostOrder)
    (htarget : p'.smallTarget = p.smallTarget) (hcap : p'.ghostCap = p.ghostCap)
    (hlen : p'.slab.size ≤ p'.freqLen) (hle : ∀ i, p'.freq i ≤ 3) :
    p'.RefinesAt (A.mapEntries f) q := by
  refine ⟨hrepr, h.unused, ?_, ?_, ?_, ?_, ?_, ?_, hlen, hle⟩
  · simp only [S3Queue.mapEntries, h.small, map_map]
    exact map_congr_left fun i hi => hf _ i (mem_reverse.mp hi)
  · simp only [S3Queue.mapEntries, h.main, map_map]
    exact map_congr_left fun i hi => hf _ i (mem_reverse.mp hi)
  · rw [hghost]; exact h.ghost
  · rw [horder]; exact h.ghostOrder
  · rw [htarget]; exact h.smallTarget
  · rw [hcap]; exact h.ghostCap

theorem mapEntries_id (h : p.RefinesAt A q) {f : S3Entry NodeId UInt64 → S3Entry NodeId UInt64}
    (hf : ∀ a, ∀ i ∈ q a, f (p.entryOf i) = p.entryOf i) : p.RefinesAt (A.mapEntries f) q :=
  h.mapEntries h.repr hf rfl rfl rfl rfl h.freqLen h.freq_le

theorem touch (h : p.RefinesAt A q) (node : NodeId) :
    (p.touch node).RefinesAt (A.touch node) q := by
  unfold HS3Fifo.touch S3Queue.touch
  cases hr : p.slab.resolve node with
  | none =>
    refine h.mapEntries_id ?_
    intro a j hj
    rw [if_neg (h.name_ne hr hj)]
  | some i =>
    simp only [bump_eq]
    refine h.mapEntries h.repr ?_ rfl rfl rfl rfl h.freqLen ?_
    · intro a j hj
      have := h.freq_le i
      simp only [h.name_eq_iff hr]
      by_cases hji : j = i
      · subst hji
        simp only [if_true, S3Entry.bump, entryOf, setFreq, hashOf, update_self]
        congr 1
        split_ifs <;> omega
      · simp [hji, entryOf, hashOf, setFreq]
    · intro j
      have := h.freq_le j
      simp only [setFreq, update_apply]
      split_ifs with hj hlt
      · subst hj; omega
      · subst hj; omega
      · exact this

theorem update (h : p.RefinesAt A q) (node : NodeId) (cost : UInt64) :
    (p.update node cost).RefinesAt (A.update node cost) q := by
  unfold HS3Fifo.update S3Queue.update
  cases hr : p.slab.resolve node with
  | none =>
    refine h.mapEntries_id ?_
    intro a j hj
    rw [if_neg (h.name_ne hr hj)]
  | some i =>
    obtain ⟨⟨a, hi⟩, -⟩ := h.repr.resolve_eq_some.mp hr
    refine h.mapEntries (h.repr.setCost hi) ?_ rfl rfl rfl rfl (by simpa using h.freqLen) h.freq_le
    intro b j hj
    simp only [h.name_eq_iff hr]
    by_cases hji : j = i
    · simp [hji, entryOf, hashOf, Slab.setCost_eq (h.repr.seg_eq hi), Slab.id]
    · simp [hji, entryOf, hashOf, Slab.setCost_eq (h.repr.seg_eq hi), Slab.id]

theorem filter_entries (h : p.RefinesAt A q) (hr : p.slab.resolve node = some i) (a : Fin 3) :
    ((q a).reverse.map p.entryOf).filter (·.name ≠ node) =
      ((q a).filter (· ≠ i)).reverse.map p.entryOf := by
  rw [← filter_reverse, filter_map]
  congr 1
  refine filter_congr ?_
  intro j _
  simp [h.name_eq_iff hr]

theorem remove (h : p.RefinesAt A q) (node : NodeId) :
    (p.remove node).Refines (A.remove node) := by
  unfold HS3Fifo.remove S3Queue.remove
  cases hr : p.slab.resolve node with
  | none =>
    have hself : ∀ a, ((q a).reverse.map p.entryOf).filter (·.name ≠ node) =
        (q a).reverse.map p.entryOf := by
      intro a
      refine filter_eq_self.mpr ?_
      intro e he
      obtain ⟨j, hj, rfl⟩ := mem_map.mp he
      simpa using h.name_ne hr (mem_reverse.mp hj)
    refine ⟨q, h.repr, h.unused, ?_, ?_, h.ghost, h.ghostOrder, h.smallTarget, h.ghostCap,
      h.freqLen, h.freq_le⟩
    · simp only [h.small, hself]
    · simp only [h.main, hself]
  | some i =>
    obtain ⟨⟨a, hi⟩, -⟩ := h.repr.resolve_eq_some.mp hr
    have hrepr := h.repr.free hi
    rw [h.repr.erase_eq_filter hi] at hrepr
    have hmap : ∀ b, ((q b).filter (· ≠ i)).reverse.map p.entryOf =
        ((q b).filter (· ≠ i)).reverse.map
          (entryOf { p with slab := ((p.slab.unlink i).release i).2 }) := by
      intro b
      refine map_congr_left ?_
      intro j hj
      have hne : j ≠ i := by simpa using (mem_filter.mp (mem_reverse.mp hj)).2
      simp [entryOf, hashOf, Slab.release_payload_of_ne hne, Slab.release_id_of_ne hne]
    refine ⟨_, hrepr, by simp [h.unused], ?_, ?_, h.ghost, h.ghostOrder, h.smallTarget,
      h.ghostCap, by simpa using h.freqLen, h.freq_le⟩
    · simp only [h.small, h.filter_entries hr, hmap]
    · simp only [h.main, h.filter_entries hr, hmap]

theorem alloc_le (h : p.RefinesAt A q) : (p.slab.alloc hash cost).1 ≤ p.freqLen := by
  have hlen := h.freqLen
  cases hf : p.slab.free with
  | nil => simpa [Slab.alloc_of_nil hf] using hlen
  | cons k rest =>
    have hk : k < p.slab.size := ((h.repr.free_iff k).mp (by simp [hf])).1
    simp only [Slab.alloc_of_cons hf]
    omega

theorem alloc_size_le (h : p.RefinesAt A q) :
    (p.slab.alloc hash cost).2.size ≤ max p.freqLen ((p.slab.alloc hash cost).1 + 1) := by
  have hlen := h.freqLen
  cases hf : p.slab.free with
  | nil => simp [Slab.alloc_of_nil hf]
  | cons k rest => simp [Slab.alloc_of_cons hf, hlen]

/-- Admission with its counters in one piece: the slot's counter is reset, whether it had
one or is given one now. -/
theorem admitKey_eq (h : p.RefinesAt A q) (hash cost : UInt64) :
    p.admitKey hash cost =
      let r := p.slab.alloc hash cost
      let slab := r.2.pushFront (if hash ∈ p.ghost then MAIN else SMALL) r.1
      (slab.id r.1, { p with
        slab := slab
        freq := Function.update p.freq r.1 0
        freqLen := max p.freqLen (r.1 + 1)
        ghost := p.ghost.erase hash }) := by
  have hle : (p.slab.alloc hash cost).1 ≤ p.freqLen := h.alloc_le
  simp only [HS3Fifo.admitKey]
  by_cases hge : (p.slab.alloc hash cost).1 ≥ p.freqLen
  · have heq : (p.slab.alloc hash cost).1 = p.freqLen := le_antisymm hle hge
    simp [heq]
  · rw [if_neg hge, max_eq_left (by omega)]
    rfl

theorem admitKey (h : p.RefinesAt A q) (hash cost : UInt64) :
    (p.admitKey hash cost).2.Refines (A.admitEntry (p.admitKey hash cost).1 hash cost) := by
  rw [h.admitKey_eq]
  set r := p.slab.alloc hash cost with hr
  set seg : Fin 3 := if hash ∈ p.ghost then MAIN else SMALL with hseg
  simp only
  set p' : HS3Fifo := { p with
    slab := r.2.pushFront seg r.1
    freq := Function.update p.freq r.1 0
    freqLen := max p.freqLen (r.1 + 1)
    ghost := p.ghost.erase hash } with hp'
  have hold : ∀ a, ∀ j ∈ q a, p'.entryOf j = p.entryOf j := by
    intro a j hj
    have hne : j ≠ r.1 := h.repr.alloc_fresh hj
    simp [hp', entryOf, hashOf, update_of_ne hne, r,
      Slab.alloc_payload_of_ne hne, Slab.alloc_costs_of_ne hne, Slab.alloc_id_of_ne hne]
  have hnew : p'.entryOf r.1 = ⟨p'.slab.id r.1, hash, cost, 0⟩ := by
    simp [hp', entryOf, hashOf, r, Slab.alloc_payload_self, Slab.alloc_costs_self]
  have hmap : ∀ a, (q a).reverse.map p'.entryOf = (q a).reverse.map p.entryOf := by
    intro a
    refine map_congr_left ?_
    intro j hj
    exact hold a j (mem_reverse.mp hj)
  have hrepr : p'.slab.Repr (Function.update q seg (r.1 :: q seg)) none := h.repr.allocFront seg
  have hle : ∀ j, p'.freq j ≤ 3 := by
    intro j
    simp only [hp', update_apply]
    split_ifs
    · exact Nat.zero_le _
    · exact h.freq_le j
  by_cases hg : hash ∈ p.ghost
  · have hsegM : seg = MAIN := by simp [hseg, hg]
    rw [hsegM] at hrepr
    have hadmit : A.admitEntry (p'.slab.id r.1) hash cost = { A with
        ghost := A.ghost.erase hash
        main := A.main ++ [⟨p'.slab.id r.1, hash, cost, 0⟩] } := by
      rw [S3Queue.admitEntry, if_pos (h.ghost ▸ hg)]
    refine ⟨_, hrepr, by simpa [MAIN, SMALL] using h.unused, ?_, ?_, ?_, ?_, ?_, ?_,
      h.alloc_size_le, hle⟩
    all_goals rw [show A.admitEntry _ hash cost = _ from hadmit]
    · simp [h.small, hmap]
    · simp [h.main, hmap, hnew]
    · simp [h.ghost, hp']
    · exact h.ghostOrder
    · exact h.smallTarget
    · exact h.ghostCap
  · have hsegS : seg = SMALL := by simp [hseg, hg]
    rw [hsegS] at hrepr
    have hadmit : A.admitEntry (p'.slab.id r.1) hash cost = { A with
        small := A.small ++ [⟨p'.slab.id r.1, hash, cost, 0⟩] } := by
      rw [S3Queue.admitEntry, if_neg (h.ghost ▸ hg)]
    refine ⟨_, hrepr, by simpa [MAIN, SMALL] using h.unused, ?_, ?_, ?_, ?_, ?_, ?_,
      h.alloc_size_le, hle⟩
    all_goals rw [show A.admitEntry _ hash cost = _ from hadmit]
    · simp [h.small, hmap, hnew]
    · simp [h.main, hmap]
    · simp [h.ghost, hp', Finset.erase_eq_of_notMem hg]
    · exact h.ghostOrder
    · exact h.smallTarget
    · exact h.ghostCap

/-! ### Eviction -/

/-- The entry at the tail of a list is the oldest of its queue, and the rest of the queue
are the entries with other names. -/
theorem tail_split (h : p.RefinesAt A q) {a : Fin 3} {t : ℕ}
    (ht : (p.slab.lists a).tail = some t) :
    t ∈ q a ∧ (q a).reverse.map p.entryOf =
      p.entryOf t :: ((q a).filter (· ≠ t)).reverse.map p.entryOf := by
  obtain ⟨hmem, hsplit⟩ := h.repr.tail_split ht
  exact ⟨hmem, by rw [hsplit, map_cons]⟩

theorem remove_lists (h : p.RefinesAt A q) {a : Fin 3} {t : ℕ} (ht : t ∈ q a) :
    (A.remove (p.slab.id t)).small = ((q SMALL).filter (· ≠ t)).reverse.map p.entryOf ∧
      (A.remove (p.slab.id t)).main = ((q MAIN).filter (· ≠ t)).reverse.map p.entryOf := by
  have hr := h.repr.resolve_id ht
  simp only [S3Queue.remove, h.small, h.main]
  exact ⟨h.filter_entries hr SMALL, h.filter_entries hr MAIN⟩

theorem remove_small (h : p.RefinesAt A q) {t : ℕ} (ht : (p.slab.lists SMALL).tail = some t) :
    A.small = p.entryOf t :: (A.remove (p.slab.id t)).small ∧
      A.remove (p.slab.id t) = { A with small := (A.remove (p.slab.id t)).small } := by
  obtain ⟨hmem, hsplit⟩ := h.tail_split ht
  obtain ⟨hsmall, hmain⟩ := h.remove_lists hmem
  rw [h.repr.filter_other hmem (by decide), ← h.main] at hmain
  refine ⟨by rw [hsmall, ← hsplit, h.small], ?_⟩
  rw [← hmain]
  rfl

theorem remove_main (h : p.RefinesAt A q) {t : ℕ} (ht : (p.slab.lists MAIN).tail = some t) :
    A.main = p.entryOf t :: (A.remove (p.slab.id t)).main ∧
      A.remove (p.slab.id t) = { A with main := (A.remove (p.slab.id t)).main } := by
  obtain ⟨hmem, hsplit⟩ := h.tail_split ht
  obtain ⟨hsmall, hmain⟩ := h.remove_lists hmem
  rw [h.repr.filter_other hmem (by decide), ← h.small] at hsmall
  refine ⟨by rw [hmain, ← hsplit, h.main], ?_⟩
  rw [← hsmall]
  rfl

theorem requeue (h : p.RefinesAt A q) {a : Fin 3} {t f : ℕ} (ht : t ∈ q a) (hf : f ≤ 3) :
    { p with
      slab := (p.slab.unlink t).pushFront MAIN t
      freq := Function.update p.freq t f : HS3Fifo }.Refines
    { A.remove (p.slab.id t) with
      main := (A.remove (p.slab.id t)).main ++ [{ p.entryOf t with freq := f }] } := by
  set p' : HS3Fifo := { p with
    slab := (p.slab.unlink t).pushFront MAIN t
    freq := Function.update p.freq t f } with hp'
  have hr := h.repr.resolve_id ht
  have hrepr := h.repr.requeue ht MAIN
  rw [h.repr.erase_eq_filter ht] at hrepr
  have hself : p'.entryOf t = { p.entryOf t with freq := f } := by simp [hp', entryOf, hashOf]
  have hmap : ∀ b, ((q b).filter (· ≠ t)).reverse.map p'.entryOf =
      ((q b).filter (· ≠ t)).reverse.map p.entryOf := by
    intro b
    refine map_congr_left ?_
    intro j hj
    have hne : j ≠ t := by simpa using (mem_filter.mp (mem_reverse.mp hj)).2
    simp [hp', entryOf, hashOf, hne]
  have hle : ∀ j, p'.freq j ≤ 3 := by
    intro j
    simp only [hp', update_apply]
    split_ifs
    · exact hf
    · exact h.freq_le j
  refine ⟨_, hrepr, ?_, ?_, ?_, h.ghost, h.ghostOrder, h.smallTarget, h.ghostCap,
    by simpa [hp'] using h.freqLen, hle⟩
  · rw [update_of_ne (by decide), h.unused, filter_nil]
  · rw [update_of_ne (by decide), hmap]
    exact (h.remove_lists ht).1
  · rw [update_self, reverse_cons, map_append, hmap, ← (h.remove_lists ht).2]
    simp only [map_cons, map_nil, hself]

theorem evictSmall (h : p.RefinesAt A q) {v : Option (S3Entry NodeId UInt64)}
    {A' : S3Queue NodeId UInt64} (hs : A.evictSmall = some (v, A')) (out : List Victim) :
    (p.evictSmall out).2.1.Refines A' ∧ (p.evictSmall out).1 = (v.map (·.cost)).getD 0 ∧
      (p.evictSmall out).2.2 = out ++ v.toList.map fun e => (e.tag, e.name) := by
  cases ht : (p.slab.lists SMALL).tail with
  | none => simp [S3Queue.evictSmall, h.small_eq_nil.mpr ht] at hs
  | some t =>
    obtain ⟨hsmall, hrest⟩ := h.remove_small ht
    have hmem := (h.tail_split ht).1
    simp only [S3Queue.evictSmall, hsmall, ← hrest] at hs
    simp only [HS3Fifo.evictSmall, ht]
    by_cases hf : p.freq t > 1
    · -- promoted to main
      rw [if_pos (show (p.entryOf t).freq > 1 from hf)] at hs
      obtain ⟨rfl, rfl⟩ : none = v ∧ _ = A' := by simpa using hs
      rw [if_pos hf]
      refine ⟨?_, rfl, by simp⟩
      have hstep := h.requeue hmem (Nat.zero_le 3)
      rw [hrest] at hstep
      exact hstep
    · -- evicted and remembered
      rw [if_neg (show ¬ (p.entryOf t).freq > 1 from hf)] at hs
      obtain ⟨rfl, rfl⟩ : some (p.entryOf t) = v ∧ _ = A' := by simpa using hs
      rw [if_neg hf]
      refine ⟨?_, by simp [dropNode, entryOf], by simp [dropNode, entryOf, hashOf]⟩
      obtain ⟨q', h'⟩ := h.remove (p.slab.id t)
      simp only [HS3Fifo.remove, h.repr.resolve_id hmem] at h'
      refine ⟨q', h'.repr, h'.unused, h'.small, h'.main, ?_, ?_, h'.smallTarget, h'.ghostCap,
        h'.freqLen, h'.freq_le⟩
      all_goals simp [S3Queue.remember, HS3Fifo.remember, dropNode, h'.ghost, h'.ghostOrder,
        h'.ghostCap, entryOf, hashOf]

theorem evictMain (h : p.RefinesAt A q) {v : Option (S3Entry NodeId UInt64)}
    {A' : S3Queue NodeId UInt64} (hm : A.evictMain = some (v, A')) (out : List Victim) :
    (p.evictMain out).2.1.Refines A' ∧ (p.evictMain out).1 = (v.map (·.cost)).getD 0 ∧
      (p.evictMain out).2.2 = out ++ v.toList.map fun e => (e.tag, e.name) := by
  cases ht : (p.slab.lists MAIN).tail with
  | none => simp [S3Queue.evictMain, h.main_eq_nil.mpr ht] at hm
  | some t =>
    obtain ⟨hmain, hrest⟩ := h.remove_main ht
    have hmem := (h.tail_split ht).1
    simp only [S3Queue.evictMain, hmain, ← hrest] at hm
    simp only [HS3Fifo.evictMain, ht]
    by_cases hf : p.freq t > 0
    · -- round again
      rw [if_pos (show (p.entryOf t).freq > 0 from hf)] at hm
      obtain ⟨rfl, rfl⟩ : none = v ∧ _ = A' := by simpa using hm
      rw [if_pos hf]
      refine ⟨?_, rfl, by simp⟩
      have hle := h.freq_le t
      have hstep := h.requeue hmem (show p.freq t - 1 ≤ 3 by omega)
      rw [hrest] at hstep
      exact hstep
    · -- evicted
      rw [if_neg (show ¬ (p.entryOf t).freq > 0 from hf)] at hm
      obtain ⟨rfl, rfl⟩ : some (p.entryOf t) = v ∧ _ = A' := by simpa using hm
      rw [if_neg hf]
      refine ⟨?_, by simp [dropNode, entryOf], by simp [dropNode, entryOf, hashOf]⟩
      have h' := h.remove (p.slab.id t)
      simp only [HS3Fifo.remove, h.repr.resolve_id hmem] at h'
      exact h'

theorem evictLoop_succ (h : p.RefinesAt A q) (fuel : ℕ) {c freed : UInt64} (hlt : freed < c)
    {v : Option (S3Entry NodeId UInt64)} {A' : S3Queue NodeId UInt64}
    (hstep : A.evictStep = some (v, A')) (out : List Victim) :
    ∃ p' : HS3Fifo, p'.Refines A' ∧ evictLoop (fuel + 1) c freed p out =
      evictLoop fuel c (freed + (v.map (·.cost)).getD 0) p'
        (out ++ v.toList.map fun e => (e.tag, e.name)) := by
  have hcond : (A.small ≠ [] ∧ (A.smallCost > A.smallTarget ∨ A.main = [])) ↔
      ((p.slab.lists SMALL).tail ≠ none ∧
        ((p.slab.lists SMALL).cost > p.smallTarget ∨ (p.slab.lists MAIN).tail = none)) := by
    rw [ne_eq, h.small_eq_nil, h.smallCost, h.smallTarget, h.main_eq_nil]
  unfold S3Queue.evictStep at hstep
  simp only [hcond] at hstep
  rw [evictLoop, if_pos hlt]
  simp only
  split_ifs at hstep with hsmall
  · obtain ⟨hr, hcost, hout⟩ := h.evictSmall hstep out
    rw [if_pos hsmall, ← hcost, ← hout]
    exact ⟨_, hr, rfl⟩
  · obtain ⟨hr, hcost, hout⟩ := h.evictMain hstep out
    have hmain : (p.slab.lists MAIN).tail ≠ none := by
      rw [ne_eq, ← h.main_eq_nil]
      intro hnil
      simp [S3Queue.evictMain, hnil] at hstep
    rw [if_neg hsmall, if_pos hmain, ← hcost, ← hout]
    exact ⟨_, hr, rfl⟩

theorem evictLoop_stop (h : p.RefinesAt A q) {fuel : ℕ} {c freed : UInt64}
    (hstep : A.evictStep = none) (out : List Victim) :
    evictLoop fuel c freed p out = (freed, p, out) := by
  have hnil := S3Queue.evictStep_eq_none.mp hstep
  simp only [S3Queue.entries, append_eq_nil_iff, h.small_eq_nil, h.main_eq_nil] at hnil
  cases fuel with
  | zero => rfl
  | succ fuel => simp [evictLoop, hnil]

end RefinesAt

namespace Refines

theorem nodup_names (h : p.Refines A) : (A.entries.map (·.name)).Nodup := by
  obtain ⟨q, h⟩ := h
  have hid : Function.Injective p.slab.id := by
    intro i j hij
    simp only [Slab.id, NodeId.mk.injEq] at hij
    exact hij.2
  have hmap : ∀ a, ((q a).reverse.map p.entryOf).map (·.name) = (q a).reverse.map p.slab.id := by
    intro a
    rw [map_map]
    rfl
  simp only [S3Queue.entries, map_append, h.small, h.main, hmap]
  refine nodup_append.mpr ⟨?_, ?_, ?_⟩
  · exact (nodup_reverse.mpr (h.repr.nodup _)).map hid
  · exact (nodup_reverse.mpr (h.repr.nodup _)).map hid
  · simp only [mem_map, mem_reverse]
    rintro _ ⟨i, hi, rfl⟩ _ ⟨j, hj, rfl⟩ hij
    obtain rfl := hid hij
    simpa using h.repr.seg_unique hi hj

theorem touch (h : p.Refines A) (node : NodeId) : (p.touch node).Refines (A.touch node) :=
  h.imp fun _ h => h.touch node

theorem update (h : p.Refines A) (node : NodeId) (cost : UInt64) :
    (p.update node cost).Refines (A.update node cost) :=
  h.imp fun _ h => h.update node cost

theorem remove (h : p.Refines A) (node : NodeId) : (p.remove node).Refines (A.remove node) :=
  h.elim fun _ h => h.remove node

theorem admitKey (h : p.Refines A) (hash cost : UInt64) :
    (p.admitKey hash cost).2.Refines (A.admitEntry (p.admitKey hash cost).1 hash cost) :=
  h.elim fun _ h => h.admitKey hash cost

theorem evictLoop (h : p.Refines A) {fuel : ℕ} (hfuel : A.work ≤ fuel) (c freed : UInt64)
    (out : List Victim) :
    (evictLoop fuel c freed p out).1 = (A.evict c freed).1 ∧
      (evictLoop fuel c freed p out).2.1.Refines (A.evict c freed).2.2 ∧
      (evictLoop fuel c freed p out).2.2 =
        out ++ (A.evict c freed).2.1.map fun e => (e.tag, e.name) := by
  induction fuel generalizing p A freed out with
  | zero =>
    obtain ⟨q, hq⟩ := h
    have hnone : A.evictStep = none := by
      rw [Option.eq_none_iff_forall_not_mem]
      rintro ⟨v, A'⟩ hstep
      have := S3Queue.evictStep_work hstep
      omega
    rw [hq.evictLoop_stop hnone, S3Queue.evict_of_none hnone]
    exact ⟨rfl, ⟨q, hq⟩, by simp⟩
  | succ fuel ih =>
    obtain ⟨q, hq⟩ := h
    by_cases hlt : freed < c
    · cases hstep : A.evictStep with
      | none =>
        rw [hq.evictLoop_stop hstep, S3Queue.evict_of_none hstep]
        exact ⟨rfl, ⟨q, hq⟩, by simp⟩
      | some r =>
        obtain ⟨v, A'⟩ := r
        have hwork := S3Queue.evictStep_work hstep
        obtain ⟨p', h', heq⟩ := hq.evictLoop_succ fuel hlt hstep out
        rw [heq]
        have := ih h' (by omega) (freed + (v.map (·.cost)).getD 0)
          (out ++ v.toList.map fun e => (e.tag, e.name))
        cases v with
        | none =>
          rw [S3Queue.evict_of_requeue hlt hstep]
          simpa using this
        | some e =>
          rw [S3Queue.evict_of_victim hlt hstep]
          simpa using this
    · rw [S3Queue.evict_of_le (by simpa using hlt), HS3Fifo.evictLoop, if_neg hlt]
      exact ⟨rfl, ⟨q, hq⟩, by simp⟩

/-- The policy evicts what the queue on lists evicts, in that order, and reports the same
cost freed. -/
theorem evict (h : p.Refines A) (c : UInt64) (out : List Victim) :
    (p.evict c out).1 = (A.evict c 0).1 ∧
      (p.evict c out).2.1.Refines (A.evict c 0).2.2 ∧
      (p.evict c out).2.2 = out ++ (A.evict c 0).2.1.map fun e => (e.tag, e.name) := by
  have hfuel : A.work ≤ p.evictTurns := h.elim fun _ h => h.work_le
  exact h.evictLoop hfuel c 0 out

theorem debugState (h : p.Refines A) : p.debugState =
    (A.small.map fun e => (e.tag, e.freq), A.main.map fun e => (e.tag, e.freq), A.ghost,
      A.ghostOrder) := by
  obtain ⟨q, h⟩ := h
  simp only [HS3Fifo.debugState, h.repr.fromTail_eq, h.small, h.main, h.ghost, h.ghostOrder,
    map_map]
  rfl

end Refines

end HS3Fifo

end Fibre.Cache
