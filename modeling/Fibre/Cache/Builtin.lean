import Fibre.Cache.HTinyLfu

/-!
# The built-in policies

The policy a shard runs when no factory was given, dispatched by `match`, and what the shard
may rely on whichever it is: the entries a policy tracks change exactly as the shard is told.
-/

namespace Fibre.Cache

open CostQueue List

/-- Which built-in policy a shard runs. -/
inductive BuiltinChoice
  | tinyLfu
  | s3Fifo
  deriving DecidableEq

/-- The built-in policies. -/
inductive Builtin
  | tinyLfu (p : HTinyLfu)
  | s3Fifo (p : HS3Fifo)

namespace Builtin

/-- The policy chosen, for a shard of `capacity`. -/
def new (choice : BuiltinChoice) (capacity : UInt64) : Builtin :=
  match choice with
  | .tinyLfu => .tinyLfu (.new capacity)
  | .s3Fifo => .s3Fifo (.new capacity)

/-- Admits an entry not resident in the shard and returns its node id. Entries the policy
rejects on the way, possibly this one, go to `out`. -/
def admitEntry (b : Builtin) (hash cost : UInt64) (out : List Victim) : NodeId × Builtin × List Victim :=
  match b with
  | tinyLfu p =>
    let r := p.admitKey hash cost out
    (r.1, tinyLfu r.2.1, r.2.2)
  | s3Fifo p =>
    let r := p.admitKey hash cost
    (r.1, s3Fifo r.2, out)

/-- A resident entry's value was replaced with one of `cost`. -/
def update (b : Builtin) (node : NodeId) (cost : UInt64) : Builtin :=
  match b with
  | tinyLfu p => tinyLfu (p.update node cost)
  | s3Fifo p => s3Fifo (p.update node cost)

/-- Forgets an entry the shard removed. -/
def remove (b : Builtin) (node : NodeId) : Builtin :=
  match b with
  | tinyLfu p => tinyLfu (p.remove node)
  | s3Fifo p => s3Fifo (p.remove node)

/-- Evicts until `costToFree` is released or the policy has nothing more to give. -/
def evict (b : Builtin) (costToFree : UInt64) (out : List Victim) : Builtin × List Victim :=
  match b with
  | tinyLfu p =>
    let r := p.evictNodes costToFree out
    (tinyLfu r.1, r.2)
  | s3Fifo p =>
    let r := p.evict costToFree out
    (s3Fifo r.2.1, r.2.2)

/-- Applies the reads recorded in the ring. Returns what is left in the ring: S3-FIFO does
not read it. -/
def applyReads (b : Builtin) (ring : List NodeId) : Builtin × List NodeId :=
  match b with
  | tinyLfu p => (tinyLfu (p.applyReads ring), [])
  | s3Fifo p => (s3Fifo p, ring)

/-- A read of `node`, under the shard's read lock. -/
def touch (b : Builtin) (node : NodeId) : Builtin :=
  match b with
  | tinyLfu p => tinyLfu p
  | s3Fifo p => s3Fifo (p.touch node)

/-- A read of `node`, under the shard's write lock. -/
def applyRead (b : Builtin) (node : NodeId) : Builtin :=
  match b with
  | tinyLfu p => tinyLfu (p.touchNode node)
  | s3Fifo p => s3Fifo (p.touch node)

/-- Forgets everything. -/
def clear (b : Builtin) : Builtin :=
  match b with
  | tinyLfu p => tinyLfu p.clear
  | s3Fifo p => s3Fifo p.clear

/-- Which policy this is. -/
def choice : Builtin → BuiltinChoice
  | tinyLfu _ => .tinyLfu
  | s3Fifo _ => .s3Fifo

def windowTarget : Builtin → UInt64
  | tinyLfu p => p.windowTarget
  | s3Fifo _ => 0

def windowCost : Builtin → UInt64
  | tinyLfu p => (p.slab.lists HTinyLfu.WINDOW).cost
  | s3Fifo _ => 0

def inWindow (b : Builtin) (node : NodeId) : Bool :=
  match b with
  | tinyLfu p =>
    match p.slab.resolve node with
    | none => false
    | some i => (p.slab.links i).seg = some HTinyLfu.WINDOW
  | s3Fifo _ => false

end Builtin

/-! ### The entries a policy tracks -/

/-- An S3-FIFO entry without its read count. -/
def S3Entry.toTracked {ν γ : Type*} (e : S3Entry ν γ) : Tracked ν γ := ⟨e.name, e.tag, e.cost⟩

namespace S3Queue

variable {ν γ : Type*}

def tracked (A : S3Queue ν γ) : List (Tracked ν γ) := A.entries.map S3Entry.toTracked

variable {A : S3Queue ν γ}

theorem tracked_of_core {l l' : List (S3Entry ν γ)}
    (h : (l.map (·.core)).Perm (l'.map (·.core))) :
    (l.map S3Entry.toTracked).Perm (l'.map S3Entry.toTracked) := by
  have hmap := h.map fun c : ν × γ × UInt64 => (⟨c.1, c.2.1, c.2.2⟩ : Tracked ν γ)
  rw [map_map, map_map] at hmap
  exact hmap

theorem tracked_mapEntries (f : S3Entry ν γ → S3Entry ν γ) (g : Tracked ν γ → Tracked ν γ)
    (h : ∀ e, (f e).toTracked = g e.toTracked) : (A.mapEntries f).tracked = A.tracked.map g := by
  simp only [tracked, entries, mapEntries, map_append, map_map]
  congr 1 <;> exact map_congr_left fun e _ => h e

theorem tracked_admitEntry [DecidableEq γ] (name : ν) (tag : γ) (cost : UInt64) :
    (A.admitEntry name tag cost).tracked.Perm (⟨name, tag, cost⟩ :: A.tracked) := by
  unfold admitEntry
  split_ifs
  · simp only [tracked, entries, ← append_assoc, map_append, map_cons,
      map_nil]
    exact perm_append_singleton _ _
  · simp only [tracked, entries, map_append, map_cons, append_assoc,
      singleton_append]
    exact perm_middle

variable [DecidableEq ν]

theorem tracked_touch (name : ν) : (A.touch name).tracked = A.tracked := by
  rw [touch, tracked_mapEntries _ id, map_id]
  intro e
  split_ifs <;> rfl

theorem tracked_update (name : ν) (cost : UInt64) :
    (A.update name cost).tracked = Tracked.setCost name cost A.tracked := by
  rw [update, tracked_mapEntries _ fun e => if e.name = name then { e with cost := cost } else e]
  · rfl
  · intro e
    by_cases he : e.name = name
    · simp [S3Entry.toTracked, he]
    · simp [S3Entry.toTracked, he]

theorem tracked_remove (name : ν) : (A.remove name).tracked = Tracked.without name A.tracked := by
  simp only [tracked, entries, remove, Tracked.without, map_append, filter_append,
    filter_map]
  rfl

end S3Queue

namespace Builtin

/-- The policy tracks the entries `E`, in some order, with distinct names. -/
def Tracks (b : Builtin) (E : List (Tracked NodeId UInt64)) : Prop :=
  match b with
  | tinyLfu p => ∃ A, p.Refines A ∧ A.entries.Perm E
  | s3Fifo p => ∃ A, p.Refines A ∧ A.tracked.Perm E

variable {b : Builtin} {E : List (Tracked NodeId UInt64)}

theorem tracks_new (choice : BuiltinChoice) (capacity : UInt64) : (new choice capacity).Tracks [] := by
  cases choice with
  | tinyLfu => exact ⟨_, HTinyLfu.refines_new capacity, Perm.nil⟩
  | s3Fifo => exact ⟨_, HS3Fifo.refines_new capacity, Perm.nil⟩

namespace Tracks

theorem perm (h : b.Tracks E) {E' : List (Tracked NodeId UInt64)} (hp : E.Perm E') : b.Tracks E' := by
  cases b with
  | tinyLfu p => exact h.imp fun _ h => ⟨h.1, h.2.trans hp⟩
  | s3Fifo p => exact h.imp fun _ h => ⟨h.1, h.2.trans hp⟩

theorem nodup_names (h : b.Tracks E) : (E.map (·.name)).Nodup := by
  cases b with
  | tinyLfu p =>
    obtain ⟨A, hA, hE⟩ := h
    exact (hE.map _).nodup_iff.mp hA.nodup_names
  | s3Fifo p =>
    obtain ⟨A, hA, hE⟩ := h
    refine (hE.map _).nodup_iff.mp ?_
    rw [S3Queue.tracked, map_map]
    exact hA.nodup_names

/-- Admission tracks the new entry too, less those rejected on the way. -/
theorem admitEntry (h : b.Tracks E) (hash cost : UInt64) :
    ∃ rejected E', (b.admitEntry hash cost []).2.1.Tracks E' ∧
      (⟨(b.admitEntry hash cost []).1, hash, cost⟩ :: E).Perm (rejected ++ E') ∧
      (b.admitEntry hash cost []).2.2 = rejected.map fun e => (e.tag, e.name) := by
  cases b with
  | tinyLfu p =>
    obtain ⟨A, hA, hE⟩ := h
    obtain ⟨hr, hout⟩ := hA.admitKey hash cost []
    rw [nil_append] at hout
    refine ⟨_, _, ⟨_, hr, Perm.refl _⟩, ?_, hout⟩
    exact (hE.symm.cons _).trans (TinyQueue.admitEntry_perm A _ hash cost)
  | s3Fifo p =>
    obtain ⟨A, hA, hE⟩ := h
    refine ⟨[], _, ⟨_, hA.admitKey hash cost, Perm.refl _⟩, ?_, rfl⟩
    exact (hE.symm.cons _).trans (S3Queue.tracked_admitEntry _ hash cost).symm

theorem admitEntry_fresh (h : b.Tracks E) (hash cost : UInt64) :
    (b.admitEntry hash cost []).1 ∉ E.map (·.name) := by
  cases b with
  | tinyLfu p =>
    obtain ⟨A, hA, hE⟩ := h
    rw [← (hE.map _).mem_iff]
    exact hA.admitKey_fresh hash cost []
  | s3Fifo p =>
    obtain ⟨A, hA, hE⟩ := h
    have hadm := (S3Queue.tracked_admitEntry (A := A) (p.admitKey hash cost).1 hash cost).trans
      (hE.cons _)
    have hnd : (((⟨(p.admitKey hash cost).1, hash, cost⟩ : Tracked NodeId UInt64) :: E).map
        (·.name)).Nodup := by
      refine (hadm.map _).nodup_iff.mp ?_
      rw [S3Queue.tracked, map_map]
      exact (hA.admitKey hash cost).nodup_names
    exact (nodup_cons.mp hnd).1

theorem update (h : b.Tracks E) (node : NodeId) (cost : UInt64) :
    (b.update node cost).Tracks (Tracked.setCost node cost E) := by
  cases b with
  | tinyLfu p =>
    obtain ⟨A, hA, hE⟩ := h
    exact ⟨_, hA.update node cost, (TinyQueue.update_perm A node cost).trans (hE.map _)⟩
  | s3Fifo p =>
    obtain ⟨A, hA, hE⟩ := h
    refine ⟨_, hA.update node cost, ?_⟩
    rw [S3Queue.tracked_update]
    exact hE.map _

theorem remove (h : b.Tracks E) (node : NodeId) :
    (b.remove node).Tracks (Tracked.without node E) := by
  cases b with
  | tinyLfu p =>
    obtain ⟨A, hA, hE⟩ := h
    refine ⟨_, hA.remove node, ?_⟩
    rw [TinyQueue.remove_entries]
    exact hE.filter _
  | s3Fifo p =>
    obtain ⟨A, hA, hE⟩ := h
    refine ⟨_, hA.remove node, ?_⟩
    rw [S3Queue.tracked_remove]
    exact hE.filter _

/-- S3-FIFO stops evicting when the victims pay for `c` or nothing is left. -/
theorem evict_s3Fifo {p : HS3Fifo} (h : (s3Fifo p).Tracks E) (c : UInt64) :
    ∃ victims E' p', (s3Fifo p).evict c [] = (s3Fifo p', victims.map fun e => (e.tag, e.name)) ∧
      (s3Fifo p').Tracks E' ∧ E.Perm (victims ++ E') ∧
      (c ≤ total Tracked.cost victims ∨ E' = []) := by
  obtain ⟨A, hA, hE⟩ := h
  obtain ⟨hfreed, hr, hout⟩ := hA.evict c []
  rw [nil_append] at hout
  refine ⟨(A.evict c 0).2.1.map S3Entry.toTracked, (A.evict c 0).2.2.tracked, _, ?_,
    ⟨_, hr, Perm.refl _⟩, ?_, ?_⟩
  · rw [map_map]
    exact Prod.ext rfl hout
  · refine hE.symm.trans ?_
    have hp := S3Queue.tracked_of_core (S3Queue.evict_perm A c 0)
    rw [map_append] at hp
    exact hp
  · have htotal : (A.evict c 0).1 = total Tracked.cost ((A.evict c 0).2.1.map S3Entry.toTracked) := by
      rw [S3Queue.evict_freed, zero_add, total, map_map]
      rfl
    rcases S3Queue.evict_enough A c 0 with hle | hnil
    · exact .inl (htotal ▸ hle)
    · exact .inr (by simp [S3Queue.tracked, hnil])

theorem applyRead (h : b.Tracks E) (node : NodeId) : (b.applyRead node).Tracks E := by
  cases b with
  | tinyLfu p =>
    obtain ⟨A, hA, hE⟩ := h
    exact ⟨_, hA.touchNode node, (TinyQueue.read_perm A node).trans hE⟩
  | s3Fifo p =>
    obtain ⟨A, hA, hE⟩ := h
    refine ⟨_, hA.touch node, ?_⟩
    rw [S3Queue.tracked_touch]
    exact hE

theorem touch (h : b.Tracks E) (node : NodeId) : (b.touch node).Tracks E := by
  cases b with
  | tinyLfu p => exact h
  | s3Fifo p => exact h.applyRead node

theorem applyReads (h : b.Tracks E) (ring : List NodeId) : (b.applyReads ring).1.Tracks E := by
  cases b with
  | tinyLfu p =>
    obtain ⟨A, hA, hE⟩ := h
    refine ⟨_, hA.applyReads ring, Perm.trans ?_ hE⟩
    clear hE hA
    induction ring generalizing A with
    | nil => exact Perm.refl _
    | cons node ring ih => exact (ih (A.read node)).trans (TinyQueue.read_perm A node)
  | s3Fifo p => exact h

theorem evict (h : b.Tracks E) (c : UInt64) :
    ∃ victims E', (b.evict c []).1.Tracks E' ∧ E.Perm (victims ++ E') ∧
      (b.evict c []).2 = victims.map fun e => (e.tag, e.name) := by
  cases b with
  | tinyLfu p =>
    obtain ⟨A, hA, hE⟩ := h
    obtain ⟨hr, hout⟩ := hA.evictNodes c []
    rw [nil_append] at hout
    exact ⟨_, _, ⟨_, hr, Perm.refl _⟩, hE.symm.trans (TinyQueue.evict_perm A c), hout⟩
  | s3Fifo p =>
    obtain ⟨victims, E', p', hb, hr, hp, -⟩ := h.evict_s3Fifo c
    exact ⟨victims, E', hb ▸ hr, hp, by rw [hb]⟩

theorem clear (h : b.Tracks E) : b.clear.Tracks [] := by
  cases b with
  | tinyLfu p =>
    obtain ⟨A, hA, -⟩ := h
    exact ⟨_, hA.clear, Perm.nil⟩
  | s3Fifo p =>
    obtain ⟨A, hA, -⟩ := h
    exact ⟨_, HS3Fifo.refines_clear hA, Perm.nil⟩

end Tracks

/-! ### The window -/

/-- The policy is the same one, and its window costs no more than before. -/
structure Kept (b b' : Builtin) : Prop where
  choice : b'.choice = b.choice
  windowTarget : b'.windowTarget = b.windowTarget
  window_le : b'.windowCost ≤ b.windowCost

theorem Kept.refl (b : Builtin) : Kept b b := ⟨rfl, rfl, UInt64.le_refl _⟩

theorem Kept.trans {b b' b'' : Builtin} (h : Kept b b') (h' : Kept b' b'') : Kept b b'' :=
  ⟨h'.choice.trans h.choice, h'.windowTarget.trans h.windowTarget,
    UInt64.le_trans h'.window_le h.window_le⟩

theorem kept_of_refines {p p' : HTinyLfu} {A A' : TinyQueue NodeId UInt64 Sketch}
    (h : p.Refines A) (h' : p'.Refines A') (ht : A'.windowTarget = A.windowTarget)
    (hw : total Tracked.cost A'.window ≤ total Tracked.cost A.window) :
    Kept (tinyLfu p) (tinyLfu p') where
  choice := rfl
  windowTarget := by
    simp only [Builtin.windowTarget, ← h.windowTarget, ← h'.windowTarget, ht]
  window_le := by
    simp only [Builtin.windowCost, h.window_cost, h'.window_cost]
    exact hw

namespace Tracks

theorem kept_applyRead (h : b.Tracks E) (node : NodeId) : Kept b (b.applyRead node) := by
  cases b with
  | tinyLfu p =>
    obtain ⟨A, hA, -⟩ := h
    refine kept_of_refines hA (hA.touchNode node) (A.read_windowTarget node) ?_
    rw [total_perm _ (A.read_window_perm node)]
    exact UInt64.le_refl _
  | s3Fifo p => exact ⟨rfl, rfl, UInt64.le_refl _⟩

theorem kept_touch (h : b.Tracks E) (node : NodeId) : Kept b (b.touch node) := by
  cases b with
  | tinyLfu p => exact .refl _
  | s3Fifo p => exact h.kept_applyRead node

theorem windowCost_applyReads (h : b.Tracks E) (ring : List NodeId) :
    (b.applyReads ring).1.windowCost = b.windowCost := by
  cases b with
  | tinyLfu p =>
    obtain ⟨A, hA, -⟩ := h
    simp only [Builtin.applyReads, windowCost, hA.window_cost, (hA.applyReads ring).window_cost]
    exact total_perm _ (A.foldl_read ring).2
  | s3Fifo p => rfl

theorem kept_applyReads (h : b.Tracks E) (ring : List NodeId) : Kept b (b.applyReads ring).1 := by
  have hcost := h.windowCost_applyReads ring
  cases b with
  | tinyLfu p =>
    obtain ⟨A, hA, -⟩ := h
    refine ⟨rfl, ?_, hcost ▸ UInt64.le_refl _⟩
    simp only [Builtin.applyReads, windowTarget, ← hA.windowTarget, ← (hA.applyReads ring).windowTarget]
    exact (A.foldl_read ring).1
  | s3Fifo p => exact .refl _

theorem kept_remove (h : b.Tracks E) (hE : totalNat Tracked.cost E < 2 ^ 64) (node : NodeId) :
    Kept b (b.remove node) := by
  cases b with
  | tinyLfu p =>
    obtain ⟨A, hA, hp⟩ := h
    refine kept_of_refines hA (hA.remove node) rfl ?_
    have hle := A.totalNat_window_le
    rw [totalNat_perm _ hp] at hle
    have hfilter : totalNat Tracked.cost (A.remove node).window ≤
        totalNat Tracked.cost A.window := totalNat_filter_le _ _
    rw [UInt64.le_iff_toNat_le, toNat_total (by omega), toNat_total (by omega)]
    exact hfilter
  | s3Fifo p => exact ⟨rfl, rfl, UInt64.le_refl _⟩

theorem inWindow_iff {p : HTinyLfu} {A : TinyQueue NodeId UInt64 Sketch} (h : p.Refines A)
    (node : NodeId) : (tinyLfu p).inWindow node ↔ node ∈ A.window.map (·.name) := by
  unfold inWindow
  cases hr : p.slab.resolve node with
  | none =>
    have hno : node ∉ A.window.map (·.name) := h.holds.resolve_none hr HTinyLfu.WINDOW
    simpa [hr] using hno
  | some i =>
    obtain ⟨rfl, -, a, hi⟩ := h.find?_of_resolve hr
    have hmem : p.slab.id i ∈ A.window.map (·.name) ↔ HTinyLfu.WINDOW = a :=
      h.mem_names hi HTinyLfu.WINDOW
    rw [hmem]
    simp [hr, h.holds.seg_eq hi, eq_comm]

theorem inWindow_applyReads (h : b.Tracks E) (ring : List NodeId) (node : NodeId) :
    (b.applyReads ring).1.inWindow node = b.inWindow node := by
  cases b with
  | tinyLfu p =>
    obtain ⟨A, hA, -⟩ := h
    have hperm := (A.foldl_read ring).2
    rw [Bool.eq_iff_iff, inWindow_iff hA]
    exact (inWindow_iff (hA.applyReads ring) node).trans (hperm.map _).mem_iff
  | s3Fifo p => rfl

theorem windowCost_admitEntry (h : b.Tracks E) (hash cost : UInt64) :
    (b.admitEntry hash cost []).2.1.choice = b.choice ∧
      (b.admitEntry hash cost []).2.1.windowTarget = b.windowTarget ∧
      (b.admitEntry hash cost []).2.1.windowCost ≤ b.windowTarget := by
  cases b with
  | tinyLfu p =>
    obtain ⟨A, hA, -⟩ := h
    have hr := (hA.admitKey hash cost []).1
    refine ⟨rfl, ?_, ?_⟩
    · simp only [Builtin.admitEntry, windowTarget, ← hA.windowTarget, ← hr.windowTarget]
      exact TinyQueue.settle_windowTarget _ _
    · simp only [Builtin.admitEntry, windowTarget, windowCost, ← hA.windowTarget, hr.window_cost]
      exact A.window_admitEntry_le _ hash cost
  | s3Fifo p => exact ⟨rfl, rfl, UInt64.le_refl _⟩

theorem windowCost_update (h : b.Tracks E) {e : Tracked NodeId UInt64} (he : e ∈ E)
    (cost : UInt64) :
    (b.update e.name cost).choice = b.choice ∧
      (b.update e.name cost).windowTarget = b.windowTarget ∧
      (b.update e.name cost).windowCost =
        if b.inWindow e.name then b.windowCost - e.cost + cost else b.windowCost := by
  cases b with
  | tinyLfu p =>
    obtain ⟨A, hA, hE⟩ := h
    have hr := hA.update e.name cost
    refine ⟨rfl, ?_, ?_⟩
    · simp only [Builtin.update, windowTarget, ← hA.windowTarget, ← hr.windowTarget]
      exact A.update_windowTarget e.name cost
    · simp only [inWindow_iff hA]
      simp only [Builtin.update, windowCost, hA.window_cost, hr.window_cost,
        total_perm _ (A.update_window_perm e.name cost)]
      split_ifs with hw
      · obtain ⟨e', he', hname⟩ := mem_map.mp hw
        have hnd := hA.nodup_names
        have hee : e' = e := inj_on_of_nodup_map hnd (by simp [TinyQueue.entries, he'])
          (hE.mem_iff.mpr he) hname
        subst hee
        exact Tracked.total_setCost (hA.holds.nodup HTinyLfu.WINDOW) he' cost
      · rw [Tracked.setCost_of_not_mem hw]
  | s3Fifo p => exact ⟨rfl, rfl, by simp [inWindow, windowCost, Builtin.update]⟩

/-- TinyLFU stops evicting when the victims pay for `c` or only the window is left. -/
theorem evict_tinyLfu {p : HTinyLfu} (h : (tinyLfu p).Tracks E) (c : UInt64)
    (hE : totalNat Tracked.cost E < 2 ^ 64) :
    ∃ victims E' p', (tinyLfu p).evict c [] = (tinyLfu p', victims.map fun e => (e.tag, e.name)) ∧
      (tinyLfu p').Tracks E' ∧ E.Perm (victims ++ E') ∧ Kept (tinyLfu p) (tinyLfu p') ∧
      (c.toNat ≤ totalNat Tracked.cost victims ∨
        totalNat Tracked.cost E' = (tinyLfu p).windowCost.toNat) := by
  obtain ⟨A, hA, hp⟩ := h
  obtain ⟨hr, hout⟩ := hA.evictNodes c []
  rw [nil_append] at hout
  refine ⟨(A.evict c).1, (A.evict c).2.entries, _, Prod.ext rfl hout, ⟨_, hr, Perm.refl _⟩,
    hp.symm.trans (A.evict_perm c), kept_of_refines hA hr rfl (UInt64.le_refl _), ?_⟩
  refine (A.evict_done c).imp_right ?_
  intro hrest
  have hle := A.totalNat_window_le
  rw [totalNat_perm _ hp] at hle
  rw [hrest, windowCost, hA.window_cost, toNat_total (by omega)]

theorem evict_enough (h : b.Tracks E) (c : UInt64) (hE : totalNat Tracked.cost E < 2 ^ 64) :
    ∃ victims E', (b.evict c []).1.Tracks E' ∧ E.Perm (victims ++ E') ∧
      (b.evict c []).2 = victims.map (fun e => (e.tag, e.name)) ∧ Kept b (b.evict c []).1 ∧
      (c.toNat ≤ totalNat Tracked.cost victims ∨
        totalNat Tracked.cost E' = b.windowCost.toNat) := by
  cases b with
  | tinyLfu p =>
    obtain ⟨victims, E', p', hev, htr, hp, hk, hdone⟩ := h.evict_tinyLfu c hE
    rw [hev]
    exact ⟨victims, E', htr, hp, rfl, hk, hdone⟩
  | s3Fifo p =>
    obtain ⟨victims, E', p', hev, htr, hp, hdone⟩ := h.evict_s3Fifo c
    rw [hev]
    refine ⟨victims, E', htr, hp, rfl, ⟨rfl, rfl, UInt64.le_refl _⟩, ?_⟩
    have hle : totalNat Tracked.cost victims < 2 ^ 64 := by
      have := totalNat_perm Tracked.cost hp
      rw [totalNat_append] at this
      omega
    refine hdone.imp ?_ ?_
    · intro hc
      rwa [UInt64.le_iff_toNat_le, toNat_total hle] at hc
    · rintro rfl
      rfl

theorem kept_clear (h : b.Tracks E) : Kept b b.clear := by
  cases b with
  | tinyLfu p =>
    obtain ⟨A, hA, -⟩ := h
    exact kept_of_refines hA hA.clear rfl (by simp)
  | s3Fifo p => exact ⟨rfl, rfl, UInt64.le_refl _⟩

end Tracks

end Builtin

end Fibre.Cache
