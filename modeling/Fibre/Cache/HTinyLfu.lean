import Fibre.Cache.SlabLists
import Fibre.Cache.Sketch
import Fibre.Cache.Targets
import Fibre.Cache.HS3Fifo

/-!
# W-TinyLFU on node handles

The shard's other built-in policy. The window, probation and protected segments are the
slab's three lists; a node's payload is the entry's hash, under which the sketch counts it.
-/

namespace Fibre.Cache

open CostQueue Word List Function

/-- W-TinyLFU on node handles. -/
structure HTinyLfu where
  slab : Slab UInt64
  sketch : Sketch
  windowTarget : UInt64
  mainCapacity : UInt64
  protCapacity : UInt64

namespace HTinyLfu

theorem neZero_three : NeZero 3 := ⟨by decide⟩

attribute [local instance] neZero_three

/-- The window's list in the slab. -/
abbrev WINDOW : Fin 3 := 0

/-- The probation segment's list in the slab. -/
abbrev PROBATION : Fin 3 := 1

/-- The protected segment's list in the slab. -/
abbrev PROTECTED : Fin 3 := 2

/-- An empty policy for `capacity` cost units. -/
def new (capacity : UInt64) : HTinyLfu where
  slab := .new
  sketch := .new (max (capacity * 10) 100)
  windowTarget := Cache.windowTarget capacity
  mainCapacity := satSub capacity (Cache.windowTarget capacity)
  protCapacity := Cache.protCapacity (satSub capacity (Cache.windowTarget capacity))

/-- The hash a live slot holds. -/
def hashOf (p : HTinyLfu) (i : ℕ) : UInt64 := (p.slab.payload i).getD default

/-- The demotion loop, for at most `fuel` turns. -/
def maintainLoop : ℕ → HTinyLfu → HTinyLfu
  | 0, p => p
  | fuel + 1, p =>
    if (p.slab.lists PROTECTED).cost > p.protCapacity then
      match (p.slab.lists PROTECTED).tail with
      | none => p
      | some t => maintainLoop fuel { p with slab := (p.slab.unlink t).pushFront PROBATION t }
    else
      p

/-- Demotes from the protected segment until it is within its capacity. Each turn takes one
slot out of it, so the slab's size bounds the turns. -/
def maintain (p : HTinyLfu) : HTinyLfu := maintainLoop p.slab.size p

/-- A use of the live slot `i`. -/
def touch (p : HTinyLfu) (i : ℕ) : HTinyLfu :=
  match (p.slab.links i).seg with
  | some 0 => { p with slab := p.slab.moveFront WINDOW i }
  | some 1 => { p with slab := (p.slab.unlink i).pushFront PROTECTED i : HTinyLfu }.maintain
  | _ => { p with slab := p.slab.moveFront PROTECTED i }

/-- Counts a use of `hash`. -/
def count (p : HTinyLfu) (hash : UInt64) : HTinyLfu :=
  { p with sketch := p.sketch.increment hash }

/-- A read of `node`. -/
def touchNode (p : HTinyLfu) (node : NodeId) : HTinyLfu :=
  match p.slab.resolve node with
  | none => p
  | some i => (p.count (p.hashOf i)).touch i

/-- Frees an unlinked slot and names it a victim. -/
def dropNode (p : HTinyLfu) (i : ℕ) (out : List Victim) : HTinyLfu × List Victim :=
  let freed := p.slab.release i
  ({ p with slab := freed.2 }, out ++ [(freed.1.getD default, p.slab.id i)])

/-- Whether the unlinked slot `cand` may enter the main segments: they have room, or it is
used at least as often as their next victim. -/
def admits (p : HTinyLfu) (cand : ℕ) : Bool :=
  let mainCost := (p.slab.lists PROBATION).cost + (p.slab.lists PROTECTED).cost
  mainCost + p.slab.costs cand ≤ p.mainCapacity ||
    match (p.slab.lists PROBATION).tail.or (p.slab.lists PROTECTED).tail with
    | none => true
    | some victim => p.sketch.estimate (p.hashOf cand) ≥ p.sketch.estimate (p.hashOf victim)

/-- The window's overflow loop, for at most `fuel` turns. -/
def windowLoop : ℕ → HTinyLfu → List Victim → HTinyLfu × List Victim
  | 0, p, out => (p, out)
  | fuel + 1, p, out =>
    if (p.slab.lists WINDOW).cost > p.windowTarget then
      match (p.slab.lists WINDOW).tail with
      | none => (p, out)
      | some cand =>
        let p := { p with slab := p.slab.unlink cand }
        if p.admits cand then
          windowLoop fuel { p with slab := p.slab.pushFront PROBATION cand } out
        else
          let r := p.dropNode cand out
          windowLoop fuel r.1 r.2
    else
      (p, out)

/-- Admits a new entry to the window; entries rejected on the way go to `out`. -/
def admitKey (p : HTinyLfu) (hash cost : UInt64) (out : List Victim) :
    NodeId × HTinyLfu × List Victim :=
  let p := p.count hash
  let r := p.slab.alloc hash cost
  let slab := r.2.pushFront WINDOW r.1
  (slab.id r.1, windowLoop slab.size { p with slab := slab } out)

/-- The eviction loop of one segment, for at most `fuel` turns. Returns the cost still to
free. -/
def evictSeg (seg : Fin 3) : ℕ → UInt64 → HTinyLfu → List Victim → UInt64 × HTinyLfu × List Victim
  | 0, c, p, out => (c, p, out)
  | fuel + 1, c, p, out =>
    if c > 0 then
      match (p.slab.lists seg).tail with
      | none => (c, p, out)
      | some t =>
        let r := dropNode { p with slab := p.slab.unlink t } t out
        evictSeg seg fuel (satSub c (p.slab.costs t)) r.1 r.2
    else
      (c, p, out)

/-- Evicts from probation, then from the protected segment, until `c` is freed. -/
def evictNodes (p : HTinyLfu) (c : UInt64) (out : List Victim) : HTinyLfu × List Victim :=
  let p := p.maintain
  let r := evictSeg PROBATION p.slab.size c p out
  (evictSeg PROTECTED p.slab.size r.1 r.2.1 r.2.2).2

/-- A resident entry's value was replaced with one of `cost`. -/
def update (p : HTinyLfu) (node : NodeId) (cost : UInt64) : HTinyLfu :=
  match p.slab.resolve node with
  | none => p
  | some i =>
    let p := p.count (p.hashOf i)
    { p with slab := p.slab.setCost i cost : HTinyLfu }.touch i

/-- Forgets an entry the shard removed. -/
def remove (p : HTinyLfu) (node : NodeId) : HTinyLfu :=
  match p.slab.resolve node with
  | none => p
  | some i => { p with slab := ((p.slab.unlink i).release i).2 }

/-- Applies the reads drained from the shard's ring. -/
def applyReads (p : HTinyLfu) (nodes : List NodeId) : HTinyLfu := nodes.foldl touchNode p

/-- Forgets everything. -/
def clear (p : HTinyLfu) : HTinyLfu :=
  { p with slab := p.slab.clear, sketch := p.sketch.clear }

def segment (p : HTinyLfu) (seg : Fin 3) : List Victim :=
  (p.slab.fromTail seg).map fun i => (p.hashOf i, p.slab.id i)

/-! ### The segments it stores -/

end HTinyLfu

/-- The segments of a queue, as the slab numbers them. -/
def TinyQueue.lists {ν γ σ : Type*} (A : TinyQueue ν γ σ) : Fin 3 → List (Tracked ν γ)
  | 0 => A.window
  | 1 => A.probation
  | 2 => A.protectedSeg

theorem TinyQueue.eq_lists {ν γ σ : Type*} {A : TinyQueue ν γ σ}
    {L : Fin 3 → List (Tracked ν γ)} (h0 : L 0 = A.window) (h1 : L 1 = A.probation)
    (h2 : L 2 = A.protectedSeg) : L = A.lists := by
  funext a
  fin_cases a
  · exact h0
  · exact h1
  · exact h2

theorem Slab.Holds.lists {s : Slab UInt64} {L : Fin 3 → List (Tracked NodeId UInt64)} {σ : Type*}
    {A : TinyQueue NodeId UInt64 σ} (h : s.Holds L) (h0 : L 0 = A.window)
    (h1 : L 1 = A.probation) (h2 : L 2 = A.protectedSeg) : s.Holds A.lists :=
  TinyQueue.eq_lists h0 h1 h2 ▸ h

namespace HTinyLfu

/-- The policy stores the segments of `A`. -/
structure Refines (p : HTinyLfu) (A : TinyQueue NodeId UInt64 Sketch) : Prop where
  holds : p.slab.Holds A.lists
  sketch : A.sketch = p.sketch
  windowTarget : A.windowTarget = p.windowTarget
  mainCapacity : A.mainCapacity = p.mainCapacity
  protCapacity : A.protCapacity = p.protCapacity

variable {p : HTinyLfu} {A : TinyQueue NodeId UInt64 Sketch} {i : ℕ} {a : Fin 3} {node : NodeId}

/-- The abstract policy a new one stores. -/
def emptyQueue (capacity : UInt64) : TinyQueue NodeId UInt64 Sketch where
  window := []
  probation := []
  protectedSeg := []
  sketch := (new capacity).sketch
  windowTarget := (new capacity).windowTarget
  mainCapacity := (new capacity).mainCapacity
  protCapacity := (new capacity).protCapacity

theorem refines_new (capacity : UInt64) : (new capacity).Refines (emptyQueue capacity) where
  holds := Slab.holds_new.lists rfl rfl rfl
  sketch := rfl
  windowTarget := rfl
  mainCapacity := rfl
  protCapacity := rfl

theorem seg_cases (a : Fin 3) : a = WINDOW ∨ a = PROBATION ∨ a = PROTECTED := by
  revert a
  decide

theorem dropNode_unlink (p : HTinyLfu) (i : ℕ) (out : List Victim) :
    dropNode { p with slab := p.slab.unlink i } i out =
      ({ p with slab := ((p.slab.unlink i).release i).2 },
        out ++ [((p.slab.node i).tag, (p.slab.node i).name)]) := by
  simp [dropNode, Slab.node]

namespace Refines

theorem window_cost (h : p.Refines A) :
    (p.slab.lists WINDOW).cost = total Tracked.cost A.window := h.holds.cost WINDOW

theorem probation_cost (h : p.Refines A) :
    (p.slab.lists PROBATION).cost = total Tracked.cost A.probation := h.holds.cost PROBATION

theorem protected_cost (h : p.Refines A) :
    (p.slab.lists PROTECTED).cost = total Tracked.cost A.protectedSeg := h.holds.cost PROTECTED

theorem of_holds (h : p.Refines A) {s : Slab UInt64} {B : TinyQueue NodeId UInt64 Sketch}
    (hs : s.Holds B.lists) (hB : B.sketch = A.sketch ∧ B.windowTarget = A.windowTarget ∧
      B.mainCapacity = A.mainCapacity ∧ B.protCapacity = A.protCapacity) :
    { p with slab := s : HTinyLfu }.Refines B :=
  ⟨hs, hB.1.trans h.sketch, hB.2.1.trans h.windowTarget, hB.2.2.1.trans h.mainCapacity,
    hB.2.2.2.trans h.protCapacity⟩

theorem count (h : p.Refines A) (hash : UInt64) : (p.count hash).Refines (A.count hash) where
  holds := h.holds
  sketch := by
    simp only [TinyQueue.count, HTinyLfu.count, h.sketch]
    rfl
  windowTarget := h.windowTarget
  mainCapacity := h.mainCapacity
  protCapacity := h.protCapacity

theorem clear (h : p.Refines A) : p.clear.Refines { A with
    window := [], probation := [], protectedSeg := [], sketch := p.sketch.clear } where
  holds := Slab.holds_new.lists rfl rfl rfl
  sketch := rfl
  windowTarget := h.windowTarget
  mainCapacity := h.mainCapacity
  protCapacity := h.protCapacity

theorem maintainLoop (h : p.Refines A) {fuel : ℕ} (hfuel : A.protectedSeg.length ≤ fuel) :
    (maintainLoop fuel p).Refines A.maintain := by
  induction fuel generalizing p A with
  | zero =>
    have hnil : A.protectedSeg = [] := length_eq_zero_iff.mp (Nat.le_zero.mp hfuel)
    rw [TinyQueue.maintain_of_le (by simp [hnil])]
    exact h
  | succ fuel ih =>
    have hcond : (p.slab.lists PROTECTED).cost > p.protCapacity ↔
        A.protCapacity < total Tracked.cost A.protectedSeg := by
      rw [h.protected_cost, h.protCapacity]
    rw [HTinyLfu.maintainLoop]
    split_ifs with hover <;> rw [hcond] at hover
    · cases ht : (p.slab.lists PROTECTED).tail with
      | none =>
        have hnil : A.protectedSeg = [] := h.holds.eq_nil_iff.mpr ht
        simp [hnil] at hover
      | some t =>
        have hmem := h.holds.mem_of_tail ht
        have hseg : A.protectedSeg = p.slab.node t ::
            Tracked.without (p.slab.id t) A.protectedSeg := h.holds.eq_cons ht
        set B : TinyQueue NodeId UInt64 Sketch := { A with
          probation := A.probation ++ [p.slab.node t]
          protectedSeg := Tracked.without (p.slab.id t) A.protectedSeg } with hB
        have hstep : Slab.Holds _ B.lists := (h.holds.requeue hmem PROBATION).lists
          (h.holds.without_other hmem (b := WINDOW) (by decide))
          (by rw [update_self, h.holds.without_other hmem (by decide)]; rfl) rfl
        have hmaintain : A.maintain = B.maintain := by
          have hspill : spill Tracked.cost A.protCapacity A.protectedSeg =
              (p.slab.node t :: (spill Tracked.cost A.protCapacity B.protectedSeg).1,
                (spill Tracked.cost A.protCapacity B.protectedSeg).2) := by
            rw [hseg, spill, if_pos (hseg ▸ hover)]
          simp only [TinyQueue.maintain, hspill]
          simp [hB]
        rw [hmaintain]
        refine ih (h.of_holds hstep ⟨rfl, rfl, rfl, rfl⟩) ?_
        rw [hseg] at hfuel
        simpa [hB] using hfuel
    · rw [TinyQueue.maintain_of_le (by simpa using hover)]
      exact h

theorem maintain (h : p.Refines A) : p.maintain.Refines A.maintain :=
  h.maintainLoop (h.holds.length_le PROTECTED)

theorem mem_names (h : p.Refines A) (hi : p.slab.node i ∈ A.lists a) (b : Fin 3) :
    p.slab.id i ∈ (A.lists b).map (·.name) ↔ b = a := by
  have hname : p.slab.id i ∈ (A.lists a).map (·.name) := mem_map_of_mem (f := (·.name)) hi
  exact ⟨fun hb => h.holds.disjoint hb hname, by rintro rfl; exact hname⟩

theorem touch (h : p.Refines A) (hi : p.slab.node i ∈ A.lists a) :
    (p.touch i).Refines (A.touch (p.slab.id i)) := by
  have hseg := h.holds.seg_eq hi
  have hwindow := h.mem_names hi WINDOW
  have hprobation := h.mem_names hi PROBATION
  simp only [TinyQueue.lists] at hwindow hprobation
  unfold HTinyLfu.touch TinyQueue.touch
  rw [hseg]
  rcases seg_cases a with rfl | rfl | rfl
  · rw [if_pos (hwindow.mpr rfl)]
    exact h.of_holds ((h.holds.moveFront hi).lists rfl rfl rfl) ⟨rfl, rfl, rfl, rfl⟩
  · rw [if_neg (hwindow.not.mpr (by decide)), if_pos (hprobation.mpr rfl)]
    refine Refines.maintain ?_
    refine h.of_holds ((h.holds.requeue hi PROTECTED).lists ?_ rfl ?_) ⟨rfl, rfl, rfl, rfl⟩
    · exact h.holds.without_other hi (b := WINDOW) (by decide)
    · have honly : Tracked.only (p.slab.id i) A.probation = [p.slab.node i] := h.holds.only_eq hi
      rw [update_self, h.holds.without_other hi (by decide), honly]
      rfl
  · rw [if_neg (hwindow.not.mpr (by decide)), if_neg (hprobation.not.mpr (by decide))]
    exact h.of_holds ((h.holds.moveFront hi).lists rfl rfl rfl) ⟨rfl, rfl, rfl, rfl⟩

theorem mem_entries (hi : p.slab.node i ∈ A.lists a) : p.slab.node i ∈ A.entries := by
  simp only [TinyQueue.entries, mem_append]
  rcases seg_cases a with rfl | rfl | rfl
  · exact .inl (.inl hi)
  · exact .inl (.inr hi)
  · exact .inr hi

theorem nodup_names (h : p.Refines A) : (A.entries.map (·.name)).Nodup := by
  have hdisj : ∀ a b : Fin 3, a ≠ b → ∀ n ∈ (A.lists a).map (·.name),
      ∀ m ∈ (A.lists b).map (·.name), n ≠ m := by
    rintro a b hab n ha m hb rfl
    exact hab (h.holds.disjoint ha hb)
  simp only [TinyQueue.entries, map_append]
  refine nodup_append.mpr ⟨nodup_append.mpr ⟨h.holds.nodup WINDOW,
    h.holds.nodup PROBATION, hdisj WINDOW PROBATION (by decide)⟩, h.holds.nodup PROTECTED, ?_⟩
  intro n hn m hm
  rcases mem_append.mp hn with hn | hn
  · exact hdisj WINDOW PROTECTED (by decide) n hn m hm
  · exact hdisj PROBATION PROTECTED (by decide) n hn m hm

theorem find?_of_resolve (h : p.Refines A) (hr : p.slab.resolve node = some i) :
    p.slab.id i = node ∧ A.find? node = some (p.slab.node i) ∧ ∃ a, p.slab.node i ∈ A.lists a := by
  obtain ⟨rfl, a, hi⟩ := h.holds.resolve_some hr
  exact ⟨rfl, Tracked.find?_name h.nodup_names (mem_entries hi), a, hi⟩

theorem find?_of_resolve_none (h : p.Refines A) (hr : p.slab.resolve node = none) :
    A.find? node = none := by
  refine List.find?_eq_none.mpr ?_
  intro e he
  simp only [decide_eq_true_eq]
  rintro rfl
  have hno := fun a => h.holds.resolve_none hr a
  simp only [TinyQueue.entries, mem_append] at he
  rcases he with (he | he) | he
  · exact hno WINDOW (mem_map_of_mem (f := (·.name)) he)
  · exact hno PROBATION (mem_map_of_mem (f := (·.name)) he)
  · exact hno PROTECTED (mem_map_of_mem (f := (·.name)) he)

theorem touchNode (h : p.Refines A) (node : NodeId) : (p.touchNode node).Refines (A.read node) := by
  unfold HTinyLfu.touchNode TinyQueue.read
  cases hr : p.slab.resolve node with
  | none =>
    rw [h.find?_of_resolve_none hr]
    exact h
  | some i =>
    obtain ⟨rfl, hfind, a, hi⟩ := h.find?_of_resolve hr
    rw [hfind]
    exact (h.count _).touch hi

theorem applyReads (h : p.Refines A) (nodes : List NodeId) :
    (p.applyReads nodes).Refines (nodes.foldl TinyQueue.read A) := by
  induction nodes generalizing p A with
  | nil => exact h
  | cons node nodes ih => exact ih (h.touchNode node)

theorem update (h : p.Refines A) (node : NodeId) (cost : UInt64) :
    (p.update node cost).Refines (A.update node cost) := by
  unfold HTinyLfu.update TinyQueue.update
  cases hr : p.slab.resolve node with
  | none =>
    rw [h.find?_of_resolve_none hr]
    exact h
  | some i =>
    obtain ⟨rfl, hfind, a, hi⟩ := h.find?_of_resolve hr
    rw [hfind]
    have hc := h.count (p.hashOf i)
    have hset := hc.of_holds ((hc.holds.setCost hi cost).lists rfl rfl rfl)
      (B := { A.count (p.hashOf i) with
        window := Tracked.setCost (p.slab.id i) cost A.window
        probation := Tracked.setCost (p.slab.id i) cost A.probation
        protectedSeg := Tracked.setCost (p.slab.id i) cost A.protectedSeg }) ⟨rfl, rfl, rfl, rfl⟩
    have hmem := hc.holds.node_setCost_mem hi cost
    have htouch := hset.touch (i := i) (a := a) (by
      rcases seg_cases a with rfl | rfl | rfl <;> exact hmem)
    rw [Slab.setCost_id] at htouch
    exact htouch

theorem remove (h : p.Refines A) (node : NodeId) : (p.remove node).Refines (A.remove node) := by
  unfold HTinyLfu.remove TinyQueue.remove
  cases hr : p.slab.resolve node with
  | none =>
    have hno := fun a => Tracked.without_of_not_mem (h.holds.resolve_none hr a)
    refine h.of_holds (h.holds.lists ?_ ?_ ?_) ⟨rfl, rfl, rfl, rfl⟩
    · exact (hno WINDOW).symm
    · exact (hno PROBATION).symm
    · exact (hno PROTECTED).symm
  | some i =>
    obtain ⟨rfl, -, a, hi⟩ := h.find?_of_resolve hr
    exact h.of_holds ((h.holds.free hi).lists rfl rfl rfl) ⟨rfl, rfl, rfl, rfl⟩

theorem admits (h : p.Refines A) (ht : (p.slab.lists WINDOW).tail = some i) :
    admits { p with slab := p.slab.unlink i } i = A.admits (p.slab.node i) := by
  have hseg := h.holds.seg_eq (h.holds.mem_of_tail ht)
  have hprob : A.probation.head? = (p.slab.lists PROBATION).tail.map p.slab.node :=
    h.holds.head?_eq PROBATION
  have hprot : A.protectedSeg.head? = (p.slab.lists PROTECTED).tail.map p.slab.node :=
    h.holds.head?_eq PROTECTED
  unfold HTinyLfu.admits TinyQueue.admits
  simp only [Slab.unlink_lists_of_ne hseg (b := PROBATION) (by decide),
    Slab.unlink_lists_of_ne hseg (b := PROTECTED) (by decide), h.probation_cost, h.protected_cost,
    TinyQueue.mainCost, h.mainCapacity, hprob, hprot, h.sketch, hashOf, Slab.unlink_costs,
    Slab.unlink_payload]
  cases (p.slab.lists PROBATION).tail with
  | some v => rfl
  | none => cases (p.slab.lists PROTECTED).tail <;> rfl

theorem windowLoop (h : p.Refines A) {fuel : ℕ} (hfuel : A.window.length ≤ fuel)
    (out : List Victim) :
    (windowLoop fuel p out).1.Refines (A.settle A.window).2 ∧
      (windowLoop fuel p out).2 =
        out ++ (A.settle A.window).1.map fun e => (e.tag, e.name) := by
  induction fuel generalizing p A out with
  | zero =>
    have hnil : A.window = [] := length_eq_zero_iff.mp (Nat.le_zero.mp hfuel)
    rw [TinyQueue.settle_of_le (by simp [hnil])]
    exact ⟨h, by simp [HTinyLfu.windowLoop]⟩
  | succ fuel ih =>
    have hcond : (p.slab.lists WINDOW).cost > p.windowTarget ↔
        A.windowTarget < total Tracked.cost A.window := by
      rw [h.window_cost, h.windowTarget]
    rw [HTinyLfu.windowLoop]
    split_ifs with hover <;> rw [hcond] at hover
    · cases ht : (p.slab.lists WINDOW).tail with
      | none =>
        have hnil : A.window = [] := h.holds.eq_nil_iff.mpr ht
        simp [hnil] at hover
      | some cand =>
        have hmem := h.holds.mem_of_tail ht
        have hwin : A.window = p.slab.node cand ::
            Tracked.without (p.slab.id cand) A.window := h.holds.eq_cons ht
        have hlen : (Tracked.without (p.slab.id cand) A.window).length ≤ fuel := by
          rw [hwin] at hfuel
          simpa using hfuel
        have hprob := h.holds.without_other hmem (b := PROBATION) (by decide)
        have hprot := h.holds.without_other hmem (b := PROTECTED) (by decide)
        simp only [h.admits ht]
        rw [hwin] at hover
        split_ifs with hadm
        · -- the candidate enters probation
          set B : TinyQueue NodeId UInt64 Sketch := { A with
            window := Tracked.without (p.slab.id cand) A.window
            probation := A.probation ++ [p.slab.node cand] } with hB
          have hstep : Slab.Holds _ B.lists := (h.holds.requeue hmem PROBATION).lists rfl
            (by rw [update_self, hprob]; rfl) hprot
          have hB' := ih (h.of_holds hstep ⟨rfl, rfl, rfl, rfl⟩) hlen out
          rw [hwin, TinyQueue.settle_cons_admits hover hadm]
          exact hB'
        · -- the candidate is rejected
          set B : TinyQueue NodeId UInt64 Sketch := { A with
            window := Tracked.without (p.slab.id cand) A.window } with hB
          have hstep : Slab.Holds _ B.lists := (h.holds.free hmem).lists rfl hprob hprot
          have hB' := ih (h.of_holds hstep ⟨rfl, rfl, rfl, rfl⟩) hlen
            (out ++ [((p.slab.node cand).tag, (p.slab.node cand).name)])
          rw [hwin, TinyQueue.settle_cons_reject hover hadm, dropNode_unlink]
          exact ⟨hB'.1, by simpa using hB'.2⟩
    · rw [TinyQueue.settle_of_le (by simpa using hover)]
      exact ⟨h, by simp⟩

theorem allocWindow (h : p.Refines A) (hash cost : UInt64) (out : List Victim) :
    let r := (p.count hash).slab.alloc hash cost
    { p.count hash with slab := r.2.pushFront WINDOW r.1 : HTinyLfu }.Refines
      { A.count hash with
        window := A.window ++ [⟨(p.admitKey hash cost out).1, hash, cost⟩] } := by
  have hc := h.count hash
  exact hc.of_holds ((hc.holds.allocFront WINDOW hash cost).lists rfl rfl rfl)
    ⟨rfl, rfl, rfl, rfl⟩

theorem admitKey_fresh (h : p.Refines A) (hash cost : UInt64) (out : List Victim) :
    (p.admitKey hash cost out).1 ∉ A.entries.map (·.name) := by
  have hnd := (h.allocWindow hash cost out).nodup_names
  simp only [TinyQueue.entries, TinyQueue.count, append_assoc, map_append,
    map_cons, singleton_append] at hnd ⊢
  exact (nodup_cons.mp (nodup_middle.mp hnd)).1

theorem admitKey (h : p.Refines A) (hash cost : UInt64) (out : List Victim) :
    (p.admitKey hash cost out).2.1.Refines
        (A.admitEntry (p.admitKey hash cost out).1 hash cost).2 ∧
      (p.admitKey hash cost out).2.2 = out ++
        (A.admitEntry (p.admitKey hash cost out).1 hash cost).1.map fun e => (e.tag, e.name) := by
  have hB := h.allocWindow hash cost out
  have hloop := hB.windowLoop (hB.holds.length_le WINDOW) out
  rw [TinyQueue.settle_window] at hloop
  exact hloop

theorem evictSeg {L : Fin 3 → List (Tracked NodeId UInt64)} (hs : p.slab.Holds L) {fuel : ℕ}
    (hfuel : (L a).length ≤ fuel) (c : UInt64) (out : List Victim) :
    (evictSeg a fuel c p out).1 = (popUntil Tracked.cost c (L a)).1 ∧
      (evictSeg a fuel c p out).2.1.slab.Holds
        (Function.update L a (popUntil Tracked.cost c (L a)).2.2) ∧
      (evictSeg a fuel c p out).2.1 = { p with slab := (evictSeg a fuel c p out).2.1.slab } ∧
      (evictSeg a fuel c p out).2.2 = out ++
        (popUntil Tracked.cost c (L a)).2.1.map fun e => (e.tag, e.name) := by
  induction fuel generalizing p L c out with
  | zero =>
    have hnil : L a = [] := length_eq_zero_iff.mp (Nat.le_zero.mp hfuel)
    have hpop : popUntil Tracked.cost c (L a) = (c, [], L a) := by rw [hnil]; rfl
    rw [HTinyLfu.evictSeg, hpop]
    exact ⟨rfl, by rwa [update_eq_self], rfl, by simp⟩
  | succ fuel ih =>
    rw [HTinyLfu.evictSeg]
    split_ifs with hc
    · cases ht : (p.slab.lists a).tail with
      | none =>
        have hnil : L a = [] := hs.eq_nil_iff.mpr ht
        have hpop : popUntil Tracked.cost c (L a) = (c, [], L a) := by rw [hnil]; rfl
        rw [hpop]
        exact ⟨rfl, by rwa [update_eq_self], rfl, by simp⟩
      | some t =>
        have hmem := hs.mem_of_tail ht
        have hcons := hs.eq_cons ht
        have hlists : (fun b => Tracked.without (p.slab.id t) (L b)) =
            Function.update L a (Tracked.without (p.slab.id t) (L a)) := by
          funext b
          by_cases hb : b = a
          · subst hb; simp
          · rw [update_of_ne hb, hs.without_other hmem hb]
        have hfree := hs.free hmem
        rw [hlists] at hfree
        have hpop : popUntil Tracked.cost c (L a) =
            ((popUntil Tracked.cost (satSub c (p.slab.costs t))
                (Tracked.without (p.slab.id t) (L a))).1,
              p.slab.node t :: (popUntil Tracked.cost (satSub c (p.slab.costs t))
                (Tracked.without (p.slab.id t) (L a))).2.1,
              (popUntil Tracked.cost (satSub c (p.slab.costs t))
                (Tracked.without (p.slab.id t) (L a))).2.2) := by
          conv_lhs => rw [hcons, popUntil, if_pos hc]
          rfl
        have hlen : (Function.update L a (Tracked.without (p.slab.id t) (L a)) a).length ≤ fuel := by
          rw [hcons] at hfuel
          simpa using hfuel
        have := ih (p := { p with slab := ((p.slab.unlink t).release t).2 }) hfree hlen
          (satSub c (p.slab.costs t)) (out ++ [((p.slab.node t).tag, (p.slab.node t).name)])
        rw [update_self, update_idem] at this
        simp only [dropNode_unlink, hpop]
        exact ⟨this.1, this.2.1, this.2.2.1, by simpa using this.2.2.2⟩
    · obtain rfl : c = 0 := by simpa using hc
      rw [popUntil_zero]
      refine ⟨rfl, ?_, rfl, by simp⟩
      rwa [update_eq_self]

theorem evictNodes (h : p.Refines A) (c : UInt64) (out : List Victim) :
    (p.evictNodes c out).1.Refines (A.evict c).2 ∧
      (p.evictNodes c out).2 = out ++ (A.evict c).1.map fun e => (e.tag, e.name) := by
  have hm := h.maintain
  have hprob := evictSeg hm.holds (hm.holds.length_le PROBATION) c out
  set r := HTinyLfu.evictSeg PROBATION p.maintain.slab.size c p.maintain out with hr
  obtain ⟨hc, hholds, hsame, hout⟩ := hprob
  have hlen : (Function.update A.maintain.lists PROBATION
      (popUntil Tracked.cost c (A.maintain.lists PROBATION)).2.2 PROTECTED).length ≤
        p.maintain.slab.size := by
    rw [update_of_ne (by decide)]
    exact hm.holds.length_le PROTECTED
  have hprot := evictSeg hholds hlen r.1 r.2.2
  rw [update_of_ne (by decide)] at hprot
  obtain ⟨-, hholds', hsame', hout'⟩ := hprot
  unfold HTinyLfu.evictNodes
  simp only [← hr]
  obtain ⟨s, hs⟩ : ∃ s, r.2.1 = { p.maintain with slab := s } := ⟨_, hsame⟩
  have hparams : (HTinyLfu.evictSeg PROTECTED p.maintain.slab.size r.1 r.2.1 r.2.2).2.1 =
      { p.maintain with slab :=
        (HTinyLfu.evictSeg PROTECTED p.maintain.slab.size r.1 r.2.1 r.2.2).2.1.slab } := by
    refine hsame'.trans ?_
    rw [hs]
  constructor
  · rw [hparams]
    refine hm.of_holds (hholds'.lists rfl ?_ ?_) ⟨rfl, rfl, rfl, rfl⟩
    · rw [update_of_ne (by decide), update_self]
      rfl
    · rw [update_self, hc]
      rfl
  · rw [hout', hout, hc]
    simp [TinyQueue.evict, TinyQueue.lists]

theorem segment (h : p.Refines A) (a : Fin 3) :
    p.segment a = (A.lists a).map fun e => (e.tag, e.name) := by
  obtain ⟨q, hrepr, hlists⟩ := h.holds
  rw [HTinyLfu.segment, hrepr.fromTail_eq, hlists, map_map]
  rfl

end Refines

end HTinyLfu

end Fibre.Cache
