import Fibre.Cache.HTinyLfu
import Fibre.Cache.S3Lockstep
import Fibre.Cache.TinyLfu

/-!
# The two W-TinyLFU policies in lockstep

The node policy of the shard and the key policy of a factory are driven by the same calls, the
sketches hashing keys alike. A driver keeps the node and the cost of each resident key, as a
shard does.
-/

namespace Fibre.Cache

open CostQueue Word Function List

/-! ### Segments under other names -/

section Relabel

variable {ν ν' γ γ' σ σ' : Type*}

namespace Tracked

def relabel (f : ν → ν') (g : γ → γ') (e : Tracked ν γ) : Tracked ν' γ' := ⟨f e.name, g e.tag, e.cost⟩

theorem cost_relabel (f : ν → ν') (g : γ → γ') (e : Tracked ν γ) :
    (e.relabel f g).cost = e.cost := rfl

variable {f : ν → ν'} {g : γ → γ'} {name : ν} {l : List (Tracked ν γ)}

theorem mem_names_relabel (hf : ∀ e ∈ l, f e.name = f name → e.name = name) :
    f name ∈ (l.map (relabel f g)).map (·.name) ↔ name ∈ l.map (·.name) := by
  simp only [map_map, mem_map, Function.comp_apply]
  constructor
  · rintro ⟨e, he, heq⟩
    exact ⟨e, he, hf e he heq⟩
  · rintro ⟨e, he, rfl⟩
    exact ⟨e, he, rfl⟩

variable [DecidableEq ν] [DecidableEq ν']

theorem filter_relabel (hf : ∀ e ∈ l, f e.name = f name → e.name = name) :
    without (f name) (l.map (relabel f g)) = (without name l).map (relabel f g) ∧
      only (f name) (l.map (relabel f g)) = (only name l).map (relabel f g) := by
  have hiff : ∀ e ∈ l, (relabel f g e).name = f name ↔ e.name = name := by
    intro e he
    exact ⟨hf e he, fun heq => congrArg f heq⟩
  rw [without, without, only, only, filter_map, filter_map]
  constructor
  · congr 1
    refine filter_congr fun e he => ?_
    simp [hiff e he]
  · congr 1
    refine filter_congr fun e he => ?_
    simp [hiff e he]

theorem refresh_relabel (hf : ∀ e ∈ l, f e.name = f name → e.name = name) :
    refresh (f name) (l.map (relabel f g)) = (refresh name l).map (relabel f g) := by
  rw [refresh, refresh, (filter_relabel hf).1, (filter_relabel hf).2, map_append]

end Tracked

namespace TinyQueue

/-- The same segments under other names and tags, and another sketch. -/
def relabel (f : ν → ν') (g : γ → γ') (sketch : σ') (A : TinyQueue ν γ σ) : TinyQueue ν' γ' σ' where
  window := A.window.map (Tracked.relabel f g)
  probation := A.probation.map (Tracked.relabel f g)
  protectedSeg := A.protectedSeg.map (Tracked.relabel f g)
  sketch := sketch
  windowTarget := A.windowTarget
  mainCapacity := A.mainCapacity
  protCapacity := A.protCapacity

variable {f : ν → ν'} {g : γ → γ'} {sketch : σ'} {A : TinyQueue ν γ σ} {name : ν}

theorem entries_relabel : (A.relabel f g sketch).entries = A.entries.map (Tracked.relabel f g) := by
  simp [entries, relabel]

theorem relabel_maintain : (A.relabel f g sketch).maintain = A.maintain.relabel f g sketch := by
  have hspill := spill_map (f := Tracked.relabel f g) (Tracked.cost_relabel f g) A.protCapacity
    A.protectedSeg
  simp only [maintain, relabel, hspill, map_append]

theorem relabel_evict (c : UInt64) : (A.relabel f g sketch).evict c =
    ((A.evict c).1.map (Tracked.relabel f g), (A.evict c).2.relabel f g sketch) := by
  have hpop := popUntil_map (f := Tracked.relabel f g) (Tracked.cost_relabel f g)
  simp only [evict, relabel_maintain]
  simp only [relabel, hpop, map_append]

section Named

variable [DecidableEq ν] [DecidableEq ν']
  (hf : ∀ e ∈ A.entries, f e.name = f name → e.name = name)

include hf

theorem relabel_touch :
    (A.relabel f g sketch).touch (f name) = (A.touch name).relabel f g sketch := by
  have hw : ∀ e ∈ A.window, f e.name = f name → e.name = name :=
    fun e he => hf e (by simp [entries, he])
  have hp : ∀ e ∈ A.probation, f e.name = f name → e.name = name :=
    fun e he => hf e (by simp [entries, he])
  have hq : ∀ e ∈ A.protectedSeg, f e.name = f name → e.name = name :=
    fun e he => hf e (by simp [entries, he])
  have hmw : f name ∈ (A.relabel f g sketch).window.map (·.name) ↔ name ∈ A.window.map (·.name) :=
    Tracked.mem_names_relabel hw
  have hmp : f name ∈ (A.relabel f g sketch).probation.map (·.name) ↔
      name ∈ A.probation.map (·.name) := Tracked.mem_names_relabel hp
  unfold touch
  by_cases hmem : name ∈ A.window.map (·.name)
  · rw [if_pos hmem, if_pos (hmw.mpr hmem)]
    simp [relabel, Tracked.refresh_relabel hw]
  · rw [if_neg hmem, if_neg fun h => hmem (hmw.mp h)]
    by_cases hmem' : name ∈ A.probation.map (·.name)
    · rw [if_pos hmem', if_pos (hmp.mpr hmem'), ← relabel_maintain]
      simp [relabel, Tracked.filter_relabel hp]
    · rw [if_neg hmem', if_neg fun h => hmem' (hmp.mp h)]
      simp [relabel, Tracked.refresh_relabel hq]

theorem relabel_remove :
    (A.relabel f g sketch).remove (f name) = (A.remove name).relabel f g sketch := by
  have hseg : ∀ l : List (Tracked ν γ), (∀ e ∈ l, e ∈ A.entries) →
      Tracked.without (f name) (l.map (Tracked.relabel f g)) =
        (Tracked.without name l).map (Tracked.relabel f g) :=
    fun l hl => (Tracked.filter_relabel fun e he => hf e (hl e he)).1
  simp only [remove, relabel]
  rw [hseg A.window (by simp +contextual [entries]),
    hseg A.probation (by simp +contextual [entries]),
    hseg A.protectedSeg (by simp +contextual [entries])]

end Named

section Sketch

variable [FrequencySketch σ γ] [FrequencySketch σ' γ']
  (hest : ∀ t, FrequencySketch.estimate sketch (g t) = FrequencySketch.estimate A.sketch t)

include hest

theorem relabel_admits (e : Tracked ν γ) :
    (A.relabel f g sketch).admits (e.relabel f g) = A.admits e := by
  have htotal : ∀ l : List (Tracked ν γ),
      total Tracked.cost (l.map (Tracked.relabel f g)) = total Tracked.cost l :=
    total_map fun _ => rfl
  simp only [admits, mainCost, relabel, htotal, List.head?_map]
  congr 1
  cases A.probation.head? with
  | some v => simp [Tracked.relabel, hest]
  | none =>
    cases A.protectedSeg.head? with
    | some v => simp [Tracked.relabel, hest]
    | none => rfl

theorem relabel_settle (w : List (Tracked ν γ)) :
    (A.relabel f g sketch).settle (w.map (Tracked.relabel f g)) =
      ((A.settle w).1.map (Tracked.relabel f g), (A.settle w).2.relabel f g sketch) := by
  induction w generalizing A with
  | nil => rfl
  | cons e rest ih =>
    have htotal : total Tracked.cost ((e :: rest).map (Tracked.relabel f g)) =
        total Tracked.cost (e :: rest) := total_map (fun _ => rfl) _
    have hadm := relabel_admits (f := f) hest e
    rw [map_cons] at htotal ⊢
    rw [settle, settle, htotal, hadm]
    have htarget : (A.relabel f g sketch).windowTarget = A.windowTarget := rfl
    rw [htarget]
    split_ifs
    · have hin := ih (A := { A with probation := A.probation ++ [e] }) hest
      simpa [relabel] using hin
    · rw [ih hest]
      rfl
    · rfl

omit hest in
theorem relabel_admitEntry {tag : γ} {cost : UInt64} (f' : ν → ν')
    (hf : ∀ e ∈ A.entries, f e.name = f' e.name)
    (hest : ∀ t, FrequencySketch.estimate (FrequencySketch.increment sketch (g tag)) (g t) =
      FrequencySketch.estimate (FrequencySketch.increment A.sketch tag) t) :
    (A.relabel f g sketch).admitEntry (f' name) (g tag) cost =
      ((A.admitEntry name tag cost).1.map (Tracked.relabel f' g),
        (A.admitEntry name tag cost).2.relabel f' g
          (FrequencySketch.increment sketch (g tag))) := by
  have hmap : ∀ l : List (Tracked ν γ), (∀ e ∈ l, e ∈ A.entries) →
      l.map (Tracked.relabel f g) = l.map (Tracked.relabel f' g) := by
    intro l hl
    refine map_congr_left fun e he => ?_
    rw [Tracked.relabel, Tracked.relabel, hf e (hl e he)]
  have hcount : (A.relabel f g sketch).count (g tag) =
      (A.count tag).relabel f' g (FrequencySketch.increment sketch (g tag)) := by
    simp only [count, relabel]
    rw [hmap A.window (by simp +contextual [entries]),
      hmap A.probation (by simp +contextual [entries]),
      hmap A.protectedSeg (by simp +contextual [entries])]
  have hwindow : (A.relabel f g sketch).window ++ [(⟨f' name, g tag, cost⟩ : Tracked ν' γ')] =
      (A.window ++ [(⟨name, tag, cost⟩ : Tracked ν γ)]).map (Tracked.relabel f' g) := by
    simp only [relabel, map_append]
    rw [hmap A.window (by simp +contextual [entries])]
    rfl
  rw [admitEntry, admitEntry, hcount, hwindow]
  exact relabel_settle (A := A.count tag) hest _

end Sketch

end TinyQueue

end Relabel

/-! ### The two policies and their driver -/

/-- The key policy, the node policy, and the node and the cost of each resident key. -/
structure TinyPair (K : Type*) where
  byKey : TinyLfu K
  byNode : HTinyLfu
  table : K → Option (NodeId × UInt64)

namespace TinyPair

variable {K : Type*} (hash : K → UInt64)

/-- Two empty policies for `capacity` cost units. -/
def new (capacity : UInt64) : TinyPair K :=
  ⟨.withSketchHasher capacity hash, .new capacity, fun _ => none⟩

def node (p : TinyPair K) (key : K) : NodeId := (p.table key).elim ⟨0, 0⟩ (·.1)

def tableWithout (t : K → Option (NodeId × UInt64)) (out : List Victim) :
    K → Option (NodeId × UInt64) :=
  fun key => (t key).filter fun r => r.1 ∉ out.map (·.2)

variable [DecidableEq K]

/-- A call on both policies. The node policy is called as a shard calls it: by the node of a
resident key, and by hash for a new one. A read is a hit, of a resident key at its cost. -/
def step (p : TinyPair K) : PolicyOp K → TinyPair K
  | .insert key cost =>
    match p.table key with
    | some r =>
      { byKey := (p.byKey.onAdmit key cost).2
        byNode := p.byNode.update r.1 cost
        table := update p.table key (some (r.1, cost)) }
    | none =>
      let r := p.byNode.admitKey (hash key) cost []
      { byKey := (p.byKey.onAdmit key cost).2
        byNode := r.2.1
        table := tableWithout (update p.table key (some (r.1, cost))) r.2.2 }
  | .access key =>
    match p.table key with
    | some r => { p with
        byKey := p.byKey.onAccess key r.2
        byNode := p.byNode.touchNode r.1 }
    | none => p
  | .remove key =>
    { byKey := p.byKey.onRemove key
      byNode := (p.table key).elim p.byNode fun r => p.byNode.remove r.1
      table := update p.table key none }
  | .evict costToFree =>
    let r := p.byNode.evictNodes costToFree []
    { byKey := (p.byKey.evict costToFree).2
      byNode := r.1
      table := tableWithout p.table r.2 }
  | .clear => ⟨p.byKey.clear, p.byNode.clear, fun _ => none⟩

/-- Every call of a sequence meets `C` in the state it is made in. -/
def Along (C : TinyPair K → PolicyOp K → Prop) : TinyPair K → List (PolicyOp K) → Prop
  | _, [] => True
  | p, op :: ops => C p op ∧ Along C (p.step hash op) ops

theorem Along.last {C : TinyPair K → PolicyOp K → Prop} {p : TinyPair K} {ops : List (PolicyOp K)}
    {op : PolicyOp K} (h : Along hash C p (ops ++ [op])) : C (ops.foldl (step hash) p) op := by
  induction ops generalizing p with
  | nil => exact h.1
  | cons o ops ih => exact ih h.2

instance decidableAlong {C : TinyPair K → PolicyOp K → Prop} [∀ p op, Decidable (C p op)] :
    ∀ (p : TinyPair K) (ops : List (PolicyOp K)), Decidable (Along hash C p ops)
  | _, [] => inferInstanceAs (Decidable True)
  | p, op :: ops => @instDecidableAnd _ _ _ (decidableAlong (p.step hash op) ops)

omit [DecidableEq K] in
def SameCost (p : TinyPair K) : PolicyOp K → Prop
  | .insert key cost => (p.table key).all (·.2 = cost)
  | _ => True

instance : ∀ (p : TinyPair K) op, Decidable (p.SameCost op)
  | p, .insert key cost => inferInstanceAs (Decidable ((p.table key).all (·.2 = cost)))
  | _, .access _ | _, .remove _ | _, .evict _ | _, .clear => inferInstanceAs (Decidable True)

omit [DecidableEq K] in
/-- No counter of the node policy's sketch is at its limit. -/
def Unsaturated (p : TinyPair K) : Prop :=
  ∀ row i, p.byNode.sketch.counters row i < Sketch.counterMax

omit [DecidableEq K] in
/-- What the two policies are compared under: counters below saturation, and constant costs. -/
def Premise (p : TinyPair K) (op : PolicyOp K) : Prop := p.Unsaturated ∧ p.SameCost op

omit [DecidableEq K] in
def trackedCost (p : TinyPair K) : ℕ :=
  totalNat Prod.snd
    (p.byKey.window.fromTail ++ p.byKey.main.probationary.fromTail ++
      p.byKey.main.protectedList.fromTail)

omit [DecidableEq K] in
/-- The tracked costs and that of a new key add up to less than `2 ^ 64`. -/
def Fits (p : TinyPair K) : PolicyOp K → Prop
  | .insert key cost => p.table key = none → p.trackedCost + cost.toNat < 2 ^ 64
  | _ => True

instance : ∀ (p : TinyPair K) op, Decidable (p.Fits op)
  | p, .insert key cost =>
    inferInstanceAs (Decidable (p.table key = none → p.trackedCost + cost.toNat < 2 ^ 64))
  | _, .access _ | _, .remove _ | _, .evict _ | _, .clear => inferInstanceAs (Decidable True)

omit [DecidableEq K] in
def SameOrders (p : TinyPair K) : Prop :=
  p.byNode.segment HTinyLfu.WINDOW = p.byKey.window.fromTail.map (fun e => (hash e.1, p.node e.1)) ∧
    p.byNode.segment HTinyLfu.PROBATION =
      p.byKey.main.probationary.fromTail.map (fun e => (hash e.1, p.node e.1)) ∧
    p.byNode.segment HTinyLfu.PROTECTED =
      p.byKey.main.protectedList.fromTail.map (fun e => (hash e.1, p.node e.1))

/-- The policies answer a call alike: the same keys are rejected from the window or evicted. -/
def SameResult (p : TinyPair K) : PolicyOp K → Prop
  | .insert key cost =>
    match p.table key with
    | some _ => (p.byKey.onAdmit key cost).1 = .admitted
    | none =>
      let r := p.byNode.admitKey (hash key) cost []
      ∃ rejected : List K,
        (p.byKey.onAdmit key cost).1 =
            (if rejected = [] then .admitted else .admitAndEvict rejected) ∧
          r.2.2 = rejected.map fun k => (hash k, update p.node key r.1 k)
  | .evict c =>
    (p.byNode.evictNodes c []).2 = (p.byKey.evict c).1.1.map fun k => (hash k, p.node k)
  | _ => True

/-- The policies are in step at a call: same orders before and after it, same answer. -/
def InStep (p : TinyPair K) (op : PolicyOp K) : Prop :=
  p.SameOrders hash ∧ p.SameResult hash op ∧ (p.step hash op).SameOrders hash

/-! ### What the table records -/

omit [DecidableEq K] in
/-- The table has the node, by `f`, and the cost of each entry of `l`. -/
def Records (t : K → Option (NodeId × UInt64)) (f : K → NodeId) (l : List (Tracked K K)) : Prop :=
  ∀ key n c, t key = some (n, c) ↔ n = f key ∧ ∃ e ∈ l, e.name = key ∧ e.cost = c

namespace Records

variable {t : K → Option (NodeId × UInt64)} {f : K → NodeId} {l l' V R : List (Tracked K K)} {key : K}

omit [DecidableEq K]

theorem of_perm (h : Records t f l) (hl : l'.Perm l) : Records t f l' := by
  intro key n c
  simp only [h key n c, hl.mem_iff]

theorem of_some (h : Records t f l) {r : NodeId × UInt64} (hr : t key = some r) :
    r.1 = f key ∧ ∃ e ∈ l, e.name = key ∧ e.cost = r.2 := (h key r.1 r.2).mp hr

theorem of_mem (h : Records t f l) {e : Tracked K K} (he : e ∈ l) :
    t e.name = some (f e.name, e.cost) := (h e.name _ _).mpr ⟨rfl, e, he, rfl, rfl⟩

theorem of_none (h : Records t f l) (hn : t key = none) : key ∉ l.map (·.name) := by
  intro hmem
  obtain ⟨e, he, rfl⟩ := mem_map.mp hmem
  simp [h.of_mem he] at hn

theorem without (h : Records t f l) (hnd : (l.map fun e => f e.name).Nodup)
    (hperm : l.Perm (V ++ R)) {out : List Victim}
    (hout : out.map (·.2) = V.map fun e => f e.name) : Records (tableWithout t out) f R := by
  intro key n c
  have hfilter : tableWithout t out key = some (n, c) ↔
      t key = some (n, c) ∧ n ∉ V.map fun e => f e.name := by
    rw [tableWithout, Option.filter_eq_some_iff, hout]
    simp
  rw [hfilter, h key n c]
  have hdisj := (hperm.map fun e => f e.name).nodup_iff.mp hnd
  rw [map_append, nodup_append] at hdisj
  constructor
  · rintro ⟨⟨rfl, e, he, rfl, rfl⟩, hnot⟩
    rcases mem_append.mp (hperm.mem_iff.mp he) with hV | hR
    · exact absurd (mem_map_of_mem (f := fun e : Tracked K K => f e.name) hV) hnot
    · exact ⟨rfl, e, hR, rfl, rfl⟩
  · rintro ⟨rfl, e, he, rfl, rfl⟩
    refine ⟨⟨rfl, e, hperm.mem_iff.mpr (mem_append_right _ he), rfl, rfl⟩, ?_⟩
    intro hV
    exact hdisj.2.2 _ hV _ (mem_map_of_mem he) rfl

variable [DecidableEq K]

theorem insert (h : Records t f l) (hk : key ∉ l.map (·.name)) (n : NodeId) (cost : UInt64) :
    Records (update t key (some (n, cost))) (update f key n)
      (⟨key, key, cost⟩ :: l) := by
  intro k n' c
  by_cases hkk : k = key
  · subst hkk
    simp only [update_self, Option.some.injEq, Prod.mk.injEq, mem_cons]
    constructor
    · rintro ⟨rfl, rfl⟩
      exact ⟨rfl, _, .inl rfl, rfl, rfl⟩
    · rintro ⟨rfl, e, rfl | he, hname, rfl⟩
      · exact ⟨rfl, rfl⟩
      · exact absurd (hname ▸ mem_map_of_mem he) hk
  · rw [update_of_ne hkk, update_of_ne hkk, h k n' c]
    constructor
    · rintro ⟨rfl, e, he, hname, rfl⟩
      exact ⟨rfl, e, mem_cons_of_mem _ he, hname, rfl⟩
    · rintro ⟨rfl, e, he, hname, rfl⟩
      rcases mem_cons.mp he with rfl | he
      · exact absurd hname.symm hkk
      · exact ⟨rfl, e, he, hname, rfl⟩

theorem remove (h : Records t f l) (key : K) :
    Records (update t key none) f (Tracked.without key l) := by
  intro k n c
  by_cases hkk : k = key
  · subst hkk
    simp only [update_self, reduceCtorEq, false_iff, Tracked.without, mem_filter]
    rintro ⟨-, e, ⟨-, hne⟩, heq, -⟩
    simp [heq] at hne
  · rw [update_of_ne hkk, h k n c]
    simp only [Tracked.without, mem_filter]
    constructor
    · rintro ⟨rfl, e, he, rfl, rfl⟩
      exact ⟨rfl, e, ⟨he, by simpa using hkk⟩, rfl, rfl⟩
    · rintro ⟨rfl, e, ⟨he, -⟩, rfl, rfl⟩
      exact ⟨rfl, e, he, rfl, rfl⟩

end Records

/-! ### What holds after every call -/

/-- Both policies store the segments `A`, the one by key and the other by node and hash, with
sketches that counted alike, the window is within its target, and the driver has the nodes and
the costs of exactly the keys in them. -/
structure AgreeAt (p : TinyPair K) (A : TinyQueue K K (CountMinSketch K)) (f : K → NodeId)
    (sk : Sketch) : Prop where
  byKey : p.byKey.Refines A
  byNode : p.byNode.Refines (A.relabel f hash sk)
  sketch : sk.Agrees hash A.sketch
  table : Records p.table f A.entries
  window_le : total Tracked.cost A.window ≤ A.windowTarget

variable {hash} {p : TinyPair K} {A : TinyQueue K K (CountMinSketch K)} {f : K → NodeId}
  {sk : Sketch} {key : K}

theorem agreeAt_new (hash : K → UInt64) (capacity : UInt64) : ∃ f sk,
    AgreeAt hash (new hash capacity) (TinyLfu.emptyQueue capacity hash) f sk := by
  refine ⟨fun _ => ⟨0, 0⟩, (HTinyLfu.new capacity).sketch, TinyLfu.refines_new capacity hash,
    HTinyLfu.refines_new capacity, Sketch.agrees_new hash _, ?_, ?_⟩
  · intro key n c
    simp [new, TinyLfu.emptyQueue, TinyQueue.entries]
  · simp [TinyLfu.emptyQueue]

namespace AgreeAt

theorem nodup_nodes (h : p.AgreeAt hash A f sk) : (A.entries.map fun e => f e.name).Nodup := by
  have hnd := h.byNode.nodup_names
  rwa [TinyQueue.entries_relabel, map_map] at hnd

theorem node_inj (h : p.AgreeAt hash A f sk) {e : Tracked K K} (he : e ∈ A.entries) :
    ∀ d ∈ A.entries, f d.name = f e.name → d.name = e.name := by
  intro d hd heq
  rw [inj_on_of_nodup_map h.nodup_nodes hd he heq]

theorem node_eq (h : p.AgreeAt hash A f sk) {e : Tracked K K} (he : e ∈ A.entries) :
    p.node e.name = f e.name := by
  simp [node, h.table.of_mem he]

theorem tag_eq (h : p.AgreeAt hash A f sk) {e : Tracked K K} (he : e ∈ A.entries) :
    e.tag = e.name := by
  rw [TinyQueue.entries, append_assoc, mem_append, mem_append] at he
  rcases he with he | he | he
  · exact h.byKey.window.tag he
  · exact h.byKey.main.probationary.tag he
  · exact h.byKey.main.protectedList.tag he

theorem unsaturated (h : p.AgreeAt hash A f sk) {op : PolicyOp K} (hp : p.Premise op) :
    ∀ row i, sk.counters row i < Sketch.counterMax := by
  have hsk : sk = p.byNode.sketch := h.byNode.sketch
  rw [hsk]
  exact hp.1

theorem touched (h : p.AgreeAt hash A f sk) {e : Tracked K K} (he : e ∈ A.entries)
    (hsat : ∀ row i, sk.counters row i < Sketch.counterMax) {k : TinyLfu K} {n : HTinyLfu}
    (hk : k.Refines ((A.count e.name).touch e.name))
    (hn : n.Refines (((A.relabel f hash sk).count (hash e.name)).touch (f e.name))) :
    AgreeAt hash { p with byKey := k, byNode := n } ((A.count e.name).touch e.name) f
      (sk.increment (hash e.name)) := by
  have hrel : ((A.relabel f hash sk).count (hash e.name)).touch (f e.name) =
      ((A.count e.name).touch e.name).relabel f hash (sk.increment (hash e.name)) :=
    TinyQueue.relabel_touch (A := A.count e.name) (h.node_inj he)
  have hsketch : ((A.count e.name).touch e.name).sketch = A.sketch.increment e.name :=
    TinyQueue.touch_sketch _ _
  rw [hrel] at hn
  refine ⟨hk, hn, ?_, h.table.of_perm (TinyQueue.touch_perm _ _), ?_⟩
  · rw [hsketch]
    exact h.sketch.increment hsat e.name
  · rw [total_perm _ (TinyQueue.touch_window_perm _ _), TinyQueue.touch_windowTarget]
    exact h.window_le

theorem read_node (h : p.AgreeAt hash A f sk) {e : Tracked K K} (he : e ∈ A.entries) :
    (A.relabel f hash sk).read (f e.name) =
      ((A.relabel f hash sk).count (hash e.name)).touch (f e.name) := by
  have hmem : e.relabel f hash ∈ (A.relabel f hash sk).entries := by
    rw [TinyQueue.entries_relabel]
    exact mem_map_of_mem he
  have hread := TinyQueue.read_of_mem h.byNode.nodup_names hmem
  simpa [Tracked.relabel, h.tag_eq he] using hread

theorem access (h : p.AgreeAt hash A f sk) (hp : p.Premise (.access key)) :
    ∃ A' sk', AgreeAt hash (p.step hash (.access key)) A' f sk' := by
  cases hr : p.table key with
  | none =>
    simp only [step, hr]
    exact ⟨A, sk, h⟩
  | some r =>
    obtain ⟨hnode, e, he, rfl, hcost⟩ := h.table.of_some hr
    have hn := h.byNode.touchNode r.1
    rw [hnode, h.read_node he] at hn
    simp only [step, hr]
    rw [hnode, ← hcost]
    exact ⟨_, _, h.touched he (h.unsaturated hp) (h.byKey.onAccess he) hn⟩

theorem insert_resident (h : p.AgreeAt hash A f sk) {cost : UInt64} {r : NodeId × UInt64}
    (hr : p.table key = some r) (hp : p.Premise (.insert key cost)) :
    p.SameResult hash (.insert key cost) ∧
      ∃ A' sk', AgreeAt hash (p.step hash (.insert key cost)) A' f sk' := by
  obtain ⟨hnode, e, he, rfl, hcost⟩ := h.table.of_some hr
  have hsame : r.2 = cost := by simpa [SameCost, hr] using hp.2
  have hself : update p.table e.name (some (r.1, r.2)) = p.table := by
    rw [Prod.mk.eta, ← hr, update_eq_self]
  obtain ⟨hdecision, hk⟩ := h.byKey.onAdmit_resident he h.window_le
  -- the update changes no cost, so it is a read
  have hn := h.byNode.update r.1 r.2
  have hmem : e.relabel f hash ∈ (A.relabel f hash sk).entries := by
    rw [TinyQueue.entries_relabel]
    exact mem_map_of_mem he
  have hupdate := TinyQueue.update_of_mem h.byNode.nodup_names hmem
  simp only [Tracked.relabel, h.tag_eq he] at hupdate
  rw [hnode, ← hcost, hupdate] at hn
  rw [hcost, hsame] at hdecision
  refine ⟨by simpa [SameResult, hr] using hdecision, ?_⟩
  simp only [step, hr, ← hsame, hself]
  rw [hnode, ← hcost]
  exact ⟨_, _, h.touched he (h.unsaturated hp) hk hn⟩

theorem insert_fresh (h : p.AgreeAt hash A f sk) {cost : UInt64} (hr : p.table key = none)
    (hp : p.Premise (.insert key cost))
    (hlt : totalNat Tracked.cost A.entries + cost.toNat < 2 ^ 64) :
    p.SameResult hash (.insert key cost) ∧
      ∃ A' f' sk', AgreeAt hash (p.step hash (.insert key cost)) A' f' sk' := by
  have hfresh := h.table.of_none hr
  obtain ⟨hdecision, hk⟩ := h.byKey.onAdmit_fresh hfresh hlt
  obtain ⟨hn, hout⟩ := h.byNode.admitKey (hash key) cost []
  have hnew := h.byNode.admitKey_fresh (hash key) cost []
  set n := (p.byNode.admitKey (hash key) cost []).1 with hndef
  set f' := update f key n with hf'
  have hsk := h.sketch.increment (h.unsaturated hp) key
  have hold : ∀ e ∈ A.entries, f e.name = f' e.name := by
    intro e he
    have hne : e.name ≠ key := fun heq => hfresh (heq ▸ mem_map_of_mem he)
    rw [hf', update_of_ne hne]
  -- the node policy admits the same entry, under its node
  have hself : f' key = n := update_self ..
  have hrel : (A.relabel f hash sk).admitEntry n (hash key) cost =
      ((A.admitEntry key key cost).1.map (Tracked.relabel f' hash),
        (A.admitEntry key key cost).2.relabel f' hash (sk.increment (hash key))) := by
    rw [← hself]
    exact TinyQueue.relabel_admitEntry f' hold hsk.estimate
  rw [hrel] at hn hout
  have hperm := A.admitEntry_perm key key cost
  -- the nodes of the entries and of the new one differ
  have hnodes : (((⟨key, key, cost⟩ : Tracked K K) :: A.entries).map fun e => f' e.name).Nodup := by
    have hmap : A.entries.map (fun e => f' e.name) = A.entries.map fun e => f e.name :=
      map_congr_left fun e he => (hold e he).symm
    rw [map_cons, hmap, nodup_cons, hself]
    refine ⟨?_, h.nodup_nodes⟩
    rwa [TinyQueue.entries_relabel, map_map] at hnew
  have hvictims : (p.byNode.admitKey (hash key) cost []).2.2 =
      ((A.admitEntry key key cost).1.map (·.name)).map fun k => (hash k, f' k) := by
    rw [hout, nil_append, map_map, map_map]
    refine map_congr_left fun e he => ?_
    have htag : e.tag = e.name := by
      rcases mem_cons.mp (hperm.mem_iff.mpr (mem_append_left _ he)) with rfl | he
      · rfl
      · exact h.tag_eq he
    simp [Tracked.relabel, htag]
  refine ⟨?_, (A.admitEntry key key cost).2, f', sk.increment (hash key), ⟨?_, ?_, ?_, ?_, ?_⟩⟩
  · simp only [SameResult, hr]
    refine ⟨(A.admitEntry key key cost).1.map (·.name), by simpa using hdecision, ?_⟩
    rw [hvictims]
    refine map_congr_left fun k hk => ?_
    obtain ⟨e, he, rfl⟩ := mem_map.mp hk
    by_cases hkk : e.name = key
    · rw [hkk, update_self, hself]
    · rcases mem_cons.mp (hperm.mem_iff.mpr (mem_append_left _ he)) with rfl | he
      · exact absurd rfl hkk
      · rw [update_of_ne hkk, h.node_eq he, hold e he]
  · simpa only [step, hr] using hk
  · simp only [step, hr]
    exact hn
  · rw [TinyQueue.admitEntry_sketch]
    exact hsk
  · simp only [step, hr]
    refine (h.table.insert hfresh n cost).without hnodes hperm ?_
    rw [hvictims, map_map, map_map]
    rfl
  · rw [TinyQueue.admitEntry, TinyQueue.settle_windowTarget]
    exact TinyQueue.window_settle_le _ _

theorem remove (h : p.AgreeAt hash A f sk) (key : K) :
    AgreeAt hash (p.step hash (.remove key)) (A.remove key) f sk := by
  refine ⟨h.byKey.onRemove key, ?_, h.sketch, ?_, ?_⟩
  · change HTinyLfu.Refines ((p.table key).elim p.byNode fun r => p.byNode.remove r.1) _
    cases hr : p.table key with
    | none =>
      have hnot := h.table.of_none hr
      rw [TinyQueue.remove_of_not_mem hnot]
      exact h.byNode
    | some r =>
      obtain ⟨hnode, e, he, rfl, -⟩ := h.table.of_some hr
      have hn := h.byNode.remove (f e.name)
      rw [TinyQueue.relabel_remove (h.node_inj he), ← hnode] at hn
      exact hn
  · rw [TinyQueue.remove_entries]
    exact h.table.remove key
  · refine UInt64.le_trans ?_ h.window_le
    exact total_le_of_sublist h.byKey.sound_window.cost_lt filter_sublist

theorem evict (h : p.AgreeAt hash A f sk) (c : UInt64) :
    p.SameResult hash (.evict c) ∧
      AgreeAt hash (p.step hash (.evict c)) (A.evict c).2 f sk := by
  obtain ⟨hkeys, hk⟩ := h.byKey.evict c
  obtain ⟨hn, hout⟩ := h.byNode.evictNodes c []
  rw [TinyQueue.relabel_evict] at hn hout
  have hperm := A.evict_perm c
  have hmem : ∀ e ∈ (A.evict c).1, e ∈ A.entries :=
    fun e he => hperm.mem_iff.mpr (mem_append_left _ he)
  have hvictims : (p.byNode.evictNodes c []).2 = (A.evict c).1.map fun e => (hash e.name, f e.name) := by
    rw [hout, nil_append, map_map]
    refine map_congr_left fun e he => ?_
    simp [Tracked.relabel, h.tag_eq (hmem e he)]
  refine ⟨?_, hk, hn, h.sketch, ?_, h.window_le⟩
  · simp only [SameResult]
    rw [hvictims, hkeys, map_map]
    refine map_congr_left fun e he => ?_
    simp [h.node_eq (hmem e he)]
  · refine h.table.without h.nodup_nodes hperm ?_
    rw [hvictims, map_map]
    rfl

theorem clear (h : p.AgreeAt hash A f sk) : ∃ A', AgreeAt hash (p.step hash .clear) A' f sk.clear := by
  have hn := h.byNode.clear
  rw [← h.byNode.sketch] at hn
  refine ⟨_, h.byKey.clear, hn, h.sketch.clear, ?_, ?_⟩
  · intro key n c
    simp [step, TinyQueue.entries]
  · simp

theorem trackedCost (h : p.AgreeAt hash A f sk) :
    p.trackedCost = totalNat Tracked.cost A.entries := by
  rw [TinyPair.trackedCost, h.byKey.window.fromTail, h.byKey.main.probationary.fromTail,
    h.byKey.main.protectedList.fromTail, ← map_append, ← map_append, totalNat_map]
  rfl

theorem sameOrders (h : p.AgreeAt hash A f sk) : p.SameOrders hash := by
  have hmap : ∀ l : List (Tracked K K), (∀ e ∈ l, e ∈ A.entries) →
      (l.map (Tracked.relabel f hash)).map (fun e => (e.tag, e.name)) =
        (l.map fun e => (e.name, e.cost)).map fun e => (hash e.1, p.node e.1) := by
    intro l hl
    rw [map_map, map_map]
    refine map_congr_left fun e he => ?_
    simp [Tracked.relabel, h.tag_eq (hl e he), h.node_eq (hl e he)]
  refine ⟨?_, ?_, ?_⟩
  · rw [h.byNode.segment, h.byKey.window.fromTail]
    exact hmap A.window (by simp +contextual [TinyQueue.entries])
  · rw [h.byNode.segment, h.byKey.main.probationary.fromTail]
    exact hmap A.probation (by simp +contextual [TinyQueue.entries])
  · rw [h.byNode.segment, h.byKey.main.protectedList.fromTail]
    exact hmap A.protectedSeg (by simp +contextual [TinyQueue.entries])

/-- One call that fits: the same answer, and the policies still agree. -/
theorem step (h : p.AgreeAt hash A f sk) (op : PolicyOp K) (hp : p.Premise op) (hfit : p.Fits op) :
    p.SameResult hash op ∧ ∃ A' f' sk', AgreeAt hash (p.step hash op) A' f' sk' := by
  cases op with
  | insert key cost =>
    cases hr : p.table key with
    | some r =>
      obtain ⟨hres, A', sk', h'⟩ := h.insert_resident hr hp
      exact ⟨hres, A', f, sk', h'⟩
    | none =>
      refine h.insert_fresh hr hp ?_
      rw [← h.trackedCost]
      exact hfit hr
  | access key =>
    obtain ⟨A', sk', h'⟩ := h.access hp
    exact ⟨trivial, A', f, sk', h'⟩
  | remove key => exact ⟨trivial, _, f, sk, h.remove key⟩
  | evict c => exact ⟨(h.evict c).1, _, f, sk, (h.evict c).2⟩
  | clear =>
    obtain ⟨A', h'⟩ := h.clear
    exact ⟨trivial, A', f, _, h'⟩

theorem run (h : p.AgreeAt hash A f sk) (ops : List (PolicyOp K)) (hp : Along hash Premise p ops)
    (hfit : Along hash Fits p ops) : Along hash (InStep hash) p ops := by
  induction ops generalizing p A f sk with
  | nil => trivial
  | cons op ops ih =>
    obtain ⟨hres, A', f', sk', h'⟩ := h.step op hp.1 hfit.1
    exact ⟨⟨h.sameOrders, hres, h'.sameOrders⟩, ih h' hp.2 hfit.2⟩

end AgreeAt

/-! ### How high the counters get -/

/-- The node policy's counters are at most `n`. -/
def CountersLe (p : TinyPair K) (n : ℕ) : Prop :=
  ∃ B, p.byNode.Refines B ∧ ∀ row i, B.sketch.counters row i ≤ n

omit [DecidableEq K] in
theorem countersLe_new (capacity : UInt64) : (new hash capacity).CountersLe 0 :=
  ⟨_, HTinyLfu.refines_new capacity, fun _ _ => le_rfl⟩

/-- A call counts at most one use. -/
theorem CountersLe.step {n : ℕ} (h : p.CountersLe n) (op : PolicyOp K) :
    (p.step hash op).CountersLe (n + 1) := by
  obtain ⟨B, hB, hn⟩ := h
  have hcount : ∀ s : Sketch, (s = B.sketch ∨ ∃ t : UInt64, s = B.sketch.increment t) →
      ∀ row i, s.counters row i ≤ n + 1 := by
    rintro s (rfl | ⟨t, rfl⟩) row i
    · exact (hn row i).trans (Nat.le_succ n)
    · exact B.sketch.counters_increment_le hn t row i
  cases op with
  | insert key cost =>
    cases hr : p.table key with
    | some r =>
      simp only [TinyPair.step, hr]
      exact ⟨_, hB.update r.1 cost, hcount _ (TinyQueue.update_sketch _ _ _)⟩
    | none =>
      simp only [TinyPair.step, hr]
      refine ⟨_, (hB.admitKey (hash key) cost []).1, hcount _ (.inr ⟨hash key, ?_⟩)⟩
      exact TinyQueue.admitEntry_sketch _ _ _ _
  | access key =>
    cases hr : p.table key with
    | some r =>
      simp only [TinyPair.step, hr]
      exact ⟨_, hB.touchNode r.1, hcount _ (TinyQueue.read_sketch _ _)⟩
    | none =>
      simp only [TinyPair.step, hr]
      exact ⟨B, hB, hcount _ (.inl rfl)⟩
  | remove key =>
    simp only [TinyPair.step]
    cases p.table key with
    | some r => exact ⟨_, hB.remove r.1, hcount _ (.inl rfl)⟩
    | none => exact ⟨B, hB, hcount _ (.inl rfl)⟩
  | evict c => exact ⟨_, (hB.evictNodes c []).1, hcount _ (.inl rfl)⟩
  | clear => exact ⟨_, hB.clear, fun _ _ => Nat.zero_le _⟩

theorem CountersLe.premise {n : ℕ} (h : p.CountersLe n) (ops : List (PolicyOp K))
    (hlen : n + ops.length ≤ Sketch.counterMax) (hsame : Along hash SameCost p ops) :
    Along hash Premise p ops := by
  induction ops generalizing p n with
  | nil => trivial
  | cons op ops ih =>
    rw [length_cons] at hlen
    refine ⟨⟨?_, hsame.1⟩, ih (h.step op) (by omega) hsame.2⟩
    obtain ⟨B, hB, hn⟩ := h
    intro row i
    rw [← hB.sketch]
    exact (hn row i).trans_lt (by omega)

/-- In every run whose calls insert a resident key at its cost only, with counters below their
limit, and in which the tracked costs and that of a new key always add up to less than `2 ^ 64`,
the two policies keep the same segment orders, reject the same keys and evict the same victims. -/
theorem inStep_of_fits (hash : K → UInt64) (capacity : UInt64) (ops : List (PolicyOp K))
    (hp : Along hash Premise (new hash capacity) ops)
    (hfit : Along hash Fits (new hash capacity) ops) :
    Along hash (InStep hash) (new hash capacity) ops := by
  obtain ⟨f, sk, h⟩ := agreeAt_new hash capacity
  exact h.run ops hp hfit

/-- Calls that promote a key, insert it again, reject a candidate, evict and remove. -/
def sampleOps : List (PolicyOp UInt64) :=
  [.insert 1 1, .insert 2 9, .access 1, .insert 2 9, .insert 3 8, .evict 4, .insert 4 1, .remove 4]

theorem premise_sampleOps : Along id Premise (new id 10) sampleOps :=
  (countersLe_new 10).premise sampleOps (by decide) (by decide +kernel)

theorem inStep_sampleOps :
    Along id Premise (new id 10) sampleOps ∧ Along id Fits (new id 10) sampleOps ∧
      Along id (InStep id) (new id 10) sampleOps := by
  have hfit : Along id Fits (new id 10) sampleOps := by decide +kernel
  have h := inStep_of_fits id 10 sampleOps premise_sampleOps hfit
  exact ⟨premise_sampleOps, hfit, h⟩

/-- Calls by which the tracked costs reach `2 ^ 64`: once the entry of the largest cost is
removed, the key policy has recorded nothing for the entry left in probation, the node policy its
cost. -/
def wrappingOps : List (PolicyOp UInt64) :=
  [.insert 1 (2 ^ 64 - 1), .insert 2 1, .access 2, .insert 3 1, .remove 1]

theorem not_sameResult_of_reject {hash : K → UInt64} {cost : UInt64} (hr : p.table key = none)
    (hkey : (p.byKey.onAdmit key cost).1 = .admitted)
    (hnode : (p.byNode.admitKey (hash key) cost []).2.2 ≠ []) :
    ¬ p.SameResult hash (.insert key cost) := by
  simp only [SameResult, hr, not_exists, not_and]
  intro rejected hdecision hout
  rw [hkey] at hdecision
  split_ifs at hdecision with hnil
  exact hnode (by rw [hout, hnil, map_nil])

theorem inStep_wrappingOps :
    Along id Premise (new id 10) (wrappingOps ++ [.insert 4 8]) ∧
      ¬ Along id (InStep id) (new id 10) (wrappingOps ++ [.insert 4 8]) := by
  constructor
  · exact (countersLe_new 10).premise _ (by decide) (by decide +kernel)
  · intro h
    have hin := h.last
    generalize hp : wrappingOps.foldl (step id) (new id 10) = p at hin
    refine not_sameResult_of_reject ?_ ?_ ?_ hin.2.1
    · rw [← hp]
      decide +kernel
    · rw [← hp]
      decide +kernel
    · rw [← hp]
      decide +kernel

end TinyPair

end Fibre.Cache
