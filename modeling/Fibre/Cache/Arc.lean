import Fibre.Cache.CostList
import Fibre.Cache.Policy
import Fibre.Cache.Targets

/-!
# The ARC policy

Adaptive replacement: keys seen once in `t1`, keys seen again in `t2`, and for each a list of
keys that left it lately, the ghosts `b1` and `b2`. A hit on a ghost moves the target `p` for
the cost of `t1`. The state is under one lock, so an operation is a function of it; the lists
are any `CostList`, linked in the source.
-/

namespace Fibre.Cache

open Binary64 Word CostList

/-- The state of the policy, and the capacity it was made for. -/
structure Arc (L : Type*) where
  p : UInt64
  t1 : L
  t2 : L
  b1 : L
  b2 : L
  capacity : UInt64

namespace Arc

variable {L L' K : Type*} [CostList L K] [CostList L' K]

/-- An empty policy. -/
def new (capacity : UInt64) : Arc L where
  p := 0
  t1 := CostList.empty
  t2 := CostList.empty
  b1 := CostList.empty
  b2 := CostList.empty
  capacity := capacity

/-- Puts a key on a ghost list, and takes the oldest ghost off if the list is over capacity. -/
def toGhost (capacity : UInt64) (b : L) (key : K) (cost : UInt64) : L :=
  let b := pushFront b key cost
  if currentTotalCost b > capacity then
    match popBack b with
    | none => b
    | some r => r.2
  else b

/-- Whether the next key to be replaced is taken from `t1`. -/
def fromT1 (s : Arc L) (keyInB2 : Bool) : Bool :=
  let t1Cost := currentTotalCost s.t1
  t1Cost > 0 && (t1Cost ≥ s.p || (keyInB2 && t1Cost = s.p))

/-- Moves the oldest key of `t1` or `t2` to its ghost list. -/
def replace (s : Arc L) (keyInB2 : Bool) : Option (K × UInt64) × Arc L :=
  if s.fromT1 keyInB2 then
    match popBack s.t1 with
    | none => (none, s)
    | some ((key, cost), t1) =>
      (some (key, cost), { s with t1 := t1, b1 := toGhost s.capacity s.b1 key cost })
  else
    match popBack s.t2 with
    | none => (none, s)
    | some ((key, cost), t2) =>
      (some (key, cost), { s with t2 := t2, b2 := toGhost s.capacity s.b2 key cost })

theorem replace_cases (s : Arc L) (keyInB2 : Bool) :
    (s.replace keyInB2 = (none, s) ∧
      (s.fromT1 keyInB2 = true → popBack s.t1 = none) ∧
      (s.fromT1 keyInB2 = false → popBack s.t2 = none)) ∨
    (∃ kc t1, s.fromT1 keyInB2 = true ∧ popBack s.t1 = some (kc, t1) ∧
      s.replace keyInB2 =
        (some kc, { s with t1 := t1, b1 := toGhost s.capacity s.b1 kc.1 kc.2 })) ∨
    (∃ kc t2, s.fromT1 keyInB2 = false ∧ popBack s.t2 = some (kc, t2) ∧
      s.replace keyInB2 =
        (some kc, { s with t2 := t2, b2 := toGhost s.capacity s.b2 kc.1 kc.2 })) := by
  cases hfrom : s.fromT1 keyInB2 with
  | true =>
    cases hpop : popBack s.t1 with
    | none => exact .inl ⟨by simp [replace, hfrom, hpop], fun _ => rfl, by simp⟩
    | some r => exact .inr (.inl ⟨r.1, r.2, rfl, rfl, by simp [replace, hfrom, hpop]⟩)
  | false =>
    cases hpop : popBack s.t2 with
    | none => exact .inl ⟨by simp [replace, hfrom, hpop], by simp, fun _ => rfl⟩
    | some r => exact .inr (.inr ⟨r.1, r.2, rfl, rfl, by simp [replace, hfrom, hpop]⟩)

/-- An access moves a key of `t1` to `t2` and refreshes one of `t2`. -/
def onAccess (s : Arc L) (key : K) (cost : UInt64) : Arc L :=
  let r := remove s.t1 key
  if r.1.isSome then { s with t1 := r.2, t2 := pushFront s.t2 key cost }
  else if contains s.t2 key then { s with t2 := pushFront s.t2 key cost }
  else s

/-- By how much a hit on the ghosts `b` moves the target; `other` is the other ghost list. -/
def delta (b other : L) : UInt64 :=
  let bCost := currentTotalCost b
  let otherCost := currentTotalCost other
  max (if bCost > 0 ∧ otherCost > bCost then
      toUInt64 (roundHalfUp (Binary64.round (ofUInt64 otherCost / ofUInt64 bCost)))
    else 1) 1

/-- Takes a key off the ghost lists and moves the target; also whether it was on `b2`. -/
def adapt (s : Arc L) (key : K) : Bool × Arc L :=
  let r := remove s.b1 key
  if r.1.isSome then
    let s := { s with b1 := r.2 }
    (false, { s with p := min (s.p + delta s.b1 s.b2) s.capacity })
  else
    let r := remove s.b2 key
    if r.1.isSome then
      let s := { s with b2 := r.2 }
      (true, { s with p := satSub s.p (delta s.b2 s.b1) })
    else (false, s)

theorem adapt_cases (s : Arc L) (key : K) :
    ((remove s.b1 key).1.isSome = true ∧ ∃ p ≤ s.capacity,
      s.adapt key = (false, { s with p := p, b1 := (remove s.b1 key).2 })) ∨
    ((remove s.b1 key).1.isSome = false ∧ (remove s.b2 key).1.isSome = true ∧ ∃ p ≤ s.p,
      s.adapt key = (true, { s with p := p, b2 := (remove s.b2 key).2 })) ∨
    ((remove s.b1 key).1.isSome = false ∧ (remove s.b2 key).1.isSome = false ∧
      s.adapt key = (false, s)) := by
  cases hb₁ : (remove s.b1 key).1.isSome with
  | true =>
    refine .inl ⟨rfl, _, ?_, by rw [adapt, if_pos hb₁]⟩
    exact UInt64.le_iff_toNat_le.mpr (toNat_min _ _ ▸ min_le_right _ _)
  | false =>
    cases hb₂ : (remove s.b2 key).1.isSome with
    | true =>
      refine .inr (.inl ⟨rfl, rfl, _, ?_, by rw [adapt, if_neg (by simp [hb₁]), if_pos hb₂]⟩)
      rw [UInt64.le_iff_toNat_le, toNat_satSub]
      exact Nat.sub_le _ _
    | false => exact .inr (.inr ⟨rfl, rfl, by simp [adapt, hb₁, hb₂]⟩)

/-- Whether an admission has to replace a key first. -/
def full (s : Arc L) : Bool := currentTotalCost s.t1 + currentTotalCost s.t2 ≥ s.capacity

def makeRoom (s : Arc L) (key : K) : Arc L :=
  let a := s.adapt key
  if a.2.full then (a.2.replace a.1).2 else a.2

/-- A key that is tracked counts as accessed, another one goes to `t1`. -/
def onAdmit (s : Arc L) (key : K) (cost : UInt64) : Arc L :=
  let r := remove s.t1 key
  if r.1.isSome then { s with t1 := r.2, t2 := pushFront s.t2 key cost }
  else if contains s.t2 key then { s with t2 := pushFront s.t2 key cost }
  else
    let s := s.makeRoom key
    { s with t1 := pushFront s.t1 key cost }

/-- Forgets a key, wherever it is. -/
def onRemove (s : Arc L) (key : K) : Arc L :=
  let r := remove s.t1 key
  if r.1.isSome then { s with t1 := r.2 } else
  let r := remove s.t2 key
  if r.1.isSome then { s with t2 := r.2 } else
  let r := remove s.b1 key
  if r.1.isSome then { s with b1 := r.2 } else
  { s with b2 := (remove s.b2 key).2 }

/-- Whether the tail of `t1` is on `b2`. -/
def tailInB2 (s : Arc L) : Bool :=
  match tailKey s.t1 with
  | none => false
  | some k => contains s.b2 k

/-- The eviction loop, for at most `fuel` turns. -/
def evictLoop : ℕ → UInt64 → UInt64 → Arc L → (List K × UInt64) × Arc L
  | 0, _, freed, s => (([], freed), s)
  | fuel + 1, costToFree, freed, s =>
    if freed < costToFree then
      match s.replace s.tailInB2 with
      | (none, s) => (([], freed), s)
      | (some (key, cost), s) =>
        let r := evictLoop fuel costToFree (freed + cost) s
        ((key :: r.1.1, r.1.2), r.2)
    else (([], freed), s)

/-- Turns that are enough: each takes a key. -/
def evictTurns (s : Arc L) : ℕ := (entries s.t1).length + (entries s.t2).length

/-- Evicts until `costToFree` is released or nothing can be replaced. Returns the victims and
the cost released. -/
def evict (s : Arc L) (costToFree : UInt64) : (List K × UInt64) × Arc L :=
  evictLoop s.evictTurns costToFree 0 s

/-- Forgets everything. -/
def clear (s : Arc L) : Arc L :=
  { s with
    p := 0
    t1 := CostList.clear s.t1
    t2 := CostList.clear s.t2
    b1 := CostList.clear s.b1
    b2 := CostList.clear s.b2 }

instance : CachePolicy (Arc L) K where
  onAccess := onAccess
  onAdmit s key cost := (.admitted, s.onAdmit key cost)
  onRemove := onRemove
  evict := evict
  clear := clear

/-! ### Runs -/

/-- A call of the policy. -/
inductive Op (K : Type*)
  | onAccess (key : K) (cost : UInt64)
  | onAdmit (key : K) (cost : UInt64)
  | onRemove (key : K)
  | evict (costToFree : UInt64)
  | clear
  deriving DecidableEq

/-- The policy after a call. -/
def step (s : Arc L) : Op K → Arc L
  | .onAccess key cost => s.onAccess key cost
  | .onAdmit key cost => s.onAdmit key cost
  | .onRemove key => s.onRemove key
  | .evict costToFree => (s.evict costToFree).2
  | .clear => s.clear

/-- The policy after a sequence of calls. -/
def run (s : Arc L) (ops : List (Op K)) : Arc L := ops.foldl step s

/-! ### The capacity -/

@[simp] theorem replace_capacity (s : Arc L) (keyInB2 : Bool) :
    (s.replace keyInB2).2.capacity = s.capacity := by
  rcases s.replace_cases keyInB2 with ⟨hrep, -⟩ | ⟨kc, t1, -, -, hrep⟩ | ⟨kc, t2, -, -, hrep⟩ <;>
    rw [hrep]

@[simp] theorem adapt_capacity (s : Arc L) (key : K) : (s.adapt key).2.capacity = s.capacity := by
  rcases s.adapt_cases key with ⟨-, p, -, had⟩ | ⟨-, -, p, -, had⟩ | ⟨-, -, had⟩ <;> rw [had]

@[simp] theorem makeRoom_capacity (s : Arc L) (key : K) :
    (s.makeRoom key).capacity = s.capacity := by
  unfold makeRoom
  simp only
  split_ifs <;> simp

@[simp] theorem evictLoop_capacity (fuel : ℕ) (costToFree freed : UInt64) (s : Arc L) :
    (evictLoop fuel costToFree freed s).2.capacity = s.capacity := by
  induction fuel generalizing freed s with
  | zero => rfl
  | succ fuel ih =>
    have hcap := s.replace_capacity s.tailInB2
    unfold evictLoop
    split_ifs
    · cases hout : s.replace s.tailInB2 with
      | mk o s' =>
        rw [hout] at hcap
        cases o with
        | none => exact hcap
        | some kc => exact (ih (freed + kc.2) s').trans hcap
    · rfl

theorem step_capacity (s : Arc L) (op : Op K) : (s.step op).capacity = s.capacity := by
  cases op with
  | onAccess key cost =>
    simp only [step, onAccess]
    split_ifs <;> rfl
  | onAdmit key cost =>
    simp only [step, onAdmit]
    split_ifs <;> simp
  | onRemove key =>
    simp only [step, onRemove]
    split_ifs <;> rfl
  | evict costToFree => exact evictLoop_capacity _ costToFree 0 s
  | clear => rfl

theorem run_capacity (s : Arc L) (ops : List (Op K)) : (s.run ops).capacity = s.capacity := by
  induction ops generalizing s with
  | nil => rfl
  | cons op ops ih => exact (ih (s.step op)).trans (s.step_capacity op)

/-! ### One policy over two kinds of lists -/

/-- The lists of `s` are those of `a`, up to how they are stored. -/
structure Simulates (R : L → L' → Prop) (s : Arc L) (a : Arc L') : Prop where
  p : s.p = a.p
  t1 : R s.t1 a.t1
  t2 : R s.t2 a.t2
  b1 : R s.b1 a.b1
  b2 : R s.b2 a.b2
  capacity : s.capacity = a.capacity

namespace Simulates

variable {R : L → L' → Prop} (hR : CostList.Simulates R)
include hR

theorem new (capacity : UInt64) : Simulates R (Arc.new capacity) (Arc.new capacity) :=
  ⟨rfl, hR.empty, hR.empty, hR.empty, hR.empty, rfl⟩

theorem toGhost (capacity : UInt64) {b : L} {b' : L'} (h : R b b') (key : K) (cost : UInt64) :
    R (Arc.toGhost capacity b key cost) (Arc.toGhost capacity b' key cost) := by
  have hpush := hR.pushFront key cost h
  unfold Arc.toGhost
  simp only [hR.currentTotalCost hpush]
  split_ifs
  · cases hpop : CostList.popBack (CostList.pushFront b' key cost) with
    | none =>
      rw [hR.popBack_none hpush hpop]
      exact hpush
    | some r =>
      obtain ⟨kc, c'⟩ := r
      obtain ⟨l, hl, hRl⟩ := hR.popBack_some hpush hpop
      rw [hl]
      exact hRl
  · exact hpush

variable {s : Arc L} {a : Arc L'} (h : Simulates R s a)
include h

theorem fromT1 (keyInB2 : Bool) : s.fromT1 keyInB2 = a.fromT1 keyInB2 := by
  simp only [Arc.fromT1, hR.currentTotalCost h.t1, h.p]

theorem replace (keyInB2 : Bool) : (s.replace keyInB2).1 = (a.replace keyInB2).1 ∧
    Simulates R (s.replace keyInB2).2 (a.replace keyInB2).2 := by
  unfold Arc.replace
  rw [fromT1 hR h]
  split_ifs
  · cases hpop : CostList.popBack a.t1 with
    | none =>
      rw [hR.popBack_none h.t1 hpop]
      exact ⟨rfl, h⟩
    | some r =>
      obtain ⟨kc, c'⟩ := r
      obtain ⟨l, hl, hRl⟩ := hR.popBack_some h.t1 hpop
      rw [hl]
      exact ⟨rfl, h.p, hRl, h.t2, h.capacity ▸ toGhost hR _ h.b1 _ _, h.b2, h.capacity⟩
  · cases hpop : CostList.popBack a.t2 with
    | none =>
      rw [hR.popBack_none h.t2 hpop]
      exact ⟨rfl, h⟩
    | some r =>
      obtain ⟨kc, c'⟩ := r
      obtain ⟨l, hl, hRl⟩ := hR.popBack_some h.t2 hpop
      rw [hl]
      exact ⟨rfl, h.p, h.t1, hRl, h.b1, h.capacity ▸ toGhost hR _ h.b2 _ _, h.capacity⟩

theorem onAccess (key : K) (cost : UInt64) :
    Simulates R (s.onAccess key cost) (a.onAccess key cost) := by
  obtain ⟨hfst, hrem⟩ := hR.remove key h.t1
  have hpush := hR.pushFront key cost h.t2
  unfold Arc.onAccess
  simp only [hfst, hR.contains key h.t2]
  split_ifs
  · exact ⟨h.p, hrem, hpush, h.b1, h.b2, h.capacity⟩
  · exact ⟨h.p, h.t1, hpush, h.b1, h.b2, h.capacity⟩
  · exact h

omit h in
theorem delta {b o : L} {b' o' : L'} (hb : R b b') (ho : R o o') :
    Arc.delta b o = Arc.delta b' o' := by
  simp only [Arc.delta, hR.currentTotalCost hb, hR.currentTotalCost ho]

theorem adapt (key : K) : (s.adapt key).1 = (a.adapt key).1 ∧
    Simulates R (s.adapt key).2 (a.adapt key).2 := by
  obtain ⟨hfst₁, hrem₁⟩ := hR.remove key h.b1
  obtain ⟨hfst₂, hrem₂⟩ := hR.remove key h.b2
  unfold Arc.adapt
  simp only [hfst₁, hfst₂]
  split_ifs
  · refine ⟨rfl, ?_, h.t1, h.t2, hrem₁, h.b2, h.capacity⟩
    simp only [delta hR hrem₁ h.b2, h.p, h.capacity]
  · refine ⟨rfl, ?_, h.t1, h.t2, h.b1, hrem₂, h.capacity⟩
    simp only [delta hR hrem₂ h.b1, h.p]
  · exact ⟨rfl, h⟩

theorem full : s.full = a.full := by
  simp only [Arc.full, hR.currentTotalCost h.t1, hR.currentTotalCost h.t2, h.capacity]

theorem makeRoom (key : K) : Simulates R (s.makeRoom key) (a.makeRoom key) := by
  obtain ⟨hb2, hadapt⟩ := adapt hR h key
  unfold Arc.makeRoom
  simp only [full hR hadapt, hb2]
  split_ifs
  · exact (replace hR hadapt (a.adapt key).1).2
  · exact hadapt

theorem onAdmit (key : K) (cost : UInt64) :
    Simulates R (s.onAdmit key cost) (a.onAdmit key cost) := by
  obtain ⟨hfst, hrem⟩ := hR.remove key h.t1
  have hpush := hR.pushFront key cost h.t2
  have hroom := makeRoom hR h key
  unfold Arc.onAdmit
  simp only [hfst, hR.contains key h.t2]
  split_ifs
  · exact ⟨h.p, hrem, hpush, h.b1, h.b2, h.capacity⟩
  · exact ⟨h.p, h.t1, hpush, h.b1, h.b2, h.capacity⟩
  · exact ⟨hroom.p, hR.pushFront key cost hroom.t1, hroom.t2, hroom.b1, hroom.b2, hroom.capacity⟩

theorem onRemove (key : K) : Simulates R (s.onRemove key) (a.onRemove key) := by
  obtain ⟨hfst₁, hrem₁⟩ := hR.remove key h.t1
  obtain ⟨hfst₂, hrem₂⟩ := hR.remove key h.t2
  obtain ⟨hfst₃, hrem₃⟩ := hR.remove key h.b1
  obtain ⟨-, hrem₄⟩ := hR.remove key h.b2
  unfold Arc.onRemove
  simp only [hfst₁, hfst₂, hfst₃]
  split_ifs
  · exact ⟨h.p, hrem₁, h.t2, h.b1, h.b2, h.capacity⟩
  · exact ⟨h.p, h.t1, hrem₂, h.b1, h.b2, h.capacity⟩
  · exact ⟨h.p, h.t1, h.t2, hrem₃, h.b2, h.capacity⟩
  · exact ⟨h.p, h.t1, h.t2, h.b1, hrem₄, h.capacity⟩

theorem tailInB2 : s.tailInB2 = a.tailInB2 := by
  unfold Arc.tailInB2
  rw [hR.tailKey h.t1]
  cases CostList.tailKey a.t1 with
  | none => rfl
  | some k => exact hR.contains k h.b2

omit h in
theorem evictLoop (fuel : ℕ) (costToFree freed : UInt64) {s : Arc L} {a : Arc L'}
    (h : Simulates R s a) :
    (Arc.evictLoop fuel costToFree freed s).1 = (Arc.evictLoop fuel costToFree freed a).1 ∧
      Simulates R (Arc.evictLoop fuel costToFree freed s).2
        (Arc.evictLoop fuel costToFree freed a).2 := by
  induction fuel generalizing freed s a with
  | zero => exact ⟨rfl, h⟩
  | succ fuel ih =>
    obtain ⟨hfst, hrep⟩ := replace hR h a.tailInB2
    unfold Arc.evictLoop
    rw [tailInB2 hR h]
    split_ifs
    · cases hs : s.replace a.tailInB2 with
      | mk o s' =>
        cases ha : a.replace a.tailInB2 with
        | mk o' a' =>
          rw [hs, ha] at hfst hrep
          obtain rfl : o = o' := hfst
          cases o with
          | none => exact ⟨rfl, hrep⟩
          | some kc =>
            obtain ⟨hout, hnext⟩ := ih (freed + kc.2) hrep
            exact ⟨by simp only [hout], hnext⟩
    · exact ⟨rfl, h⟩

theorem evict (costToFree : UInt64) : (s.evict costToFree).1 = (a.evict costToFree).1 ∧
    Simulates R (s.evict costToFree).2 (a.evict costToFree).2 := by
  have hturns : s.evictTurns = a.evictTurns := by
    simp only [Arc.evictTurns, hR.entries h.t1, hR.entries h.t2]
  unfold Arc.evict
  rw [hturns]
  exact evictLoop hR _ costToFree 0 h

theorem clear : Simulates R s.clear a.clear :=
  ⟨rfl, hR.clear h.t1, hR.clear h.t2, hR.clear h.b1, hR.clear h.b2, h.capacity⟩

theorem step (op : Op K) : Simulates R (s.step op) (a.step op) := by
  cases op with
  | onAccess key cost => exact onAccess hR h key cost
  | onAdmit key cost => exact onAdmit hR h key cost
  | onRemove key => exact onRemove hR h key
  | evict costToFree => exact (evict hR h costToFree).2
  | clear => exact clear hR h

theorem run (ops : List (Op K)) : Simulates R (s.run ops) (a.run ops) := by
  induction ops generalizing s a with
  | nil => exact h
  | cons op ops ih => exact ih (step hR h op)

end Simulates

end Arc

end Fibre.Cache
