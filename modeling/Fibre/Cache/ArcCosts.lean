import Fibre.Cache.ArcLists
import Fibre.Math.Eviction

/-!
# What ARC frees and what its ghosts hold

An eviction takes keys from `t1` while the cost recorded for it is positive and not below the
target, and then from `t2`. What is left of `t1` when its cost falls below the target is out of
reach, however much is asked for.

A key that is replaced goes to a ghost list, which is trimmed once. The ghost lists keep within
the capacity as long as taking one key off is enough each time.
-/

namespace Fibre.Cache

open CostList CostQueue PlainList Word List Nat

namespace Arc

/-! ### The order of eviction -/

section Order

variable {L K : Type*} [CostList L K]

/-- The entries of `t1` that replacements take one after another, for the cost that is recorded,
and those that they leave. -/
def takeable (p : UInt64) :
    UInt64 → List (K × UInt64) → List (K × UInt64) × List (K × UInt64)
  | _, [] => ([], [])
  | recorded, e :: rest =>
    if 0 < recorded ∧ p ≤ recorded then
      let r := takeable p (satSub recorded e.2) rest
      (e :: r.1, r.2)
    else ([], e :: rest)

/-- The entries in the order in which replacements take them. -/
def order (s : Arc L) : List (K × UInt64) :=
  (takeable s.p (currentTotalCost s.t1) (entries s.t1)).1 ++ entries s.t2

/-- The entries of `t1` that no replacement takes. -/
def outOfReach (s : Arc L) : List (K × UInt64) :=
  (takeable s.p (currentTotalCost s.t1) (entries s.t1)).2

/-- The cost of keys on `t1` and `t2`. -/
def costs [DecidableEq K] (s : Arc L) (keys : List K) : ℕ :=
  (keys.map fun k => ((costOf (entries s.t1 ++ entries s.t2) k).getD 0).toNat).sum

theorem takeable_append (p recorded : UInt64) (l : List (K × UInt64)) :
    (takeable p recorded l).1 ++ (takeable p recorded l).2 = l := by
  induction l generalizing recorded with
  | nil => rfl
  | cons e rest ih =>
    unfold takeable
    split_ifs
    · simpa using ih _
    · rfl

theorem length_order_le (s : Arc L) : s.order.length ≤ s.evictTurns := by
  have hsplit := congrArg List.length (takeable_append s.p (currentTotalCost s.t1) (entries s.t1))
  rw [length_append] at hsplit
  rw [order, length_append, evictTurns]
  omega

theorem entries_eq_nil_iff (s : Arc L) :
    entries s.t1 = [] ∧ entries s.t2 = [] ↔ s.order = [] ∧ s.outOfReach = [] := by
  have hsplit := takeable_append s.p (currentTotalCost s.t1) (entries s.t1)
  unfold order outOfReach
  rw [append_eq_nil_iff]
  constructor
  · rintro ⟨h₁, h₂⟩
    rw [h₁] at hsplit ⊢
    obtain ⟨ht, hl⟩ := append_eq_nil_iff.mp hsplit
    exact ⟨⟨ht, h₂⟩, hl⟩
  · rintro ⟨⟨ht, h₂⟩, hl⟩
    rw [ht, hl] at hsplit
    exact ⟨hsplit.symm, h₂⟩

theorem fromT1_iff (s : Arc L) (keyInB2 : Bool) :
    s.fromT1 keyInB2 = true ↔ 0 < currentTotalCost s.t1 ∧ s.p ≤ currentTotalCost s.t1 := by
  simp only [fromT1, Bool.and_eq_true, Bool.or_eq_true, decide_eq_true_eq]
  constructor
  · rintro ⟨hpos, hle | ⟨-, heq⟩⟩
    · exact ⟨hpos, hle⟩
    · exact ⟨hpos, heq ▸ UInt64.le_refl _⟩
  · rintro ⟨hpos, hle⟩
    exact ⟨hpos, .inl hle⟩

theorem replace_of_none {s : Arc L} {keyInB2 : Bool} (hnone : (s.replace keyInB2).1 = none) :
    s.replace keyInB2 = (none, s) := by
  rcases s.replace_cases keyInB2 with ⟨hrep, -⟩ | ⟨kc, t1, -, -, hrep⟩ | ⟨kc, t2, -, -, hrep⟩
  · exact hrep
  all_goals
    rw [hrep] at hnone
    cases hnone

/-! ### Transfers to the ghost lists -/

/-- Trimming the ghost list `b` once is enough when a key of this cost comes to it: its cost fits
the capacity then, or does so without the oldest key. -/
def TransferFits (capacity : UInt64) (b : L) (cost : UInt64) : Prop :=
  (currentTotalCost b).toNat + cost.toNat ≤ capacity.toNat ∨
    (currentTotalCost b).toNat + cost.toNat < 2 ^ 64 ∧
      (currentTotalCost b).toNat + cost.toNat ≤
        capacity.toNat + (((entries b).map Prod.snd).headD cost).toNat

/-- The next key to be replaced fits its ghost list. -/
def Fits (s : Arc L) (keyInB2 : Bool) : Prop :=
  if s.fromT1 keyInB2 then ∀ e ∈ (entries s.t1).head?, TransferFits s.capacity s.b1 e.2
  else ∀ e ∈ (entries s.t2).head?, TransferFits s.capacity s.b2 e.2

instance (capacity : UInt64) (b : L) (cost : UInt64) : Decidable (TransferFits capacity b cost) :=
  inferInstanceAs (Decidable (_ ∨ _ ∧ _))

instance (s : Arc L) (keyInB2 : Bool) : Decidable (s.Fits keyInB2) :=
  inferInstanceAs (Decidable
    (if s.fromT1 keyInB2 then ∀ e ∈ (entries s.t1).head?, TransferFits s.capacity s.b1 e.2
      else ∀ e ∈ (entries s.t2).head?, TransferFits s.capacity s.b2 e.2))

/-- So do all keys that an eviction replaces. -/
def TurnsFit : ℕ → UInt64 → UInt64 → Arc L → Prop
  | 0, _, _, _ => True
  | fuel + 1, costToFree, freed, s =>
    freed < costToFree → s.Fits s.tailInB2 ∧
      match s.replace s.tailInB2 with
      | (none, _) => True
      | (some kc, s) => TurnsFit fuel costToFree (freed + kc.2) s

/-- A call whose transfers fit. -/
def Trims (s : Arc L) : Op K → Prop
  | .onAdmit key _ => s.tracked key = false → (s.adapt key).2.full = true →
      (s.adapt key).2.Fits (s.adapt key).1
  | .evict costToFree => TurnsFit s.evictTurns costToFree 0 s
  | _ => True

/-- All transfers of a sequence of calls fit. -/
def RunTrims (s : Arc L) : List (Op K) → Prop
  | [] => True
  | op :: ops => s.Trims op ∧ RunTrims (s.step op) ops

end Order

/-! ### On plain lists -/

section Plain

variable {K : Type*} [DecidableEq K] {a : Arc (PlainList K)} {e : K × UInt64}
  {rest : List (K × UInt64)}

theorem entries_eq_cons {c : PlainList K} (h : entries c = e :: rest) :
    ∃ c', CostList.popBack c = some (e, c') ∧ entries c' = rest ∧
      c'.recorded = satSub c.recorded e.2 := by
  cases hc : c.tracked with
  | nil =>
    have hnil : entries c = [] := map_eq_nil_iff.mpr hc
    cases h.symm.trans hnil
  | cons d tracked =>
    have hentries : entries c = (d.name, d.cost) :: tracked.map fun e => (e.name, e.cost) :=
      congrArg (List.map fun e : Tracked K K => (e.name, e.cost)) hc
    obtain ⟨rfl, rfl⟩ := List.cons.inj (h.symm.trans hentries)
    refine ⟨⟨tracked, satSub c.recorded d.cost⟩, ?_, rfl, rfl⟩
    show c.popBack = _
    rw [PlainList.popBack, hc]

theorem popBack_of_entries {c : PlainList K} (h : entries c = []) :
    CostList.popBack c = none := by
  have hc : c.tracked = [] := map_eq_nil_iff.mp h
  show c.popBack = none
  rw [PlainList.popBack, hc]

theorem head_of_popBack {c c' : PlainList K} {kc : K × UInt64}
    (h : CostList.popBack c = some (kc, c')) : kc ∈ (entries c).head? := by
  cases hentries : entries c with
  | nil =>
    rw [popBack_of_entries hentries] at h
    cases h
  | cons e rest =>
    obtain ⟨c'', hpop, -, -⟩ := entries_eq_cons hentries
    rw [h] at hpop
    obtain ⟨rfl, -⟩ := Prod.mk.inj (Option.some.inj hpop)
    rfl

theorem replace_of_order_nil (h : a.t1.Kept) (horder : a.order = []) (keyInB2 : Bool) :
    a.replace keyInB2 = (none, a) := by
  rw [order, append_eq_nil_iff] at horder
  obtain ⟨htake, ht₂⟩ := horder
  -- `t1` is not taken from: it is empty, or its first entry is out of reach
  have hfrom : ¬ a.fromT1 keyInB2 = true := by
    rw [fromT1_iff]
    intro hcond
    cases ht₁ : entries a.t1 with
    | nil =>
      have hzero : currentTotalCost a.t1 = 0 := h.recorded_of_nil (map_eq_nil_iff.mp ht₁)
      rw [hzero] at hcond
      exact absurd hcond.1 (by decide)
    | cons e rest =>
      rw [ht₁, takeable, if_pos hcond] at htake
      cases htake
  rw [replace, if_neg hfrom, popBack_of_entries ht₂]

theorem replace_of_order_cons (h : a.t1.Kept) (horder : a.order = e :: rest) (keyInB2 : Bool) :
    ∃ a', a.replace keyInB2 = (some e, a') ∧ a'.order = rest ∧
      a'.outOfReach = a.outOfReach ∧ a'.t1.Kept := by
  by_cases hcond : 0 < currentTotalCost a.t1 ∧ a.p ≤ currentTotalCost a.t1
  · cases ht₁ : entries a.t1 with
    | nil =>
      have hzero : currentTotalCost a.t1 = 0 := h.recorded_of_nil (map_eq_nil_iff.mp ht₁)
      rw [hzero] at hcond
      exact absurd hcond.1 (by decide)
    | cons d t =>
      obtain ⟨t1, hpop, hentries, hrecorded⟩ := entries_eq_cons ht₁
      have htake : takeable a.p (currentTotalCost a.t1) (entries a.t1) =
          (d :: (takeable a.p (currentTotalCost t1) (entries t1)).1,
            (takeable a.p (currentTotalCost t1) (entries t1)).2) := by
        have hcost : currentTotalCost t1 = satSub (currentTotalCost a.t1) d.2 := hrecorded
        rw [ht₁, takeable, if_pos hcond, hentries, hcost]
      rw [order, htake] at horder
      obtain ⟨rfl, rfl⟩ := List.cons.inj horder
      refine ⟨{ a with t1 := t1, b1 := toGhost a.capacity a.b1 d.1 d.2 }, ?_, rfl, ?_,
        h.popBack hpop⟩
      · rw [replace, if_pos ((fromT1_iff _ _).mpr hcond), hpop]
      · rw [outOfReach, outOfReach, htake]
  · have htake : takeable a.p (currentTotalCost a.t1) (entries a.t1) = ([], entries a.t1) := by
      cases ht₁ : entries a.t1 with
      | nil => rfl
      | cons d t => rw [takeable, if_neg hcond]
    rw [order, htake, nil_append] at horder
    obtain ⟨t2, hpop, hentries, -⟩ := entries_eq_cons horder
    refine ⟨{ a with t2 := t2, b2 := toGhost a.capacity a.b2 e.1 e.2 }, ?_, ?_, rfl, h⟩
    · rw [replace, if_neg ((fromT1_iff _ _).not.mpr hcond), hpop]
    · show (takeable a.p (currentTotalCost a.t1) (entries a.t1)).1 ++ entries t2 = rest
      rw [htake, hentries, nil_append]

/-- The eviction takes from the order what pays for the cost, in any number of turns that is
enough. -/
theorem evictLoop_eq (fuel : ℕ) (costToFree freed : UInt64) {a : Arc (PlainList K)}
    (h : a.t1.Kept) (hfuel : a.order.length ≤ fuel) :
    ∃ a', evictLoop fuel costToFree freed a =
        (((drain Prod.snd costToFree freed a.order).1.map Prod.fst,
          (drain Prod.snd costToFree freed a.order).2.1), a') ∧
      a'.order = (drain Prod.snd costToFree freed a.order).2.2 ∧
      a'.outOfReach = a.outOfReach := by
  induction fuel generalizing freed a with
  | zero =>
    have hnil := length_eq_zero_iff.mp (le_zero.mp hfuel)
    rw [hnil]
    exact ⟨a, rfl, hnil, rfl⟩
  | succ fuel ih =>
    cases horder : a.order with
    | nil =>
      refine ⟨a, ?_, horder, rfl⟩
      rw [evictLoop, replace_of_order_nil h horder]
      split_ifs <;> rfl
    | cons e rest =>
      obtain ⟨a', hrep, hrest, hout, hkept⟩ := replace_of_order_cons h horder a.tailInB2
      rw [evictLoop, hrep, drain]
      split_ifs
      · rw [horder, length_cons] at hfuel
        obtain ⟨b, hloop, hb, hbout⟩ := ih (freed + e.2) hkept (by rw [hrest]; omega)
        rw [hrest] at hloop hb
        exact ⟨b, by simp only [hloop, map_cons], hb, hbout.trans hout⟩
      · exact ⟨a, rfl, horder, rfl⟩

/-! ### What the lists record -/

/-- The four lists record no more than they hold. -/
structure KeptLists (a : Arc (PlainList K)) : Prop where
  t1 : a.t1.Kept
  t2 : a.t2.Kept
  b1 : a.b1.Kept
  b2 : a.b2.Kept

theorem kept_toGhost {b : PlainList K} (h : b.Kept) (capacity : UInt64) (key : K)
    (cost : UInt64) : (toGhost capacity b key cost).Kept := by
  have hpush : (CostList.pushFront b key cost).Kept := h.pushFront key cost
  unfold toGhost
  simp only
  split_ifs
  · cases hpop : CostList.popBack (CostList.pushFront b key cost) with
    | none => exact hpush
    | some r =>
      obtain ⟨kc, c'⟩ := r
      exact hpush.popBack hpop
  · exact hpush

namespace KeptLists

theorem new (capacity : UInt64) : KeptLists (new capacity : Arc (PlainList K)) :=
  ⟨.empty, .empty, .empty, .empty⟩

theorem replace (h : KeptLists a) (keyInB2 : Bool) : KeptLists (a.replace keyInB2).2 := by
  rcases a.replace_cases keyInB2 with ⟨hrep, -⟩ | ⟨kc, t1, -, hpop, hrep⟩ |
    ⟨kc, t2, -, hpop, hrep⟩
  · rw [hrep]
    exact h
  · rw [hrep]
    exact ⟨h.t1.popBack hpop, h.t2, kept_toGhost h.b1 _ _ _, h.b2⟩
  · rw [hrep]
    exact ⟨h.t1, h.t2.popBack hpop, h.b1, kept_toGhost h.b2 _ _ _⟩

theorem adapt (h : KeptLists a) (key : K) : KeptLists (a.adapt key).2 := by
  rcases a.adapt_cases key with ⟨-, p, -, had⟩ | ⟨-, -, p, -, had⟩ | ⟨-, -, had⟩
  · rw [had]
    exact ⟨h.t1, h.t2, h.b1.remove key, h.b2⟩
  · rw [had]
    exact ⟨h.t1, h.t2, h.b1, h.b2.remove key⟩
  · rw [had]
    exact h

theorem makeRoom (h : KeptLists a) (key : K) : KeptLists (a.makeRoom key) := by
  unfold Arc.makeRoom
  simp only
  split_ifs
  · exact (h.adapt key).replace _
  · exact h.adapt key

theorem promoted (h : KeptLists a) (key : K) (cost : UInt64) : KeptLists (a.promoted key cost) :=
  ⟨h.t1.remove key, h.t2.pushFront key cost, h.b1, h.b2⟩

theorem evictLoop (fuel : ℕ) (costToFree freed : UInt64) {a : Arc (PlainList K)}
    (h : KeptLists a) : KeptLists (evictLoop fuel costToFree freed a).2 := by
  induction fuel generalizing freed a with
  | zero => exact h
  | succ fuel ih =>
    have hrep := h.replace a.tailInB2
    unfold Arc.evictLoop
    split_ifs
    · cases hout : a.replace a.tailInB2 with
      | mk o a' =>
        rw [hout] at hrep
        cases o with
        | none => exact hrep
        | some kc => exact ih (freed + kc.2) hrep
    · exact h

theorem step (h : KeptLists a) (op : Op K) : KeptLists (a.step op) := by
  cases op with
  | onAccess key cost =>
    show KeptLists (a.onAccess key cost)
    rcases a.onAccess_cases key cost with ⟨-, heq⟩ | ⟨-, heq⟩
    · rw [heq]
      exact h.promoted key cost
    · rw [heq]
      exact h
  | onAdmit key cost =>
    show KeptLists (a.onAdmit key cost)
    rcases a.onAdmit_cases key cost with ⟨-, heq⟩ | ⟨-, heq⟩
    · rw [heq]
      exact h.promoted key cost
    · have hroom := h.makeRoom key
      rw [heq]
      exact ⟨hroom.t1.pushFront key cost, hroom.t2, hroom.b1, hroom.b2⟩
  | onRemove key =>
    show KeptLists (a.onRemove key)
    unfold Arc.onRemove
    simp only
    split_ifs
    · exact ⟨h.t1.remove key, h.t2, h.b1, h.b2⟩
    · exact ⟨h.t1, h.t2.remove key, h.b1, h.b2⟩
    · exact ⟨h.t1, h.t2, h.b1.remove key, h.b2⟩
    · exact ⟨h.t1, h.t2, h.b1, h.b2.remove key⟩
  | evict costToFree => exact h.evictLoop _ costToFree 0
  | clear => exact ⟨.empty, .empty, .empty, .empty⟩

theorem run (h : KeptLists a) (ops : List (Op K)) : KeptLists (a.run ops) := by
  induction ops generalizing a with
  | nil => exact h
  | cons op ops ih => exact ih (h.step op)

end KeptLists

/-! ### What an eviction frees -/

/-- On plain lists: the victims are enough, or nothing is left, unless something is out of reach
and all the rest is not enough. -/
theorem evict_enough_iff (hd : a.Disciplined) (h : KeptLists a) (costToFree : UInt64) :
    (costToFree.toNat ≤ a.costs (a.evict costToFree).1.1 ∨
      entries (a.evict costToFree).2.t1 = [] ∧ entries (a.evict costToFree).2.t2 = []) ↔
      a.outOfReach = [] ∨ costToFree.toNat ≤ totalNat Prod.snd a.order := by
  obtain ⟨a', heq, horder, hout⟩ := evictLoop_eq a.evictTurns costToFree 0 h.t1 a.length_order_le
  have happend := drain_append Prod.snd costToFree 0 a.order
  have hfreed := drain_freed Prod.snd costToFree 0 a.order
  have hdone := drain_done Prod.snd costToFree 0 a.order
  rw [← evict] at heq
  rw [heq, entries_eq_nil_iff, horder, hout]
  generalize hrest : (drain Prod.snd costToFree 0 a.order).2.2 = rest at *
  generalize htaken : (drain Prod.snd costToFree 0 a.order).1 = taken at *
  have hnodup : ((entries a.t1 ++ entries a.t2).map Prod.fst).Nodup := by
    rw [map_append, map_fst_entries, map_fst_entries, nodup_iff_count_le_one]
    intro k
    have hle := hd.tally_le k
    rw [tally, tops] at hle
    rw [count_append]
    omega
  have hcosts : a.costs (taken.map Prod.fst) = totalNat Prod.snd taken := by
    refine sum_costOf hnodup fun e he => ?_
    have hmem : e ∈ a.order := happend ▸ mem_append_left rest he
    rw [order, mem_append] at hmem
    rw [mem_append, ← takeable_append a.p (currentTotalCost a.t1) (entries a.t1)]
    exact hmem.imp_left (mem_append_left _)
  have hsum : totalNat Prod.snd taken + totalNat Prod.snd rest = totalNat Prod.snd a.order := by
    rw [← totalNat_append, happend]
  rw [hcosts]
  constructor
  · rintro (hle | ⟨-, hnil⟩)
    · exact .inr (by omega)
    · exact .inl hnil
  · intro hcond
    rcases hdone with hle | hnil
    · -- a word holds no more than the sum
      left
      have hword := UInt64.le_iff_toNat_le.mp hle
      rw [hfreed, UInt64.zero_add, toNat_total_mod] at hword
      exact hword.trans (mod_le _ _)
    · refine hcond.symm.imp (fun hle => ?_) fun hout => ⟨hnil, hout⟩
      rw [hnil, totalNat_nil] at hsum
      omega

/-! ### What the ghosts hold -/

/-- The list has recorded what it costs, and that is within the capacity. -/
structure Bounded (capacity : UInt64) (b : PlainList K) : Prop where
  recorded : b.recorded.toNat = totalNat Tracked.cost b.tracked
  le : totalNat Tracked.cost b.tracked ≤ capacity.toNat

namespace Bounded

variable {capacity : UInt64} {b : PlainList K} {key : K}

omit [DecidableEq K] in
theorem empty (capacity : UInt64) : Bounded capacity (⟨[], 0⟩ : PlainList K) :=
  ⟨rfl, zero_le _⟩

theorem remove (h : Bounded capacity b) (hkept : b.Kept) (key : K) :
    Bounded capacity (b.remove key).2 := by
  obtain ⟨hrecorded, hle⟩ := h
  unfold PlainList.remove
  cases hfind : b.find key with
  | none => exact ⟨hrecorded, hle⟩
  | some e =>
    obtain ⟨he, rfl⟩ := find_eq_some hfind
    have hwithout := totalNat_without hkept.nodup he
    constructor
    · simp only [toNat_satSub]
      omega
    · show totalNat Tracked.cost (Tracked.without e.name b.tracked) ≤ _
      omega

theorem toGhost (h : Bounded capacity b) (hnew : key ∉ b.names) {cost : UInt64}
    (hfits : TransferFits capacity b cost) : Bounded capacity (toGhost capacity b key cost) := by
  obtain ⟨hrecorded, hle⟩ := h
  have hcap := capacity.toNat_lt
  have hpush : CostList.pushFront b key cost =
      ⟨b.tracked ++ [⟨key, key, cost⟩], b.recorded + cost⟩ := by
    show b.pushFront key cost = _
    rw [PlainList.pushFront, find_eq_none.mpr hnew]
  -- nothing wraps
  have hadd : (b.recorded + cost).toNat = b.recorded.toNat + cost.toNat := by
    have hlt : b.recorded.toNat + cost.toNat < 2 ^ 64 := hfits.elim (fun hle => by
      have hle' : b.recorded.toNat + cost.toNat ≤ capacity.toNat := hle
      omega) And.left
    rw [UInt64.toNat_add, mod_eq_of_lt hlt]
  unfold Arc.toGhost
  rw [hpush]
  show Bounded capacity (if b.recorded + cost > capacity then _ else _)
  split_ifs with hover
  · have hover' := UInt64.lt_iff_toNat_lt.mp hover
    rw [hadd] at hover'
    cases hb : b.tracked with
    | nil =>
      rw [hb, totalNat_nil] at hrecorded
      constructor
      · show (satSub (b.recorded + cost) cost).toNat = 0
        rw [toNat_satSub, hadd]
        omega
      · exact zero_le _
    | cons e rest =>
      rw [hb, totalNat_cons] at hrecorded
      have hhead : ((entries b).map Prod.snd).headD cost = e.cost := by
        show ((b.tracked.map fun e => (e.name, e.cost)).map Prod.snd).headD cost = e.cost
        rw [hb]
        rfl
      rw [TransferFits, hhead] at hfits
      have htrimmed : b.recorded.toNat + cost.toNat ≤ capacity.toNat + e.cost.toNat :=
        hfits.elim (fun hle => absurd hle (not_le.mpr hover')) And.right
      constructor
      · show (satSub (b.recorded + cost) e.cost).toNat = totalNat Tracked.cost (rest ++ [_])
        rw [toNat_satSub, hadd, totalNat_append, totalNat_cons, totalNat_nil]
        show _ = _ + (cost.toNat + 0)
        omega
      · show totalNat Tracked.cost (rest ++ [_]) ≤ _
        rw [totalNat_append, totalNat_cons, totalNat_nil]
        show _ + (cost.toNat + 0) ≤ _
        omega
  · have hwithin := UInt64.le_iff_toNat_le.mp (UInt64.not_lt.mp hover)
    rw [hadd] at hwithin
    constructor
    · show (b.recorded + cost).toNat = totalNat Tracked.cost (b.tracked ++ [_])
      rw [hadd, totalNat_append, totalNat_cons, totalNat_nil, hrecorded]
      rfl
    · show totalNat Tracked.cost (b.tracked ++ [_]) ≤ _
      rw [totalNat_append, totalNat_cons, totalNat_nil, ← hrecorded]
      exact hwithin

end Bounded

structure GhostsBounded (a : Arc (PlainList K)) : Prop where
  disciplined : a.Disciplined
  kept : a.KeptLists
  b1 : Bounded a.capacity a.b1
  b2 : Bounded a.capacity a.b2

namespace GhostsBounded

theorem new (capacity : UInt64) : GhostsBounded (new capacity : Arc (PlainList K)) :=
  ⟨disciplined_new capacity, .new capacity, .empty capacity, .empty capacity⟩

theorem not_mem_ghost {b : PlainList K} {k : K} (h : b.names.count k = 0) : k ∉ b.names :=
  List.count_eq_zero.mp h

theorem replace (h : GhostsBounded a) {keyInB2 : Bool} (hfits : a.Fits keyInB2) :
    GhostsBounded (a.replace keyInB2).2 := by
  have hd := h.disciplined.replace keyInB2
  have hkept := h.kept.replace keyInB2
  rcases a.replace_cases keyInB2 with ⟨hrep, -⟩ | ⟨kc, t1, hfrom, hpop, hrep⟩ |
    ⟨kc, t2, hfrom, hpop, hrep⟩
  · rw [hrep]
    exact h
  · have hcount := count_popBack hpop kc.1
    have hle := h.disciplined.tally_le kc.1
    have hhead := head_of_popBack hpop
    rw [if_pos rfl] at hcount
    rw [tally, tops] at hle
    rw [Fits, if_pos hfrom] at hfits
    rw [hrep] at hd hkept ⊢
    exact ⟨hd, hkept, h.b1.toGhost (not_mem_ghost (by omega)) (hfits kc hhead), h.b2⟩
  · have hcount := count_popBack hpop kc.1
    have hle := h.disciplined.tally_le kc.1
    have hhead := head_of_popBack hpop
    rw [if_pos rfl] at hcount
    rw [tally, tops] at hle
    rw [Fits, if_neg (by simp [hfrom])] at hfits
    rw [hrep] at hd hkept ⊢
    exact ⟨hd, hkept, h.b1, h.b2.toGhost (not_mem_ghost (by omega)) (hfits kc hhead)⟩

theorem evictLoop (fuel : ℕ) (costToFree freed : UInt64) {a : Arc (PlainList K)}
    (h : GhostsBounded a) (hfits : TurnsFit fuel costToFree freed a) :
    GhostsBounded (evictLoop fuel costToFree freed a).2 := by
  induction fuel generalizing freed a with
  | zero => exact h
  | succ fuel ih =>
    unfold Arc.evictLoop
    split_ifs with hlt
    · obtain ⟨hfirst, hnext⟩ := hfits hlt
      have hrep := h.replace hfirst
      cases hout : a.replace a.tailInB2 with
      | mk o a' =>
        rw [hout] at hrep hnext
        cases o with
        | none => exact hrep
        | some kc => exact ih (freed + kc.2) hrep hnext
    · exact h

theorem adapt (h : GhostsBounded a) (key : K) : GhostsBounded (a.adapt key).2 := by
  have hd : (a.adapt key).2.Disciplined := by
    constructor
    · intro k
      have hle := h.disciplined.tally_le k
      have hself := h.disciplined.tally_le key
      have hadapt := tally_adapt hself k
      rw [tally] at hself
      split_ifs at hadapt <;> omega
    · rw [adapt_capacity]
      exact p_adapt_le h.disciplined.p_le key
  have hkept := h.kept.adapt key
  rcases a.adapt_cases key with ⟨-, p, -, had⟩ | ⟨-, -, p, -, had⟩ | ⟨-, -, had⟩
  · rw [had] at hd hkept ⊢
    exact ⟨hd, hkept, h.b1.remove h.kept.b1 key, h.b2⟩
  · rw [had] at hd hkept ⊢
    exact ⟨hd, hkept, h.b1, h.b2.remove h.kept.b2 key⟩
  · rw [had]
    exact h

theorem step (h : GhostsBounded a) {op : Op K} (hop : a.Trims op) : GhostsBounded (a.step op) := by
  have hd := h.disciplined.step op
  have hkept := h.kept.step op
  cases op with
  | onAccess key cost =>
    have hcases := a.onAccess_cases key cost
    show GhostsBounded (a.onAccess key cost)
    rcases hcases with ⟨-, heq⟩ | ⟨-, heq⟩
    · rw [Arc.step, heq] at hd hkept
      rw [heq]
      exact ⟨hd, hkept, h.b1, h.b2⟩
    · rw [heq]
      exact h
  | onAdmit key cost =>
    have hcases := a.onAdmit_cases key cost
    show GhostsBounded (a.onAdmit key cost)
    rcases hcases with ⟨-, heq⟩ | ⟨hzero, heq⟩
    · rw [Arc.step, heq] at hd hkept
      rw [heq]
      exact ⟨hd, hkept, h.b1, h.b2⟩
    · have hroom : GhostsBounded (a.makeRoom key) := by
        rw [makeRoom]
        split_ifs with hfull
        · exact (h.adapt key).replace (hop (tracked_eq_false.mpr hzero) hfull)
        · exact h.adapt key
      rw [Arc.step, heq] at hd hkept
      rw [heq]
      exact ⟨hd, hkept, hroom.b1, hroom.b2⟩
  | onRemove key =>
    show GhostsBounded (a.onRemove key)
    rw [Arc.step] at hd hkept
    unfold Arc.onRemove at hd hkept ⊢
    simp only at hd hkept ⊢
    split_ifs at hd hkept ⊢
    · exact ⟨hd, hkept, h.b1, h.b2⟩
    · exact ⟨hd, hkept, h.b1, h.b2⟩
    · exact ⟨hd, hkept, h.b1.remove h.kept.b1 key, h.b2⟩
    · exact ⟨hd, hkept, h.b1, h.b2.remove h.kept.b2 key⟩
  | evict costToFree => exact h.evictLoop _ costToFree 0 hop
  | clear => exact ⟨hd, hkept, .empty _, .empty _⟩

theorem run (h : GhostsBounded a) {ops : List (Op K)} (hops : a.RunTrims ops) :
    GhostsBounded (a.run ops) := by
  induction ops generalizing a with
  | nil => exact h
  | cons op ops ih => exact ih (h.step hops.1) hops.2

end GhostsBounded

end Plain

namespace Simulates

variable {L L' K : Type*} [DecidableEq K] [CostList L K] [CostList L' K] {R : L → L' → Prop}
  {s : Arc L} {b : Arc L'} (hR : CostList.Simulates R) (h : Simulates R s b)
include hR h

omit [DecidableEq K] in
theorem order : s.order = b.order := by
  simp only [Arc.order, h.p, hR.currentTotalCost h.t1, hR.entries h.t1, hR.entries h.t2]

omit [DecidableEq K] in
theorem outOfReach : s.outOfReach = b.outOfReach := by
  simp only [Arc.outOfReach, h.p, hR.currentTotalCost h.t1, hR.entries h.t1]

theorem costs (keys : List K) : s.costs keys = b.costs keys := by
  simp only [Arc.costs, hR.entries h.t1, hR.entries h.t2]

omit [DecidableEq K] h in
theorem transferFits {b : L} {b' : L'} (hb : R b b') (capacity cost : UInt64) :
    TransferFits capacity b cost ↔ TransferFits capacity b' cost := by
  simp only [TransferFits, hR.currentTotalCost hb, hR.entries hb]

omit [DecidableEq K] in
theorem fits (keyInB2 : Bool) : s.Fits keyInB2 ↔ b.Fits keyInB2 := by
  simp only [Fits, fromT1 hR h, hR.entries h.t1, hR.entries h.t2, h.capacity,
    transferFits hR h.b1, transferFits hR h.b2]

omit [DecidableEq K] h in
theorem turnsFit (fuel : ℕ) (costToFree freed : UInt64) {s : Arc L} {b : Arc L'}
    (h : Simulates R s b) :
    TurnsFit fuel costToFree freed s ↔ TurnsFit fuel costToFree freed b := by
  induction fuel generalizing freed s b with
  | zero => rfl
  | succ fuel ih =>
    obtain ⟨hfst, hnext⟩ := replace hR h b.tailInB2
    rw [TurnsFit, TurnsFit, tailInB2 hR h, fits hR h]
    cases hs : s.replace b.tailInB2 with
    | mk o s' =>
      cases hb : b.replace b.tailInB2 with
      | mk o' b' =>
        rw [hs, hb] at hfst hnext
        obtain rfl : o = o' := hfst
        cases o with
        | none => rfl
        | some kc => simp only [ih (freed + kc.2) hnext]

omit [DecidableEq K] in
theorem trims (op : Op K) : s.Trims op ↔ b.Trims op := by
  cases op with
  | onAdmit key cost =>
    obtain ⟨hb2, hadapt⟩ := adapt hR h key
    simp only [Trims, tracked hR h, full hR hadapt, fits hR hadapt, hb2]
  | evict costToFree =>
    have hturns : s.evictTurns = b.evictTurns := by
      simp only [Arc.evictTurns, hR.entries h.t1, hR.entries h.t2]
    simp only [Trims, hturns, turnsFit hR _ costToFree 0 h]
  | _ => rfl

omit [DecidableEq K] h in
theorem runTrims (ops : List (Op K)) {s : Arc L} {b : Arc L'} (h : Simulates R s b) :
    s.RunTrims ops ↔ b.RunTrims ops := by
  induction ops generalizing s b with
  | nil => rfl
  | cons op ops ih => rw [RunTrims, RunTrims, trims hR h, ih (step hR h op)]

end Simulates

section Claims

variable {K : Type*} [DecidableEq K]

theorem evictLoop_fuel (fuel fuel' : ℕ) (costToFree freed : UInt64) {s : Arc (LruList K)}
    {a : Arc (PlainList K)} (h : Simulates LruList.Shows s a) (hkept : a.t1.Kept)
    (hfuel : a.order.length ≤ fuel) (hfuel' : a.order.length ≤ fuel') :
    evictLoop fuel costToFree freed s = evictLoop fuel' costToFree freed s := by
  have hR := simulates_shows (K := K)
  induction fuel generalizing fuel' freed s a with
  | zero =>
    have hnil := length_eq_zero_iff.mp (le_zero.mp hfuel)
    cases fuel' with
    | zero => rfl
    | succ fuel' =>
      have hnone := (Simulates.replace hR h s.tailInB2).1
      rw [replace_of_order_nil hkept hnil] at hnone
      rw [evictLoop, evictLoop, replace_of_none hnone]
      split_ifs <;> rfl
  | succ fuel ih =>
    obtain ⟨hsame, hnext⟩ := Simulates.replace hR h s.tailInB2
    cases fuel' with
    | zero =>
      have hnil := length_eq_zero_iff.mp (le_zero.mp hfuel')
      rw [replace_of_order_nil hkept hnil] at hsame
      rw [evictLoop, evictLoop, replace_of_none hsame]
      split_ifs <;> rfl
    | succ fuel' =>
      rw [evictLoop, evictLoop]
      cases horder : a.order with
      | nil =>
        rw [replace_of_order_nil hkept horder] at hsame
        rw [replace_of_none hsame]
      | cons e rest =>
        obtain ⟨a', hrep, hrest, -, hkept'⟩ := replace_of_order_cons hkept horder s.tailInB2
        rw [hrep] at hsame hnext
        rw [horder, length_cons] at hfuel hfuel'
        cases hs : s.replace s.tailInB2 with
        | mk o s' =>
          rw [hs] at hsame hnext
          obtain rfl : o = some e := hsame
          have hloop := ih fuel' (freed + e.2) hnext hkept' (by rw [hrest]; omega)
            (by rw [hrest]; omega)
          simp only [hloop]

/-- After every sequence of calls, an eviction ends, and its victims cost what was asked for or
leave nothing on `t1` and `t2`, exactly when nothing of `t1` is out of its reach or what is in
its reach is enough. -/
theorem evicts_enough_iff (capacity : UInt64) (ops : List (Op K)) (costToFree : UInt64) :
    let s := run (new capacity : Arc (LruList K)) ops
    (∀ fuel, s.evictTurns ≤ fuel → evictLoop fuel costToFree 0 s = s.evict costToFree) ∧
      ((costToFree.toNat ≤ s.costs (s.evict costToFree).1.1 ∨
        entries (s.evict costToFree).2.t1 = [] ∧ entries (s.evict costToFree).2.t2 = []) ↔
        s.outOfReach = [] ∨ costToFree.toNat ≤ totalNat Prod.snd s.order) := by
  intro s
  have hR := simulates_shows (K := K)
  have hs : Simulates LruList.Shows s _ := simulates_run capacity ops
  have hd := (disciplined_new (K := K) capacity).run ops
  have hkept := (KeptLists.new (K := K) capacity).run ops
  constructor
  · intro fuel hfuel
    have hturns := s.length_order_le
    rw [Simulates.order hR hs] at hturns
    exact evictLoop_fuel _ _ costToFree 0 hs hkept.t1 (hturns.trans hfuel) hturns
  · obtain ⟨hout, hafter⟩ := Simulates.evict hR hs costToFree
    rw [hout, Simulates.costs hR hs, hR.entries hafter.t1, hR.entries hafter.t2,
      Simulates.outOfReach hR hs, Simulates.order hR hs]
    exact evict_enough_iff hd hkept costToFree

/-- The target has grown past the cost of `t1`, and `t2` is empty. -/
theorem evicts_nothing_below_target : ¬ ∀ (capacity : UInt64) (ops : List (Op ℕ))
    (costToFree : UInt64),
    let s := run (new capacity : Arc (LruList ℕ)) ops
    costToFree.toNat ≤ s.costs (s.evict costToFree).1.1 ∨
      entries (s.evict costToFree).2.t1 = [] ∧ entries (s.evict costToFree).2.t2 = [] := by
  intro h
  have hone := h 2 [ .onAdmit 1 1, .onAdmit 2 1, .onAdmit 3 1, .onAdmit 1 1, .onAdmit 2 1,
    .onRemove 1] 1
  exact absurd hone (by decide)

/-- After every sequence of calls whose transfers fit, each ghost list costs at most the
capacity. -/
theorem ghosts_bounded (capacity : UInt64) (ops : List (Op K))
    (h : (new capacity : Arc (LruList K)).RunTrims ops) :
    let s := run (new capacity : Arc (LruList K)) ops
    totalNat Prod.snd (entries s.b1) ≤ capacity.toNat ∧
      totalNat Prod.snd (entries s.b2) ≤ capacity.toNat := by
  intro s
  have hR := simulates_shows (K := K)
  have hs : Simulates LruList.Shows s _ := simulates_run capacity ops
  have hrun := (Simulates.runTrims hR ops (Simulates.new hR capacity)).mp h
  have hbounded := (GhostsBounded.new capacity).run hrun
  have hb₁ := hbounded.b1.le
  have hb₂ := hbounded.b2.le
  rw [run_capacity] at hb₁ hb₂
  rw [hR.entries hs.b1, hR.entries hs.b2, totalNat_entries, totalNat_entries]
  exact ⟨hb₁, hb₂⟩

/-- The first key makes room for the third. -/
theorem ghosts_bounded_one_ghost :
    let s := run (new 2 : Arc (LruList ℕ)) [ .onAdmit 1 1, .onAdmit 2 1, .onAdmit 3 1]
    entries s.b1 = [(1, 1)] ∧ totalNat Prod.snd (entries s.b1) ≤ 2 ∧
      totalNat Prod.snd (entries s.b2) ≤ 2 := by
  refine ⟨by decide, ghosts_bounded 2 _ ⟨?_, ?_, ?_, trivial⟩⟩
  · exact fun _ hfull => absurd hfull (by decide)
  · exact fun _ hfull => absurd hfull (by decide)
  · exact fun _ _ => by decide

/-- A cheap key is trimmed for a dear one. -/
theorem ghosts_over_capacity : ¬ ∀ (capacity : UInt64) (ops : List (Op ℕ)),
    let s := run (new capacity : Arc (LruList ℕ)) ops
    totalNat Prod.snd (entries s.b1) ≤ capacity.toNat ∧
      totalNat Prod.snd (entries s.b2) ≤ capacity.toNat := by
  intro h
  have hone := h 3 [ .onAdmit 1 1, .onAdmit 2 2, .onAdmit 3 3, .evict 2, .evict 3]
  exact absurd hone (by decide)

end Claims

end Arc

end Fibre.Cache
