import Fibre.Cache.Arc

/-!
# Where ARC keeps its keys

A key is on at most one of ARC's four lists, whatever costs it is told, and the target for `t1`
stays within the capacity. An admission may have to replace a key first, and drops the key it
replaced without naming it as a victim; only then is a key forgotten that its caller still
counts on.

Keys are counted: an operation on a list says how often each key is on it afterwards, and what
holds of four lists is arithmetic.
-/

namespace Fibre.Cache

open CostList PlainList List

/-! ### How often a key is on a list -/

namespace PlainList

variable {K : Type*} [DecidableEq K] {c c' : PlainList K} {key k : K}

theorem count_filter_ne (l : List K) (key k : K) :
    (l.filter (· ≠ key)).count k = if k = key then 0 else l.count k := by
  split_ifs with h
  · subst h
    apply List.count_eq_zero.mpr
    simp
  · exact count_filter (by simpa using h)

theorem count_pushFront (c : PlainList K) (key : K) (cost : UInt64) (k : K) :
    (c.pushFront key cost).names.count k = if k = key then 1 else c.names.count k := by
  rw [names_pushFront, count_append, count_filter_ne]
  split_ifs with h
  · simp [h]
  · simp [Ne.symm h]

theorem count_remove (c : PlainList K) (key k : K) :
    (c.remove key).2.names.count k = if k = key then 0 else c.names.count k := by
  rw [names_remove, count_filter_ne]

theorem count_popBack {kc : K × UInt64} (h : c.popBack = some (kc, c')) (k : K) :
    c.names.count k = c'.names.count k + if k = kc.1 then 1 else 0 := by
  rw [names_popBack h]
  split_ifs with hk
  · simp [hk]
  · simp [Ne.symm hk]

theorem count_toGhost (capacity : UInt64) (b : PlainList K) (key : K) (cost : UInt64) (k : K) :
    (Arc.toGhost capacity b key cost).names.count k ≤ if k = key then 1 else b.names.count k := by
  have hpush : (CostList.pushFront b key cost).names.count k = _ := count_pushFront b key cost k
  rw [← hpush]
  unfold Arc.toGhost
  simp only
  split_ifs
  · cases hpop : CostList.popBack (CostList.pushFront b key cost) with
    | none => exact le_rfl
    | some r =>
      obtain ⟨kc, c'⟩ := r
      have hcount := count_popBack hpop k
      show c'.names.count k ≤ _
      omega
  · exact le_rfl

theorem remove_isSome_iff : (CostList.remove c key).1.isSome = true ↔ 0 < c.names.count key := by
  rw [count_pos_iff]
  exact remove_isSome c key

theorem contains_iff_count : CostList.contains c key = true ↔ 0 < c.names.count key := by
  rw [count_pos_iff]
  exact contains_iff

end PlainList

namespace Arc

variable {K : Type*} [DecidableEq K] {a : Arc (PlainList K)} {key : K}

/-- How often a key is on `t1` and `t2`. -/
def tops (a : Arc (PlainList K)) (k : K) : ℕ := a.t1.names.count k + a.t2.names.count k

/-- How often a key is on the four lists. -/
def tally (a : Arc (PlainList K)) (k : K) : ℕ :=
  a.tops k + a.b1.names.count k + a.b2.names.count k

/-- No key is on two lists, and the target is within the capacity. -/
structure Disciplined (a : Arc (PlainList K)) : Prop where
  tally_le : ∀ k, a.tally k ≤ 1
  p_le : a.p ≤ a.capacity

/-! ### What the steps do to the counts -/

theorem tops_replace (a : Arc (PlainList K)) (keyInB2 : Bool) (k : K) :
    a.tops k = (a.replace keyInB2).2.tops k +
      if (a.replace keyInB2).1.map Prod.fst = some k then 1 else 0 := by
  rcases a.replace_cases keyInB2 with ⟨hrep, -⟩ | ⟨kc, t1, -, hpop, hrep⟩ | ⟨kc, t2, -, hpop, hrep⟩
  · simp [hrep]
  all_goals
    have hcount := count_popBack hpop k
    simp only [hrep, tops, Option.map_some, Option.some.injEq, eq_comm (a := kc.1)]
    omega

theorem tally_replace_le (a : Arc (PlainList K)) (keyInB2 : Bool) (k : K) :
    (a.replace keyInB2).2.tally k ≤ a.tally k := by
  rcases a.replace_cases keyInB2 with ⟨hrep, -⟩ | ⟨kc, t1, -, hpop, hrep⟩ | ⟨kc, t2, -, hpop, hrep⟩
  · rw [hrep]
  · have hcount := count_popBack hpop k
    have hghost := count_toGhost a.capacity a.b1 kc.1 kc.2 k
    simp only [hrep, tally, tops]
    split_ifs at hcount hghost <;> omega
  · have hcount := count_popBack hpop k
    have hghost := count_toGhost a.capacity a.b2 kc.1 kc.2 k
    simp only [hrep, tally, tops]
    split_ifs at hcount hghost <;> omega

theorem replace_p (a : Arc (PlainList K)) (keyInB2 : Bool) : (a.replace keyInB2).2.p = a.p := by
  rcases a.replace_cases keyInB2 with ⟨hrep, -⟩ | ⟨kc, t1, -, -, hrep⟩ | ⟨kc, t2, -, -, hrep⟩ <;>
    rw [hrep]

theorem adapt_frame (a : Arc (PlainList K)) (key : K) :
    (a.adapt key).2.t1 = a.t1 ∧ (a.adapt key).2.t2 = a.t2 := by
  rcases a.adapt_cases key with ⟨-, p, -, had⟩ | ⟨-, -, p, -, had⟩ | ⟨-, -, had⟩ <;>
    exact had ▸ ⟨rfl, rfl⟩

theorem tops_adapt (a : Arc (PlainList K)) (key k : K) : (a.adapt key).2.tops k = a.tops k := by
  obtain ⟨ht₁, ht₂⟩ := a.adapt_frame key
  rw [tops, tops, ht₁, ht₂]

theorem tally_adapt (h : a.tally key ≤ 1) (k : K) :
    (a.adapt key).2.tally k = if k = key then a.tops key else a.tally k := by
  have hrem₁ := count_remove a.b1 key k
  have hrem₂ := count_remove a.b2 key k
  have hin₁ : (CostList.remove a.b1 key).1.isSome = true ↔ _ := remove_isSome_iff
  have hin₂ : (CostList.remove a.b2 key).1.isSome = true ↔ _ := remove_isSome_iff
  have htops := a.tops_adapt key k
  simp only [tally] at h ⊢
  rw [htops]
  by_cases hk : k = key
  · subst hk
    rw [if_pos rfl] at hrem₁ hrem₂ ⊢
    rcases a.adapt_cases k with ⟨hb₁, p, -, had⟩ | ⟨hb₁, hb₂, p, -, had⟩ | ⟨hb₁, hb₂, had⟩
    · have hpos := hin₁.mp hb₁
      rw [had]
      show a.tops k + (a.b1.remove k).2.names.count k + a.b2.names.count k = _
      omega
    · have hpos := hin₂.mp hb₂
      rw [had]
      show a.tops k + a.b1.names.count k + (a.b2.remove k).2.names.count k = _
      omega
    · rw [hb₁] at hin₁
      rw [hb₂] at hin₂
      have hz₁ := hin₁.not.mp Bool.false_ne_true
      have hz₂ := hin₂.not.mp Bool.false_ne_true
      rw [had]
      show a.tops k + a.b1.names.count k + a.b2.names.count k = _
      omega
  · rw [if_neg hk] at hrem₁ hrem₂ ⊢
    rcases a.adapt_cases key with ⟨-, p, -, had⟩ | ⟨-, -, p, -, had⟩ | ⟨-, -, had⟩
    · rw [had]
      show a.tops k + (a.b1.remove key).2.names.count k + a.b2.names.count k = _
      rw [hrem₁]
    · rw [had]
      show a.tops k + a.b1.names.count k + (a.b2.remove key).2.names.count k = _
      rw [hrem₂]
    · rw [had]

theorem p_adapt_le (h : a.p ≤ a.capacity) (key : K) : (a.adapt key).2.p ≤ a.capacity := by
  rcases a.adapt_cases key with ⟨-, p, hp, had⟩ | ⟨-, -, p, hp, had⟩ | ⟨-, -, had⟩
  · rw [had]
    exact hp
  · rw [had]
    exact UInt64.le_trans hp h
  · rw [had]
    exact h

/-- Making room takes the key off the ghost lists, puts it on no list, and another key on no
further list. -/
theorem tally_makeRoom_le (h : ∀ k, a.tally k ≤ 1) (hkey : a.tops key = 0) (k : K) :
    (a.makeRoom key).tally k ≤ if k = key then 0 else 1 := by
  have hadapt := tally_adapt (h key) k
  have hreplace := tally_replace_le (a.adapt key).2 (a.adapt key).1 k
  have hle := h k
  unfold makeRoom
  simp only
  split_ifs at hadapt ⊢ <;> omega

theorem makeRoom_p (a : Arc (PlainList K)) (key : K) :
    (a.makeRoom key).p = (a.adapt key).2.p := by
  unfold makeRoom
  simp only
  split_ifs
  · exact replace_p _ _
  · rfl

/-- A key found on `t1` or `t2` moves to the front of `t2`. -/
def promoted (a : Arc (PlainList K)) (key : K) (cost : UInt64) : Arc (PlainList K) :=
  { a with t1 := (a.t1.remove key).2, t2 := a.t2.pushFront key cost }

theorem tally_promoted_le (h : ∀ k, a.tally k ≤ 1) (hkey : 0 < a.tops key) (cost : UInt64)
    (k : K) : (a.promoted key cost).tally k ≤ 1 := by
  have hself := h key
  have hle := h k
  have hrem := count_remove a.t1 key k
  have hpush := count_pushFront a.t2 key cost k
  simp only [tally, tops, promoted] at hself hle hkey ⊢
  by_cases hk : k = key
  · subst hk
    rw [if_pos rfl] at hrem hpush
    omega
  · rw [if_neg hk] at hrem hpush
    omega

theorem tops_promoted (a : Arc (PlainList K)) (key : K) (cost : UInt64) (k : K) :
    (a.promoted key cost).tops k = if k = key then 1 else a.tops k := by
  have hrem := count_remove a.t1 key k
  have hpush := count_pushFront a.t2 key cost k
  simp only [tops, promoted]
  split_ifs at hrem hpush ⊢ <;> omega

theorem remove_of_not_mem {c : PlainList K} (h : (CostList.remove c key).1.isSome = false) :
    (c.remove key).2 = c := by
  have hnot : key ∉ c.names := fun hmem =>
    Bool.false_ne_true (h.symm.trans ((remove_isSome c key).mpr hmem))
  unfold PlainList.remove
  rw [find_eq_none.mpr hnot]

theorem tops_cases (a : Arc (PlainList K)) (key : K) (cost : UInt64) :
    ((CostList.remove a.t1 key).1.isSome = true ∧ 0 < a.tops key) ∨
    ((CostList.remove a.t1 key).1.isSome = false ∧ CostList.contains a.t2 key = true ∧
      0 < a.tops key ∧ a.promoted key cost = { a with t2 := CostList.pushFront a.t2 key cost }) ∨
    ((CostList.remove a.t1 key).1.isSome = false ∧ CostList.contains a.t2 key = false ∧
      a.tops key = 0) := by
  have hin : (CostList.remove a.t1 key).1.isSome = true ↔ _ := remove_isSome_iff
  have hin' : CostList.contains a.t2 key = true ↔ _ := contains_iff_count
  cases ht₁ : (CostList.remove a.t1 key).1.isSome with
  | true =>
    have hpos := hin.mp ht₁
    exact .inl ⟨rfl, by rw [tops]; omega⟩
  | false =>
    cases ht₂ : CostList.contains a.t2 key with
    | true =>
      have hpos := hin'.mp ht₂
      refine .inr (.inl ⟨rfl, rfl, by rw [tops]; omega, ?_⟩)
      rw [promoted, remove_of_not_mem ht₁]
      rfl
    | false =>
      have hz₁ := hin.not.mp (by simp [ht₁])
      have hz₂ := hin'.not.mp (by simp [ht₂])
      exact .inr (.inr ⟨rfl, rfl, by rw [tops]; omega⟩)

theorem onAccess_cases (a : Arc (PlainList K)) (key : K) (cost : UInt64) :
    (0 < a.tops key ∧ a.onAccess key cost = a.promoted key cost) ∨
    (a.tops key = 0 ∧ a.onAccess key cost = a) := by
  rcases a.tops_cases key cost with ⟨ht₁, hpos⟩ | ⟨ht₁, ht₂, hpos, heq⟩ | ⟨ht₁, ht₂, hzero⟩
  · refine .inl ⟨hpos, ?_⟩
    simp only [onAccess, ht₁, if_true]
    rfl
  · refine .inl ⟨hpos, ?_⟩
    simp [onAccess, ht₁, ht₂, heq]
  · exact .inr ⟨hzero, by simp [onAccess, ht₁, ht₂]⟩

theorem onAdmit_cases (a : Arc (PlainList K)) (key : K) (cost : UInt64) :
    (0 < a.tops key ∧ a.onAdmit key cost = a.promoted key cost) ∨
    (a.tops key = 0 ∧ a.onAdmit key cost =
      { a.makeRoom key with t1 := (a.makeRoom key).t1.pushFront key cost }) := by
  rcases a.tops_cases key cost with ⟨ht₁, hpos⟩ | ⟨ht₁, ht₂, hpos, heq⟩ | ⟨ht₁, ht₂, hzero⟩
  · refine .inl ⟨hpos, ?_⟩
    simp only [onAdmit, ht₁, if_true]
    rfl
  · refine .inl ⟨hpos, ?_⟩
    simp [onAdmit, ht₁, ht₂, heq]
  · refine .inr ⟨hzero, ?_⟩
    simp only [onAdmit, ht₁, ht₂, Bool.false_eq_true, if_false]
    rfl

theorem count_remove_le (c : PlainList K) (key k : K) :
    (c.remove key).2.names.count k ≤ c.names.count k := by
  rw [count_remove]
  split_ifs <;> omega

theorem tally_onRemove_le (a : Arc (PlainList K)) (key k : K) :
    (a.onRemove key).tally k ≤ a.tally k := by
  have h₁ := count_remove_le a.t1 key k
  have h₂ := count_remove_le a.t2 key k
  have h₃ := count_remove_le a.b1 key k
  have h₄ := count_remove_le a.b2 key k
  unfold Arc.onRemove
  simp only [tally, tops]
  split_ifs
  · exact Nat.add_le_add_right (Nat.add_le_add_right (Nat.add_le_add_right h₁ _) _) _
  · exact Nat.add_le_add_right (Nat.add_le_add_right (Nat.add_le_add_left h₂ _) _) _
  · exact Nat.add_le_add_right (Nat.add_le_add_left h₃ _) _
  · exact Nat.add_le_add_left h₄ _

theorem onRemove_p (a : Arc (PlainList K)) (key : K) : (a.onRemove key).p = a.p := by
  unfold Arc.onRemove
  simp only
  split_ifs <;> rfl

/-! ### No key on two lists -/

namespace Disciplined

theorem promoted (h : a.Disciplined) (hkey : 0 < a.tops key) (cost : UInt64) :
    (a.promoted key cost).Disciplined :=
  ⟨tally_promoted_le h.tally_le hkey cost, h.p_le⟩

theorem onAccess (h : a.Disciplined) (key : K) (cost : UInt64) :
    (a.onAccess key cost).Disciplined := by
  rcases a.onAccess_cases key cost with ⟨hpos, heq⟩ | ⟨-, heq⟩
  · rw [heq]
    exact h.promoted hpos cost
  · rw [heq]
    exact h

theorem onAdmit (h : a.Disciplined) (key : K) (cost : UInt64) :
    (a.onAdmit key cost).Disciplined := by
  rcases a.onAdmit_cases key cost with ⟨hpos, heq⟩ | ⟨hzero, heq⟩
  · rw [heq]
    exact h.promoted hpos cost
  · rw [heq]
    refine ⟨fun k => ?_, ?_⟩
    · have hroom := tally_makeRoom_le h.tally_le hzero k
      have hpush := count_pushFront (a.makeRoom key).t1 key cost k
      simp only [tally, tops] at hroom ⊢
      split_ifs at hroom hpush <;> omega
    · show (a.makeRoom key).p ≤ (a.makeRoom key).capacity
      rw [makeRoom_p, makeRoom_capacity]
      exact p_adapt_le h.p_le key

theorem onRemove (h : a.Disciplined) (key : K) : (a.onRemove key).Disciplined := by
  refine ⟨fun k => ?_, ?_⟩
  · have hle := h.tally_le k
    have hrem := a.tally_onRemove_le key k
    omega
  · have hcap := a.step_capacity (.onRemove key)
    rw [Arc.step] at hcap
    rw [onRemove_p, hcap]
    exact h.p_le

theorem replace (h : a.Disciplined) (keyInB2 : Bool) : (a.replace keyInB2).2.Disciplined := by
  refine ⟨fun k => (tally_replace_le a keyInB2 k).trans (h.tally_le k), ?_⟩
  rw [replace_p, replace_capacity]
  exact h.p_le

theorem evictLoop (fuel : ℕ) (costToFree freed : UInt64) {a : Arc (PlainList K)}
    (h : a.Disciplined) : (evictLoop fuel costToFree freed a).2.Disciplined := by
  induction fuel generalizing freed a with
  | zero => exact h
  | succ fuel ih =>
    have hrep := h.replace a.tailInB2
    unfold Arc.evictLoop
    split_ifs
    · cases hout : a.replace a.tailInB2 with
      | mk o a' =>
        rw [hout] at hrep
        cases o with
        | none => exact hrep
        | some kc => exact ih (freed + kc.2) hrep
    · exact h

theorem clear (a : Arc (PlainList K)) : a.clear.Disciplined :=
  ⟨fun _ => Nat.zero_le _, UInt64.zero_le⟩

theorem step (h : a.Disciplined) (op : Op K) : (a.step op).Disciplined := by
  cases op with
  | onAccess key cost => exact h.onAccess key cost
  | onAdmit key cost => exact h.onAdmit key cost
  | onRemove key => exact h.onRemove key
  | evict costToFree => exact h.evictLoop _ costToFree 0
  | clear => exact clear a

theorem run (h : a.Disciplined) (ops : List (Op K)) : (a.run ops).Disciplined := by
  induction ops generalizing a with
  | nil => exact h
  | cons op ops ih => exact ih (h.step op)

end Disciplined

theorem disciplined_new (capacity : UInt64) :
    (new capacity : Arc (PlainList K)).Disciplined :=
  ⟨fun _ => Nat.zero_le _, UInt64.zero_le⟩

def keys {L : Type*} [CostList L K] (l : L) : List K := (entries l).map Prod.fst

theorem keys_plain (c : PlainList K) : keys c = c.names := by
  show (c.tracked.map fun e => (e.name, e.cost)).map Prod.fst = c.tracked.map (·.name)
  rw [map_map]
  rfl

theorem simulates_run (capacity : UInt64) (ops : List (Op K)) :
    Simulates LruList.Shows (run (new capacity : Arc (LruList K)) ops)
      (run (new capacity : Arc (PlainList K)) ops) :=
  Simulates.run simulates_shows (Simulates.new simulates_shows capacity) ops

theorem keys_of_shows {l : LruList K} {c : PlainList K} (h : l.Shows c) : keys l = c.names := by
  rw [← keys_plain, keys, keys, simulates_shows.entries h]

theorem contains_iff_mem_keys {l : LruList K} {c : PlainList K} (h : l.Shows c) (k : K) :
    CostList.contains l k = true ↔ k ∈ keys l := by
  rw [keys_of_shows h, simulates_shows.contains k h]
  exact contains_iff

/-- After every sequence of calls, with any costs, no key is on two of the four lists or twice on
one, each list finds exactly its keys, and the target is within the capacity. -/
theorem lists_disjoint (capacity : UInt64) (ops : List (Op K)) :
    let s := run (new capacity : Arc (LruList K)) ops
    (keys s.t1 ++ keys s.t2 ++ keys s.b1 ++ keys s.b2).Nodup ∧
      (∀ l ∈ [s.t1, s.t2, s.b1, s.b2], ∀ k, CostList.contains l k = true ↔ k ∈ keys l) ∧
      s.p ≤ capacity := by
  intro s
  have hs : Simulates LruList.Shows s _ := simulates_run capacity ops
  have hd := (disciplined_new (K := K) capacity).run ops
  refine ⟨?_, ?_, ?_⟩
  · rw [keys_of_shows hs.t1, keys_of_shows hs.t2, keys_of_shows hs.b1, keys_of_shows hs.b2,
      List.nodup_iff_count_le_one]
    intro k
    have hle := hd.tally_le k
    simp only [tally, tops] at hle
    simp only [List.count_append]
    omega
  · intro l hl k
    simp only [List.mem_cons, List.not_mem_nil, or_false] at hl
    rcases hl with rfl | rfl | rfl | rfl
    · exact contains_iff_mem_keys hs.t1 k
    · exact contains_iff_mem_keys hs.t2 k
    · exact contains_iff_mem_keys hs.b1 k
    · exact contains_iff_mem_keys hs.b2 k
  · have hle := hd.p_le
    rw [run_capacity] at hle
    rw [hs.p]
    exact hle

/-! ### Live keys -/

section Live

variable {L : Type*} [CostList L K]

/-- The key is on `t1` or `t2`. -/
def tracked (s : Arc L) (key : K) : Bool := CostList.contains s.t1 key || CostList.contains s.t2 key

/-- The list that the next key to be replaced is taken from has one. -/
def replaceable (s : Arc L) (keyInB2 : Bool) : Bool :=
  if s.fromT1 keyInB2 then (tailKey s.t1).isSome else (tailKey s.t2).isSome

/-- An admission that has to replace a key. -/
def Displaces (s : Arc L) : Op K → Prop
  | .onAdmit key _ => s.tracked key = false ∧ (s.adapt key).2.full = true ∧
      (s.adapt key).2.replaceable (s.adapt key).1 = true
  | _ => False

/-- The live keys after a call, given those before it. -/
def liveAfter (s : Arc L) (live : Finset K) : Op K → Finset K
  | .onAccess _ _ => live
  | .onAdmit key _ => insert key live
  | .onRemove key => live.erase key
  | .evict costToFree => live.filter fun k => k ∉ (s.evict costToFree).1.1
  | .clear => ∅

/-- The keys admitted and since neither removed nor handed out as victims, after a sequence of
calls. -/
def live (s : Arc L) (keys : Finset K) : List (Op K) → Finset K
  | [] => keys
  | op :: ops => live (s.step op) (s.liveAfter keys op) ops

end Live

theorem tracked_iff : a.tracked key = true ↔ 0 < a.tops key := by
  have h₁ : CostList.contains a.t1 key = true ↔ _ := contains_iff_count
  have h₂ : CostList.contains a.t2 key = true ↔ _ := contains_iff_count
  rw [tracked, Bool.or_eq_true, h₁, h₂, tops]
  omega

theorem tracked_eq_false : a.tracked key = false ↔ a.tops key = 0 := by
  rw [← Bool.not_eq_true, tracked_iff]
  omega

theorem popBack_eq_none_iff {c : PlainList K} :
    CostList.popBack c = none ↔ (tailKey c).isSome = false := by
  show c.popBack = none ↔ (c.tracked.head?.map (·.name)).isSome = false
  cases hc : c.tracked <;> simp [PlainList.popBack, hc]

theorem replace_isSome (a : Arc (PlainList K)) (keyInB2 : Bool) :
    (a.replace keyInB2).1.isSome = a.replaceable keyInB2 := by
  unfold replaceable
  rcases a.replace_cases keyInB2 with ⟨hrep, h₁, h₂⟩ | ⟨kc, t1, hfrom, hpop, hrep⟩ |
    ⟨kc, t2, hfrom, hpop, hrep⟩
  · rw [hrep]
    split_ifs with hfrom
    · exact (popBack_eq_none_iff.mp (h₁ hfrom)).symm
    · exact (popBack_eq_none_iff.mp (h₂ (by simpa using hfrom))).symm
  · have hsome : ¬ (tailKey a.t1).isSome = false :=
      popBack_eq_none_iff.not.mp (by rw [hpop]; exact Option.some_ne_none _)
    rw [hrep, if_pos hfrom, Bool.of_not_eq_false hsome]
    rfl
  · have hsome : ¬ (tailKey a.t2).isSome = false :=
      popBack_eq_none_iff.not.mp (by rw [hpop]; exact Option.some_ne_none _)
    rw [hrep, if_neg (by simp [hfrom]), Bool.of_not_eq_false hsome]
    rfl

theorem tops_evictLoop (fuel : ℕ) (costToFree freed : UInt64) (a : Arc (PlainList K)) (k : K) :
    a.tops k = (evictLoop fuel costToFree freed a).2.tops k +
      (evictLoop fuel costToFree freed a).1.1.count k := by
  induction fuel generalizing freed a with
  | zero => simp [evictLoop]
  | succ fuel ih =>
    have hrep := a.tops_replace a.tailInB2 k
    unfold evictLoop
    split_ifs
    · cases hout : a.replace a.tailInB2 with
      | mk o a' =>
        rw [hout] at hrep
        cases o with
        | none => simpa using hrep
        | some kc =>
          have hrest := ih (freed + kc.2) a'
          simp only [Option.map_some, Option.some.injEq] at hrep
          simp only [count_cons, beq_iff_eq]
          omega
    · simp

theorem tops_onRemove (h : a.Disciplined) (key k : K) :
    (a.onRemove key).tops k = if k = key then 0 else a.tops k := by
  have hle := h.tally_le key
  have hin₁ : (CostList.remove a.t1 key).1.isSome = true ↔ _ := remove_isSome_iff
  have hin₂ : (CostList.remove a.t2 key).1.isSome = true ↔ _ := remove_isSome_iff
  have h₁ : (CostList.remove a.t1 key).2.names.count k = _ := count_remove a.t1 key k
  have h₂ : (CostList.remove a.t2 key).2.names.count k = _ := count_remove a.t2 key k
  simp only [tally, tops] at hle
  unfold Arc.onRemove
  by_cases hk : k = key
  · subst hk
    rw [if_pos rfl] at h₁ h₂ ⊢
    simp only [hin₁, hin₂]
    split_ifs <;> simp only [tops] <;> omega
  · rw [if_neg hk] at h₁ h₂ ⊢
    simp only [hin₁, hin₂]
    split_ifs <;> simp only [tops] <;> omega

/-- Making room for a key takes none off the top lists, unless one has to be replaced. -/
theorem tops_makeRoom (h : (a.adapt key).2.full = true →
    ¬ (a.adapt key).2.replaceable (a.adapt key).1 = true) (k : K) :
    (a.makeRoom key).tops k = a.tops k := by
  unfold makeRoom
  simp only
  split_ifs with hfull
  · have hnone := h hfull
    rw [← replace_isSome, Bool.not_eq_true, Option.isSome_eq_false_iff,
      Option.isNone_iff_eq_none] at hnone
    have hrep := (a.adapt key).2.tops_replace (a.adapt key).1 k
    rw [hnone, tops_adapt] at hrep
    simpa using hrep.symm
  · exact a.tops_adapt key k

theorem tops_makeRoom_le (a : Arc (PlainList K)) (key k : K) :
    (a.makeRoom key).tops k ≤ a.tops k := by
  have hrep := (a.adapt key).2.tops_replace (a.adapt key).1 k
  rw [tops_adapt] at hrep
  unfold makeRoom
  simp only
  split_ifs
  · omega
  · exact (a.tops_adapt key k).le

theorem tops_onAdmit (h : a.tops key = 0) (cost : UInt64) (k : K) :
    (a.onAdmit key cost).tops k = if k = key then 1 else (a.makeRoom key).tops k := by
  have hroom := a.tops_makeRoom_le key key
  have hpush := count_pushFront (a.makeRoom key).t1 key cost k
  rcases a.onAdmit_cases key cost with ⟨hpos, -⟩ | ⟨-, heq⟩
  · omega
  · rw [heq]
    simp only [tops] at hroom h ⊢
    rw [hpush]
    split_ifs with hk
    · subst hk
      omega
    · rfl

def Agree (a : Arc (PlainList K)) (live : Finset K) : Prop := ∀ k, k ∈ live ↔ 0 < a.tops k

namespace Agree

variable {live : Finset K}

theorem insert (h : a.Agree live) {b : Arc (PlainList K)}
    (hb : ∀ k, b.tops k = if k = key then 1 else a.tops k) : b.Agree (insert key live) := by
  intro k
  rw [Finset.mem_insert, hb, h k]
  split_ifs with hk
  · simp [hk]
  · simp [hk]

/-- A call that displaces no key keeps track of every live one. -/
theorem step (hd : a.Disciplined) (h : a.Agree live) {op : Op K} (hop : ¬ a.Displaces op) :
    (a.step op).Agree (a.liveAfter live op) := by
  cases op with
  | onAccess key cost =>
    intro k
    show k ∈ live ↔ 0 < (a.onAccess key cost).tops k
    rcases a.onAccess_cases key cost with ⟨hpos, heq⟩ | ⟨-, heq⟩
    · rw [heq, tops_promoted, h k]
      split_ifs with hk
      · simpa [hk] using hpos
      · rfl
    · rw [heq, h k]
  | onAdmit key cost =>
    rcases a.onAdmit_cases key cost with ⟨hpos, heq⟩ | ⟨hzero, heq⟩
    · refine h.insert fun k => ?_
      show (a.onAdmit key cost).tops k = _
      rw [heq, tops_promoted]
    · refine h.insert fun k => ?_
      show (a.onAdmit key cost).tops k = _
      rw [tops_onAdmit hzero,
        tops_makeRoom fun hfull hrep => hop ⟨tracked_eq_false.mpr hzero, hfull, hrep⟩]
  | onRemove key =>
    intro k
    show k ∈ live.erase key ↔ 0 < (a.onRemove key).tops k
    rw [Finset.mem_erase, tops_onRemove hd, h k]
    split_ifs with hk <;> simp [hk]
  | evict costToFree =>
    intro k
    have hout := tops_evictLoop a.evictTurns costToFree 0 a k
    have hle := hd.tally_le k
    show k ∈ live.filter _ ↔ 0 < (a.evict costToFree).2.tops k
    rw [Finset.mem_filter, h k, ← List.count_eq_zero]
    simp only [tally] at hle
    unfold evict
    omega
  | clear => exact fun k => by simp [liveAfter, Arc.step, Arc.clear, tops, names, CostList.clear]

theorem displaced (hd : a.Disciplined) (h : a.Agree live) {op : Op K} (hop : a.Displaces op) :
    ∃ k ∈ a.liveAfter live op, ¬ 0 < (a.step op).tops k := by
  cases op with
  | onAdmit key cost =>
    obtain ⟨htracked, hfull, hrep⟩ := hop
    have hzero := tracked_eq_false.mp htracked
    rw [← replace_isSome] at hrep
    obtain ⟨kc, hkc⟩ := Option.isSome_iff_exists.mp hrep
    -- the key was on one list, and is taken off it
    have htops := (a.adapt key).2.tops_replace (a.adapt key).1 kc.1
    have hle := hd.tally_le kc.1
    rw [hkc, tops_adapt, Option.map_some, if_pos rfl] at htops
    have hne : kc.1 ≠ key := by
      rintro rfl
      omega
    have hroom : (a.makeRoom key).tops kc.1 = 0 := by
      rw [makeRoom]
      simp only [hfull, if_true]
      rw [tally] at hle
      omega
    refine ⟨kc.1, Finset.mem_insert_of_mem ((h kc.1).mpr (by omega)), ?_⟩
    show ¬ 0 < (a.onAdmit key cost).tops kc.1
    rw [tops_onAdmit hzero, if_neg hne, hroom]
    exact lt_irrefl 0
  | _ => exact hop.elim

end Agree

theorem tracked_iff_of_agree (ops : List (Op K)) {live : Finset K} (hd : a.Disciplined)
    (h : a.Agree live) :
    (∀ pre, pre <+: ops → ∀ k ∈ a.live live pre, (a.run pre).tracked k = true) ↔
      ∀ pre op, pre ++ [op] <+: ops → ¬ (a.run pre).Displaces op := by
  induction ops generalizing a live with
  | nil =>
    constructor
    · intro _ pre op hpre
      simp at hpre
    · intro _ pre hpre k hk
      obtain rfl := prefix_nil.mp hpre
      exact tracked_iff.mpr ((h k).mp hk)
  | cons op ops ih =>
    by_cases hop : a.Displaces op
    · constructor
      · intro hall
        obtain ⟨k, hk, hnot⟩ := h.displaced hd hop
        have htracked := hall [op] (prefix_append [op] ops) k hk
        exact absurd (tracked_iff.mp htracked) hnot
      · intro hnone
        exact absurd hop (hnone [] op (prefix_append [op] ops))
    · have hrest := ih (hd.step op) (h.step hd hop)
      constructor
      · intro hall pre op' hpre
        cases pre with
        | nil =>
          obtain ⟨rfl, -⟩ := cons_prefix_cons.mp hpre
          exact hop
        | cons o pre =>
          obtain ⟨rfl, hops⟩ := cons_prefix_cons.mp hpre
          refine hrest.mp (fun pre hpre => ?_) pre op' hops
          exact hall (o :: pre) (cons_prefix_cons.mpr ⟨rfl, hpre⟩)
      · intro hnone pre hpre
        cases pre with
        | nil => exact fun k hk => tracked_iff.mpr ((h k).mp hk)
        | cons o pre =>
          obtain ⟨rfl, hops⟩ := cons_prefix_cons.mp hpre
          refine hrest.mpr (fun pre op' hpre => ?_) pre hops
          exact hnone (o :: pre) op' (cons_prefix_cons.mpr ⟨rfl, hpre⟩)

namespace Simulates

variable {L L' : Type*} [CostList L K] [CostList L' K] {R : L → L' → Prop} {s : Arc L}
  {b : Arc L'} (hR : CostList.Simulates R) (h : Simulates R s b)
include hR h

omit [DecidableEq K] in
theorem tracked (key : K) : s.tracked key = b.tracked key := by
  simp only [Arc.tracked, hR.contains key h.t1, hR.contains key h.t2]

omit [DecidableEq K] in
theorem replaceable (keyInB2 : Bool) : s.replaceable keyInB2 = b.replaceable keyInB2 := by
  simp only [Arc.replaceable, fromT1 hR h, hR.tailKey h.t1, hR.tailKey h.t2]

omit [DecidableEq K] in
theorem displaces (op : Op K) : s.Displaces op ↔ b.Displaces op := by
  cases op with
  | onAdmit key cost =>
    obtain ⟨hb2, hadapt⟩ := adapt hR h key
    simp only [Displaces, tracked hR h, full hR hadapt, replaceable hR hadapt, hb2]
  | _ => rfl

theorem liveAfter (keys : Finset K) (op : Op K) : s.liveAfter keys op = b.liveAfter keys op := by
  cases op with
  | evict costToFree => simp only [Arc.liveAfter, (evict hR h costToFree).1]
  | _ => rfl

omit h in
theorem live (ops : List (Op K)) {s : Arc L} {b : Arc L'} (h : Simulates R s b)
    (keys : Finset K) : s.live keys ops = b.live keys ops := by
  induction ops generalizing s b keys with
  | nil => rfl
  | cons op ops ih =>
    rw [Arc.live, Arc.live, liveAfter hR h]
    exact ih (step hR h op) _

end Simulates

/-- In every sequence of calls, no key that was admitted and since neither removed nor handed out
as a victim is ever missing from `t1` and `t2` if and only if no admission has to replace a key:
a replaced key is forgotten without being named. -/
theorem remembered_iff (capacity : UInt64) (ops : List (Op K)) :
    let s : Arc (LruList K) := new capacity
    (∀ pre, pre <+: ops → ∀ k ∈ s.live ∅ pre, (s.run pre).tracked k = true) ↔
      ∀ pre op, pre ++ [op] <+: ops → ¬ (s.run pre).Displaces op := by
  intro s
  have hR := simulates_shows (K := K)
  have hnew := Simulates.new hR capacity
  have hagree : (new capacity : Arc (PlainList K)).Agree ∅ := by
    intro k
    show k ∈ (∅ : Finset K) ↔ 0 < 0 + 0
    simp
  have hplain := tracked_iff_of_agree ops (disciplined_new capacity) hagree
  constructor
  · intro hall pre op hpre
    rw [Simulates.displaces hR (simulates_run capacity pre)]
    refine hplain.mp (fun pre hpre k hk => ?_) pre op hpre
    rw [← Simulates.tracked hR (simulates_run capacity pre)]
    exact hall pre hpre k (by rwa [Simulates.live hR pre hnew])
  · intro hnone pre hpre k hk
    rw [Simulates.tracked hR (simulates_run capacity pre)]
    refine hplain.mpr (fun pre op hpre => ?_) pre hpre k ?_
    · rw [← Simulates.displaces hR (simulates_run capacity pre)]
      exact hnone pre op hpre
    · rwa [← Simulates.live hR pre hnew]

/-- Two keys come to a cache of capacity one. -/
theorem forgotten_two_keys : ¬ ∀ (capacity : UInt64) (ops : List (Op ℕ)),
    ∀ k ∈ (new capacity : Arc (LruList ℕ)).live ∅ ops,
      ((new capacity : Arc (LruList ℕ)).run ops).tracked k = true := by
  intro h
  have htracked := h 1 [ .onAdmit 1 1, .onAdmit 2 1] 1 (by decide)
  exact absurd htracked (by decide)

end Arc

end Fibre.Cache
