import Fibre.Cache.LruList

/-!
# Lists of costed keys

What a key policy needs of an LRU list. The policies of the cache are written over any such
list, so that one program runs on the linked lists of the source and on plain lists, and what
is proved of it on plain lists holds of it on linked ones.

A list records the sum of its costs in a machine word. It wraps when a cost is added and
saturates when one is taken off, so it is the sum of the costs only as long as that fits a
word, and nothing here asks for that.
-/

namespace Fibre.Cache

open CostQueue Word List

/-- A list of keys with their costs, in the order of their use. -/
class CostList (L : Type*) (K : outParam Type*) where
  empty : L
  contains : L → K → Bool
  currentTotalCost : L → UInt64
  pushFront : L → K → UInt64 → L
  moveToFront : L → K → L
  popBack : L → Option ((K × UInt64) × L)
  remove : L → K → Option UInt64 × L
  clear : L → L
  /-- The key at the tail. -/
  tailKey : L → Option K
  /-- The keys and costs, from the tail on. -/
  entries : L → List (K × UInt64)

instance {K : Type*} [DecidableEq K] : CostList (LruList K) K where
  empty := LruList.new
  contains := LruList.contains
  currentTotalCost := LruList.currentCost
  pushFront := LruList.pushFront
  moveToFront := LruList.moveToFront
  popBack := LruList.popBack
  remove := LruList.remove
  clear := LruList.clear
  tailKey l := (l.tail.bind l.nodes).map (·.key)
  entries := LruList.fromTail

/-- The entries of a list, least recently used first, and the cost it has recorded. -/
structure PlainList (K : Type*) where
  tracked : List (Tracked K K)
  recorded : UInt64

namespace PlainList

variable {K : Type*}

/-- The keys, least recently used first. -/
def names (c : PlainList K) : List K := c.tracked.map (·.name)

/-- Takes the least recently used entry. -/
def popBack (c : PlainList K) : Option ((K × UInt64) × PlainList K) :=
  match c.tracked with
  | [] => none
  | e :: rest => some ((e.name, e.cost), ⟨rest, satSub c.recorded e.cost⟩)

variable [DecidableEq K]

def find (c : PlainList K) (key : K) : Option (Tracked K K) := c.tracked.find? (·.name = key)

/-- Makes `key` the most recently used, with `cost`, inserting it if need be. -/
def pushFront (c : PlainList K) (key : K) (cost : UInt64) : PlainList K :=
  match c.find key with
  | none => ⟨c.tracked ++ [⟨key, key, cost⟩], c.recorded + cost⟩
  | some e =>
    ⟨Tracked.without key c.tracked ++ [⟨key, key, cost⟩], satSub c.recorded e.cost + cost⟩

/-- Makes `key` the most recently used, with the cost it has. -/
def moveToFront (c : PlainList K) (key : K) : PlainList K :=
  match c.find key with
  | none => c
  | some e => { c with tracked := Tracked.without key c.tracked ++ [e] }

/-- Removes `key`; returns its cost if it was in the list. -/
def remove (c : PlainList K) (key : K) : Option UInt64 × PlainList K :=
  match c.find key with
  | none => (none, c)
  | some e => (some e.cost, ⟨Tracked.without key c.tracked, satSub c.recorded e.cost⟩)

instance : CostList (PlainList K) K where
  empty := ⟨[], 0⟩
  contains c key := key ∈ c.names
  currentTotalCost := recorded
  pushFront := pushFront
  moveToFront := moveToFront
  popBack := popBack
  remove := remove
  clear _ := ⟨[], 0⟩
  tailKey c := c.tracked.head?.map (·.name)
  entries c := c.tracked.map fun e => (e.name, e.cost)

end PlainList

namespace CostList

variable {L L' K : Type*} [CostList L K] [CostList L' K]

/-- A relation of two lists that every operation keeps, with the same results. -/
structure Simulates (R : L → L' → Prop) : Prop where
  empty : R (CostList.empty : L) (CostList.empty : L')
  contains : ∀ {l c} (key : K), R l c → CostList.contains l key = CostList.contains c key
  currentTotalCost : ∀ {l c}, R l c → currentTotalCost l = currentTotalCost c
  pushFront : ∀ {l c} (key : K) (cost : UInt64), R l c →
    R (CostList.pushFront l key cost) (CostList.pushFront c key cost)
  moveToFront : ∀ {l c} (key : K), R l c →
    R (CostList.moveToFront l key) (CostList.moveToFront c key)
  popBack_none : ∀ {l c}, R l c → CostList.popBack c = none → CostList.popBack l = none
  popBack_some : ∀ {l c c'} {kc : K × UInt64}, R l c → CostList.popBack c = some (kc, c') →
    ∃ l', CostList.popBack l = some (kc, l') ∧ R l' c'
  remove : ∀ {l c} (key : K), R l c →
    (CostList.remove l key).1 = (CostList.remove c key).1 ∧
      R (CostList.remove l key).2 (CostList.remove c key).2
  clear : ∀ {l c}, R l c → R (CostList.clear l) (CostList.clear c)
  tailKey : ∀ {l c}, R l c → CostList.tailKey l = CostList.tailKey c
  entries : ∀ {l c}, R l c → CostList.entries l = CostList.entries c

end CostList

/-! ### Linked lists and plain lists -/

section Shows

variable {K : Type*} [DecidableEq K] {l : LruList K} {c : PlainList K} {key : K} {e : Tracked K K}

/-- A linked list with the entries and the recorded cost of a plain one. -/
def LruList.Shows (l : LruList K) (c : PlainList K) : Prop :=
  l.Lists c.tracked ∧ l.currentCost = c.recorded

namespace PlainList

theorem find_eq_none : c.find key = none ↔ key ∉ c.names := by
  simp [find, names]

theorem notMem_of_find (h : c.find key = none) : key ∉ c.names := by
  rwa [find_eq_none] at h

theorem find_eq_some (h : c.find key = some e) : e ∈ c.tracked ∧ e.name = key := by
  have hname := List.find?_some h
  exact ⟨mem_of_find?_eq_some h, by simpa using hname⟩

theorem contains_iff : CostList.contains c key = true ↔ key ∈ c.names := decide_eq_true_iff

end PlainList

namespace LruList.Shows

open PlainList

theorem lookup_eq_none (h : l.Shows c) (hk : c.find key = none) : l.lookup.lookup key = none := by
  simpa using h.1.lookup_isSome.not.mpr (notMem_of_find hk)

theorem pushFront (h : l.Shows c) (key : K) (cost : UInt64) :
    (l.pushFront key cost).Shows (c.pushFront key cost) := by
  unfold LruList.pushFront PlainList.pushFront
  cases hfind : c.find key with
  | none =>
    rw [h.lookup_eq_none hfind]
    refine ⟨h.1.pushNew (notMem_of_find hfind) cost, ?_⟩
    show (l.pushNew key cost).currentCost = _
    rw [pushNew_currentCost, h.2]
  | some e =>
    obtain ⟨he, rfl⟩ := find_eq_some hfind
    have hsome := h.1.lookup_isSome.mpr (mem_map_of_mem he)
    obtain ⟨i, hi⟩ := Option.isSome_iff_exists.mp hsome
    obtain ⟨hlists, e', he', hname, hcost⟩ := h.1.touchIndex hi cost
    -- the key has one entry
    obtain rfl : e' = e := inj_on_of_nodup_map h.1.nodup_names he' he hname
    rw [hi]
    refine ⟨hlists, ?_⟩
    show (l.touchIndex i cost).currentCost = _
    rw [hcost, h.2]

theorem moveToFront (h : l.Shows c) (key : K) : (l.moveToFront key).Shows (c.moveToFront key) := by
  unfold PlainList.moveToFront
  cases hfind : c.find key with
  | none =>
    rw [h.1.moveToFront_none (notMem_of_find hfind)]
    exact h
  | some e =>
    obtain ⟨he, rfl⟩ := find_eq_some hfind
    refine ⟨h.1.moveToFront he, ?_⟩
    show (l.moveToFront e.name).currentCost = c.recorded
    rw [moveToFront_currentCost, h.2]

theorem remove (h : l.Shows c) (key : K) :
    (l.remove key).1 = (c.remove key).1 ∧ (l.remove key).2.Shows (c.remove key).2 := by
  unfold PlainList.remove
  cases hfind : c.find key with
  | none =>
    rw [h.1.remove_none (notMem_of_find hfind)]
    exact ⟨rfl, h⟩
  | some e =>
    obtain ⟨he, rfl⟩ := find_eq_some hfind
    obtain ⟨hfst, hlists, hcost⟩ := h.1.remove he
    exact ⟨hfst, hlists, by rw [hcost, h.2]⟩

theorem popBack_none (h : l.Shows c) (hc : c.popBack = none) : l.popBack = none := by
  obtain ⟨hlists, -⟩ := h
  cases hL : c.tracked with
  | nil =>
    rw [hL] at hlists
    exact hlists.popBack_nil
  | cons e rest => simp [PlainList.popBack, hL] at hc

theorem popBack_some (h : l.Shows c) {kc : K × UInt64} {c' : PlainList K}
    (hc : c.popBack = some (kc, c')) : ∃ l', l.popBack = some (kc, l') ∧ l'.Shows c' := by
  obtain ⟨hlists, hrec⟩ := h
  cases hL : c.tracked with
  | nil => simp [PlainList.popBack, hL] at hc
  | cons e rest =>
    rw [hL] at hlists
    obtain ⟨rfl, rfl⟩ : (e.name, e.cost) = kc ∧ ⟨rest, satSub c.recorded e.cost⟩ = c' := by
      simpa [PlainList.popBack, hL] using hc
    obtain ⟨l', hpop, hl', hcost⟩ := hlists.popBack_cons
    exact ⟨l', hpop, hl', by rw [hcost, hrec]⟩

end LruList.Shows

theorem simulates_shows : CostList.Simulates (LruList.Shows : LruList K → PlainList K → Prop) where
  empty := ⟨LruList.lists_new, rfl⟩
  contains _ h := Bool.eq_iff_iff.mpr (h.1.contains_iff.trans PlainList.contains_iff.symm)
  currentTotalCost h := h.2
  pushFront key cost h := h.pushFront key cost
  moveToFront key h := h.moveToFront key
  popBack_none h := h.popBack_none
  popBack_some h := h.popBack_some
  remove key h := h.remove key
  clear _ := ⟨LruList.lists_clear _, rfl⟩
  tailKey h := h.1.tail_key
  entries h := h.1.fromTail

end Shows

/-! ### Plain lists -/

namespace PlainList

variable {K : Type*} [DecidableEq K] {c : PlainList K} {key : K}

theorem names_without (key : K) (L : List (Tracked K K)) :
    (Tracked.without key L).map (·.name) = (L.map (·.name)).filter (· ≠ key) := by
  unfold Tracked.without
  rw [filter_map]
  rfl

theorem names_remove (c : PlainList K) (key : K) :
    (c.remove key).2.names = c.names.filter (· ≠ key) := by
  unfold remove
  cases hfind : c.find key with
  | none =>
    symm
    apply filter_eq_self.mpr
    intro k hk
    have hne : k ≠ key := fun heq => notMem_of_find hfind (heq ▸ hk)
    simpa using hne
  | some e => exact names_without key c.tracked

theorem remove_isSome (c : PlainList K) (key : K) :
    (c.remove key).1.isSome = true ↔ key ∈ c.names := by
  unfold remove
  cases hfind : c.find key with
  | none => simpa using notMem_of_find hfind
  | some e =>
    obtain ⟨he, rfl⟩ := find_eq_some hfind
    have hmem : e.name ∈ c.names := mem_map_of_mem he
    simpa using hmem

theorem names_pushFront (c : PlainList K) (key : K) (cost : UInt64) :
    (c.pushFront key cost).names = c.names.filter (· ≠ key) ++ [key] := by
  unfold pushFront
  cases hfind : c.find key with
  | none =>
    have hself : c.names.filter (· ≠ key) = c.names := by
      apply filter_eq_self.mpr
      intro k hk
      have hne : k ≠ key := fun heq => notMem_of_find hfind (heq ▸ hk)
      simpa using hne
    rw [hself]
    simp [names]
  | some e =>
    have hwithout := names_without key c.tracked
    show (Tracked.without key c.tracked ++ [(⟨key, key, cost⟩ : Tracked K K)]).map Tracked.name = _
    rw [map_append, hwithout]
    rfl

omit [DecidableEq K] in
theorem names_popBack {kc : K × UInt64} {c' : PlainList K} (h : c.popBack = some (kc, c')) :
    c.names = kc.1 :: c'.names := by
  unfold popBack at h
  cases hL : c.tracked with
  | nil => simp [hL] at h
  | cons e rest =>
    simp only [hL, Option.some.injEq, Prod.mk.injEq] at h
    obtain ⟨rfl, rfl⟩ := h
    simp [names, hL]

/-! ### What is recorded -/

theorem totalNat_entries (c : PlainList K) :
    totalNat Prod.snd (CostList.entries c) = totalNat Tracked.cost c.tracked :=
  totalNat_map _ c.tracked

theorem map_fst_entries (c : PlainList K) : (CostList.entries c).map Prod.fst = c.names := by
  show (c.tracked.map fun e => (e.name, e.cost)).map Prod.fst = c.tracked.map (·.name)
  rw [map_map]
  rfl

/-- The list has every key once, and has recorded no more than its entries cost. -/
structure Kept (c : PlainList K) : Prop where
  nodup : c.names.Nodup
  recorded_le : c.recorded.toNat ≤ totalNat Tracked.cost c.tracked

theorem totalNat_without {L : List (Tracked K K)} (h : (L.map (·.name)).Nodup) {e : Tracked K K}
    (he : e ∈ L) :
    totalNat Tracked.cost (Tracked.without e.name L) + e.cost.toNat = totalNat Tracked.cost L := by
  obtain ⟨Lb, La, rfl⟩ := append_of_mem he
  rw [LruList.without_split h]
  simp only [totalNat_append, totalNat_cons]
  omega

namespace Kept

omit [DecidableEq K] in
theorem empty : Kept (⟨[], 0⟩ : PlainList K) := ⟨nodup_nil, le_rfl⟩

theorem nodup_pushFront (h : c.Kept) (key : K) (cost : UInt64) :
    (c.pushFront key cost).names.Nodup := by
  rw [names_pushFront]
  apply (h.nodup.filter _).append (nodup_singleton key)
  rw [disjoint_singleton]
  simp

/-- Adding in a word comes to no more than adding. -/
theorem pushFront (h : c.Kept) (key : K) (cost : UInt64) : (c.pushFront key cost).Kept := by
  refine ⟨h.nodup_pushFront key cost, ?_⟩
  have hle := h.recorded_le
  unfold PlainList.pushFront
  cases hfind : c.find key with
  | none =>
    have hadd := toNat_add_le c.recorded cost
    simp only [totalNat_append, totalNat_cons, totalNat_nil]
    omega
  | some e =>
    obtain ⟨he, rfl⟩ := find_eq_some hfind
    have hwithout := totalNat_without h.nodup he
    have hadd := toNat_add_le (satSub c.recorded e.cost) cost
    rw [toNat_satSub] at hadd
    simp only [totalNat_append, totalNat_cons, totalNat_nil]
    omega

theorem remove (h : c.Kept) (key : K) : (c.remove key).2.Kept := by
  constructor
  · rw [names_remove]
    exact h.nodup.filter _
  · have hle := h.recorded_le
    unfold PlainList.remove
    cases hfind : c.find key with
    | none => exact hle
    | some e =>
      obtain ⟨he, rfl⟩ := find_eq_some hfind
      have hwithout := totalNat_without h.nodup he
      simp only [toNat_satSub]
      omega

omit [DecidableEq K] in
theorem popBack {kc : K × UInt64} {c' : PlainList K} (h : c.Kept)
    (hpop : c.popBack = some (kc, c')) : c'.Kept := by
  have hnames := h.nodup
  rw [names_popBack hpop] at hnames
  refine ⟨(nodup_cons.mp hnames).2, ?_⟩
  have hle := h.recorded_le
  unfold PlainList.popBack at hpop
  cases hL : c.tracked with
  | nil => simp [hL] at hpop
  | cons e rest =>
    simp only [hL, Option.some.injEq, Prod.mk.injEq] at hpop
    obtain ⟨rfl, rfl⟩ := hpop
    rw [hL, totalNat_cons] at hle
    simp only [toNat_satSub]
    omega

omit [DecidableEq K] in
theorem recorded_of_nil (h : c.Kept) (hnil : c.tracked = []) : c.recorded = 0 := by
  have hle := h.recorded_le
  rw [hnil, totalNat_nil] at hle
  exact UInt64.toNat_inj.mp (by rw [UInt64.toNat_zero]; omega)

end Kept

end PlainList

end Fibre.Cache
