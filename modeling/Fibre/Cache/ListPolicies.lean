import Fibre.Cache.CostList
import Fibre.Cache.QueuedPolicy
import Fibre.Cache.TinyLfu

/-!
# The policies of LRU lists

FIFO and LRU keep their keys in one list, and SLRU in two. All take victims from the tails.
-/

namespace Fibre.Cache

open CostQueue PlainList Word List

variable {K : Type*}

/-! ### Lists as queues -/

section Stores

variable [DecidableEq K]

theorem PlainList.entries_without (key : K) (L : List (Tracked K K)) :
    (Tracked.without key L).map (fun e => (e.name, e.cost)) =
      dropKey key (L.map fun e => (e.name, e.cost)) := by
  rw [dropKey, filter_map]
  rfl

theorem PlainList.entries_pushFront (c : PlainList K) (key : K) (cost : UInt64) :
    CostList.entries (c.pushFront key cost) = dropKey key (CostList.entries c) ++ [(key, cost)] := by
  unfold PlainList.pushFront
  cases hfind : c.find key with
  | none =>
    have hout : key ∉ (CostList.entries c).map Prod.fst := by
      rw [map_fst_entries]
      exact notMem_of_find hfind
    rw [dropKey_of_notMem hout]
    exact map_append
  | some e =>
    show (Tracked.without key c.tracked ++ [(⟨key, key, cost⟩ : Tracked K K)]).map
      (fun e => (e.name, e.cost)) = _
    rw [map_append, entries_without]
    rfl

theorem PlainList.entries_remove (c : PlainList K) (key : K) :
    CostList.entries (c.remove key).2 = dropKey key (CostList.entries c) := by
  unfold PlainList.remove
  cases hfind : c.find key with
  | none =>
    have hout : key ∉ (CostList.entries c).map Prod.fst := by
      rw [map_fst_entries]
      exact notMem_of_find hfind
    rw [dropKey_of_notMem hout]
  | some e => exact entries_without key c.tracked

theorem PlainList.entries_moveToFront_perm {c : PlainList K} (h : c.names.Nodup) (key : K) :
    (CostList.entries (c.moveToFront key)).Perm (CostList.entries c) := by
  unfold PlainList.moveToFront
  cases hfind : c.find key with
  | none => exact .refl _
  | some e =>
    obtain ⟨he, rfl⟩ := find_eq_some hfind
    obtain ⟨Lb, La, hL⟩ := append_of_mem he
    have hwithout : Tracked.without e.name c.tracked = Lb ++ La := by
      rw [PlainList.names, hL] at h
      rw [hL]
      exact LruList.without_split h
    apply Perm.map
    show (Tracked.without e.name c.tracked ++ [e]).Perm c.tracked
    rw [hwithout, hL]
    exact (perm_append_singleton e (Lb ++ La)).trans perm_middle.symm

namespace LruList

/-- The list has these keys with their costs, from the tail on. -/
def Stores (l : LruList K) (q : List (K × UInt64)) : Prop :=
  ∃ c : PlainList K, l.Shows c ∧ CostList.entries c = q

variable {l : LruList K} {q : List (K × UInt64)} {e : K × UInt64} {key : K} {i : ℕ}

namespace Stores

theorem nodup (h : l.Stores q) : (q.map Prod.fst).Nodup := by
  obtain ⟨c, hc, rfl⟩ := h
  rw [map_fst_entries]
  exact hc.1.nodup_names

theorem fromTail (h : l.Stores q) : l.fromTail = q := by
  obtain ⟨c, hc, rfl⟩ := h
  exact hc.1.fromTail

theorem length_le (h : l.Stores q) : q.length ≤ l.lookup.keys.length := by
  obtain ⟨c, hc, rfl⟩ := h
  show (c.tracked.map _).length ≤ _
  rw [length_map]
  exact hc.1.length_le

theorem new : (LruList.new : LruList K).Stores [] := ⟨⟨[], 0⟩, ⟨lists_new, rfl⟩, rfl⟩

theorem clear (l : LruList K) : l.clear.Stores [] := ⟨⟨[], 0⟩, ⟨lists_clear l, rfl⟩, rfl⟩

theorem lookup_isSome (h : l.Stores q) :
    (l.lookup.lookup key).isSome = true ↔ key ∈ q.map Prod.fst := by
  obtain ⟨c, hc, rfl⟩ := h
  rw [map_fst_entries]
  exact hc.1.lookup_isSome

theorem pushFront (h : l.Stores q) (key : K) (cost : UInt64) :
    (l.pushFront key cost).Stores (dropKey key q ++ [(key, cost)]) := by
  obtain ⟨c, hc, rfl⟩ := h
  exact ⟨_, hc.pushFront key cost, entries_pushFront c key cost⟩

theorem touchIndex (h : l.Stores q) (hl : l.lookup.lookup key = some i) (cost : UInt64) :
    (l.touchIndex i cost).Stores (dropKey key q ++ [(key, cost)]) := by
  have hpush := h.pushFront key cost
  rwa [LruList.pushFront, hl] at hpush

theorem pushNew (h : l.Stores q) (hk : key ∉ q.map Prod.fst) (cost : UInt64) :
    (l.pushNew key cost).Stores (q ++ [(key, cost)]) := by
  have hnone : l.lookup.lookup key = none := by simpa using h.lookup_isSome.not.mpr hk
  have hpush := h.pushFront key cost
  rwa [LruList.pushFront, hnone, dropKey_of_notMem hk] at hpush

theorem moveToFront (h : l.Stores q) (key : K) :
    ∃ q', (l.moveToFront key).Stores q' ∧ q'.Perm q := by
  obtain ⟨c, hc, rfl⟩ := h
  exact ⟨_, ⟨_, hc.moveToFront key, rfl⟩, entries_moveToFront_perm hc.1.nodup_names key⟩

theorem remove (h : l.Stores q) (key : K) :
    ((l.remove key).1.isSome = true ↔ key ∈ q.map Prod.fst) ∧
      (l.remove key).2.Stores (dropKey key q) := by
  obtain ⟨c, hc, rfl⟩ := h
  obtain ⟨hfst, hshows⟩ := hc.remove key
  rw [map_fst_entries, hfst]
  exact ⟨remove_isSome c key, _, hshows, entries_remove c key⟩

theorem popBack_nil (h : l.Stores []) : l.popBack = none := by
  obtain ⟨c, hc, hnil⟩ := h
  apply hc.popBack_none
  rw [PlainList.popBack, map_eq_nil_iff.mp hnil]

theorem popBack_cons (h : l.Stores (e :: q)) : ∃ l', l.popBack = some (e, l') ∧ l'.Stores q := by
  obtain ⟨c, hc, hcons⟩ := h
  cases htracked : c.tracked with
  | nil =>
    have hnil : CostList.entries c = [] := map_eq_nil_iff.mpr htracked
    rw [hcons] at hnil
    cases hnil
  | cons d tracked =>
    have hentries : CostList.entries c = (d.name, d.cost) :: tracked.map fun e => (e.name, e.cost) :=
      congrArg (List.map fun e : Tracked K K => (e.name, e.cost)) htracked
    obtain ⟨rfl, rfl⟩ := List.cons.inj (hcons.symm.trans hentries)
    have hback : PlainList.popBack c =
        some ((d.name, d.cost), ⟨tracked, satSub c.recorded d.cost⟩) := by
      rw [PlainList.popBack, htracked]
    obtain ⟨l', hpop, hshows⟩ := hc.popBack_some hback
    exact ⟨l', hpop, _, hshows, rfl⟩

theorem self (h : l.Stores q) : l.Stores l.fromTail := by
  rw [h.fromTail]
  exact h

end Stores

def costAt (l : LruList K) (key : K) : Option UInt64 :=
  ((l.lookup.lookup key).bind l.nodes).map (·.cost)

theorem Stores.costAt (h : l.Stores q) (key : K) : l.costAt key = costOf q key := by
  cases hlookup : l.lookup.lookup key with
  | none =>
    have hout : key ∉ q.map Prod.fst := by
      rw [← h.lookup_isSome, hlookup]
      simp
    rw [LruList.costAt, hlookup, costOf_eq_none.mpr hout]
    rfl
  | some i =>
    have hnodup := h.nodup
    obtain ⟨c, ⟨⟨xs, hat⟩, -⟩, rfl⟩ := h
    obtain ⟨a, b, La, Lb, e, -, hL, rfl, hcontent, -, -⟩ := hat.split hlookup
    have hmem : (e.name, e.cost) ∈ CostList.entries c := by
      refine mem_map.mpr ⟨e, ?_, rfl⟩
      rw [hL]
      exact mem_append_right _ mem_cons_self
    rw [costOf_of_mem hnodup hmem, LruList.costAt, hlookup]
    obtain ⟨n, hn, heq⟩ := Option.map_eq_some_iff.mp hcontent
    show (l.nodes i).map (·.cost) = some e.cost
    rw [hn]
    exact congrArg some (congrArg Prod.snd heq)

end LruList

/-- Popping a list takes from its keys what pays for the cost, in any number of turns that is
enough. -/
theorem SlruState.evictList_eq {l : LruList K} {q : List (K × UInt64)} (h : l.Stores q)
    (c freed : UInt64) :
    ∃ l' : LruList K, l'.Stores (popUntil Prod.snd c q).2.2 ∧ ∀ fuel, q.length ≤ fuel →
      SlruState.evictList fuel c freed l =
        (((popUntil Prod.snd c q).1, (popUntil Prod.snd c q).2.1.map Prod.fst,
          freed + total Prod.snd (popUntil Prod.snd c q).2.1), l') := by
  induction q generalizing c freed l with
  | nil =>
    refine ⟨l, h, fun fuel _ => ?_⟩
    cases fuel with
    | zero => simp [SlruState.evictList, popUntil]
    | succ fuel =>
      rw [SlruState.evictList, h.popBack_nil]
      split_ifs <;> simp [popUntil]
  | cons e q ih =>
    obtain ⟨l₁, hpop, h₁⟩ := h.popBack_cons
    obtain ⟨l', h', hloop⟩ := ih h₁ (satSub c e.2) (freed + e.2)
    rw [popUntil]
    by_cases hpos : 0 < c
    · rw [if_pos hpos]
      refine ⟨l', h', fun fuel hfuel => ?_⟩
      obtain ⟨n, rfl⟩ := Nat.exists_eq_add_of_le' ((Nat.le_add_left 1 q.length).trans hfuel)
      rw [SlruState.evictList, if_pos hpos, hpop]
      simp only [hloop n (Nat.le_of_succ_le_succ hfuel), map_cons, total_cons,
        UInt64.add_assoc]
    · rw [if_neg hpos]
      refine ⟨l, h, fun fuel _ => ?_⟩
      cases fuel <;> simp [SlruState.evictList, hpos]

theorem SlruState.evictList_steady {l : LruList K} {q : List (K × UInt64)} (h : l.Stores q)
    {fuel fuel' : ℕ} (hfuel : q.length ≤ fuel) (hfuel' : q.length ≤ fuel') (c freed : UInt64) :
    SlruState.evictList fuel' c freed l = SlruState.evictList fuel c freed l := by
  obtain ⟨l', -, hloop⟩ := SlruState.evictList_eq h c freed
  rw [hloop fuel hfuel, hloop fuel' hfuel']

end Stores

/-! ### FIFO -/

/-- Keys in the order of their admission. -/
structure Fifo (K : Type*) where
  list : LruList K

namespace Fifo

/-- An empty policy. -/
def new : Fifo K := ⟨.new⟩

variable [DecidableEq K]

def onAdmit (s : Fifo K) (key : K) (cost : UInt64) : Fifo K :=
  if !s.list.contains key then ⟨s.list.pushFront key cost⟩ else s

def onRemove (s : Fifo K) (key : K) : Fifo K := ⟨(s.list.remove key).2⟩

/-- The eviction loop, for at most `fuel` turns. -/
def evictLoop (fuel : ℕ) (costToFree : UInt64) (s : Fifo K) : (List K × UInt64) × Fifo K :=
  let r := SlruState.evictList fuel costToFree 0 s.list
  ((r.1.2.1, r.1.2.2), ⟨r.2⟩)

/-- Evicts until `costToFree` is released or nothing is left. Returns the victims and the cost
released. -/
def evict (s : Fifo K) (costToFree : UInt64) : (List K × UInt64) × Fifo K :=
  evictLoop s.list.lookup.keys.length costToFree s

omit [DecidableEq K] in
/-- Forgets everything. -/
def clear (s : Fifo K) : Fifo K := ⟨s.list.clear⟩

instance : CachePolicy (Fifo K) K where
  onAccess s _ _ := s
  onAdmit s key cost := (.admitted, s.onAdmit key cost)
  onRemove := onRemove
  evict := evict
  clear := clear

theorem onAdmit_costs {s : Fifo K} (h : s.list.Stores s.list.fromTail) (key : K) (cost : UInt64) :
    (s.onAdmit key cost).list.Stores (s.onAdmit key cost).list.fromTail ∧
      ((∀ k, (s.onAdmit key cost).list.costAt k = if k = key then some cost else s.list.costAt k) ∨
        (s.list.costAt key).isSome = true ∧
          ∀ k, (s.onAdmit key cost).list.costAt k = s.list.costAt k) := by
  unfold onAdmit
  by_cases hin : s.list.contains key = true
  · rw [if_neg (by simpa using hin)]
    have hsome : (s.list.costAt key).isSome = true := by
      rw [h.costAt, costOf_isSome]
      exact h.lookup_isSome.mp hin
    exact ⟨h, .inr ⟨hsome, fun _ => rfl⟩⟩
  · rw [if_pos (by simpa using hin)]
    have hpush := h.pushFront key cost
    refine ⟨hpush.self, .inl fun k => ?_⟩
    rw [hpush.costAt, h.costAt, costOf_push]

instance : QueuedPolicy (Fifo K) K where
  Tidy s := s.list.Stores s.list.fromTail
  costs s := s.list.costAt
  queue s := s.list.fromTail
  updatesCost := false
  recordsReads := false
  evictLoops := evictLoop
  turns s := s.list.lookup.keys.length
  nodup h := h.nodup
  costs_eq h := h.costAt
  onAccess _ _ h := ⟨h, fun _ => .inl rfl⟩
  onAdmit {s} key cost h := by
    obtain ⟨htidy, hcosts⟩ := onAdmit_costs h key cost
    exact ⟨rfl, htidy, hcosts.imp_right fun hkept => ⟨rfl, hkept⟩⟩
  onRemove {s} key h := by
    have hremove := (h.remove key).2
    refine ⟨hremove.self, fun k => ?_⟩
    show (s.list.remove key).2.costAt k = if k = key then none else s.list.costAt k
    rw [hremove.costAt, h.costAt, costOf_dropKey]
  clear {s} _ := ⟨(LruList.Stores.clear s.list).self, (LruList.Stores.clear s.list).costAt⟩
  evict_eq _ _ := rfl
  steady {s} fuel c h hfuel := by
    unfold evictLoop
    rw [SlruState.evictList_steady h h.length_le (h.length_le.trans hfuel)]
  evict {s} c h := by
    obtain ⟨l', h', hloop⟩ := SlruState.evictList_eq h c 0
    refine ⟨_, ⟨l'⟩, h'.self, ?_, ?_, fun _ => rfl⟩
    · rw [h'.fromTail, popUntil_append]
    · unfold evictLoop
      rw [hloop _ h.length_le, UInt64.zero_add]

end Fifo

/-! ### LRU -/

/-- Keys in the order of their use. -/
structure Lru (K : Type*) where
  list : LruList K

namespace Lru

/-- An empty policy. -/
def new : Lru K := ⟨.new⟩

variable [DecidableEq K]

def onAccess (s : Lru K) (key : K) : Lru K := ⟨s.list.moveToFront key⟩

/-- A key that is admitted was used last. -/
def onAdmit (s : Lru K) (key : K) (cost : UInt64) : Lru K := ⟨s.list.pushFront key cost⟩

def onRemove (s : Lru K) (key : K) : Lru K := ⟨(s.list.remove key).2⟩

/-- Pops the list until the costs, added up in a word, come to `costToFree`, for at most `fuel`
turns. -/
def popLoop : ℕ → UInt64 → UInt64 → LruList K → (List K × UInt64) × LruList K
  | 0, _, freed, l => (([], freed), l)
  | fuel + 1, costToFree, freed, l =>
    if freed < costToFree then
      match l.popBack with
      | none => (([], freed), l)
      | some ((key, cost), l) =>
        let r := popLoop fuel costToFree (freed + cost) l
        ((key :: r.1.1, r.1.2), r.2)
    else (([], freed), l)

/-- The eviction loop, for at most `fuel` turns. -/
def evictLoop (fuel : ℕ) (costToFree : UInt64) (s : Lru K) : (List K × UInt64) × Lru K :=
  let r := popLoop fuel costToFree 0 s.list
  (r.1, ⟨r.2⟩)

/-- Evicts until `costToFree` is released or nothing is left. Returns the victims and the cost
released. -/
def evict (s : Lru K) (costToFree : UInt64) : (List K × UInt64) × Lru K :=
  evictLoop s.list.lookup.keys.length costToFree s

omit [DecidableEq K] in
/-- Forgets everything. -/
def clear (s : Lru K) : Lru K := ⟨s.list.clear⟩

instance : CachePolicy (Lru K) K where
  onAccess s key _ := s.onAccess key
  onAdmit s key cost := (.admitted, s.onAdmit key cost)
  onRemove := onRemove
  evict := evict
  clear := clear

/-- Popping the list takes from its keys until the costs, added up, come to enough. -/
theorem popLoop_eq {l : LruList K} {q : List (K × UInt64)} (h : l.Stores q) (c freed : UInt64) :
    ∃ l' : LruList K, l'.Stores (drain Prod.snd c freed q).2.2 ∧ ∀ fuel, q.length ≤ fuel →
      popLoop fuel c freed l =
        (((drain Prod.snd c freed q).1.map Prod.fst, (drain Prod.snd c freed q).2.1), l') := by
  induction q generalizing freed l with
  | nil =>
    refine ⟨l, h, fun fuel _ => ?_⟩
    cases fuel with
    | zero => rfl
    | succ fuel =>
      rw [popLoop, h.popBack_nil]
      exact ite_self _
  | cons e q ih =>
    obtain ⟨l₁, hpop, h₁⟩ := h.popBack_cons
    obtain ⟨l', h', hloop⟩ := ih h₁ (freed + e.2)
    rw [drain]
    by_cases hlt : freed < c
    · rw [if_pos hlt]
      refine ⟨l', h', fun fuel hfuel => ?_⟩
      obtain ⟨n, rfl⟩ := Nat.exists_eq_add_of_le' ((Nat.le_add_left 1 q.length).trans hfuel)
      rw [popLoop, if_pos hlt, hpop]
      simp only [hloop n (Nat.le_of_succ_le_succ hfuel), map_cons]
    · rw [if_neg hlt]
      refine ⟨l, h, fun fuel _ => ?_⟩
      cases fuel <;> simp [popLoop, hlt]

instance : QueuedPolicy (Lru K) K where
  Tidy s := s.list.Stores s.list.fromTail
  costs s := s.list.costAt
  queue s := s.list.fromTail
  updatesCost := true
  recordsReads := false
  evictLoops := evictLoop
  turns s := s.list.lookup.keys.length
  nodup h := h.nodup
  costs_eq h := h.costAt
  onAccess {s} key _ h := by
    obtain ⟨q, hmove, hperm⟩ := h.moveToFront key
    refine ⟨hmove.self, fun k => .inl ?_⟩
    show (s.list.moveToFront key).costAt k = s.list.costAt k
    rw [hmove.costAt, h.costAt, costOf_perm h.nodup hperm]
  onAdmit {s} key cost h := by
    have hpush := h.pushFront key cost
    refine ⟨rfl, hpush.self, .inl fun k => ?_⟩
    show (s.list.pushFront key cost).costAt k = if k = key then some cost else s.list.costAt k
    rw [hpush.costAt, h.costAt, costOf_push]
  onRemove {s} key h := by
    have hremove := (h.remove key).2
    refine ⟨hremove.self, fun k => ?_⟩
    show (s.list.remove key).2.costAt k = if k = key then none else s.list.costAt k
    rw [hremove.costAt, h.costAt, costOf_dropKey]
  clear {s} _ := ⟨(LruList.Stores.clear s.list).self, (LruList.Stores.clear s.list).costAt⟩
  evict_eq _ _ := rfl
  steady {s} fuel c h hfuel := by
    unfold evictLoop
    obtain ⟨l', -, hloop⟩ := popLoop_eq h c 0
    rw [hloop _ h.length_le, hloop _ (h.length_le.trans hfuel)]
  evict {s} c h := by
    obtain ⟨l', h', hloop⟩ := popLoop_eq h c 0
    refine ⟨(drain Prod.snd c 0 s.list.fromTail).1, ⟨l'⟩, h'.self, ?_, ?_, drain_zero_eq⟩
    · rw [h'.fromTail, drain_append]
    · have hfreed := drain_freed Prod.snd c 0 s.list.fromTail
      rw [UInt64.zero_add] at hfreed
      unfold evictLoop
      rw [hloop _ h.length_le, hfreed]

end Lru

/-! ### SLRU -/

/-- A probationary segment for keys that are new, and a protected one for those used since. -/
structure Slru (K : Type*) where
  state : SlruState K
  probCapacity : UInt64
  protCapacity : UInt64

namespace Slru

/-- An empty policy for `capacity` cost units. -/
def new (capacity : UInt64) : Slru K :=
  let prob := if capacity = 0 then 0 else roundedShare capacity twentyPercent
  ⟨.new, prob, satSub capacity prob⟩

variable [DecidableEq K]

def onAccess (s : Slru K) (key : K) (cost : UInt64) : Slru K :=
  { s with state := (s.state.touch key cost s.protCapacity).2 }

def onAdmit (s : Slru K) (key : K) (cost : UInt64) : Slru K :=
  if !s.state.protectedList.contains key && !s.state.probationary.contains key then
    { s with state :=
      { s.state with probationary := s.state.probationary.pushFront key cost } }
  else s

def onRemove (s : Slru K) (key : K) : Slru K :=
  let r := s.state.probationary.remove key
  if r.1.isSome then { s with state := { s.state with probationary := r.2 } }
  else
    { s with state :=
      { probationary := r.2
        protectedList := (s.state.protectedList.remove key).2 } }

/-- Evicts until `costToFree` is released or nothing is left. Returns the victims and the cost
released. -/
def evict (s : Slru K) (costToFree : UInt64) : (List K × UInt64) × Slru K :=
  let r := s.state.evictItems costToFree s.protCapacity
  (r.1, { s with state := r.2 })

omit [DecidableEq K] in
/-- Forgets everything. -/
def clear (s : Slru K) : Slru K :=
  { s with state := ⟨s.state.probationary.clear, s.state.protectedList.clear⟩ }

instance : CachePolicy (Slru K) K where
  onAccess := onAccess
  onAdmit s key cost := (.admitted, s.onAdmit key cost)
  onRemove := onRemove
  evict := evict
  clear := clear

end Slru

/-- The keys of the two segments with their costs, least recently used first. -/
structure SlruState.Stores [DecidableEq K] (s : SlruState K) (P Q : List (K × UInt64)) : Prop where
  probationary : s.probationary.Stores P
  protectedList : s.protectedList.Stores Q
  nodup : ((P ++ Q).map Prod.fst).Nodup

namespace SlruState.Stores

variable [DecidableEq K] {s : SlruState K} {P Q : List (K × UInt64)} {key : K}

theorem notMem_protected (h : s.Stores P Q) (hP : key ∈ P.map Prod.fst) :
    key ∉ Q.map Prod.fst := by
  have hnodup := h.nodup
  rw [map_append] at hnodup
  exact fun hQ => (nodup_append.mp hnodup).2.2 key hP key hQ rfl

theorem maintainLoop (h : s.Stores P Q) (cap : UInt64) :
    ∃ s' P' Q', SlruState.Stores s' P' Q' ∧ P' ++ Q' = P ++ Q ∧
      ∀ fuel, Q.length ≤ fuel → SlruState.maintainLoop cap fuel s = s' := by
  induction Q generalizing s P with
  | nil =>
    refine ⟨s, P, [], h, rfl, fun fuel _ => ?_⟩
    cases fuel with
    | zero => rfl
    | succ fuel =>
      rw [SlruState.maintainLoop, h.protectedList.popBack_nil]
      exact ite_self _
  | cons e Q ih =>
    by_cases hover : cap < s.protectedList.currentCost
    · obtain ⟨l', hpop, h'⟩ := h.protectedList.popBack_cons
      have hout : e.1 ∉ P.map Prod.fst := fun hP =>
        h.notMem_protected hP (mem_map_of_mem mem_cons_self)
      have hnext : SlruState.Stores ⟨s.probationary.pushNew e.1 e.2, l'⟩ (P ++ [e]) Q :=
        ⟨h.probationary.pushNew hout e.2, h', by simpa using h.nodup⟩
      obtain ⟨s', P', Q', hstores, hsame, hloop⟩ := ih hnext
      refine ⟨s', P', Q', hstores, by simpa using hsame, fun fuel hfuel => ?_⟩
      obtain ⟨n, rfl⟩ := Nat.exists_eq_add_of_le' ((Nat.le_add_left 1 Q.length).trans hfuel)
      rw [SlruState.maintainLoop, if_pos hover, hpop]
      exact hloop n (Nat.le_of_succ_le_succ hfuel)
    · refine ⟨s, P, e :: Q, h, rfl, fun fuel _ => ?_⟩
      cases fuel <;> simp [SlruState.maintainLoop, hover]

theorem touch (h : s.Stores P Q) (key : K) (cost cap : UInt64) :
    ∃ P' Q', (s.touch key cost cap).2.Stores P' Q' ∧
      (P' ++ Q' = P ++ Q ∨
        key ∈ (P ++ Q).map Prod.fst ∧ P' ++ Q' = dropKey key (P ++ Q) ++ [(key, cost)]) := by
  unfold SlruState.touch
  cases hlookup : s.protectedList.lookup.lookup key with
  | some i =>
    have hQ : key ∈ Q.map Prod.fst := by
      rw [← h.protectedList.lookup_isSome, hlookup]
      rfl
    have hout : key ∉ P.map Prod.fst := fun hP => h.notMem_protected hP hQ
    have hpush : P ++ (dropKey key Q ++ [(key, cost)]) = dropKey key (P ++ Q) ++ [(key, cost)] := by
      rw [dropKey_append, dropKey_of_notMem hout, append_assoc]
    refine ⟨P, dropKey key Q ++ [(key, cost)],
      ⟨h.probationary, h.protectedList.touchIndex hlookup cost, ?_⟩, .inr ⟨?_, hpush⟩⟩
    · rw [hpush]
      exact nodup_push h.nodup key cost
    · rw [map_append]
      exact mem_append_right _ hQ
  | none =>
    have hout : key ∉ Q.map Prod.fst := by
      rw [← h.protectedList.lookup_isSome, hlookup]
      simp
    obtain ⟨hmem, hremove⟩ := h.probationary.remove key
    by_cases hsome : (s.probationary.remove key).1.isSome = true
    · simp only [hsome, if_true]
      have hpush : dropKey key P ++ (Q ++ [(key, cost)]) =
          dropKey key (P ++ Q) ++ [(key, cost)] := by
        rw [dropKey_append, dropKey_of_notMem hout, append_assoc]
      have hmoved : SlruState.Stores ⟨(s.probationary.remove key).2,
          s.protectedList.pushNew key cost⟩ (dropKey key P) (Q ++ [(key, cost)]) := by
        refine ⟨hremove, h.protectedList.pushNew hout cost, ?_⟩
        rw [hpush]
        exact nodup_push h.nodup key cost
      obtain ⟨s', P', Q', hstores, hsame, hloop⟩ := hmoved.maintainLoop cap
      rw [← hloop _ hmoved.protectedList.length_le] at hstores
      refine ⟨P', Q', hstores, .inr ⟨?_, hsame.trans hpush⟩⟩
      rw [map_append]
      exact mem_append_left _ (hmem.mp hsome)
    · simp only [hsome]
      exact ⟨P, Q, h, .inl rfl⟩

end SlruState.Stores

namespace Slru

variable [DecidableEq K]

/-- The segments of a policy in their order. -/
def queue (s : Slru K) : List (K × UInt64) :=
  s.state.probationary.fromTail ++ s.state.protectedList.fromTail

def costs (s : Slru K) (key : K) : Option UInt64 :=
  (s.state.probationary.costAt key).or (s.state.protectedList.costAt key)

/-- No key is on both lists. -/
def Tidy (s : Slru K) : Prop := ∃ P Q, s.state.Stores P Q

variable {s : Slru K} {P Q : List (K × UInt64)}

theorem queue_eq (h : s.state.Stores P Q) : s.queue = P ++ Q := by
  rw [queue, h.probationary.fromTail, h.protectedList.fromTail]

theorem costs_eq (h : s.state.Stores P Q) (k : K) : s.costs k = costOf (P ++ Q) k := by
  rw [costs, h.probationary.costAt, h.protectedList.costAt, costOf_append]

theorem Tidy.new (capacity : UInt64) : (new capacity : Slru K).Tidy :=
  ⟨[], [], LruList.Stores.new, LruList.Stores.new, nodup_nil⟩

theorem Tidy.onAdmit (h : s.Tidy) (key : K) (cost : UInt64) : (s.onAdmit key cost).Tidy ∧
    ((∀ k, (s.onAdmit key cost).costs k = if k = key then some cost else s.costs k) ∨
      (s.costs key).isSome = true ∧ ∀ k, (s.onAdmit key cost).costs k = s.costs k) := by
  obtain ⟨P, Q, hs⟩ := h
  have hP : s.state.probationary.contains key = true ↔ key ∈ P.map Prod.fst :=
    hs.probationary.lookup_isSome
  have hQ : s.state.protectedList.contains key = true ↔ key ∈ Q.map Prod.fst :=
    hs.protectedList.lookup_isSome
  unfold Slru.onAdmit
  by_cases hin : key ∈ (P ++ Q).map Prod.fst
  · rw [if_neg]
    · refine ⟨⟨P, Q, hs⟩, .inr ⟨?_, fun _ => rfl⟩⟩
      rw [costs_eq hs, costOf_isSome]
      exact hin
    · rw [map_append, mem_append, ← hP, ← hQ] at hin
      simpa [or_iff_not_imp_left] using hin.symm
  · have hout := hin
    rw [map_append, mem_append, not_or] at hout
    rw [if_pos]
    · have hpush := hs.probationary.pushFront key cost
      rw [dropKey_of_notMem hout.1] at hpush
      have hstores : SlruState.Stores ⟨s.state.probationary.pushFront key cost,
          s.state.protectedList⟩ (P ++ [(key, cost)]) Q := by
        refine ⟨hpush, hs.protectedList, ?_⟩
        rw [append_assoc, singleton_append, map_append, map_cons,
          nodup_middle, ← map_append]
        exact nodup_cons.mpr ⟨hin, hs.nodup⟩
      refine ⟨⟨_, _, hstores⟩, .inl fun k => ?_⟩
      have hcosts := costs_eq (s := { s with state := ⟨s.state.probationary.pushFront key cost,
        s.state.protectedList⟩ }) hstores k
      rw [hcosts, costs_eq hs, costOf_append, costOf_append, costOf_append, costOf_cons, costOf_nil]
      split_ifs with heq
      · rw [heq, costOf_eq_none.mpr hout.1]
        rfl
      · rw [Option.or_none]
    · rw [← hP, ← hQ] at hout
      simpa [and_comm] using hout

theorem Tidy.onRemove (h : s.Tidy) (key : K) : (s.onRemove key).Tidy ∧
    ∀ k, (s.onRemove key).costs k = if k = key then none else s.costs k := by
  obtain ⟨P, Q, hs⟩ := h
  obtain ⟨hmem, hremove⟩ := hs.probationary.remove key
  have hnodup := nodup_dropKey hs.nodup key
  -- the key is taken off the list that it is on
  have hstores : ∃ Q', (s.onRemove key).state.Stores (dropKey key P) Q' ∧ Q' = dropKey key Q := by
    unfold Slru.onRemove
    by_cases hsome : (s.state.probationary.remove key).1.isSome = true
    · have hout := hs.notMem_protected (hmem.mp hsome)
      rw [dropKey_append, dropKey_of_notMem hout] at hnodup
      simp only [hsome, if_true]
      exact ⟨Q, ⟨hremove, hs.protectedList, hnodup⟩, (dropKey_of_notMem hout).symm⟩
    · rw [dropKey_append] at hnodup
      simp only [hsome]
      exact ⟨_, ⟨hremove, (hs.protectedList.remove key).2, hnodup⟩, rfl⟩
  obtain ⟨_, hstores, rfl⟩ := hstores
  refine ⟨⟨_, _, hstores⟩, fun k => ?_⟩
  rw [costs_eq hstores, costs_eq hs, ← dropKey_append, costOf_dropKey]

/-- The three loops of an eviction, for at most `fuel` turns each. -/
def evictLoops (fuel : ℕ) (costToFree : UInt64) (s : Slru K) : (List K × UInt64) × Slru K :=
  let state := SlruState.maintainLoop s.protCapacity fuel s.state
  let p := SlruState.evictList fuel costToFree 0 state.probationary
  let q := SlruState.evictList fuel p.1.1 p.1.2.2 state.protectedList
  ((p.1.2.1 ++ q.1.2.1, q.1.2.2), { s with state := ⟨p.2, q.2⟩ })

/-- Turns that are always enough. -/
def turns (s : Slru K) : ℕ :=
  s.state.probationary.lookup.keys.length + s.state.protectedList.lookup.keys.length

theorem Tidy.evictLoops_eq_evict (h : s.Tidy) {fuel : ℕ} (hfuel : s.turns ≤ fuel)
    (costToFree : UInt64) : evictLoops fuel costToFree s = s.evict costToFree := by
  obtain ⟨P, Q, hs⟩ := h
  have hP := hs.probationary.length_le
  have hQ := hs.protectedList.length_le
  have hfuelQ : Q.length ≤ fuel := by
    unfold turns at hfuel
    omega
  obtain ⟨s', P', Q', hs', hsame, hloop⟩ := hs.maintainLoop s.protCapacity
  have hlen := congrArg List.length hsame
  rw [length_append, length_append] at hlen
  have hle : P'.length ≤ fuel ∧ Q'.length ≤ fuel := by
    unfold turns at hfuel
    omega
  unfold evictLoops Slru.evict SlruState.evictItems SlruState.maintainCapacities
  rw [hloop fuel hfuelQ, hloop s.state.protectedLen hQ]
  simp only
  rw [SlruState.evictList_steady hs'.probationary hs'.probationary.length_le hle.1,
    SlruState.evictList_steady hs'.protectedList hs'.protectedList.length_le hle.2]
  rfl

theorem Tidy.evict_eq (h : s.Tidy) (costToFree : UInt64) :
    ∃ s' : Slru K, s'.Tidy ∧ s'.queue = (popUntil Prod.snd costToFree s.queue).2.2 ∧
      s.evict costToFree = (((popUntil Prod.snd costToFree s.queue).2.1.map Prod.fst,
        total Prod.snd (popUntil Prod.snd costToFree s.queue).2.1), s') := by
  obtain ⟨P, Q, hs⟩ := h
  obtain ⟨s', P', Q', hs', hsame, hloop⟩ := hs.maintainLoop s.protCapacity
  obtain ⟨l₁, h₁, hfirst⟩ := SlruState.evictList_eq hs'.probationary costToFree 0
  obtain ⟨l₂, h₂, hsecond⟩ := SlruState.evictList_eq hs'.protectedList
    (popUntil Prod.snd costToFree P').1 (0 + total Prod.snd (popUntil Prod.snd costToFree P').2.1)
  have hsplit := popUntil_append_eq Prod.snd costToFree P' Q'
  have hnodup := hs'.nodup
  rw [← popUntil_append Prod.snd costToFree (P' ++ Q'), map_append, hsplit] at hnodup
  have hstores : SlruState.Stores ⟨l₁, l₂⟩ _ _ := ⟨h₁, h₂, hnodup.of_append_right⟩
  rw [queue_eq hs, ← hsame, hsplit]
  refine ⟨{ s with state := ⟨l₁, l₂⟩ }, ⟨_, _, hstores⟩, queue_eq (s := { s with
    state := ⟨l₁, l₂⟩ }) hstores, ?_⟩
  unfold Slru.evict SlruState.evictItems SlruState.maintainCapacities
  simp only [hloop s.state.protectedLen hs.protectedList.length_le,
    hfirst _ hs'.probationary.length_le]
  rw [SlruState.protectedLen, hsecond _ hs'.protectedList.length_le]
  simp only [map_append, total_append, UInt64.zero_add]

instance : QueuedPolicy (Slru K) K where
  Tidy := Tidy
  costs := costs
  queue := queue
  updatesCost := false
  recordsReads := true
  evictLoops := evictLoops
  turns := turns
  nodup {s} h := by
    obtain ⟨P, Q, hs⟩ := h
    rw [queue_eq hs]
    exact hs.nodup
  costs_eq {s} h k := by
    obtain ⟨P, Q, hs⟩ := h
    rw [queue_eq hs, costs_eq hs]
  onAccess {s} key cost h := by
    obtain ⟨P, Q, hs⟩ := h
    obtain ⟨P', Q', hs', hcase⟩ := hs.touch key cost s.protCapacity
    refine ⟨⟨P', Q', hs'⟩, fun k => ?_⟩
    show (s.onAccess key cost).costs k = s.costs k ∨
      true = true ∧ k = key ∧ (s.costs k).isSome = true ∧ (s.onAccess key cost).costs k = some cost
    rw [costs_eq (s := s.onAccess key cost) hs', costs_eq hs]
    rcases hcase with hsame | ⟨hmem, hpush⟩
    · rw [hsame]
      exact .inl rfl
    · rw [hpush, costOf_push]
      split_ifs with heq
      · exact .inr ⟨rfl, heq, by rw [heq, costOf_isSome]; exact hmem, rfl⟩
      · exact .inl rfl
  onAdmit key cost h := by
    obtain ⟨htidy, hcosts⟩ := h.onAdmit key cost
    exact ⟨rfl, htidy, hcosts.imp_right fun hkept => ⟨rfl, hkept⟩⟩
  onRemove key h := h.onRemove key
  clear {s} _ := by
    have hs : s.clear.state.Stores [] [] :=
      ⟨LruList.Stores.clear _, LruList.Stores.clear _, List.nodup_nil⟩
    exact ⟨⟨[], [], hs⟩, costs_eq hs⟩
  evict_eq c h := (h.evictLoops_eq_evict le_rfl c).symm
  steady c h hfuel := by
    rw [h.evictLoops_eq_evict hfuel, h.evictLoops_eq_evict le_rfl]
  evict {s} c h := by
    obtain ⟨s', h', hrest, hevict⟩ := h.evict_eq c
    rw [h.evictLoops_eq_evict le_rfl]
    exact ⟨_, s', h', by rw [hrest, popUntil_append], hevict, fun _ => rfl⟩

end Slru

end Fibre.Cache
