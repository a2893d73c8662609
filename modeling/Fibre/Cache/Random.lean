import Fibre.Cache.QueuedPolicy

/-!
# The random policy

The tracked keys are in a map with their costs, and an eviction takes the keys that a generator
chooses. What the generator will give is part of the state, and may be anything.
-/

namespace Fibre.Cache

open CostQueue QueuedPolicy List

/-- The tracked keys with their costs, in some order. -/
structure Random (K : Type*) where
  items : List (K × UInt64)
  /-- what the generator will give -/
  draws : ℕ → ℕ

namespace Random

variable {K : Type*} [DecidableEq K] {s : Random K}

def new (draws : ℕ → ℕ) : Random K := ⟨[], draws⟩

def onAdmit (s : Random K) (key : K) (cost : UInt64) : Random K :=
  { s with items := dropKey key s.items ++ [(key, cost)] }

def onRemove (s : Random K) (key : K) : Random K := { s with items := dropKey key s.items }

/-- Removes the key that is chosen. -/
def takeChosen (s : Random K) : Option (K × UInt64) × Random K :=
  let i := s.draws 0 % s.items.length
  (s.items[i]?, ⟨s.items.eraseIdx i, fun n => s.draws (n + 1)⟩)

/-- The eviction loop, for at most `fuel` keys. -/
def evictLoop (fuel : ℕ) (costToFree : UInt64) (s : Random K) : (List K × UInt64) × Random K :=
  payLoop (fun s => s.items.map Prod.fst) takeChosen fuel costToFree 0 s

/-- Evicts until `costToFree` is released or nothing is left. Returns the victims and the cost
released. -/
def evict (s : Random K) (costToFree : UInt64) : (List K × UInt64) × Random K :=
  evictLoop s.items.length costToFree s

instance : CachePolicy (Random K) K where
  onAccess s _ _ := s
  onAdmit s key cost := (.admitted, s.onAdmit key cost)
  onRemove := onRemove
  evict := evict
  clear s := { s with items := [] }

/-! ### The order of the choices -/

/-- The next `n` keys that would be chosen. -/
def chosen : ℕ → Random K → List (K × UInt64)
  | 0, _ => []
  | n + 1, s => s.takeChosen.1.toList ++ chosen n s.takeChosen.2

/-- The keys in the order in which they would be chosen. -/
def queue (s : Random K) : List (K × UInt64) := chosen s.items.length s

omit [DecidableEq K] in
theorem queue_eq (h : s.items ≠ []) : ∃ e, s.takeChosen.1 = some e ∧
    (e :: s.takeChosen.2.items).Perm s.items ∧ s.queue = e :: s.takeChosen.2.queue := by
  have hlt := Nat.mod_lt (s.draws 0) (length_pos_of_ne_nil h)
  have hfirst : s.takeChosen.1 = some _ := getElem?_eq_getElem hlt
  have hlen : s.items.length = s.takeChosen.2.items.length + 1 := by
    rw [takeChosen, length_eraseIdx_of_lt hlt]
    omega
  refine ⟨_, hfirst, getElem_cons_eraseIdx_perm hlt, ?_⟩
  rw [show s.queue = chosen (s.takeChosen.2.items.length + 1) s from congrArg (chosen · s) hlen,
    chosen, hfirst]
  rfl

omit [DecidableEq K] in
theorem queue_perm (s : Random K) : s.queue.Perm s.items := by
  induction hn : s.items.length generalizing s with
  | zero =>
    rw [queue, hn, length_eq_zero_iff.mp hn]
    rfl
  | succ n ih =>
    obtain ⟨e, -, hperm, hqueue⟩ := queue_eq (ne_nil_of_length_eq_add_one hn)
    rw [hqueue]
    have hlen := hperm.length_eq
    rw [length_cons] at hlen
    exact ((ih _ (by omega)).cons e).trans hperm

omit [DecidableEq K] in
theorem length_queue (s : Random K) : s.queue.length = (s.items.map Prod.fst).length := by
  rw [(queue_perm s).length_eq, length_map]

omit [DecidableEq K] in
theorem turn_eq {e : K × UInt64} {rest : List (K × UInt64)} (h : (s.items.map Prod.fst).Nodup)
    (hqueue : s.queue = e :: rest) :
    ∃ s' : Random K, (s'.items.map Prod.fst).Nodup ∧ s'.queue = rest ∧
      s.takeChosen = (some e, s') := by
  have hne : s.items ≠ [] := by
    intro hnil
    have hlen := (queue_perm s).length_eq
    rw [hqueue, hnil] at hlen
    cases hlen
  obtain ⟨e', hfirst, hperm, hqueue'⟩ := queue_eq hne
  obtain ⟨rfl, rfl⟩ := cons.inj (hqueue.symm.trans hqueue')
  have hnodup := (hperm.map Prod.fst).nodup_iff.mpr h
  exact ⟨_, (nodup_cons.mp hnodup).2, rfl, Prod.ext hfirst rfl⟩

instance : QueuedPolicy (Random K) K where
  Tidy s := (s.items.map Prod.fst).Nodup
  costs s := costOf s.items
  queue := queue
  updatesCost := true
  recordsReads := false
  evictLoops := evictLoop
  turns s := s.items.length
  nodup {s} h := ((queue_perm s).map Prod.fst).nodup_iff.mpr h
  costs_eq {s} h k := (costOf_perm h (queue_perm s) k).symm
  onAccess _ _ h := ⟨h, fun _ => .inl rfl⟩
  onAdmit key cost h := ⟨rfl, nodup_push h key cost, .inl (costOf_push key cost _)⟩
  onRemove key h := ⟨nodup_dropKey h key, costOf_dropKey key _⟩
  clear _ := ⟨nodup_nil, fun _ => rfl⟩
  evict_eq _ _ := rfl
  steady {s} _ c h hfuel := payLoop_steady (fun s _ => length_queue s)
    (fun _ _ _ h _ hqueue => turn_eq h hqueue) (fun _ _ _ => rfl) h le_rfl (length_map _).le
    (by rwa [length_map]) c 0
  evict {s} c h := by
    obtain ⟨s', h', hrest, hloop⟩ := payLoop_eq (fun s _ => length_queue s)
      (fun _ _ _ h hqueue => turn_eq h hqueue) h (length_map _).le c 0
    rw [UInt64.zero_add] at hloop
    exact ⟨_, s', h', by rw [hrest, popUntil_append], hloop, fun _ => rfl⟩

/-- Whatever the generator gives, in every state that calls lead to an eviction ends, takes distinct
keys that were tracked, leaves the others alone, and tells what it took, which is enough and no more,
exactly when the keys it has to take cost less than `2 ^ 64`. -/
theorem evicts_iff_fits (draws : ℕ → ℕ) (calls : List (PolicyCall K)) (costToFree : UInt64) :
    let s := CachePolicy.run (new draws : Random K) calls
    Contract (K := K) s costToFree ↔
      totalNat Prod.snd (popUntil Prod.snd costToFree s.queue).2.1 < 2 ^ 64 :=
  contract_of_fits (run_tidy (s := (new draws : Random K)) nodup_nil calls) costToFree

end Random

end Fibre.Cache
