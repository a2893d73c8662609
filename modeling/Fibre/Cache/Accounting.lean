import Mathlib.Algebra.BigOperators.Fin
import Fibre.Cache.Upkeep

/-!
# The cost a cache reports

A cache is a row of shards and one striped counter. A shard counts what its inserts and its
clear change in `costDelta`, under its lock. What is removed or expires is handed to the
caller, who takes it off the striped counter later, when the lock is free again. The reported
cost is the sum of both.
-/

namespace Fibre.Cache

open CostQueue List

structure StripedCounter where
  stripes : Fin 64 → UInt64

namespace StripedCounter

def new : StripedCounter := ⟨fun _ => 0⟩

/-- Takes `n` off the stripe of the calling thread. -/
def fetchSub (c : StripedCounter) (stripe : Fin 64) (n : UInt64) : StripedCounter :=
  ⟨Function.update c.stripes stripe (c.stripes stripe - n)⟩

/-- The stripes wrap on subtraction, so the sum is taken modulo `2 ^ 64`. -/
def load (c : StripedCounter) : UInt64 := (List.ofFn c.stripes).sum

theorem load_new : new.load = 0 := by
  rw [load, sum_ofFn]
  exact Finset.sum_const_zero

theorem load_fetchSub (c : StripedCounter) (stripe : Fin 64) (n : UInt64) :
    (c.fetchSub stripe n).load = c.load - n := by
  rw [load, load, sum_ofFn, sum_ofFn, fetchSub,
    Finset.sum_update_of_mem (Finset.mem_univ stripe), Finset.sdiff_singleton_eq_erase,
    ← Finset.add_sum_erase _ c.stripes (Finset.mem_univ stripe)]
  abel

end StripedCounter

namespace ShardMap

variable {K V π : Type*} {hash : K → UInt64} {s s' : ShardMap K V π}

/-! ### What a call hands out -/

section Returned

variable [CachePolicy π K] [DecidableEq K]

/-- The entries a call removes and hands to its caller. Those it evicts to make room, or
replaces, it counts itself. -/
def returned (hash : K → UInt64) (s : ShardMap K V π) : Op K V → List (CacheEntry V)
  | .remove key => (s.remove key).1.toList
  | .expireDue clock now => (s.expireDue hash clock now).1.map (·.2.1)
  | .expireAll now => (s.expireAll hash now).1.map (·.2.1)
  | .removeExpiredHashes hashes now => (s.removeExpiredHashes hash hashes now).1.map (·.2.1)
  | _ => []

end Returned

def handedCost (out : List (K × CacheEntry V × ExpiredBy)) : UInt64 :=
  total CacheEntry.cost (out.map (·.2.1))

theorem handedCost_append (out out' : List (K × CacheEntry V × ExpiredBy)) :
    handedCost (out ++ out') = handedCost out + handedCost out' := by
  rw [handedCost, map_append, total_append]
  rfl

/-- Two shards count the same change of the cost, and the second is short of the cost `c`. -/
structure Short (s s' : ShardMap K V π) (c : UInt64) : Prop where
  costDelta : s'.counters.costDelta = s.counters.costDelta
  cost : s'.cost + c = s.cost

theorem Short.zero (hd : s'.counters.costDelta = s.counters.costDelta) (hc : s'.cost = s.cost) :
    Short s s' 0 := ⟨hd, by rw [hc, add_zero]⟩

theorem Short.trans {s'' : ShardMap K V π} {c c' : UInt64} (h : Short s s' c)
    (h' : Short s' s'' c') : Short s s'' (c + c') where
  costDelta := h'.costDelta.trans h.costDelta
  cost := by rw [← h.cost, ← h'.cost]; abel

theorem short_taken {p : K × CacheEntry V → Bool} {ke : K × CacheEntry V}
    (h : s.takeEntry p = some (ke, s')) :
    Short s { s' with cost := s'.cost - ke.2.cost } ke.2.cost := by
  unfold takeEntry at h
  split at h
  · simp at h
  · next ke' hfind =>
    obtain ⟨w, hw⟩ := disarm_eq { s with table := s.table.eraseP p } ke'.2
    rw [hw] at h
    obtain ⟨rfl, rfl⟩ : ke' = ke ∧ _ = s' := by simpa using h
    exact ⟨rfl, sub_add_cancel _ _⟩

section Policy

variable [CachePolicy π K]

theorem short_forget (s : ShardMap K V π) (key : K) (e : CacheEntry V) :
    Short s (s.forget key e) 0 := by
  unfold ShardMap.forget
  split <;> exact Short.zero rfl rfl

theorem short_applyReads (s : ShardMap K V π) : Short s s.applyReads 0 := by
  unfold ShardMap.applyReads
  split <;> exact Short.zero rfl rfl

variable (hash) in
theorem short_removeExpiredLoop (h now : UInt64) (fuel : ℕ) (s : ShardMap K V π)
    (out : List (K × CacheEntry V × ExpiredBy)) :
    ∃ c, Short s (ShardMap.removeExpiredLoop hash h now fuel s out).1 c ∧
      handedCost (ShardMap.removeExpiredLoop hash h now fuel s out).2 = handedCost out + c := by
  induction fuel generalizing s out with
  | zero => exact ⟨0, Short.zero rfl rfl, (add_zero _).symm⟩
  | succ fuel ih =>
    unfold ShardMap.removeExpiredLoop
    split
    · exact ⟨0, Short.zero rfl rfl, (add_zero _).symm⟩
    · next key e s₁ ht =>
      obtain ⟨hpred, -⟩ := takeEntry_eq_some ht
      -- the entry was found because it is past a limit, so there is a reason
      have hsome : (e.expiredBy now s.graceNs s.ttiNs).isSome := by
        simp only [decide_eq_true_eq] at hpred
        exact hpred.2.2
      obtain ⟨limit, hlimit⟩ := Option.isSome_iff_exists.mp hsome
      obtain ⟨c, hshort, hout⟩ := ih
        ({ s₁ with cost := s₁.cost - e.cost : ShardMap K V π }.forget key e)
        (out ++ ((e.expiredBy now s.graceNs s.ttiNs).map fun limit => (key, e, limit)).toList)
      refine ⟨e.cost + 0 + c, ((short_taken ht).trans (short_forget _ key e)).trans hshort, ?_⟩
      rw [hout, handedCost_append, hlimit]
      simp [handedCost, add_assoc]

variable (hash) in
theorem short_foldl_removeExpired (now : UInt64)
    (f : ShardMap K V π → UInt64 → ShardMap K V π) (hf : ∀ s h, Short s (f s h) 0)
    (hashes : List UInt64) (s : ShardMap K V π) (out : List (K × CacheEntry V × ExpiredBy)) :
    ∃ c, Short s (hashes.foldl
        (fun (r : ShardMap K V π × List (K × CacheEntry V × ExpiredBy)) h =>
          (f (ShardMap.removeExpired hash r.1 h now r.2).1 h,
            (ShardMap.removeExpired hash r.1 h now r.2).2)) (s, out)).1 c ∧
      handedCost (hashes.foldl
        (fun (r : ShardMap K V π × List (K × CacheEntry V × ExpiredBy)) h =>
          (f (ShardMap.removeExpired hash r.1 h now r.2).1 h,
            (ShardMap.removeExpired hash r.1 h now r.2).2)) (s, out)).2 =
        handedCost out + c := by
  induction hashes generalizing s out with
  | nil => exact ⟨0, Short.zero rfl rfl, (add_zero _).symm⟩
  | cons h hashes ih =>
    obtain ⟨c, hshort, hout⟩ := short_removeExpiredLoop hash h now s.table.length s out
    obtain ⟨c', hshort', hout'⟩ := ih (f (ShardMap.removeExpired hash s h now out).1 h)
      (ShardMap.removeExpired hash s h now out).2
    refine ⟨c + 0 + c', (hshort.trans (hf _ h)).trans hshort', ?_⟩
    rw [foldl_cons, hout']
    unfold ShardMap.removeExpired
    rw [hout, add_zero, add_assoc]

omit [CachePolicy π K] in
theorem short_rearm (clock h : UInt64) (s : ShardMap K V π) :
    Short s (s.rearm hash clock h) 0 := by
  rw [rearm_eq]
  exact Short.zero rfl rfl

theorem short_expireDue (clock now : UInt64) (s : ShardMap K V π) :
    Short s (s.expireDue hash clock now).2 (handedCost (s.expireDue hash clock now).1) := by
  have hwheel : Short s { s with wheel := (s.wheel.advance now).2 } 0 := Short.zero rfl rfl
  simp only [ShardMap.expireDue]
  split_ifs
  · exact hwheel
  · obtain ⟨c, hshort, hout⟩ := short_foldl_removeExpired hash now
      (fun s h => s.rearm hash clock h) (fun s h => short_rearm clock h s)
      (s.wheel.advance now).1
      (ShardMap.applyReads { s with wheel := (s.wheel.advance now).2 }) []
    have hzero : handedCost ([] : List (K × CacheEntry V × ExpiredBy)) + c = c := zero_add c
    rw [hout, hzero]
    have := (hwheel.trans (short_applyReads _)).trans hshort
    simpa using this

theorem short_removeExpiredHashes (hashes : List UInt64) (now : UInt64) (s : ShardMap K V π) :
    Short s (s.removeExpiredHashes hash hashes now).2
      (handedCost (s.removeExpiredHashes hash hashes now).1) := by
  obtain ⟨c, hshort, hout⟩ := short_foldl_removeExpired hash now (fun s _ => s)
    (fun s _ => Short.zero rfl rfl) hashes s.applyReads []
  have hzero : handedCost ([] : List (K × CacheEntry V × ExpiredBy)) + c = c := zero_add c
  have hall := (short_applyReads s).trans hshort
  rw [zero_add] at hall
  show Short s _ (handedCost _)
  rw [show handedCost (s.removeExpiredHashes hash hashes now).1 = c from hout.trans hzero]
  exact hall

end Policy

section Step

variable [CachePolicy π K] [DecidableEq K]

def drift (s : ShardMap K V π) : UInt64 := s.counters.costDelta - s.cost

omit [CachePolicy π K] [DecidableEq K] in
theorem Short.drift {c : UInt64} (h : Short s s' c) : s'.drift = s.drift + c := by
  rw [ShardMap.drift, ShardMap.drift, h.costDelta, ← h.cost]
  abel

/-- An insert counts its change of the cost, whatever it evicts. -/
theorem drift_insertInner (s : ShardMap K V π) (clock : UInt64) (key : K) (entry : CacheEntry V)
    (count : Bool) : (s.insertInner hash clock key entry count).2.drift = s.drift := by
  have hstable : Stable fun s' : ShardMap K V π =>
      s'.counters.costDelta = s.counters.costDelta := {
    congr := fun h _ _ _ hd => hd.trans h
    taken := fun h htake => (short_taken htake).costDelta.trans h }
  obtain ⟨s', hs', n, heq, hn⟩ : ∃ s' : ShardMap K V π,
      s'.counters.costDelta = s.counters.costDelta ∧
        ∃ n, (s.insertInner hash clock key entry count).2 = _ ∧ _ := by
    refine hstable.insertInner clock count fun s' hw => ?_
    obtain ⟨w, t, harm⟩ := arm_eq s clock (hash key) entry
    rw [hw.costDelta, harm]
  rw [heq, drift, drift]
  cases s.get key with
  | none =>
    simp only [hn, hs']
    abel
  | some old =>
    obtain ⟨w, hw⟩ := disarm_eq s' old
    simp only [hn, hs', hw]
    abel

theorem drift_insertAll (s : ShardMap K V π) (clock : UInt64)
    (entries : List (K × CacheEntry V)) : (s.insertAll hash clock entries).drift = s.drift := by
  induction entries generalizing s with
  | nil => rfl
  | cons ke entries ih => exact (ih _).trans (drift_insertInner s clock ke.1 ke.2 false)

omit [DecidableEq K] in
theorem drift_clear (s : ShardMap K V π) : s.clear.drift = s.drift := by
  unfold ShardMap.clear
  split <;> simp [drift, sub_eq_add_neg]

theorem short_remove (s : ShardMap K V π) (key : K) :
    Short s (s.remove key).2 (total CacheEntry.cost (s.remove key).1.toList) := by
  simp only [ShardMap.remove]
  split
  · exact short_applyReads s
  · next k e s₁ ht =>
    have := ((short_applyReads s).trans (short_taken ht)).trans (short_forget _ k e)
    simpa [total] using this

theorem drift_step (s : ShardMap K V π) (op : Op K V) :
    (s.step hash op).drift = s.drift + total CacheEntry.cost (s.returned hash op) := by
  have hquiet : ∀ s', Short s s' 0 →
      s'.drift = s.drift + total CacheEntry.cost ([] : List (CacheEntry V)) := by
    intro s' h
    exact h.drift
  cases op with
  | insert clock key entry =>
    exact (drift_insertInner s clock key entry true).trans (add_zero _).symm
  | remove key => exact (short_remove s key).drift
  | expireDue clock now => exact (short_expireDue clock now s).drift
  | expireAll now => exact (short_removeExpiredHashes _ now s).drift
  | removeExpiredHashes hashes now => exact (short_removeExpiredHashes hashes now s).drift
  | clear => exact (drift_clear s).trans (add_zero _).symm
  | replaceAll clock entries =>
    exact ((drift_insertAll _ clock entries).trans (drift_clear s)).trans (add_zero _).symm
  | applyReads => exact hquiet _ (short_applyReads s)
  | applyDeferred read =>
    have hreads := short_applyReads s
    cases read <;> exact hquiet _ ⟨hreads.costDelta, hreads.cost⟩
  | touchRead node => exact hquiet _ (Short.zero rfl rfl)
  | pushRing node =>
    apply hquiet
    simp only [ShardMap.step, ShardMap.pushRing]
    split_ifs <;> exact Short.zero rfl rfl
  | pushLog key cost =>
    apply hquiet
    simp only [ShardMap.step, ShardMap.pushLog]
    split_ifs <;> exact Short.zero rfl rfl
  | modifyEntry key value lastAccessed => exact hquiet _ (Short.zero rfl rfl)

end Step

end ShardMap

/-! ### The cache -/

/-- The shards of a cache, the striped part of the reported cost, and the entries that calls
in progress took out of a shard and have yet to take off the counter. -/
structure CacheShared (K V π : Type*) where
  shards : List (ShardMap K V π)
  currentCost : StripedCounter
  unaccounted : List (CacheEntry V)

namespace CacheShared

variable {K V π : Type*}

/-- A cache as the builder makes it, one shard for each policy instance. -/
def new (capacity : UInt64) (policies : List π) (builtin : Option Builtin) (wheel : TimerWheel)
    (graceNs ttiNs : UInt64) : CacheShared K V π where
  shards := policies.map fun policy =>
    .new capacity (UInt64.ofNat policies.length) policy builtin wheel graceNs ttiNs
  currentCost := .new
  unaccounted := []

/-- The cost `metrics` reports: the striped counter and what each shard counted. -/
def currentCostTotal (c : CacheShared K V π) : UInt64 :=
  c.currentCost.load + (c.shards.map (·.counters.costDelta)).sum

/-- The steps of the handles, sync and async, and of the janitor. Each runs under the lock of
the shard it touches or is one atomic access to the counter. -/
inductive Action (K V : Type*)
  /-- A call on one shard: an insert of any handle, the entry API or a loader, a removal by
  `remove`, `invalidate` or `multi_remove`, the janitor's and `run_maintenance`'s expiries, a
  restore, a read. -/
  | onShard (i : ℕ) (op : ShardMap.Op K V)
  /-- `clear`, which holds every lock. -/
  | clear
  /-- `fetch_sub` of the cost of an entry handed out, as `account_expired` and the removals
  do, on the stripe of the thread. -/
  | account (j : ℕ) (stripe : Fin 64)

variable [CachePolicy π K] [DecidableEq K] (hash : K → UInt64)

/-- The cache after a step. -/
def act (c : CacheShared K V π) : Action K V → CacheShared K V π
  | .onShard i op =>
    match c.shards[i]? with
    | none => c
    | some s => { c with
        shards := c.shards.set i (s.step hash op)
        unaccounted := c.unaccounted ++ s.returned hash op }
  | .clear => { c with shards := c.shards.map ShardMap.clear }
  | .account j stripe =>
    match c.unaccounted[j]? with
    | none => c
    | some e => { c with
        currentCost := c.currentCost.fetchSub stripe e.cost
        unaccounted := c.unaccounted.eraseIdx j }

def acts (c : CacheShared K V π) (history : List (Action K V)) : CacheShared K V π :=
  history.foldl (act hash) c

/-- The shards' tallies are right, and the reported cost is the shards' costs and the entries
still to be accounted for. -/
structure Accounted (c : CacheShared K V π) : Prop where
  tally : ∀ s ∈ c.shards, s.Tally
  total : c.currentCost.load + (c.shards.map ShardMap.drift).sum =
    CostQueue.total CacheEntry.cost c.unaccounted

variable {hash} {c : CacheShared K V π}

omit [CachePolicy π K] [DecidableEq K] in
theorem accounted_new (capacity : UInt64) (policies : List π) (builtin : Option Builtin)
    (wheel : TimerWheel) (graceNs ttiNs : UInt64) :
    (new capacity policies builtin wheel graceNs ttiNs : CacheShared K V π).Accounted where
  tally := by
    intro s hs
    obtain ⟨policy, -, rfl⟩ := mem_map.mp hs
    exact ⟨nodup_nil, rfl⟩
  total := by
    have hzero : ∀ l : List π, ((l.map fun policy => (.new capacity
        (UInt64.ofNat policies.length) policy builtin wheel graceNs ttiNs :
          ShardMap K V π)).map ShardMap.drift).sum = 0 := by
      intro l
      induction l with
      | nil => rfl
      | cons policy l ih => simpa [ShardMap.drift, ShardMap.new] using ih
    rw [new, StripedCounter.load_new, hzero]
    rfl

theorem Accounted.act (h : c.Accounted) (a : Action K V) : (c.act hash a).Accounted := by
  cases a with
  | onShard i op =>
    unfold CacheShared.act
    dsimp only
    split
    · exact h
    · next s hs =>
      have hmem : s ∈ c.shards := mem_of_getElem? hs
      obtain ⟨hlt, rfl⟩ := List.getElem?_eq_some_iff.mp hs
      obtain ⟨l₁, l₂, hshards, -, hset⟩ : ∃ l₁ l₂, c.shards = l₁ ++ c.shards[i] :: l₂ ∧
          l₁.length = i ∧ c.shards.set i (c.shards[i].step hash op) =
            l₁ ++ c.shards[i].step hash op :: l₂ := exists_of_set hlt
      refine ⟨fun s' hs' => ?_, ?_⟩
      · rcases mem_or_eq_of_mem_set hs' with hs' | rfl
        · exact h.tally s' hs'
        · exact (h.tally _ hmem).step op
      · have htotal := h.total
        rw [hshards] at htotal
        simp only [hset, map_append, map_cons, sum_append, sum_cons,
          ShardMap.drift_step, total_append] at htotal ⊢
        rw [← htotal]
        abel
  | clear =>
    refine ⟨fun s hs => ?_, ?_⟩
    · obtain ⟨s', -, rfl⟩ := mem_map.mp hs
      exact .clear s'
    · have hdrift : (c.shards.map ShardMap.clear).map ShardMap.drift =
          c.shards.map ShardMap.drift := by
        rw [map_map]
        exact map_congr_left fun s _ => ShardMap.drift_clear s
      show c.currentCost.load + ((c.shards.map ShardMap.clear).map ShardMap.drift).sum = _
      rw [hdrift]
      exact h.total
  | account j stripe =>
    unfold CacheShared.act
    dsimp only
    split
    · exact h
    · next e he =>
      obtain ⟨hlt, rfl⟩ := List.getElem?_eq_some_iff.mp he
      refine ⟨h.tally, ?_⟩
      have hperm := getElem_cons_eraseIdx_perm hlt
      have htotal := h.total
      rw [total_perm _ hperm.symm, total_cons] at htotal
      rw [StripedCounter.load_fetchSub, sub_add_eq_add_sub, htotal]
      simp

theorem Accounted.acts (h : c.Accounted) (history : List (Action K V)) :
    (c.acts hash history).Accounted := by
  induction history generalizing c with
  | nil => exact h
  | cons a history ih => exact ih (h.act a)

end CacheShared

end Fibre.Cache
