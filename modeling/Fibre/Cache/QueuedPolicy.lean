import Fibre.Cache.Policy
import Fibre.Math.Eviction

/-!
# Policies as queues

A policy that evicts has the keys that it tracks, with the costs recorded for them, in a queue: the
order in which it would evict them. Each call has its effect on what is recorded for a key, and an
eviction takes keys from the front of the queue.
-/

namespace Fibre.Cache

open CostQueue

/-- A policy and the queue in which it keeps its keys, for the states that are `Tidy`. A policy
may keep the cost of a key that is admitted again, and may record the cost told with a read. -/
class QueuedPolicy (π K : Type*) [DecidableEq K] [CachePolicy π K] where
  Tidy : π → Prop
  /-- What a key that is tracked costs. -/
  costs : π → K → Option UInt64
  queue : π → List (K × UInt64)
  updatesCost : Bool
  recordsReads : Bool
  /-- An eviction whose loops have at most so many turns each. -/
  evictLoops : ℕ → UInt64 → π → (List K × UInt64) × π
  /-- Turns that are always enough. -/
  turns : π → ℕ
  nodup : ∀ {s}, Tidy s → ((queue s).map Prod.fst).Nodup
  costs_eq : ∀ {s}, Tidy s → ∀ k, costs s k = costOf (queue s) k
  onAccess : ∀ {s} (key : K) (cost : UInt64), Tidy s →
    Tidy (CachePolicy.onAccess s key cost) ∧ ∀ k,
      costs (CachePolicy.onAccess s key cost) k = costs s k ∨
        recordsReads = true ∧ k = key ∧ (costs s k).isSome = true ∧
          costs (CachePolicy.onAccess s key cost) k = some cost
  onAdmit : ∀ {s} (key : K) (cost : UInt64), Tidy s →
    (CachePolicy.onAdmit s key cost).1 = .admitted ∧
      Tidy (CachePolicy.onAdmit s key cost).2 ∧
        ((∀ k, costs (CachePolicy.onAdmit s key cost).2 k =
            if k = key then some cost else costs s k) ∨
          updatesCost = false ∧ (costs s key).isSome = true ∧
            ∀ k, costs (CachePolicy.onAdmit s key cost).2 k = costs s k)
  onRemove : ∀ {s} (key : K), Tidy s →
    Tidy (CachePolicy.onRemove s key) ∧ ∀ k,
      costs (CachePolicy.onRemove s key) k = if k = key then none else costs s k
  clear : ∀ {s}, Tidy s → Tidy (CachePolicy.clear K s) ∧ ∀ k, costs (CachePolicy.clear K s) k = none
  evict_eq : ∀ {s} (c : UInt64), Tidy s → CachePolicy.evict s c = evictLoops (turns s) c s
  steady : ∀ {s} {fuel : ℕ} (c : UInt64), Tidy s → turns s ≤ fuel →
    evictLoops fuel c s = evictLoops (turns s) c s
  evict : ∀ {s} (c : UInt64), Tidy s → ∃ taken s', Tidy s' ∧ taken ++ queue s' = queue s ∧
    evictLoops (turns s) c s = ((taken.map Prod.fst, total Prod.snd taken), s') ∧
      (totalNat Prod.snd (popUntil Prod.snd c (queue s)).2.1 < 2 ^ 64 →
        taken = (popUntil Prod.snd c (queue s)).2.1)

namespace QueuedPolicy

variable {π K : Type*} [DecidableEq K] [CachePolicy π K] [QueuedPolicy π K] {s : π}

/-- What a caller asks of an eviction: it ends, however many turns its loops may take, and takes
just the keys that it has to. -/
structure Contract (s : π) (costToFree : UInt64) : Prop where
  ends : ∃ n, ∀ fuel, n ≤ fuel →
    evictLoops (K := K) fuel costToFree s = CachePolicy.evict s costToFree
  evicts : Evicts (costs (K := K) s) (costs (CachePolicy.evict (K := K) s costToFree).2)
    (CachePolicy.evict s costToFree).1.1 (CachePolicy.evict (K := K) s costToFree).1.2 costToFree

theorem step_tidy (h : Tidy K s) (call : PolicyCall K) : Tidy K (CachePolicy.step s call) := by
  cases call with
  | onAccess key cost => exact (onAccess key cost h).1
  | onAdmit key cost => exact (onAdmit key cost h).2.1
  | onRemove key => exact (onRemove key h).1
  | evict costToFree =>
    obtain ⟨taken, s', h', -, hevict, -⟩ := evict (K := K) costToFree h
    show Tidy K (CachePolicy.evict (K := K) s costToFree).2
    rw [evict_eq costToFree h, hevict]
    exact h'
  | clear => exact (clear h).1

theorem run_tidy (h : Tidy K s) (calls : List (PolicyCall K)) :
    Tidy K (CachePolicy.run s calls) :=
  CachePolicy.run_induction (P := Tidy K) (fun _ call h => step_tidy h call) h calls

/-- An eviction keeps its contract exactly when what it has to take fits a word. -/
theorem contract_of_fits (h : Tidy K s) (costToFree : UInt64) :
    Contract (K := K) s costToFree ↔
      totalNat Prod.snd (popUntil Prod.snd costToFree (queue (K := K) s)).2.1 < 2 ^ 64 := by
  obtain ⟨taken, s', h', hsplit, hevict, hright⟩ := evict (K := K) costToFree h
  have hends : ∃ n, ∀ fuel, n ≤ fuel →
      evictLoops (K := K) fuel costToFree s = CachePolicy.evict s costToFree :=
    ⟨turns K s, fun fuel hfuel => by rw [evict_eq costToFree h, steady costToFree h hfuel]⟩
  have hiff := evicts_iff (nodup h) (costs_eq h) (costs_eq h') hsplit rfl rfl hright
  rw [← hiff]
  constructor
  · intro hcontract
    have hev := hcontract.evicts
    rwa [evict_eq costToFree h, hevict] at hev
  · intro hev
    refine ⟨hends, ?_⟩
    rw [evict_eq costToFree h, hevict]
    exact hev

end QueuedPolicy

end Fibre.Cache
