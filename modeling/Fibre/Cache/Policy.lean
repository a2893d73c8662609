import Mathlib.Data.UInt

/-!
# Policies given by a factory

What a shard asks of a policy it was given, and the policy that does nothing.
-/

namespace Fibre.Cache

/-- What a policy decides about an entry being admitted. -/
inductive AdmissionDecision (K : Type*)
  | admitted
  | reject
  | admitAndEvict (victims : List K)
  deriving DecidableEq

/-- A policy supplied through a factory, as a state `π` and the calls the shard makes. -/
class CachePolicy (π K : Type*) where
  onAccess : π → K → UInt64 → π
  onAdmit : π → K → UInt64 → AdmissionDecision K × π
  onRemove : π → K → π
  evict : π → UInt64 → (List K × UInt64) × π
  clear : π → π

inductive PolicyCall (K : Type*)
  | onAccess (key : K) (cost : UInt64)
  | onAdmit (key : K) (cost : UInt64)
  | onRemove (key : K)
  | evict (costToFree : UInt64)
  | clear

namespace CachePolicy

variable {π K : Type*} [CachePolicy π K]

def step (p : π) : PolicyCall K → π
  | .onAccess key cost => onAccess p key cost
  | .onAdmit key cost => (onAdmit p key cost).2
  | .onRemove key => onRemove p key
  | .evict costToFree => (evict (K := K) p costToFree).2
  | .clear => clear K p

def run (p : π) (calls : List (PolicyCall K)) : π := calls.foldl step p

/-- What holds at first, and after each call if it held before, holds after every run. -/
theorem run_induction {P : π → Prop} (hstep : ∀ p (call : PolicyCall K), P p → P (step p call))
    {p : π} (h : P p) (calls : List (PolicyCall K)) : P (run p calls) := by
  induction calls generalizing p with
  | nil => exact h
  | cons call calls ih => exact ih (hstep p call h)

end CachePolicy

/-- The policy that does nothing and never evicts. -/
structure NullPolicy where

instance {K : Type*} : CachePolicy NullPolicy K where
  onAccess p _ _ := p
  onAdmit p _ _ := (.admitted, p)
  onRemove p _ := p
  evict p _ := (([], 0), p)
  clear p := p

end Fibre.Cache
