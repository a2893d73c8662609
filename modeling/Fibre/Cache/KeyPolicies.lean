import Fibre.Cache.Clock
import Fibre.Cache.ListPolicies
import Fibre.Cache.S3Order
import Fibre.Cache.Sieve

/-!
# The key policies

A cache that is given a policy by a factory may have any of six that keep their keys in queues.
-/

namespace Fibre.Cache

open CostQueue QueuedPolicy

universe u

inductive KeyKind
  | fifo
  | lru
  | slru
  | clock
  | sieve
  | s3Fifo
  deriving DecidableEq

def KeyPolicy (K : Type u) : KeyKind → Type u
  | .fifo => Fifo K
  | .lru => Lru K
  | .slru => Slru K
  | .clock => Clock K
  | .sieve => Sieve K
  | .s3Fifo => S3Fifo K

namespace KeyPolicy

variable {K : Type u}

/-- An empty policy of a kind, for `capacity` cost units. -/
def new (capacity : UInt64) : ∀ kind, KeyPolicy K kind
  | .fifo => Fifo.new
  | .lru => Lru.new
  | .slru => Slru.new capacity
  | .clock => Clock.new
  | .sieve => Sieve.new
  | .s3Fifo => S3Fifo.new capacity

variable [DecidableEq K]

instance cachePolicy : ∀ kind, CachePolicy (KeyPolicy K kind) K
  | .fifo => inferInstanceAs (CachePolicy (Fifo K) K)
  | .lru => inferInstanceAs (CachePolicy (Lru K) K)
  | .slru => inferInstanceAs (CachePolicy (Slru K) K)
  | .clock => inferInstanceAs (CachePolicy (Clock K) K)
  | .sieve => inferInstanceAs (CachePolicy (Sieve K) K)
  | .s3Fifo => inferInstanceAs (CachePolicy (S3Fifo K) K)

instance queuedPolicy : ∀ kind, QueuedPolicy (KeyPolicy K kind) K
  | .fifo => inferInstanceAs (QueuedPolicy (Fifo K) K)
  | .lru => inferInstanceAs (QueuedPolicy (Lru K) K)
  | .slru => inferInstanceAs (QueuedPolicy (Slru K) K)
  | .clock => inferInstanceAs (QueuedPolicy (Clock K) K)
  | .sieve => inferInstanceAs (QueuedPolicy (Sieve K) K)
  | .s3Fifo => inferInstanceAs (QueuedPolicy (S3Fifo K) K)

theorem tidy_new (capacity : UInt64) (kind : KeyKind) :
    Tidy K (new capacity kind : KeyPolicy K kind) := by
  cases kind with
  | fifo => exact LruList.Stores.new.self
  | lru => exact LruList.Stores.new.self
  | slru => exact Slru.Tidy.new capacity
  | clock => exact Clock.Tidy.new
  | sieve => exact Sieve.Tidy.new
  | s3Fifo => exact S3Fifo.Tidy.new capacity

/-- In every state that calls lead to, and for every cost, an eviction ends, takes distinct keys
that were tracked, leaves the others alone, and tells what it took, which is enough and no more,
exactly when what it has to take from its queue costs less than `2 ^ 64`. -/
theorem contract_iff (kind : KeyKind) (capacity : UInt64) (calls : List (PolicyCall K))
    (costToFree : UInt64) :
    let s := CachePolicy.run (new capacity kind : KeyPolicy K kind) calls
    Contract (K := K) s costToFree ↔
      totalNat Prod.snd (popUntil Prod.snd costToFree (queue (K := K) s)).2.1 < 2 ^ 64 :=
  QueuedPolicy.contract_of_fits (run_tidy (tidy_new capacity kind) calls) costToFree

/-- Two keys of `2 ^ 63` each are taken for a cost of one more than that, and no cost is told. -/
theorem contract_wraps :
    ¬ Contract (K := ℕ) (CachePolicy.run (new 0 .fifo : KeyPolicy ℕ .fifo)
      [.onAdmit 1 (2 ^ 63), .onAdmit 2 (2 ^ 63)]) (2 ^ 63 + 1) := by
  intro h
  have htold := h.evicts.returned
  revert htold
  decide +kernel

end KeyPolicy

end Fibre.Cache
