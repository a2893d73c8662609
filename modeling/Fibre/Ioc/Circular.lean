import Mathlib.Data.Finset.Card
import Fibre.Ioc.Container

/-!
# Circular dependencies

A `get` on one thread, with the gets of the factories that it runs. The keys that the thread is
resolving are in one set, whatever container they are resolved in; a guard takes its key out of the set
when its `get` returns or unwinds. A factory may catch the panic of a `get` it calls.
-/

namespace Fibre.Ioc

open Option

/-- How a `get` ends. A panic is one for a circular dependency, or not. -/
inductive Answer (V : Type*)
  | found (value : V)
  | missing
  | panicked (circular : Bool)
  deriving DecidableEq

/-- A factory: it may read and change the state of the program, and go by the answers of the gets it
calls. One that does not catch a panic goes on with the panic. -/
inductive Factory (C K W V : Type*)
  | build (value : V)
  | panic (circular : Bool)
  | effect (f : W → W) (next : W → Factory C K W V)
  | get (c : C) (k : K) (next : Answer V → Factory C K W V)

/-- The containers of a program, and their keys. -/
structure Registry (C K W V : Type*) where
  provider : C → K → Option (Provider × Factory C K W V)
  keys : Finset K
  finite : ∀ c k, (provider c k).isSome → k ∈ keys

/-- The cells of the singletons, and the state of the program. -/
structure Memory (C K W V : Type*) where
  cell : C → K → Option V
  world : W

variable {C K W V σ : Type*}

/-- The factory runs to its end, given what a `get` does. -/
def Factory.run (get : C → K → σ → Option (Answer V × σ)) (effect : (W → W) → σ → W × σ) :
    Factory C K W V → σ → Option (Answer V × σ)
  | build value, s => some (.found value, s)
  | panic circular, s => some (.panicked circular, s)
  | .effect f next, s => (next (effect f s).1).run get effect (effect f s).2
  | .get c k next, s => (get c k s).bind fun r => (next r.1).run get effect r.2

theorem Factory.isSome_run {spec : C → K → σ → Option (Answer V × σ)} {effect : (W → W) → σ → W × σ}
    (hspec : ∀ c k s, (spec c k s).isSome) (p : Factory C K W V) (s : σ) :
    (p.run spec effect s).isSome := by
  induction p generalizing s with
  | build value => rfl
  | panic circular => rfl
  | effect f next ih => exact ih _ _
  | get c k next ih =>
    obtain ⟨r, hr⟩ := isSome_iff_exists.mp (hspec c k s)
    simpa only [Factory.run, hr, bind_some] using ih r.1 r.2

theorem Factory.run_mono {spec spec' : C → K → σ → Option (Answer V × σ)} {effect : (W → W) → σ → W × σ}
    (hspec : ∀ c k s r, spec c k s = some r → spec' c k s = some r) (p : Factory C K W V) {s : σ}
    {r : Answer V × σ} (h : p.run spec effect s = some r) : p.run spec' effect s = some r := by
  induction p generalizing s with
  | build value => exact h
  | panic circular => exact h
  | effect f next ih => exact ih _ h
  | get c k next ih =>
    obtain ⟨a, ha, hr⟩ := bind_eq_some_iff.mp h
    rw [run, hspec c k s a ha]
    exact ih a.1 hr

namespace Memory

def effect (f : W → W) (m : Memory C K W V) : W × Memory C K W V :=
  (m.world, { m with world := f m.world })

variable [DecidableEq C] [DecidableEq K]

/-- The value of a singleton stays in its cell. -/
def store (m : Memory C K W V) (c : C) (k : K) : Provider → Answer V → Memory C K W V
  | .singleton, .found value =>
    { m with cell := Function.update m.cell c (Function.update (m.cell c) k (some value)) }
  | _, _ => m

end Memory

/-- A thread: its `RESOLVING_STACK`, and the memory. -/
structure Resolver (C K W V : Type*) where
  resolving : Finset K
  memory : Memory C K W V

def Resolver.effect (f : W → W) (s : Resolver C K W V) : W × Resolver C K W V :=
  ((s.memory.effect f).1, { s with memory := (s.memory.effect f).2 })

namespace Registry

variable [DecidableEq K]

/-- The thread whose set has the keys of the stack. -/
def resolverOf (stack : List (C × K)) (m : Memory C K W V) : Resolver C K W V :=
  ⟨(stack.map Prod.snd).toFinset, m⟩

/-- The gets of a factory leave the set as it was, if each of them does. -/
theorem run_resolverOf {stack : List (C × K)}
    {get : C → K → Resolver C K W V → Option (Answer V × Resolver C K W V)}
    {spec : C → K → Memory C K W V → Option (Answer V × Memory C K W V)}
    (hget : ∀ c k m, get c k (resolverOf stack m) =
      (spec c k m).map (Prod.map id (resolverOf stack)))
    (p : Factory C K W V) (m : Memory C K W V) : p.run get Resolver.effect (resolverOf stack m) =
      (p.run spec Memory.effect m).map (Prod.map id (resolverOf stack)) := by
  induction p generalizing m with
  | build value => rfl
  | panic circular => rfl
  | effect f next ih => exact ih m.world { m with world := f m.world }
  | get c k next ih =>
    simp only [Factory.run, hget]
    cases spec c k m with
    | none => rfl
    | some r => exact ih r.1 r.2

variable [DecidableEq C]

/-- `get`, with gets nested `n` deep at most. -/
def get (reg : Registry C K W V) :
    ℕ → C → K → Resolver C K W V → Option (Answer V × Resolver C K W V)
  | 0, _, _, _ => none
  | n + 1, c, k, s =>
    if k ∈ s.resolving then some (.panicked true, s)
    else
      let guarded : Resolver C K W V := { s with resolving := insert k s.resolving }
      let drop (s : Resolver C K W V) : Resolver C K W V :=
        { s with resolving := s.resolving.erase k }
      match reg.provider c k with
      | none => some (.missing, drop guarded)
      | some (kind, factory) =>
        match (if kind = .singleton then s.memory.cell c k else none) with
        | some value => some (.found value, drop guarded)
        | none => (factory.run (reg.get n) Resolver.effect guarded).map fun r =>
          (r.1, drop { r.2 with memory := r.2.memory.store c k kind r.1 })

/-- What `get` is for: it is told the services that are being resolved, and panics when it comes back
to one of them. -/
def resolve (reg : Registry C K W V) (back : List (C × K) → C × K → Bool) :
    ℕ → List (C × K) → C → K → Memory C K W V → Option (Answer V × Memory C K W V)
  | 0, _, _, _, _ => none
  | n + 1, stack, c, k, m =>
    if back stack (c, k) then some (.panicked true, m)
    else
      match reg.provider c k with
      | none => some (.missing, m)
      | some (kind, factory) =>
        match (if kind = .singleton then m.cell c k else none) with
        | some value => some (.found value, m)
        | none => (factory.run (reg.resolve back n ((c, k) :: stack)) Memory.effect m).map fun r =>
          (r.1, r.2.store c k kind r.1)

/-- It comes back to the type and the name of a service, in whatever container. -/
def sameKey (stack : List (C × K)) (service : C × K) : Bool := service.2 ∈ stack.map Prod.snd

/-- It comes back to a service. -/
def sameService (stack : List (C × K)) (service : C × K) : Bool := service ∈ stack

variable {reg : Registry C K W V} {n : ℕ} {stack : List (C × K)} {m : Memory C K W V}

/-- The set has the keys of the gets that a `get` is nested in, before it and after. -/
theorem get_resolverOf (reg : Registry C K W V) (n : ℕ) (stack : List (C × K)) (c : C) (k : K)
    (m : Memory C K W V) : reg.get n c k (resolverOf stack m) =
      (reg.resolve sameKey n stack c k m).map (Prod.map id (resolverOf stack)) := by
  induction n generalizing stack c k m with
  | zero => rfl
  | succ n ih =>
    by_cases hk : k ∈ stack.map Prod.snd
    · simp [get, resolve, resolverOf, sameKey, hk]
    · have hset : k ∉ (stack.map Prod.snd).toFinset := by simpa using hk
      have hdrop : (insert k (stack.map Prod.snd).toFinset).erase k = (stack.map Prod.snd).toFinset :=
        Finset.erase_insert hset
      have hguard : (⟨insert k (stack.map Prod.snd).toFinset, m⟩ : Resolver C K W V) =
          resolverOf ((c, k) :: stack) m := by simp [resolverOf]
      have hrun := fun p => run_resolverOf (fun c' k' m => ih ((c, k) :: stack) c' k' m) p m
      unfold get resolve
      rw [if_neg (show k ∉ (resolverOf stack m).resolving from hset),
        if_neg (by simpa [sameKey] using hk)]
      simp only [show (resolverOf stack m).resolving = (stack.map Prod.snd).toFinset from rfl,
        show (resolverOf stack m).memory = m from rfl]
      cases reg.provider c k with
      | none => simp [hdrop, resolverOf]
      | some r =>
        obtain ⟨kind, factory⟩ := r
        simp only
        cases (if kind = .singleton then m.cell c k else none) with
        | some value => simp [hdrop, resolverOf]
        | none =>
          simp only [hguard, hrun, map_map]
          congr 1
          funext r
          simp [resolverOf, hdrop]

/-! ### Every get ends -/

/-- A nested `get` that runs a factory resolves one key more. -/
theorem isSome_resolve (reg : Registry C K W V) (n : ℕ) (stack : List (C × K))
    (hn : (reg.keys \ (stack.map Prod.snd).toFinset).card < n) (c : C) (k : K)
    (m : Memory C K W V) : (reg.resolve sameKey n stack c k m).isSome := by
  induction n generalizing stack c k m with
  | zero => simp at hn
  | succ n ih =>
    unfold resolve
    split_ifs with hback
    · rfl
    have hout : k ∉ stack.map Prod.snd := by simpa [sameKey] using hback
    cases hp : reg.provider c k with
    | none => rfl
    | some r =>
      have hk : k ∈ reg.keys := reg.finite c k (by simp [hp])
      have hless : (reg.keys \ (((c, k) :: stack).map Prod.snd).toFinset).card < n := by
        have hmem : k ∈ reg.keys \ (stack.map Prod.snd).toFinset := by
          simpa [hk] using hout
        have herase : reg.keys \ (((c, k) :: stack).map Prod.snd).toFinset =
            (reg.keys \ (stack.map Prod.snd).toFinset).erase k := by
          ext x
          simp [and_comm, and_left_comm]
        rw [herase, Finset.card_erase_of_mem hmem]
        have hpos := Finset.card_pos.mpr ⟨k, hmem⟩
        omega
      simp only
      split
      · rfl
      · simpa using Factory.isSome_run (fun c' k' m' => ih _ hless c' k' m') _ _

theorem resolve_succ (reg : Registry C K W V) {back : List (C × K) → C × K → Bool} (n : ℕ)
    {stack : List (C × K)} {c : C} {k : K} {m : Memory C K W V} {r : Answer V × Memory C K W V}
    (h : reg.resolve back n stack c k m = some r) : reg.resolve back (n + 1) stack c k m = some r := by
  induction n generalizing stack c k m r with
  | zero => cases h
  | succ n ih =>
    unfold resolve at h ⊢
    split_ifs at h ⊢
    · exact h
    cases hp : reg.provider c k with
    | none => rwa [hp] at h
    | some q =>
      simp only [hp] at h ⊢
      split at h
      · exact h
      · obtain ⟨r', hr', rfl⟩ := map_eq_some_iff.mp h
        rw [Factory.run_mono (fun _ _ _ _ => ih) _ hr']
        rfl

/-- Every `get` ends, with the answer and the memory of `resolve`, which panics when it comes back to a
type and name that it is resolving; and the set of the thread is what it was. -/
theorem get_eq_resolve (reg : Registry C K W V) (stack : List (C × K)) (c : C) (k : K)
    (m : Memory C K W V) : ∃ answer m', ∀ n > reg.keys.card,
      reg.get n c k (resolverOf stack m) = some (answer, resolverOf stack m') ∧
        reg.resolve sameKey n stack c k m = some (answer, m') := by
  have hcard : (reg.keys \ (stack.map Prod.snd).toFinset).card < reg.keys.card + 1 :=
    Nat.lt_succ_of_le (Finset.card_le_card Finset.sdiff_subset)
  obtain ⟨⟨answer, m'⟩, hr⟩ :=
    Option.isSome_iff_exists.mp (isSome_resolve reg (reg.keys.card + 1) stack hcard c k m)
  refine ⟨answer, m', fun n hn => ?_⟩
  have hresolve : reg.resolve sameKey n stack c k m = some (answer, m') := by
    induction n, hn using Nat.le_induction with
    | base => exact hr
    | succ n _ ih => exact resolve_succ reg n ih
  refine ⟨?_, hresolve⟩
  rw [get_resolverOf, hresolve]
  rfl

/-! ### The same key in two containers -/

/-- The service of container `true` is built with the one of the same key of container `false`. -/
def layered : Registry Bool Unit Unit ℕ where
  provider c _ := some (.transient, if c then .get false () fun
    | .found value => .build (value + 1)
    | .missing => .panic false
    | .panicked circular => .panic circular
    else .build 7)
  keys := {()}
  finite _ _ _ := Finset.mem_singleton_self _

/-- There is no circle of services, and the `get` panics. -/
theorem not_sameService_layered : ¬ ∀ m : Memory Bool Unit Unit ℕ, ∃ answer m', ∀ n > 1,
    layered.get n true () (resolverOf [] m) = some (answer, resolverOf [] m') ∧
      layered.resolve sameService n [] true () m = some (answer, m') := by
  intro h
  obtain ⟨answer, m', hall⟩ := h ⟨fun _ _ => none, ()⟩
  obtain ⟨hget, hresolve⟩ := hall 2 (by decide)
  have hpanic : (layered.get 2 true () (resolverOf [] ⟨fun _ _ => none, ()⟩)).map Prod.fst =
      some (.panicked true) := by decide
  have hfound : (layered.resolve sameService 2 [] true () ⟨fun _ _ => none, ()⟩).map Prod.fst =
      some (.found 8) := by decide
  rw [hget] at hpanic
  rw [hresolve] at hfound
  exact absurd (hpanic.symm.trans hfound) (by simp)

end Registry

end Fibre.Ioc
