import Mathlib.Data.Nat.Notation
import Mathlib.Tactic.SplitIfs

/-!
# Runs of a machine

A machine is a partial step function: `step s a` is the state after the action `a`, and `none`
when `a` is not possible in `s`. An interleaving of several parties is a run of the machine of
all of them.

## Main results

* `Machine.Run.invariant` — what every step keeps holds along every run
* `Machine.run_of_exec` — a list of actions that executes is a run
* `Machine.exists_reachable_of_measure` — a machine that can lower a measure reaches its end
-/

namespace Machine

open Option

variable {σ α : Type*} {step : σ → α → Option σ} {C D : σ → α → Prop} {s t u : σ} {a : α}

/-- A run: every action is possible and meets `C` in the state it is taken in. -/
inductive Run (step : σ → α → Option σ) (C : σ → α → Prop) : σ → σ → Prop
  | refl (s : σ) : Run step C s s
  | tail {s t u : σ} {a : α} : Run step C s t → C t a → step t a = some u → Run step C s u

/-- A state any actions lead to. -/
def Reachable (step : σ → α → Option σ) : σ → σ → Prop := Run step fun _ _ => True

theorem Run.mono (h : Run step C s t) (hCD : ∀ s a, C s a → D s a) : Run step D s t := by
  induction h with
  | refl => exact .refl s
  | tail _ hC hstep ih => exact .tail ih (hCD _ _ hC) hstep

theorem Run.reachable (h : Run step C s t) : Reachable step s t := h.mono fun _ _ _ => trivial

/-- What every step keeps holds along every run. -/
theorem Run.invariant {I : σ → Prop} (h : Run step C s t) (h0 : I s)
    (hI : ∀ t a u, I t → C t a → step t a = some u → I u) : I t := by
  induction h with
  | refl => exact h0
  | tail _ hC hstep ih => exact hI _ _ _ ih hC hstep

theorem Run.head (hC : C s a) (hstep : step s a = some t) (h : Run step C t u) :
    Run step C s u := by
  induction h with
  | refl => exact .tail (.refl s) hC hstep
  | tail _ hC' hstep' ih => exact .tail ih hC' hstep'

theorem Run.trans (h : Run step C s t) (h' : Run step C t u) : Run step C s u := by
  induction h' with
  | refl => exact h
  | tail _ hC hstep ih => exact .tail ih hC hstep

theorem Reachable.trans (h : Reachable step s t) (h' : Reachable step t u) : Reachable step s u :=
  Run.trans h h'

/-- Steps that lower a measure as long as `D` does not hold lead to a state where it does. -/
theorem exists_reachable_of_measure {I D : σ → Prop} (μ : σ → ℕ)
    (hstep : ∀ s, I s → ¬ D s → ∃ a t, step s a = some t ∧ I t ∧ μ t < μ s) (h : I s) :
    ∃ t, Reachable step s t ∧ I t ∧ D t := by
  induction hn : μ s using Nat.strongRecOn generalizing s with
  | ind n ih =>
    by_cases hD : D s
    · exact ⟨s, .refl s, h, hD⟩
    · obtain ⟨a, t, hat, hI, hlt⟩ := hstep s h hD
      obtain ⟨u, hreach, hu⟩ := ih (μ t) (hn ▸ hlt) hI rfl
      exact ⟨u, Run.head trivial hat hreach, hu⟩

/-- Takes the actions in order; `none` when one is not possible or does not meet `c`. -/
def exec (step : σ → α → Option σ) (c : σ → α → Bool) : σ → List α → Option σ
  | s, [] => some s
  | s, a :: as => if c s a then (step s a).bind fun t => exec step c t as else none

theorem exec_append {c : σ → α → Bool} (s : σ) (as bs : List α) :
    exec step c s (as ++ bs) = (exec step c s as).bind fun t => exec step c t bs := by
  induction as generalizing s with
  | nil => rfl
  | cons a as ih =>
    simp only [List.cons_append, exec]
    split_ifs
    · rw [bind_assoc]
      exact congrArg _ (funext ih)
    · rfl

/-- A list of actions that executes is a run. -/
theorem run_of_exec {c : σ → α → Bool} (hc : ∀ s a, c s a → C s a) {as : List α}
    (h : exec step c s as = some t) : Run step C s t := by
  induction as generalizing s with
  | nil =>
    obtain rfl : s = t := by simpa [exec] using h
    exact .refl s
  | cons a as ih =>
    simp only [exec] at h
    split_ifs at h with hca
    obtain ⟨s', hs', h'⟩ := bind_eq_some_iff.mp h
    exact Run.head (hc s a hca) hs' (ih h')

theorem run_of_exec_of_invariant {I : σ → Prop} {c : σ → α → Bool} (h0 : I s)
    (hc : ∀ s a, I s → c s a → C s a) (hI : ∀ s a t, I s → C s a → step s a = some t → I t)
    {as : List α} (h : exec step c s as = some t) : Run step C s t := by
  induction as generalizing s with
  | nil =>
    obtain rfl : s = t := by simpa [exec] using h
    exact .refl s
  | cons a as ih =>
    simp only [exec] at h
    split_ifs at h with hca
    obtain ⟨s', hs', h'⟩ := bind_eq_some_iff.mp h
    have hC := hc s a h0 hca
    exact Run.head hC hs' (ih (hI s a s' h0 hC hs') h')

theorem reachable_of_exec {as : List α} (h : exec step (fun _ _ => true) s as = some t) :
    Reachable step s t :=
  run_of_exec (fun _ _ _ => trivial) h

end Machine
