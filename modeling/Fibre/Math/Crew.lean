import Mathlib.Algebra.GroupWithZero.Nat
import Mathlib.Algebra.Order.BigOperators.Group.List
import Mathlib.Algebra.Order.Group.Multiset
import Mathlib.Algebra.Order.Group.Nat

/-!
# Weighing a crew

A crew is a list of processes, each at a program point. A weight of a program point, summed over
the crew, counts the processes at the points it marks: those that hold a slot, those inside a
loop. A step moves one process, so it changes each such sum by the weights of two points. The same
goes for the things the processes hold.

## Main results

* `Crew.weigh_set` — what moving one process does to the sum
* `Crew.weigh_mono` — a weight below another
* `Crew.gather_set` — what moving one process does to what is held
-/

namespace Crew

open List

variable {π : Type*} {l : List π} {w w' : π → ℕ} {p q : π} {i : ℕ}

/-- The sum of a weight over the processes. -/
def weigh (w : π → ℕ) (l : List π) : ℕ := (l.map w).sum

@[simp] theorem weigh_nil (w : π → ℕ) : weigh w [] = 0 := rfl

theorem weigh_append (w : π → ℕ) (l l' : List π) :
    weigh w (l ++ l') = weigh w l + weigh w l' := by
  simp [weigh]

@[simp] theorem weigh_append_singleton (w : π → ℕ) (l : List π) (p : π) :
    weigh w (l ++ [p]) = weigh w l + w p := by
  simp [weigh]

/-- One process moves from `p` to `q`. -/
theorem weigh_set (w : π → ℕ) (h : l[i]? = some p) (q : π) :
    weigh w (l.set i q) + w p = weigh w l + w q := by
  induction l generalizing i with
  | nil => simp at h
  | cons r l ih =>
    cases i with
    | zero =>
      obtain rfl : r = p := by simpa using h
      simp only [set_cons_zero, weigh, map_cons, sum_cons]
      omega
    | succ i =>
      have := ih (by simpa using h)
      simp only [set_cons_succ, weigh, map_cons, sum_cons] at this ⊢
      omega

theorem weigh_mono (h : ∀ p, w p ≤ w' p) (l : List π) : weigh w l ≤ weigh w' l :=
  sum_le_sum fun p _ => h p

theorem le_weigh (w : π → ℕ) (h : l[i]? = some p) : w p ≤ weigh w l :=
  single_le_sum (fun _ _ => Nat.zero_le _) _ (mem_map_of_mem (mem_of_getElem? h))

theorem unique_of_weigh_le_one {j : ℕ} (h : weigh w l ≤ 1) (hi : l[i]? = some p)
    (hj : l[j]? = some q) (hp : w p = 1) (hq : w q = 1) : i = j := by
  induction l generalizing i j with
  | nil => simp at hi
  | cons r l ih =>
    simp only [weigh, map_cons, sum_cons] at h
    have hle : ∀ {k : ℕ} {x : π}, l[k]? = some x → w x ≤ (l.map w).sum := le_weigh w
    cases i with
    | zero =>
      cases j with
      | zero => rfl
      | succ j =>
        obtain rfl : r = p := by simpa using hi
        have := hle (by simpa using hj)
        omega
    | succ i =>
      cases j with
      | zero =>
        obtain rfl : r = q := by simpa using hj
        have := hle (by simpa using hi)
        omega
      | succ j =>
        have hl : weigh w l ≤ 1 := by
          rw [weigh]
          omega
        exact congrArg (· + 1) (ih hl (by simpa using hi) (by simpa using hj))

theorem weigh_eq_zero (h : ∀ p ∈ l, w p = 0) : weigh w l = 0 := by
  rw [weigh, sum_eq_zero_iff]
  intro n hn
  obtain ⟨p, hp, rfl⟩ := mem_map.mp hn
  exact h p hp

variable {τ : Type*}

/-- What the processes hold. -/
def gather (held : π → Multiset τ) (l : List π) : Multiset τ := (l.map held).sum

@[simp] theorem gather_nil (held : π → Multiset τ) : gather held [] = 0 := rfl

theorem gather_append (held : π → Multiset τ) (l l' : List π) :
    gather held (l ++ l') = gather held l + gather held l' := by
  simp [gather]

@[simp] theorem gather_append_singleton (held : π → Multiset τ) (l : List π) (p : π) :
    gather held (l ++ [p]) = gather held l + held p := by
  simp [gather]

/-- One process moves from `p` to `q`. -/
theorem gather_set (held : π → Multiset τ) (h : l[i]? = some p) (q : π) :
    gather held (l.set i q) + held p = gather held l + held q := by
  induction l generalizing i with
  | nil => simp at h
  | cons r l ih =>
    cases i with
    | zero =>
      obtain rfl : r = p := by simpa using h
      simp only [set_cons_zero, gather, map_cons, sum_cons]
      ac_rfl
    | succ i =>
      have := ih (by simpa using h)
      simp only [set_cons_succ, gather, map_cons, sum_cons] at this ⊢
      rw [add_assoc, this, add_assoc]

theorem mem_gather {held : π → Multiset τ} (h : l[i]? = some p) {x : τ} (hx : x ∈ held p) :
    x ∈ gather held l := by
  induction l generalizing i with
  | nil => simp at h
  | cons r l ih =>
    simp only [gather, map_cons, sum_cons, Multiset.mem_add]
    cases i with
    | zero =>
      obtain rfl : r = p := by simpa using h
      exact .inl hx
    | succ i => exact .inr (ih (by simpa using h))

theorem unique_of_nodup_gather {held : π → Multiset τ} (h : (gather held l).Nodup) {j : ℕ}
    (hi : l[i]? = some p) (hj : l[j]? = some q) {x : τ} (hp : x ∈ held p) (hq : x ∈ held q) :
    i = j := by
  induction l generalizing i j with
  | nil => simp at hi
  | cons r l ih =>
    obtain ⟨-, hl, hdisjoint⟩ : (held r).Nodup ∧ (gather held l).Nodup ∧
        Disjoint (held r) (gather held l) := by
      simpa [gather, Multiset.nodup_add] using h
    have hnot : ∀ {k : ℕ} {y : π}, l[k]? = some y → x ∈ held r → x ∉ held y :=
      fun hk hr hy => Multiset.disjoint_left.mp hdisjoint hr (mem_gather hk hy)
    cases i with
    | zero =>
      obtain rfl : r = p := by simpa using hi
      cases j with
      | zero => rfl
      | succ j => exact absurd hq (hnot (by simpa using hj) hp)
    | succ i =>
      cases j with
      | zero =>
        obtain rfl : r = q := by simpa using hj
        exact absurd hp (hnot (by simpa using hi) hq)
      | succ j => exact congrArg (· + 1) (ih hl (by simpa using hi) (by simpa using hj))

theorem gather_eq_zero {held : π → Multiset τ} (h : ∀ p ∈ l, held p = 0) : gather held l = 0 := by
  induction l with
  | nil => rfl
  | cons r l ih =>
    have hr := h r mem_cons_self
    have hl := ih fun p hp => h p (mem_cons_of_mem r hp)
    simp only [gather, map_cons, sum_cons] at hl ⊢
    rw [hr, hl, add_zero]

end Crew
