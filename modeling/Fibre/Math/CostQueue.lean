import Mathlib.Algebra.Order.BigOperators.Group.List
import Mathlib.Algebra.Order.Ring.Nat
import Fibre.Math.Word

/-!
# Queues of costed items

Lists, oldest first, whose items carry a machine-word cost. The recorded cost of a queue is
the wrapping sum of its items' costs; while the true sum stays below `2 ^ 64` the two agree.

## Main results

* `CostQueue.toNat_total` — the recorded cost is the true one below `2 ^ 64`
* `CostQueue.total_spill_le`, `CostQueue.popUntil_done` — when the two loops stop
-/

namespace CostQueue

open Word List

variable {α β : Type*} (cost : α → UInt64)

/-- The recorded cost of a queue. -/
def total (l : List α) : UInt64 := (l.map cost).sum

/-- The true cost of a queue. -/
def totalNat (l : List α) : ℕ := (l.map fun a => (cost a).toNat).sum

/-- Takes the oldest items until what is left costs at most `cap`: the items taken, in
order, and the rest. -/
def spill (cap : UInt64) : List α → List α × List α
  | [] => ([], [])
  | a :: rest =>
    if cap < total cost (a :: rest) then
      let r := spill cap rest
      (a :: r.1, r.2)
    else
      ([], a :: rest)

/-- Takes the oldest items until `c` is paid for: what is left to pay, the items taken, in
order, and the rest. -/
def popUntil : UInt64 → List α → UInt64 × List α × List α
  | c, [] => (c, [], [])
  | c, a :: rest =>
    if 0 < c then
      let r := popUntil (satSub c (cost a)) rest
      (r.1, a :: r.2.1, r.2.2)
    else
      (c, [], a :: rest)

variable {cost} {l l' : List α} {a : α} {c cap : UInt64}

section Totals

@[simp] theorem total_nil : total cost [] = 0 := rfl

@[simp] theorem total_cons : total cost (a :: l) = cost a + total cost l := by simp [total]

@[simp] theorem total_append : total cost (l ++ l') = total cost l + total cost l' := by
  simp [total]

@[simp] theorem totalNat_nil : totalNat cost [] = 0 := rfl

@[simp] theorem totalNat_cons : totalNat cost (a :: l) = (cost a).toNat + totalNat cost l := by
  simp [totalNat]

@[simp] theorem totalNat_append :
    totalNat cost (l ++ l') = totalNat cost l + totalNat cost l' := by
  simp [totalNat]

theorem totalNat_perm (cost : α → UInt64) (h : l.Perm l') : totalNat cost l = totalNat cost l' :=
  (h.map _).sum_eq

theorem total_perm (cost : α → UInt64) (h : l.Perm l') : total cost l = total cost l' :=
  (h.map _).sum_eq

theorem totalNat_map (f : β → α) (l : List β) :
    totalNat cost (l.map f) = totalNat (fun b => cost (f b)) l := by
  simp [totalNat, Function.comp_def]

theorem totalNat_sublist_le (h : l'.Sublist l) : totalNat cost l' ≤ totalNat cost l :=
  (h.map _).sum_le_sum (fun _ _ => Nat.zero_le _)

theorem totalNat_filter_le (p : α → Bool) (l : List α) :
    totalNat cost (l.filter p) ≤ totalNat cost l :=
  totalNat_sublist_le filter_sublist

theorem toNat_total_mod (l : List α) : (total cost l).toNat = totalNat cost l % 2 ^ 64 := by
  induction l with
  | nil => rfl
  | cons b l ih =>
    rw [total_cons, totalNat_cons, UInt64.toNat_add, ih]
    omega

/-- Below `2 ^ 64` the recorded cost is the true one. -/
theorem toNat_total (h : totalNat cost l < 2 ^ 64) : (total cost l).toNat = totalNat cost l := by
  rw [toNat_total_mod, Nat.mod_eq_of_lt h]

theorem total_le_of_sublist (hlt : totalNat cost l < 2 ^ 64) (h : l'.Sublist l) :
    total cost l' ≤ total cost l := by
  have hle : totalNat cost l' ≤ totalNat cost l := totalNat_sublist_le h
  rw [UInt64.le_iff_toNat_le, toNat_total hlt, toNat_total (hle.trans_lt hlt)]
  exact hle

end Totals

section Loops

attribute [local simp] spill popUntil

theorem spill_append (cost : α → UInt64) (cap : UInt64) (l : List α) :
    (spill cost cap l).1 ++ (spill cost cap l).2 = l := by
  induction l with
  | nil => rfl
  | cons b l ih =>
    rw [spill]
    split_ifs
    · simpa using ih
    · rfl

theorem spill_of_le (h : total cost l ≤ cap) : spill cost cap l = ([], l) := by
  cases l with
  | nil => rfl
  | cons b l => rw [spill, if_neg (by simpa using h)]

theorem total_spill_le (cost : α → UInt64) (cap : UInt64) (l : List α) :
    total cost (spill cost cap l).2 ≤ cap := by
  induction l with
  | nil => simp
  | cons b l ih =>
    rw [spill]
    split_ifs with h
    · exact ih
    · simpa using h

theorem popUntil_append (cost : α → UInt64) (c : UInt64) (l : List α) :
    (popUntil cost c l).2.1 ++ (popUntil cost c l).2.2 = l := by
  induction l generalizing c with
  | nil => rfl
  | cons b l ih =>
    rw [popUntil]
    split_ifs
    · simpa using ih _
    · rfl

theorem popUntil_sublist (cost : α → UInt64) (c : UInt64) (l : List α) :
    (popUntil cost c l).2.2.Sublist l := by
  conv_rhs => rw [← popUntil_append cost c l]
  exact sublist_append_right _ _

theorem toNat_popUntil (cost : α → UInt64) (c : UInt64) (l : List α) :
    (popUntil cost c l).1.toNat = c.toNat - totalNat cost (popUntil cost c l).2.1 := by
  induction l generalizing c with
  | nil => simp
  | cons b l ih =>
    rw [popUntil]
    split_ifs
    · simp only [ih, toNat_satSub, totalNat_cons]
      omega
    · simp

/-- The loop stops when all is paid or the queue is empty. -/
theorem popUntil_done (cost : α → UInt64) (c : UInt64) (l : List α) :
    (popUntil cost c l).1 = 0 ∨ (popUntil cost c l).2.2 = [] := by
  induction l generalizing c with
  | nil => exact .inr rfl
  | cons b l ih =>
    rw [popUntil]
    split_ifs with h
    · exact ih _
    · exact .inl (by simpa using h)

theorem popUntil_zero (l : List α) : popUntil cost 0 l = (0, [], l) := by
  cases l with
  | nil => rfl
  | cons b l => simp

variable {cost' : β → UInt64} {f : β → α}

theorem total_map (h : ∀ b, cost (f b) = cost' b) (l : List β) :
    total cost (l.map f) = total cost' l := by
  simp [total, Function.comp_def, h]

theorem spill_map (h : ∀ b, cost (f b) = cost' b) (cap : UInt64) (l : List β) :
    spill cost cap (l.map f) = ((spill cost' cap l).1.map f, (spill cost' cap l).2.map f) := by
  induction l with
  | nil => rfl
  | cons b l ih =>
    have htotal := total_map h (b :: l)
    rw [map_cons] at htotal ⊢
    rw [spill, spill, htotal, ih]
    split_ifs <;> rfl

theorem popUntil_map (h : ∀ b, cost (f b) = cost' b) (c : UInt64) (l : List β) :
    popUntil cost c (l.map f) = ((popUntil cost' c l).1, (popUntil cost' c l).2.1.map f,
      (popUntil cost' c l).2.2.map f) := by
  induction l generalizing c with
  | nil => rfl
  | cons b l ih =>
    rw [map_cons, popUntil, popUntil, h, ih]
    split_ifs <;> rfl

end Loops

end CostQueue
