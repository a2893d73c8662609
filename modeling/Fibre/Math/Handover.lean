import Mathlib.Data.Finset.Card

/-!
# Waiters and those who answer for them

Some parties wait, and there is a supply each unit of which lets one of them go on. Nobody is
forgotten as long as each unit has a party of its own that is not waiting and will look for it.

## Main results

* `Covered.wake` — more supply, if as many waiters are woken for it
* `Covered.leave` — an active party leaves with some of the supply
-/

variable {ι : Type*} {n n' m : ℕ} {waiting waiting' active active' : Set ι}

/-- If anyone waits, each of the `n` units of supply has an active party that does not wait. -/
def Covered (n : ℕ) (waiting active : Set ι) : Prop :=
  waiting.Nonempty → ∃ L : Finset ι, n ≤ L.card ∧ ∀ i ∈ L, i ∈ active ∧ i ∉ waiting

namespace Covered

open Finset

theorem zero (waiting active : Set ι) : Covered 0 waiting active := by
  intro _
  exact ⟨∅, Nat.zero_le _, by simp⟩

theorem of_empty (h : waiting = ∅) : Covered n waiting active := by
  intro hne
  rw [h] at hne
  exact absurd hne Set.not_nonempty_empty

theorem mono (h : Covered n waiting active) (hn : n' ≤ n) (hw : waiting' ⊆ waiting)
    (ha : ∀ i ∈ active, i ∉ waiting → i ∈ active') : Covered n' waiting' active' := by
  intro hne
  obtain ⟨L, hcard, hL⟩ := h (hne.mono hw)
  refine ⟨L, hn.trans hcard, ?_⟩
  intro i hi
  obtain ⟨hia, hiw⟩ := hL i hi
  exact ⟨ha i hia hiw, fun hw' => hiw (hw hw')⟩

theorem eq_zero (h : Covered n waiting active) (hne : waiting.Nonempty)
    (ha : ∀ i ∈ active, i ∈ waiting) : n = 0 := by
  obtain ⟨L, hcard, hL⟩ := h hne
  have hempty : L = ∅ := by
    rw [eq_empty_iff_forall_notMem]
    intro i hi
    exact (hL i hi).2 (ha i (hL i hi).1)
  rw [hempty, card_empty] at hcard
  exact Nat.le_zero.mp hcard

variable [DecidableEq ι]

/-- Waking `W` covers as much more supply. -/
theorem wake (h : Covered n waiting active) {W : Finset ι} (hW : ∀ i ∈ W, i ∈ waiting)
    (ha : ∀ i ∈ W, i ∈ active) (hw : ∀ i, i ∈ waiting' ↔ i ∈ waiting ∧ i ∉ W)
    (hn : waiting' = ∅ ∨ n' ≤ n + W.card) : Covered n' waiting' active := by
  rcases hn with hempty | hn
  · exact of_empty hempty
  · intro hne
    obtain ⟨L, hcard, hL⟩ := h (hne.mono fun i hi => ((hw i).mp hi).1)
    -- those who were active already are not among the woken
    have hdisj : Disjoint L W := by
      rw [disjoint_left]
      intro i hiL hiW
      exact (hL i hiL).2 (hW i hiW)
    refine ⟨L ∪ W, ?_, ?_⟩
    · rw [card_union_of_disjoint hdisj]
      omega
    · intro i hi
      rcases mem_union.mp hi with hiL | hiW
      · exact ⟨(hL i hiL).1, fun hi' => (hL i hiL).2 ((hw i).mp hi').1⟩
      · exact ⟨ha i hiW, fun hi' => ((hw i).mp hi').2 hiW⟩

/-- The party `i` leaves; with it goes some of the supply, or there was none. -/
theorem leave (h : Covered n waiting active) {i : ι} (hn : n' < n ∨ n' = 0)
    (hw : waiting' ⊆ waiting) (ha : ∀ j ∈ active, j ∉ waiting → j ≠ i → j ∈ active') :
    Covered n' waiting' active' := by
  rcases hn with hn | rfl
  · intro hne
    obtain ⟨L, hcard, hL⟩ := h (hne.mono hw)
    refine ⟨L.erase i, ?_, ?_⟩
    · have := pred_card_le_card_erase (s := L) (a := i)
      omega
    · intro j hj
      obtain ⟨hji, hjL⟩ := mem_erase.mp hj
      exact ⟨ha j (hL j hjL).1 (hL j hjL).2 hji, fun hj' => (hL j hjL).2 (hw hj')⟩
  · exact zero _ _

end Covered
