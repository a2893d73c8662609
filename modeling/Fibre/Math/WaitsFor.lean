import Mathlib.Order.WellFoundedSet

/-!
# Who waits for whom

A set of processes is deadlocked if each of them waits for one of them. If a process that is waited for
and waits itself stands in a transitive relation to the one it waits for, then a finite deadlocked set
has a process that stands in the relation to itself.

## Main results

* `Deadlocked.exists_rel_self` — the cycle behind a deadlock
-/

namespace WaitsFor

variable {τ : Type*} {waits r : τ → τ → Prop} {D : Set τ}

/-- Each process of the set waits for one of the set. -/
def Deadlocked (waits : τ → τ → Prop) (D : Set τ) : Prop :=
  D.Nonempty ∧ ∀ t ∈ D, ∃ u ∈ D, waits t u

theorem deadlocked_singleton {t : τ} (h : waits t t) : Deadlocked waits {t} := by
  refine ⟨Set.singleton_nonempty t, ?_⟩
  rintro u rfl
  exact ⟨u, rfl, h⟩

theorem deadlocked_pair {t u : τ} (h : waits t u) (h' : waits u t) : Deadlocked waits {t, u} := by
  refine ⟨Set.insert_nonempty t {u}, ?_⟩
  rintro v (rfl | rfl)
  · exact ⟨u, .inr rfl, h⟩
  · exact ⟨t, .inl rfl, h'⟩

theorem Deadlocked.awaited (h : Deadlocked waits D) :
    Deadlocked waits {t ∈ D | ∃ s ∈ D, waits s t} := by
  obtain ⟨⟨s, hs⟩, hall⟩ := h
  constructor
  · obtain ⟨t, ht, hst⟩ := hall s hs
    exact ⟨t, ht, s, hs, hst⟩
  · rintro t ⟨ht, -⟩
    obtain ⟨u, hu, htu⟩ := hall t ht
    exact ⟨u, ⟨hu, t, ht, htu⟩, htu⟩

/-- A finite deadlocked set goes round in a circle along any transitive relation that follows the
waits of those that are waited for. -/
theorem Deadlocked.exists_rel_self (h : Deadlocked waits D) (hD : D.Finite)
    (htrans : ∀ t u v, r t u → r u v → r t v)
    (hr : ∀ s t u v, waits s t → waits t u → waits u v → r t u) : ∃ t ∈ D, r t t := by
  by_contra hnone
  -- otherwise the relation, read backwards within the set, is a strict order
  let below (u t : τ) : Prop := t ∈ D ∧ r t u
  have horder : IsStrictOrder τ below :=
    { irrefl := fun t ht => hnone ⟨t, ht.1, ht.2⟩
      trans := fun _ _ _ hvu hut => ⟨hut.1, htrans _ _ _ hut.2 hvu.2⟩ }
  -- and some awaited process has none of them below it
  obtain ⟨hne, hall⟩ := h.awaited
  have hwf : {t ∈ D | ∃ s ∈ D, waits s t}.WellFoundedOn below :=
    (hD.subset (Set.sep_subset D _)).wellFoundedOn
  rw [Set.wellFoundedOn_iff] at hwf
  obtain ⟨t, ht, hmin⟩ := hwf.has_min _ hne
  obtain ⟨u, hu, htu⟩ := hall t ht
  obtain ⟨v, -, huv⟩ := hall u hu
  obtain ⟨htD, s, -, hst⟩ := id ht
  exact hmin u hu ⟨⟨htD, hr s t u v hst htu huv⟩, hu, ht⟩

end WaitsFor
