import Fibre.Cache.Alarms

/-!
# Who owns a timer

The handles a shard's entries hold against the timers of the wheel. `Owned w owned missing`
says that the armed timers are those owned, each under its key's hash, less the missing ones:
those that fired and whose entries are still to be looked at.
-/

namespace Fibre.Cache.TimerWheel

open List

abbrev Owner := TimerHandle × UInt64

variable {w : TimerWheel} {owned owned' missing : List Owner} {i : ℕ} {h : UInt64}

def ArmedFor (w : TimerWheel) (t : Owner) : Prop :=
  ∃ due, w.alarms t.1 = some ⟨t.2, due⟩

theorem isArmed_iff_armedFor : w.isArmed i = true ↔ ∃ h, w.ArmedFor (i, h) := by
  rw [isArmed_iff]
  constructor
  · rintro ⟨⟨h, due⟩, ha⟩
    exact ⟨h, due, ha⟩
  · rintro ⟨h, due, ha⟩
    exact ⟨⟨h, due⟩, ha⟩

/-- The armed timers are those owned, less the missing ones. -/
structure Owned (w : TimerWheel) (owned missing : List Owner) : Prop where
  valid : w.Valid
  nodup : (owned.map Prod.fst).Nodup
  fresh : ∀ t ∈ owned, t.1 < w.nextIndex
  nodup_missing : missing.Nodup
  missing_sub : missing ⊆ owned
  armed : ∀ t, w.ArmedFor t ↔ t ∈ owned ∧ t ∉ missing

theorem Owned.perm (ho : Owned w owned missing) (hp : owned.Perm owned') :
    Owned w owned' missing where
  valid := ho.valid
  nodup := (hp.map Prod.fst).nodup_iff.mp ho.nodup
  fresh t ht := ho.fresh t (hp.mem_iff.mpr ht)
  nodup_missing := ho.nodup_missing
  missing_sub t ht := hp.mem_iff.mp (ho.missing_sub ht)
  armed t := by rw [ho.armed t, hp.mem_iff]

theorem owned_nil (hv : w.Valid) (hnone : ∀ i, w.alarms i = none) : Owned w [] [] where
  valid := hv
  nodup := nodup_nil
  fresh := by simp
  nodup_missing := nodup_nil
  missing_sub := List.Subset.refl _
  armed t := by simp [ArmedFor, hnone]

theorem owned_new {wheelSize : ℕ} (hlen : 1 ≤ wheelSize) (tickNs clock : UInt64) :
    Owned (new wheelSize tickNs clock) [] [] :=
  owned_nil (valid_new hlen tickNs clock) fun _ => rfl

theorem owned_clear (hv : w.Valid) : Owned w.clear [] [] :=
  owned_nil hv.clear fun _ => rfl

/-- Arming a timer gives it an owner. -/
theorem Owned.schedule (ho : Owned w owned missing) (clock h expiresAt : UInt64) :
    Owned (w.schedule clock h expiresAt).2
      (((w.schedule clock h expiresAt).1, h) :: owned) missing := by
  have hnext : (w.schedule clock h expiresAt).2.nextIndex = w.nextIndex + 1 := by
    rw [schedule_eq]
    simp
  rw [schedule_fst]
  refine ⟨ho.valid.schedule clock h expiresAt, ?_, fun t ht => ?_, ho.nodup_missing,
    subset_cons_of_subset _ ho.missing_sub, fun t => ?_⟩
  · rw [map_cons]
    refine nodup_cons.mpr ⟨fun hmem => ?_, ho.nodup⟩
    obtain ⟨t, ht, htn⟩ := mem_map.mp hmem
    exact absurd (ho.fresh t ht) (by simp [htn])
  · rw [hnext]
    rcases mem_cons.mp ht with rfl | ht
    · exact Nat.lt_succ_self _
    · exact (ho.fresh t ht).trans (Nat.lt_succ_self _)
  · rw [ArmedFor, ho.valid.schedule_alarms]
    by_cases ht : t.1 = w.nextIndex
    · -- the new handle: nobody owned it before
      have hout : t ∉ owned := fun hmem => absurd (ho.fresh t hmem) (by simp [ht])
      have hmiss : t ∉ missing := fun hmem => hout (ho.missing_sub hmem)
      rw [if_pos ht]
      simp only [Option.some.injEq, Alarm.mk.injEq, mem_cons, hout, or_false, hmiss,
        not_false_eq_true, and_true, exists_and_left, exists_eq', Prod.ext_iff, ht, true_and]
      exact eq_comm
    · have hne : t ≠ (w.nextIndex, h) := fun heq => ht (by rw [heq])
      rw [if_neg ht]
      simpa [hne, ArmedFor] using ho.armed t

/-- Taking a timer that is not missing off the wheel, and looking past one that is. -/
theorem Owned.cancel (ho : Owned w ((i, h) :: owned) missing) :
    Owned (w.cancel i) owned (missing.erase (i, h)) := by
  have hnd := nodup_cons.mp ho.nodup
  have hout : (i, h) ∉ owned := fun hmem => hnd.1 (mem_map_of_mem hmem)
  have hnext : (w.cancel i).nextIndex = w.nextIndex := by
    rw [TimerWheel.cancel]
    split <;> simp
  refine ⟨ho.valid.cancel i, hnd.2, fun t ht => ?_, ho.nodup_missing.erase _, fun t ht => ?_,
    fun t => ?_⟩
  · rw [hnext]
    exact ho.fresh t (mem_cons_of_mem _ ht)
  · rw [ho.nodup_missing.mem_erase_iff] at ht
    exact (mem_cons.mp (ho.missing_sub ht.2)).resolve_left ht.1
  · rw [ArmedFor, cancel_alarms, ho.nodup_missing.mem_erase_iff]
    by_cases ht : t.1 = i
    · -- no other owned timer has this handle
      have hmem : t ∉ owned := fun hmem =>
        hnd.1 (mem_map.mpr ⟨t, hmem, ht⟩)
      simp [ht, hmem]
    · have hne : t ≠ (i, h) := fun heq => ht (by rw [heq])
      rw [if_neg ht]
      simpa [hne, ArmedFor] using ho.armed t

theorem Owned.drop (ho : Owned w ((i, h) :: owned) missing) (hmiss : (i, h) ∈ missing) :
    Owned w owned (missing.erase (i, h)) := by
  have hnd := nodup_cons.mp ho.nodup
  have hout : (i, h) ∉ owned := fun hmem => hnd.1 (mem_map_of_mem hmem)
  refine ⟨ho.valid, hnd.2, fun t ht => ho.fresh t (mem_cons_of_mem _ ht),
    ho.nodup_missing.erase _, fun t ht => ?_, fun t => ?_⟩
  · rw [ho.nodup_missing.mem_erase_iff] at ht
    exact (mem_cons.mp (ho.missing_sub ht.2)).resolve_left ht.1
  · rw [ho.armed t, ho.nodup_missing.mem_erase_iff]
    by_cases ht : t = (i, h)
    · simp [ht, hout, hmiss]
    · simp [ht]

/-- The owned timers that an advance fires are missing after it, and it returns their hashes. -/
theorem Owned.advance (ho : Owned w owned []) (now : UInt64) :
    ∃ missing, Owned (w.advance now).2 owned missing ∧
      (w.advance now).1.Perm (missing.map Prod.snd) := by
  obtain ⟨hv, hnext, halarms, is, his, hmem, hlist⟩ := ho.valid.advance_step now
  have howner : ∀ i ∈ is, (i, w.hashOf i) ∈ owned := by
    intro i hi
    obtain ⟨a, ha, -⟩ := (hmem i).mp hi
    have harmed : w.ArmedFor (i, w.hashOf i) := ⟨a.due, by rw [hashOf_eq ha]; exact ha⟩
    exact ((ho.armed _).mp harmed).1
  refine ⟨is.map fun i => (i, w.hashOf i), ⟨hv, ho.nodup, fun t ht => ?_, ?_, ?_, fun t => ?_⟩, ?_⟩
  · rw [hnext]
    exact ho.fresh t ht
  · exact his.map fun i j hij => (Prod.mk.inj hij).1
  · intro t ht
    obtain ⟨i, hi, rfl⟩ := mem_map.mp ht
    exact howner i hi
  · rw [ArmedFor, halarms, Alarms.advance]
    constructor
    · rintro ⟨due, hdue⟩
      obtain ⟨ha, hlate⟩ := Option.filter_eq_some_iff.mp hdue
      refine ⟨((ho.armed t).mp ⟨due, ha⟩).1, fun hfired => ?_⟩
      obtain ⟨i, hi, rfl⟩ := mem_map.mp hfired
      obtain ⟨a, ha', hle⟩ := (hmem i).mp hi
      obtain rfl : a = ⟨w.hashOf i, due⟩ := by simpa [ha] using ha'.symm
      exact absurd hle (not_le.mpr (by simpa using hlate))
    · rintro ⟨hown, hnot⟩
      obtain ⟨due, ha⟩ := (ho.armed t).mpr ⟨hown, not_mem_nil⟩
      refine ⟨due, Option.filter_eq_some_iff.mpr ⟨ha, ?_⟩⟩
      by_contra hlate
      apply hnot
      have hi : t.1 ∈ is := (hmem t.1).mpr ⟨_, ha, by simpa using hlate⟩
      exact mem_map.mpr ⟨t.1, hi, by rw [hashOf_eq ha]⟩
  · rw [hlist, map_map]
    exact Perm.refl _

end Fibre.Cache.TimerWheel
