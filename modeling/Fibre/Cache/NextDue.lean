import Fibre.Cache.Alarms

/-!
# The next due time of a timer wheel

A wheel keeps a lower bound on the due times of its timers next to its lock, so that whoever
drives it can tell without the lock that nothing is due. Arming a timer lowers the bound, and
an advance computes it again from the first slot that holds a timer; a slot says nothing about
laps, so the bound may be early and is never late.
-/

namespace Fibre.Cache

open Word List

namespace TimerWheel

variable {w : TimerWheel} {q : ℕ → List ℕ} {i : ℕ} {now : UInt64}

/-- Whether a timer is due, by the bound alone. -/
def ttlIsDue (w : TimerWheel) (now : UInt64) : Bool := w.nextDue ≤ now

theorem ttlIsDue_eq_false : w.ttlIsDue now = false ↔ now.toNat < w.nextDue.toNat := by
  rw [ttlIsDue, decide_eq_false_iff_not, UInt64.not_le, UInt64.lt_iff_toNat_lt]

/-- The offset of the first slot, from the current tick on, that holds a timer. -/
def firstHeld (w : TimerWheel) : Option ℕ :=
  (List.range w.wheelLen).find? fun off =>
    ((w.slots ((w.currentTick + off) % w.wheelLen)).head).isSome

/-- When the wheel leaves the first slot that holds a timer. -/
def earliestSlot (w : TimerWheel) : UInt64 :=
  match w.firstHeld with
  | none => -1
  | some off => w.lastAdvanced + (UInt64.ofNat off + 1) * w.tickNs

theorem advance_nextDue (hb : w.built = true) (hn : w.ticksDue now ≠ 0) :
    (w.advance now).2.nextDue = (w.advance now).2.earliestSlot := by
  have hrun : ¬ (¬ w.built ∨ (satSub now w.lastAdvanced / w.tickNs).toNat = 0) := by
    simp only [hb, not_true, false_or]
    exact hn
  rw [advance, if_neg hrun]
  rfl

/-- No alarm is due before the bound. -/
def Bounded (w : TimerWheel) : Prop :=
  ∀ i a, w.alarms i = some a → w.nextDue.toNat ≤ a.due

theorem bounded_of_empty (h : ∀ i, w.alarms i = none) : w.Bounded := by
  intro i a ha
  simp [h i] at ha

/-- The slots of a wheel do not reach past `len`: a timer in the slot is at least as many ticks
away as the slot is. -/
theorem Valid.firstHeld_le (h : w.Valid) {c : Card} (hc : w.card i = some c) :
    ∃ off, w.firstHeld = some off ∧ off + 1 ≤ w.ticksLeft c := by
  obtain ⟨q, hq⟩ := h.repr
  have hslot := hq.inWheel i c hc
  have hahead : slotsAhead w.wheelLen c.slotIndex w.currentTick < w.wheelLen :=
    Nat.mod_lt _ h.wheelLen
  -- the slot of the timer is one of those looked at, and holds it
  have hcur : (w.currentTick + slotsAhead w.wheelLen c.slotIndex w.currentTick) % w.wheelLen =
      c.slotIndex := by
    have hmod := Nat.mod_lt w.currentTick h.wheelLen
    rw [slotsAhead_eq hslot, Nat.add_mod]
    split_ifs with hle
    · rw [Nat.mod_eq_of_lt (by omega : c.slotIndex - w.currentTick % w.wheelLen < w.wheelLen),
        Nat.add_sub_cancel' hle, Nat.mod_eq_of_lt hslot]
    · rw [Nat.mod_eq_of_lt (by omega :
        c.slotIndex + w.wheelLen - w.currentTick % w.wheelLen < w.wheelLen),
        Nat.add_sub_cancel' (by omega), Nat.add_mod_right, Nat.mod_eq_of_lt hslot]
  have hheld : ((w.slots c.slotIndex).head).isSome = true := by
    have hmem : i ∈ q c.slotIndex := (hq.mem _ i).mpr ⟨c, hc, rfl⟩
    rw [hq.slots]
    cases hlist : q c.slotIndex with
    | nil => simp [hlist] at hmem
    | cons j js => rfl
  cases hfind : w.firstHeld with
  | none =>
    have hall := List.find?_eq_none.mp hfind _ (mem_range.mpr hahead)
    rw [hcur] at hall
    exact absurd hheld hall
  | some off =>
    refine ⟨off, rfl, ?_⟩
    have hfirst := (List.find?_range_eq_some.mp hfind).2.2
    -- an earlier slot than the timer's own
    have hle : off ≤ slotsAhead w.wheelLen c.slotIndex w.currentTick := by
      by_contra hlt
      have hnot := hfirst _ (not_le.mp hlt)
      rw [hcur, hheld] at hnot
      simp at hnot
    rw [ticksLeft]
    omega

theorem Valid.earliestSlot_le (h : w.Valid) {a : Alarm} (ha : w.alarms i = some a) :
    w.earliestSlot.toNat ≤ a.due := by
  obtain ⟨c, hc, rfl⟩ := Option.map_eq_some_iff.mp ha
  obtain ⟨off, hoff, hle⟩ := h.firstHeld_le hc
  rw [earliestSlot, hoff, alarmOf]
  calc (w.lastAdvanced + (UInt64.ofNat off + 1) * w.tickNs).toNat
      ≤ w.lastAdvanced.toNat + ((UInt64.ofNat off + 1) * w.tickNs).toNat := toNat_add_le _ _
    _ ≤ w.lastAdvanced.toNat + (UInt64.ofNat off + 1).toNat * w.tickNs.toNat := by
        gcongr
        exact toNat_mul_le _ _
    _ ≤ w.lastAdvanced.toNat + (off + 1) * w.tickNs.toNat := by
        gcongr
        apply (toNat_add_le _ _).trans
        gcongr
        · exact toNat_ofNat_le off
        · decide
    _ ≤ w.lastAdvanced.toNat + w.ticksLeft c * w.tickNs.toNat := by gcongr

theorem Valid.dueHint_le (h : w.Valid) (clock keyHash expiresAt : UInt64) :
    (w.schedule clock keyHash expiresAt).2.nextDue.toNat ≤
      (w.schedule clock keyHash expiresAt).2.dueAt expiresAt := by
  obtain ⟨q, hq⟩ := h.repr
  have hopen : (w.opened clock).Valid :=
    ⟨⟨q, hq.opened clock⟩, by simpa using h.wheelLen, by simpa using h.tickNs⟩
  have hdue : (w.schedule clock keyHash expiresAt).2.dueAt expiresAt =
      (w.opened clock).dueAt expiresAt := by
    rw [schedule_eq]
    simp [dueAt]
  rw [hdue, schedule_eq, dueAt, ← hopen.ticksAhead_eq]
  show ((w.opened clock).dueHint expiresAt).toNat ≤ _
  rw [dueHint, toNat_min]
  apply (min_le_right _ _).trans
  apply (toNat_satAdd_le _ _).trans
  gcongr
  apply (toNat_mul_le _ _).trans
  rw [mul_comm]
  gcongr
  exact toNat_ofNat_le _

theorem schedule_nextDue_le (clock keyHash expiresAt : UInt64) :
    (w.schedule clock keyHash expiresAt).2.nextDue.toNat ≤ w.nextDue.toNat := by
  have hopen : (w.opened clock).nextDue = w.nextDue := by
    unfold opened
    split <;> rfl
  rw [schedule_eq]
  show ((w.opened clock).dueHint expiresAt).toNat ≤ _
  rw [dueHint, toNat_min, hopen]
  exact min_le_left _ _

theorem Bounded.call (hb : w.Bounded) (h : w.Valid) (c : Call) : (w.call c).Bounded := by
  intro i a ha
  cases c with
  | schedule clock keyHash expiresAt =>
    rw [TimerWheel.call, h.schedule_alarms] at ha
    split_ifs at ha with hi
    · obtain rfl := Option.some.inj ha
      exact h.dueHint_le clock keyHash expiresAt
    · exact (schedule_nextDue_le clock keyHash expiresAt).trans (hb i a ha)
  | cancel j =>
    have hdue : (w.cancel j).nextDue = w.nextDue := by
      unfold TimerWheel.cancel
      split <;> simp
    rw [TimerWheel.call, cancel_alarms] at ha
    split_ifs at ha
    show (w.cancel j).nextDue.toNat ≤ a.due
    rw [hdue]
    exact hb i a ha
  | clear => simp [TimerWheel.call, alarms, clear_card] at ha
  | advance now =>
    by_cases hidle : w.built = false ∨ w.ticksDue now = 0
    · rw [TimerWheel.call, advance_of_idle hidle] at ha ⊢
      exact hb i a ha
    · obtain ⟨hbuilt, hn⟩ := not_or.mp hidle
      show (w.advance now).2.nextDue.toNat ≤ a.due
      rw [advance_nextDue (by simpa using hbuilt) hn]
      exact (h.advance now).earliestSlot_le ha

theorem Bounded.calls (hb : w.Bounded) (h : w.Valid) (cs : List Call) : (w.calls cs).Bounded := by
  induction cs generalizing w with
  | nil => exact hb
  | cons c cs ih => exact ih (hb.call h c) (h.call c)

theorem bounded_new (wheelSize : ℕ) (tickNs clock : UInt64) :
    (new wheelSize tickNs clock).Bounded := by
  apply bounded_of_empty
  intro i
  simp [new, alarms, card]

theorem Bounded.advance_alarms (hb : w.Bounded) (h : w.Valid) (hnow : w.ttlIsDue now = false) :
    (w.advance now).2.alarms = w.alarms := by
  rw [h.advance_alarms]
  funext i
  rw [Alarms.advance]
  cases ha : w.alarms i with
  | none => rfl
  | some a =>
    have hdue := hb i a ha
    have hlt := ttlIsDue_eq_false.mp hnow
    simp [Option.filter, show now.toNat < a.due by omega]

theorem Bounded.advance_hashes (hb : w.Bounded) (h : w.Valid) (hnow : w.ttlIsDue now = false) :
    (w.advance now).1 = [] := by
  have hlt := ttlIsDue_eq_false.mp hnow
  have hperm := h.advance_hashes now
  have hnone : w.alarms.hashesDue w.nextIndex now.toNat = [] := by
    rw [Alarms.hashesDue, map_eq_nil_iff, filter_eq_nil_iff]
    intro a ha
    obtain ⟨i, -, hi⟩ := mem_filterMap.mp ha
    have hdue := hb i a hi
    simp only [decide_eq_true_eq]
    omega
  rw [hnone] at hperm
  exact hperm.eq_nil

theorem Valid.fires_calls_congr {w' : TimerWheel} (h : w.Valid) (h' : w'.Valid)
    (hsame : w'.alarms = w.alarms) (hi : w.isArmed i = true) (cs : List Call) (t : UInt64) :
    (w'.calls cs).Fires t i ↔ (w.calls cs).Fires t i := by
  obtain ⟨a, ha⟩ := isArmed_iff.mp hi
  have ha' : w'.alarms i = some a := by rw [hsame, ha]
  rw [(h'.calls cs).fires_iff, (h.calls cs).fires_iff, h'.calls_alarms ha', h.calls_alarms ha]

/-- Over every sequence of calls the bound is at most the due time of every armed timer. While
the check against the bound fails an advance fires nothing, and leaving it out loses no firing:
whatever is called later, an armed timer fires in the same advances with it and without it. -/
theorem nothing_lost_before_next_due {wheelSize : ℕ} (hlen : 1 ≤ wheelSize)
    (tickNs clock : UInt64) (cs : List Call) (now : UInt64) :
    let w := (new wheelSize tickNs clock).calls cs
    (∀ i a, w.alarms i = some a → w.nextDue.toNat ≤ a.due) ∧
    (∀ i t, w.Fires t i → w.nextDue ≤ t) ∧
    (w.ttlIsDue now = false →
      (w.advance now).1 = [] ∧ (∀ i, ¬ w.Fires now i) ∧
      ∀ i, w.isArmed i = true → ∀ (later : List Call) (t : UInt64),
        (((w.advance now).2.calls later).Fires t i ↔ (w.calls later).Fires t i)) := by
  intro w
  have hw : w.Valid := (valid_new hlen tickNs clock).calls cs
  have hb : w.Bounded := (bounded_new wheelSize tickNs clock).calls (valid_new hlen tickNs clock) cs
  have hfires : ∀ i t, w.Fires t i → w.nextDue ≤ t := by
    intro i t hf
    obtain ⟨a, ha, hdue⟩ := hw.fires_iff.mp hf
    apply UInt64.le_iff_toNat_le.mpr
    exact (hb i a ha).trans hdue
  refine ⟨hb, hfires, fun hnow => ⟨hb.advance_hashes hw hnow, fun i hf => ?_, ?_⟩⟩
  · have hlt := ttlIsDue_eq_false.mp hnow
    have hle := UInt64.le_iff_toNat_le.mp (hfires i now hf)
    omega
  · intro i hi later t
    exact hw.fires_calls_congr (hw.advance now) (hb.advance_alarms hw hnow) hi later t

/-- Two timers on a wheel of four slots, the later one a whole turn away in the earlier one's
slot: after the first has fired the bound is the time the slot is next left. -/
theorem nothing_lost_before_forty :
    let w := (new 4 10 0).calls [.schedule 0 7 5, .schedule 0 8 75, .advance 12]
    w.nextDue = 40 ∧ (w.advance 39).1 = [] := by
  intro w
  have hdue : w.nextDue = 40 := rfl
  refine ⟨hdue, ((nothing_lost_before_next_due (by decide : 1 ≤ 4) 10 0
    [.schedule 0 7 5, .schedule 0 8 75, .advance 12] 39).2.2 ?_).1⟩
  rfl

end TimerWheel

end Fibre.Cache
