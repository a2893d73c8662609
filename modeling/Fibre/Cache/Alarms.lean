import Fibre.Cache.TimerLists

/-!
# What the timer wheel is for

A timer is armed for a due time and fires in the first advance that reaches it. The wheel
keeps no due times: it keeps the slot of a timer and the laps left for it. `alarms` reads the
due time back, and every call does to the alarms what it should do to due times.
-/

namespace Fibre.Cache

open Word List

section Cycle

/-! ### Going round the wheel -/

variable {len slot tick n laps : ℕ}

/-- How far the slot is ahead of the tick on a wheel of `len` slots. -/
def slotsAhead (len slot tick : ℕ) : ℕ := (slot + len - tick % len) % len

theorem slotsAhead_eq (hslot : slot < len) :
    slotsAhead len slot tick =
      if tick % len ≤ slot then slot - tick % len else slot + len - tick % len := by
  have hmod : tick % len < len := Nat.mod_lt _ (by omega)
  unfold slotsAhead
  split_ifs with h
  · have : slot + len - tick % len = slot - tick % len + len := by omega
    rw [this, Nat.add_mod_right, Nat.mod_eq_of_lt (by omega)]
  · rw [Nat.mod_eq_of_lt (by omega)]

theorem slotsAhead_add (hlen : 0 < len) :
    slotsAhead len ((tick + n) % len) tick = n % len := by
  have hslot : (tick + n) % len < len := Nat.mod_lt _ hlen
  have hmod := Nat.mod_lt tick hlen
  have hmod' := Nat.mod_lt n hlen
  rw [slotsAhead_eq hslot, Nat.add_mod_eq_ite]
  split_ifs <;> omega

/-- How often `n` ticks pass a slot that is `ahead` of the first. -/
def passesOf (len ahead n : ℕ) : ℕ := n / len + if ahead < n % len then 1 else 0

theorem passesOf_le_iff (hlen : 0 < len) {ahead : ℕ} (hahead : ahead < len) :
    passesOf len ahead n ≤ laps ↔ n ≤ ahead + laps * len := by
  have hn := Nat.div_add_mod n len
  have hmod := Nat.mod_lt n hlen
  unfold passesOf
  rcases Nat.lt_trichotomy laps (n / len) with hlt | heq | hgt
  · have hmul : (laps + 1) * len ≤ n / len * len := Nat.mul_le_mul_right _ hlt
    rw [add_mul, mul_comm (n / len)] at hmul
    constructor
    · intro h
      split_ifs at h <;> omega
    · intro h
      omega
  · subst heq
    rw [mul_comm]
    split_ifs <;> omega
  · have hmul : (n / len + 1) * len ≤ laps * len := Nat.mul_le_mul_right _ hgt
    rw [add_mul, mul_comm (n / len)] at hmul
    constructor
    · intro h
      omega
    · intro h
      split_ifs <;> omega

theorem slotsAhead_spend (hslot : slot < len)
    (hlaps : passesOf len (slotsAhead len slot tick) n ≤ laps) :
    slotsAhead len slot (tick + n) + (laps - passesOf len (slotsAhead len slot tick) n) * len + n =
      slotsAhead len slot tick + laps * len := by
  have hlen : 0 < len := by omega
  have hn := Nat.div_add_mod n len
  have hmod := Nat.mod_lt n hlen
  have hmod' := Nat.mod_lt tick hlen
  rw [Nat.sub_mul]
  have hmul := Nat.mul_le_mul_right len hlaps
  have hpass : passesOf len (slotsAhead len slot tick) n * len =
      len * (n / len) + if slotsAhead len slot tick < n % len then len else 0 := by
    rw [passesOf, add_mul, mul_comm]
    split_ifs <;> simp
  rw [hpass] at hmul ⊢
  rw [slotsAhead_eq hslot] at hmul ⊢
  rw [slotsAhead_eq hslot, Nat.add_mod_eq_ite]
  split_ifs at hmul ⊢ <;> omega

end Cycle

/-- An armed timer, as whoever armed it sees it. -/
structure Alarm where
  keyHash : UInt64
  due : ℕ
deriving DecidableEq

/-- The armed timers by handle. -/
abbrev Alarms := ℕ → Option Alarm

namespace Alarms

/-- What is left at a time: the alarms that are due later. -/
def advance (m : Alarms) (now : ℕ) : Alarms := fun i => (m i).filter (now < ·.due)

/-- The key hashes of the alarms that are due, by the first `n` handles. -/
def hashesDue (m : Alarms) (n now : ℕ) : List UInt64 :=
  (((List.range n).filterMap m).filter (·.due ≤ now)).map Alarm.keyHash

theorem advance_advance (m : Alarms) {t now : ℕ} (hle : t ≤ now) :
    (m.advance t).advance now = m.advance now := by
  funext i
  rw [advance, advance, advance]
  cases m i with
  | none => rfl
  | some a =>
    by_cases hdue : now < a.due
    · have : t < a.due := by omega
      simp [Option.filter, hdue, this]
    · by_cases ht : t < a.due <;> simp [Option.filter, hdue, ht]

theorem filterMap_advance (m : Alarms) (t : ℕ) (l : List ℕ) :
    l.filterMap (m.advance t) = (l.filterMap m).filter (t < ·.due) := by
  induction l with
  | nil => rfl
  | cons i l ih =>
    cases ha : m i with
    | none => simpa [advance, ha] using ih
    | some a =>
      by_cases hdue : t < a.due
      · simpa [advance, ha, Option.filter, hdue] using ih
      · simpa [advance, ha, Option.filter, hdue] using ih

theorem hashesDue_append (m : Alarms) (n : ℕ) {t now : ℕ} (hle : t ≤ now) :
    (m.hashesDue n t ++ (m.advance t).hashesDue n now).Perm (m.hashesDue n now) := by
  set l := (List.range n).filterMap m with hl
  have hfirst : l.filter (·.due ≤ t) = (l.filter (·.due ≤ now)).filter (·.due ≤ t) := by
    rw [filter_filter]
    apply filter_congr
    intro a _
    grind
  have hrest : (l.filter (t < ·.due)).filter (·.due ≤ now) =
      (l.filter (·.due ≤ now)).filter (fun a => ! decide (a.due ≤ t)) := by
    rw [filter_filter, filter_filter]
    apply filter_congr
    intro a _
    grind
  rw [hashesDue, hashesDue, hashesDue, filterMap_advance, ← hl, ← map_append, hfirst, hrest]
  exact (filter_append_perm _ _).map _

end Alarms

namespace TimerWheel

variable {w : TimerWheel} {q : ℕ → List ℕ} {i : ℕ} {now : UInt64}

/-- In how many ticks the timer fires. -/
def ticksLeft (w : TimerWheel) (c : Card) : ℕ :=
  slotsAhead w.wheelLen c.slotIndex w.currentTick + c.laps * w.wheelLen + 1

def alarmOf (w : TimerWheel) (c : Card) : Alarm where
  keyHash := c.keyHash
  due := w.lastAdvanced.toNat + w.ticksLeft c * w.tickNs.toNat

def alarms (w : TimerWheel) : Alarms := fun i => (w.card i).map w.alarmOf

/-- The wheels the calls can make. -/
structure Valid (w : TimerWheel) : Prop where
  repr : ∃ q, w.Repr q
  wheelLen : 0 < w.wheelLen
  tickNs : 0 < w.tickNs.toNat

theorem valid_new {wheelSize : ℕ} (hlen : 1 ≤ wheelSize) (tickNs clock : UInt64) :
    (new wheelSize tickNs clock).Valid where
  repr := ⟨_, repr_new wheelSize tickNs clock⟩
  wheelLen := hlen
  tickNs := by
    show 0 < (max tickNs 1).toNat
    rw [toNat_max]
    exact lt_of_lt_of_le one_pos (le_max_right _ _)

theorem isArmed_iff : w.isArmed i = true ↔ ∃ a, w.alarms i = some a := by
  rw [isArmed_eq, alarms, Option.isSome_iff_exists]
  simp

section Calls

variable (h : w.Valid)
include h

theorem Valid.cancel (i : ℕ) : (w.cancel i).Valid := by
  obtain ⟨q, hq⟩ := h.repr
  have hlen : (w.cancel i).wheelLen = w.wheelLen := by
    unfold TimerWheel.cancel
    split <;> simp
  have htick : (w.cancel i).tickNs = w.tickNs := by
    unfold TimerWheel.cancel
    split <;> simp
  exact ⟨hq.cancel i, hlen ▸ h.wheelLen, htick ▸ h.tickNs⟩

omit h in
theorem cancel_alarms (w : TimerWheel) (i j : ℕ) :
    (w.cancel i).alarms j = if j = i then none else w.alarms j := by
  have hof : (w.cancel i).alarmOf = w.alarmOf := by
    funext c
    unfold TimerWheel.cancel
    split <;> simp [alarmOf, ticksLeft]
  rw [alarms, cancel_card, hof]
  split_ifs <;> rfl

theorem Valid.clear : w.clear.Valid := ⟨⟨_, repr_clear w⟩, h.wheelLen, h.tickNs⟩

theorem Valid.schedule (clock keyHash expiresAt : UInt64) :
    (w.schedule clock keyHash expiresAt).2.Valid := by
  obtain ⟨q, hq⟩ := h.repr
  refine ⟨hq.schedule clock keyHash expiresAt h.wheelLen, ?_, ?_⟩
  · rw [schedule_eq]
    simpa using h.wheelLen
  · rw [schedule_eq]
    simpa using h.tickNs

/-- When a timer armed at `expiresAt` is due: the ticks are counted from the last advance. -/
def dueAt (w : TimerWheel) (expiresAt : UInt64) : ℕ :=
  w.lastAdvanced.toNat +
    w.tickNs.toNat * max 1 ((expiresAt.toNat - w.lastAdvanced.toNat) ⌈/⌉ w.tickNs.toNat)

theorem Valid.ticksAhead_eq (expiresAt : UInt64) :
    w.ticksAhead expiresAt =
      max 1 ((expiresAt.toNat - w.lastAdvanced.toNat) ⌈/⌉ w.tickNs.toNat) := by
  rw [ticksAhead, toNat_divCeil _ h.tickNs, toNat_satSub, max_comm]

theorem Valid.ticksLeft_newCard (keyHash expiresAt : UInt64) :
    w.ticksLeft (w.newCard keyHash expiresAt) = w.ticksAhead expiresAt := by
  have hpos : 1 ≤ w.ticksAhead expiresAt := le_max_right _ _
  have hdiv := Nat.mod_add_div (w.ticksAhead expiresAt - 1) w.wheelLen
  rw [mul_comm] at hdiv
  rw [ticksLeft]
  simp only [newCard, slotAhead]
  rw [slotsAhead_add h.wheelLen]
  omega

/-- Arming a timer adds its alarm and leaves the others alone. -/
theorem Valid.schedule_alarms (clock keyHash expiresAt : UInt64) (j : ℕ) :
    (w.schedule clock keyHash expiresAt).2.alarms j =
      if j = w.nextIndex then
        some ⟨keyHash, (w.schedule clock keyHash expiresAt).2.dueAt expiresAt⟩
      else w.alarms j := by
  obtain ⟨q, hq⟩ := h.repr
  have hopen : (w.opened clock).Valid :=
    ⟨⟨q, hq.opened clock⟩, by simpa using h.wheelLen, by simpa using h.tickNs⟩
  have hof : (w.schedule clock keyHash expiresAt).2.alarmOf = (w.opened clock).alarmOf := by
    funext c
    rw [schedule_eq]
    simp [alarmOf, ticksLeft]
  have hdue : (w.schedule clock keyHash expiresAt).2.dueAt expiresAt =
      (w.opened clock).dueAt expiresAt := by
    rw [schedule_eq]
    simp [dueAt]
  rw [alarms, hq.schedule_card, hof, hdue]
  by_cases hj : j = w.nextIndex
  · rw [if_pos hj, if_pos hj, Option.map_some, alarmOf, hopen.ticksLeft_newCard,
      hopen.ticksAhead_eq, dueAt, mul_comm]
    rfl
  · rw [if_neg hj, if_neg hj, alarms]
    -- without slots there are no timers, so moving the clock then moves no alarm
    by_cases hb : w.built
    · rw [opened, if_pos hb]
    · rw [hq.unbuilt (by simpa using hb) j]
      rfl

end Calls

section Advance

def ticksDue (w : TimerWheel) (now : UInt64) : ℕ := (satSub now w.lastAdvanced / w.tickNs).toNat

def passesTo (w : TimerWheel) (now : UInt64) (slot : ℕ) : ℕ :=
  passesOf w.wheelLen (slotsAhead w.wheelLen slot w.currentTick) (w.ticksDue now)

/-- The wheel with its clock moved, before the slots are swept. -/
def moved (w : TimerWheel) (now : UInt64) : TimerWheel :=
  { w with
    lastAdvanced := w.lastAdvanced + UInt64.ofNat (w.ticksDue now) * w.tickNs
    currentTick := w.currentTick + w.ticksDue now }

theorem advance_eq (hb : w.built = true) (hn : w.ticksDue now ≠ 0) :
    ∃ due, w.advance now =
      (((List.range w.wheelLen).foldl (sweepSlot (w.passesTo now)) (w.moved now, [])).2,
        { ((List.range w.wheelLen).foldl (sweepSlot (w.passesTo now)) (w.moved now, [])).1 with
          nextDue := due }) := by
  rw [advance, if_neg (by simp only [hb, not_true, false_or]; exact hn)]
  exact ⟨_, rfl⟩

theorem advance_of_idle (h : w.built = false ∨ w.ticksDue now = 0) : w.advance now = ([], w) := by
  apply if_pos
  rcases h with hb | hn
  · exact Or.inl (by simp [hb])
  · exact Or.inr hn

theorem ticksDue_eq (w : TimerWheel) (now : UInt64) :
    w.ticksDue now = (now.toNat - w.lastAdvanced.toNat) / w.tickNs.toNat := by
  rw [ticksDue, UInt64.toNat_div, toNat_satSub]

variable (h : w.Valid)
include h

theorem Valid.lastAdvanced_moved (now : UInt64) :
    (w.moved now).lastAdvanced.toNat =
      w.lastAdvanced.toNat + w.ticksDue now * w.tickNs.toNat := by
  have hmul := Nat.div_mul_le_self (now.toNat - w.lastAdvanced.toNat) w.tickNs.toNat
  have hle : w.ticksDue now ≤ w.ticksDue now * w.tickNs.toNat := Nat.le_mul_of_pos_right _ h.tickNs
  rw [← ticksDue_eq w now] at hmul
  have hnow := now.toNat_lt
  have hlast := w.lastAdvanced.toNat_lt
  simp only [moved]
  rw [UInt64.toNat_add, UInt64.toNat_mul, UInt64.toNat_ofNat_of_lt' (by
      show w.ticksDue now < 2 ^ 64
      omega),
    Nat.mod_eq_of_lt (by omega : w.ticksDue now * w.tickNs.toNat < 2 ^ 64),
    Nat.mod_eq_of_lt (by omega)]

theorem Valid.due_le_iff (c : Card) :
    (w.alarmOf c).due ≤ now.toNat ↔ w.ticksLeft c ≤ w.ticksDue now := by
  have hpos : 0 < w.ticksLeft c := Nat.succ_pos _
  have hmul : 0 < w.ticksLeft c * w.tickNs.toNat := Nat.mul_pos hpos h.tickNs
  rw [ticksDue_eq, Nat.le_div_iff_mul_le h.tickNs, alarmOf]
  simp only
  omega

theorem Valid.lt_due_of_idle (hn : w.ticksDue now = 0) (c : Card) :
    now.toNat < (w.alarmOf c).due := by
  by_contra hle
  have hle' := (h.due_le_iff c).mp (not_lt.mp hle)
  have hpos : 0 < w.ticksLeft c := Nat.succ_pos _
  omega

theorem Valid.passed_passesTo (now : UInt64) {c : Card} (hc : c.slotIndex < w.wheelLen) :
    (c.passed (w.passesTo now c.slotIndex)).map (w.moved now).alarmOf =
      if now.toNat < (w.alarmOf c).due then some (w.alarmOf c) else none := by
  have hahead : slotsAhead w.wheelLen c.slotIndex w.currentTick < w.wheelLen :=
    Nat.mod_lt _ h.wheelLen
  have hfire : w.passesTo now c.slotIndex ≤ c.laps ↔ now.toNat < (w.alarmOf c).due := by
    rw [passesTo, passesOf_le_iff h.wheelLen hahead, ← not_le, h.due_le_iff c, ticksLeft]
    omega
  rw [Card.passed]
  by_cases hstay : w.passesTo now c.slotIndex ≤ c.laps
  · rw [if_pos hstay, if_pos (hfire.mp hstay), Option.map_some]
    have hspend := slotsAhead_spend hc hstay
    -- the due time is the same: the clock went forward by the ticks that were spent
    have hleft : (w.moved now).ticksLeft
        { c with laps := c.laps - w.passesTo now c.slotIndex } + w.ticksDue now =
        w.ticksLeft c := by
      simp only [ticksLeft, moved, passesTo]
      omega
    have hdue : ((w.moved now).alarmOf
        { c with laps := c.laps - w.passesTo now c.slotIndex }).due = (w.alarmOf c).due := by
      simp only [alarmOf]
      rw [h.lastAdvanced_moved, ← hleft, add_mul]
      show _ + _ * w.tickNs.toNat = _
      omega
    rw [Option.some.injEq]
    exact Alarm.mk.injEq .. ▸ ⟨rfl, hdue⟩
  · rw [if_neg hstay, if_neg (mt hfire.mpr hstay), Option.map_none]

theorem Valid.alarms_advance_of_idle (hidle : w.built = false ∨ w.ticksDue now = 0) :
    w.alarms.advance now.toNat = w.alarms := by
  funext i
  obtain ⟨q, hq⟩ := h.repr
  rw [Alarms.advance, alarms]
  rcases hidle with hb | hn
  · rw [hq.unbuilt hb i]
    rfl
  · cases w.card i with
    | none => rfl
    | some c => simp [h.lt_due_of_idle hn c]

theorem Valid.advance_step (now : UInt64) :
    (w.advance now).2.Valid ∧ (w.advance now).2.nextIndex = w.nextIndex ∧
      (w.advance now).2.alarms = w.alarms.advance now.toNat ∧
      ∃ is : List ℕ, is.Nodup ∧
        (∀ i, i ∈ is ↔ ∃ a, w.alarms i = some a ∧ a.due ≤ now.toNat) ∧
        (w.advance now).1 = is.map w.hashOf := by
  by_cases hidle : w.built = false ∨ w.ticksDue now = 0
  · rw [advance_of_idle hidle]
    have hsame := h.alarms_advance_of_idle hidle
    refine ⟨h, rfl, hsame.symm, [], nodup_nil, fun i => ?_, rfl⟩
    constructor
    · intro hi
      exact absurd hi not_mem_nil
    · rintro ⟨a, ha, hdue⟩
      have hi := congrFun hsame i
      rw [Alarms.advance, ha, Option.filter_eq_some_iff] at hi
      exact absurd hdue (not_le.mpr (by simpa using hi.2))
  · obtain ⟨q, hq⟩ := h.repr
    rw [not_or, Bool.not_eq_false] at hidle
    obtain ⟨due, hadv⟩ := advance_eq hidle.1 hidle.2
    have hmoved : (w.moved now).Repr q := hq.congr rfl rfl rfl rfl rfl
    obtain ⟨hall, is, his, hmem, hlist⟩ :=
      hmoved.sweeps (w.passesTo now) nodup_range []
    rw [hadv]
    set w' := ((List.range w.wheelLen).foldl (sweepSlot (w.passesTo now)) (w.moved now, [])).1
    obtain ⟨q', hq'⟩ := hall.repr
    -- every timer lies in a slot that is swept
    have hrange : ∀ i c, w.card i = some c → c.slotIndex ∈ List.range w.wheelLen := by
      intro i c hc
      exact mem_range.mpr (hq.inWheel i c hc)
    refine ⟨⟨⟨q', hq'.congr rfl rfl rfl rfl rfl⟩, ?_, ?_⟩, ?_, ?_, is, his, fun i => ?_, ?_⟩
    · exact hall.clock.wheelLen ▸ h.wheelLen
    · exact hall.clock.tickNs ▸ h.tickNs
    · exact hall.clock.nextIndex
    · funext i
      have hof : w'.alarmOf = (w.moved now).alarmOf := by
        funext c
        simp only [alarmOf, ticksLeft, hall.clock.wheelLen, hall.clock.currentTick,
          hall.clock.tickNs, hall.clock.lastAdvanced]
      show (w'.card i).map w'.alarmOf = _
      rw [hof, hall.card i, Alarms.advance, alarms]
      show ((w.card i).bind _).map _ = _
      cases hc : w.card i with
      | none => rfl
      | some c =>
        rw [Option.bind_some, if_pos (hrange i c hc), h.passed_passesTo now (hq.inWheel i c hc)]
        simp [Option.filter]
    · rw [hmem i]
      constructor
      · rintro ⟨c, hc, -, hgone⟩
        have hpass := h.passed_passesTo now (hq.inWheel i c hc)
        rw [hgone, Option.map_none] at hpass
        refine ⟨w.alarmOf c, by rw [alarms]; exact congrArg _ hc, ?_⟩
        by_contra hlt
        simp [not_le.mp hlt] at hpass
      · rintro ⟨a, ha, hdue⟩
        obtain ⟨c, hc, rfl⟩ := Option.map_eq_some_iff.mp ha
        have hpass := h.passed_passesTo now (hq.inWheel i c hc)
        rw [if_neg (not_lt.mpr hdue), Option.map_eq_none_iff] at hpass
        exact ⟨c, hc, hrange i c hc, hpass⟩
    · rw [hlist, nil_append]
      rfl

theorem Valid.advance (now : UInt64) : (w.advance now).2.Valid := (h.advance_step now).1

/-- An advance disarms the timers that are due and keeps the others. -/
theorem Valid.advance_alarms (now : UInt64) :
    (w.advance now).2.alarms = w.alarms.advance now.toNat :=
  (h.advance_step now).2.2.1

theorem Valid.alarms_lt {a : Alarm} (ha : w.alarms i = some a) :
    i < w.nextIndex := by
  obtain ⟨q, hq⟩ := h.repr
  obtain ⟨c, hc, -⟩ := Option.map_eq_some_iff.mp ha
  exact hq.fresh i c hc

omit h in
theorem hashOf_eq {a : Alarm} (ha : w.alarms i = some a) : w.hashOf i = a.keyHash := by
  obtain ⟨c, hc, rfl⟩ := Option.map_eq_some_iff.mp ha
  simp [hashOf, hc, alarmOf]

/-- An advance returns the key hashes of the timers that are due, each once. -/
theorem Valid.advance_hashes (now : UInt64) :
    (w.advance now).1.Perm (w.alarms.hashesDue w.nextIndex now.toNat) := by
  obtain ⟨-, -, -, is, his, hmem, hlist⟩ := h.advance_step now
  -- the due handles in order
  have hperm : is.Perm ((List.range w.nextIndex).filter fun i =>
      ((w.alarms i).filter (·.due ≤ now.toNat)).isSome) := by
    apply (perm_ext_iff_of_nodup his (nodup_range.filter _)).mpr
    intro i
    rw [hmem i, mem_filter, mem_range, Option.isSome_filter, Option.any_eq_true]
    constructor
    · rintro ⟨a, ha, hdue⟩
      exact ⟨h.alarms_lt ha, a, ha, by simpa using hdue⟩
    · rintro ⟨-, a, ha, hdue⟩
      exact ⟨a, ha, by simpa using hdue⟩
  have hlists : ∀ l : List ℕ,
      (l.filter fun i => ((w.alarms i).filter (·.due ≤ now.toNat)).isSome).map w.hashOf =
        ((l.filterMap w.alarms).filter (·.due ≤ now.toNat)).map Alarm.keyHash := by
    intro l
    induction l with
    | nil => rfl
    | cons i l ih =>
      cases ha : w.alarms i with
      | none => simpa [filter_cons, ha] using ih
      | some a =>
        by_cases hdue : a.due ≤ now.toNat
        · simpa [filter_cons, ha, hdue, hashOf_eq ha] using ih
        · simpa [filter_cons, ha, hdue, Option.filter] using ih
  rw [hlist, Alarms.hashesDue, ← hlists]
  exact hperm.map _

end Advance

/-! ### Sequences of calls -/

/-- A call of the wheel. A schedule reads the clock when it allocates the slots. -/
inductive Call where
  | schedule (clock keyHash expiresAt : UInt64)
  | cancel (handle : TimerHandle)
  | clear
  | advance (now : UInt64)
deriving DecidableEq

def call (w : TimerWheel) : Call → TimerWheel
  | .schedule clock keyHash expiresAt => (w.schedule clock keyHash expiresAt).2
  | .cancel handle => w.cancel handle
  | .clear => w.clear
  | .advance now => (w.advance now).2

def calls (w : TimerWheel) (cs : List Call) : TimerWheel := cs.foldl call w

theorem Valid.call (h : w.Valid) (c : Call) : (w.call c).Valid := by
  cases c with
  | schedule clock keyHash expiresAt => exact h.schedule clock keyHash expiresAt
  | cancel handle => exact h.cancel handle
  | clear => exact h.clear
  | advance now => exact h.advance now

theorem Valid.calls (h : w.Valid) (cs : List Call) : (w.calls cs).Valid := by
  induction cs generalizing w with
  | nil => exact h
  | cons c cs ih => exact ih (h.call c)

/-- The call ends an alarm: it takes it away, or reaches its due time. -/
def Call.Ends (handle : TimerHandle) (due : ℕ) : Call → Prop
  | .schedule .. => False
  | .cancel i => i = handle
  | .clear => True
  | .advance now => due ≤ now.toNat

instance (handle : TimerHandle) (due : ℕ) : DecidablePred (Call.Ends handle due) := by
  intro c
  cases c <;> unfold Call.Ends <;> infer_instance

theorem Valid.call_alarms (h : w.Valid) {a : Alarm} (ha : w.alarms i = some a) (c : Call) :
    (w.call c).alarms i = if c.Ends i a.due then none else some a := by
  cases c with
  | schedule clock keyHash expiresAt =>
    have hi : i ≠ w.nextIndex := (h.alarms_lt ha).ne
    rw [TimerWheel.call, h.schedule_alarms, if_neg hi, ha]
    rfl
  | cancel j =>
    rw [TimerWheel.call, cancel_alarms, ha]
    simp only [Call.Ends, eq_comm]
  | clear => rfl
  | advance now =>
    rw [TimerWheel.call, h.advance_alarms, Alarms.advance, ha]
    by_cases hdue : a.due ≤ now.toNat
    · simp [Call.Ends, Option.filter, hdue]
    · simp [Call.Ends, Option.filter, hdue, not_le.mp hdue]

theorem nextIndex_le_call (h : w.Valid) (c : Call) : w.nextIndex ≤ (w.call c).nextIndex := by
  cases c with
  | schedule clock keyHash expiresAt =>
    rw [TimerWheel.call, schedule_eq]
    simp
  | cancel j =>
    apply le_of_eq
    rw [TimerWheel.call, TimerWheel.cancel]
    split <;> simp
  | clear => exact le_rfl
  | advance now => exact (h.advance_step now).2.1.ge

theorem Valid.call_alarms_none (h : w.Valid) (hi : i < w.nextIndex) (hnone : w.alarms i = none)
    (c : Call) : (w.call c).alarms i = none := by
  cases c with
  | schedule clock keyHash expiresAt =>
    rw [TimerWheel.call, h.schedule_alarms, if_neg hi.ne, hnone]
  | cancel j => rw [TimerWheel.call, cancel_alarms, hnone, ite_self]
  | clear => rfl
  | advance now =>
    rw [TimerWheel.call, h.advance_alarms, Alarms.advance, hnone]
    rfl

theorem Valid.calls_alarms (h : w.Valid) {a : Alarm} (ha : w.alarms i = some a) (cs : List Call) :
    (w.calls cs).alarms i = if ∀ c ∈ cs, ¬ c.Ends i a.due then some a else none := by
  have hgone : ∀ (cs : List Call) (w : TimerWheel), w.Valid → i < w.nextIndex →
      w.alarms i = none → (w.calls cs).alarms i = none := by
    intro cs
    induction cs with
    | nil => exact fun w _ _ hnone => hnone
    | cons c cs ih =>
      intro w h hi hnone
      exact ih _ (h.call c) (hi.trans_le (nextIndex_le_call h c)) (h.call_alarms_none hi hnone c)
  induction cs generalizing w with
  | nil => simpa [TimerWheel.calls] using ha
  | cons c cs ih =>
    have hcall := h.call_alarms ha c
    show ((w.call c).calls cs).alarms i = _
    by_cases hends : c.Ends i a.due
    · rw [if_pos hends] at hcall
      have hlt := (h.alarms_lt ha).trans_le (nextIndex_le_call h c)
      rw [hgone cs _ (h.call c) hlt hcall, if_neg]
      intro hall
      exact hall c mem_cons_self hends
    · rw [if_neg hends] at hcall
      rw [ih (h.call c) hcall]
      simp [hends]

def Fires (w : TimerWheel) (now : UInt64) (handle : TimerHandle) : Prop :=
  w.isArmed handle = true ∧ (w.advance now).2.isArmed handle = false

instance (now : UInt64) (handle : TimerHandle) : Decidable (w.Fires now handle) :=
  inferInstanceAs (Decidable (_ ∧ _))

theorem Valid.fires_iff (h : w.Valid) :
    w.Fires now i ↔ ∃ a, w.alarms i = some a ∧ a.due ≤ now.toNat := by
  rw [Fires, ← Bool.not_eq_true, isArmed_iff, isArmed_iff, h.advance_alarms]
  constructor
  · rintro ⟨⟨a, ha⟩, hgone⟩
    refine ⟨a, ha, ?_⟩
    by_contra hdue
    exact hgone ⟨a, by simp [Alarms.advance, ha, Option.filter, not_le.mp hdue]⟩
  · rintro ⟨a, ha, hdue⟩
    refine ⟨⟨a, ha⟩, ?_⟩
    rintro ⟨b, hb⟩
    simp [Alarms.advance, ha, Option.filter, not_lt.mpr hdue] at hb

def FiresIn (w : TimerWheel) (handle : TimerHandle) : Call → Prop
  | .advance now => w.Fires now handle
  | _ => False

instance (handle : TimerHandle) (c : Call) : Decidable (w.FiresIn handle c) := by
  cases c <;> unfold FiresIn <;> infer_instance

/-- In how many of the calls the timer fires. -/
def firings (handle : TimerHandle) : TimerWheel → List Call → ℕ
  | _, [] => 0
  | w, c :: cs => (if w.FiresIn handle c then 1 else 0) + firings handle (w.call c) cs

def Call.IsAdvance : Call → Bool
  | .advance _ => true
  | _ => false

theorem Valid.firesIn_iff (h : w.Valid) (c : Call) :
    w.FiresIn i c ↔ ∃ a, w.alarms i = some a ∧ c.IsAdvance = true ∧ c.Ends i a.due := by
  cases c <;> simp [FiresIn, Call.IsAdvance, Call.Ends, h.fires_iff]

theorem Valid.firings_eq_zero (h : w.Valid) (hi : i < w.nextIndex) (hnone : w.alarms i = none)
    (cs : List Call) : firings i w cs = 0 := by
  induction cs generalizing w with
  | nil => rfl
  | cons c cs ih =>
    have hrest := ih (h.call c) (hi.trans_le (nextIndex_le_call h c))
      (h.call_alarms_none hi hnone c)
    have hfires : ¬ w.FiresIn i c := by simp [h.firesIn_iff, hnone]
    rw [firings, hrest, if_neg hfires]

theorem Valid.firings_eq (h : w.Valid) {a : Alarm} (ha : w.alarms i = some a) (cs : List Call) :
    firings i w cs = if (cs.find? (Call.Ends i a.due ·)).any Call.IsAdvance then 1 else 0 := by
  induction cs generalizing w with
  | nil => rfl
  | cons c cs ih =>
    have hcall := h.call_alarms ha c
    have hfires : w.FiresIn i c ↔ c.IsAdvance = true ∧ c.Ends i a.due := by
      simp [h.firesIn_iff, ha]
    by_cases hends : c.Ends i a.due
    · rw [if_pos hends] at hcall
      have hlt := (h.alarms_lt ha).trans_le (nextIndex_le_call h c)
      rw [firings, (h.call c).firings_eq_zero hlt hcall, List.find?_cons_of_pos (by simpa)]
      simp [hfires, hends]
    · rw [if_neg hends] at hcall
      rw [firings, ih (h.call c) hcall, List.find?_cons_of_neg (by simpa)]
      simp [hfires, hends]

/-- Successive advances: the key hashes they return, in order, and the wheel after them. -/
def advances (w : TimerWheel) : List UInt64 → List UInt64 × TimerWheel
  | [] => ([], w)
  | now :: later =>
    let r := w.advance now
    let r' := advances r.2 later
    (r.1 ++ r'.1, r'.2)

theorem Valid.advances_perm (h : w.Valid) {ts : List UInt64} (hts : ∀ t ∈ ts, t ≤ now) :
    (w.advances (ts ++ [now])).1.Perm (w.advance now).1 ∧
      (w.advances (ts ++ [now])).2.alarms = (w.advance now).2.alarms := by
  induction ts generalizing w with
  | nil => simp [advances]
  | cons t ts ih =>
    have ht : t.toNat ≤ now.toNat := UInt64.le_iff_toNat_le.mp (hts t mem_cons_self)
    obtain ⟨hhashes, halarms⟩ := ih (h.advance t) fun t' ht' => hts t' (mem_cons_of_mem t ht')
    have hindex : (w.advance t).2.nextIndex = w.nextIndex := (h.advance_step t).2.1
    rw [cons_append, advances]
    constructor
    · have hlater := (h.advance t).advance_hashes now
      rw [h.advance_alarms, hindex] at hlater
      -- first the steps after `t` as one jump, then both parts as the alarms due
      apply (hhashes.append_left _).trans
      apply ((h.advance_hashes t).append hlater).trans
      exact (w.alarms.hashesDue_append w.nextIndex ht).trans (h.advance_hashes now).symm
    · rw [halarms, (h.advance t).advance_alarms, h.advance_alarms, h.advance_alarms,
        Alarms.advance_advance _ ht]

/-- Over every sequence of calls, a timer fires exactly in the first advance that reaches its due
time, counted from the last advance before it was armed, unless it was cancelled or cleared
before; it fires at most once. An advance returns the key hashes of the timers that fire in it,
and advancing in steps fires the same timers as one jump. -/
theorem fires_exactly_when_due {wheelSize : ℕ} (hlen : 1 ≤ wheelSize) (tickNs clock : UInt64)
    (before after : List Call) (clk keyHash expiresAt now : UInt64) :
    let w := (new wheelSize tickNs clock).calls before
    let armed := w.schedule clk keyHash expiresAt
    let due := armed.2.dueAt expiresAt
    let later := armed.2.calls after
    (later.Fires now armed.1 ↔
      due ≤ now.toNat ∧ ∀ c ∈ after, ¬ c.Ends armed.1 due) ∧
    firings armed.1 armed.2 after =
      (if (after.find? (Call.Ends armed.1 due ·)).any Call.IsAdvance then 1 else 0) ∧
    (∃ is : List TimerHandle, is.Nodup ∧ (∀ i, i ∈ is ↔ later.Fires now i) ∧
      (later.advance now).1 = is.map later.hashOf) ∧
    (later.Fires now armed.1 → later.hashOf armed.1 = keyHash) ∧
    (∀ ts : List UInt64, (∀ t ∈ ts, t ≤ now) →
      (later.advances (ts ++ [now])).1.Perm (later.advance now).1 ∧
      ∀ i, (later.advances (ts ++ [now])).2.isArmed i = (later.advance now).2.isArmed i) := by
  intro w armed due later
  have hw : w.Valid := (valid_new hlen tickNs clock).calls before
  have harmed : armed.2.Valid := hw.schedule clk keyHash expiresAt
  have hlater : later.Valid := harmed.calls after
  have halarm : armed.2.alarms armed.1 = some ⟨keyHash, due⟩ := by
    rw [hw.schedule_alarms, if_pos (schedule_fst clk keyHash expiresAt)]
  have hstay := harmed.calls_alarms halarm after
  -- the alarm, if it is still there, is the one that was set
  have hfires : later.Fires now armed.1 ↔
      due ≤ now.toNat ∧ ∀ c ∈ after, ¬ c.Ends armed.1 due := by
    rw [hlater.fires_iff, hstay]
    constructor
    · rintro ⟨a, ha, hdue⟩
      split_ifs at ha with hall
      obtain rfl := Option.some.inj ha
      exact ⟨hdue, hall⟩
    · rintro ⟨hdue, hall⟩
      exact ⟨_, if_pos hall, hdue⟩
  refine ⟨hfires, harmed.firings_eq halarm after, ?_, fun hf => ?_, fun ts hts => ?_⟩
  · obtain ⟨-, -, -, is, his, hmem, hlist⟩ := hlater.advance_step now
    exact ⟨is, his, fun i => (hmem i).trans hlater.fires_iff.symm, hlist⟩
  · rw [if_pos (hfires.mp hf).2] at hstay
    exact hashOf_eq hstay
  · obtain ⟨hhashes, halarms⟩ := hlater.advances_perm hts
    refine ⟨hhashes, fun i => ?_⟩
    rw [Bool.eq_iff_iff, isArmed_iff, isArmed_iff, halarms]

/-- On a wheel of four slots a timer ten ticks ahead waits for the third turn. -/
theorem fires_on_third_turn :
    let armed := (new 4 10 0).schedule 0 7 95
    armed.2.dueAt 95 = 100 ∧ (armed.2.calls [.advance 55, .advance 99]).Fires 1000 armed.1 := by
  intro armed
  have hfires := (fires_exactly_when_due (by decide : 1 ≤ 4) 10 0 [] [.advance 55, .advance 99]
    0 7 95 1000).1
  exact ⟨by decide, hfires.mpr ⟨by decide, by decide⟩⟩

end TimerWheel

end Fibre.Cache
