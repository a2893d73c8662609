import Fibre.Cache.TimerWheel
import Fibre.Math.DoublyLinked

/-!
# The timer lists

The slots of the wheel as lists of handles. `Repr w q` says that the list of slot `s` is
`q s`; what the operations do to the timers is told by `card`, a timer without its links.
-/

namespace Fibre.Cache

open DoublyLinked Word Function List

namespace TimerWheel

variable {w w' : TimerWheel} {q : ℕ → List ℕ} {i j s slot : ℕ}

/-- A timer without its links. -/
structure Card where
  laps : ℕ
  keyHash : UInt64
  slotIndex : ℕ
deriving DecidableEq

def cardOf (t : Timer) : Card := ⟨t.laps, t.keyHash, t.slotIndex⟩

/-- What a handle's timer says, if it is armed. -/
def card (w : TimerWheel) (i : ℕ) : Option Card := (w.timers i).map cardOf

/-- The timer after a handle's in its slot. -/
def nextOf (w : TimerWheel) (i : ℕ) : Option ℕ := (w.timers i).bind Timer.next

/-- The timer before a handle's in its slot. -/
def prevOf (w : TimerWheel) (i : ℕ) : Option ℕ := (w.timers i).bind Timer.prev

theorem isArmed_eq (w : TimerWheel) (i : ℕ) : w.isArmed i = (w.card i).isSome := by
  simp [isArmed, card]

/-- The list of slot `s` is `q s`. -/
structure Repr (w : TimerWheel) (q : ℕ → List ℕ) : Prop where
  nodup : ∀ s, (q s).Nodup
  mem : ∀ s i, i ∈ q s ↔ ∃ c, w.card i = some c ∧ c.slotIndex = s
  slots : ∀ s, w.slots s = ⟨(q s).head?, (q s).getLast?⟩
  linked : ∀ s, Linked w.prevOf w.nextOf (q s)
  fresh : ∀ i c, w.card i = some c → i < w.nextIndex
  inWheel : ∀ i c, w.card i = some c → c.slotIndex < w.wheelLen
  unbuilt : w.built = false → ∀ i, w.card i = none

theorem repr_new (wheelSize : ℕ) (tickNs clock : UInt64) :
    (new wheelSize tickNs clock).Repr fun _ => [] where
  nodup _ := nodup_nil
  mem := by simp [new, card]
  slots _ := rfl
  linked _ := linked_nil
  fresh := by simp [new, card]
  inWheel := by simp [new, card]
  unbuilt := by simp [new, card]

theorem Repr.congr (h : w.Repr q) (ht : w'.timers = w.timers) (hs : w'.slots = w.slots)
    (hn : w'.nextIndex = w.nextIndex) (hl : w'.wheelLen = w.wheelLen)
    (hb : w'.built = w.built) : w'.Repr q := by
  have hc : w'.card = w.card := by
    funext i
    simp [card, ht]
  have hnext : w'.nextOf = w.nextOf := by
    funext i
    simp [nextOf, ht]
  have hprev : w'.prevOf = w.prevOf := by
    funext i
    simp [prevOf, ht]
  exact {
    nodup := h.nodup
    mem := by rw [hc]; exact h.mem
    slots := by rw [hs]; exact h.slots
    linked := by rw [hnext, hprev]; exact h.linked
    fresh := by rw [hc, hn]; exact h.fresh
    inWheel := by rw [hc, hl]; exact h.inWheel
    unbuilt := by rw [hc, hb]; exact h.unbuilt }

theorem Repr.disjoint (h : w.Repr q) (hi : i ∈ q s) {s' : ℕ} (hs : s' ≠ s) : i ∉ q s' := by
  intro hi'
  obtain ⟨c, hc, rfl⟩ := (h.mem s i).mp hi
  obtain ⟨c', hc', rfl⟩ := (h.mem s' i).mp hi'
  obtain rfl : c = c' := by simpa [hc] using hc'
  exact hs rfl

theorem Repr.length_le (h : w.Repr q) (s : ℕ) : (q s).length ≤ w.nextIndex := by
  have hsub : q s ⊆ List.range w.nextIndex := by
    intro i hi
    obtain ⟨c, hc, -⟩ := (h.mem s i).mp hi
    exact mem_range.mpr (h.fresh i c hc)
  simpa using ((h.nodup s).subperm hsub).length_le

theorem Repr.exists_timer (h : w.Repr q) (hi : i ∈ q s) :
    ∃ t, w.timers i = some t ∧ t.slotIndex = s := by
  obtain ⟨c, hc, rfl⟩ := (h.mem s i).mp hi
  obtain ⟨t, ht, rfl⟩ := Option.map_eq_some_iff.mp hc
  exact ⟨t, ht, rfl⟩

theorem modify_timers (w : TimerWheel) (i : ℕ) (f : Timer → Timer) (j : ℕ) :
    (w.modify i f).timers j = (w.timers j).map fun t => if i = j then f t else t := by
  by_cases hj : i = j
  · subst hj
    simp [modify]
  · simp [modify, hj, update_of_ne (Ne.symm hj)]

section Unlink

variable (w) (slot : ℕ) (prev next : Option ℕ)

theorem unlink_timers (j : ℕ) :
    (w.unlink slot prev next).timers j = (w.timers j).map fun t => { t with
      prev := if next = some j then prev else t.prev
      next := if prev = some j then next else t.next } := by
  cases prev <;> cases next <;> rcases hj : w.timers j with - | ⟨_, _, _, _, _⟩ <;>
    simp only [unlink, modify_timers, modifySlot, hj, Option.map_none, Option.map_some,
      Option.some.injEq] <;> grind

theorem unlink_slots (s : ℕ) :
    (w.unlink slot prev next).slots s = if s = slot then
      { head := if prev = none then next else (w.slots slot).head
        tail := if next = none then prev else (w.slots slot).tail } else w.slots s := by
  by_cases hs : s = slot
  · subst hs
    cases prev <;> cases next <;> simp [unlink, modify, modifySlot]
  · cases prev <;> cases next <;> simp [unlink, modify, modifySlot, hs]

@[simp] theorem unlink_nextIndex :
    (w.unlink slot prev next).nextIndex = w.nextIndex := by
  cases prev <;> cases next <;> rfl

@[simp] theorem unlink_wheelLen :
    (w.unlink slot prev next).wheelLen = w.wheelLen := by
  cases prev <;> cases next <;> rfl

@[simp] theorem unlink_built : (w.unlink slot prev next).built = w.built := by
  cases prev <;> cases next <;> rfl

@[simp] theorem unlink_currentTick :
    (w.unlink slot prev next).currentTick = w.currentTick := by
  cases prev <;> cases next <;> rfl

@[simp] theorem unlink_tickNs : (w.unlink slot prev next).tickNs = w.tickNs := by
  cases prev <;> cases next <;> rfl

@[simp] theorem unlink_lastAdvanced :
    (w.unlink slot prev next).lastAdvanced = w.lastAdvanced := by
  cases prev <;> cases next <;> rfl

@[simp] theorem unlink_nextDue : (w.unlink slot prev next).nextDue = w.nextDue := by
  cases prev <;> cases next <;> rfl

@[simp] theorem unlink_card (j : ℕ) : (w.unlink slot prev next).card j = w.card j := by
  rw [card, unlink_timers, card, Option.map_map]
  rfl

end Unlink

/-- The wheel with a timer dropped from the arena and its neighbours joined. -/
def dropTimer (w : TimerWheel) (slot i : ℕ) (prev next : Option ℕ) : TimerWheel :=
  { w with timers := update w.timers i none : TimerWheel }.unlink slot prev next

theorem dropTimer_timers (prev next : Option ℕ) (j : ℕ) :
    (w.dropTimer slot i prev next).timers j = if j = i then none else
      (w.timers j).map fun t => { t with
        prev := if next = some j then prev else t.prev
        next := if prev = some j then next else t.next } := by
  rw [dropTimer, unlink_timers]
  by_cases hj : j = i
  · simp [hj]
  · simp [hj, update_of_ne]

theorem dropTimer_card (prev next : Option ℕ) (j : ℕ) :
    (w.dropTimer slot i prev next).card j = if j = i then none else w.card j := by
  rw [dropTimer, unlink_card, card]
  by_cases hj : j = i
  · simp [hj]
  · simp [hj, card]

/-- Dropping a timer takes its handle out of its slot's list. -/
theorem Repr.unlinked (h : w.Repr q) {l r : List ℕ} (hq : q slot = l ++ i :: r) {t : Timer}
    (ht : w.timers i = some t) :
    (w.dropTimer slot i t.prev t.next).Repr (update q slot (l ++ r)) := by
  have hlink := h.linked slot
  have hnd := h.nodup slot
  rw [hq] at hlink hnd
  have hprev : t.prev = l.getLast? := by simpa [prevOf, ht] using hlink.prev_eq
  have hnext : t.next = r.head? := by simpa [nextOf, ht] using hlink.next_eq
  have hil : i ∉ l ++ r := Nodup.notMem (nodup_middle.mp hnd)
  -- the links of the other timers: only the two neighbours of `i` change
  have hlinks : ∀ z, z ≠ i → ∀ u, w.timers z = some u →
      (w.dropTimer slot i t.prev t.next).prevOf z =
        (if r.head? = some z then l.getLast? else w.prevOf z) ∧
      (w.dropTimer slot i t.prev t.next).nextOf z =
        (if l.getLast? = some z then r.head? else w.nextOf z) := by
    intro z hz u hu
    simp [prevOf, nextOf, dropTimer_timers, hz, hu, hprev, hnext]
  have harmed : ∀ s, ∀ z ∈ q s, ∃ u, w.timers z = some u := by
    intro s z hz
    obtain ⟨u, hu, -⟩ := h.exists_timer hz
    exact ⟨u, hu⟩
  have hmemi : i ∈ q slot := by simp [hq]
  refine ⟨fun s => ?nodup, fun s z => ?mem, fun s => ?slots, fun s => ?linked, ?fresh, ?inWheel,
    ?unbuilt⟩
  case nodup =>
    by_cases hs : s = slot
    · subst hs
      rw [update_self]
      exact (nodup_cons.mp (nodup_middle.mp hnd)).2
    · rw [update_of_ne hs]
      exact h.nodup s
  case mem =>
    rw [dropTimer_card]
    by_cases hz : z = i
    · subst hz
      by_cases hs : s = slot
      · subst hs
        simpa using hil
      · simpa [update_of_ne hs] using h.disjoint hmemi hs
    · rw [if_neg hz, ← h.mem s z]
      by_cases hs : s = slot
      · subst hs
        simp [hq, hz]
      · rw [update_of_ne hs]
  case slots =>
    rw [dropTimer, unlink_slots]
    by_cases hs : s = slot
    · subst hs
      have hslot := h.slots s
      rw [hq] at hslot
      rw [if_pos rfl, update_self, hprev, hnext]
      simp only [hslot]
      cases l using List.reverseRecOn <;> cases r <;>
        simp [List.getLast?_cons, List.head?_append]
    · rw [if_neg hs, update_of_ne hs]
      exact h.slots s
  case linked =>
    by_cases hs : s = slot
    · subst hs
      rw [update_self]
      have hz : ∀ z ∈ l ++ r, z ≠ i ∧ ∃ u, w.timers z = some u := by
        intro z hz
        refine ⟨fun hzi => hil (hzi ▸ hz), harmed s z ?_⟩
        rw [hq]
        simp only [mem_append, mem_cons] at hz ⊢
        tauto
      apply hlink.splice hnd
      · intro z hzl
        obtain ⟨hzi, u, hu⟩ := hz z (by simp [mem_of_getLast? hzl])
        simp [(hlinks z hzi u hu).2, hzl]
      · intro z hzr
        obtain ⟨hzi, u, hu⟩ := hz z (by simp [mem_of_head? hzr])
        simp [(hlinks z hzi u hu).1, hzr]
      · intro z hzm hzr
        obtain ⟨hzi, u, hu⟩ := hz z hzm
        simp [(hlinks z hzi u hu).1, hzr]
      · intro z hzm hzl
        obtain ⟨hzi, u, hu⟩ := hz z hzm
        simp [(hlinks z hzi u hu).2, hzl]
    · rw [update_of_ne hs]
      -- a neighbour of `i` is in the list of `slot`, so not in this one
      have hz : ∀ z ∈ q s, z ≠ i ∧ r.head? ≠ some z ∧ l.getLast? ≠ some z := by
        intro z hz
        have hout : z ∉ q slot := h.disjoint hz (Ne.symm hs)
        rw [hq] at hout
        refine ⟨fun hzi => hout (by simp [hzi]), fun hzr => hout ?_, fun hzl => hout ?_⟩
        · simp [mem_of_head? hzr]
        · simp [mem_of_getLast? hzl]
      apply (h.linked s).congr
      · intro z hzm
        obtain ⟨u, hu⟩ := harmed s z hzm
        obtain ⟨hzi, hzr, -⟩ := hz z hzm
        simp [(hlinks z hzi u hu).1, hzr]
      · intro z hzm
        obtain ⟨u, hu⟩ := harmed s z hzm
        obtain ⟨hzi, -, hzl⟩ := hz z hzm
        simp [(hlinks z hzi u hu).2, hzl]
  case fresh =>
    intro z c hc
    rw [dropTimer_card] at hc
    split_ifs at hc with hz
    simpa [dropTimer] using h.fresh z c hc
  case inWheel =>
    intro z c hc
    rw [dropTimer_card] at hc
    split_ifs at hc with hz
    simpa [dropTimer] using h.inWheel z c hc
  case unbuilt =>
    intro hb z
    rw [dropTimer_card, h.unbuilt (by simpa [dropTimer] using hb) z, ite_self]

theorem cancel_card (w : TimerWheel) (i j : ℕ) :
    (w.cancel i).card j = if j = i then none else w.card j := by
  unfold cancel
  split
  next hi =>
    split_ifs with hj
    · simp [hj, card, hi]
    · rfl
  next t hi => exact dropTimer_card _ _ j

theorem Repr.cancel (h : w.Repr q) (i : ℕ) : ∃ q', (w.cancel i).Repr q' := by
  unfold TimerWheel.cancel
  split
  next hi => exact ⟨q, h⟩
  next t hi =>
    have hmem : i ∈ q t.slotIndex := (h.mem _ i).mpr ⟨cardOf t, by simp [card, hi], rfl⟩
    obtain ⟨l, r, hq⟩ := append_of_mem hmem
    exact ⟨_, h.unlinked hq hi⟩

theorem clear_card (w : TimerWheel) (i : ℕ) : w.clear.card i = none := rfl

theorem repr_clear (w : TimerWheel) : w.clear.Repr fun _ => [] where
  nodup _ := nodup_nil
  mem := by simp [clear_card]
  slots _ := rfl
  linked _ := linked_nil
  fresh := by simp [clear_card]
  inWheel := by simp [clear_card]
  unbuilt := by simp [clear_card]

section Schedule

/-- The wheel with its slots allocated. -/
def opened (w : TimerWheel) (clock : UInt64) : TimerWheel :=
  if w.built then w else
    { w with built := true, slots := fun _ => ⟨none, none⟩, lastAdvanced := clock }

def ticksAhead (w : TimerWheel) (expiresAt : UInt64) : ℕ :=
  max (divCeil (satSub expiresAt w.lastAdvanced) w.tickNs).toNat 1

def slotAhead (w : TimerWheel) (expiresAt : UInt64) : ℕ :=
  (w.currentTick + (w.ticksAhead expiresAt - 1)) % w.wheelLen

variable (w) (clock keyHash expiresAt : UInt64)

@[simp] theorem opened_nextIndex : (w.opened clock).nextIndex = w.nextIndex := by
  unfold opened
  split <;> rfl

@[simp] theorem opened_wheelLen : (w.opened clock).wheelLen = w.wheelLen := by
  unfold opened
  split <;> rfl

@[simp] theorem opened_tickNs : (w.opened clock).tickNs = w.tickNs := by
  unfold opened
  split <;> rfl

@[simp] theorem opened_built : (w.opened clock).built = true := by
  unfold opened
  split
  · assumption
  · rfl

@[simp] theorem opened_card (i : ℕ) : (w.opened clock).card i = w.card i := by
  unfold opened
  split <;> rfl

variable {w}

theorem Repr.opened (h : w.Repr q) : (w.opened clock).Repr q := by
  unfold TimerWheel.opened
  split
  next => exact h
  next hb =>
    -- no timer is armed before the slots are there, so every list is empty
    have hnone := h.unbuilt (by simpa using hb)
    have hq : ∀ s, q s = [] := by
      intro s
      apply eq_nil_iff_forall_not_mem.mpr
      intro i hi
      obtain ⟨c, hc, -⟩ := (h.mem s i).mp hi
      simp [hnone i] at hc
    exact { h with
      slots := by simp [hq]
      linked := by
        intro s
        rw [hq s]
        exact linked_nil
      unbuilt := by simp }

variable (w)

/-- The wheel with a new timer at the head of a slot's list. -/
def pushFront (w : TimerWheel) (slot laps : ℕ) (keyHash : UInt64) : TimerWheel :=
  let index := w.nextIndex
  let head := (w.slots slot).head
  let w := { w with
    timers := update w.timers index (some ⟨laps, keyHash, slot, none, head⟩)
    nextIndex := index + 1 }
  let w := match head with
    | none => w
    | some old => w.modify old fun t => { t with prev := some index }
  w.modifySlot slot fun s =>
    { head := some index, tail := if s.tail = none then some index else s.tail }

/-- The hint of the earliest timer, the only thing a schedule sets besides the timer. -/
def dueHint (w : TimerWheel) (expiresAt : UInt64) : UInt64 :=
  min w.nextDue (satAdd w.lastAdvanced (UInt64.ofNat (w.ticksAhead expiresAt) * w.tickNs))

theorem schedule_eq :
    w.schedule clock keyHash expiresAt = ((w.opened clock).nextIndex,
      { (w.opened clock).pushFront ((w.opened clock).slotAhead expiresAt)
          (((w.opened clock).ticksAhead expiresAt - 1) / (w.opened clock).wheelLen) keyHash with
        nextDue := (w.opened clock).dueHint expiresAt }) := by
  cases hhead : ((w.opened clock).slots ((w.opened clock).slotAhead expiresAt)).head with
  | none =>
    simp only [pushFront, hhead]
    unfold schedule
    simp only [slotAhead, ticksAhead, opened] at hhead
    simp only [hhead]
    rfl
  | some old =>
    simp only [pushFront, hhead]
    unfold schedule
    simp only [slotAhead, ticksAhead, opened] at hhead
    simp only [hhead]
    rfl

variable (slot laps : ℕ)

theorem pushFront_timers (hnew : (w.slots slot).head ≠ some w.nextIndex) (j : ℕ) :
    (w.pushFront slot laps keyHash).timers j =
      if j = w.nextIndex then some ⟨laps, keyHash, slot, none, (w.slots slot).head⟩
      else (w.timers j).map fun t =>
        if (w.slots slot).head = some j then { t with prev := some w.nextIndex } else t := by
  unfold pushFront
  rcases hhead : (w.slots slot).head with - | old
  · by_cases hj : j = w.nextIndex
    · simp [modifySlot, hj]
    · simp [modifySlot, hj]
  · have hold : old ≠ w.nextIndex := fun h => hnew (by rw [hhead, h])
    simp only [modifySlot, modify_timers, Option.some.injEq]
    by_cases hj : j = w.nextIndex
    · simp [hj, hold]
    · simp [hj]

theorem pushFront_slots (s : ℕ) :
    (w.pushFront slot laps keyHash).slots s = if s = slot then
      { head := some w.nextIndex
        tail := if (w.slots slot).tail = none then some w.nextIndex else (w.slots slot).tail }
      else w.slots s := by
  unfold pushFront
  by_cases hs : s = slot
  · subst hs
    cases hhead : (w.slots s).head <;> cases htail : (w.slots s).tail <;>
      simp [modifySlot, modify, htail]
  · cases hhead : (w.slots slot).head <;> simp [modifySlot, modify, hs]

@[simp] theorem pushFront_nextIndex :
    (w.pushFront slot laps keyHash).nextIndex = w.nextIndex + 1 := by
  unfold pushFront
  cases hhead : (w.slots slot).head <;> rfl

@[simp] theorem pushFront_wheelLen :
    (w.pushFront slot laps keyHash).wheelLen = w.wheelLen := by
  unfold pushFront
  cases hhead : (w.slots slot).head <;> rfl

@[simp] theorem pushFront_built : (w.pushFront slot laps keyHash).built = w.built := by
  unfold pushFront
  cases hhead : (w.slots slot).head <;> rfl

@[simp] theorem pushFront_currentTick :
    (w.pushFront slot laps keyHash).currentTick = w.currentTick := by
  unfold pushFront
  cases hhead : (w.slots slot).head <;> rfl

@[simp] theorem pushFront_tickNs : (w.pushFront slot laps keyHash).tickNs = w.tickNs := by
  unfold pushFront
  cases hhead : (w.slots slot).head <;> rfl

@[simp] theorem pushFront_lastAdvanced :
    (w.pushFront slot laps keyHash).lastAdvanced = w.lastAdvanced := by
  unfold pushFront
  cases hhead : (w.slots slot).head <;> rfl

variable {w} {slot}

theorem Repr.head_ne_nextIndex (h : w.Repr q) (s : ℕ) :
    (w.slots s).head ≠ some w.nextIndex := by
  intro hs
  rw [h.slots s] at hs
  obtain ⟨c, hc, -⟩ := (h.mem s _).mp (mem_of_head? hs)
  exact absurd (h.fresh _ c hc) (lt_irrefl _)

theorem Repr.nextIndex_notMem (h : w.Repr q) (s : ℕ) : w.nextIndex ∉ q s := by
  intro hs
  obtain ⟨c, hc, -⟩ := (h.mem s _).mp hs
  exact absurd (h.fresh _ c hc) (lt_irrefl _)

theorem Repr.pushFront_card (h : w.Repr q) (j : ℕ) :
    (w.pushFront slot laps keyHash).card j =
      if j = w.nextIndex then some ⟨laps, keyHash, slot⟩ else w.card j := by
  rw [card, pushFront_timers _ _ _ _ (h.head_ne_nextIndex slot)]
  by_cases hj : j = w.nextIndex
  · rw [if_pos hj, if_pos hj]
    rfl
  · rw [if_neg hj, if_neg hj, Option.map_map, card]
    congr 1
    funext t
    simp only [Function.comp_apply]
    split <;> rfl

theorem Repr.pushFront (h : w.Repr q) (hb : w.built = true) (hslot : slot < w.wheelLen) :
    (w.pushFront slot laps keyHash).Repr
      (update q slot (w.nextIndex :: q slot)) := by
  have hnew := h.head_ne_nextIndex slot
  have hhead : (w.slots slot).head = (q slot).head? := by rw [h.slots slot]
  -- the links of the timers that were there: only the old head's `prev` changes
  have hlinks : ∀ s, ∀ z ∈ q s,
      (w.pushFront slot laps keyHash).prevOf z =
        (if (q slot).head? = some z then some w.nextIndex else w.prevOf z) ∧
      (w.pushFront slot laps keyHash).nextOf z = w.nextOf z := by
    intro s z hz
    have hne : z ≠ w.nextIndex := fun hz' => h.nextIndex_notMem s (hz' ▸ hz)
    obtain ⟨u, hu, -⟩ := h.exists_timer hz
    simp only [prevOf, nextOf, pushFront_timers _ _ _ _ hnew, hne, if_false, hu, hhead,
      Option.map_some, Option.bind_some]
    split <;> exact ⟨rfl, rfl⟩
  refine ⟨fun s => ?nodup, fun s z => ?mem, fun s => ?slots, fun s => ?linked, ?fresh, ?inWheel,
    ?unbuilt⟩
  case nodup =>
    by_cases hs : s = slot
    · subst hs
      rw [update_self]
      exact nodup_cons.mpr ⟨h.nextIndex_notMem s, h.nodup s⟩
    · rw [update_of_ne hs]
      exact h.nodup s
  case mem =>
    rw [h.pushFront_card]
    by_cases hz : z = w.nextIndex
    · subst hz
      by_cases hs : s = slot
      · subst hs
        simp
      · simpa [update_of_ne hs, h.nextIndex_notMem s] using Ne.symm hs
    · rw [if_neg hz, ← h.mem s z]
      by_cases hs : s = slot
      · subst hs
        simp [hz]
      · rw [update_of_ne hs]
  case slots =>
    rw [pushFront_slots]
    by_cases hs : s = slot
    · subst hs
      rw [if_pos rfl, update_self, h.slots s]
      cases q s using List.reverseRecOn <;> simp [List.getLast?_cons]
    · rw [if_neg hs, update_of_ne hs]
      exact h.slots s
  case linked =>
    by_cases hs : s = slot
    · subst hs
      rw [update_self]
      apply (h.linked s).cons (h.nextIndex_notMem s)
      · simp [prevOf, pushFront_timers _ _ _ _ hnew]
      · simp [nextOf, pushFront_timers _ _ _ _ hnew, hhead]
      · intro z hz
        rw [(hlinks s z (mem_of_head? hz)).1, if_pos hz]
      · intro z hz hne
        rw [(hlinks s z hz).1, if_neg hne]
      · intro z hz
        exact (hlinks s z hz).2
    · rw [update_of_ne hs]
      apply (h.linked s).congr
      · intro z hz
        have hne : (q slot).head? ≠ some z := fun hz' =>
          h.disjoint hz (Ne.symm hs) (mem_of_head? hz')
        rw [(hlinks s z hz).1, if_neg hne]
      · intro z hz
        exact (hlinks s z hz).2
  case fresh =>
    intro z c hc
    rw [h.pushFront_card] at hc
    rw [pushFront_nextIndex]
    split_ifs at hc with hz
    · omega
    · exact lt_trans (h.fresh z c hc) (Nat.lt_succ_self _)
  case inWheel =>
    intro z c hc
    rw [h.pushFront_card] at hc
    rw [pushFront_wheelLen]
    split_ifs at hc with hz
    · obtain rfl := Option.some.inj hc
      exact hslot
    · exact h.inWheel z c hc
  case unbuilt =>
    intro hb'
    simp [hb] at hb'

def newCard (w : TimerWheel) (keyHash expiresAt : UInt64) : Card where
  laps := (w.ticksAhead expiresAt - 1) / w.wheelLen
  keyHash := keyHash
  slotIndex := w.slotAhead expiresAt

theorem schedule_fst : (w.schedule clock keyHash expiresAt).1 = w.nextIndex := by
  rw [schedule_eq, opened_nextIndex]

theorem Repr.schedule_card (h : w.Repr q) (j : ℕ) :
    (w.schedule clock keyHash expiresAt).2.card j =
      if j = w.nextIndex then some ((w.opened clock).newCard keyHash expiresAt)
      else w.card j := by
  have hcard : ∀ slot laps, ((w.opened clock).pushFront slot laps keyHash).card j =
      if j = w.nextIndex then some ⟨laps, keyHash, slot⟩ else w.card j := by
    intro slot laps
    rw [(h.opened clock).pushFront_card, opened_nextIndex, opened_card]
  rw [schedule_eq]
  exact hcard _ _

theorem Repr.schedule (h : w.Repr q) (hlen : 0 < w.wheelLen) :
    ∃ q', (w.schedule clock keyHash expiresAt).2.Repr q' := by
  rw [schedule_eq]
  have hslot : (w.opened clock).slotAhead expiresAt < (w.opened clock).wheelLen :=
    Nat.mod_lt _ (by simpa using hlen)
  exact ⟨_, ((h.opened clock).pushFront keyHash
    (((w.opened clock).ticksAhead expiresAt - 1) / (w.opened clock).wheelLen)
    (opened_built w clock) hslot).congr rfl rfl rfl rfl rfl⟩

end Schedule

section Sweep

variable {passes : ℕ} {l r : List ℕ}

/-- What is left of a timer after its slot was passed `passes` times. -/
def Card.passed (passes : ℕ) (c : Card) : Option Card :=
  if passes ≤ c.laps then some { c with laps := c.laps - passes } else none

def hashOf (w : TimerWheel) (i : ℕ) : UInt64 := ((w.card i).map Card.keyHash).getD 0

/-- The two wheels differ in their timers only. -/
structure SameClock (w w' : TimerWheel) : Prop where
  nextIndex : w'.nextIndex = w.nextIndex
  wheelLen : w'.wheelLen = w.wheelLen
  built : w'.built = w.built
  currentTick : w'.currentTick = w.currentTick
  tickNs : w'.tickNs = w.tickNs
  lastAdvanced : w'.lastAdvanced = w.lastAdvanced

theorem SameClock.refl (w : TimerWheel) : SameClock w w := ⟨rfl, rfl, rfl, rfl, rfl, rfl⟩

theorem SameClock.trans {w'' : TimerWheel} (h : SameClock w w') (h' : SameClock w' w'') :
    SameClock w w'' :=
  ⟨h'.nextIndex.trans h.nextIndex, h'.wheelLen.trans h.wheelLen, h'.built.trans h.built,
    h'.currentTick.trans h.currentTick, h'.tickNs.trans h.tickNs,
    h'.lastAdvanced.trans h.lastAdvanced⟩

theorem sameClock_dropTimer (w : TimerWheel) (slot i : ℕ) (prev next : Option ℕ) :
    SameClock w (w.dropTimer slot i prev next) := by
  constructor <;> simp [dropTimer]

theorem hashOf_congr (h : w'.card i = w.card i) : w'.hashOf i = w.hashOf i := by
  rw [hashOf, hashOf, h]

theorem Repr.modifyLaps (h : w.Repr q) (i passes : ℕ) :
    (w.modify i fun t => { t with laps := t.laps - passes }).Repr q := by
  have hcard : ∀ j c, (w.modify i fun t => { t with laps := t.laps - passes }).card j = some c ↔
      ∃ c', w.card j = some c' ∧ c.keyHash = c'.keyHash ∧ c.slotIndex = c'.slotIndex ∧
        c.laps = if i = j then c'.laps - passes else c'.laps := by
    intro j c
    rw [card, card, modify_timers]
    rcases w.timers j with - | t
    · simp
    · obtain ⟨laps, keyHash, slotIndex⟩ := c
      by_cases hj : i = j <;> simp [hj, cardOf, eq_comm] <;> tauto
  have hprev : (w.modify i fun t => { t with laps := t.laps - passes }).prevOf = w.prevOf := by
    funext j
    rw [prevOf, prevOf, modify_timers]
    rcases w.timers j with - | t
    · rfl
    · by_cases hj : i = j <;> simp [hj]
  have hnext : (w.modify i fun t => { t with laps := t.laps - passes }).nextOf = w.nextOf := by
    funext j
    rw [nextOf, nextOf, modify_timers]
    rcases w.timers j with - | t
    · rfl
    · by_cases hj : i = j <;> simp [hj]
  refine ⟨h.nodup, fun s z => ?_, h.slots, ?_, fun z c hc => ?_, fun z c hc => ?_, fun hb z => ?_⟩
  · rw [h.mem s z]
    constructor
    · rintro ⟨c, hc, rfl⟩
      exact ⟨⟨if i = z then c.laps - passes else c.laps, c.keyHash, c.slotIndex⟩,
        (hcard z _).mpr ⟨c, hc, rfl, rfl, rfl⟩, rfl⟩
    · rintro ⟨c, hc, rfl⟩
      obtain ⟨c', hc', -, hs, -⟩ := (hcard z c).mp hc
      exact ⟨c', hc', hs.symm⟩
  · rw [hprev, hnext]
    exact h.linked
  · obtain ⟨c', hc', -⟩ := (hcard z c).mp hc
    exact h.fresh z c' hc'
  · obtain ⟨c', hc', -, hs, -⟩ := (hcard z c).mp hc
    rw [hs]
    exact h.inWheel z c' hc'
  · have hz := h.unbuilt hb z
    rw [card, Option.map_eq_none_iff] at hz
    simp [card, modify_timers, hz]

/-- What one pass over (the rest of) a slot's list leaves behind. -/
structure Swept (w : TimerWheel) (is : List ℕ) (passes : ℕ) (w' : TimerWheel) : Prop where
  repr : ∃ q', w'.Repr q'
  clock : SameClock w w'
  card : ∀ j, w'.card j = if j ∈ is then (w.card j).bind (Card.passed passes) else w.card j

/-- The timers of a list that fire when their slot is passed `passes` times. -/
def firing (w : TimerWheel) (passes : ℕ) (is : List ℕ) : List ℕ :=
  is.filter fun i => (w.card i).bind (Card.passed passes) = none

theorem firing_congr {is : List ℕ} (h : ∀ j ∈ is, w'.card j = w.card j) :
    w'.firing passes is = w.firing passes is := by
  apply filter_congr
  intro j hj
  rw [h j hj]

/-- The walk over the rest `r` of a slot's list. -/
theorem Repr.sweep (h : w.Repr q) (hq : q slot = l ++ r) {fuel : ℕ} (hfuel : r.length ≤ fuel)
    (fired : List UInt64) :
    Swept w r passes (TimerWheel.sweep slot passes fuel r.head? w fired).1 ∧
      (TimerWheel.sweep slot passes fuel r.head? w fired).2 =
        fired ++ (w.firing passes r).map w.hashOf := by
  induction r generalizing l w q fuel fired with
  | nil =>
    have hstop : TimerWheel.sweep slot passes fuel ([] : List ℕ).head? w fired = (w, fired) := by
      cases fuel <;> rfl
    rw [hstop]
    exact ⟨⟨⟨q, h⟩, .refl w, by simp⟩, by simp [firing]⟩
  | cons x r ih =>
    obtain ⟨fuel, rfl⟩ : ∃ n, fuel = n + 1 :=
      ⟨fuel - 1, by simp only [length_cons] at hfuel; omega⟩
    obtain ⟨t, ht, -⟩ := h.exists_timer (by rw [hq]; simp : x ∈ q slot)
    have hlink := h.linked slot
    have hnd := h.nodup slot
    rw [hq] at hlink hnd
    have hnext : t.next = r.head? := by simpa [nextOf, ht] using hlink.next_eq
    have hxr : x ∉ r := (nodup_cons.mp (nodup_append.mp hnd).2.1).1
    have hcx : w.card x = some (cardOf t) := by simp [TimerWheel.card, ht]
    -- the rest of the walk starts from a wheel `w₁` where only the timer of `x` changed
    have hrest : ∀ (w₁ : TimerWheel) (q₁ : ℕ → List ℕ) (l₁ : List ℕ) (fired₁ : List UInt64),
        w₁.Repr q₁ → q₁ slot = l₁ ++ r → SameClock w w₁ →
        (∀ j, j ≠ x → w₁.card j = w.card j) →
        w₁.card x = (cardOf t).passed passes →
        fired₁ = fired ++ (w.firing passes [x]).map w.hashOf →
        Swept w (x :: r) passes (TimerWheel.sweep slot passes fuel r.head? w₁ fired₁).1 ∧
          (TimerWheel.sweep slot passes fuel r.head? w₁ fired₁).2 =
            fired ++ (w.firing passes (x :: r)).map w.hashOf := by
      intro w₁ q₁ l₁ fired₁ h₁ hq₁ hclock hcard hx hfired
      obtain ⟨hswept, hlist⟩ := ih h₁ hq₁ (by simpa using hfuel) fired₁
      have hr : ∀ j ∈ r, w₁.card j = w.card j := by
        intro j hj
        exact hcard j fun hjx => hxr (hjx ▸ hj)
      refine ⟨⟨hswept.repr, hclock.trans hswept.clock, fun j => ?_⟩, ?_⟩
      · rw [hswept.card j]
        by_cases hj : j = x
        · subst hj
          simp [hxr, hx, hcx]
        · simp only [mem_cons, hj, false_or, hcard j hj]
      · have hmap : (w.firing passes r).map w₁.hashOf = (w.firing passes r).map w.hashOf := by
          apply map_congr_left
          intro j hj
          exact hashOf_congr (hr j (mem_of_mem_filter hj))
        have hcons : w.firing passes (x :: r) = w.firing passes [x] ++ w.firing passes r :=
          filter_append [x] r
        rw [hlist, firing_congr hr, hmap, hfired, hcons, map_append, append_assoc]
    rw [← hnext] at hrest
    rw [List.head?_cons, TimerWheel.sweep, ht]
    by_cases hlaps : passes ≤ t.laps
    · simp only [if_pos hlaps]
      apply hrest _ _ (l ++ [x]) _ (h.modifyLaps x passes) (by simpa using hq)
        ⟨rfl, rfl, rfl, rfl, rfl, rfl⟩
      · intro j hj
        simp [TimerWheel.card, modify_timers, Ne.symm hj]
      · simp [TimerWheel.card, modify_timers, ht, Card.passed, cardOf, hlaps]
      · simp [firing, hcx, Card.passed, cardOf, hlaps]
    · simp only [if_neg hlaps]
      apply hrest (w.dropTimer slot x t.prev t.next) _ l _ (h.unlinked hq ht) (by simp)
        (sameClock_dropTimer w slot x t.prev t.next)
      · intro j hj
        rw [dropTimer_card, if_neg hj]
      · rw [dropTimer_card, if_pos rfl, Card.passed]
        exact (if_neg hlaps).symm
      · have hgone : (cardOf t).passed passes = none := if_neg hlaps
        have hfire : w.firing passes [x] = [x] := by
          rw [firing, filter_cons_of_pos (by simp [hcx, hgone]), filter_nil]
        simp [hfire, hcx, hashOf, cardOf]

theorem passed_zero (c : Card) : c.passed 0 = some c := by simp [Card.passed]

/-- What a sweep of some of the slots leaves behind, slot `s` passed `passes s` times. -/
structure SweptAll (w : TimerWheel) (ss : List ℕ) (passes : ℕ → ℕ) (w' : TimerWheel) : Prop where
  repr : ∃ q', w'.Repr q'
  clock : SameClock w w'
  card : ∀ j, w'.card j = (w.card j).bind fun c =>
    if c.slotIndex ∈ ss then c.passed (passes c.slotIndex) else some c

/-- The pass of an advance over one slot. -/
def sweepSlot (passes : ℕ → ℕ) (r : TimerWheel × List UInt64) (slot : ℕ) :
    TimerWheel × List UInt64 :=
  if passes slot = 0 then r
  else TimerWheel.sweep slot (passes slot) r.1.nextIndex (r.1.slots slot).head r.1 r.2

theorem Repr.sweepSlot (h : w.Repr q) (passes : ℕ → ℕ) (slot : ℕ) (fired : List UInt64) :
    Swept w (q slot) (passes slot) (TimerWheel.sweepSlot passes (w, fired) slot).1 ∧
      (TimerWheel.sweepSlot passes (w, fired) slot).2 =
        fired ++ (w.firing (passes slot) (q slot)).map w.hashOf := by
  unfold TimerWheel.sweepSlot
  split_ifs with hp
  · -- a slot that is not passed keeps every timer
    have hkeep : ∀ j, (w.card j).bind (Card.passed (passes slot)) = w.card j := by
      intro j
      cases w.card j with
      | none => rfl
      | some c => simpa [hp] using passed_zero c
    refine ⟨⟨⟨q, h⟩, .refl w, fun j => ?_⟩, ?_⟩
    · rw [hkeep, ite_self]
    · have hnone : w.firing (passes slot) (q slot) = [] := by
        apply filter_eq_nil_iff.mpr
        intro j hj
        obtain ⟨c, hc, -⟩ := (h.mem slot j).mp hj
        rw [hkeep, hc]
        simp
      simp [hnone]
  · have hhead : (w.slots slot).head = (q slot).head? := by rw [h.slots slot]
    simp only [hhead]
    exact h.sweep (l := []) rfl (h.length_le slot) fired

/-- An advance's sweep of a list of slots: every timer with too few laps left fires, once. -/
theorem Repr.sweeps (h : w.Repr q) (passes : ℕ → ℕ) {ss : List ℕ} (hss : ss.Nodup)
    (fired : List UInt64) :
    SweptAll w ss passes (ss.foldl (TimerWheel.sweepSlot passes) (w, fired)).1 ∧
      ∃ is : List ℕ, is.Nodup ∧
        (∀ i, i ∈ is ↔ ∃ c, w.card i = some c ∧ c.slotIndex ∈ ss ∧
          c.passed (passes c.slotIndex) = none) ∧
        (ss.foldl (TimerWheel.sweepSlot passes) (w, fired)).2 = fired ++ is.map w.hashOf := by
  induction ss generalizing w q fired with
  | nil => exact ⟨⟨⟨q, h⟩, .refl w, by simp⟩, [], by simp⟩
  | cons s ss ih =>
    obtain ⟨hs, hss⟩ := nodup_cons.mp hss
    obtain ⟨hone, hfired⟩ := h.sweepSlot passes s fired
    obtain ⟨q₁, h₁⟩ := hone.repr
    obtain ⟨hall, is, his, hmem, hlist⟩ :=
      ih h₁ hss (TimerWheel.sweepSlot passes (w, fired) s).2
    set w₁ := (TimerWheel.sweepSlot passes (w, fired) s).1 with hw₁
    -- a timer of another slot is untouched by the first pass
    have hother : ∀ j c, w.card j = some c → c.slotIndex ≠ s → w₁.card j = some c := by
      intro j c hc hne
      have hj : j ∉ q s := by
        intro hj
        obtain ⟨c', hc', rfl⟩ := (h.mem s j).mp hj
        exact hne (by rw [hc] at hc'; rw [Option.some.inj hc'])
      rw [hone.card j, if_neg hj, hc]
    have hsame : ∀ j c, w.card j = some c → c.slotIndex = s → w₁.card j = c.passed (passes s) := by
      intro j c hc hcs
      rw [hone.card j, if_pos ((h.mem s j).mpr ⟨c, hc, hcs⟩), hc]
      rfl
    have hback : ∀ j c, w₁.card j = some c → c.slotIndex ∈ ss → w.card j = some c := by
      intro j c hc hcs
      cases hj : w.card j with
      | none =>
        have := hone.card j
        simp [hj, hc] at this
      | some c₀ =>
        by_cases hc₀ : c₀.slotIndex = s
        · rw [hsame j c₀ hj hc₀, Card.passed] at hc
          split_ifs at hc with hp
          obtain rfl := Option.some.inj hc
          exact absurd (hc₀ ▸ hcs) hs
        · rw [hother j c₀ hj hc₀] at hc
          exact hc
    refine ⟨⟨hall.repr, hone.clock.trans hall.clock, fun j => ?_⟩,
      w.firing (passes s) (q s) ++ is, ?_, fun i => ?_, ?_⟩
    · rw [foldl_cons, hall.card j]
      cases hj : w.card j with
      | none =>
        have := hone.card j
        simp only [hj, Option.bind_none, ite_self] at this
        simp [this]
      | some c =>
        by_cases hc : c.slotIndex = s
        · rw [hsame j c hj hc]
          simp only [Option.bind_some, mem_cons, hc, true_or, if_true]
          rw [Card.passed]
          split_ifs with hp
          · simp [hc, hs]
          · rfl
        · rw [hother j c hj hc]
          simp [hc]
    · apply Nodup.append ((h.nodup s).filter _) his
      intro i hi hi'
      obtain ⟨c, hc, hcs, -⟩ := (hmem i).mp hi'
      obtain ⟨c', hc', rfl⟩ := (h.mem s i).mp (mem_of_mem_filter hi)
      rw [hback i c hc hcs] at hc'
      exact hs (Option.some.inj hc' ▸ hcs)
    · rw [mem_append, hmem i, firing, mem_filter, h.mem s i]
      constructor
      · rintro (⟨⟨c, hc, rfl⟩, hp⟩ | ⟨c, hc, hcs, hp⟩)
        · exact ⟨c, hc, by simp, by simpa [hc] using hp⟩
        · exact ⟨c, hback i c hc hcs, by simp [hcs], hp⟩
      · rintro ⟨c, hc, hcs, hp⟩
        by_cases hcs' : c.slotIndex = s
        · exact Or.inl ⟨⟨c, hc, hcs'⟩, by simpa [hc, ← hcs'] using hp⟩
        · have hmem' : c.slotIndex ∈ ss := by simpa [hcs'] using hcs
          exact Or.inr ⟨c, hother i c hc hcs', hmem', hp⟩
    · have hmap : is.map w₁.hashOf = is.map w.hashOf := by
        apply map_congr_left
        intro i hi
        obtain ⟨c, hc, hcs, -⟩ := (hmem i).mp hi
        exact hashOf_congr (by rw [hc, hback i c hc hcs])
      rw [foldl_cons, map_append, ← append_assoc, ← hfired, ← hmap]
      exact hlist

end Sweep

end TimerWheel

end Fibre.Cache
