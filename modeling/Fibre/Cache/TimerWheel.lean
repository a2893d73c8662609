import Fibre.Math.Word

/-!
# The timer wheel

A shard's TTL timers: a wheel of slots, each a doubly linked list of timers in an arena.
A handle is an arena index, which the arena never hands out twice, so it is a counter here.
-/

namespace Fibre.Cache

open Word Function

/-- A timer, linked into the list of its slot. -/
structure Timer where
  laps : ℕ
  keyHash : UInt64
  slotIndex : ℕ
  prev : Option ℕ
  next : Option ℕ

/-- The list of timers of one slot. -/
structure WheelSlot where
  head : Option ℕ
  tail : Option ℕ

abbrev TimerHandle := ℕ

/-- The wheel. `built` is false until the first timer allocates the slots. -/
structure TimerWheel where
  slots : ℕ → WheelSlot
  built : Bool
  timers : ℕ → Option Timer
  nextIndex : ℕ
  wheelLen : ℕ
  currentTick : ℕ
  tickNs : UInt64
  lastAdvanced : UInt64
  nextDue : UInt64

namespace TimerWheel

/-- An empty wheel. `clock` is the time of the call. -/
def new (wheelSize : ℕ) (tickNs clock : UInt64) : TimerWheel where
  slots _ := ⟨none, none⟩
  built := false
  timers _ := none
  nextIndex := 0
  wheelLen := wheelSize
  currentTick := 0
  tickNs := max tickNs 1
  lastAdvanced := clock
  nextDue := -1

/-- Changes an armed timer. -/
def modify (w : TimerWheel) (i : ℕ) (f : Timer → Timer) : TimerWheel :=
  { w with timers := update w.timers i ((w.timers i).map f) }

def modifySlot (w : TimerWheel) (slot : ℕ) (f : WheelSlot → WheelSlot) : TimerWheel :=
  { w with slots := update w.slots slot (f (w.slots slot)) }

/-- Arms a timer that fires on the first advance at or after `expiresAt`. -/
def schedule (w : TimerWheel) (clock keyHash expiresAt : UInt64) : TimerHandle × TimerWheel :=
  let w := if w.built then w else
    { w with built := true, slots := fun _ => ⟨none, none⟩, lastAdvanced := clock }
  let ticks := max (divCeil (satSub expiresAt w.lastAdvanced) w.tickNs).toNat 1
  let offset := ticks - 1
  let slot := (w.currentTick + offset) % w.wheelLen
  let index := w.nextIndex
  let head := (w.slots slot).head
  let timer : Timer := ⟨offset / w.wheelLen, keyHash, slot, none, head⟩
  let w := { w with
    timers := update w.timers index (some timer)
    nextIndex := index + 1 }
  let w := match head with
    | none => w
    | some old => w.modify old fun t => { t with prev := some index }
  let w := w.modifySlot slot fun s =>
    { head := some index, tail := if s.tail = none then some index else s.tail }
  let due := satAdd w.lastAdvanced (UInt64.ofNat ticks * w.tickNs)
  (index, { w with nextDue := min w.nextDue due })

/-- Takes a timer that is gone from the arena out of its slot's list. -/
def unlink (w : TimerWheel) (slot : ℕ) (prev next : Option ℕ) : TimerWheel :=
  let w := match prev with
    | some p => w.modify p fun t => { t with next := next }
    | none => w.modifySlot slot fun s => { s with head := next }
  match next with
  | some n => w.modify n fun t => { t with prev := prev }
  | none => w.modifySlot slot fun s => { s with tail := prev }

/-- Removes a timer. A handle whose timer already fired is ignored. -/
def cancel (w : TimerWheel) (handle : TimerHandle) : TimerWheel :=
  match w.timers handle with
  | none => w
  | some t =>
    { w with timers := update w.timers handle none : TimerWheel }.unlink
      t.slotIndex t.prev t.next

/-- Whether a handle's timer has not fired. -/
def isArmed (w : TimerWheel) (handle : TimerHandle) : Bool := (w.timers handle).isSome

/-- Removes every timer. -/
def clear (w : TimerWheel) : TimerWheel :=
  { w with timers := fun _ => none, slots := fun _ => ⟨none, none⟩, nextDue := -1 }

/-- The walk over one slot's list, for at most `fuel` timers: a timer with at least `passes`
laps left stays, the others fire. -/
def sweep (slot passes : ℕ) : ℕ → Option ℕ → TimerWheel → List UInt64 → TimerWheel × List UInt64
  | 0, _, w, fired => (w, fired)
  | _, none, w, fired => (w, fired)
  | fuel + 1, some i, w, fired =>
    match w.timers i with
    | none => (w, fired)
    | some t =>
      if passes ≤ t.laps then
        sweep slot passes fuel t.next (w.modify i fun t => { t with laps := t.laps - passes }) fired
      else
        let w := { w with timers := update w.timers i none }
        sweep slot passes fuel t.next (w.unlink slot t.prev t.next) (fired ++ [t.keyHash])

/-- Moves the wheel to `now` and returns the key hashes of the timers that fired. -/
def advance (w : TimerWheel) (now : UInt64) : List UInt64 × TimerWheel :=
  let ticksDue := (satSub now w.lastAdvanced / w.tickNs).toNat
  if ¬ w.built ∨ ticksDue = 0 then ([], w) else
  let startSlot := w.currentTick % w.wheelLen
  let fullLaps := ticksDue / w.wheelLen
  let remainder := ticksDue % w.wheelLen
  let w := { w with
    lastAdvanced := w.lastAdvanced + UInt64.ofNat ticksDue * w.tickNs
    currentTick := w.currentTick + ticksDue }
  let r := (List.range w.wheelLen).foldl (fun (r : TimerWheel × List UInt64) slot =>
    let rel := (slot + w.wheelLen - startSlot) % w.wheelLen
    let passes := fullLaps + if rel < remainder then 1 else 0
    if passes = 0 then r else sweep slot passes r.1.nextIndex (r.1.slots slot).head r.1 r.2) (w, [])
  let w := r.1
  let next := match (List.range w.wheelLen).find? fun off =>
      ((w.slots ((w.currentTick + off) % w.wheelLen)).head).isSome with
    | none => -1
    | some off => w.lastAdvanced + (UInt64.ofNat off + 1) * w.tickNs
  (r.2, { w with nextDue := next })

end TimerWheel

end Fibre.Cache
