import Mathlib.Data.Nat.Notation
import Mathlib.Logic.Function.Basic

/-!
# The left-right primitive

Two copies of the data. Readers pin the live one; a writer changes the other one, makes it the live
one, waits until nobody pins the old one, and changes that one too.
-/

namespace Fibre.Channels

open Function

/-- The dual buffers, with the index `false` for the first. -/
structure LeftRight (α : Type*) where
  liveIdx : Bool
  activeReaders : Bool → ℕ
  data : Bool → α

namespace LeftRight

variable {α : Type*} (l : LeftRight α)

def pin (idx : Bool) : LeftRight α :=
  { l with activeReaders := update l.activeReaders idx (l.activeReaders idx + 1) }

/-- Counts a reader out. -/
def unpin (idx : Bool) : LeftRight α :=
  { l with activeReaders := update l.activeReaders idx (l.activeReaders idx - 1) }

/-- Applies `f` to the copy that is not live: the first and, once the index is swapped, the last
step of `modify`. -/
def mutate (f : α → α) : LeftRight α :=
  { l with data := update l.data (!l.liveIdx) (f (l.data (!l.liveIdx))) }

/-- Swaps the live index. -/
def publish : LeftRight α :=
  { l with liveIdx := !l.liveIdx }

/-- Nobody reads the copy that is not live. -/
def drained : Bool :=
  l.activeReaders (!l.liveIdx) = 0

theorem activeReaders_pin {l : LeftRight α} (idx : Bool) (h : ∀ i, l.activeReaders i = 0)
    (i : Bool) : (l.pin idx).activeReaders i = if idx = i then 1 else 0 := by
  by_cases hi : i = idx
  · subst hi
    simp [pin, h]
  · simp [pin, hi, h, Ne.symm hi]

theorem activeReaders_unpin {l : LeftRight α} {idx : Bool}
    (h : ∀ i, l.activeReaders i = if idx = i then 1 else 0) (i : Bool) :
    (l.unpin idx).activeReaders i = 0 := by
  by_cases hi : i = idx
  · subst hi
    simp [unpin, h]
  · simp [unpin, hi, h, Ne.symm hi]

end LeftRight

end Fibre.Channels
