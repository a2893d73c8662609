import Fibre.Math.Machine
import Fibre.Math.Word

/-!
# The Vyukov ring

A bounded queue on an array of slots, each with a stamp. A push claims the next enqueue position, writes
its item into the slot of the position, and publishes it by the stamp; a pop claims the next dequeue
position when its slot is published, takes the item, and frees the slot for the position one lap later.
The array has a power of two of slots, and at least two; the capacity may be less, and a push checks it
against the dequeue position it sees.

Any number of threads push, pop, and ask for the length, each access to the two positions, to a stamp
or to an item being a step of its own. What a thread has loaded may be out of date when it uses it.
-/

namespace Fibre.Channels.Vyukov

/-- `usize::wrapping_add` -/
def wrappingAdd (a b : ℕ) : ℕ := (a + b) % 2 ^ 64

/-- `usize::wrapping_sub` -/
def wrappingSub (a b : ℕ) : ℕ := (a + (2 ^ 64 - b)) % 2 ^ 64

/-- `as isize` -/
def asIsize (a : ℕ) : ℤ := if a < 2 ^ 63 then a else a - 2 ^ 64

/-- `a as isize - b as isize` -/
def diff (a b : ℕ) : ℤ := asIsize a - asIsize b

/-- A slot: its stamp, and its item if it holds one. -/
structure Slot (α : Type*) where
  seq : ℕ
  val : Option α

/-- The array, by index, and the positions. -/
structure Ring (α : Type*) where
  buf : ℕ → Slot α
  mask : ℕ
  cap : ℕ
  enqueuePos : ℕ
  dequeuePos : ℕ

/-- The size of a slot is that of a cache line or more. -/
def cacheLine : ℕ := 64

variable {α : Type*}

/-- A new ring. There is none for capacity zero, nor where the array is too large to be allocated. -/
def Ring.new (α : Type*) (capacity : UInt64) : Option (Ring α) :=
  let phys := (max (Word.nextPowerOfTwo capacity) 2).toNat
  if capacity = 0 ∨ 2 ^ 63 ≤ phys * cacheLine then none
  else some ⟨fun i => ⟨i, none⟩, phys - 1, capacity.toNat, 0, 0⟩

/-- What a call does next. -/
inductive Pc (α : Type*)
  /-- `push`: the load of the enqueue position -/
  | loadTail (item : α)
  /-- the load of the dequeue position, and the check of the capacity -/
  | loadHead (item : α) (pos : ℕ)
  /-- the load of the stamp -/
  | loadStamp (item : α) (pos : ℕ)
  /-- the `compare_exchange_weak` of the enqueue position -/
  | claimTail (item : α) (pos : ℕ)
  /-- the item is written -/
  | write (item : α) (pos : ℕ)
  /-- the stamp is stored -/
  | publish (pos : ℕ)
  /-- `pop`: the load of the dequeue position -/
  | loadPos
  /-- the load of the stamp -/
  | loadSeq (pos : ℕ)
  /-- the `compare_exchange_weak` of the dequeue position -/
  | claimHead (pos : ℕ)
  /-- the item is read -/
  | read (pos : ℕ)
  /-- the stamp is stored -/
  | free (pos : ℕ) (item : Option α)
  /-- `len`: its three loads -/
  | lenHead
  | lenTail (head : ℕ)
  | lenCheck (head tail : ℕ)
  /-- `push` has returned `Ok(())`, or `Err(item)` -/
  | pushed
  | full (item : α)
  /-- `pop` has returned `Some(item)`, or `None` -/
  | popped (item : Option α)
  | empty
  /-- `len` has returned -/
  | counted (n : ℕ)

/-- The call is over. -/
def Pc.ended : Pc α → Bool
  | .pushed | .full _ | .popped _ | .empty | .counted _ => true
  | _ => false

/-- A call, or the drop of the ring, which pops until there is nothing left. -/
structure Party (α : Type*) where
  drops : Bool
  pc : Pc α

namespace Ring

def slot (r : Ring α) (pos : ℕ) : Slot α := r.buf (pos &&& r.mask)

def setSlot (r : Ring α) (pos : ℕ) (slot : Slot α) : Ring α :=
  { r with buf := Function.update r.buf (pos &&& r.mask) slot }

/-- The next access of a call. -/
def access (r : Ring α) (p : Party α) : Option (Ring α × Pc α) :=
  match p.pc with
  | .loadTail item => some (r, .loadHead item r.enqueuePos)
  | .loadHead item pos =>
    if r.cap ≤ wrappingSub pos r.dequeuePos then some (r, .full item)
    else some (r, .loadStamp item pos)
  | .loadStamp item pos =>
    if diff (r.slot pos).seq pos = 0 then some (r, .claimTail item pos)
    else if diff (r.slot pos).seq pos < 0 then some (r, .full item)
    else some (r, .loadTail item)
  | .claimTail item pos =>
    if r.enqueuePos = pos then
      some ({ r with enqueuePos := wrappingAdd pos 1 }, .write item pos)
    else some (r, .loadHead item r.enqueuePos)
  | .write item pos => some (r.setSlot pos { r.slot pos with val := some item }, .publish pos)
  | .publish pos => some (r.setSlot pos { r.slot pos with seq := wrappingAdd pos 1 }, .pushed)
  | .loadPos => some (r, .loadSeq r.dequeuePos)
  | .loadSeq pos =>
    if diff (r.slot pos).seq (wrappingAdd pos 1) = 0 then some (r, .claimHead pos)
    else if diff (r.slot pos).seq (wrappingAdd pos 1) < 0 then some (r, .empty)
    else some (r, .loadPos)
  | .claimHead pos =>
    if r.dequeuePos = pos then some ({ r with dequeuePos := wrappingAdd pos 1 }, .read pos)
    else some (r, .loadSeq r.dequeuePos)
  -- the item is moved out of the slot
  | .read pos => some (r.setSlot pos { r.slot pos with val := none }, .free pos (r.slot pos).val)
  | .free pos item =>
    some (r.setSlot pos { r.slot pos with seq := wrappingAdd (wrappingAdd pos r.mask) 1 },
      if p.drops then .loadPos else .popped item)
  | .lenHead => some (r, .lenTail r.dequeuePos)
  | .lenTail head => some (r, .lenCheck head r.enqueuePos)
  | .lenCheck head tail =>
    if head = r.dequeuePos then some (r, .counted (wrappingSub tail head)) else some (r, .lenHead)
  | _ => none

end Ring

/-- What is called. -/
inductive Op (α : Type*)
  | push (item : α)
  | pop
  | len

/-- The first access of a call. -/
def Op.start : Op α → Pc α
  | .push item => .loadTail item
  | .pop => .loadPos
  | .len => .lenHead

/-- An item was read at a position. -/
structure Take (α : Type*) where
  reader : ℕ
  pos : ℕ
  item : Option α

/-- The ring and the calls, with the history: the items of the enqueue positions, in the order in which
these were claimed, the dequeue positions in that order, and the items as they were read. -/
structure System (α : Type*) where
  ring : Ring α
  parties : List (Party α)
  dropping : Bool
  pushes : List α
  claims : List ℕ
  takes : List (Take α)

/-- A step of the machine. -/
inductive Action (α : Type*)
  | start (op : Op α)
  | step (i : ℕ)
  /-- `compare_exchange_weak` fails spuriously -/
  | spurious (i : ℕ)
  /-- the ring is dropped, which needs it alone -/
  | drop

namespace System

/-- A ring that was not used yet. -/
def init (ring : Ring α) : System α := ⟨ring, [], false, [], [], []⟩

/-- What an access adds to the history. -/
def record (s : System α) (i : ℕ) : Pc α → System α
  | .claimTail item pos =>
    if s.ring.enqueuePos = pos then { s with pushes := s.pushes ++ [item] } else s
  | .claimHead pos => if s.ring.dequeuePos = pos then { s with claims := s.claims ++ [pos] } else s
  | .read pos => { s with takes := s.takes ++ [⟨i, pos, (s.ring.slot pos).val⟩] }
  | _ => s

/-- The party `i` is now at another access. -/
def move (s : System α) (i : ℕ) (p : Party α) (ring : Ring α) (pc : Pc α) : System α :=
  { s.record i p.pc with
    ring := ring
    parties := s.parties.set i { p with pc := pc } }

/-- The system after an action; `none` when it is not possible. -/
def step (s : System α) : Action α → Option (System α)
  | .start op =>
    if s.dropping then none else some { s with parties := s.parties ++ [⟨false, op.start⟩] }
  | .step i => s.parties[i]?.bind fun p =>
    (s.ring.access p).map fun (ring, pc) => s.move i p ring pc
  | .spurious i => s.parties[i]?.bind fun p =>
    match p.pc with
    | .claimTail item _ =>
      some { s with
        parties := s.parties.set i { p with pc := .loadHead item s.ring.enqueuePos } }
    | .claimHead _ =>
      some { s with parties := s.parties.set i { p with pc := .loadSeq s.ring.dequeuePos } }
    | _ => none
  | .drop =>
    if s.dropping = false ∧ s.parties.all fun p => p.pc.ended then
      some { s with dropping := true, parties := s.parties ++ [⟨true, .loadPos⟩] }
    else none

end System

end Fibre.Channels.Vyukov
