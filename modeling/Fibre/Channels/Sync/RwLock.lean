import Fibre.Math.Machine
import Fibre.Math.Crew
import Fibre.Channels.Sync.WaitList

/-!
# The hybrid read-write lock

Any number of parties take and release one lock, each access to its state word, to the list's
spinlock and to a node's state being a step of its own. What a party does to the list while it
holds the spinlock is one step: nobody else sees it half done.

A party is one acquisition: a blocking one, a future, or a single attempt. It tries the state word
a few times, then it queues its node and looks once more before it waits. A future may be polled
at any time and dropped while it is pending. Whoever is woken tries again; a woken writer stays
queued, so that new readers do not get past it.

Handles are called after the spinlock is released.
-/

namespace Fibre.Channels.Sync

open Function Option

/-- The state word: `WRITE_LOCKED`, `WRITER_PENDING`, `HAS_QUEUED`, and the readers above them. -/
structure Word where
  writeLocked : Bool
  writerPending : Bool
  hasQueued : Bool
  readers : ℕ
  deriving DecidableEq

inductive Kind
  | reader
  | writer
  deriving DecidableEq

namespace Word

def free (w : Word) : Bool := !w.writeLocked && w.readers = 0

/-- The test before an acquisition: the flags, or the write lock and the readers. -/
def blocked (w : Word) : Kind → Bool
  | .reader => w.writeLocked || w.writerPending
  | .writer => w.writeLocked || w.readers ≠ 0

/-- `s + READER_UNIT` or `s | WRITE_LOCKED` -/
def acquire (w : Word) : Kind → Word
  | .reader => { w with readers := w.readers + 1 }
  | .writer => { w with writeLocked := true }

/-- `fetch_sub(READER_UNIT)` or `fetch_and(!WRITE_LOCKED)` -/
def release (w : Word) : Kind → Word
  | .reader => { w with readers := w.readers - 1 }
  | .writer => { w with writeLocked := false }

/-- Who releases a lock from this word wakes the waiters. -/
def wakes (w : Word) : Kind → Bool
  | .reader => w.readers = 1 && w.hasQueued
  | .writer => w.hasQueued

/-- `fetch_or(HAS_QUEUED)` or `fetch_or(HAS_QUEUED | WRITER_PENDING)` -/
def raise (w : Word) : Kind → Word
  | .reader => { w with hasQueued := true }
  | .writer => { w with hasQueued := true, writerPending := true }

end Word

/-- A blocking acquisition, a future, or `try_read` and `try_write`. -/
inductive Mode
  | sync
  | async
  | once
  deriving DecidableEq

/-- `SPIN_YIELDS` -/
def spinYields : ℕ := 100

/-- `POLL_ATTEMPTS` -/
def pollAttempts : ℕ := 4

/-- What the list's spinlock is taken for. -/
inductive Entry
  /-- to queue -/
  | arm
  /-- an attempt has acquired: to take the node out -/
  | finish
  /-- a future is dropped -/
  | cancel
  /-- `wake_waiters` -/
  | wake
  deriving DecidableEq

/-- What follows when the spinlock is released. -/
inductive After
  | park
  | hold
  /-- `Drop` looks at the node's state -/
  | dropped
  /-- the handles are called -/
  | call (wakes : List Waiter)
  deriving DecidableEq

/-- Where a party is: the access it makes next. -/
inductive Pc
  /-- the load of an attempt; `n` more follow -/
  | attempt (n : ℕ)
  /-- its `compare_exchange` -/
  | compare (n : ℕ) (s : Word)
  /-- `waiters.lock()` -/
  | lockList (e : Entry)
  /-- it holds the spinlock -/
  | inside (e : Entry)
  /-- `fetch_or`, with the node queued -/
  | raise
  /-- the load of the recheck -/
  | recheck
  /-- its `compare_exchange` -/
  | recompare (s : Word)
  /-- the recheck has acquired: the node is taken out -/
  | won
  /-- the loop of `wake_waiters` over the readers, at `cur` -/
  | popReaders (cur : Option ℕ) (wakes : List Waiter)
  /-- `fix_flags`, the first half -/
  | fixPending (a : After)
  /-- `fix_flags`, the second half -/
  | fixQueued (a : After)
  /-- the spinlock is released -/
  | leave (a : After)
  /-- a parked thread, or a pending future -/
  | parked
  /-- it has the guard -/
  | holding
  /-- a dropped future loads the node's state -/
  | dropped
  /-- `wake` on the handles that were taken -/
  | call (wakes : List Waiter)
  | done
  deriving DecidableEq

/-- What is done without the spinlock. -/
def After.pc : After → Pc
  | .park => .parked
  | .hold => .holding
  | .dropped => .dropped
  | .call wakes => .call wakes

/-- What follows once the node is taken out. -/
def Entry.after : Entry → After
  | .cancel => .dropped
  | _ => .hold

structure Party where
  kind : Kind
  mode : Mode
  /-- the local variable `linked` of a blocking writer; of a future, that it has a node -/
  hasNode : Bool
  pc : Pc
  deriving DecidableEq

namespace Party

/-- Another attempt, the queue, or, for a single attempt, the end. -/
def failed (p : Party) (n : ℕ) : Party :=
  { p with pc :=
      if n = 0 then if p.mode = .once then .done else .lockList .arm else .attempt (n - 1) }

/-- The queue is entered with a link, unless the node is linked already. A blocking reader never
is, a blocking writer has noted it, and a future asks the list. -/
def links (p : Party) (linked : Bool) : Bool :=
  match p.mode, p.kind with
  | .sync, .reader => true
  | .sync, .writer => !p.hasNode
  | _, _ => !linked

/-- An attempt has acquired: a node that may be queued is taken out first. -/
def acquired (p : Party) : Party :=
  { p with pc := if p.hasNode ∧ ¬ (p.mode = .sync ∧ p.kind = .reader) then .lockList .finish
    else .holding }

end Party

/-- The state word and the list; `round` numbers the handle a waiter has registered last, and
`called` are the handles `wake` was called on. -/
structure Core where
  word : Word
  locked : Bool
  list : WaitList
  round : ℕ → ℕ
  called : List Waiter

namespace Core

/-- A party begins, with a node that is not linked. -/
def enter (c : Core) (i : ℕ) (kind : Kind) : Core :=
  { c with list := c.list.create i (kind = .writer) ⟨i, c.round i⟩ }

/-- The node is armed with a new handle, and linked. -/
def arm (c : Core) (i : ℕ) (p : Party) : Core :=
  let round := c.round i + 1
  let list := c.list.rearm i ⟨i, round⟩
  { c with
    list := if p.links (list.nodes i).linked then list.linkBack i else list
    round := update c.round i round }

/-- The next access of the party `i`. -/
def access (c : Core) (i : ℕ) (p : Party) : Option (Core × Party) :=
  match p.pc with
  | .attempt n =>
    if c.word.blocked p.kind then some (c, p.failed n)
    else some (c, { p with pc := .compare n c.word })
  | .compare n s =>
    if c.word = s then some ({ c with word := s.acquire p.kind }, p.acquired)
    else some (c, p.failed n)
  | .lockList e =>
    if c.locked then none else some ({ c with locked := true }, { p with pc := .inside e })
  | .inside .arm => some (c.arm i p, { p with hasNode := true, pc := .raise })
  | .raise => some ({ c with word := c.word.raise p.kind }, { p with pc := .recheck })
  | .recheck =>
    if c.word.blocked p.kind then some (c, { p with pc := .leave .park })
    else some (c, { p with pc := .recompare c.word })
  | .recompare s =>
    if c.word = s then some ({ c with word := s.acquire p.kind }, { p with pc := .won })
    else some (c, { p with pc := .recheck })
  | .won =>
    some ({ c with list := (c.list.unlink i).2 }, { p with pc := .fixPending .hold })
  | .inside .finish =>
    let r := c.list.unlink i
    -- a blocking writer fixes the flags in any case
    some ({ c with list := r.2 },
      { p with pc := if r.1 ∨ p.mode = .sync then .fixPending .hold else .leave .hold })
  | .inside .cancel =>
    let r := c.list.unlink i
    some ({ c with list := r.2 },
      { p with pc := if r.1 then .fixPending .dropped else .leave .dropped })
  | .inside .wake =>
    if c.list.writers > 0 then
      match c.list.firstWriter with
      | some j =>
        let r := c.list.takeAndMarkWoken j
        some ({ c with list := r.2 }, { p with pc := .leave (.call r.1.toList) })
      | none => none
    else some (c, { p with pc := .popReaders c.list.head [] })
  | .popReaders (some j) wakes =>
    let next := (c.list.nodes j).next
    let r := c.list.pop j
    some ({ c with list := r.2 }, { p with pc := .popReaders next (wakes ++ r.1.toList) })
  | .popReaders none wakes => some (c, { p with pc := .fixPending (.call wakes) })
  | .fixPending a =>
    some ({ c with word := { c.word with writerPending := c.list.writers ≠ 0 } },
      { p with pc := .fixQueued a })
  | .fixQueued a =>
    some ({ c with word := { c.word with hasQueued := !c.list.isEmpty } },
      { p with pc := .leave a })
  | .leave a => some ({ c with locked := false }, { p with pc := a.pc })
  | .parked =>
    match p.mode with
    -- the loop around `park`
    | .sync =>
      if (c.list.nodes i).state = .woken then
        some (c, { p with pc := .attempt (spinYields - 1) })
      else some (c, p)
    -- a poll
    | _ => some (c, { p with pc := .attempt (pollAttempts - 1) })
  | .holding =>
    some ({ c with word := c.word.release p.kind },
      { p with pc := if c.word.wakes p.kind then .lockList .wake else .done })
  | .dropped =>
    if (c.list.nodes i).state = .woken then some (c, { p with pc := .lockList .wake })
    else some (c, { p with pc := .done })
  | .call (w :: wakes) => some ({ c with called := w :: c.called }, { p with pc := .call wakes })
  | .call [] => some (c, { p with pc := .done })
  | .done => none

/-- What an access does, by the place the party is at. -/
inductive Move (c : Core) (i : ℕ) (p : Party) : Core → Party → Prop
  | fail {n : ℕ} : (p.pc = .attempt n ∨ ∃ s, p.pc = .compare n s) → Move c i p c (p.failed n)
  | look {n : ℕ} : p.pc = .attempt n → c.word.blocked p.kind = false →
      Move c i p c { p with pc := .compare n c.word }
  | acquire {n : ℕ} : p.pc = .compare n c.word →
      Move c i p { c with word := c.word.acquire p.kind } p.acquired
  | lock {e : Entry} : p.pc = .lockList e → c.locked = false →
      Move c i p { c with locked := true } { p with pc := .inside e }
  | arm : p.pc = .inside .arm → Move c i p (c.arm i p) { p with hasNode := true, pc := .raise }
  | raise : p.pc = .raise →
      Move c i p { c with word := c.word.raise p.kind } { p with pc := .recheck }
  | block : p.pc = .recheck → c.word.blocked p.kind = true →
      Move c i p c { p with pc := .leave .park }
  | relook : p.pc = .recheck → c.word.blocked p.kind = false →
      Move c i p c { p with pc := .recompare c.word }
  | miss {s : Word} : p.pc = .recompare s → Move c i p c { p with pc := .recheck }
  | win : p.pc = .recompare c.word →
      Move c i p { c with word := c.word.acquire p.kind } { p with pc := .won }
  | won : p.pc = .won →
      Move c i p { c with list := (c.list.unlink i).2 } { p with pc := .fixPending .hold }
  | unlink {e : Entry} : p.pc = .inside e → e = .finish ∨ e = .cancel →
      Move c i p { c with list := (c.list.unlink i).2 } { p with pc := .fixPending e.after }
  | skip {e : Entry} : p.pc = .inside e → e = .finish ∨ e = .cancel →
      (c.list.unlink i).1 = false →
      Move c i p { c with list := (c.list.unlink i).2 } { p with pc := .leave e.after }
  | wakeWriter {j : ℕ} : p.pc = .inside .wake → 0 < c.list.writers →
      c.list.firstWriter = some j →
      Move c i p { c with list := (c.list.takeAndMarkWoken j).2 }
        { p with pc := .leave (.call (c.list.takeAndMarkWoken j).1.toList) }
  | wakeReaders : p.pc = .inside .wake → c.list.writers = 0 →
      Move c i p c { p with pc := .popReaders c.list.head [] }
  | pop {j : ℕ} {wakes : List Waiter} : p.pc = .popReaders (some j) wakes →
      Move c i p { c with list := (c.list.pop j).2 }
        { p with pc := .popReaders (c.list.nodes j).next (wakes ++ (c.list.pop j).1.toList) }
  | popped {wakes : List Waiter} : p.pc = .popReaders none wakes →
      Move c i p c { p with pc := .fixPending (.call wakes) }
  | fixPending {a : After} : p.pc = .fixPending a →
      Move c i p { c with word := { c.word with writerPending := c.list.writers ≠ 0 } }
        { p with pc := .fixQueued a }
  | fixQueued {a : After} : p.pc = .fixQueued a →
      Move c i p { c with word := { c.word with hasQueued := !c.list.isEmpty } }
        { p with pc := .leave a }
  | leave {a : After} : p.pc = .leave a →
      Move c i p { c with locked := false } { p with pc := a.pc }
  | retry {n : ℕ} : p.pc = .parked → (p.mode = .sync → (c.list.nodes i).state = .woken) →
      Move c i p c { p with pc := .attempt n }
  | sleep : p.pc = .parked → Move c i p c p
  | release : p.pc = .holding → Move c i p { c with word := c.word.release p.kind }
      { p with pc := if c.word.wakes p.kind then .lockList .wake else .done }
  | pass : p.pc = .dropped → (c.list.nodes i).state = .woken →
      Move c i p c { p with pc := .lockList .wake }
  | finish : (p.pc = .dropped ∧ (c.list.nodes i).state ≠ .woken) ∨ p.pc = .call [] →
      Move c i p c { p with pc := .done }
  | call {w : Waiter} {wakes : List Waiter} : p.pc = .call (w :: wakes) →
      Move c i p { c with called := w :: c.called } { p with pc := .call wakes }
  | drop : p.mode = .async → p.pc = .parked → Move c i p c { p with pc := .lockList .cancel }

theorem move_of_access {c c' : Core} {i : ℕ} {p p' : Party}
    (h : c.access i p = some (c', p')) : Move c i p c' p' := by
  unfold access at h
  split at h
  case h_1 n hpc =>
    split_ifs at h with hb
    · cases h
      exact .fail (.inl hpc)
    · cases h
      exact .look hpc (by simpa using hb)
  case h_2 n s hpc =>
    split_ifs at h with hs
    · cases h
      subst hs
      exact .acquire hpc
    · cases h
      exact .fail (.inr ⟨s, hpc⟩)
  case h_3 e hpc =>
    split_ifs at h with hl
    cases h
    exact .lock hpc (by simpa using hl)
  case h_4 hpc =>
    cases h
    exact .arm hpc
  case h_5 hpc =>
    cases h
    exact .raise hpc
  case h_6 hpc =>
    split_ifs at h with hb
    · cases h
      exact .block hpc hb
    · cases h
      exact .relook hpc (by simpa using hb)
  case h_7 s hpc =>
    split_ifs at h with hs
    · cases h
      subst hs
      exact .win hpc
    · cases h
      exact .miss hpc
  case h_8 hpc =>
    cases h
    exact .won hpc
  case h_9 hpc =>
    dsimp only at h
    split_ifs at h with hr
    · cases h
      exact .unlink hpc (.inl rfl)
    · cases h
      exact .skip hpc (.inl rfl) (by simpa using fun he => hr (.inl he))
  case h_10 hpc =>
    dsimp only at h
    split_ifs at h with hr
    · cases h
      exact .unlink hpc (.inr rfl)
    · cases h
      exact .skip hpc (.inr rfl) (by simpa using hr)
  case h_11 hpc =>
    split_ifs at h with hw
    · split at h
      case h_1 j hj =>
        cases h
        exact .wakeWriter hpc hw hj
      case h_2 => cases h
    · cases h
      exact .wakeReaders hpc (by omega)
  case h_12 j wakes hpc =>
    cases h
    exact .pop hpc
  case h_13 wakes hpc =>
    cases h
    exact .popped hpc
  case h_14 a hpc =>
    cases h
    exact .fixPending hpc
  case h_15 a hpc =>
    cases h
    exact .fixQueued hpc
  case h_16 a hpc =>
    cases h
    exact .leave hpc
  case h_17 hpc =>
    split at h
    case h_1 hmode =>
      split_ifs at h with hw
      · cases h
        exact .retry hpc fun _ => hw
      · cases h
        exact .sleep hpc
    case h_2 hmode =>
      cases h
      exact .retry hpc fun he => absurd he hmode
  case h_18 hpc =>
    cases h
    exact .release hpc
  case h_19 hpc =>
    split_ifs at h with hw
    · cases h
      exact .pass hpc hw
    · cases h
      exact .finish (.inl ⟨hpc, hw⟩)
  case h_20 w wakes hpc =>
    cases h
    exact .call hpc
  case h_21 hpc =>
    cases h
    exact .finish (.inr hpc)
  case h_22 => cases h

end Core

/-- The lock and the parties. -/
structure System where
  core : Core
  parties : List Party

/-- A step of the machine. -/
inductive Action
  | start (kind : Kind) (mode : Mode)
  | step (i : ℕ)
  /-- `compare_exchange_weak` fails spuriously -/
  | spurious (i : ℕ)
  /-- a pending future is dropped -/
  | drop (i : ℕ)
  deriving DecidableEq

namespace System

def init : System := ⟨⟨⟨false, false, false, 0⟩, false, .new, fun _ => 0, []⟩, []⟩

/-- The attempts before the first wait: the fast path's, and those of the slow path. -/
def attempts : Mode → ℕ
  | .sync => spinYields
  | .async => pollAttempts
  | .once => 0

/-- The system after an action; `none` when it is not possible. -/
def step (s : System) : Action → Option System
  | .start kind mode =>
    some ⟨s.core.enter s.parties.length kind,
      s.parties ++ [⟨kind, mode, false, .attempt (attempts mode)⟩]⟩
  | .step i => s.parties[i]?.bind fun p => (s.core.access i p).map fun (core, p) =>
      ⟨core, s.parties.set i p⟩
  | .spurious i => s.parties[i]?.bind fun p =>
      match p.pc with
      | .compare n _ =>
        if p.kind = .reader ∧ p.mode ≠ .once then
          some { s with parties := s.parties.set i (p.failed n) }
        else none
      | _ => none
  | .drop i => s.parties[i]?.bind fun p =>
      if p.mode = .async ∧ p.pc = .parked then
        some { s with parties := s.parties.set i { p with pc := .lockList .cancel } }
      else none

variable {s s' : System} {a : Action}

theorem step_cases (h : s.step a = some s') :
    (∃ kind mode, s' = ⟨s.core.enter s.parties.length kind,
        s.parties ++ [⟨kind, mode, false, .attempt (attempts mode)⟩]⟩) ∨
      ∃ i p c' p', s.parties[i]? = some p ∧ s.core.Move i p c' p' ∧
        s' = ⟨c', s.parties.set i p'⟩ := by
  cases a with
  | start kind mode => exact .inl ⟨kind, mode, by simpa [step] using h.symm⟩
  | step i =>
    obtain ⟨p, hp, h⟩ := bind_eq_some_iff.mp h
    obtain ⟨⟨c', p'⟩, hmove, rfl⟩ := map_eq_some_iff.mp h
    exact .inr ⟨i, p, c', p', hp, Core.move_of_access hmove, rfl⟩
  | spurious i =>
    obtain ⟨p, hp, h⟩ := bind_eq_some_iff.mp h
    split at h
    case h_1 n w hpc =>
      split_ifs at h
      cases h
      exact .inr ⟨i, p, _, _, hp, .fail (.inr ⟨w, hpc⟩), rfl⟩
    case h_2 => cases h
  | drop i =>
    obtain ⟨p, hp, h⟩ := bind_eq_some_iff.mp h
    split_ifs at h with hdrop
    cases h
    exact .inr ⟨i, p, _, _, hp, .drop hdrop.1 hdrop.2, rfl⟩

end System

end Fibre.Channels.Sync
