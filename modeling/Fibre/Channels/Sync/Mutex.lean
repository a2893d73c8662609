import Fibre.Channels.Sync.RwWakes

/-!
# The hybrid mutex

The mutex is the writers' half of the read-write lock: the same attempts, the same wait list, and the
same look at the word before a waiter parks. Its word has two bits, so that one access fixes what the
lock fixes in two, and the wake goes to the head of the queue, all of whose nodes are alike.

Each step of the mutex is one of the lock with writers only, or two or three of them one after another.
So what holds of the lock in every reachable state holds of the mutex.
-/

namespace Fibre.Channels.Sync.Mutex

open Function Machine Option List

/-- The state word: `LOCKED` and `HAS_QUEUED`. -/
structure Word where
  locked : Bool
  hasQueued : Bool
  deriving DecidableEq

/-- Where a party is: the access it makes next. -/
inductive Pc
  /-- the load of `try_acquire`; `n` more attempts follow -/
  | attempt (n : ℕ)
  /-- its `compare_exchange` -/
  | compare (n : ℕ) (s : Word)
  /-- `waiters.lock()` -/
  | lockList (e : Entry)
  /-- it holds the spinlock -/
  | inside (e : Entry)
  /-- `fetch_or`, with the node queued -/
  | raise
  /-- the load of the recheck -/
  | recheck
  /-- its `compare_exchange` -/
  | recompare (s : Word)
  /-- the recheck has acquired: the node is taken out -/
  | won
  /-- `fix_flags` -/
  | fixFlags (a : After)
  /-- the spinlock is released -/
  | leave (a : After)
  /-- a parked thread, or a pending future -/
  | parked
  /-- it has the guard -/
  | holding
  /-- a dropped future loads the node's state -/
  | dropped
  /-- `wake` on the handle that was taken -/
  | call (wakes : List Waiter)
  | done
  deriving DecidableEq

/-- What is done without the spinlock. -/
def afterPc : After → Pc
  | .park => .parked
  | .hold => .holding
  | .dropped => .dropped
  | .call wakes => .call wakes

/-- One acquisition. -/
structure Party where
  mode : Mode
  /-- the local variable `linked` of a blocking acquisition; of a future, that it has a node -/
  hasNode : Bool
  pc : Pc
  deriving DecidableEq

namespace Party

/-- Another attempt, the queue, or, for `try_lock`, the end. -/
def failed (p : Party) (n : ℕ) : Party :=
  { p with pc :=
      if n = 0 then if p.mode = .once then .done else .lockList .arm else .attempt (n - 1) }

/-- The queue is entered with a link, unless the node is linked already. -/
def links (p : Party) (linked : Bool) : Bool :=
  match p.mode with
  | .sync => !p.hasNode
  | _ => !linked

/-- An attempt has acquired: a node is taken out first. -/
def acquired (p : Party) : Party :=
  { p with pc := if p.hasNode then .lockList .finish else .holding }

end Party

/-- The state word and the list. -/
structure Core where
  word : Word
  locked : Bool
  list : WaitList
  round : ℕ → ℕ
  called : List Waiter

namespace Core

/-- A party begins, with a node that is not linked. -/
def enter (c : Core) (i : ℕ) : Core := { c with list := c.list.create i true ⟨i, c.round i⟩ }

/-- The node is armed with a new handle, and linked. -/
def arm (c : Core) (i : ℕ) (p : Party) : Core :=
  let round := c.round i + 1
  let list := c.list.rearm i ⟨i, round⟩
  { c with
    list := if p.links (list.nodes i).linked then list.linkBack i else list
    round := update c.round i round }

/-- The next access of the party `i`. -/
def access (c : Core) (i : ℕ) (p : Party) : Option (Core × Party) :=
  match p.pc with
  | .attempt n =>
    if c.word.locked then some (c, p.failed n) else some (c, { p with pc := .compare n c.word })
  | .compare n s =>
    if c.word = s then some ({ c with word := { s with locked := true } }, p.acquired)
    else some (c, p.failed n)
  | .lockList e =>
    if c.locked then none else some ({ c with locked := true }, { p with pc := .inside e })
  | .inside .arm => some (c.arm i p, { p with hasNode := true, pc := .raise })
  | .raise =>
    some ({ c with word := { c.word with hasQueued := true } }, { p with pc := .recheck })
  | .recheck =>
    if c.word.locked then some (c, { p with pc := .leave .park })
    else some (c, { p with pc := .recompare c.word })
  | .recompare s =>
    if c.word = s then some ({ c with word := { s with locked := true } }, { p with pc := .won })
    else some (c, { p with pc := .recheck })
  | .won => some ({ c with list := (c.list.unlink i).2 }, { p with pc := .fixFlags .hold })
  | .inside .finish =>
    let r := c.list.unlink i
    -- a blocking acquisition fixes the flags in any case
    some ({ c with list := r.2 },
      { p with pc := if r.1 ∨ p.mode = .sync then .fixFlags .hold else .leave .hold })
  | .inside .cancel =>
    let r := c.list.unlink i
    some ({ c with list := r.2 },
      { p with pc := if r.1 then .fixFlags .dropped else .leave .dropped })
  | .inside .wake =>
    match c.list.head with
    | none => some (c, { p with pc := .fixFlags (.call []) })
    | some j =>
      let r := c.list.takeAndMarkWoken j
      some ({ c with list := r.2 }, { p with pc := .leave (.call r.1.toList) })
  | .fixFlags a =>
    some ({ c with word := { c.word with hasQueued := !c.list.isEmpty } },
      { p with pc := .leave a })
  | .leave a => some ({ c with locked := false }, { p with pc := afterPc a })
  | .parked =>
    match p.mode with
    -- the loop around `park`
    | .sync =>
      if (c.list.nodes i).state = .woken then
        some (c, { p with pc := .attempt (spinYields - 1) })
      else some (c, p)
    -- a poll
    | _ => some (c, { p with pc := .attempt (pollAttempts - 1) })
  | .holding =>
    some ({ c with word := { c.word with locked := false } },
      { p with pc := if c.word.hasQueued then .lockList .wake else .done })
  | .dropped =>
    if (c.list.nodes i).state = .woken then some (c, { p with pc := .lockList .wake })
    else some (c, { p with pc := .done })
  | .call (w :: wakes) => some ({ c with called := w :: c.called }, { p with pc := .call wakes })
  | .call [] => some (c, { p with pc := .done })
  | .done => none

end Core

/-- The mutex and the parties. -/
structure System where
  core : Core
  parties : List Party

/-- A step of the machine. -/
inductive Action
  | start (mode : Mode)
  | step (i : ℕ)
  /-- a pending future is dropped -/
  | drop (i : ℕ)
  deriving DecidableEq

namespace System

def init : System := ⟨⟨⟨false, false⟩, false, .new, fun _ => 0, []⟩, []⟩

/-- The system after an action; `none` when it is not possible. -/
def step (s : System) : Action → Option System
  | .start mode =>
    some ⟨s.core.enter s.parties.length,
      s.parties ++ [⟨mode, false, .attempt (Sync.System.attempts mode)⟩]⟩
  | .step i => s.parties[i]?.bind fun p => (s.core.access i p).map fun (core, p) =>
      ⟨core, s.parties.set i p⟩
  | .drop i => s.parties[i]?.bind fun p =>
      if p.mode = .async ∧ p.pc = .parked then
        some { s with parties := s.parties.set i { p with pc := .lockList .cancel } }
      else none

end System

/-! ### What the mutex promises -/

/-- It has acquired the mutex and has not released it. -/
def Pc.owns : Pc → Bool
  | .lockList .finish | .inside .finish | .won => true
  | .fixFlags .hold | .leave .hold | .holding => true
  | _ => false

/-- It is between the steps of no operation: it waits, has the guard, or is over. -/
def Pc.rests : Pc → Bool
  | .parked | .holding | .done => true
  | _ => false

namespace System

/-- A queued waiter has been woken, its handle was called, and it has yet to resume. -/
def Resumes (s : System) (j : ℕ) : Prop :=
  (s.core.list.nodes j).state = .woken ∧ ⟨j, s.core.round j⟩ ∈ s.core.called ∧
    ∃ p : Party, s.parties[j]? = some p ∧ p.pc = .parked

/-- What the mutex promises of a state. -/
structure Kept (s : System) : Prop where
  /-- one party at a time has it, from the `compare_exchange` on -/
  excludes : ∀ (i j : ℕ) (p q : Party), s.parties[i]? = some p → s.parties[j]? = some q →
    p.pc.owns = true → q.pc.owns = true → i = j
  /-- the flag agrees with the queue while nobody holds its spinlock -/
  flag : s.core.locked = false → (s.core.word.hasQueued = true ↔ s.core.list.waiters ≠ [])
  /-- nobody is forgotten -/
  attended : (∀ p ∈ s.parties, p.pc.rests = true) → s.core.word.locked = false →
    s.core.list.waiters = [] ∨ ∃ j ∈ s.core.list.waiters, s.Resumes j

end System

/-! ### The lock that a mutex is -/

/-- Where writers are queued, the lock has two flags for the one of the mutex. -/
def Word.image (w : Word) : Sync.Word := ⟨w.locked, w.hasQueued, w.hasQueued, 0⟩

def Pc.image : Pc → Sync.Pc
  | .attempt n => .attempt n
  | .compare n s => .compare n s.image
  | .lockList e => .lockList e
  | .inside e => .inside e
  | .raise => .raise
  | .recheck => .recheck
  | .recompare s => .recompare s.image
  | .won => .won
  | .fixFlags a => .fixPending a
  | .leave a => .leave a
  | .parked => .parked
  | .holding => .holding
  | .dropped => .dropped
  | .call wakes => .call wakes
  | .done => .done

def Party.image (p : Party) : Sync.Party := ⟨.writer, p.mode, p.hasNode, p.pc.image⟩

def Core.image (c : Core) : Sync.Core := ⟨c.word.image, c.locked, c.list, c.round, c.called⟩

def System.image (s : System) : Sync.System := ⟨s.core.image, s.parties.map Party.image⟩

variable {c c' : Core} {s s' : System} {i j : ℕ} {p p' : Party}

theorem Word.image_inj {w w' : Word} : w.image = w'.image ↔ w = w' := by
  constructor
  · intro h
    have hlocked : w.locked = w'.locked := congrArg Sync.Word.writeLocked h
    have hqueued : w.hasQueued = w'.hasQueued := congrArg Sync.Word.hasQueued h
    cases w
    cases w'
    exact congr (congrArg Word.mk hlocked) hqueued
  · rintro rfl
    rfl

theorem Word.image_blocked (w : Word) : w.image.blocked .writer = w.locked := by
  simp [Sync.Word.blocked, Word.image]

@[simp] theorem Party.failed_image (p : Party) (n : ℕ) : (p.failed n).image = p.image.failed n := by
  unfold Party.failed Sync.Party.failed Party.image
  split
  · split
    · next h => simp [Pc.image, show p.mode = .once from h]
    · simp [Pc.image, *]
  · rfl

@[simp] theorem Party.acquired_image (p : Party) : p.acquired.image = p.image.acquired := by
  unfold Party.acquired Sync.Party.acquired Party.image
  cases p.hasNode <;> simp [Pc.image]

theorem Party.links_image (p : Party) (linked : Bool) : p.image.links linked = p.links linked := by
  unfold Party.links Sync.Party.links Party.image
  cases p.mode <;> rfl

@[simp] theorem Core.arm_image (c : Core) (i : ℕ) (p : Party) :
    (c.arm i p).image = c.image.arm i p.image := by
  unfold Core.arm Sync.Core.arm
  simp only [Party.links_image]
  rfl

theorem Pc.owns_image (pc : Pc) : pc.image.owns = pc.owns := by
  cases pc with
  | lockList e | inside e => cases e <;> rfl
  | fixFlags a | leave a => cases a <;> rfl
  | _ => rfl

namespace System

theorem parties_image {q : Sync.Party} (h : s.image.parties[i]? = some q) :
    ∃ p, s.parties[i]? = some p ∧ q = p.image := by
  obtain ⟨p, hp, rfl⟩ := List.getElem?_map .. ▸ h |> map_eq_some_iff.mp
  exact ⟨p, hp, rfl⟩

theorem image_parties (h : s.parties[i]? = some p) : s.image.parties[i]? = some p.image := by
  show (s.parties.map Party.image)[i]? = _
  rw [List.getElem?_map, h]
  rfl

theorem step_image {c' : Sync.Core} {q : Sync.Party} (hp : s.parties[i]? = some p)
    (h : s.core.image.access i p.image = some (c', q)) :
    s.image.step (.step i) = some ⟨c', s.image.parties.set i q⟩ := by
  show (s.image.parties[i]?.bind _) = _
  rw [image_parties hp, bind_some]
  show ((s.core.image.access i p.image).map _) = _
  rw [h]
  rfl

theorem image_set (c : Core) (p : Party) :
    (System.mk c (s.parties.set i p)).image = ⟨c.image, s.image.parties.set i p.image⟩ := by
  show Sync.System.mk _ _ = _
  rw [map_set]
  rfl

theorem reachable_access (hp : s.parties[i]? = some p)
    (h : s.core.image.access i p.image = some (c.image, p'.image)) :
    Reachable Sync.System.step s.image (System.mk c (s.parties.set i p')).image := by
  refine .tail (.refl _) trivial (a := .step i) ?_
  rw [image_set]
  exact step_image hp h

theorem reachable_access_two {d : Sync.Core} {q : Sync.Party} (hp : s.parties[i]? = some p)
    (h : s.core.image.access i p.image = some (d, q))
    (h' : d.access i q = some (c.image, p'.image)) :
    Reachable Sync.System.step s.image (System.mk c (s.parties.set i p')).image := by
  have hlt : i < s.image.parties.length := (List.getElem?_eq_some_iff.mp (image_parties hp)).1
  refine .tail (.tail (.refl _) trivial (step_image hp h)) trivial (a := .step i) ?_
  show ((s.image.parties.set i q)[i]?.bind _) = _
  rw [List.getElem?_set_self hlt, bind_some]
  show ((d.access i q).map _) = _
  rw [h', image_set]
  show some (Sync.System.mk _ ((s.image.parties.set i q).set i p'.image)) = _
  rw [set_set]

end System

theorem Core.access_image (hwake : p.pc ≠ .inside .wake) (hfix : ∀ a, p.pc ≠ .fixFlags a)
    (h : c.access i p = some (c', p')) :
    c.image.access i p.image = some (c'.image, p'.image) := by
  have himage : p.image.pc = p.pc.image := rfl
  have hblocked : c.image.word.blocked p.image.kind = c.word.locked := c.word.image_blocked
  unfold Core.access at h
  unfold Sync.Core.access
  rw [himage]
  cases hpc : p.pc with
  | attempt n =>
    simp only [hpc] at h
    simp only [Pc.image, hblocked]
    split at h <;> cases h
    · next hl => rw [if_pos hl, Party.failed_image]
    · next hl =>
      rw [if_neg hl]
      rfl
  | compare n w =>
    simp only [hpc] at h
    simp only [Pc.image]
    split at h <;> cases h
    · next hw =>
      subst hw
      rw [if_pos (show c.image.word = c.word.image from rfl), Party.acquired_image]
      rfl
    · next hw =>
      rw [if_neg (show ¬ c.image.word = w.image from fun he => hw (Word.image_inj.mp he)),
        Party.failed_image]
  | lockList e =>
    simp only [hpc] at h
    split at h <;> cases h
    next hl => exact if_neg hl
  | inside e =>
    cases e with
    | arm =>
      simp only [hpc] at h
      cases h
      simp only [Pc.image, Core.arm_image]
      rfl
    | finish =>
      simp only [hpc] at h
      cases h
      have hlist : c.image.list = c.list := rfl
      have hmode : p.image.mode = p.mode := rfl
      by_cases hfix : (c.list.unlink i).1 = true ∨ p.mode = .sync
      · simp only [Pc.image, hlist, hmode, if_pos hfix]
        rfl
      · simp only [Pc.image, hlist, hmode, if_neg hfix]
        rfl
    | cancel =>
      simp only [hpc] at h
      cases h
      have hlist : c.image.list = c.list := rfl
      by_cases hlinked : (c.list.unlink i).1 = true
      · simp only [Pc.image, hlist, if_pos hlinked]
        rfl
      · simp only [Pc.image, hlist, if_neg hlinked]
        rfl
    | wake => exact absurd hpc hwake
  | raise =>
    simp only [hpc] at h
    cases h
    rfl
  | recheck =>
    simp only [hpc] at h
    simp only [Pc.image, hblocked]
    split at h <;> cases h
    · next hl =>
      rw [if_pos hl]
      rfl
    · next hl =>
      rw [if_neg hl]
      rfl
  | recompare w =>
    simp only [hpc] at h
    simp only [Pc.image]
    split at h <;> cases h
    · next hw =>
      subst hw
      rw [if_pos (show c.image.word = c.word.image from rfl)]
      rfl
    · next hw =>
      rw [if_neg (show ¬ c.image.word = w.image from fun he => hw (Word.image_inj.mp he))]
      rfl
  | won =>
    simp only [hpc] at h
    cases h
    rfl
  | fixFlags a => exact absurd hpc (hfix a)
  | leave a =>
    simp only [hpc] at h
    cases h
    cases a <;> rfl
  | parked =>
    simp only [hpc] at h
    simp only [Pc.image]
    cases hmode : p.mode with
    | sync =>
      simp only [hmode] at h
      have hmode' : p.image.mode = .sync := hmode
      simp only [hmode']
      split at h <;> cases h
      · next hw =>
        rw [if_pos (show (c.image.list.nodes i).state = .woken from hw)]
        rfl
      · next hw => rw [if_neg (show ¬ (c.image.list.nodes i).state = .woken from hw)]
    | async | once =>
      simp only [hmode] at h
      have hmode' : p.image.mode = p.mode := rfl
      cases h
      simp only [hmode', hmode]
      rfl
  | holding =>
    simp only [hpc] at h
    cases h
    have hwakes : c.image.word.wakes p.image.kind = c.word.hasQueued := rfl
    by_cases hqueued : c.word.hasQueued = true
    · simp only [Pc.image, hwakes, if_pos hqueued]
      rfl
    · simp only [Pc.image, hwakes, if_neg hqueued]
      rfl
  | dropped =>
    simp only [hpc] at h
    simp only [Pc.image]
    split at h <;> cases h
    · next hw =>
      rw [if_pos (show (c.image.list.nodes i).state = .woken from hw)]
      rfl
    · next hw =>
      rw [if_neg (show ¬ (c.image.list.nodes i).state = .woken from hw)]
      rfl
  | call wakes =>
    cases wakes with
    | nil =>
      simp only [hpc] at h
      cases h
      rfl
    | cons w wakes =>
      simp only [hpc] at h
      cases h
      rfl
  | done =>
    simp only [hpc] at h
    cases h

namespace System

theorem isWriter_of_mem (h : s.image.Queued) (hj : j ∈ s.image.core.queue) :
    (s.core.list.nodes j).isWriter = true := by
  obtain ⟨q, hq⟩ := h.exists_party hj
  obtain ⟨p, -, rfl⟩ := parties_image hq
  exact (h.seat j p.image hq).isWriter.mpr rfl

theorem writers_ne_zero (h : s.image.Queued) :
    s.core.list.writers ≠ 0 ↔ s.core.list.isEmpty = false := by
  have hwriters := h.holds.writers_ne_zero
  have hempty := h.isEmpty
  constructor
  · intro hne
    obtain ⟨j, hj, -⟩ := hwriters.mp hne
    cases he : s.core.list.isEmpty with
    | false => rfl
    | true =>
      rw [hempty.mp he] at hj
      cases hj
  · intro hne
    have hqueue : s.image.core.queue ≠ [] := fun hnil => by
      have htrue : s.core.list.isEmpty = true := hempty.mpr hnil
      rw [hne] at htrue
      cases htrue
    obtain ⟨j, hj⟩ := exists_mem_of_ne_nil _ hqueue
    exact hwriters.mpr ⟨j, hj, isWriter_of_mem h hj⟩

theorem firstWriter_eq_head (h : s.image.Queued) :
    s.core.list.firstWriter = s.core.list.head := by
  have hfirst : s.core.list.firstWriter = s.image.core.queue.find? _ := h.holds.firstWriter
  have hhead : s.core.list.head = s.image.core.queue.head? := h.holds.head
  rw [hfirst, hhead]
  cases hqueue : s.image.core.queue with
  | nil => rfl
  | cons j rest =>
    have hj : j ∈ s.image.core.queue := hqueue ▸ mem_cons_self
    have hwriter : (s.image.core.list.nodes j).isWriter = true := isWriter_of_mem h hj
    rw [List.find?_cons, hwriter]
    rfl

theorem reachable_wake (h : s.image.Queued) (hp : s.parties[i]? = some p)
    (hpc : p.pc = .inside .wake) (haccess : s.core.access i p = some (c', p')) :
    Reachable Sync.System.step s.image (System.mk c' (s.parties.set i p')).image := by
  have himage : p.image.pc = .inside .wake := by
    show p.pc.image = _
    rw [hpc]
    rfl
  simp only [Core.access, hpc] at haccess
  have hfirst := firstWriter_eq_head h
  split at haccess <;> cases haccess
  · next hhead =>
    -- the lock goes through its readers, of which there are none
    have hnone : ¬ s.core.image.list.writers > 0 := fun hpos =>
      h.firstWriter_ne_none hpos (hfirst.trans hhead)
    apply reachable_access_two hp
    · show s.core.image.access i p.image = some (s.core.image, { p.image with pc := .popReaders none [] })
      simp only [Sync.Core.access, himage, if_neg hnone]
      exact congrArg (fun cur => some (_, { p.image with pc := .popReaders cur [] })) hhead
    · rfl
  · next j hhead =>
    have hsome : s.core.image.list.firstWriter = some j := hfirst.trans hhead
    have hpos : s.core.image.list.writers > 0 := by
      have hne : s.core.list.writers ≠ 0 := by
        apply (writers_ne_zero h).mpr
        cases he : s.core.list.isEmpty with
        | false => rfl
        | true =>
          have hnil : s.image.core.queue = [] := h.isEmpty.mp he
          have hqueue : s.core.list.head = s.image.core.queue.head? := h.holds.head
          rw [hnil, hhead] at hqueue
          cases hqueue
      exact Nat.pos_of_ne_zero hne
    apply reachable_access hp
    simp only [Sync.Core.access, himage, if_pos hpos, hsome]
    rfl

theorem reachable_fixFlags {a : After} (h : s.image.Queued) (hp : s.parties[i]? = some p)
    (hpc : p.pc = .fixFlags a) (haccess : s.core.access i p = some (c', p')) :
    Reachable Sync.System.step s.image (System.mk c' (s.parties.set i p')).image := by
  have himage : p.image.pc = .fixPending a := by
    show p.pc.image = _
    rw [hpc]
    rfl
  simp only [Core.access, hpc] at haccess
  cases haccess
  have hagree : decide (s.core.list.writers ≠ 0) = !s.core.list.isEmpty := by
    by_cases hne : s.core.list.writers ≠ 0
    · rw [decide_eq_true hne, (writers_ne_zero h).mp hne]
      rfl
    · rw [decide_eq_false hne, Bool.of_not_eq_false (hne ∘ (writers_ne_zero h).mpr)]
      rfl
  apply reachable_access_two hp
  · simp only [Sync.Core.access, himage]
    rfl
  · show some _ = some _
    simp only [Core.image, Word.image, Party.image, Pc.image]
    rw [← hagree]
    rfl

/-- A step of the mutex is a run of the lock. -/
theorem reachable_image (h : s.image.Queued) {a : Action} (hstep : s.step a = some s') :
    Reachable Sync.System.step s.image s'.image := by
  cases a with
  | start mode =>
    cases hstep
    refine .tail (.refl _) trivial (a := .start .writer mode) ?_
    show some (Sync.System.mk _ _) = some (Sync.System.mk _ _)
    simp only [System.image, map_append, length_map]
    rfl
  | step i =>
    obtain ⟨p, hp, hstep⟩ := bind_eq_some_iff.mp hstep
    obtain ⟨⟨c', p'⟩, haccess, rfl⟩ := map_eq_some_iff.mp hstep
    by_cases hwake : p.pc = .inside .wake
    · exact reachable_wake h hp hwake haccess
    by_cases hfix : ∃ a, p.pc = .fixFlags a
    · obtain ⟨a, hfix⟩ := hfix
      exact reachable_fixFlags h hp hfix haccess
    · apply reachable_access hp
      exact Core.access_image hwake (not_exists.mp hfix) haccess
  | drop i =>
    obtain ⟨p, hp, hstep⟩ := bind_eq_some_iff.mp hstep
    split at hstep <;> cases hstep
    next hand =>
    have hdrop : p.image.mode = .async ∧ p.image.pc = .parked := by
      refine ⟨hand.1, ?_⟩
      show p.pc.image = _
      rw [hand.2]
      rfl
    refine .tail (.refl _) trivial (a := .drop i) ?_
    rw [image_set]
    show (s.image.parties[i]?.bind _) = _
    rw [image_parties hp, bind_some, if_pos hdrop]
    rfl

theorem reachable_image_init (h : Reachable step init s) :
    Reachable Sync.System.step Sync.System.init s.image := by
  induction h with
  | refl => exact .refl _
  | tail _ _ hstep ih =>
    have hqueued := (Sync.System.invariant_of_reachable ih).2.1
    exact ih.trans (reachable_image hqueued hstep)

/-- In every reachable state one party at a time has the mutex, the flag agrees with the queue, and
where the mutex is free and all operations rest, somebody who is queued has been woken. -/
theorem kept_of_reachable (h : Reachable step init s) : s.Kept := by
  obtain ⟨hex, hqueued, hattended, hcalled⟩ :=
    Sync.System.invariant_of_reachable (reachable_image_init h)
  refine ⟨fun i j p q hp hq hpo hqo => ?_, fun hl => ?_, fun hrest hfree => ?_⟩
  · by_contra hne
    have hreader := hex.reader_of_ne hne (image_parties hp) (image_parties hq)
      (p.pc.owns_image ▸ hpo) (q.pc.owns_image ▸ hqo)
    cases hreader
  · exact (hqueued.agrees hl).2
  · -- whoever rests is not about to look at the word, and holds no handle
    have hrests : ∀ (k : ℕ) (q : Sync.Party), s.image.parties[k]? = some q →
        ∃ p, s.parties[k]? = some p ∧ q = p.image ∧ (p.pc = .parked ∨ p.pc = .holding ∨ p.pc = .done) := by
      intro k q hq
      obtain ⟨p, hp, rfl⟩ := parties_image hq
      refine ⟨p, hp, rfl, ?_⟩
      have hp' := hrest p (List.mem_of_getElem? hp)
      cases hpc : p.pc <;> simp_all [Pc.rests]
    by_cases hnil : s.core.list.waiters = []
    · exact .inl hnil
    right
    have hfree' : s.image.core.word.free = true := by
      show (!s.core.word.locked && _) = true
      rw [hfree]
      rfl
    rcases hattended hfree' hnil with ⟨k, q, hq, hw⟩ | ⟨j, q, hq, hmem, hawake, -⟩
    · obtain ⟨p, -, rfl, hpc⟩ := hrests k q hq
      rcases hpc with hpc | hpc | hpc <;>
        simp [Sync.Party.wakes, Party.image, Pc.image, hpc] at hw
    · obtain ⟨p, hp, rfl, hpc⟩ := hrests j q hq
      have hwoken : (s.core.list.nodes j).state = .woken := by
        refine hawake.resolve_right fun hre => ?_
        rcases hpc with hpc | hpc | hpc <;>
          simp [Sync.Pc.rechecks, Party.image, Pc.image, hpc] at hre
      refine ⟨j, hmem, hwoken, ?_, p, hp, ?_⟩
      · rcases hcalled j p.image hq hwoken with hdone | ⟨k, q, hq', hin⟩
        · exact hdone
        · obtain ⟨p', -, rfl, hpc'⟩ := hrests k q hq'
          rcases hpc' with hpc' | hpc' | hpc' <;>
            simp [Sync.Pc.handles, Party.image, Pc.image, hpc'] at hin
      · -- a queued party waits
        have hqueueing := ((hqueued.seat j p.image hq).queueing hmem).2
        rcases hpc with hpc | hpc | hpc
        · exact hpc
        · simp [Sync.Pc.queueing, Party.image, Pc.image, hpc] at hqueueing
        · simp [Sync.Pc.queueing, Party.image, Pc.image, hpc] at hqueueing

/-- One party has the mutex, a future waits for it, and the mutex is unlocked. -/
def wokenFuture : List Action :=
  [Action.start .sync, .step 0, .step 0, .start .async] ++
    List.replicate 10 (Action.step 1) ++ List.replicate 5 (Action.step 0)

theorem kept_wokenFuture : ∃ s, Reachable step init s ∧ s.Kept ∧ s.core.word.locked = false ∧
    s.core.list.waiters = [1] ∧ (s.core.list.nodes 1).state = .woken := by
  have hexec : (exec step (fun _ _ => true) init wokenFuture).map
      (fun s => (s.core.word.locked, s.core.list.waiters, (s.core.list.nodes 1).state)) =
      some (false, [1], .woken) := by
    rfl
  obtain ⟨s, hs, heq⟩ := Option.map_eq_some_iff.mp hexec
  have hreach := reachable_of_exec hs
  obtain ⟨hfree, hwaiters, hstate⟩ : s.core.word.locked = false ∧ s.core.list.waiters = [1] ∧
      (s.core.list.nodes 1).state = .woken := by
    simpa using heq
  exact ⟨s, hreach, kept_of_reachable hreach, hfree, hwaiters, hstate⟩

end System

end Fibre.Channels.Sync.Mutex
