import Fibre.Channels.LeftRight
import Fibre.Math.Crew
import Fibre.Math.Machine

/-!
# The guards of the left-right primitive

Any number of readers enter and drop guards while a writer modifies the data, every atomic access
being a step of its own. A guard keeps the copy it shows from being written to. The writers'
lock admits one call of `modify` at a time, which applies the same function to both copies.
-/

namespace Fibre.Channels.LeftRight

open Function Crew Machine List Option

variable {α : Type*}

/-- Applies `f` to a copy. -/
def write (l : LeftRight α) (idx : Bool) (f : α → α) : LeftRight α :=
  { l with data := update l.data idx (f (l.data idx)) }

/-- Where a call of `enter` is: the access it makes next. -/
inductive Enter
  /-- `live_idx.load()` -/
  | load
  /-- `active_readers[idx].fetch_add(1)` -/
  | count (idx : Bool)
  /-- `live_idx.load() == idx` -/
  | check (idx : Bool)
  /-- the writer swapped: `active_readers[idx].fetch_sub(1)` -/
  | backOff (idx : Bool)
  deriving DecidableEq

/-- A reader, which may hold several guards. -/
structure Reader where
  enter : Enter
  /-- the copies its guards are on, with the number of modifications each shows -/
  guards : List (Bool × ℕ)
  /-- what its guards showed, the last first -/
  shown : List ℕ
  deriving DecidableEq

/-- Where the call of `modify` is; `live` is the index it loaded. -/
inductive Writer (α : Type*)
  | idle
  /-- step 1: it writes to the stale copy -/
  | writeStale (f : α → α) (live : Bool)
  /-- step 2: `live_idx.store()` -/
  | publish (f : α → α) (live : Bool)
  /-- step 3: `active_readers[live].load()` -/
  | drain (f : α → α) (live : Bool)
  /-- step 4: it writes to the old copy -/
  | writeOld (f : α → α) (live : Bool)

/-- The copy that is being written to. -/
def Writer.mutating : Writer α → Option Bool
  | writeStale _ live => some !live
  | writeOld _ live => some live
  | _ => none

/-- The two copies and the parties, with the modifications so far and how many of them each copy
has. -/
structure System (α : Type*) where
  core : LeftRight α
  writer : Writer α
  readers : List Reader
  modifications : List (α → α)
  version : Bool → ℕ

/-- A step of the machine. -/
inductive Action (α : Type*)
  /-- a new reader -/
  | clone
  /-- the next access of `enter` -/
  | enter (r : ℕ)
  /-- a reader drops its `g`-th guard -/
  | drop (r g : ℕ)
  /-- a writer takes the lock and loads the live index -/
  | modify (f : α → α)
  | write

namespace System

/-- Two equal copies, and no readers. -/
def init (a : α) : System α where
  core := ⟨false, fun _ => 0, fun _ => a⟩
  writer := .idle
  readers := []
  modifications := []
  version _ := 0

/-- The next access of a call of `enter`. -/
def access (s : System α) (reader : Reader) : LeftRight α × Reader :=
  match reader.enter with
  | .load => (s.core, { reader with enter := .count s.core.liveIdx })
  | .count idx => (s.core.pin idx, { reader with enter := .check idx })
  | .check idx =>
    if s.core.liveIdx = idx then
      (s.core, ⟨.load, (idx, s.version idx) :: reader.guards, s.version idx :: reader.shown⟩)
    else (s.core, { reader with enter := .backOff idx })
  | .backOff idx => (s.core.unpin idx, { reader with enter := .load })

/-- The system after an action; `none` when it is not possible. -/
def step (s : System α) : Action α → Option (System α)
  | .clone => some { s with readers := s.readers ++ [⟨.load, [], []⟩] }
  | .enter r => s.readers[r]?.map fun reader =>
      let (core, reader) := s.access reader
      { s with core := core, readers := s.readers.set r reader }
  | .drop r g => s.readers[r]?.bind fun reader => reader.guards[g]?.map fun guard =>
      { s with
        core := s.core.unpin guard.1
        readers := s.readers.set r { reader with guards := reader.guards.eraseIdx g } }
  | .modify f =>
    match s.writer with
    | .idle => some { s with
        writer := .writeStale f s.core.liveIdx, modifications := s.modifications ++ [f] }
    | _ => none
  | .write =>
    match s.writer with
    | .idle => none
    | .writeStale f live => some { s with
        core := s.core.write (!live) f
        version := update s.version (!live) (s.version (!live) + 1)
        writer := .publish f live }
    | .publish f live => some { s with
        core := { s.core with liveIdx := !live }, writer := .drain f live }
    | .drain f live =>
      some { s with writer := if 0 < s.core.activeReaders live then .drain f live
        else .writeOld f live }
    | .writeOld f live => some { s with
        core := s.core.write live f
        version := update s.version live (s.version live + 1)
        writer := .idle }

end System

/-- The state after the first `k` modifications. -/
def after (a : α) (modifications : List (α → α)) (k : ℕ) : α :=
  (modifications.take k).foldl (fun a f => f a) a

/-- What the guards may rely on. -/
structure System.Sound (a : α) (s : System α) : Prop where
  /-- nobody has a guard on the copy that is being written to -/
  exclusive : ∀ idx, s.writer.mutating = some idx →
    ∀ reader ∈ s.readers, ∀ guard ∈ reader.guards, guard.1 ≠ idx
  /-- when no `modify` runs, both copies have all modifications -/
  equal : s.writer = .idle →
    ∀ idx, s.core.data idx = after a s.modifications s.modifications.length
  /-- a guard shows a prefix of the modifications -/
  shows : ∀ reader ∈ s.readers, ∀ guard ∈ reader.guards, guard.2 ∈ reader.shown ∧
    guard.2 ≤ s.modifications.length ∧ s.core.data guard.1 = after a s.modifications guard.2
  /-- and never an older one than the reader saw before -/
  forward : ∀ reader ∈ s.readers, reader.shown.Pairwise (· ≥ ·)

/-! ### The invariant -/

namespace Reader

/-- How often a reader is counted on a copy. -/
def pins (idx : Bool) (reader : Reader) : ℕ :=
  (match reader.enter with
    | .check i | .backOff i => if i = idx then 1 else 0
    | _ => 0) + reader.guards.countP fun guard => guard.1 = idx

theorem pins_pos {reader : Reader} {guard : Bool × ℕ} (h : guard ∈ reader.guards) :
    0 < reader.pins guard.1 := by
  refine Nat.add_pos_right _ (countP_pos_iff.mpr ⟨guard, h, by simp⟩)

end Reader

/-- What the place of `modify` says of the copies. -/
def Writer.Fits (live : Bool) (modifications : List (α → α)) (version : Bool → ℕ) :
    Writer α → Prop
  | idle => ∀ idx, version idx = modifications.length
  | writeStale f old => live = old ∧
      ∃ done, modifications = done ++ [f] ∧ ∀ idx, version idx = done.length
  | publish f old => live = old ∧ ∃ done, modifications = done ++ [f] ∧
      version old = done.length ∧ version (!old) = done.length + 1
  | drain f old | writeOld f old => live = !old ∧ ∃ done, modifications = done ++ [f] ∧
      version old = done.length ∧ version (!old) = done.length + 1

/-- A guard is on the live copy, or waited for. -/
def Writer.Allows (live : Bool) (writer : Writer α) (idx : Bool) : Prop :=
  idx = live ∨ ∃ f old, writer = .drain f old

namespace System

variable {a : α} {s t : System α} {r : ℕ} {reader reader' : Reader}

/-- The invariant of every run. -/
structure Inv (a : α) (s : System α) : Prop where
  counted : ∀ idx, s.core.activeReaders idx = weigh (Reader.pins idx) s.readers
  data : ∀ idx, s.core.data idx = after a s.modifications (s.version idx)
  writer : s.writer.Fits s.core.liveIdx s.modifications s.version
  guards : ∀ reader ∈ s.readers, ∀ guard ∈ reader.guards, guard.2 = s.version guard.1 ∧
    guard.2 ∈ reader.shown ∧ s.writer.Allows s.core.liveIdx guard.1
  forward : ∀ reader ∈ s.readers, reader.shown.Pairwise (· ≥ ·)
  seen : ∀ reader ∈ s.readers, ∀ k ∈ reader.shown, k ≤ s.version s.core.liveIdx

theorem inv_init (a : α) : (init a).Inv a :=
  ⟨fun _ => rfl, fun _ => rfl, fun _ => rfl, by simp [init], by simp [init], by simp [init]⟩

theorem Inv.setReader (h : s.Inv a) (hr : s.readers[r]? = some reader) {core : LeftRight α}
    (hlive : core.liveIdx = s.core.liveIdx) (hdata : core.data = s.core.data)
    (hcounted : ∀ idx, core.activeReaders idx + reader.pins idx =
      s.core.activeReaders idx + reader'.pins idx)
    (hguards : ∀ guard ∈ reader'.guards, guard.2 = s.version guard.1 ∧
      guard.2 ∈ reader'.shown ∧ s.writer.Allows s.core.liveIdx guard.1)
    (hforward : reader'.shown.Pairwise (· ≥ ·))
    (hseen : ∀ k ∈ reader'.shown, k ≤ s.version s.core.liveIdx) :
    ({ s with core := core, readers := s.readers.set r reader' } : System α).Inv a where
  counted idx := by
    have hset := weigh_set (Reader.pins idx) hr reader'
    have hold := h.counted idx
    have hnew := hcounted idx
    change core.activeReaders idx = weigh (Reader.pins idx) (s.readers.set r reader')
    omega
  data idx := by
    simpa only [hdata] using h.data idx
  writer := by
    simpa only [hlive] using h.writer
  guards q hq guard hguard := by
    simp only [hlive]
    rcases mem_or_eq_of_mem_set hq with hq | rfl
    · exact h.guards q hq guard hguard
    · exact hguards guard hguard
  forward q hq := by
    rcases mem_or_eq_of_mem_set hq with hq | rfl
    · exact h.forward q hq
    · exact hforward
  seen q hq k hk := by
    simp only [hlive]
    rcases mem_or_eq_of_mem_set hq with hq | rfl
    · exact h.seen q hq k hk
    · exact hseen k hk

theorem Inv.enter (h : s.Inv a) (hr : s.readers[r]? = some reader) :
    ({ s with core := (s.access reader).1, readers := s.readers.set r (s.access reader).2 } :
      System α).Inv a := by
  have hmem := mem_of_getElem? hr
  have hguards := h.guards reader hmem
  have hforward := h.forward reader hmem
  have hseen := h.seen reader hmem
  have hcounted := fun idx => h.counted idx ▸ le_weigh (Reader.pins idx) hr
  cases he : reader.enter with
  | load =>
    simp only [access, he]
    refine h.setReader hr rfl rfl (fun idx => ?_) hguards hforward hseen
    simp [Reader.pins, he]
  | count idx =>
    simp only [access, he]
    refine h.setReader hr rfl rfl (fun i => ?_) hguards hforward hseen
    rcases eq_or_ne i idx with rfl | hne
    · simp only [pin, update_self, Reader.pins, he, if_true]
      omega
    · simp [pin, Reader.pins, he, hne, hne.symm]
  | check idx =>
    simp only [access, he]
    split_ifs with hlive
    · -- the index is unchanged: the guard shows the live copy
      subst hlive
      refine h.setReader hr rfl rfl (fun i => ?_) ?_ ?_ ?_
      · simp only [Reader.pins, he, countP_cons, decide_eq_true_eq]
        omega
      · intro guard hguard
        rcases mem_cons.mp hguard with rfl | hguard
        · exact ⟨rfl, mem_cons_self, .inl rfl⟩
        · obtain ⟨hshows, hshown, hallows⟩ := hguards guard hguard
          exact ⟨hshows, mem_cons_of_mem _ hshown, hallows⟩
      · exact pairwise_cons.mpr ⟨hseen, hforward⟩
      · intro k hk
        rcases mem_cons.mp hk with rfl | hk
        · exact le_rfl
        · exact hseen k hk
    · refine h.setReader hr rfl rfl (fun i => ?_) hguards hforward hseen
      simp [Reader.pins, he]
  | backOff idx =>
    simp only [access, he]
    refine h.setReader hr rfl rfl (fun i => ?_) hguards hforward hseen
    have hle := hcounted i
    rcases eq_or_ne i idx with rfl | hne
    · simp only [unpin, update_self, Reader.pins, he, if_true] at hle ⊢
      omega
    · simp [unpin, Reader.pins, he, hne, hne.symm]

theorem Inv.drop (h : s.Inv a) (hr : s.readers[r]? = some reader) {g : ℕ} {guard : Bool × ℕ}
    (hg : reader.guards[g]? = some guard) :
    ({ s with
        core := s.core.unpin guard.1
        readers := s.readers.set r { reader with guards := reader.guards.eraseIdx g } } :
      System α).Inv a := by
  have hmem := mem_of_getElem? hr
  have hlt := (List.getElem?_eq_some_iff.mp hg).1
  have hperm : (guard :: reader.guards.eraseIdx g).Perm reader.guards := by
    obtain ⟨hlt, rfl⟩ := List.getElem?_eq_some_iff.mp hg
    exact getElem_cons_eraseIdx_perm hlt
  refine h.setReader hr rfl rfl (fun idx => ?_) ?_ (h.forward reader hmem) (h.seen reader hmem)
  · have hcount := hperm.countP_eq fun g => decide (g.1 = idx)
    have hle := h.counted idx ▸ le_weigh (Reader.pins idx) hr
    rw [countP_cons] at hcount
    rcases eq_or_ne guard.1 idx with rfl | hne
    · simp only [unpin, update_self, Reader.pins, decide_true, if_true] at hcount hle ⊢
      omega
    · simp only [unpin, Reader.pins, hne, decide_false, Bool.false_eq_true, if_false, add_zero,
        update_of_ne hne.symm] at hcount ⊢
      omega
  · intro q hq
    exact h.guards reader hmem q (mem_of_mem_eraseIdx hq)

theorem after_succ (a : α) (done : List (α → α)) (f : α → α) :
    after a (done ++ [f]) (done.length + 1) = f (after a (done ++ [f]) done.length) := by
  have htake : (done ++ [f]).take (done.length + 1) = done ++ [f] :=
    take_of_length_le (by simp)
  simp [after, htake]

theorem after_append (a : α) {done : List (α → α)} {k : ℕ} (hk : k ≤ done.length)
    (f : α → α) : after a (done ++ [f]) k = after a done k := by
  rw [after, after, take_append_of_le_length hk]

theorem Inv.writeCopy (h : s.Inv a) {idx : Bool} {f : α → α} {done : List (α → α)}
    {writer : Writer α} (hdone : s.modifications = done ++ [f])
    (hversion : s.version idx = done.length)
    (hfree : ∀ reader ∈ s.readers, ∀ guard ∈ reader.guards, guard.1 ≠ idx)
    (hfits : writer.Fits s.core.liveIdx s.modifications
      (update s.version idx (s.version idx + 1)))
    (hdrain : ∀ f old, s.writer ≠ .drain f old) :
    ({ s with
        core := s.core.write idx f
        version := update s.version idx (s.version idx + 1)
        writer := writer } : System α).Inv a where
  counted := h.counted
  data i := by
    rcases eq_or_ne i idx with rfl | hne
    · simp only [write, update_self]
      rw [h.data, hversion, hdone, after_succ]
    · simpa [write, hne] using h.data i
  writer := hfits
  guards reader hreader guard hguard := by
    obtain ⟨hshows, hseen, hallows⟩ := h.guards reader hreader guard hguard
    have hne := hfree reader hreader guard hguard
    refine ⟨by simpa [hne] using hshows, hseen, ?_⟩
    rcases hallows with hlive | ⟨f, old, hw⟩
    · exact .inl hlive
    · exact absurd hw (hdrain f old)
  forward := h.forward
  seen reader hreader k hk := by
    have hle := h.seen reader hreader k hk
    rcases eq_or_ne s.core.liveIdx idx with heq | hne
    · simp only [write, heq, update_self] at hle ⊢
      omega
    · simpa [write, hne] using hle

theorem Inv.write (h : s.Inv a) (hstep : s.step .write = some t) : t.Inv a := by
  have hfits := h.writer
  cases hw : s.writer with
  | idle => simp [System.step, hw] at hstep
  | writeStale f live =>
    simp only [System.step, hw] at hstep
    obtain rfl : _ = t := Option.some.inj hstep
    rw [hw] at hfits
    obtain ⟨rfl, done, hdone, hversion⟩ := hfits
    refine h.writeCopy hdone (hversion _) ?_ ?_ (by simp [hw])
    · intro reader hreader guard hguard heq
      rcases (h.guards reader hreader guard hguard).2.2 with hlive | ⟨f, old, hdrain⟩
      · simp [hlive] at heq
      · simp [hw] at hdrain
    · exact ⟨rfl, done, hdone, by simp [hversion], by simp [hversion]⟩
  | publish f live =>
    simp only [System.step, hw] at hstep
    obtain rfl : _ = t := Option.some.inj hstep
    rw [hw] at hfits
    obtain ⟨hlive, done, hdone, hold, hnew⟩ := hfits
    refine ⟨h.counted, h.data, ⟨rfl, done, hdone, hold, hnew⟩, ?_, h.forward, ?_⟩
    · intro reader hreader guard hguard
      obtain ⟨hshows, hseen, _⟩ := h.guards reader hreader guard hguard
      exact ⟨hshows, hseen, .inr ⟨f, live, rfl⟩⟩
    · intro reader hreader k hk
      have hle := h.seen reader hreader k hk
      rw [hlive, hold] at hle
      exact hle.trans (hnew ▸ Nat.le_succ _)
  | drain f live =>
    simp only [System.step, hw] at hstep
    obtain rfl : _ = t := Option.some.inj hstep
    rw [hw] at hfits
    split_ifs with hpos
    · have hself : { s with writer := .drain f live } = s := by rw [← hw]
      rwa [hself]
    · -- nobody is counted on the old copy, so nobody has a guard on it
      refine ⟨h.counted, h.data, hfits, fun reader hreader guard hguard => ?_, h.forward, h.seen⟩
      obtain ⟨hshows, hseen, _⟩ := h.guards reader hreader guard hguard
      refine ⟨hshows, hseen, .inl ?_⟩
      by_contra hne
      have hold : guard.1 = live := by
        have hlive : s.core.liveIdx = !live := hfits.1
        rw [hlive] at hne
        revert hne
        cases guard.1 <;> cases live <;> simp
      obtain ⟨i, hi⟩ := mem_iff_getElem?.mp hreader
      have hle := le_weigh (Reader.pins live) hi
      have hpins := Reader.pins_pos hguard
      rw [← h.counted] at hle
      rw [hold] at hpins
      exact hpos (hpins.trans_le hle)
  | writeOld f live =>
    simp only [System.step, hw] at hstep
    obtain rfl : _ = t := Option.some.inj hstep
    rw [hw] at hfits
    obtain ⟨hlive, done, hdone, hold, hnew⟩ := hfits
    refine h.writeCopy hdone hold ?_ ?_ (by simp [hw])
    · intro reader hreader guard hguard heq
      rcases (h.guards reader hreader guard hguard).2.2 with hl | ⟨f, old, hdrain⟩
      · simp [hl, hlive] at heq
      · simp [hw] at hdrain
    · intro idx
      rw [hdone, length_append]
      rcases eq_or_ne idx live with rfl | hne
      · simp [hold]
      · obtain rfl : idx = !live := by
          revert hne
          cases idx <;> cases live <;> simp
        simp [hnew]

theorem Inv.step (h : s.Inv a) {action : Action α} (hstep : s.step action = some t) :
    t.Inv a := by
  cases action with
  | clone =>
    obtain rfl : _ = t := Option.some.inj hstep
    refine ⟨fun idx => ?_, h.data, h.writer, ?_, ?_, ?_⟩
    · simpa [Reader.pins] using h.counted idx
    · simpa [or_imp, forall_and] using h.guards
    · simpa [or_imp, forall_and] using h.forward
    · simpa [or_imp, forall_and] using h.seen
  | enter r =>
    obtain ⟨reader, hr, rfl⟩ := map_eq_some_iff.mp hstep
    exact h.enter hr
  | drop r g =>
    obtain ⟨reader, hr, hstep⟩ := bind_eq_some_iff.mp hstep
    obtain ⟨guard, hg, rfl⟩ := map_eq_some_iff.mp hstep
    exact h.drop hr hg
  | modify f =>
    simp only [System.step] at hstep
    split at hstep
    · next hw =>
      obtain rfl : _ = t := Option.some.inj hstep
      have hversion : ∀ idx, s.version idx = s.modifications.length := by
        have hfits := h.writer
        rwa [hw] at hfits
      refine ⟨h.counted, fun idx => ?_, ⟨rfl, s.modifications, rfl, hversion⟩, ?_, h.forward,
        h.seen⟩
      · rw [after_append a (hversion idx).le]
        exact h.data idx
      · intro reader hreader guard hguard
        obtain ⟨hshows, hseen, hallows⟩ := h.guards reader hreader guard hguard
        refine ⟨hshows, hseen, .inl (hallows.resolve_right ?_)⟩
        rintro ⟨g, old, hdrain⟩
        simp [hw] at hdrain
    · simp at hstep
  | write => exact h.write hstep

/-- In every interleaving of any number of readers and the writers, nobody has a guard on a copy
that is written to, the copies are equal when nobody writes, and each guard shows a prefix of the
modifications that is not older than what its reader saw before. -/
theorem sound (h : Reachable step (init a) s) : s.Sound a := by
  have hinv : s.Inv a :=
    Run.invariant h (inv_init a) fun _ _ _ ht _ hstep => ht.step hstep
  have hfits := hinv.writer
  have hversion : ∀ idx, s.version idx ≤ s.modifications.length := by
    intro idx
    cases hw : s.writer with
    | idle => exact (hw ▸ hfits : Writer.Fits _ _ _ .idle) idx |>.le
    | writeStale f old =>
      obtain ⟨_, done, hdone, hv⟩ : Writer.Fits _ _ _ (.writeStale f old) := hw ▸ hfits
      simp [hdone, hv]
    | publish f old | drain f old | writeOld f old =>
      rw [hw] at hfits
      obtain ⟨_, done, hdone, hold, hnew⟩ := hfits
      rcases eq_or_ne idx old with rfl | hne
      · simp [hdone, hold]
      · obtain rfl : idx = !old := by
          revert hne
          cases idx <;> cases old <;> simp
        simp [hdone, hnew]
  refine ⟨fun idx hmut reader hreader guard hguard => ?_, fun hw idx => ?_,
    fun reader hreader guard hguard => ?_, hinv.forward⟩
  · have hallows := (hinv.guards reader hreader guard hguard).2.2
    cases hw : s.writer with
    | writeStale f live | writeOld f live =>
      rw [hw] at hmut hallows hfits
      obtain rfl := Option.some.inj hmut
      rcases hallows with hl | ⟨f, old, hd⟩
      · simp [hl, hfits.1]
      · simp at hd
    | _ => simp [hw, Writer.mutating] at hmut
  · rw [hw] at hfits
    rw [hinv.data, hfits idx]
  · obtain ⟨hshows, hseen, _⟩ := hinv.guards reader hreader guard hguard
    refine ⟨hseen, hshows ▸ hversion _, ?_⟩
    rw [hinv.data, hshows]

/-- A guard from before a modification keeps its writer waiting, while the next shows it. -/
theorem sound_two_guards : ∃ s : System ℕ, Reachable step (init 0) s ∧ s.Sound 0 ∧
    s.readers = [⟨.load, [(true, 1), (false, 0)], [1, 0]⟩] := by
  have hexec : (exec step (fun _ _ => true) (init 0)
      (Action.clone :: List.replicate 3 (Action.enter 0) ++
        Action.modify (· + 7) :: List.replicate 3 Action.write ++
        List.replicate 3 (Action.enter 0))).map System.readers =
      some [⟨.load, [(true, 1), (false, 0)], [1, 0]⟩] := by
    rfl
  obtain ⟨s, hs, hreaders⟩ := Option.map_eq_some_iff.mp hexec
  have hrun := reachable_of_exec hs
  exact ⟨s, hrun, sound hrun, hreaders⟩

end System

end Fibre.Channels.LeftRight
