import Fibre.Channels.Sync.RwExclusion

/-!
# The queue of the read-write lock and its flags

Where a party is says whether its node may be in the queue. A blocking party knows of its node
what it needs to; a future asks. Readers are taken out when they are woken, writers stay, so a
reader in the queue still waits to be woken.

The flags follow the queue only while the spinlock is held: after a link they are raised, after an
unlink they are fixed. What holds of them in between depends on how far the holder is.
-/

namespace Fibre.Channels.Sync

open Function List

/-- The node may be in the queue. -/
def Pc.queueing : Pc → Bool
  | .attempt _ | .compare _ _ | .raise | .recheck | .recompare _ | .won => true
  | .fixPending .park | .fixQueued .park | .leave .park | .parked => true
  | .lockList .wake | .inside .wake => false
  | .lockList _ | .inside _ => true
  | _ => false

/-- The node is in the queue. -/
def Pc.linked : Pc → Bool
  | .raise | .recheck | .recompare _ | .won => true
  | _ => false

/-- From the link until a wake, which is where a blocking reader's node is in the queue. -/
def Pc.waiting : Pc → Bool
  | .leave .park | .parked => true
  | pc => pc.linked

/-- It is about to queue its node. -/
def Pc.arming : Pc → Bool
  | .lockList .arm | .inside .arm => true
  | _ => false

namespace Core

def queue (c : Core) : List ℕ := c.list.waiters

def PendingAgrees (c : Core) : Prop := c.word.writerPending = true ↔ c.list.writers ≠ 0

def QueuedAgrees (c : Core) : Prop := c.word.hasQueued = true ↔ c.queue ≠ []

def Agrees (c : Core) : Prop := c.PendingAgrees ∧ c.QueuedAgrees

end Core

/-- What is known of the node of the party `i`. -/
structure Seat (c : Core) (i : ℕ) (p : Party) : Prop where
  isWriter : (c.list.nodes i).isWriter = true ↔ p.kind = .writer
  /-- the handle is taken when the node is marked -/
  waiter : (c.list.nodes i).waiter =
    if (c.list.nodes i).state = .waiting then some ⟨i, c.round i⟩ else none
  queueing : i ∈ c.queue → p.hasNode = true ∧ p.pc.queueing = true
  linked : p.pc.linked = true → i ∈ c.queue
  /-- a blocking writer stays queued until it takes its node out -/
  writer : p.mode = .sync → p.kind = .writer → p.hasNode = true → p.pc.queueing = true →
    i ∈ c.queue
  /-- a blocking reader is queued only while it waits -/
  reader : p.mode = .sync → p.kind = .reader → i ∈ c.queue → p.pc.waiting = true
  /-- a queued reader has not been woken -/
  unwoken : p.kind = .reader → i ∈ c.queue → (c.list.nodes i).state = .waiting
  once : p.mode = .once → p.hasNode = false ∧ p.pc.arming = false

/-- How far the flags agree with the queue while the party `i` holds the spinlock. -/
def Flagged (c : Core) (i : ℕ) (p : Party) : Prop :=
  match p.pc with
  | .inside _ | .recheck | .recompare _ | .won | .leave _ => c.Agrees
  -- the node is linked and the flags are not raised yet
  | .raise => (p.kind = .reader → c.PendingAgrees) ∧
      (c.queue ≠ [i] → c.word.hasQueued = true)
  | .popReaders cur _ => c.list.writers = 0 ∧ cur = c.queue.head? ∧
      (c.queue ≠ [] → c.word.hasQueued = true)
  | .fixPending _ => c.queue ≠ [] → c.word.hasQueued = true
  | .fixQueued _ => c.PendingAgrees ∧ (c.queue ≠ [] → c.word.hasQueued = true)
  | _ => True

/-- What is known of the queue and its flags. -/
structure System.Queued (s : System) : Prop where
  holds : s.core.list.Holds s.core.queue
  owned : ∀ i ∈ s.core.queue, i < s.parties.length
  seat : ∀ i p, s.parties[i]? = some p → Seat s.core i p
  flagged : ∀ i p, s.parties[i]? = some p → Flagged s.core i p
  agrees : s.core.locked = false → s.core.Agrees

variable {c c' : Core} {i j : ℕ} {p p' q : Party}

theorem Flagged.of_outside (h : p.pc.isInside = false) : Flagged c i p := by
  unfold Flagged
  cases hpc : p.pc with
  | inside | raise | recheck | recompare | won | popReaders | fixPending | fixQueued | leave =>
    simp [hpc, Pc.isInside] at h
  | _ => trivial

theorem Flagged.congr (h : Flagged c i p) (hqueue : c'.queue = c.queue)
    (hwriters : c'.list.writers = c.list.writers)
    (hpending : c'.word.writerPending = c.word.writerPending)
    (hqueued : c'.word.hasQueued = c.word.hasQueued) : Flagged c' i p := by
  unfold Flagged Core.Agrees Core.PendingAgrees Core.QueuedAgrees at h ⊢
  rw [hqueue, hwriters, hpending, hqueued]
  exact h

theorem Flagged.hasQueued (h : Flagged c i p) (hin : p.pc.isInside = true) (hne : c.queue ≠ []) :
    c.word.hasQueued = true ∨ p.pc = .raise ∧ c.queue = [i] := by
  unfold Flagged at h
  cases hpc : p.pc with
  | inside | recheck | recompare | won | leave =>
    simp only [hpc] at h
    exact .inl (h.2.mpr hne)
  | raise =>
    simp only [hpc] at h
    by_cases hself : c.queue = [i]
    · exact .inr ⟨rfl, hself⟩
    · exact .inl (h.2 hself)
  | popReaders =>
    simp only [hpc] at h
    exact .inl (h.2.2 hne)
  | fixPending =>
    simp only [hpc] at h
    exact .inl (h hne)
  | fixQueued =>
    simp only [hpc] at h
    exact .inl (h.2 hne)
  | _ => simp [hpc, Pc.isInside] at hin

theorem Core.Agrees.congr (h : c.Agrees) (hqueue : c'.queue = c.queue)
    (hwriters : c'.list.writers = c.list.writers)
    (hpending : c'.word.writerPending = c.word.writerPending)
    (hqueued : c'.word.hasQueued = c.word.hasQueued) : c'.Agrees := by
  unfold Core.Agrees Core.PendingAgrees Core.QueuedAgrees at h ⊢
  rw [hqueue, hwriters, hpending, hqueued]
  exact h

namespace Seat

theorem congr (h : Seat c i p) (hqueue : i ∈ c'.queue ↔ i ∈ c.queue)
    (hwriter : (c'.list.nodes i).isWriter = (c.list.nodes i).isWriter)
    (hstate : (c'.list.nodes i).state = (c.list.nodes i).state)
    (hwaiter : (c'.list.nodes i).waiter = (c.list.nodes i).waiter)
    (hround : c'.round i = c.round i) : Seat c' i p := by
  constructor
  · rw [hwriter]
    exact h.isWriter
  · rw [hwaiter, hstate, hround]
    exact h.waiter
  · rw [hqueue]
    exact h.queueing
  · rw [hqueue]
    exact h.linked
  · rw [hqueue]
    exact h.writer
  · rw [hqueue]
    exact h.reader
  · rw [hqueue, hstate]
    exact h.unwoken
  · exact h.once

theorem congr_list (h : Seat c i p) (hlist : c'.list = c.list) (hround : c'.round = c.round) :
    Seat c' i p := by
  apply h.congr
  · rw [Core.queue, Core.queue, hlist]
  all_goals first | rw [hlist] | rw [hround]

theorem move (h : Seat c i p) (hkind : p'.kind = p.kind) (hmode : p'.mode = p.mode)
    (hnode : p'.hasNode = p.hasNode)
    (hqueueing : i ∈ c.queue → p'.pc.queueing = true)
    (hlinked : p'.pc.linked = true → i ∈ c.queue)
    (hback : p'.pc.queueing = true → p.pc.queueing = true)
    (hwaiting : p.mode = .sync → p.kind = .reader → i ∈ c.queue → p'.pc.waiting = true)
    (harming : p.mode = .once → p'.pc.arming = false) : Seat c i p' := by
  refine ⟨?_, h.waiter, fun hi => ?_, hlinked, ?_, ?_, ?_, ?_⟩
  · rw [hkind]
    exact h.isWriter
  · rw [hnode]
    exact ⟨(h.queueing hi).1, hqueueing hi⟩
  · rw [hkind, hmode, hnode]
    exact fun hm hk hn hq => h.writer hm hk hn (hback hq)
  · rw [hkind, hmode]
    exact hwaiting
  · rw [hkind]
    exact h.unwoken
  · rw [hmode, hnode]
    exact fun hm => ⟨(h.once hm).1, harming hm⟩

theorem outside (h : Seat c i p) (hout : i ∉ c.queue) (hkind : p'.kind = p.kind)
    (hmode : p'.mode = p.mode) (hnode : p'.hasNode = p.hasNode)
    (hlinked : p'.pc.linked = false) (hback : p'.pc.queueing = true → p.pc.queueing = true)
    (harming : p'.pc.arming = false) : Seat c i p' := by
  apply h.move hkind hmode hnode
  · exact fun hi => absurd hi hout
  · simp [hlinked]
  · exact hback
  · exact fun _ _ hi => absurd hi hout
  · exact fun _ => harming

theorem links_iff (h : Seat c i p) (hpc : p.pc = .inside .arm) {linked : Bool}
    (hlinked : linked = true ↔ i ∈ c.queue) : p.links linked = true ↔ i ∉ c.queue := by
  have hq : p.pc.queueing = true := by simp [hpc, Pc.queueing]
  have hw : p.pc.waiting = false := by simp [hpc, Pc.waiting, Pc.linked]
  unfold Party.links
  split
  case h_1 hm hk =>
    have hout : i ∉ c.queue := by
      intro hi
      have hwaiting := h.reader hm hk hi
      rw [hw] at hwaiting
      cases hwaiting
    simp [hout]
  case h_2 hm hk =>
    cases hn : p.hasNode with
    | true =>
      have hi := h.writer hm hk hn hq
      simp [hi]
    | false =>
      have hout : i ∉ c.queue := by
        intro hi
        have hnode := (h.queueing hi).1
        rw [hn] at hnode
        cases hnode
      simp [hout]
  case h_3 => simp [← hlinked]

end Seat

namespace System.Queued

variable {s s' : System} {a : Action}

theorem exists_party (h : s.Queued) (hi : i ∈ s.core.queue) : ∃ q, s.parties[i]? = some q :=
  ⟨_, List.getElem?_eq_getElem (h.owned i hi)⟩

/-- A party moves. The others see its step only if it touches the queue or the flags, and then it
is the one that holds the spinlock. -/
theorem move (h : s.Queued) (hex : s.Exclusive) (hp : s.parties[i]? = some p)
    (hholds : c.list.Holds c.queue) (howned : ∀ j ∈ c.queue, j ∈ s.core.queue ∨ j = i)
    (hseats : ∀ j q, j ≠ i → s.parties[j]? = some q → Seat c j q) (hseat : Seat c i p')
    (hflags : (c.list = s.core.list ∧ c.word.writerPending = s.core.word.writerPending ∧
      c.word.hasQueued = s.core.word.hasQueued) ∨ p.pc.isInside = true)
    (hflagged : Flagged c i p') (hagrees : c.locked = false → c.Agrees) :
    Queued ⟨c, s.parties.set i p'⟩ := by
  have hlt : i < s.parties.length := (List.getElem?_eq_some_iff.mp hp).1
  refine ⟨hholds, fun j hj => ?_, fun j q hq => ?_, fun j q hq => ?_, hagrees⟩
  · rw [length_set]
    rcases howned j hj with hj | rfl
    · exact h.owned j hj
    · exact hlt
  · by_cases hji : j = i
    · subst hji
      obtain rfl : p' = q := by simpa [hlt] using hq
      exact hseat
    · exact hseats j q hji (by simpa [List.getElem?_set_ne (Ne.symm hji)] using hq)
  · by_cases hji : j = i
    · subst hji
      obtain rfl : p' = q := by simpa [hlt] using hq
      exact hflagged
    · have hq' : s.parties[j]? = some q := by simpa [List.getElem?_set_ne (Ne.symm hji)] using hq
      rcases hflags with ⟨hlist, hpending, hqueued⟩ | hin
      · apply (h.flagged j q hq').congr
        · rw [Core.queue, Core.queue, hlist]
        · rw [hlist]
        · exact hpending
        · exact hqueued
      · apply Flagged.of_outside
        by_contra hq''
        exact hji (hex.unique hq' hp (by simpa using hq'') hin)

theorem quiet (h : s.Queued) (hex : s.Exclusive) (hp : s.parties[i]? = some p)
    (hlist : c.list = s.core.list) (hround : c.round = s.core.round)
    (hpending : c.word.writerPending = s.core.word.writerPending)
    (hqueued : c.word.hasQueued = s.core.word.hasQueued) (hseat : Seat s.core i p')
    (hflagged : Flagged s.core i p') (hagrees : c.locked = false → s.core.Agrees) :
    Queued ⟨c, s.parties.set i p'⟩ := by
  have hqueue : c.queue = s.core.queue := by rw [Core.queue, Core.queue, hlist]
  refine h.move hex hp ?_ ?_ ?_ (hseat.congr_list hlist hround) (.inl ⟨hlist, hpending, hqueued⟩)
    (hflagged.congr hqueue (by rw [hlist]) hpending hqueued) fun hl => (hagrees hl).congr hqueue
      (by rw [hlist]) hpending hqueued
  · rw [hlist, hqueue]
    exact h.holds
  · rw [hqueue]
    exact fun j hj => .inl hj
  · exact fun j q _ hq => (h.seat j q hq).congr_list hlist hround

theorem flag (h : s.Queued) (hex : s.Exclusive) (hp : s.parties[i]? = some p)
    (hin : p.pc.isInside = true) (hlist : c.list = s.core.list) (hround : c.round = s.core.round)
    (hlocked : c.locked = s.core.locked) (hseat : Seat s.core i p') (hflagged : Flagged c i p') :
    Queued ⟨c, s.parties.set i p'⟩ := by
  have hqueue : c.queue = s.core.queue := by rw [Core.queue, Core.queue, hlist]
  refine h.move hex hp ?_ ?_ ?_ (hseat.congr_list hlist hround) (.inr hin) hflagged fun hl => ?_
  · rw [hlist, hqueue]
    exact h.holds
  · rw [hqueue]
    exact fun j hj => .inl hj
  · exact fun j q _ hq => (h.seat j q hq).congr_list hlist hround
  · rw [hlocked, hex.locked hp hin] at hl
    cases hl

theorem firstWriter_ne_none (h : s.Queued) (hw : 0 < s.core.list.writers) :
    s.core.list.firstWriter ≠ none := by
  obtain ⟨j, hj, hwriter⟩ := h.holds.writers_ne_zero.mp (Nat.pos_iff_ne_zero.mp hw)
  rw [h.holds.firstWriter]
  intro hnone
  exact List.find?_eq_none.mp hnone j hj hwriter

theorem isEmpty (h : s.Queued) : s.core.list.isEmpty = true ↔ s.core.queue = [] := by
  rw [WaitList.isEmpty, h.holds.len]
  simp

/-! ### The steps that change the list -/

theorem arm_queue (h : s.Queued) (hp : s.parties[i]? = some p) (hpc : p.pc = .inside .arm) :
    (s.core.arm i p).list.Holds (s.core.arm i p).queue ∧
      (s.core.arm i p).queue = if i ∈ s.core.queue then s.core.queue else s.core.queue ++ [i] := by
  have hrearm := h.holds.rearm i ⟨i, s.core.round i + 1⟩
  have hlinks := (h.seat i p hp).links_iff hpc (hrearm.linked i)
  have hholds : (s.core.arm i p).list.Holds
      (if i ∈ s.core.queue then s.core.queue else s.core.queue ++ [i]) := by
    unfold Core.arm
    dsimp only
    split_ifs with hl hi hi
    · exact absurd hi (hlinks.mp hl)
    · exact hrearm.linkBack hi
    · exact hrearm
    · exact absurd (hlinks.mpr hi) hl
  have hqueue := hholds.waiters
  rw [Core.queue, hqueue]
  exact ⟨hholds, rfl⟩

theorem arm_node (h : s.Queued) (hp : s.parties[i]? = some p) (hpc : p.pc = .inside .arm) (j : ℕ) :
    ((s.core.arm i p).list.nodes j).isWriter = (s.core.list.nodes j).isWriter ∧
      ((s.core.arm i p).list.nodes j).state =
        (if j = i then .waiting else (s.core.list.nodes j).state) ∧
      ((s.core.arm i p).list.nodes j).waiter =
        (if j = i then some ⟨i, s.core.round i + 1⟩ else (s.core.list.nodes j).waiter) := by
  have hrearm := h.holds.rearm i ⟨i, s.core.round i + 1⟩
  have hlinks := (h.seat i p hp).links_iff hpc (hrearm.linked i)
  have hnode : ((s.core.list.rearm i ⟨i, s.core.round i + 1⟩).nodes j).isWriter =
        (s.core.list.nodes j).isWriter ∧
      ((s.core.list.rearm i ⟨i, s.core.round i + 1⟩).nodes j).state =
        (if j = i then .waiting else (s.core.list.nodes j).state) ∧
      ((s.core.list.rearm i ⟨i, s.core.round i + 1⟩).nodes j).waiter =
        (if j = i then some ⟨i, s.core.round i + 1⟩ else (s.core.list.nodes j).waiter) := by
    rw [WaitList.rearm, WaitList.modify_nodes]
    split_ifs with hji
    · rw [hji]
      exact ⟨rfl, rfl, rfl⟩
    · exact ⟨rfl, rfl, rfl⟩
  unfold Core.arm
  dsimp only
  by_cases hl : p.links ((s.core.list.rearm i ⟨i, s.core.round i + 1⟩).nodes i).linked = true
  · rw [if_pos hl]
    obtain ⟨hw, hs, hh⟩ := hrearm.linkBack_node (hlinks.mp hl) j
    exact ⟨hw.trans hnode.1, hs.trans hnode.2.1, hh.trans hnode.2.2⟩
  · rw [if_neg hl]
    exact hnode

theorem mem_arm_queue (h : s.Queued) (hp : s.parties[i]? = some p) (hpc : p.pc = .inside .arm)
    (j : ℕ) (hji : j ≠ i) : j ∈ (s.core.arm i p).queue ↔ j ∈ s.core.queue := by
  rw [(h.arm_queue hp hpc).2]
  split_ifs <;> simp [hji]

theorem arm_writers (h : s.Queued) (hp : s.parties[i]? = some p) (hpc : p.pc = .inside .arm)
    (hk : p.kind = .reader) : (s.core.arm i p).list.writers ≠ 0 ↔ s.core.list.writers ≠ 0 := by
  have hnode := h.arm_node hp hpc
  have hothers := h.mem_arm_queue hp hpc
  have hnotWriter : (s.core.list.nodes i).isWriter ≠ true := by
    intro hw
    have hkw := (h.seat i p hp).isWriter.mp hw
    rw [hk] at hkw
    cases hkw
  rw [(h.arm_queue hp hpc).1.writers_ne_zero, h.holds.writers_ne_zero]
  constructor
  · rintro ⟨j, hj, hw⟩
    rw [(hnode j).1] at hw
    have hji : j ≠ i := fun he => hnotWriter (he ▸ hw)
    exact ⟨j, (hothers j hji).mp hj, hw⟩
  · rintro ⟨j, hj, hw⟩
    have hji : j ≠ i := fun he => hnotWriter (he ▸ hw)
    exact ⟨j, (hothers j hji).mpr hj, by rw [(hnode j).1]; exact hw⟩

theorem arm (h : s.Queued) (hex : s.Exclusive) (hp : s.parties[i]? = some p)
    (hpc : p.pc = .inside .arm) :
    Queued ⟨s.core.arm i p, s.parties.set i { p with hasNode := true, pc := .raise }⟩ := by
  obtain ⟨hholds, hqueue⟩ := h.arm_queue hp hpc
  have hnode := h.arm_node hp hpc
  have hin : p.pc.isInside = true := by simp [hpc, Pc.isInside]
  have hseat := h.seat i p hp
  have hflagged : s.core.Agrees := by simpa [Flagged, hpc] using h.flagged i p hp
  have hmem : i ∈ (s.core.arm i p).queue := by
    rw [hqueue]
    split_ifs with hi <;> simp [hi]
  have hothers := h.mem_arm_queue hp hpc
  refine h.move hex hp hholds ?_ ?_ ?_ (.inr hin) ?_ fun hl => ?_
  · intro j hj
    by_cases hji : j = i
    · exact .inr hji
    · exact .inl ((hothers j hji).mp hj)
  · intro j q hji hq
    obtain ⟨hw, hs, hh⟩ := hnode j
    rw [if_neg hji] at hs hh
    exact (h.seat j q hq).congr (hothers j hji) hw hs hh (by simp [Core.arm, hji])
  · obtain ⟨hw, hs, hh⟩ := hnode i
    rw [if_pos rfl] at hs hh
    refine ⟨?_, ?_, fun _ => ⟨rfl, rfl⟩, fun _ => hmem, fun _ _ _ _ => hmem, fun _ _ _ => rfl,
      fun _ _ => hs, fun hm => ?_⟩
    · rw [hw]
      exact hseat.isWriter
    · rw [hh, hs]
      simp [Core.arm]
    · have harming := (hseat.once hm).2
      simp [hpc, Pc.arming] at harming
  · refine ⟨fun hk => ?_, fun hne => ?_⟩
    · exact hflagged.1.trans (h.arm_writers hp hpc hk).symm
    · refine hflagged.2.mpr fun hnil => hne ?_
      rw [hqueue, hnil]
      simp
  · have hlocked := hex.locked hp hin
    rw [show (s.core.arm i p).locked = s.core.locked from rfl, hlocked] at hl
    cases hl

theorem unlink (h : s.Queued) (hex : s.Exclusive) (hp : s.parties[i]? = some p)
    (hin : p.pc.isInside = true) (hflags : s.core.Agrees) {a : After} (ha : a ≠ .park) :
    Queued ⟨{ s.core with list := (s.core.list.unlink i).2 },
      s.parties.set i { p with pc := .fixPending a }⟩ := by
  have hholds := h.holds.unlink_erase i
  have hqueue := hholds.waiters
  have hseat := h.seat i p hp
  have hout : i ∉ s.core.queue.erase i := fun hi => (h.holds.nodup.mem_erase_iff.mp hi).1 rfl
  refine h.move hex hp ?_ ?_ ?_ ?_ (.inr hin) ?_ fun hl => ?_
  · rw [Core.queue, hqueue]
    exact hholds
  · rw [Core.queue, hqueue]
    exact fun j hj => .inl (mem_of_mem_erase hj)
  · intro j q hji hq
    obtain ⟨hw, hs, hh⟩ := h.holds.unlink_node i j
    refine (h.seat j q hq).congr ?_ hw hs hh rfl
    rw [Core.queue, hqueue]
    exact mem_erase_of_ne hji
  · obtain ⟨hw, hs, hh⟩ := h.holds.unlink_node i i
    have hout' : i ∉ Core.queue { s.core with list := (s.core.list.unlink i).2 } := by
      rw [Core.queue, hqueue]
      exact hout
    refine ⟨?_, ?_, fun hi => absurd hi hout', fun hl => ?_, fun _ _ _ hq => ?_,
      fun _ _ hi => absurd hi hout', fun _ hi => absurd hi hout', fun hm => ?_⟩
    · rw [hw]
      exact hseat.isWriter
    · rw [hh, hs]
      exact hseat.waiter
    · simp [Pc.linked] at hl
    · cases a <;> simp_all [Pc.queueing]
    · exact ⟨(hseat.once hm).1, rfl⟩
  · intro hne
    apply hflags.2.mpr
    intro hnil
    apply hne
    rw [Core.queue, hqueue, hnil]
    rfl
  · rw [hex.locked hp hin] at hl
    cases hl

theorem mark (h : s.Queued) (hex : s.Exclusive) (hp : s.parties[i]? = some p)
    (hin : p.pc.isInside = true) (hout : i ∉ s.core.queue) (hj : j ∈ s.core.queue)
    {l : WaitList} (hholds : l.Holds (s.core.queue.erase j) ∧
        (s.core.list.nodes j).isWriter = false ∨
      l.Holds s.core.queue ∧ (s.core.list.nodes j).isWriter = true)
    (hnode : ∀ k, (l.nodes k).isWriter = (s.core.list.nodes k).isWriter ∧
      (l.nodes k).state = (if k = j then .woken else (s.core.list.nodes k).state) ∧
      (l.nodes k).waiter = (if k = j then none else (s.core.list.nodes k).waiter))
    (hkind : p'.kind = p.kind) (hmode : p'.mode = p.mode) (hhas : p'.hasNode = p.hasNode)
    (hqueueing : p'.pc.queueing = false) (hlinked : p'.pc.linked = false)
    (harming : p'.pc.arming = false) (hflagged : Flagged { s.core with list := l } i p') :
    Queued ⟨{ s.core with list := l }, s.parties.set i p'⟩ := by
  set c : Core := { s.core with list := l } with hc
  have hji : j ≠ i := fun he => hout (he ▸ hj)
  have hholds' : l.Holds c.queue := by
    rcases hholds with ⟨hl, -⟩ | ⟨hl, -⟩
    all_goals
      rw [Core.queue, hc, hl.waiters]
      exact hl
  have hsub : ∀ k ∈ c.queue, k ∈ s.core.queue := by
    intro k hk
    rcases hholds with ⟨hl, -⟩ | ⟨hl, -⟩
    all_goals rw [Core.queue, hc, hl.waiters] at hk
    · exact mem_of_mem_erase hk
    · exact hk
  have hothers : ∀ k, k ≠ j → (k ∈ c.queue ↔ k ∈ s.core.queue) := by
    intro k hkj
    rcases hholds with ⟨hl, -⟩ | ⟨hl, -⟩
    all_goals rw [Core.queue, hc, hl.waiters]
    exact mem_erase_of_ne hkj
  refine h.move hex hp hholds' (fun k hk => .inl (hsub k hk)) ?_ ?_ (.inr hin) hflagged fun hl => ?_
  · intro k q hki hq
    have hseat := h.seat k q hq
    obtain ⟨hw, hs, hh⟩ := hnode k
    by_cases hkj : k = j
    · subst hkj
      rw [if_pos rfl] at hs hh
      refine ⟨?_, ?_, fun hk => hseat.queueing hj, fun hl => ?_, fun _ hk _ _ => ?_,
        fun hm hk hin => hseat.reader hm hk (hsub k hin), fun hk hin => ?_, hseat.once⟩
      · rw [hw]
        exact hseat.isWriter
      · rw [hh, hs]
        rfl
      · -- only the holder of the spinlock relies on its link
        have hqin : q.pc.isInside = true := by
          cases hpc : q.pc <;> simp_all [Pc.linked, Pc.isInside]
        exact absurd (hex.unique hq hp hqin hin) hki
      all_goals rcases hholds with ⟨hl, hr⟩ | ⟨hl, hr⟩
      · rw [hseat.isWriter.mpr hk] at hr
        cases hr
      · rw [Core.queue, hc, hl.waiters]
        exact hj
      · rw [Core.queue, hc, hl.waiters] at hin
        exact absurd rfl (h.holds.nodup.mem_erase_iff.mp hin).1
      · rw [hseat.isWriter.mp hr] at hk
        cases hk
    · rw [if_neg hkj] at hs hh
      exact hseat.congr (hothers k hkj) hw hs hh rfl
  · obtain ⟨hw, hs, hh⟩ := hnode i
    rw [if_neg (Ne.symm hji)] at hs hh
    have hout' : i ∉ c.queue := fun hi => hout (hsub i hi)
    have hseat : Seat c i p := (h.seat i p hp).congr (hothers i (Ne.symm hji)) hw hs hh rfl
    apply hseat.move hkind hmode hhas
    · exact fun hi => absurd hi hout'
    · simp [hlinked]
    · simp [hqueueing]
    · exact fun _ _ hi => absurd hi hout'
    · exact fun _ => harming
  · rw [hc, hex.locked hp hin] at hl
    cases hl

theorem start (h : s.Queued) (kind : Kind) (mode : Mode) :
    Queued ⟨s.core.enter s.parties.length kind,
      s.parties ++ [⟨kind, mode, false, .attempt (attempts mode)⟩]⟩ := by
  have hnew : s.parties.length ∉ s.core.queue := fun hi => Nat.lt_irrefl _ (h.owned _ hi)
  have hholds := h.holds.create hnew (decide (kind = .writer))
    ⟨s.parties.length, s.core.round s.parties.length⟩
  set c : Core := s.core.enter s.parties.length kind with hc
  have hqueue : c.queue = s.core.queue := hholds.waiters
  have hnode : ∀ j ≠ s.parties.length, c.list.nodes j = s.core.list.nodes j := by
    intro j hj
    rw [hc, Core.enter]
    simp [WaitList.create, hj]
  have hsplit : ∀ j q, (s.parties ++ [⟨kind, mode, false, .attempt (attempts mode)⟩])[j]? = some q →
      (j ≠ s.parties.length ∧ s.parties[j]? = some q) ∨
        j = s.parties.length ∧ q = ⟨kind, mode, false, .attempt (attempts mode)⟩ := by
    intro j q hq
    rcases Nat.lt_trichotomy j s.parties.length with hj | rfl | hj
    · rw [List.getElem?_append_left hj] at hq
      exact .inl ⟨Nat.ne_of_lt hj, hq⟩
    · exact .inr ⟨rfl, by simpa using hq.symm⟩
    · rw [List.getElem?_eq_none (by simp; omega)] at hq
      cases hq
  refine ⟨?_, fun j hj => ?_, fun j q hq => ?_, fun j q hq => ?_, fun hl => ?_⟩
  · rw [hqueue]
    exact hholds
  · rw [hqueue] at hj
    rw [length_append]
    exact Nat.lt_add_right _ (h.owned j hj)
  · rcases hsplit j q hq with ⟨hj, hq⟩ | ⟨rfl, rfl⟩
    · exact (h.seat j q hq).congr (by rw [hqueue]) (by rw [hnode j hj]) (by rw [hnode j hj])
        (by rw [hnode j hj]) rfl
    · have hout : s.parties.length ∉ c.queue := hqueue ▸ hnew
      have hself : c.list.nodes s.parties.length = .new (decide (kind = .writer))
          ⟨s.parties.length, s.core.round s.parties.length⟩ := by
        rw [hc, Core.enter]
        simp [WaitList.create]
      refine ⟨?_, ?_, fun hi => absurd hi hout, fun hl => ?_, fun _ _ hn => ?_,
        fun _ _ hi => absurd hi hout, fun _ hi => absurd hi hout, fun _ => ⟨rfl, rfl⟩⟩
      · rw [hself]
        simp [WaiterNode.new]
      · rw [hself]
        rfl
      · simp [Pc.linked] at hl
      · cases hn
  · rcases hsplit j q hq with ⟨hj, hq⟩ | ⟨rfl, rfl⟩
    · exact (h.flagged j q hq).congr hqueue rfl rfl rfl
    · exact trivial
  · exact (h.agrees hl).congr hqueue rfl rfl rfl

theorem step (h : s.Queued) (hex : s.Exclusive) (hstep : s.step a = some s') : s'.Queued := by
  rcases step_cases hstep with ⟨kind, mode, rfl⟩ | ⟨i, p, c, p', hp, hmove, rfl⟩
  · exact h.start kind mode
  have hseat := h.seat i p hp
  have hflagged := h.flagged i p hp
  -- a blocking reader that is not waiting is not queued
  have hreader : p.pc.waiting = false → p.mode = .sync → p.kind = .reader → i ∉ s.core.queue := by
    intro hw hm hk hi
    rw [hseat.reader hm hk hi] at hw
    cases hw
  have hidle : p.pc.queueing = false → i ∉ s.core.queue := by
    intro hq hi
    rw [(hseat.queueing hi).2] at hq
    cases hq
  cases hmove with
  | @fail n hpc =>
    have hr : p.pc.waiting = false ∧ p.pc.queueing = true := by
      rcases hpc with hpc | ⟨w, hpc⟩
      all_goals simp [hpc, Pc.waiting, Pc.linked, Pc.queueing]
    refine h.quiet hex hp rfl rfl rfl rfl ?_ ?_ h.agrees
    · have hnext : (p.failed n).pc.linked = false ∧
          (p.mode ≠ .once → (p.failed n).pc.queueing = true) ∧
          (p.mode = .once → (p.failed n).pc.arming = false) := by
        unfold Party.failed
        dsimp only
        split_ifs with hn hm
        all_goals simp_all [Pc.linked, Pc.queueing, Pc.arming]
      refine hseat.move rfl rfl rfl (fun hi => hnext.2.1 fun hm => ?_) (by simp [hnext.1])
        (fun _ => hr.2) (fun hm hk hi => absurd hi (hreader hr.1 hm hk)) hnext.2.2
      have hnode := (hseat.queueing hi).1
      rw [(hseat.once hm).1] at hnode
      cases hnode
    · apply Flagged.of_outside
      unfold Party.failed
      dsimp only
      split_ifs <;> rfl
  | @look n hpc hb =>
    refine h.quiet hex hp rfl rfl rfl rfl ?_ trivial h.agrees
    have hr := hreader (by simp [hpc, Pc.waiting, Pc.linked])
    exact hseat.move rfl rfl rfl (fun _ => rfl) (by simp [Pc.linked]) (by simp [hpc, Pc.queueing])
      (fun hm hk hi => absurd hi (hr hm hk)) fun _ => rfl
  | acquire hpc =>
    have hr := hreader (by simp [hpc, Pc.waiting, Pc.linked])
    refine h.quiet hex hp rfl rfl ?_ ?_ ?_ ?_ h.agrees
    · cases p.kind <;> rfl
    · cases p.kind <;> rfl
    · have hnext : p.acquired.pc.linked = false ∧ p.acquired.pc.arming = false ∧
          (p.hasNode = true → ¬ (p.mode = .sync ∧ p.kind = .reader) →
            p.acquired.pc.queueing = true) := by
        unfold Party.acquired
        dsimp only
        split_ifs <;> simp_all [Pc.linked, Pc.queueing, Pc.arming]
      refine hseat.move rfl rfl rfl (fun hi => ?_) (by simp [hnext.1]) ?_
        (fun hm hk hi => absurd hi (hr hm hk)) fun _ => hnext.2.1
      · exact hnext.2.2 (hseat.queueing hi).1 fun hm => hr hm.1 hm.2 hi
      · simp [hpc, Pc.queueing]
    · apply Flagged.of_outside
      unfold Party.acquired
      dsimp only
      split_ifs <;> rfl
  | @lock e hpc hl =>
    have hr := hreader (by simp [hpc, Pc.waiting, Pc.linked])
    have hagrees := h.agrees hl
    refine h.quiet hex hp rfl rfl rfl rfl ?_ hagrees fun hl' => absurd hl' (by simp)
    refine hseat.move rfl rfl rfl (fun hi => ?_) (by simp [Pc.linked]) ?_
      (fun hm hk hi => absurd hi (hr hm hk)) fun hm => ?_
    · have hq := (hseat.queueing hi).2
      cases e <;> simp_all [Pc.queueing]
    · cases e <;> simp [hpc, Pc.queueing]
    · have harming := (hseat.once hm).2
      cases e <;> simp_all [Pc.arming]
  | arm hpc => exact h.arm hex hp hpc
  | raise hpc =>
    have hmem := hseat.linked (by simp [hpc, Pc.linked])
    refine h.flag hex hp (by simp [hpc, Pc.isInside]) rfl rfl rfl ?_ ?_
    · exact hseat.move rfl rfl rfl (fun _ => rfl) (fun _ => hmem) (by simp [hpc, Pc.queueing])
        (fun _ _ _ => rfl) fun _ => rfl
    · simp only [Flagged, hpc] at hflagged
      have hne : s.core.queue ≠ [] := ne_nil_of_mem hmem
      cases hk : p.kind with
      | reader => exact ⟨hflagged.1 hk, fun _ => hne, fun _ => rfl⟩
      | writer =>
        have hwriters := h.holds.writers_ne_zero.mpr ⟨i, hmem, hseat.isWriter.mpr hk⟩
        exact ⟨⟨fun _ => hwriters, fun _ => rfl⟩, fun _ => hne, fun _ => rfl⟩
  | block hpc hb =>
    have hagrees : s.core.Agrees := by simpa [Flagged, hpc] using hflagged
    refine h.quiet hex hp rfl rfl rfl rfl ?_ hagrees h.agrees
    exact hseat.move rfl rfl rfl (fun _ => rfl) (by simp [Pc.linked]) (by simp [hpc, Pc.queueing])
      (fun _ _ _ => rfl) fun _ => rfl
  | relook hpc hb =>
    have hagrees : s.core.Agrees := by simpa [Flagged, hpc] using hflagged
    refine h.quiet hex hp rfl rfl rfl rfl ?_ hagrees h.agrees
    exact hseat.move rfl rfl rfl (fun _ => rfl) (fun _ => hseat.linked (by simp [hpc, Pc.linked]))
      (by simp [hpc, Pc.queueing]) (fun _ _ _ => rfl) fun _ => rfl
  | miss hpc =>
    have hagrees : s.core.Agrees := by simpa [Flagged, hpc] using hflagged
    refine h.quiet hex hp rfl rfl rfl rfl ?_ hagrees h.agrees
    exact hseat.move rfl rfl rfl (fun _ => rfl) (fun _ => hseat.linked (by simp [hpc, Pc.linked]))
      (by simp [hpc, Pc.queueing]) (fun _ _ _ => rfl) fun _ => rfl
  | win hpc =>
    have hagrees : s.core.Agrees := by simpa [Flagged, hpc] using hflagged
    refine h.quiet hex hp rfl rfl ?_ ?_ ?_ hagrees h.agrees
    · cases p.kind <;> rfl
    · cases p.kind <;> rfl
    · exact hseat.move rfl rfl rfl (fun _ => rfl)
        (fun _ => hseat.linked (by simp [hpc, Pc.linked])) (by simp [hpc, Pc.queueing])
        (fun _ _ _ => rfl) fun _ => rfl
  | won hpc =>
    exact h.unlink hex hp (by simp [hpc, Pc.isInside]) (by simpa [Flagged, hpc] using hflagged)
      (by simp)
  | unlink hpc he =>
    refine h.unlink hex hp (by simp [hpc, Pc.isInside]) (by simpa [Flagged, hpc] using hflagged) ?_
    rcases he with rfl | rfl <;> simp [Entry.after]
  | @skip e hpc he hr =>
    have hagrees : s.core.Agrees := by simpa [Flagged, hpc] using hflagged
    have hout : i ∉ s.core.queue := by
      intro hi
      rw [(h.holds.unlink hi).1] at hr
      cases hr
    rw [h.holds.unlink_of_notMem hout]
    refine h.quiet hex hp rfl rfl rfl rfl (hseat.outside hout rfl rfl rfl rfl ?_ rfl) hagrees
      h.agrees
    rcases he with rfl | rfl <;> simp [Entry.after, Pc.queueing]
  | @wakeWriter j hpc hw hj =>
    have hagrees : s.core.Agrees := by simpa [Flagged, hpc] using hflagged
    have hout := hidle (by simp [hpc, Pc.queueing])
    rw [h.holds.firstWriter] at hj
    have hmem := mem_of_find?_eq_some hj
    have hwriter := List.find?_some hj
    have hholds := h.holds.takeAndMarkWoken j
    refine h.mark hex hp (by simp [hpc, Pc.isInside]) hout hmem (.inr ⟨hholds, hwriter⟩) (fun k => ?_)
      rfl rfl rfl rfl rfl rfl ?_
    · exact WaitList.Holds.takeAndMarkWoken_node _ j k
    · exact hagrees.congr hholds.waiters rfl rfl rfl
  | wakeReaders hpc hw =>
    have hagrees : s.core.Agrees := by simpa [Flagged, hpc] using hflagged
    have hout := hidle (by simp [hpc, Pc.queueing])
    exact h.quiet hex hp rfl rfl rfl rfl (hseat.outside hout rfl rfl rfl rfl (by simp [Pc.queueing])
      rfl) ⟨hw, h.holds.head, hagrees.2.mpr⟩ h.agrees
  | @pop j wakes hpc =>
    simp only [Flagged, hpc] at hflagged
    obtain ⟨hzero, hhead, hraised⟩ := hflagged
    have hout := hidle (by simp [hpc, Pc.queueing])
    obtain ⟨rest, hrest⟩ : ∃ rest, s.core.queue = j :: rest :=
      List.head?_eq_some_iff.mp hhead.symm
    have hmem : j ∈ s.core.queue := by simp [hrest]
    have hholds := (h.holds.unlink_erase j).takeAndMarkWoken j
    have hqueue : (s.core.list.pop j).2.waiters = rest := by
      rw [WaitList.pop, hholds.waiters, hrest, erase_cons_head]
    have hnode := h.holds.pop_node j
    have hnotWriter : ∀ k ∈ s.core.queue, (s.core.list.nodes k).isWriter = false := by
      intro k hk
      by_contra hw
      exact h.holds.writers_ne_zero.mpr ⟨k, hk, by simpa using hw⟩ hzero
    refine h.mark hex hp (by simp [hpc, Pc.isInside]) hout hmem
      (.inl ⟨hholds, hnotWriter j hmem⟩) hnode rfl rfl rfl rfl rfl rfl ⟨?_, ?_, fun _ => ?_⟩
    · by_contra hw
      obtain ⟨k, hk, hwriter⟩ := hholds.writers_ne_zero.mp hw
      have hkq := mem_of_mem_erase hk
      have hwriter' : ((s.core.list.pop j).2.nodes k).isWriter = true := hwriter
      rw [(hnode k).1, hnotWriter k hkq] at hwriter'
      cases hwriter'
    · have hlinks := h.holds.links
      rw [hrest] at hlinks
      rw [Core.queue, hqueue]
      exact hlinks.next_eq (l := [])
    · exact hraised (ne_nil_of_mem hmem)
  | popped hpc =>
    simp only [Flagged, hpc] at hflagged
    have hout := hidle (by simp [hpc, Pc.queueing])
    exact h.quiet hex hp rfl rfl rfl rfl (hseat.outside hout rfl rfl rfl rfl (by simp [Pc.queueing])
      rfl) hflagged.2.2 h.agrees
  | @fixPending a hpc =>
    simp only [Flagged, hpc] at hflagged
    have hr := hreader (by simp [hpc, Pc.waiting, Pc.linked])
    refine h.flag hex hp (by simp [hpc, Pc.isInside]) rfl rfl rfl ?_ ⟨?_, hflagged⟩
    · refine hseat.move rfl rfl rfl (fun hi => ?_) (by simp [Pc.linked]) ?_
        (fun hm hk hi => absurd hi (hr hm hk)) fun _ => rfl
      · have hq := (hseat.queueing hi).2
        cases a <;> simp_all [Pc.queueing]
      · cases a <;> simp [hpc, Pc.queueing]
    · simp [Core.PendingAgrees]
  | @fixQueued a hpc =>
    simp only [Flagged, hpc] at hflagged
    have hr := hreader (by simp [hpc, Pc.waiting, Pc.linked])
    refine h.flag hex hp (by simp [hpc, Pc.isInside]) rfl rfl rfl ?_ ⟨hflagged.1, ?_⟩
    · refine hseat.move rfl rfl rfl (fun hi => ?_) (by simp [Pc.linked]) ?_
        (fun hm hk hi => absurd hi (hr hm hk)) fun _ => rfl
      · have hq := (hseat.queueing hi).2
        cases a <;> simp_all [Pc.queueing]
      · cases a <;> simp [hpc, Pc.queueing]
    · simp only [Core.QueuedAgrees, Bool.not_eq_true']
      rw [← Bool.not_eq_true, h.isEmpty]
      rfl
  | @leave a hpc =>
    have hagrees : s.core.Agrees := by simpa [Flagged, hpc] using hflagged
    refine h.quiet hex hp rfl rfl rfl rfl ?_ ?_ fun _ => hagrees
    · refine hseat.move rfl rfl rfl (fun hi => ?_) ?_ ?_ (fun hm hk hi => ?_) fun _ => ?_
      · have hq := (hseat.queueing hi).2
        cases a <;> simp_all [Pc.queueing, After.pc]
      · cases a <;> simp [After.pc, Pc.linked]
      · cases a <;> simp [hpc, Pc.queueing, After.pc]
      · have hw := hseat.reader hm hk hi
        cases a <;> simp_all [Pc.waiting, Pc.linked, After.pc]
      · cases a <;> rfl
    · apply Flagged.of_outside
      cases a <;> rfl
  | retry hpc hwoken =>
    refine h.quiet hex hp rfl rfl rfl rfl ?_ trivial h.agrees
    refine hseat.move rfl rfl rfl (fun _ => rfl) (by simp [Pc.linked]) (by simp [hpc, Pc.queueing])
      (fun hm hk hi => ?_) fun _ => rfl
    have hstate := hseat.unwoken hk hi
    rw [hwoken hm] at hstate
    cases hstate
  | sleep hpc => exact h.quiet hex hp rfl rfl rfl rfl hseat hflagged h.agrees
  | release hpc =>
    have hout := hidle (by simp [hpc, Pc.queueing])
    refine h.quiet hex hp rfl rfl ?_ ?_ (hseat.outside hout rfl rfl rfl ?_ ?_ ?_) ?_ h.agrees
    · cases p.kind <;> rfl
    · cases p.kind <;> rfl
    · dsimp only
      split_ifs <;> rfl
    · dsimp only
      split_ifs <;> simp [Pc.queueing]
    · dsimp only
      split_ifs <;> rfl
    · apply Flagged.of_outside
      dsimp only
      split_ifs <;> rfl
  | pass hpc hwoken =>
    have hout := hidle (by simp [hpc, Pc.queueing])
    exact h.quiet hex hp rfl rfl rfl rfl (hseat.outside hout rfl rfl rfl rfl (by simp [Pc.queueing])
      rfl) trivial h.agrees
  | finish hpc =>
    have hout : i ∉ s.core.queue := by
      rcases hpc with ⟨hpc, -⟩ | hpc
      all_goals exact hidle (by simp [hpc, Pc.queueing])
    exact h.quiet hex hp rfl rfl rfl rfl (hseat.outside hout rfl rfl rfl rfl (by simp [Pc.queueing])
      rfl) trivial h.agrees
  | call hpc =>
    have hout := hidle (by simp [hpc, Pc.queueing])
    exact h.quiet hex hp rfl rfl rfl rfl (hseat.outside hout rfl rfl rfl rfl (by simp [Pc.queueing])
      rfl) trivial h.agrees
  | drop hm hpc =>
    refine h.quiet hex hp rfl rfl rfl rfl ?_ trivial h.agrees
    refine hseat.move rfl rfl rfl (fun _ => rfl) (by simp [Pc.linked]) (by simp [hpc, Pc.queueing])
      (fun hs _ _ => ?_) fun _ => rfl
    rw [hm] at hs
    cases hs

end System.Queued

end Fibre.Channels.Sync
