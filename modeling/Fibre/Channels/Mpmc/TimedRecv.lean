import Mathlib.Data.Set.Card
import Fibre.Channels.Mpmc.Listeners

/-!
# The timed receive

A timed receive queues itself once. From then on it loops: it looks at the clock, parks, and when
its flag says so tries to receive. When its time is up it cancels its flag; if that fails, a sender
has notified it, and it takes the item it was notified of. Nobody keeps that item for it: another
receive can be faster, and then the code that was thought to be unreachable is reached.
-/

namespace Fibre.Channels.Mpmc

open WaiterState Function Machine Option List

variable {T : Type*} {capacity : UInt64}

/-- How a timed receive ends. -/
inductive Ended (T : Type*)
  | item (items : List T)
  | disconnected
  | timeout
  /-- the `unreachable!` panic -/
  | unreachable

/-- A timed receive that ended. -/
structure Return (T : Type*) where
  caller : ℕ
  result : Ended T
  deadline : ℕ
  time : ℕ

/-- The channel with a clock. -/
structure Timed (T : Type*) where
  system : System T
  now : ℕ
  deadline : ℕ → ℕ
  /-- the receive found time left and is in `park_timeout` -/
  armed : ℕ → Bool
  returned : List (Return T)

/-- A step of the machine. -/
inductive Move (T : Type*)
  | tick
  | recvTimeout (i : ℕ) (timeout : ℕ)
  | event (e : Event T)
  /-- the head of the loop, with time left -/
  | look (i : ℕ)
  /-- `park_timeout` returns, and the flag says nothing -/
  | spurious (i : ℕ)

/-- A timed receive in its loop, at the head or in `park_timeout`. -/
def Task.inLoop : Task T → Bool
  | .recvParked .timed _ | .timedAsleep => true
  | _ => false

/-- A timed receive that has queued itself, or found that it need not. -/
def Task.timedWait : Task T → Bool
  | .recvParked .timed _ | .timedAsleep | .timedRetry | .timedFinal => true
  | _ => false

namespace System

/-- How a receive ends at a locked section, `empty` being what an empty channel means there. -/
def lockedEnd (capacity : UInt64) (s : System T) (max : Option UInt64) (empty : Option (Ended T)) :
    Option (Ended T) :=
  match (s.recv capacity max).1 with
  | .ok items => some (.item items)
  | .disconnected => some .disconnected
  | .empty => empty

/-- How the next locked section of the timed receive `i` ends it. -/
def endsAt (capacity : UInt64) (s : System T) (i : ℕ) : Option (Ended T) :=
  match s.tasks i with
  | .recvTry .timed max => s.lockedEnd capacity max none
  | .timedRetry => s.lockedEnd capacity none none
  | .timedFinal => s.lockedEnd capacity none (some .unreachable)
  | .recvRegister .timed _ =>
    if !recvRecheck capacity s.core .timed ∧ s.core.senderCount = 0 then some .disconnected
    else none
  | .recvDropped .timed => some .timeout
  | _ => none

/-- The timed receive that an event ends, and how. -/
def ends (capacity : UInt64) (s : System T) : Event T → Option (ℕ × Ended T)
  | .act (.advance i) => (s.endsAt capacity i).map (i, ·)
  | _ => none

/-- The timed receives that were notified and have not taken an item since. -/
def notified (s : System T) : Set ℕ :=
  {i | (s.tasks i).timedWait ∧ s.core.flags i = successSpace}

/-- A receive of one item (`none`) or at most `max`, by one of the notified or by someone else,
leaves an item for each other one; without senders there is nothing to spare. -/
def SparesItems (s : System T) (caller : Option ℕ) (max : Option UInt64) : Prop :=
  s.core.senderCount = 0 ∨ {i ∈ s.notified | some i ≠ caller}.encard +
    (min (max.elim 1 UInt64.toNat) s.core.queueLen.toNat : ℕ) ≤ (s.core.queueLen.toNat : ℕ∞)

/-- Every receive spares the items of the notified, and no sender comes back. -/
def Spares (s : System T) : Event T → Prop
  | .act .tryRecv => s.SparesItems none none
  | .act (.tryRecvBatch max) => s.SparesItems none (some max)
  | .act (.advance i) =>
    match s.tasks i with
    | .recvTry _ max => s.SparesItems (some i) max
    | .timedRetry | .timedFinal => s.SparesItems (some i) none
    | _ => True
  | .reviveSender => False
  | _ => True

end System

namespace Timed

/-- A new channel. -/
def init (capacity : UInt64) : Timed T := ⟨System.init capacity, 0, fun _ => 0, fun _ => false, []⟩

/-- A timed receive goes on from its loop as its code says; it starts with a `recvTimeout`. -/
def allows (t : Timed T) : Event T → Bool
  | .act (.startRecv _ k _) => k ≠ .timed
  | .act (.resume i) => !(t.system.tasks i).inLoop || t.armed i
  | .act (.timeout i) => !t.armed i && t.deadline i ≤ t.now
  | _ => true

/-- Back to the head of the loop. -/
def disarm (t : Timed T) : Event T → ℕ → Bool
  | .act (.resume i) => update t.armed i false
  | _ => t.armed

/-- The interleaved steps of all parties. -/
def step (capacity : UInt64) (t : Timed T) : Move T → Option (Timed T)
  | .tick => some { t with now := t.now + 1 }
  | .recvTimeout i timeout =>
    (t.system.react capacity (.act (.startRecv i .timed none))).map fun s =>
      { t with system := s, deadline := update t.deadline i (t.now + timeout) }
  | .event e =>
    if t.allows e then
      (t.system.react capacity e).map fun s =>
        { t with
          system := s
          armed := t.disarm e
          returned := t.returned ++ ((t.system.ends capacity e).map fun r =>
            ⟨r.1, r.2, t.deadline r.1, t.now⟩).toList }
    else none
  | .look i =>
    if (t.system.tasks i).inLoop ∧ !t.armed i ∧ t.now < t.deadline i then
      some { t with armed := update t.armed i true }
    else none
  | .spurious i =>
    if (t.system.tasks i).inLoop ∧ t.armed i ∧ !(t.system.core.flags i).finished then
      some { t with armed := update t.armed i false }
    else none

end Timed

/-! ### A send stores an item for each receiver it notifies -/

namespace Internal

variable {c c' : Internal T} {P : Set ℕ} {w : ℕ}

/-- There is an item for each of `P` that was notified. -/
def Owed (P : Set ℕ) (c : Internal T) : Prop :=
  {i ∈ P | c.flags i = successSpace}.encard ≤ (c.queueLen.toNat : ℕ∞)

theorem Owed.store (h : Owed P c) (hflags : ∀ i ≠ w, c'.flags i = c.flags i)
    (hlen : c'.queueLen.toNat = c.queueLen.toNat + 1) : Owed P c' := by
  have hsub : {i ∈ P | c'.flags i = successSpace} ⊆
      insert w {i ∈ P | c.flags i = successSpace} := by
    rintro i ⟨hP, hi⟩
    rcases eq_or_ne i w with rfl | hne
    · exact Set.mem_insert _ _
    · exact Set.mem_insert_of_mem _ ⟨hP, (hflags i hne) ▸ hi⟩
  calc {i ∈ P | c'.flags i = successSpace}.encard
      ≤ (insert w {i ∈ P | c.flags i = successSpace}).encard := Set.encard_le_encard hsub
    _ ≤ {i ∈ P | c.flags i = successSpace}.encard + 1 := Set.encard_insert_le _ _
    _ ≤ (c.queueLen.toNat : ℕ∞) + 1 := add_le_add_left h 1
    _ = (c'.queueLen.toNat : ℕ∞) := by rw [hlen, Nat.cast_add, Nat.cast_one]

theorem wakeReceiver_flags (c : Internal T) :
    ∃ w, ∀ i ≠ w, (c.wakeReceiver.getD c).flags i = c.flags i := by
  unfold wakeReceiver
  split
  · rename_i r _
    exact ⟨r.1, fun i hi => by simp [setFlag, hi]⟩
  · split
    · rename_i r _
      exact ⟨r.1, fun i hi => by simp [setFlag, hi]⟩
    · exact ⟨0, fun _ _ => rfl⟩

theorem popReceiver_flags (c : Internal T) :
    ∃ w, ∀ i ≠ w, c.popReceiver.2.flags i = c.flags i := by
  unfold popReceiver
  dsimp only
  split
  · rename_i w _
    exact ⟨w, fun i hi => by simp [setFlag, hi]⟩
  · split
    · rename_i w _
      exact ⟨w, fun i hi => by simp [setFlag, hi]⟩
    · exact ⟨0, fun _ _ => rfl⟩

theorem Owed.sendBatchLoop (hpos : capacity ≠ 0) (hle : capacity.toNat ≤ 2 ^ 63)
    (hsound : c.Sound capacity) (h : Owed P c) (items : List T) :
    Owed P (sendBatchLoop capacity items c).2 := by
  induction items generalizing c with
  | nil =>
    rw [Internal.sendBatchLoop]
    exact h
  | cons item rest ih =>
    by_cases hlt : c.queueLen < capacity
    · obtain ⟨hq, hn⟩ := popReceiver_queue c
      obtain ⟨w, hflags⟩ := popReceiver_flags c
      rw [sendBatchLoop_of_lt hlt]
      rcases (hsound.congr hq hn).pushBack (hn ▸ hlt) item with
        ⟨c', hpush, hsound', hsame, hlen⟩ | ⟨-, hbig⟩
      · rw [hpush]
        refine ih hsound' (h.store (w := w) (fun i hi => ?_) (hn ▸ hlen))
        rw [hsame]
        exact hflags i hi
      · exact absurd hle (not_le.mpr hbig)
    · rw [sendBatchLoop_of_full hpos (hsound.queueLen_eq hlt)]
      exact h

end Internal

namespace System

variable {s s' : System T} {P : Set ℕ}

theorem send_owed (hpos : capacity ≠ 0) (hle : capacity.toNat ≤ 2 ^ 63)
    (hsound : s.core.Sound capacity) (h : s.core.Owed P) (batch : Bool) (items : List T) :
    (s.send capacity batch items).2.core.Owed P := by
  unfold System.send
  split
  · rename_i item rest
    by_cases hclosed : s.core.receiverCount = 0
    · rw [Internal.trySendCore_of_closed hclosed]
      exact h
    · by_cases hlt : s.core.queueLen < capacity
      · obtain ⟨hq, hn⟩ := Internal.wakeReceiver_queue s.core
        obtain ⟨w, hflags⟩ := Internal.wakeReceiver_flags s.core
        rw [Internal.trySendCore_of_lt hclosed hlt, Internal.store]
        rcases (hsound.congr hq hn).pushBack (hn ▸ hlt) item with
          ⟨c', hpush, -, hsame, hlen⟩ | ⟨-, hbig⟩
        · rw [hpush]
          refine h.store (w := w) (fun i hi => ?_) (hn ▸ hlen)
          change c'.flags i = _
          rw [hsame]
          exact hflags i hi
        · exact absurd hle (not_le.mpr hbig)
      · rw [Internal.trySendCore_of_full hpos hclosed (hsound.queueLen_eq hlt)]
        exact h
  · simp only [Internal.trySendBatchCore]
    split_ifs
    · exact h
    · exact h
    · exact h.sendBatchLoop hpos hle hsound _

/-! ### The notified -/

variable {saw : ℕ → Prop} {i : ℕ}

/-- No sender is left, or there is an item for each timed receive that was notified. -/
def Owing (s : System T) : Prop :=
  s.core.closed .recv = true ∨ s.core.Owed {i | (s.tasks i).timedWait}

theorem notified_move {side : Side} {c : Internal T} {t : Task T}
    (honly : Inv.OnlyAt side i s.core c)
    (hi : t.timedWait → c.flags i = successSpace → i ∈ s.notified) :
    ({ s with core := c }.setTask i t).notified ⊆ s.notified := by
  rintro j ⟨htask, hflag⟩
  rcases eq_or_ne j i with rfl | hj
  · rw [setTask_tasks_self] at htask
    exact hi htask hflag
  · rw [setTask_tasks_of_ne _ _ hj] at htask
    exact ⟨htask, (honly.flags j hj) ▸ hflag⟩

theorem notified_setTask (s : System T) {t : Task T}
    (hi : t.timedWait → s.core.flags i = successSpace → i ∈ s.notified) :
    (s.setTask i t).notified ⊆ s.notified :=
  notified_move (.refl .recv i s.core) hi

theorem notified_recv (h : s.Listens capacity saw) (hpos : capacity ≠ 0) (max : Option UInt64) :
    (s.recv capacity max).2.notified ⊆ s.notified := by
  obtain ⟨W, hwakes, -⟩ := (recv_effect hpos h.sound max).wakes
  rintro j ⟨htask, hflag⟩
  refine ⟨htask, ?_⟩
  have hflag' : wakeFlags s.core.flags W j = successSpace := hwakes.flags ▸ hflag
  unfold wakeFlags at hflag'
  split_ifs at hflag' with hj
  · -- a sender is not a timed receive
    have hsender : (s.tasks j).parkedAs .async ∨ (s.tasks j).parkedAs .sync :=
      (mem_append.mp (hwakes.taken.queued j hj).1).imp (h.here j).async (h.here j).sync
    rw [recv_tasks] at htask
    cases ht : s.tasks j <;> simp [ht, Task.timedWait, Task.parkedAs] at htask hsender
  · exact hflag'

theorem notified_returned (s : System T) (i : ℕ) (k : RecvKind) :
    (s.recvReturned i k).notified ⊆ {j ∈ s.notified | some j ≠ some i} := by
  have hret := Inv.returned s i k
  rintro j ⟨htask, hflag⟩
  rcases eq_or_ne j i with rfl | hj
  · rcases hret.task with ht | ht <;> rw [ht] at htask <;> cases htask
  · rw [hret.tasks j hj] at htask
    exact ⟨⟨htask, (hret.only.flags j hj) ▸ hflag⟩, by simpa using hj⟩

theorem recv_takes (hpos : capacity ≠ 0) (hsound : s.core.Sound capacity) (max : Option UInt64) :
    s.core.queueLen.toNat ≤ (s.recv capacity max).2.core.queueLen.toNat +
      min (max.elim 1 UInt64.toNat) s.core.queueLen.toNat := by
  cases max with
  | none =>
    simp only [System.recv, Internal.tryRecvCore, elim_none]
    rcases hsound.popFront with ⟨r, hpop, -, -, hlen⟩ | ⟨hpop, hzero⟩
    · rw [hpop]
      dsimp only
      rw [if_pos (UInt64.pos_iff_ne_zero.mpr hpos), (Internal.wakeSender_queue r.2).2]
      omega
    · rw [hpop, hzero]
      simp
  | some max =>
    simp only [System.recv, elim_some]
    by_cases hmax : max = 0
    · simp [Internal.tryRecvBatchCore, hmax]
    · by_cases hzero : s.core.queueLen = 0
      · rw [Internal.tryRecvBatchCore_of_empty hmax hzero, hzero]
        simp
      · obtain ⟨l, hl⟩ : ∃ l, s.core.Stores capacity l :=
          hsound.resolve_right fun h => hzero h.2.2
        have hmin : (min max s.core.queueLen).toNat ≤ l.length := by
          rw [Word.toNat_min, hl.queueLen]
          exact Nat.min_le_right _ _
        have hlen := (hl.drainInto hmin).2.queueLen
        rw [length_drop, Word.toNat_min, hl.queueLen] at hlen
        rw [Internal.tryRecvBatchCore_of_ne hmax hpos hzero]
        change _ ≤ (s.core.drainInto (min max s.core.queueLen)).2.queueLen.toNat + _
        rw [hlen, hl.queueLen]
        omega

/-! ### There is an item for each of the notified -/

theorem owed_of_subset (h : s.core.Owed {i | (s.tasks i).timedWait})
    (hsub : s'.notified ⊆ s.notified) (hlen : s.core.queueLen.toNat ≤ s'.core.queueLen.toNat) :
    s'.core.Owed {i | (s'.tasks i).timedWait} :=
  calc s'.notified.encard ≤ s.notified.encard := Set.encard_le_encard hsub
    _ ≤ (s.core.queueLen.toNat : ℕ∞) := h
    _ ≤ (s'.core.queueLen.toNat : ℕ∞) := by exact_mod_cast hlen

theorem owed_of_spares (hpos : capacity ≠ 0) (hsound : s.core.Sound capacity)
    (hopen : s.core.closed .recv = false) {caller : Option ℕ} {max : Option UInt64}
    (hspares : s.SparesItems caller max)
    (hsub : s'.notified ⊆ {i ∈ s.notified | some i ≠ caller})
    (hlen : s'.core.queueLen = (s.recv capacity max).2.core.queueLen) :
    s'.core.Owed {i | (s'.tasks i).timedWait} := by
  have hspares' := hspares.resolve_left (by simpa [Internal.closed] using hopen)
  have htakes := recv_takes hpos hsound max
  rw [← hlen] at htakes
  have hsum := calc s'.notified.encard +
        (min (max.elim 1 UInt64.toNat) s.core.queueLen.toNat : ℕ)
      ≤ {i ∈ s.notified | some i ≠ caller}.encard +
        (min (max.elim 1 UInt64.toNat) s.core.queueLen.toNat : ℕ) :=
        add_le_add_left (Set.encard_le_encard hsub) _
    _ ≤ (s.core.queueLen.toNat : ℕ∞) := hspares'
    _ ≤ (s'.core.queueLen.toNat : ℕ∞) +
        (min (max.elim 1 UInt64.toNat) s.core.queueLen.toNat : ℕ) := by exact_mod_cast htakes
  exact (ENat.add_le_add_iff_right (ENat.natCast_ne_top _)).mp hsum

theorem owed_recvThen (h : s.Listens capacity saw) (hpos : capacity ≠ 0)
    (hopen : s.core.closed .recv = false) (howed : s.core.Owed {i | (s.tasks i).timedWait})
    {k : RecvKind} {max : Option UInt64} {next : Task T} (hspares : s.SparesItems (some i) max)
    (hnext : next.timedWait → (s.tasks i).timedWait) :
    (s.recvThen capacity i k max next).core.Owed
      {j | ((s.recvThen capacity i k max next).tasks j).timedWait} := by
  have hrecv := notified_recv h hpos max
  have hreturn : ((s.recv capacity max).2.recvReturned i k).core.Owed
      {j | (((s.recv capacity max).2.recvReturned i k).tasks j).timedWait} := by
    refine owed_of_spares hpos h.sound hopen hspares ?_ (Inv.returned _ i k).only.queueLen
    exact (notified_returned _ i k).trans fun j hj => ⟨hrecv hj.1, hj.2⟩
  unfold System.recvThen
  dsimp only
  split
  · exact hreturn
  · exact hreturn
  · rename_i houtcome
    -- there was no item, and so nobody that was notified
    have hzero := ((recv_effect hpos h.sound max).empty houtcome).1
    refine owed_of_subset howed (.trans ?_ hrecv) (by simp [hzero])
    exact notified_setTask _ fun htask hflag => ⟨hnext htask, hflag⟩

theorem owed_advance (h : s.Listens capacity saw) (hpos : capacity ≠ 0)
    (hle : capacity.toNat ≤ 2 ^ 63) (hopen : s.core.closed .recv = false)
    (howed : s.core.Owed {i | (s.tasks i).timedWait})
    (hspares : s.Spares (.act (.advance i))) (hs : s.advance capacity i = some s') :
    s'.core.Owed {i | (s'.tasks i).timedWait} := by
  have hi := h.here i
  -- all that leave the buffer as it is
  have hquiet : ∀ {side : Side} {c : Internal T} {t : Task T}, Inv.OnlyAt side i s.core c →
      (t.timedWait → c.flags i = successSpace → i ∈ s.notified) →
      ({ s with core := c }.setTask i t).core.Owed
        {j | (({ s with core := c }.setTask i t).tasks j).timedWait} := fun honly hnot =>
    owed_of_subset howed (notified_move honly hnot) (by
      rw [setTask_core, honly.queueLen])
  cases ht : s.tasks i <;> simp only [System.advance, ht, reduceCtorEq] at hs <;>
    simp only [Spares, ht] at hspares <;> rw [ht] at hi
  case sendTry k batch items =>
    have hsend := send_owed hpos hle h.sound howed batch items
    have hleave : ∀ t : Task T, t.timedWait = false →
        ((s.send capacity batch items).2.setTask i t).core.Owed
          {j | (((s.send capacity batch items).2.setTask i t).tasks j).timedWait} := by
      intro t htask
      refine owed_of_subset (s := (s.send capacity batch items).2) ?_
        (notified_setTask _ fun hwait => absurd hwait (by simp [htask])) le_rfl
      rwa [send_tasks]
    split at hs <;> obtain rfl := Option.some.inj hs <;> exact hleave _ rfl
  case sendRegister k batch items =>
    split_ifs at hs <;> obtain rfl := Option.some.inj hs
    · exact hquiet (.refl .send i s.core) (fun hwait => by cases hwait)
    · exact hquiet (.refl .send i s.core) (fun hwait => by cases hwait)
    · exact hquiet (Inv.onlyAt_parkSender s.core i k) (fun hwait => by cases hwait)
  case sendWoken k batch items st =>
    obtain rfl := Option.some.inj hs
    refine hquiet (Inv.onlyAt_unlinkSender s.core i k) (fun hwait => ?_)
    split_ifs at hwait <;> cases hwait
  case sendDropped k =>
    obtain rfl := Option.some.inj hs
    exact hquiet (Inv.onlyAt_unlinkSender s.core i k) (fun hwait => by cases hwait)
  case recvTry k max =>
    obtain rfl := Option.some.inj hs
    exact owed_recvThen h hpos hopen howed hspares (fun hwait => by cases hwait)
  case recvRegister k max =>
    split_ifs at hs with hre htimed hgone <;> obtain rfl := Option.some.inj hs
    · -- it was not asked for yet
      refine hquiet (.refl .recv i s.core) (fun _ hflag => ?_)
      rw [hi.flag.2 htimed] at hflag
      cases hflag
    · exact hquiet (.refl .recv i s.core) (fun hwait => by cases hwait)
    · refine owed_of_subset howed ?_ (by rw [(Inv.returned s i k).only.queueLen])
      exact (notified_returned s i k).trans fun _ hj => hj.1
    · refine hquiet (Inv.onlyAt_parkReceiver s.core i k) (fun hwait hflag => ?_)
      cases k <;> simp only [Task.timedWait, Bool.false_eq_true] at hwait
      simp [System.parkReceiver, Internal.setFlag] at hflag
  case recvClosed k | recvDropped k =>
    obtain rfl := Option.some.inj hs
    exact hquiet (Inv.onlyAt_unlinkReceiver s.core i k) (fun hwait => by cases hwait)
  case timedRetry =>
    obtain rfl := Option.some.inj hs
    exact owed_recvThen h hpos hopen howed hspares (fun _ => by rw [ht]; rfl)
  case timedFinal =>
    obtain rfl := Option.some.inj hs
    exact owed_recvThen h hpos hopen howed hspares (fun hwait => by cases hwait)

theorem notified_resume (hs : s.resume i = some s') :
    s'.notified ⊆ s.notified ∧ s.core.queueLen.toNat ≤ s'.core.queueLen.toNat := by
  have hset : ∀ t : Task T, (t.timedWait → (s.tasks i).timedWait) →
      (s.setTask i t).notified ⊆ s.notified := fun t ht =>
    notified_setTask s fun hwait hflag => ⟨ht hwait, hflag⟩
  unfold System.resume at hs
  dsimp only at hs
  split at hs <;> rename_i ht
  · split_ifs at hs <;> cases hs
    · exact ⟨hset _ (fun hwait => by cases hwait), le_rfl⟩
    · exact ⟨subset_rfl, le_rfl⟩
  · split_ifs at hs
    cases hs
    exact ⟨hset _ (fun _ => by rw [ht]; rfl), le_rfl⟩
  · split_ifs at hs
    cases hs
    exact ⟨hset _ (fun _ => by rw [ht]; rfl), le_rfl⟩
  · cases hs
    exact ⟨hset _ (fun hwait => by cases hwait), le_rfl⟩
  · split_ifs at hs <;> cases hs <;> exact ⟨hset _ (fun hwait => by cases hwait), le_rfl⟩
  · cases hs

theorem notified_cancel {t : Task T} (ht : t.timedWait = false) :
    ({ s with core := cancelFlag s.core i }.setTask i t).notified ⊆ s.notified :=
  notified_move (Inv.onlyAt_cancelFlag s.core .recv i) fun hwait => by
    rw [ht] at hwait
    cases hwait

theorem notified_timeout (hs : s.timeout i = some s') :
    s'.notified ⊆ s.notified ∧ s.core.queueLen.toNat ≤ s'.core.queueLen.toNat := by
  have hlen : s.core.queueLen.toNat ≤ (cancelFlag s.core i).queueLen.toNat := by
    rw [(cancelFlag_queue s.core i).2]
  unfold System.timeout at hs
  split at hs <;> rename_i ht
  · split_ifs at hs <;> cases hs
    · exact ⟨notified_cancel rfl, hlen⟩
    · exact ⟨notified_setTask s fun _ hflag => ⟨by rw [ht]; rfl, hflag⟩, le_rfl⟩
  · split_ifs at hs <;> cases hs
    · exact ⟨notified_cancel rfl, hlen⟩
    · exact ⟨notified_setTask s fun _ hflag => ⟨by rw [ht]; rfl, hflag⟩, le_rfl⟩
  · cases hs

theorem notified_drop (hs : s.drop i = some s') :
    s'.notified ⊆ s.notified ∧ s.core.queueLen.toNat ≤ s'.core.queueLen.toNat := by
  have hlen : s.core.queueLen.toNat ≤ (cancelFlag s.core i).queueLen.toNat := by
    rw [(cancelFlag_queue s.core i).2]
  unfold System.drop at hs
  split at hs <;> (try split_ifs at hs) <;> cases hs <;>
    first
    | exact ⟨notified_cancel rfl, hlen⟩
    | exact ⟨notified_setTask s (fun hwait => by cases hwait), le_rfl⟩

theorem notified_finish {c : Internal T} (hflags : ∀ j, c.flags j = s.core.flags j ∨
      j ∈ s.core.queues .send ∨ c.flags j = closedBuffered) (h : s.Listens capacity saw) :
    ({ s with core := c } : System T).notified ⊆ s.notified := by
  rintro j ⟨htask, hflag⟩
  have hflag' : c.flags j = successSpace := hflag
  rcases hflags j with hsame | hj | htold
  · exact ⟨htask, hsame ▸ hflag⟩
  · have hsender : (s.tasks j).parkedAs .async ∨ (s.tasks j).parkedAs .sync :=
      (mem_append.mp hj).imp (h.here j).async (h.here j).sync
    dsimp only at htask
    cases ht : s.tasks j <;> simp [ht, Task.timedWait, Task.parkedAs] at htask hsender
  · rw [htold] at hflag'
    cases hflag'

theorem Owing.react (h : s.Owing) (hl : s.Listens capacity saw) (hpos : capacity ≠ 0)
    (hle : capacity.toNat ≤ 2 ^ 63) {e : Event T} (hspares : s.Spares e)
    (hs : s.react capacity e = some s') : s'.Owing := by
  have he : e ≠ .reviveSender := by
    rintro rfl
    exact hspares
  by_cases hclosed : s'.core.closed .recv = true
  · exact .inl hclosed
  have hopen : s.core.closed .recv = false := by
    by_contra hgone
    exact hclosed (react_closed hpos hl.sound he hs (by simpa using hgone))
  have howed := h.resolve_left (by simp [hopen])
  right
  cases e with
  | reviveSender => exact absurd rfl he
  | recvOnClosed i =>
    simp only [System.react] at hs
    split at hs <;> cases hs
    exact owed_of_subset howed (notified_setTask s fun hwait => by cases hwait) le_rfl
  | act a =>
    cases a <;> simp only [System.react, System.step] at hs
    case trySend item =>
      obtain rfl := Option.some.inj hs
      rw [send_tasks]
      exact send_owed hpos hle hl.sound howed false [item]
    case trySendBatch items =>
      obtain rfl := Option.some.inj hs
      rw [send_tasks]
      exact send_owed hpos hle hl.sound howed true items
    case tryRecv =>
      obtain rfl := Option.some.inj hs
      exact owed_of_spares hpos hl.sound hopen hspares
        (fun j hj => ⟨notified_recv hl hpos none hj, by simp⟩) rfl
    case tryRecvBatch max =>
      obtain rfl := Option.some.inj hs
      exact owed_of_spares hpos hl.sound hopen hspares
        (fun j hj => ⟨notified_recv hl hpos (some max) hj, by simp⟩) rfl
    case startSend i k batch items =>
      split at hs <;> (try split_ifs at hs) <;> cases hs
      exact owed_of_subset howed (notified_setTask s fun hwait => by cases hwait) le_rfl
    case startRecv i k max =>
      split at hs <;> (try split_ifs at hs) <;> cases hs <;>
        exact owed_of_subset howed (notified_setTask s fun hwait => by cases hwait) le_rfl
    case advance i => exact owed_advance hl hpos hle hopen howed hspares hs
    case resume i => exact owed_of_subset howed (notified_resume hs).1 (notified_resume hs).2
    case timeout i => exact owed_of_subset howed (notified_timeout hs).1 (notified_timeout hs).2
    case drop i => exact owed_of_subset howed (notified_drop hs).1 (notified_drop hs).2
    case cloneSender =>
      split_ifs at hs
      cases hs
      exact owed_of_subset howed subset_rfl le_rfl
    case cloneReceiver =>
      split_ifs at hs
      cases hs
      exact owed_of_subset howed subset_rfl le_rfl
    case closeSender =>
      split_ifs at hs
      cases hs
      refine owed_of_subset howed (notified_finish (fun j => ?_) hl) ?_
      · exact (Listens.closeSender_flags s.core j).imp_right fun hj => .inr hj.2
      · rw [(Listens.closeSender_frame s.core).2.1]
    case closeReceiver =>
      split_ifs at hs
      cases hs
      refine owed_of_subset howed (notified_finish (fun j => ?_) hl) ?_
      · exact (Listens.closeReceiver_flags s.core j).imp_right .inl
      · rw [(Listens.closeReceiver_frame capacity s.core).2.1]

end System

/-! ### Whose step it is -/

/-- The task an event belongs to. -/
def Event.owner : Event T → Option ℕ
  | .act (.startSend i _ _ _) | .act (.startRecv i _ _) | .act (.advance i) | .act (.resume i)
  | .act (.timeout i) | .act (.drop i) | .recvOnClosed i => some i
  | _ => none

/-- The task a step belongs to. -/
def Move.owner : Move T → Option ℕ
  | .tick => none
  | .recvTimeout i _ | .look i | .spurious i => some i
  | .event e => e.owner

namespace System

variable {s s' : System T} {i : ℕ}

theorem recvThen_tasks {j : ℕ} (hi : i ≠ j) (k : RecvKind) (max : Option UInt64) (next : Task T) :
    (s.recvThen capacity j k max next).tasks i = s.tasks i := by
  unfold System.recvThen
  dsimp only
  split
  · exact (Inv.returned _ j k).tasks i hi
  · exact (Inv.returned _ j k).tasks i hi
  · exact setTask_tasks_of_ne _ _ hi

theorem recvThen_task (capacity : UInt64) (s : System T) (k : RecvKind) (max : Option UInt64) (next : Task T) :
    (s.recvThen capacity i k max next).tasks i = .streamIdle ∨
      (s.recvThen capacity i k max next).tasks i = .done ∨
      (s.recvThen capacity i k max next).tasks i = next := by
  unfold System.recvThen
  dsimp only
  split
  · exact (Inv.returned _ i k).task.imp_right .inl
  · exact (Inv.returned _ i k).task.imp_right .inl
  · exact .inr (.inr (setTask_tasks_self _ _ _))

theorem advance_tasks {j : ℕ} (hi : i ≠ j) (hs : s.advance capacity j = some s') :
    s'.tasks i = s.tasks i := by
  cases ht : s.tasks j <;> simp only [System.advance, ht, reduceCtorEq] at hs
  case sendTry k batch items =>
    split at hs <;> obtain rfl := Option.some.inj hs <;> rw [setTask_tasks_of_ne _ _ hi, send_tasks]
  case sendRegister k batch items =>
    split_ifs at hs <;> obtain rfl := Option.some.inj hs <;> exact setTask_tasks_of_ne _ _ hi
  case recvRegister k max =>
    split_ifs at hs <;> obtain rfl := Option.some.inj hs <;>
      first
      | exact setTask_tasks_of_ne _ _ hi
      | exact (Inv.returned s j k).tasks i hi
  case sendWoken | sendDropped | recvClosed | recvDropped =>
    obtain rfl := Option.some.inj hs
    exact setTask_tasks_of_ne _ _ hi
  all_goals
    obtain rfl := Option.some.inj hs
    exact recvThen_tasks hi _ _ _

theorem react_tasks {e : Event T} (hs : s.react capacity e = some s') (hi : e.owner ≠ some i) :
    s'.tasks i = s.tasks i := by
  have hne : ∀ j, e.owner = some j → i ≠ j := by
    rintro j hj rfl
    exact hi hj
  cases e with
  | reviveSender =>
    simp only [System.react] at hs
    split_ifs at hs
    cases hs
    rfl
  | recvOnClosed j =>
    simp only [System.react] at hs
    split at hs <;> cases hs
    exact setTask_tasks_of_ne _ _ (hne j rfl)
  | act a =>
    cases a <;> simp only [System.react, System.step] at hs
    case trySend | trySendBatch =>
      obtain rfl := Option.some.inj hs
      rw [send_tasks]
    case tryRecv | tryRecvBatch =>
      obtain rfl := Option.some.inj hs
      rw [recv_tasks]
    case startSend j k batch items =>
      split at hs <;> (try split_ifs at hs) <;> cases hs
      exact setTask_tasks_of_ne _ _ (hne j rfl)
    case startRecv j k max =>
      split at hs <;> (try split_ifs at hs) <;> cases hs <;>
        exact setTask_tasks_of_ne _ _ (hne j rfl)
    case advance j => exact advance_tasks (hne j rfl) hs
    case resume j =>
      unfold System.resume at hs
      dsimp only at hs
      split at hs <;> (try split_ifs at hs) <;> cases hs <;>
        first
        | exact setTask_tasks_of_ne _ _ (hne j rfl)
        | rfl
    case timeout j =>
      unfold System.timeout at hs
      split at hs <;> (try split_ifs at hs) <;> cases hs <;>
        exact setTask_tasks_of_ne _ _ (hne j rfl)
    case drop j =>
      unfold System.drop at hs
      split at hs <;> (try split_ifs at hs) <;> cases hs <;>
        exact setTask_tasks_of_ne _ _ (hne j rfl)
    all_goals
      split_ifs at hs
      cases hs
      rfl

theorem recvThen_timed (capacity : UInt64) (s : System T) (i : ℕ) (max : Option UInt64)
    (next : Task T) (empty : Option (Ended T)) :
    ((s.recvThen capacity i .timed max next).tasks i = .done ∧
        ∃ r, s.lockedEnd capacity max empty = some r ∧ r ≠ .unreachable ∧ r ≠ .timeout) ∨
      ((s.recvThen capacity i .timed max next).tasks i = next ∧
        s.lockedEnd capacity max empty = empty ∧ (s.recv capacity max).1 = .empty) := by
  unfold System.recvThen lockedEnd
  cases houtcome : (s.recv capacity max).1 <;> simp only [houtcome]
  case ok items => exact .inl ⟨setTask_tasks_self _ _ _, .item items, rfl, by simp, by simp⟩
  case disconnected =>
    exact .inl ⟨setTask_tasks_self _ _ _, .disconnected, rfl, by simp, by simp⟩
  case empty => exact .inr ⟨setTask_tasks_self _ _ _, trivial, trivial⟩

end System

/-- The steps a timed receive has left when its time is up; `armed` is one in `park_timeout`. -/
def Task.left (armed : Bool) : Task T → ℕ
  | .recvTry .timed _ => 7
  | .recvRegister .timed _ => 6
  | .recvParked .timed _ | .timedAsleep => if armed then 5 else 3
  | .timedRetry => 4
  | .recvDropped .timed | .timedFinal => 1
  | _ => 0

namespace System

variable {s s' : System T} {i : ℕ}

theorem advance_timed (hs : s.advance capacity i = some s') (hleft : (s.tasks i).left false ≠ 0) :
    (s'.tasks i).left false < (s.tasks i).left false ∧
      (((s'.tasks i).left false = 0 ∧ (s.endsAt capacity i).isSome) ∨
        ((s'.tasks i).left false ≠ 0 ∧ s.endsAt capacity i = none)) := by
  cases ht : s.tasks i <;> rw [ht] at hleft <;>
    simp only [System.advance, ht, reduceCtorEq] at hs <;> unfold endsAt
  case recvTry k max =>
    cases k <;> simp only [Task.left, ne_eq, not_true] at hleft
    obtain rfl := Option.some.inj hs
    rcases recvThen_timed capacity s i max (.recvRegister .timed max) none with
      ⟨htask, r, hend, -⟩ | ⟨htask, hend, -⟩
    · simp [htask, hend, ht, Task.left]
    · simp [htask, hend, ht, Task.left]
  case recvRegister k max =>
    cases k <;> simp only [Task.left, ne_eq, not_true] at hleft
    simp only [if_true] at hs
    split_ifs at hs with hre hgone <;> obtain rfl := Option.some.inj hs
    · simp [ht, Task.left, hre]
    · simp [ht, Task.left, hre, hgone, recvReturned]
    · simp [ht, Task.left, hgone]
  case timedRetry =>
    obtain rfl := Option.some.inj hs
    rcases recvThen_timed capacity s i none .timedAsleep none with
      ⟨htask, r, hend, -⟩ | ⟨htask, hend, -⟩
    · simp [htask, hend, ht, Task.left]
    · simp [htask, hend, ht, Task.left]
  case timedFinal =>
    obtain rfl := Option.some.inj hs
    rcases recvThen_timed capacity s i none .done (some .unreachable) with
      ⟨htask, r, hend, -⟩ | ⟨htask, hend, -⟩
    · simp [htask, hend, ht, Task.left]
    · simp [htask, hend, ht, Task.left]
  case recvDropped k =>
    cases k <;> simp only [Task.left, ne_eq, not_true] at hleft
    obtain rfl := Option.some.inj hs
    simp [ht, Task.left]
  all_goals exact absurd rfl hleft

theorem dropped_timed {e : Event T} (hs : s.react capacity e = some s')
    (ht : s'.tasks i = .recvDropped .timed) :
    s.tasks i = .recvDropped .timed ∨ e = .act (.timeout i) := by
  by_cases hi : e.owner = some i
  case neg => exact .inl ((react_tasks hs hi).symm.trans ht)
  cases e with
  | reviveSender => cases hi
  | recvOnClosed j =>
    obtain rfl : j = i := Option.some.inj hi
    simp only [System.react] at hs
    split at hs <;> cases hs
    simp at ht
  | act a =>
    cases a <;> simp only [Event.owner, reduceCtorEq, Option.some.injEq] at hi <;> subst hi <;>
      simp only [System.react, System.step] at hs
    case timeout => exact .inr rfl
    case startSend | startRecv =>
      split at hs <;> (try split_ifs at hs) <;> cases hs <;> simp at ht
    case advance i =>
      cases hi : s.tasks i <;> simp only [System.advance, hi, reduceCtorEq] at hs
      case sendTry => split at hs <;> cases hs <;> simp at ht
      case sendRegister => split_ifs at hs <;> cases hs <;> simp at ht
      case sendWoken =>
        cases hs
        rw [setTask_tasks_self] at ht
        split_ifs at ht
      case sendDropped | recvClosed | recvDropped =>
        cases hs
        simp at ht
      case recvRegister k max =>
        split_ifs at hs <;> cases hs
        · simp at ht
        · simp at ht
        · rcases (Inv.returned s i k).task with hret | hret <;> rw [hret] at ht <;> cases ht
        · simp at ht
      all_goals
        cases hs
        rcases recvThen_task capacity s _ _ _ with hret | hret | hret <;>
          rw [hret] at ht <;> cases ht
    case resume i =>
      unfold System.resume at hs
      dsimp only at hs
      split at hs <;> (try split_ifs at hs) <;> cases hs <;>
        first
        | exact .inl ht
        | simp at ht
    case drop i =>
      unfold System.drop at hs
      split at hs <;> (try split_ifs at hs) <;> cases hs <;> simp at ht

theorem react_inLoop {e : Event T} (hs : s.react capacity e = some s')
    (hloop : (s.tasks i).inLoop) (hi : e.owner = some i) :
    e = .act (.resume i) ∨ e = .act (.timeout i) := by
  cases e with
  | reviveSender => cases hi
  | recvOnClosed j =>
    obtain rfl : j = i := Option.some.inj hi
    cases ht : s.tasks j <;> simp [System.react, ht, Task.inLoop] at hs hloop
  | act a =>
    cases a <;> simp only [Event.owner, reduceCtorEq, Option.some.injEq] at hi <;> subst hi
    case resume => exact .inl rfl
    case timeout => exact .inr rfl
    case startSend i k batch items =>
      cases ht : s.tasks i <;> simp [System.react, System.step, ht, Task.inLoop] at hs hloop
    case startRecv i k max =>
      cases ht : s.tasks i <;> simp [System.react, System.step, ht, Task.inLoop] at hs hloop
    case advance i =>
      cases ht : s.tasks i <;>
        simp [System.react, System.step, System.advance, ht, Task.inLoop] at hs hloop
    case drop i =>
      cases ht : s.tasks i <;> rw [ht] at hloop <;> simp only [Task.inLoop, Bool.false_eq_true] at hloop
      case recvParked k max =>
        cases k <;> simp [System.react, System.step, System.drop, ht] at hs hloop
      case timedAsleep => simp [System.react, System.step, System.drop, ht] at hs

theorem endsAt_cases {r : Ended T} (hr : s.endsAt capacity i = some r) :
    (r = .timeout ∧ s.tasks i = .recvDropped .timed) ∨
      (r = .unreachable ∧ s.tasks i = .timedFinal ∧ (s.recv capacity none).1 = .empty) ∨
      (r ≠ .timeout ∧ r ≠ .unreachable) := by
  have hlocked : ∀ max empty, s.lockedEnd capacity max empty = some r →
      (r ≠ .timeout ∧ r ≠ .unreachable) ∨
        ((s.recv capacity max).1 = .empty ∧ empty = some r) := by
    intro max empty hr
    unfold lockedEnd at hr
    split at hr <;> rename_i houtcome
    · cases hr
      exact .inl (by simp)
    · cases hr
      exact .inl (by simp)
    · exact .inr ⟨houtcome, hr⟩
  unfold endsAt at hr
  split at hr <;> rename_i ht
  · rcases hlocked _ _ hr with hok | ⟨-, hnone⟩
    · exact .inr (.inr hok)
    · cases hnone
  · rcases hlocked _ _ hr with hok | ⟨-, hnone⟩
    · exact .inr (.inr hok)
    · cases hnone
  · rcases hlocked _ _ hr with hok | ⟨hempty, hpanic⟩
    · exact .inr (.inr hok)
    · cases hpanic
      exact .inr (.inl ⟨rfl, ht, hempty⟩)
  · split_ifs at hr
    cases hr
    exact .inr (.inr (by simp))
  · cases hr
    exact .inl ⟨rfl, ht⟩
  · cases hr

theorem Owing.final (h : s.Owing) (hl : s.Listens capacity fun _ => True) (hpos : capacity ≠ 0)
    (ht : s.tasks i = .timedFinal) : (s.recv capacity none).1 ≠ .empty := by
  intro hempty
  obtain ⟨hzero, hopen, -⟩ := (recv_effect hpos hl.sound none).empty hempty
  have hflag := (hl.here i).flag
  rw [ht] at hflag
  obtain ⟨hheard, hnot⟩ := hflag
  have hclosed : s.core.closed .recv = false := by simpa [Internal.closed] using hopen
  have hnotified : i ∈ s.notified := by
    refine ⟨by rw [ht]; rfl, (hheard.resolve_left hnot).resolve_right fun hgone => ?_⟩
    rw [hclosed] at hgone
    cases hgone.2
  have howed : s.notified.encard ≤ (s.core.queueLen.toNat : ℕ∞) :=
    h.resolve_left (by simp [hclosed])
  rw [hzero] at howed
  have hnone : s.notified = ∅ := by simpa using howed
  rw [hnone] at hnotified
  cases hnotified

end System

namespace Timed

variable {t t' : Timed T} {i : ℕ}

theorem disarm_eq_true {e : Event T} (h : t.disarm e i = true) :
    t.armed i = true ∧ e ≠ .act (.resume i) := by
  unfold disarm at h
  split at h
  · rename_i j
    rcases eq_or_ne i j with rfl | hne
    · simp at h
    · rw [update_of_ne hne] at h
      exact ⟨h, by simpa using hne.symm⟩
  · rename_i hother
    exact ⟨h, fun he => hother i he⟩

/-- The receives spare the items of the notified. -/
def Spares (t : Timed T) : Move T → Prop
  | .event e => t.system.Spares e
  | _ => True

/-- What holds along runs in which the receives spare the items of the notified. -/
structure Inv (capacity : UInt64) (t : Timed T) : Prop where
  listens : t.system.Listens capacity fun _ => True
  owing : t.system.Owing
  armed : ∀ i, t.armed i = true → (t.system.tasks i).inLoop = true
  late : ∀ i, t.system.tasks i = .recvDropped .timed → t.deadline i ≤ t.now
  returned : ∀ r ∈ t.returned, r.result ≠ .unreachable ∧
    (r.result = .timeout → r.deadline ≤ r.time)

namespace Inv

theorem init : Inv capacity (init capacity : Timed T) where
  listens := .init
  owing := by
    right
    have hnone : {i ∈ {i | ((Timed.init capacity : Timed T).system.tasks i).timedWait = true} |
        (Timed.init capacity : Timed T).system.core.flags i = successSpace} = ∅ :=
      Set.eq_empty_of_forall_notMem fun i hi => by cases hi.2
    rw [Internal.Owed, hnone, Set.encard_empty]
    exact zero_le
  armed _ harmed := by cases harmed
  late _ ht := by cases ht
  returned _ hr := by cases hr

theorem ended (h : Inv capacity t) (hpos : capacity ≠ 0) {r : Ended T}
    (hr : t.system.endsAt capacity i = some r) :
    r ≠ .unreachable ∧ (r = .timeout → t.deadline i ≤ t.now) := by
  rcases System.endsAt_cases hr with ⟨rfl, ht⟩ | ⟨-, ht, hempty⟩ | ⟨hnot, hnot'⟩
  · exact ⟨by simp, fun _ => h.late i ht⟩
  · exact absurd hempty (h.owing.final h.listens hpos ht)
  · exact ⟨hnot', fun hr => absurd hr hnot⟩

theorem event (h : Inv capacity t) (hpos : capacity ≠ 0) (hle : capacity.toNat ≤ 2 ^ 63)
    {e : Event T} (hspares : t.system.Spares e) (hallows : t.allows e)
    {s : System T} (hs : t.system.react capacity e = some s) :
    Inv capacity { t with
      system := s
      armed := t.disarm e
      returned := t.returned ++ ((t.system.ends capacity e).map fun r =>
        ⟨r.1, r.2, t.deadline r.1, t.now⟩).toList } := by
  have he : e ≠ .reviveSender := by
    rintro rfl
    exact hspares
  refine ⟨h.listens.react hpos he hs (fun _ _ => id) fun _ _ _ _ _ => trivial,
    h.owing.react h.listens hpos hle hspares hs, ?_, ?_, ?_⟩
  · intro i harmed
    have hbefore := disarm_eq_true harmed
    by_cases hi : e.owner = some i
    · rcases System.react_inLoop hs (h.armed i hbefore.1) hi with rfl | rfl
      · exact absurd rfl hbefore.2
      · simp [allows, hbefore.1] at hallows
    · rw [System.react_tasks hs hi]
      exact h.armed i hbefore.1
  · intro i ht
    rcases System.dropped_timed hs ht with ht | rfl
    · exact h.late i ht
    · simp only [allows, Bool.and_eq_true, decide_eq_true_eq] at hallows
      exact hallows.2
  · intro r hr
    rcases mem_append.mp hr with hr | hr
    · exact h.returned r hr
    · obtain ⟨r', hr', rfl⟩ := map_eq_some_iff.mp (mem_toList.mp hr)
      unfold System.ends at hr'
      split at hr'
      · obtain ⟨result, hresult, rfl⟩ := map_eq_some_iff.mp hr'
        exact h.ended hpos hresult
      · cases hr'

theorem step (h : Inv capacity t) (hpos : capacity ≠ 0) (hle : capacity.toNat ≤ 2 ^ 63)
    {m : Move T} (hspares : t.Spares m) (hs : t.step capacity m = some t') : Inv capacity t' := by
  cases m with
  | tick =>
    obtain rfl := Option.some.inj hs
    exact ⟨h.listens, h.owing, h.armed, fun i ht => Nat.le_succ_of_le (h.late i ht), h.returned⟩
  | recvTimeout i timeout =>
    obtain ⟨s, hs', rfl⟩ := map_eq_some_iff.mp hs
    have hfresh : t.system.tasks i = .fresh := by
      cases ht : t.system.tasks i <;> simp [System.react, System.step, ht] at hs' ⊢
    have hstart : t.system.Spares (.act (.startRecv i .timed none)) := trivial
    have hother : ∀ j ≠ i, s.tasks j = t.system.tasks j := fun j hj =>
      System.react_tasks hs' (by simpa [Event.owner] using hj.symm)
    refine ⟨h.listens.react hpos (by simp) hs' (fun _ _ => id) fun _ _ _ _ _ => trivial,
      h.owing.react h.listens hpos hle hstart hs', fun j harmed => ?_, fun j ht => ?_, h.returned⟩
    · have hloop := h.armed j harmed
      rcases eq_or_ne j i with rfl | hj
      · simp [hfresh, Task.inLoop] at hloop
      · exact (hother j hj) ▸ hloop
    · rcases eq_or_ne j i with rfl | hj
      · rcases System.dropped_timed hs' ht with ht | he
        · rw [hfresh] at ht
          cases ht
        · cases he
      · rw [hother j hj] at ht
        change update t.deadline i _ j ≤ t.now
        rw [update_of_ne hj]
        exact h.late j ht
  | event e =>
    simp only [Timed.step] at hs
    split_ifs at hs with hallows
    obtain ⟨s, hs', rfl⟩ := map_eq_some_iff.mp hs
    exact h.event hpos hle hspares hallows hs'
  | look i =>
    simp only [Timed.step] at hs
    split_ifs at hs with hlook
    obtain rfl := Option.some.inj hs
    refine ⟨h.listens, h.owing, fun j harmed => ?_, h.late, h.returned⟩
    rcases eq_or_ne j i with rfl | hj
    · exact hlook.1
    · exact h.armed j (by simpa [hj] using harmed)
  | spurious i =>
    simp only [Timed.step] at hs
    split_ifs at hs with hflag
    obtain rfl := Option.some.inj hs
    refine ⟨h.listens, h.owing, fun j harmed => ?_, h.late, h.returned⟩
    rcases eq_or_ne j i with rfl | hj
    · exact hflag.1
    · exact h.armed j (by simpa [hj] using harmed)

end Inv

/-! ### A call whose time is up returns -/

/-- The own steps a timed receive has left when its time is up. -/
def left (t : Timed T) (i : ℕ) : ℕ := (t.system.tasks i).left (t.armed i)

theorem left_cases {task : Task T} {armed : Bool} (hleft : task.left armed ≠ 0) :
    task.inLoop ∨ (∃ max, task = .recvTry .timed max) ∨ (∃ max, task = .recvRegister .timed max) ∨
      task = .timedRetry ∨ task = .recvDropped .timed ∨ task = .timedFinal := by
  cases task <;> simp [Task.left] at hleft ⊢
  case recvTry k max | recvRegister k max | recvDropped k => cases k <;> simp_all
  case recvParked k max => cases k <;> simp_all [Task.inLoop]
  case timedAsleep => rfl

theorem react_advance {s s' : System T} {e : Event T} (hs : s.react capacity e = some s')
    (hloop : (s.tasks i).inLoop = false) (hleft : (s.tasks i).left false ≠ 0)
    (hi : e.owner = some i) : e = .act (.advance i) := by
  have hcases := (left_cases hleft).resolve_left (by simp [hloop])
  cases e with
  | reviveSender => cases hi
  | recvOnClosed j =>
    obtain rfl : j = i := Option.some.inj hi
    rcases hcases with ⟨max, ht⟩ | ⟨max, ht⟩ | ht | ht | ht <;> simp [System.react, ht] at hs
  | act a =>
    cases a <;> simp only [Event.owner, reduceCtorEq, Option.some.injEq] at hi <;> subst hi
    case advance => rfl
    all_goals
      rcases hcases with ⟨max, ht⟩ | ⟨max, ht⟩ | ht | ht | ht <;>
        simp [System.react, System.step, System.resume, System.timeout, System.drop, ht] at hs

/-- A call that has not returned can go on when its time is up. -/
theorem exists_own (hdue : t.deadline i ≤ t.now) (hleft : t.left i ≠ 0) :
    ∃ m t', m.owner = some i ∧ t.step capacity m = some t' := by
  by_cases hloop : (t.system.tasks i).inLoop = true
  · cases harmed : t.armed i with
    | false =>
      -- it finds that its time is up
      refine ⟨.event (.act (.timeout i)), ?_⟩
      cases ht : t.system.tasks i <;> rw [ht] at hloop <;> simp only [Task.inLoop] at hloop
      case recvParked k max =>
        cases k <;> simp only [Bool.false_eq_true] at hloop
        by_cases hflag : t.system.core.flags i = waiting <;>
          simp [Move.owner, Event.owner, Timed.step, allows, harmed, hdue, System.react,
            System.step, System.timeout, ht, hflag]
      case timedAsleep =>
        by_cases hflag : t.system.core.flags i = waiting <;>
          simp [Move.owner, Event.owner, Timed.step, allows, harmed, hdue, System.react,
            System.step, System.timeout, ht, hflag]
      all_goals cases hloop
    | true =>
      by_cases hflag : (t.system.core.flags i).finished = true
      · refine ⟨.event (.act (.resume i)), ?_⟩
        cases ht : t.system.tasks i <;> rw [ht] at hloop <;> simp only [Task.inLoop] at hloop
        case recvParked k max =>
          cases k <;> simp only [Bool.false_eq_true] at hloop
          simp [Move.owner, Event.owner, Timed.step, allows, harmed, System.react, System.step,
            System.resume, ht, hflag]
        case timedAsleep =>
          simp [Move.owner, Event.owner, Timed.step, allows, harmed, System.react, System.step,
            System.resume, ht, hflag]
        all_goals cases hloop
      · refine ⟨.spurious i, { t with armed := update t.armed i false }, rfl, ?_⟩
        simp only [Timed.step]
        rw [if_pos ⟨hloop, harmed, by simpa using hflag⟩]
  · refine ⟨.event (.act (.advance i)), ?_⟩
    have hstep : ∃ s, t.system.advance capacity i = some s := by
      rcases (left_cases hleft).resolve_left hloop with ⟨max, ht⟩ | ⟨max, ht⟩ | ht | ht | ht <;>
        simp only [System.advance, ht]
      case inr.inl => split_ifs <;> exact ⟨_, rfl⟩
      all_goals exact ⟨_, rfl⟩
    obtain ⟨s, hs⟩ := hstep
    simp [Move.owner, Event.owner, Timed.step, allows, System.react, System.step, hs]

theorem left_of_ne {m : Move T} (hs : t.step capacity m = some t') (hm : m.owner ≠ some i) :
    t'.left i = t.left i := by
  cases m with
  | tick =>
    obtain rfl := Option.some.inj hs
    rfl
  | recvTimeout j timeout =>
    obtain ⟨s, hs', rfl⟩ := map_eq_some_iff.mp hs
    simp only [left]
    rw [System.react_tasks hs' hm]
  | event e =>
    simp only [Timed.step] at hs
    split_ifs at hs
    obtain ⟨s, hs', rfl⟩ := map_eq_some_iff.mp hs
    have harmed : t.disarm e i = t.armed i := by
      unfold disarm
      split
      · exact update_of_ne (fun hij => hm (by simp [Move.owner, Event.owner, hij])) _ _
      · rfl
    simp only [left]
    rw [System.react_tasks hs' hm, harmed]
  | look j | spurious j =>
    simp only [Timed.step] at hs
    split_ifs at hs
    obtain rfl := Option.some.inj hs
    have hij : i ≠ j := fun hij => hm (by simp [Move.owner, hij])
    simp only [left, update_of_ne hij]

theorem left_of_inLoop {s s' : System T} {a : Action T} (hs : s.react capacity (.act a) = some s')
    (ha : a = .resume i ∨ a = .timeout i) (hloop : (s.tasks i).inLoop) :
    (a = .resume i → (s'.tasks i).left false = 4) ∧
      (a = .timeout i → (s'.tasks i).left false = 1) := by
  have htask : (∃ max, s.tasks i = .recvParked .timed max) ∨ s.tasks i = .timedAsleep := by
    cases ht : s.tasks i <;> rw [ht] at hloop <;> simp [Task.inLoop] at hloop ⊢
    case recvParked k max => cases k <;> simp_all
  rcases ha with rfl | rfl
  · refine ⟨fun _ => ?_, fun ha => (by cases ha)⟩
    rcases htask with ⟨max, ht⟩ | ht <;>
      simp only [System.react, System.step, System.resume, ht] at hs <;> split_ifs at hs <;>
      obtain rfl := Option.some.inj hs <;> simp [Task.left]
  · refine ⟨fun ha => (by cases ha), fun _ => ?_⟩
    rcases htask with ⟨max, ht⟩ | ht <;>
      simp only [System.react, System.step, System.timeout, ht] at hs <;> split_ifs at hs <;>
      obtain rfl := Option.some.inj hs <;> simp [Task.left]

theorem left_inLoop {task : Task T} (hloop : task.inLoop) (armed : Bool) :
    task.left armed = if armed then 5 else 3 := by
  cases task <;> simp [Task.inLoop] at hloop
  case recvParked k max => cases k <;> simp [Task.left] at hloop ⊢
  case timedAsleep => rfl

/-- An own step brings a call whose time is up closer to its end, where it has a result. -/
theorem Inv.own (h : Inv capacity t) (hdue : t.deadline i ≤ t.now) (hleft : t.left i ≠ 0)
    {m : Move T} (hm : m.owner = some i) (hs : t.step capacity m = some t') :
    t'.left i < t.left i ∧
      (t'.left i = 0 → ∃ r, t'.returned = t.returned ++ [r] ∧ r.caller = i) := by
  cases m with
  | tick => cases hm
  | recvTimeout j timeout =>
    obtain rfl : j = i := Option.some.inj hm
    obtain ⟨s, hs', -⟩ := map_eq_some_iff.mp hs
    cases ht : t.system.tasks j <;> simp [System.react, System.step, ht] at hs'
    simp [left, ht, Task.left] at hleft
  | look j =>
    obtain rfl : j = i := Option.some.inj hm
    simp only [Timed.step] at hs
    split_ifs at hs with hlook
    exact absurd hlook.2.2 (not_lt.mpr hdue)
  | spurious j =>
    obtain rfl : j = i := Option.some.inj hm
    simp only [Timed.step] at hs
    split_ifs at hs with hflag
    obtain rfl := Option.some.inj hs
    simp [left, left_inLoop hflag.1, hflag.2.1]
  | event e =>
    simp only [Timed.step] at hs
    split_ifs at hs with hallows
    obtain ⟨s, hs', rfl⟩ := map_eq_some_iff.mp hs
    by_cases hloop : (t.system.tasks i).inLoop = true
    · rcases System.react_inLoop hs' hloop hm with rfl | rfl
      · have harmed : t.armed i = true := by simpa [allows, hloop] using hallows
        have hnext := (left_of_inLoop hs' (.inl rfl) hloop).1 rfl
        simp [left, disarm, hnext, left_inLoop hloop, harmed]
      · have harmed : t.armed i = false := by
          simp only [allows, Bool.and_eq_true, Bool.not_eq_true'] at hallows
          exact hallows.1
        have hnext := (left_of_inLoop hs' (.inr rfl) hloop).2 rfl
        simp [left, disarm, harmed, hnext, left_inLoop hloop]
    · -- outside the loop it takes its next locked section
      have harmed : t.armed i = false := by
        by_contra harmed
        exact hloop (h.armed i (by simpa using harmed))
      have hleft' : (t.system.tasks i).left false ≠ 0 := by rwa [left, harmed] at hleft
      obtain rfl := react_advance hs' (by simpa using hloop) hleft' hm
      obtain ⟨hlt, hend⟩ := System.advance_timed hs' hleft'
      simp only [left, disarm, harmed]
      refine ⟨hlt, fun hzero => ?_⟩
      rcases hend with ⟨-, hsome⟩ | ⟨hne, -⟩
      · obtain ⟨r, hr⟩ := isSome_iff_exists.mp hsome
        exact ⟨⟨i, r, t.deadline i, t.now⟩, by simp [System.ends, hr], rfl⟩
      · exact absurd hzero hne

/-- In every run whose receives spare the items of the notified, no timed receive reaches the
`unreachable!`, and none returns `Timeout` before its deadline. Once its time is up, a call can go
on, each of its own steps brings it closer to its end, the last one has a result, and the steps of
others do not concern it. -/
theorem returns_of_spares (hpos : capacity ≠ 0) (hle : capacity.toNat ≤ 2 ^ 63)
    (hrun : Run (step capacity) Spares (init capacity) t) :
    (∀ r ∈ t.returned, r.result ≠ .unreachable ∧ (r.result = .timeout → r.deadline ≤ r.time)) ∧
      ∀ i, t.deadline i ≤ t.now → t.left i ≠ 0 →
        (∃ m t', m.owner = some i ∧ t.step capacity m = some t') ∧
          ∀ m t', t.step capacity m = some t' →
            (m.owner = some i → t'.left i < t.left i ∧
              (t'.left i = 0 → ∃ r, t'.returned = t.returned ++ [r] ∧ r.caller = i)) ∧
            (m.owner ≠ some i → t'.left i = t.left i) := by
  have hinv : Inv capacity t :=
    hrun.invariant (Inv.init) fun _ _ _ ht hspares hs => ht.step hpos hle hspares hs
  refine ⟨hinv.returned, fun i hdue hleft => ⟨exists_own hdue hleft, fun m t' hs => ?_⟩⟩
  exact ⟨fun hm => hinv.own hdue hleft hm hs, left_of_ne hs⟩

theorem spares_of_owing {s : System T} (h : s.Owing) {caller : Option ℕ} {max : Option UInt64}
    (hmine : s.core.queueLen = 0 ∨ max = none ∧ ∃ i ∈ s.notified, caller = some i) :
    s.SparesItems caller max := by
  rcases h with hgone | howed
  · exact .inl (of_decide_eq_true hgone)
  have howed' : s.notified.encard ≤ (s.core.queueLen.toNat : ℕ∞) := howed
  right
  rcases hmine with hzero | ⟨rfl, i, hi, rfl⟩
  · calc {j ∈ s.notified | some j ≠ caller}.encard +
          (min (max.elim 1 UInt64.toNat) s.core.queueLen.toNat : ℕ)
        = {j ∈ s.notified | some j ≠ caller}.encard := by simp [hzero]
      _ ≤ s.notified.encard := Set.encard_le_encard (Set.sep_subset _ _)
      _ ≤ (s.core.queueLen.toNat : ℕ∞) := howed'
  · have hothers : {j ∈ s.notified | some j ≠ some i} = s.notified \ {i} := by
      ext j
      simp
    calc {j ∈ s.notified | some j ≠ some i}.encard +
          (min ((none : Option UInt64).elim 1 UInt64.toNat) s.core.queueLen.toNat : ℕ)
        ≤ (s.notified \ {i}).encard + 1 := by
          rw [hothers]
          gcongr
          exact_mod_cast Nat.min_le_left 1 _
      _ = s.notified.encard := Set.encard_sdiff_singleton_add_one hi
      _ ≤ (s.core.queueLen.toNat : ℕ∞) := howed'

/-- Receives that take nothing, or the item the caller was notified of. -/
def courteous (t : Timed T) : Move T → Bool
  | .event (.act .tryRecv) | .event (.act (.tryRecvBatch _)) => t.system.core.queueLen = 0
  | .event (.act (.advance i)) => t.system.core.queueLen = 0 ||
      ((t.system.tasks i).timedWait && t.system.core.flags i = successSpace)
  | .event .reviveSender => false
  | _ => true

theorem spares_of_courteous (h : Inv capacity t) {m : Move T} (hm : courteous t m) :
    t.Spares m := by
  cases m <;> try trivial
  rename_i e
  cases e <;> try trivial
  rename_i a
  cases a <;> try trivial
  case tryRecv | tryRecvBatch =>
    exact spares_of_owing h.owing (.inl (of_decide_eq_true hm))
  case advance i =>
    simp only [courteous, Bool.or_eq_true, Bool.and_eq_true, decide_eq_true_eq] at hm
    simp only [Spares, System.Spares]
    cases ht : t.system.tasks i <;> try trivial
    case recvTry k max =>
      exact spares_of_owing h.owing (.inl (hm.resolve_right (by simp [ht, Task.timedWait])))
    case timedRetry | timedFinal =>
      exact spares_of_owing h.owing (hm.imp_right fun hm => ⟨rfl, i, hm, rfl⟩)

/-- A timed receive waits, is notified and takes the item; another one finds its time up. -/
def notifiedOnce : List (Move ℕ) :=
  [.recvTimeout 1 5, .event (.act (.advance 1)), .event (.act (.advance 1)),
    .recvTimeout 2 0, .event (.act (.advance 2)), .event (.act (.advance 2)), .look 1,
    .event (.act (.timeout 2)), .event (.act (.advance 2)), .event (.act (.trySend 7)),
    .event (.act (.resume 1)), .event (.act (.advance 1))]

/-- How the receives of a run ended: the caller and `some` of the items, or `none`. -/
def results (t : Timed T) : List (ℕ × Option (List T)) :=
  t.returned.map fun r => (r.caller, match r.result with
    | .item items => some items
    | _ => none)

theorem returns_notifiedOnce : ∃ t : Timed ℕ, Run (step 1) Spares (init 1) t ∧
    t.results = [(2, none), (1, some [7])] ∧
    ((∀ r ∈ t.returned, r.result ≠ .unreachable ∧ (r.result = .timeout → r.deadline ≤ r.time)) ∧
      ∀ i, t.deadline i ≤ t.now → t.left i ≠ 0 →
        (∃ m t', m.owner = some i ∧ t.step 1 m = some t') ∧
          ∀ m t', t.step 1 m = some t' →
            (m.owner = some i → t'.left i < t.left i ∧
              (t'.left i = 0 → ∃ r, t'.returned = t.returned ++ [r] ∧ r.caller = i)) ∧
            (m.owner ≠ some i → t'.left i = t.left i)) := by
  have hexec : (exec (step 1) courteous (init 1) notifiedOnce).map results =
      some [(2, none), (1, some [7])] := by
    rfl
  obtain ⟨t, ht, hresults⟩ := Option.map_eq_some_iff.mp hexec
  have hrun : Run (step 1) Spares (init 1) t :=
    run_of_exec_of_invariant (Inv.init) (fun _ _ h hm => spares_of_courteous h hm)
      (fun _ _ _ h hspares hs => h.step (by decide) (by decide) hspares hs) ht
  exact ⟨t, hrun, hresults, returns_of_spares (by decide) (by decide) hrun⟩

/-- Another receive takes the item of a notified timed receive, whose time is up then. -/
theorem unreachable_of_barging : ¬ ∀ t : Timed ℕ, Reachable (step 1) (init 1) t →
    ∀ r ∈ t.returned, r.result ≠ .unreachable := by
  intro hall
  have hexec : (exec (step 1) (fun _ _ => true) (init 1)
      [.recvTimeout 1 0, .event (.act (.advance 1)), .event (.act (.advance 1)),
        .event (.act (.trySend 7)), .event (.act .tryRecv), .event (.act (.timeout 1)),
        .event (.act (.advance 1))]).map (fun t : Timed ℕ => t.returned.any fun r =>
          match r.result with
          | .unreachable => true
          | _ => false) = some true := by
    rfl
  obtain ⟨t, ht, hany⟩ := Option.map_eq_some_iff.mp hexec
  obtain ⟨r, hr, hpanic⟩ := List.any_eq_true.mp hany
  refine hall t (reachable_of_exec ht) r hr ?_
  cases hresult : r.result <;> simp [hresult] at hpanic
  rfl

end Timed

end Fibre.Channels.Mpmc
