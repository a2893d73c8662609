import Fibre.Channels.Mpmc.Batches

/-!
# A batch and its items

`try_send_batch_core` does under one lock what `try_send_core` does under many. The two search the
queues of waiting receivers differently. A single send steps over the waiters that do not wait any
more, and leaves them where they are; a batch throws them away. What both see is the rest of a
queue, and on that they agree after every item.
-/

namespace Fibre.Channels.Mpmc

open WaiterState List

variable {T : Type*} {capacity : UInt64} {f : ℕ → WaiterState} {q : List ℕ} {w : ℕ}

namespace Internal

/-- `try_send_core` on one item after the other, up to the first that does not go through. -/
def sendSingles (capacity : UInt64) : List T → Internal T → BatchRun T
  | [], c => ⟨0, [], none, false, c⟩
  | item :: rest, c =>
    match c.trySendCore capacity item with
    | (.ok, c) =>
      let t := sendSingles capacity rest c
      { t with sent := t.sent + 1 }
    | (.closed item, c) => ⟨0, item :: rest, some .closed, false, c⟩
    | (.full item, c) => ⟨0, item :: rest, some .full, false, c⟩
    | (.pushFailed, c) => ⟨0, rest, none, true, c⟩

/-- The receiver whose flag a single send takes; it is woken once the item is in the buffer. -/
def takenBySingle (capacity : UInt64) (c : Internal T) : Option ℕ :=
  if c.isFull capacity then none
  else
    match firstWaiting c.flags c.waitingAsyncReceivers with
    | some r => some r.1
    | none => (firstWaiting c.flags c.waitingSyncReceivers).map Prod.fst

/-- The receivers that single sends of the items wake, in order. -/
def wokenBySingles (capacity : UInt64) : List T → Internal T → List ℕ
  | [], _ => []
  | item :: rest, c =>
    match c.trySendCore capacity item with
    | (.ok, c') => (c.takenBySingle capacity).toList ++ wokenBySingles capacity rest c'
    | _ => []

/-- The receiver whose flag a turn of a batch takes; it is woken once the item is in the buffer. -/
def takenByTurn (capacity : UInt64) (c : Internal T) : Option ℕ :=
  if c.isFull capacity then none
  else
    match (popWaiting c.flags c.waitingAsyncReceivers).1 with
    | some w => some w
    | none => (popWaiting c.flags c.waitingSyncReceivers).1

/-- The receivers that the loop of a batch wakes, in order. -/
def wokenByWhile (capacity : UInt64) : ℕ → List T → Internal T → List ℕ
  | 0, _, _ => []
  | limit + 1, items, c =>
    let r := if c.isFull capacity then (false, c) else c.popReceiver
    if r.1 ∨ (capacity ≠ 0 ∧ r.2.queueLen < capacity) then
      match items with
      | [] => []
      | item :: rest =>
        match r.2.pushBack item with
        | some c' => (c.takenByTurn capacity).toList ++ wokenByWhile capacity limit rest c'
        | none => []
    else []

/-- The receivers that `try_send_batch_core` wakes, in order. -/
def wokenByBatch (capacity : UInt64) (c : Internal T) (items : List T) (limit : ℕ) : List ℕ :=
  if limit = 0 ∨ c.receiverCount = 0 then [] else wokenByWhile capacity limit items c

end Internal

/-! ### The waiters that wait -/

/-- The waiters of a queue whose flags can be taken. -/
def live (f : ℕ → WaiterState) (q : List ℕ) : List ℕ := q.filter fun i => f i = waiting

theorem live_cons_of_waiting (hw : f w = waiting) : live f (w :: q) = w :: live f q := by
  simp [live, hw]

theorem live_cons_of_not (hw : f w ≠ waiting) : live f (w :: q) = live f q := by
  simp [live, hw]

theorem live_update (q : List ℕ) (w : ℕ) :
    live (Function.update f w successSpace) q = (live f q).filter (· ≠ w) := by
  rw [live, live, filter_filter]
  refine filter_congr fun i _ => ?_
  by_cases hi : i = w
  · simp [hi]
  · simp [hi]

attribute [local simp] firstWaiting popWaiting

theorem firstWaiting_fst (f : ℕ → WaiterState) (q : List ℕ) :
    (firstWaiting f q).map Prod.fst = (live f q).head? := by
  induction q with
  | nil => rfl
  | cons x q ih =>
    rw [firstWaiting]
    split_ifs with hx
    · rw [live_cons_of_waiting hx]
      rfl
    · rw [live_cons_of_not hx, ← ih, Option.map_map]
      rfl

theorem popWaiting_fst (f : ℕ → WaiterState) (q : List ℕ) :
    (popWaiting f q).1 = (live f q).head? := by
  induction q with
  | nil => rfl
  | cons x q ih =>
    rw [popWaiting]
    split_ifs with hx
    · rw [live_cons_of_waiting hx]
      rfl
    · rw [live_cons_of_not hx, ih]

theorem firstWaiting_live {q' : List ℕ} (h : firstWaiting f q = some (w, q')) :
    (live f q').filter (· ≠ w) = (live f q).filter (· ≠ w) := by
  induction q generalizing q' with
  | nil => simp at h
  | cons x q ih =>
    rw [firstWaiting] at h
    split_ifs at h with hx
    · obtain ⟨rfl, rfl⟩ : x = w ∧ q = q' := by simpa using h
      rw [live_cons_of_waiting hx]
      simp
    · obtain ⟨r, hr, heq⟩ := Option.map_eq_some_iff.mp h
      obtain ⟨rfl, rfl⟩ : r.1 = w ∧ x :: r.2 = q' := by simpa using heq
      rw [live_cons_of_not hx, live_cons_of_not hx]
      exact ih hr

theorem popWaiting_live (h : (popWaiting f q).1 = some w) :
    (live f (popWaiting f q).2).filter (· ≠ w) = (live f q).filter (· ≠ w) := by
  induction q with
  | nil => simp at h
  | cons x q ih =>
    rw [popWaiting] at h ⊢
    split_ifs at h ⊢ with hx
    · obtain rfl : x = w := by simpa using h
      rw [live_cons_of_waiting hx]
      simp
    · rw [live_cons_of_not hx]
      exact ih h

theorem popWaiting_none (h : (popWaiting f q).1 = none) :
    live f (popWaiting f q).2 = live f q := by
  induction q with
  | nil => rfl
  | cons x q ih =>
    rw [popWaiting] at h ⊢
    split_ifs at h ⊢ with hx
    rw [live_cons_of_not hx]
    exact ih h

namespace Internal

variable {c d : Internal T} {item : T}

/-- The two states are equal but for receivers in the queues that do not wait any more. -/
structure Agrees (c d : Internal T) : Prop where
  queue : c.queue = d.queue
  queueLen : c.queueLen = d.queueLen
  syncSenders : c.waitingSyncSenders = d.waitingSyncSenders
  asyncSenders : c.waitingAsyncSenders = d.waitingAsyncSenders
  senderCount : c.senderCount = d.senderCount
  receiverCount : c.receiverCount = d.receiverCount
  flags : c.flags = d.flags
  sync : live c.flags c.waitingSyncReceivers = live d.flags d.waitingSyncReceivers
  async : live c.flags c.waitingAsyncReceivers = live d.flags d.waitingAsyncReceivers

theorem Agrees.refl (c : Internal T) : Agrees c c := ⟨rfl, rfl, rfl, rfl, rfl, rfl, rfl, rfl, rfl⟩

/-- The next receiver in line, the asynchronous ones first. -/
def nextReceiver (c : Internal T) : Option ℕ :=
  (live c.flags c.waitingAsyncReceivers ++ live c.flags c.waitingSyncReceivers).head?

theorem Agrees.nextReceiver (h : Agrees c d) : c.nextReceiver = d.nextReceiver := by
  rw [Internal.nextReceiver, Internal.nextReceiver, h.async, h.sync]

theorem Agrees.isFull (h : Agrees c d) : c.isFull capacity = d.isFull capacity := by
  rw [Internal.isFull, Internal.isFull, h.queueLen]

theorem Agrees.pushBack (h : Agrees c d) (item : T) :
    Option.Rel Agrees (c.pushBack item) (d.pushBack item) := by
  rw [Internal.pushBack, Internal.pushBack, h.queue, h.queueLen]
  cases d.queue.push item with
  | none => exact .none
  | some q' => exact .some { h with queue := rfl, queueLen := rfl }

theorem Agrees.symm (h : Agrees c d) : Agrees d c :=
  ⟨h.queue.symm, h.queueLen.symm, h.syncSenders.symm, h.asyncSenders.symm, h.senderCount.symm,
    h.receiverCount.symm, h.flags.symm, h.sync.symm, h.async.symm⟩

theorem Agrees.trans {e : Internal T} (h : Agrees c d) (h' : Agrees d e) : Agrees c e :=
  ⟨h.queue.trans h'.queue, h.queueLen.trans h'.queueLen, h.syncSenders.trans h'.syncSenders,
    h.asyncSenders.trans h'.asyncSenders, h.senderCount.trans h'.senderCount,
    h.receiverCount.trans h'.receiverCount, h.flags.trans h'.flags, h.sync.trans h'.sync,
    h.async.trans h'.async⟩

theorem Agrees.setFlag (h : Agrees c d) (w : ℕ) :
    Agrees (c.setFlag w successSpace) (d.setFlag w successSpace) where
  __ := h
  flags := by rw [Internal.setFlag, Internal.setFlag, h.flags]
  sync := by
    simp only [Internal.setFlag, live_update, h.sync]
  async := by
    simp only [Internal.setFlag, live_update, h.async]

theorem takenBySingle_eq (c : Internal T) :
    c.takenBySingle capacity = if c.isFull capacity then none else c.nextReceiver := by
  rw [takenBySingle, nextReceiver, List.head?_append, ← firstWaiting_fst, ← firstWaiting_fst]
  cases firstWaiting c.flags c.waitingAsyncReceivers <;> rfl

theorem takenByTurn_eq (c : Internal T) :
    c.takenByTurn capacity = if c.isFull capacity then none else c.nextReceiver := by
  rw [takenByTurn, nextReceiver, List.head?_append, ← popWaiting_fst, ← popWaiting_fst]
  cases (popWaiting c.flags c.waitingAsyncReceivers).1 <;> rfl

theorem wakeReceiver_of_next (h : c.nextReceiver = some w) :
    ∃ c', c.wakeReceiver = some c' ∧ Agrees c' (c.setFlag w successSpace) := by
  rw [nextReceiver, List.head?_append, ← firstWaiting_fst, ← firstWaiting_fst] at h
  rw [wakeReceiver]
  cases ha : firstWaiting c.flags c.waitingAsyncReceivers with
  | some r =>
    obtain rfl : r.1 = w := by simpa [ha] using h
    refine ⟨_, rfl, { Agrees.refl (c.setFlag r.1 successSpace) with async := ?_ }⟩
    simpa only [setFlag, live_update] using firstWaiting_live ha
  | none =>
    cases hs : firstWaiting c.flags c.waitingSyncReceivers with
    | some r =>
      obtain rfl : r.1 = w := by simpa [ha, hs] using h
      refine ⟨_, rfl, { Agrees.refl (c.setFlag r.1 successSpace) with sync := ?_ }⟩
      simpa only [setFlag, live_update] using firstWaiting_live hs
    | none => simp [ha, hs] at h

theorem wakeReceiver_of_none (h : c.nextReceiver = none) : c.wakeReceiver = none := by
  rw [nextReceiver, List.head?_append, ← firstWaiting_fst, ← firstWaiting_fst] at h
  rw [wakeReceiver]
  cases ha : firstWaiting c.flags c.waitingAsyncReceivers with
  | some r => simp [ha] at h
  | none =>
    cases hs : firstWaiting c.flags c.waitingSyncReceivers with
    | some r => simp [ha, hs] at h
    | none => rfl

/-- A turn of a batch takes the same flag. The waiters in front of it are gone, and did not
wait. -/
theorem popReceiver_of_next (h : c.nextReceiver = some w) :
    c.popReceiver.1 = true ∧ Agrees c.popReceiver.2 (c.setFlag w successSpace) := by
  rw [nextReceiver, List.head?_append, ← popWaiting_fst, ← popWaiting_fst] at h
  rw [popReceiver]
  dsimp only
  cases ha : (popWaiting c.flags c.waitingAsyncReceivers).1 with
  | some v =>
    obtain rfl : v = w := by simpa [ha] using h
    refine ⟨rfl, { Agrees.refl (c.setFlag v successSpace) with async := ?_ }⟩
    simpa only [setFlag, live_update] using popWaiting_live ha
  | none =>
    obtain hs : (popWaiting c.flags c.waitingSyncReceivers).1 = some w := by simpa [ha] using h
    simp only [hs]
    refine ⟨trivial, { Agrees.refl (c.setFlag w successSpace) with sync := ?_, async := ?_ }⟩
    · simpa only [setFlag, live_update] using popWaiting_live hs
    · simp only [setFlag, live_update, popWaiting_none ha]

theorem popReceiver_of_none (h : c.nextReceiver = none) :
    c.popReceiver.1 = false ∧ Agrees c.popReceiver.2 c := by
  rw [nextReceiver, List.head?_append, ← popWaiting_fst, ← popWaiting_fst] at h
  rw [popReceiver]
  dsimp only
  cases ha : (popWaiting c.flags c.waitingAsyncReceivers).1 with
  | some v => simp [ha] at h
  | none =>
    have hs : (popWaiting c.flags c.waitingSyncReceivers).1 = none := by simpa [ha] using h
    simp only [hs]
    exact ⟨trivial, { Agrees.refl c with
      async := popWaiting_none ha, sync := popWaiting_none hs }⟩

/-! ### One item -/

/-- Nothing can be sent: there is no room for an item, not even one on its way to a receiver. -/
def Blocked (capacity : UInt64) (c : Internal T) : Prop :=
  c.isFull capacity ∨ c.nextReceiver = none ∧ (capacity = 0 ∨ ¬ c.queueLen < capacity)

/-- The flag of the next receiver in line, if there is one, is taken. -/
def takeNext (c : Internal T) : Internal T :=
  match c.nextReceiver with
  | some w => c.setFlag w successSpace
  | none => c

theorem Agrees.blocked (h : Agrees c d) : Blocked capacity c ↔ Blocked capacity d := by
  rw [Blocked, Blocked, h.isFull, h.nextReceiver, h.queueLen]

theorem Agrees.takeNext (h : Agrees c d) : Agrees c.takeNext d.takeNext := by
  rw [Internal.takeNext, Internal.takeNext, h.nextReceiver]
  cases d.nextReceiver with
  | some w => exact h.setFlag w
  | none => exact h

theorem trySendCore_of_blocked (hopen : c.receiverCount ≠ 0) (h : Blocked capacity c) :
    c.trySendCore capacity item = (.full item, c) := by
  have hnone : (if c.isFull capacity then none else c.wakeReceiver) = none := by
    rcases h with hfull | ⟨hnext, -⟩
    · exact if_pos hfull
    · rw [wakeReceiver_of_none hnext, ite_self]
  have hroom : capacity = 0 ∨ ¬ c.queueLen < capacity := by
    rcases h with hfull | ⟨-, hroom⟩
    · by_cases hzero : capacity = 0
      · exact .inl hzero
      · right
        rw [(isFull_iff hzero).mp hfull]
        exact UInt64.lt_irrefl capacity
    · exact hroom
  rw [trySendCore, if_neg hopen, hnone]
  dsimp only
  rcases hroom with hzero | hroom
  · rw [if_pos hzero]
  · rw [if_neg hroom, ite_self]

theorem trySendCore_of_not_blocked (item : T) (hopen : c.receiverCount ≠ 0) (h : ¬ Blocked capacity c) :
    ∃ c', c.trySendCore capacity item = c'.store item ∧ Agrees c' c.takeNext := by
  rw [Blocked, not_or, not_and_or] at h
  obtain ⟨hfull, hroom⟩ := h
  rw [trySendCore, if_neg hopen, if_neg hfull, Internal.takeNext]
  cases hnext : c.nextReceiver with
  | some w =>
    obtain ⟨c', hwake, hagrees⟩ := wakeReceiver_of_next hnext
    exact ⟨c', by rw [hwake], hagrees⟩
  | none =>
    obtain ⟨hzero, hlt⟩ : capacity ≠ 0 ∧ c.queueLen < capacity := by
      simpa [hnext] using hroom
    refine ⟨c, ?_, .refl c⟩
    rw [wakeReceiver_of_none hnext]
    simp only [if_neg hzero, if_pos hlt]

theorem turn_of_blocked (h : Blocked capacity d) :
    let r := if d.isFull capacity then (false, d) else d.popReceiver
    ¬ (r.1 ∨ (capacity ≠ 0 ∧ r.2.queueLen < capacity)) ∧ Agrees r.2 d := by
  dsimp only
  split_ifs with hfull
  · refine ⟨?_, .refl d⟩
    rintro (hfalse | ⟨hzero, hlt⟩)
    · cases hfalse
    · rw [(isFull_iff hzero).mp hfull] at hlt
      exact UInt64.lt_irrefl capacity hlt
  · obtain ⟨hnext, hroom⟩ := h.resolve_left hfull
    obtain ⟨hpop, hagrees⟩ := popReceiver_of_none hnext
    refine ⟨?_, hagrees⟩
    rw [hpop, hagrees.queueLen, not_or, not_and_or, not_not]
    exact ⟨Bool.false_ne_true, hroom⟩

theorem turn_of_not_blocked (h : ¬ Blocked capacity d) :
    let r := if d.isFull capacity then (false, d) else d.popReceiver
    (r.1 ∨ (capacity ≠ 0 ∧ r.2.queueLen < capacity)) ∧ Agrees r.2 d.takeNext := by
  rw [Blocked, not_or, not_and_or] at h
  obtain ⟨hfull, hroom⟩ := h
  dsimp only
  rw [if_neg hfull, Internal.takeNext]
  cases hnext : d.nextReceiver with
  | some w =>
    obtain ⟨hpop, hagrees⟩ := popReceiver_of_next hnext
    exact ⟨.inl hpop, hagrees⟩
  | none =>
    obtain ⟨-, hagrees⟩ := popReceiver_of_none hnext
    refine ⟨.inr ?_, hagrees⟩
    rw [hagrees.queueLen]
    simpa [hnext] using hroom

theorem not_blocked_taken (h : ¬ Blocked capacity c) :
    c.takenBySingle capacity = c.nextReceiver ∧ c.takenByTurn capacity = c.nextReceiver := by
  have hfull : ¬ c.isFull capacity := fun hfull => h (.inl hfull)
  rw [takenBySingle_eq, takenByTurn_eq, if_neg hfull]
  exact ⟨rfl, rfl⟩

theorem receiverCount_takeNext (c : Internal T) :
    c.takeNext.receiverCount = c.receiverCount := by
  rw [Internal.takeNext]
  split <;> rfl

theorem receiverCount_of_pushBack {c' : Internal T} (h : c.pushBack item = some c') :
    c'.receiverCount = c.receiverCount := by
  obtain ⟨q, -, rfl⟩ := Option.map_eq_some_iff.mp h
  rfl

/-! ### All items -/

theorem sendBatchWhile_agrees (capacity : UInt64) (items more : List T) (hopen : c.receiverCount ≠ 0)
    (h : Agrees c d) :
    let batch := sendBatchWhile capacity items.length (items ++ more) d
    let singles := sendSingles capacity items c
    Agrees singles.core batch.core ∧ batch.sent = singles.sent ∧
      batch.left = singles.left ++ more ∧ batch.reason = singles.reason ∧
      batch.panicked = singles.panicked ∧
      wokenByWhile capacity items.length (items ++ more) d = wokenBySingles capacity items c := by
  induction items generalizing c d with
  | nil => exact ⟨h, rfl, rfl, rfl, rfl, rfl⟩
  | cons item rest ih =>
    by_cases hblocked : Blocked capacity c
    · -- the single send and the batch both stop here
      obtain ⟨hturn, hagrees⟩ := turn_of_blocked (h.blocked.mp hblocked)
      simp only [length_cons, cons_append, sendBatchWhile, if_neg hturn, sendSingles,
        wokenByWhile, wokenBySingles, trySendCore_of_blocked hopen hblocked]
      exact ⟨h.trans hagrees.symm, trivial, trivial, trivial, trivial, trivial⟩
    · have hblocked' : ¬ Blocked capacity d := fun hd => hblocked (h.blocked.mpr hd)
      obtain ⟨c₁, hsend, hc₁⟩ := trySendCore_of_not_blocked item hopen hblocked
      obtain ⟨hturn, hd₁⟩ := turn_of_not_blocked hblocked'
      have htaken : c.takenBySingle capacity = d.takenByTurn capacity := by
        rw [(not_blocked_taken hblocked).1, (not_blocked_taken hblocked').2, h.nextReceiver]
      simp only [length_cons, cons_append, sendBatchWhile, if_pos hturn, sendSingles,
        wokenByWhile, wokenBySingles, hsend, htaken]
      revert hd₁
      generalize (if d.isFull capacity then (false, d) else d.popReceiver).2 = d₁
      intro hd₁
      have hagrees : Agrees c₁ d₁ := hc₁.trans (h.takeNext.trans hd₁.symm)
      have hpush := hagrees.pushBack item
      rw [store]
      cases hc : c₁.pushBack item with
      | none =>
        rw [hc] at hpush
        cases hd : d₁.pushBack item with
        | none => exact ⟨hagrees, rfl, rfl, rfl, rfl, rfl⟩
        | some d₂ =>
          rw [hd] at hpush
          cases hpush
      | some c₂ =>
        rw [hc] at hpush
        cases hd : d₁.pushBack item with
        | none =>
          rw [hd] at hpush
          cases hpush
        | some d₂ =>
          rw [hd] at hpush
          cases hpush with
          | some h₂ =>
            have hopen₂ : c₂.receiverCount ≠ 0 := by
              rwa [receiverCount_of_pushBack hc, hc₁.receiverCount, receiverCount_takeNext]
            obtain ⟨hcore, hsent, hleft, hreason, hpanicked, hwoken⟩ := ih hopen₂ h₂
            exact ⟨hcore, congrArg (· + 1) hsent, hleft, hreason, hpanicked,
              congrArg (_ ++ ·) hwoken⟩

/-- A batch send leaves what single sends of its items leave, up to the first that finds the
channel full or closed: the same buffer and length, as many items sent, the same items left, and
the same receivers woken in the same order. What is behind the limit stays in the iterator. -/
theorem batch_eq_singles (capacity : UInt64) (c : Internal T) (items more : List T) :
    let batch := c.trySendBatchLimit capacity (items ++ more) items.length
    let singles := sendSingles capacity items c
    batch.core.queue = singles.core.queue ∧ batch.core.queueLen = singles.core.queueLen ∧
      batch.sent = singles.sent ∧ batch.left = singles.left ++ more ∧
      batch.reason = singles.reason ∧ batch.panicked = singles.panicked ∧
      batch.core.flags = singles.core.flags ∧
      wokenByBatch capacity c (items ++ more) items.length = wokenBySingles capacity items c := by
  dsimp only
  rw [trySendBatchLimit, wokenByBatch]
  cases items with
  | nil => exact ⟨rfl, rfl, rfl, rfl, rfl, rfl, rfl, rfl⟩
  | cons item rest =>
    have hlimit : (item :: rest).length ≠ 0 := by simp
    by_cases hclosed : c.receiverCount = 0
    · rw [if_neg hlimit, if_pos hclosed, if_pos (.inr hclosed), sendSingles, wokenBySingles,
        trySendCore_of_closed hclosed]
      exact ⟨rfl, rfl, rfl, rfl, rfl, rfl, rfl, rfl⟩
    · rw [if_neg hlimit, if_neg hclosed, if_neg (not_or.mpr ⟨hlimit, hclosed⟩)]
      obtain ⟨hcore, hsent, hleft, hreason, hpanicked, hwoken⟩ :=
        sendBatchWhile_agrees capacity (item :: rest) more hclosed (.refl c)
      exact ⟨hcore.queue.symm, hcore.queueLen.symm, hsent, hleft, hreason, hpanicked,
        hcore.flags.symm, hwoken⟩

end Internal

end Fibre.Channels.Mpmc
