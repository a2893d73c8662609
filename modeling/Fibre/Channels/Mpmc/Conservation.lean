import Fibre.Channels.Mpmc.System

/-!
# Conservation in the bounded MPMC channel

Whatever the interleaving, the cached length is the ring's, the buffer never exceeds the capacity,
no push fails, and the items popped so far are the first of those accepted. The capacity must
be at most `2 ^ 63`: the ring rounds its storage up to a power of two, which overflows above.
-/

namespace Fibre.Channels.Mpmc

open WaiterState Machine List Option

variable {T : Type*} {capacity : UInt64}

/-- The buffer holds the items `l`, at most as many as the capacity, and the cached length is
theirs. -/
structure Internal.Stores (capacity : UInt64) (c : Internal T) (l : List T) : Prop where
  holds : c.queue.Holds capacity.toNat l
  length_le : l.length ≤ capacity.toNat
  queueLen : c.queueLen.toNat = l.length

namespace Internal

variable {c c' : Internal T} {l : List T} {item : T}

theorem stores_new (hle : capacity.toNat ≤ 2 ^ 63) :
    (new capacity : Internal T).Stores capacity [] :=
  ⟨RingBuffer.holds_new hle, Nat.zero_le _, rfl⟩

namespace Stores

theorem congr (h : c.Stores capacity l) (hq : c'.queue = c.queue)
    (hn : c'.queueLen = c.queueLen) : c'.Stores capacity l :=
  ⟨hq ▸ h.holds, h.length_le, hn ▸ h.queueLen⟩

theorem queueLen_lt (h : c.Stores capacity l) : c.queueLen < capacity ↔ l.length < capacity.toNat := by
  rw [UInt64.lt_iff_toNat_lt, h.queueLen]

theorem queueLen_eq (h : c.Stores capacity l) (hlt : ¬ c.queueLen < capacity) :
    c.queueLen = capacity := by
  rw [h.queueLen_lt, not_lt] at hlt
  rw [← UInt64.toNat_inj, h.queueLen]
  exact le_antisymm h.length_le hlt

theorem pushBack (h : c.Stores capacity l) (hlt : l.length < capacity.toNat) (item : T) :
    ∃ c', c.pushBack item = some c' ∧ c'.Stores capacity (l ++ [item]) ∧
      c' = { c with queue := c'.queue, queueLen := c'.queueLen } := by
  obtain ⟨q, hq, hholds⟩ := h.holds.push hlt item
  have hlen := hholds.length_lt
  rw [length_append, length_singleton] at hlen
  have hone : (1 : UInt64).toNat = 1 := rfl
  refine ⟨{ c with queue := q, queueLen := c.queueLen + 1 }, ?_, ⟨hholds, ?_, ?_⟩, rfl⟩
  · rw [Internal.pushBack, hq, map_some]
  · rw [length_append, length_singleton]
    exact hlt
  · rw [length_append, length_singleton, UInt64.toNat_add, h.queueLen, hone,
      Nat.mod_eq_of_lt hlen]

theorem popFront_cons (h : c.Stores capacity (item :: l)) :
    ∃ c', c.popFront = some (item, c') ∧ c'.Stores capacity l ∧
      c' = { c with queue := c'.queue, queueLen := c'.queueLen } := by
  obtain ⟨q, hq, hholds⟩ := h.holds.pop_cons
  have hone : (1 : UInt64).toNat = 1 := rfl
  have hlen := h.queueLen
  rw [length_cons] at hlen
  refine ⟨{ c with queue := q, queueLen := c.queueLen - 1 }, ?_, ⟨hholds, ?_, ?_⟩, rfl⟩
  · rw [Internal.popFront, hq, map_some]
  · exact (Nat.le_succ _).trans h.length_le
  · rw [UInt64.toNat_sub_of_le, hlen, hone, Nat.add_sub_cancel]
    rw [UInt64.le_iff_toNat_le, hlen, hone]
    omega

theorem popFront_nil (h : c.Stores capacity ([] : List T)) : c.popFront = none := by
  rw [Internal.popFront, h.holds.pop_nil, map_none]

theorem drainLoop {cap : ℕ} {q : RingBuffer T} (h : q.Holds cap l) {n : ℕ} (hn : n ≤ l.length) :
    (drainLoop n q).1 = l.take n ∧ (Internal.drainLoop n q).2.Holds cap (l.drop n) := by
  induction n generalizing q l with
  | zero => exact ⟨by simp [Internal.drainLoop], by simpa [Internal.drainLoop] using h⟩
  | succ n ih =>
    cases l with
    | nil => simp at hn
    | cons a l =>
      obtain ⟨q', hq', h'⟩ := h.pop_cons
      obtain ⟨hout, hrest⟩ := ih h' (by simpa using hn)
      simp only [Internal.drainLoop, hq']
      exact ⟨by simp [hout], by simpa using hrest⟩

theorem drainInto (h : c.Stores capacity l) {count : UInt64} (hn : count.toNat ≤ l.length) :
    (c.drainInto count).1 = l.take count.toNat ∧
      (c.drainInto count).2.Stores capacity (l.drop count.toNat) := by
  obtain ⟨hout, hrest⟩ := drainLoop h.holds hn
  have hle := h.length_le
  refine ⟨hout, hrest, ?_, ?_⟩
  · rw [length_drop]
    omega
  · rw [Internal.drainInto, UInt64.toNat_sub_of_le, h.queueLen, length_drop]
    rw [UInt64.le_iff_toNat_le, h.queueLen]
    exact hn

theorem store (h : c.Stores capacity l) (hlt : l.length < capacity.toNat) (item : T) :
    (c.store item).1 = .ok ∧ (c.store item).2.Stores capacity (l ++ [item]) := by
  obtain ⟨c', hpush, h', -⟩ := h.pushBack hlt item
  rw [Internal.store, hpush]
  exact ⟨rfl, h'⟩

/-- A single send stores the item or leaves the buffer alone, and no push fails. -/
theorem trySendCore (h : c.Stores capacity l) (hpos : capacity ≠ 0) (item : T) :
    ((c.trySendCore capacity item).1 = .ok ∧
        (c.trySendCore capacity item).2.Stores capacity (l ++ [item])) ∨
      (((c.trySendCore capacity item).1 = .closed item ∨
          (c.trySendCore capacity item).1 = .full item) ∧
        (c.trySendCore capacity item).2.Stores capacity l) := by
  by_cases hopen : c.receiverCount = 0
  · rw [trySendCore_of_closed hopen]
    exact .inr ⟨.inl rfl, h⟩
  · by_cases hlt : c.queueLen < capacity
    · rw [trySendCore_of_lt hopen hlt]
      obtain ⟨hq, hn⟩ := wakeReceiver_queue c
      exact .inl ((h.congr hq hn).store (h.queueLen_lt.mp hlt) item)
    · rw [trySendCore_of_full hpos hopen (h.queueLen_eq hlt)]
      exact .inr ⟨.inr rfl, h⟩

theorem sendBatchLoop (h : c.Stores capacity l) (hpos : capacity ≠ 0) (items : List T) :
    ∃ k ≤ items.length, (Internal.sendBatchLoop capacity items c).1.2 = items.drop k ∧
      (Internal.sendBatchLoop capacity items c).1.1 ≠ .pushFailed ∧
      (Internal.sendBatchLoop capacity items c).2.Stores capacity (l ++ items.take k) := by
  induction items generalizing c l with
  | nil => exact ⟨0, le_rfl, rfl, by simp [Internal.sendBatchLoop], by simpa [Internal.sendBatchLoop]⟩
  | cons item rest ih =>
    by_cases hlt : c.queueLen < capacity
    · obtain ⟨hq, hn⟩ := popReceiver_queue c
      obtain ⟨c', hpush, h', -⟩ := (h.congr hq hn).pushBack (h.queueLen_lt.mp hlt) item
      obtain ⟨k, hk, hleft, hstatus, hstores⟩ := ih h'
      rw [sendBatchLoop_of_lt hlt, hpush]
      refine ⟨k + 1, by simpa using hk, hleft, hstatus, ?_⟩
      simpa using hstores
    · rw [sendBatchLoop_of_full hpos (h.queueLen_eq hlt)]
      exact ⟨0, Nat.zero_le _, rfl, by simp, by simpa⟩

theorem trySendBatchCore (h : c.Stores capacity l) (hpos : capacity ≠ 0) (items : List T) :
    ∃ k ≤ items.length, (c.trySendBatchCore capacity items).1.2 = items.drop k ∧
      (c.trySendBatchCore capacity items).1.1 ≠ .pushFailed ∧
      (c.trySendBatchCore capacity items).2.Stores capacity (l ++ items.take k) := by
  unfold Internal.trySendBatchCore
  split_ifs with hnil
  · exact ⟨0, Nat.zero_le _, by simp [hnil], by simp, by simpa⟩
  · exact ⟨0, Nat.zero_le _, rfl, by simp, by simpa⟩
  · exact h.sendBatchLoop hpos items

theorem tryRecvCore (h : c.Stores capacity l) : ∃ k ≤ l.length,
    (c.tryRecvCore capacity).1.items = l.take k ∧
      (c.tryRecvCore capacity).2.Stores capacity (l.drop k) := by
  unfold Internal.tryRecvCore
  cases l with
  | nil =>
    rw [h.popFront_nil]
    refine ⟨0, le_rfl, ?_, ?_⟩
    · dsimp only
      split_ifs <;> rfl
    · dsimp only
      split_ifs <;> exact h
  | cons item l =>
    obtain ⟨c', hpop, h', -⟩ := h.popFront_cons
    rw [hpop]
    refine ⟨1, by simp, rfl, ?_⟩
    dsimp only
    split_ifs
    · obtain ⟨hq, hn⟩ := wakeSender_queue c'
      exact h'.congr hq hn
    · exact h'

theorem tryRecvBatchCore (h : c.Stores capacity l) (hpos : capacity ≠ 0) (max : UInt64) :
    ∃ k ≤ l.length, (c.tryRecvBatchCore capacity max).1.items = l.take k ∧
      (c.tryRecvBatchCore capacity max).2.Stores capacity (l.drop k) := by
  by_cases hmax : max = 0
  · rw [Internal.tryRecvBatchCore, if_pos hmax]
    exact ⟨0, Nat.zero_le _, rfl, h⟩
  · by_cases hzero : c.queueLen = 0
    · rw [tryRecvBatchCore_of_empty hmax hzero]
      refine ⟨0, Nat.zero_le _, ?_, h⟩
      dsimp only
      split_ifs <;> rfl
    · have hle : (min max c.queueLen).toNat ≤ l.length := by
        rw [Word.toNat_min, h.queueLen]
        exact Nat.min_le_right _ _
      obtain ⟨hout, hrest⟩ := h.drainInto hle
      rw [tryRecvBatchCore_of_ne hmax hpos hzero]
      exact ⟨_, hle, hout, hrest.congr rfl rfl⟩

end Stores

end Internal

/-! ### Every state -/

namespace System

variable {s : System T}

/-- The buffer holds what was accepted and not yet popped, within the capacity, and no push
failed. -/
def Holds (capacity : UInt64) (s : System T) : Prop :=
  ∃ l, s.core.Stores capacity l ∧ s.accepted = s.popped ++ l ∧ s.failed = false

/-- The cached length is the ring's and at most the capacity, no push failed, and the items
popped are the first of those accepted. -/
def Conserved (capacity : UInt64) (s : System T) : Prop :=
  s.core.queueLen = s.core.queue.len ∧ s.core.queueLen ≤ capacity ∧ s.failed = false ∧
    s.popped <+: s.accepted

theorem Holds.conserved (h : s.Holds capacity) : s.Conserved capacity := by
  obtain ⟨l, hstores, hitems, hfailed⟩ := h
  refine ⟨?_, ?_, hfailed, l, hitems.symm⟩
  · rw [← UInt64.toNat_inj, hstores.queueLen, hstores.holds.toNat_len]
  · rw [UInt64.le_iff_toNat_le, hstores.queueLen]
    exact hstores.length_le

structure SameBuffer (s s' : System T) : Prop where
  queue : s'.core.queue = s.core.queue
  queueLen : s'.core.queueLen = s.core.queueLen
  accepted : s'.accepted = s.accepted
  popped : s'.popped = s.popped
  failed : s'.failed = s.failed

namespace SameBuffer

theorem setTask (s : System T) (i : ℕ) (t : Task T) : SameBuffer s (s.setTask i t) :=
  ⟨rfl, rfl, rfl, rfl, rfl⟩

theorem trans {s' s'' : System T} (h : SameBuffer s s') (h' : SameBuffer s' s'') :
    SameBuffer s s'' :=
  ⟨h'.queue.trans h.queue, h'.queueLen.trans h.queueLen, h'.accepted.trans h.accepted,
    h'.popped.trans h.popped, h'.failed.trans h.failed⟩

theorem core {c : Internal T} (hq : c.queue = s.core.queue) (hn : c.queueLen = s.core.queueLen) :
    SameBuffer s { s with core := c } := ⟨hq, hn, rfl, rfl, rfl⟩

theorem recvReturned (s : System T) (i : ℕ) (k : RecvKind) : SameBuffer s (s.recvReturned i k) := by
  cases k <;> exact ⟨rfl, rfl, rfl, rfl, rfl⟩

theorem recvThen (capacity : UInt64) (s : System T) (i : ℕ) (k : RecvKind) (max : Option UInt64)
    (next : Task T) : SameBuffer (s.recv capacity max).2 (s.recvThen capacity i k max next) := by
  unfold System.recvThen
  dsimp only
  split
  · exact recvReturned _ i k
  · exact recvReturned _ i k
  · exact setTask _ i next

end SameBuffer

/-- What a step can do to the buffer: nothing, a send, or a receive. -/
inductive BufferStep (capacity : UInt64) (s s' : System T) : Prop
  | same (h : SameBuffer s s')
  | send (batch : Bool) (items : List T) (h : SameBuffer (s.send capacity batch items).2 s')
  | recv (max : Option UInt64) (h : SameBuffer (s.recv capacity max).2 s')

theorem parkSender_queue (c : Internal T) (i : ℕ) (k : SendKind) :
    (parkSender c i k).queue = c.queue ∧ (parkSender c i k).queueLen = c.queueLen := by
  cases k <;> exact ⟨rfl, rfl⟩

theorem unlinkSender_queue (c : Internal T) (i : ℕ) (k : SendKind) :
    (unlinkSender c i k).queue = c.queue ∧ (unlinkSender c i k).queueLen = c.queueLen := by
  cases k <;> exact ⟨rfl, rfl⟩

theorem parkReceiver_queue (c : Internal T) (i : ℕ) (k : RecvKind) :
    (parkReceiver c i k).queue = c.queue ∧ (parkReceiver c i k).queueLen = c.queueLen := by
  cases k with
  | sync => exact ⟨rfl, rfl⟩
  | timed => exact ⟨rfl, rfl⟩
  | future =>
    unfold parkReceiver
    split_ifs <;> exact ⟨rfl, rfl⟩
  | stream =>
    unfold parkReceiver
    split_ifs <;> exact ⟨rfl, rfl⟩

theorem unlinkReceiver_queue (c : Internal T) (i : ℕ) (k : RecvKind) :
    (unlinkReceiver c i k).queue = c.queue ∧ (unlinkReceiver c i k).queueLen = c.queueLen := by
  cases k <;> exact ⟨rfl, rfl⟩

theorem cancelFlag_queue (c : Internal T) (i : ℕ) :
    (cancelFlag c i).queue = c.queue ∧ (cancelFlag c i).queueLen = c.queueLen := by
  unfold cancelFlag
  split_ifs <;> exact ⟨rfl, rfl⟩

theorem BufferStep.of_core {c : Internal T} (h : c.queue = s.core.queue ∧
    c.queueLen = s.core.queueLen) (i : ℕ) (t : Task T) :
    BufferStep capacity s ({ s with core := c }.setTask i t) :=
  .same ((SameBuffer.core h.1 h.2).trans (.setTask _ i t))

theorem advance_buffer {i : ℕ} {s' : System T} (hs : s.advance capacity i = some s') :
    BufferStep capacity s s' := by
  cases ht : s.tasks i <;> simp only [System.advance, ht, reduceCtorEq] at hs
  case sendTry k batch items =>
    split at hs <;> obtain rfl := Option.some.inj hs <;> exact .send batch items (.setTask _ i _)
  case sendRegister k batch items =>
    split_ifs at hs <;> obtain rfl := Option.some.inj hs
    · exact .same (.setTask s i _)
    · exact .same (.setTask s i _)
    · exact .of_core (parkSender_queue s.core i k) i _
  case sendWoken k batch items st =>
    obtain rfl := Option.some.inj hs
    exact .of_core (unlinkSender_queue s.core i k) i _
  case sendDropped k =>
    obtain rfl := Option.some.inj hs
    exact .of_core (unlinkSender_queue s.core i k) i _
  case recvTry k max =>
    obtain rfl := Option.some.inj hs
    exact .recv max (.recvThen capacity s i k max _)
  case recvRegister k max =>
    by_cases hre : recvRecheck capacity s.core k
    · rw [if_pos hre] at hs
      obtain rfl := Option.some.inj hs
      exact .same (.setTask s i _)
    · rw [if_neg hre] at hs
      split_ifs at hs <;> obtain rfl := Option.some.inj hs
      · exact .same (.recvReturned s i k)
      · exact .of_core (parkReceiver_queue s.core i k) i _
  case recvClosed k =>
    obtain rfl := Option.some.inj hs
    exact .of_core (unlinkReceiver_queue s.core i k) i _
  case recvDropped k =>
    obtain rfl := Option.some.inj hs
    exact .of_core (unlinkReceiver_queue s.core i k) i _
  case timedRetry =>
    obtain rfl := Option.some.inj hs
    exact .recv none (.recvThen capacity s i .timed none _)
  case timedFinal =>
    obtain rfl := Option.some.inj hs
    exact .recv none (.recvThen capacity s i .timed none _)

theorem resume_buffer {i : ℕ} {s' : System T} (hs : s.resume i = some s') : SameBuffer s s' := by
  have hsame : SameBuffer s s := ⟨rfl, rfl, rfl, rfl, rfl⟩
  unfold System.resume at hs
  dsimp only at hs
  split at hs <;> (try split_ifs at hs) <;> cases hs <;>
    first | exact hsame | exact .setTask s i _

theorem timeout_buffer {i : ℕ} {s' : System T} (hs : s.timeout i = some s') :
    BufferStep capacity s s' := by
  unfold System.timeout at hs
  split at hs <;> (try split_ifs at hs) <;> cases hs <;>
    first | exact .of_core (cancelFlag_queue s.core i) i _ | exact .same (.setTask s i _)

theorem drop_buffer {i : ℕ} {s' : System T} (hs : s.drop i = some s') :
    BufferStep capacity s s' := by
  unfold System.drop at hs
  split at hs <;> (try split_ifs at hs) <;> cases hs <;>
    first | exact .of_core (cancelFlag_queue s.core i) i _ | exact .same (.setTask s i _)

theorem step_buffer {a : Action T} {s' : System T} (hs : s.step capacity a = some s') :
    BufferStep capacity s s' := by
  cases a <;> simp only [System.step] at hs
  case trySend item =>
    obtain rfl := Option.some.inj hs
    exact .send false [item] ⟨rfl, rfl, rfl, rfl, rfl⟩
  case trySendBatch items =>
    obtain rfl := Option.some.inj hs
    exact .send true items ⟨rfl, rfl, rfl, rfl, rfl⟩
  case tryRecv =>
    obtain rfl := Option.some.inj hs
    exact .recv none ⟨rfl, rfl, rfl, rfl, rfl⟩
  case tryRecvBatch max =>
    obtain rfl := Option.some.inj hs
    exact .recv (some max) ⟨rfl, rfl, rfl, rfl, rfl⟩
  case startSend i k batch items =>
    split at hs <;> (try split_ifs at hs) <;> cases hs
    exact .same (.setTask s i _)
  case startRecv i k max =>
    split at hs <;> (try split_ifs at hs) <;> cases hs <;> exact .same (.setTask s i _)
  case advance i => exact advance_buffer hs
  case resume i => exact .same (resume_buffer hs)
  case timeout i => exact timeout_buffer hs
  case drop i => exact drop_buffer hs
  case cloneSender =>
    split_ifs at hs
    cases hs
    exact .same (.core rfl rfl)
  case cloneReceiver =>
    split_ifs at hs
    cases hs
    exact .same (.core rfl rfl)
  case closeSender =>
    split_ifs at hs
    cases hs
    refine .same (.core ?_ ?_) <;> unfold Internal.closeSender <;> dsimp only <;> split_ifs <;> rfl
  case closeReceiver =>
    split_ifs at hs
    cases hs
    refine .same (.core ?_ ?_) <;> unfold Internal.closeReceiver <;> dsimp only <;>
      split_ifs <;> rfl

namespace Holds

theorem congr {s' : System T} (h : s.Holds capacity) (hs : SameBuffer s s') :
    s'.Holds capacity := by
  obtain ⟨l, hstores, hitems, hfailed⟩ := h
  refine ⟨l, hstores.congr hs.queue hs.queueLen, ?_, hs.failed.trans hfailed⟩
  rw [hs.accepted, hs.popped, hitems]

theorem send (h : s.Holds capacity) (hpos : capacity ≠ 0) (batch : Bool) (items : List T) :
    (s.send capacity batch items).2.Holds capacity := by
  obtain ⟨l, hstores, hitems, hfailed⟩ := h
  -- a batch, and the empty single send no caller makes
  have hbatch : ∀ items : List T, Holds capacity { s with
      core := (s.core.trySendBatchCore capacity items).2
      accepted := s.accepted ++ items.take (items.length -
        if (s.core.trySendBatchCore capacity items).1.1 = .pushFailed then
          (s.core.trySendBatchCore capacity items).1.2.length + 1
        else (s.core.trySendBatchCore capacity items).1.2.length)
      failed := s.failed || decide ((s.core.trySendBatchCore capacity items).1.1 = .pushFailed) } := by
    intro items
    obtain ⟨k, hk, hleft, hstatus, hstores'⟩ := hstores.trySendBatchCore hpos items
    refine ⟨_, hstores', ?_, by simp [hfailed, hstatus]⟩
    rw [if_neg hstatus, hleft, length_drop, Nat.sub_sub_self hk, hitems, append_assoc]
  unfold System.send
  split
  · rename_i item _
    rcases hstores.trySendCore hpos item with ⟨hok, hstores'⟩ | ⟨hres | hres, hstores'⟩
    · simp only [hok]
      exact ⟨_, hstores', by rw [hitems, append_assoc], hfailed⟩
    · simp only [hres]
      exact ⟨l, hstores', hitems, hfailed⟩
    · simp only [hres]
      exact ⟨l, hstores', hitems, hfailed⟩
  · exact hbatch _

theorem recv (h : s.Holds capacity) (hpos : capacity ≠ 0) (max : Option UInt64) :
    (s.recv capacity max).2.Holds capacity := by
  obtain ⟨l, hstores, hitems, hfailed⟩ := h
  have hrecv : ∃ k ≤ l.length, (s.recv capacity max).1.items = l.take k ∧
      (s.recv capacity max).2.core.Stores capacity (l.drop k) := by
    cases max with
    | none => exact hstores.tryRecvCore
    | some max => exact hstores.tryRecvBatchCore hpos max
  obtain ⟨k, -, hout, hstores'⟩ := hrecv
  refine ⟨_, hstores', ?_, hfailed⟩
  have hpopped : (s.recv capacity max).2.popped = s.popped ++ l.take k := by
    rw [← hout]
    rfl
  rw [hpopped, append_assoc, take_append_drop]
  exact hitems

theorem step (h : s.Holds capacity) (hpos : capacity ≠ 0) {a : Action T} {s' : System T}
    (hs : s.step capacity a = some s') : s'.Holds capacity := by
  cases step_buffer hs with
  | same hsame => exact h.congr hsame
  | send batch items hsame => exact (h.send hpos batch items).congr hsame
  | recv max hsame => exact (h.recv hpos max).congr hsame

end Holds

theorem holds_init (hle : capacity.toNat ≤ 2 ^ 63) :
    (init capacity : System T).Holds capacity :=
  ⟨[], Internal.stores_new hle, rfl, rfl⟩

theorem failed_of_lt (hlt : 2 ^ 63 < capacity.toNat) (item : T) :
    ((init capacity : System T).send capacity false [item]).2.failed = true := by
  have hzero : (Internal.new capacity : Internal T).queueLen < capacity := by
    rw [UInt64.lt_iff_toNat_lt]
    exact (Nat.zero_le _).trans_lt hlt
  have hopen : (Internal.new capacity : Internal T).receiverCount ≠ 0 := Nat.one_ne_zero
  have hpush : (Internal.new capacity : Internal T).pushBack item = none := by
    rw [Internal.pushBack]
    have hnone : (Internal.new capacity : Internal T).queue.push item = none :=
      (RingBuffer.broken_new hlt).push item
    rw [hnone, map_none]
  have hwake : (Internal.new capacity : Internal T).wakeReceiver = none := rfl
  have hsend : (Internal.new capacity : Internal T).trySendCore capacity item =
      (.pushFailed, .new capacity) := by
    rw [Internal.trySendCore_of_lt hopen hzero, hwake, getD_none, Internal.store, hpush]
  have hcore : (init capacity : System T).core = .new capacity := rfl
  simp only [System.send, hcore, hsend]

theorem exists_not_conserved (hlt : 2 ^ 63 < capacity.toNat) (item : T) :
    ∃ s : System T, Reachable (step capacity) (init capacity) s ∧
      ¬ s.Conserved capacity := by
  have hrun : Reachable (step capacity) (init capacity)
      ((init capacity).send capacity false [item]).2 :=
    .tail (a := .trySend item) (.refl _) trivial rfl
  refine ⟨_, hrun, ?_⟩
  intro hconserved
  have hfailed := failed_of_lt hlt item
  rw [hconserved.2.2.1] at hfailed
  cases hfailed

/-- For a channel that can be made, every interleaving conserves its items exactly when the
capacity is at most `2 ^ 63`: the cached length is the ring's and within the capacity, no push
fails, and the items popped are at every moment the first of those accepted. -/
theorem conserved_iff [Nonempty T] (hpos : capacity ≠ 0) :
    (∀ s : System T, Reachable (step capacity) (init capacity) s → s.Conserved capacity) ↔
      capacity.toNat ≤ 2 ^ 63 := by
  constructor
  · intro h
    by_contra hlt
    obtain ⟨item⟩ := ‹Nonempty T›
    obtain ⟨s, hrun, hs⟩ := exists_not_conserved (not_le.mp hlt) item
    exact hs (h s hrun)
  · intro hle s hrun
    refine Holds.conserved (hrun.invariant (holds_init hle) ?_)
    intro t a u ht _ hstep
    exact ht.step hpos hstep

/-- A channel of capacity 3. -/
theorem conserved_three : (∀ s : System ℕ, Reachable (step 3) (init 3) s → s.Conserved 3) ↔
    (3 : UInt64).toNat ≤ 2 ^ 63 :=
  conserved_iff (by decide)

/-- A capacity of `2 ^ 63 + 1`, and one send. -/
theorem not_conserved_of_wrap : ¬ ∀ s : System ℕ,
    Reachable (step (2 ^ 63 + 1)) (init (2 ^ 63 + 1)) s → s.Conserved (2 ^ 63 + 1) := by
  intro h
  have hlt : 2 ^ 63 < (2 ^ 63 + 1 : UInt64).toNat := by decide +kernel
  obtain ⟨s, hrun, hs⟩ := exists_not_conserved hlt 0
  exact hs (h s hrun)

end System

end Fibre.Channels.Mpmc
