import Fibre.Channels.Mpsc.Batches
import Fibre.Channels.Spsc.Fifo

/-!
# The batch sends of the SPSC channel

A batch send lends its items to `write_batch`, which takes what it writes. The future that sends in
place looks for room first and drains a run from its vector; the ring has room for all of it, as only
the consumer can change that. Registering is left out, and what a send finds of the flags is open.
-/

namespace Fibre.Channels.Spsc

open Machine Word List Option

variable {T : Type*}

/-! ### `write_batch` -/

/-- The items a `write_batch` has not sent, and how many it has. -/
def Producer.batch : Producer T → Option (List T × ℕ)
  | .freeSpace items _ => some (items, 0)
  | .refresh item (some b) | .write item (some b) | .publish item (some b) =>
    some (item :: b.rest, b.sent)
  | .wrote n rest => some (rest, n)
  | _ => none

/-- It will send all its items, if the ring has that much room where it looks. -/
def Producer.Whole (room : ℕ) : Producer T → Prop
  | .freeSpace items limit => limit.toNat = items.length ∧ items.length ≤ room
  | .refresh _ (some b) | .write _ (some b) | .publish _ (some b) => b.left = b.rest.length
  | .wrote _ rest => rest = []
  | _ => True

theorem Producer.Whole.mono {q : Producer T} {room room' : ℕ} (h : q.Whole room) (hle : room ≤ room') :
    q.Whole room' := by
  cases q with
  | freeSpace items limit => exact ⟨h.1, h.2.trans hle⟩
  | refresh item batch | write item batch | publish item batch => cases batch <;> exact h
  | _ => exact h

/-- The slots that the consumer has freed. -/
def System.room (s : System T) : ℕ := s.popped.length + s.ring.cap.toNat - s.pushed.length

namespace System

variable {s s' : System T} {u : List T} {n : ℕ}

theorem batch_nextWrite (r : Ring T) (b : WriteBatch T) :
    (r.nextWrite b).batch = some (b.rest, b.sent) := by
  unfold Ring.nextWrite
  split_ifs
  · rfl
  · split
    · next h => rw [h]; rfl
    · next item rest h =>
      rw [h]
      unfold Ring.beginPush
      split_ifs <;> rfl

theorem whole_nextWrite (r : Ring T) {b : WriteBatch T} (hb : b.left = b.rest.length) (room : ℕ) :
    (r.nextWrite b).Whole room := by
  unfold Ring.nextWrite
  split_ifs with h
  · exact length_eq_zero_iff.mp (by rw [← hb, h])
  · cases hrest : b.rest with
    | nil => rfl
    | cons item rest =>
      rw [hrest, length_cons] at hb
      dsimp only
      unfold Ring.beginPush
      split_ifs <;> simp only [Producer.Whole] <;> omega

/-- A step of `write_batch` publishes the next item, or none. -/
theorem batch_step (hc : s.Counts) (h : s.producer.batch = some (u, n))
    (hs : s.step .producer = some s') :
    (s.producer.Whole s.room → s'.producer.Whole s'.room) ∧
      (s'.pushed = s.pushed ∧ s'.producer.batch = some (u, n) ∨
        ∃ x v, u = x :: v ∧ s'.pushed = s.pushed ++ [x] ∧ s'.producer.batch = some (v, n + 1)) := by
  obtain ⟨⟨ring, q, item⟩, hadvance, rfl⟩ := map_eq_some_iff.mp hs
  have hlegal := hc.legal
  cases hp : s.producer with
  | idle | unreachable | pushed | full item => rw [hp] at h; cases h
  | wrote m rest => rw [hp] at hadvance; cases hadvance
  | refresh item batch =>
    rw [hp] at h hlegal
    cases batch with
    | none => cases h
    -- the free slots were counted, so no push of a batch finds the ring full
    | some b => exact hlegal.elim
  | write item batch =>
    rw [hp] at h hadvance
    cases batch with
    | none => cases h
    | some b =>
      cases hadvance
      exact ⟨fun hw => hw, .inl ⟨append_nil _, h⟩⟩
  | publish item batch =>
    rw [hp] at h hadvance
    cases batch with
    | none => cases h
    | some b =>
      cases hadvance
      cases h
      exact ⟨fun hw => whole_nextWrite (b := ⟨b.rest, b.left, b.sent + 1⟩) _ hw _,
        .inr ⟨item, b.rest, rfl, rfl, batch_nextWrite _ _⟩⟩
  | freeSpace items limit =>
    rw [hp] at h hadvance
    cases hadvance
    cases h
    refine ⟨fun hw => whole_nextWrite _ ?_ _, .inl ⟨append_nil _, batch_nextWrite _ _⟩⟩
    -- the consumer has only freed slots since the vector was drained
    have hlen := hc.length_le
    obtain ⟨hlimit, hroom⟩ := hw
    simp only [room] at hroom
    simp only [toNat_min, hc.freeSpace]
    omega

theorem cap_of_advance {r r' : Ring T} {q q' : Consumer T} {item : Option T}
    (h : r.advanceConsumer q = some (r', q', item)) : r'.cap = r.cap := by
  cases q with
  | refresh batch =>
    simp only [Ring.advanceConsumer] at h
    split_ifs at h
    · cases batch <;> cases h <;> rfl
    · cases h
      rfl
  | read batch =>
    obtain ⟨⟨x, r''⟩, htake, h⟩ := map_eq_some_iff.mp h
    obtain ⟨y, -, htake⟩ := map_eq_some_iff.mp htake
    cases htake
    cases h
    rfl
  | release item batch => cases batch <;> cases h <;> rfl
  | idle | popped | got => cases h

/-- An action of the consumer's side leaves the producer alone and frees slots. -/
theorem consumer_frame {a : Action T} (ha : a = .pop ∨ (∃ max, a = .readBatch max) ∨ a = .consumer)
    (hs : s.step a = some s') :
    s'.producer = s.producer ∧ s'.pushed = s.pushed ∧ s.room ≤ s'.room := by
  rcases ha with rfl | ⟨max, rfl⟩ | rfl
  iterate 2
    · simp only [step, ite_none_right_eq_some, Option.some.injEq] at hs
      obtain ⟨-, rfl⟩ := hs
      exact ⟨rfl, rfl, le_rfl⟩
  · obtain ⟨⟨ring, q, item⟩, hadvance, rfl⟩ := map_eq_some_iff.mp hs
    refine ⟨rfl, rfl, ?_⟩
    simp only [room, cap_of_advance hadvance, length_append]
    omega

end System

/-! ### The calls -/

/-- `try_send_batch` and `send_batch`, in place or not, and their futures. `try_send_batch_mut` takes the
items out of the vector and puts back what `try_send_batch` returns. -/
inductive BatchMethod
  | trySend
  | send
  | sendMut
  | future
  | futureMut
  deriving DecidableEq

/-- Where a batch send is; `again` tells that it has registered. -/
inductive BatchPc
  | idle
  /-- looks at the flags before the loop -/
  | enter
  | head
  /-- is about to write; the future in place loads `head` -/
  | attempt (again : Bool)
  /-- in `write_batch`, with what its vector was drained of -/
  | writing (again : Bool) (k : ℕ)
  /-- looks at the flags before it parks -/
  | recheck
  /-- parked, or `Pending`, or not polled yet -/
  | parked
  | done

/-- A batch send: the items it was called with, those in its iterator or vector, and how many it has
sent. -/
structure BatchCall (T : Type*) where
  method : BatchMethod
  opened : List T
  items : List T
  sent : ℕ
  pc : BatchPc

/-- The ring, the last batch send, and what was pushed before it. -/
structure Sender (T : Type*) where
  ring : System T
  call : BatchCall T
  before : List T

inductive SenderAction (T : Type*)
  | start (method : BatchMethod) (items : List T)
  /-- a batch send goes on; `closed` is what it finds -/
  | go (closed : Bool)
  /-- a future is dropped -/
  | drop
  | ring (a : Action T)

namespace Sender

def new (capacity : UInt64) : Sender T := ⟨.new capacity, ⟨.trySend, [], [], 0, .idle⟩, []⟩

def goto (s : Sender T) (pc : BatchPc) : Sender T := { s with call := { s.call with pc := pc } }

/-- Calls `write_batch`. -/
def write (s : Sender T) (again : Bool) (lent kept : List T) (limit : ℕ) : Option (Sender T) :=
  (s.ring.step (.writeBatch lent (UInt64.ofNat limit))).map fun ring =>
    { s with ring := ring, call := { s.call with items := kept, pc := .writing again limit } }

/-- `write_batch` has returned. -/
def wrote (s : Sender T) (again : Bool) (k n : ℕ) (rest : List T) : Sender T :=
  if s.call.method = .futureMut then
    -- what is left in the drain is dropped
    { s with call := { s.call with sent := s.call.sent + k, pc := .head } }
  else
    { s with call := { s.call with
        items := rest
        sent := s.call.sent + n
        pc := if s.call.sent + n = s.call.opened.length ∨ s.call.method = .trySend then .done
          else if again then .recheck else .attempt true } }

def go (s : Sender T) (closed : Bool) : Option (Sender T) :=
  match s.call.pc with
  | .enter => some (s.goto (if s.call.items = [] || closed then .done
      else if s.call.method = .trySend then .attempt false else .head))
  | .head => some (s.goto (match s.call.method with
      | .future => if s.call.sent = s.call.opened.length || closed then .done else .attempt false
      | .futureMut => if s.call.items = [] || closed then .done else .attempt false
      | _ => if closed then .done else .attempt false))
  | .attempt again =>
    if s.call.method = .futureMut then
      let ring := s.ring.ring.refreshHead
      let t := { s with ring := { s.ring with ring := ring } }
      let k := min ring.freeSpace.toNat s.call.items.length
      if k = 0 then some (t.goto (if again then .recheck else .attempt true))
      else t.write again (s.call.items.take k) (s.call.items.drop k) k
    else s.write again s.call.items [] (s.call.opened.length - s.call.sent)
  | .writing again k =>
    match s.ring.producer with
    | .wrote n rest => some (s.wrote again k n rest)
    | _ => none
  | .recheck => some (s.goto (if closed then .head else .parked))
  | .parked => some (s.goto .head)
  | .idle | .done => none

def step (s : Sender T) : SenderAction T → Option (Sender T)
  | .start method items =>
    match s.call.pc with
    | .idle | .done =>
      if s.ring.producer.resting then
        some { s with
          before := s.ring.pushed
          call := ⟨method, items, items, 0, match method with
            | .trySend | .sendMut => .enter
            | .send => .head
            | .future | .futureMut => .parked⟩ }
      else none
    | _ => none
  | .go closed => s.go closed
  | .drop =>
    match s.call.pc, s.call.method with
    | .parked, .future | .parked, .futureMut => some (s.goto .done)
    | _, _ => none
  | .ring (.push item) =>
    match s.call.pc with
    | .idle | .done => (s.ring.step (.push item)).map fun ring => { s.goto .idle with ring := ring }
    | _ => none
  | .ring (.writeBatch _ _) => none
  | .ring a => (s.ring.step a).map fun ring => { s with ring := ring }

/-- Between two calls of `write_batch` the sent items are pushed, and the send has the others. -/
structure Between (s : Sender T) : Prop where
  resting : s.ring.producer.resting
  account : ∃ put, s.ring.pushed = s.before ++ put ∧ put ++ s.call.items = s.call.opened ∧
    put.length = s.call.sent

/-- During one, it has the items that it has not pushed. -/
structure Writing (s : Sender T) (k : ℕ) (u : List T) (n : ℕ) : Prop where
  batch : s.ring.producer.batch = some (u, n)
  account : ∃ put, s.ring.pushed = s.before ++ put ∧ put ++ u ++ s.call.items = s.call.opened ∧
    put.length = s.call.sent + n
  whole : s.call.method = .futureMut → n + u.length = k ∧ s.ring.producer.Whole s.ring.room
  lent : s.call.method ≠ .futureMut → s.call.items = []

structure Inv (s : Sender T) : Prop where
  counts : s.ring.Counts
  call : match s.call.pc with
    | .idle => True
    | .writing _ k => ∃ u n, s.Writing k u n
    | _ => s.Between

variable {s s' : Sender T}

theorem Inv.of_between (hc : s.ring.Counts) (hb : s.Between)
    (hpc : ∀ again k, s.call.pc ≠ .writing again k) : s.Inv := by
  refine ⟨hc, ?_⟩
  split
  · trivial
  · next again k heq => exact absurd heq (hpc again k)
  · exact hb

theorem Inv.between (h : s.Inv) (hidle : s.call.pc ≠ .idle)
    (hpc : ∀ again k, s.call.pc ≠ .writing again k) : s.Between := by
  have hcall := h.call
  split at hcall
  · next heq => exact absurd heq hidle
  · next again k heq => exact absurd heq (hpc again k)
  · exact hcall

theorem Between.goto (h : s.Between) (pc : BatchPc) : (s.goto pc).Between := ⟨h.resting, h.account⟩

theorem Between.write (h : s.Between) (hc : s.ring.Counts) {again : Bool} {lent kept : List T}
    {limit : ℕ} (hitems : lent ++ kept = s.call.items) (hall : s.call.method ≠ .futureMut → kept = [])
    (hroom : s.call.method = .futureMut → limit = lent.length ∧ limit < 2 ^ 64 ∧ limit ≤ s.ring.room)
    (hs : s.write again lent kept limit = some s') : s'.Inv := by
  obtain ⟨ring, hring, rfl⟩ := map_eq_some_iff.mp hs
  refine ⟨hc.step hring, lent, 0, ?_⟩
  simp only [System.step] at hring
  split_ifs at hring
  cases hring
  obtain ⟨put, hput, hopened, hsent⟩ := h.account
  refine ⟨rfl, ⟨put, hput, by rw [append_assoc, hitems, hopened], hsent⟩, fun hm => ?_, hall⟩
  obtain ⟨hlen, hlt, hle⟩ := hroom hm
  refine ⟨by rw [Nat.zero_add, hlen], ?_, hlen ▸ hle⟩
  rw [UInt64.toNat_ofNat', Nat.mod_eq_of_lt hlt, hlen]

theorem Inv.go (h : s.Inv) {closed : Bool} (hs : s.go closed = some s') : s'.Inv := by
  cases hpc : s.call.pc with
  | idle | done =>
    simp only [Sender.go, hpc] at hs
    cases hs
  | enter | head | recheck | parked =>
    have hb := h.between (by simp [hpc]) (by simp [hpc])
    simp only [Sender.go, hpc] at hs
    cases hs
    refine .of_between h.counts (hb.goto _) fun again k => ?_
    simp only [Sender.goto]
    try split
    all_goals try split_ifs
    all_goals simp
  | attempt again =>
    have hb := h.between (by simp [hpc]) (by simp [hpc])
    simp only [Sender.go, hpc] at hs
    split at hs
    · next hm =>
      have hcounts : System.Counts { s.ring with ring := s.ring.ring.refreshHead } := by
        obtain ⟨c, -, hle, hroom⟩ := h.counts.cachedHead
        refine ⟨h.counts.tail, h.counts.head, ⟨_, h.counts.head, le_rfl, ?_⟩, h.counts.cachedTail,
          h.counts.legal⟩
        simp only [Ring.refreshHead]
        omega
      split at hs
      · cases hs
        refine .of_between hcounts ⟨hb.resting, hb.account⟩ fun again' k => ?_
        simp only [Sender.goto]
        split_ifs <;> simp
      · have hfree := h.counts.freeSpace
        have hlen := h.counts.length_le
        have hlt := s.ring.ring.refreshHead.freeSpace.toNat_lt
        refine Between.write (s := { s with ring := { s.ring with ring := s.ring.ring.refreshHead } })
          ⟨hb.resting, hb.account⟩ hcounts (take_append_drop _ _) (fun hn => absurd hm hn)
          (fun _ => ⟨?_, ?_, ?_⟩) hs
        · rw [length_take]
          exact (Nat.min_eq_left (Nat.min_le_right _ _)).symm
        · omega
        · simp only [System.room, Ring.refreshHead] at hfree ⊢
          omega
    · next hm =>
      exact hb.write h.counts (append_nil _) (fun _ => rfl) (fun hm' => absurd hm' hm) hs
  | writing again k =>
    have hcall := h.call
    simp only [hpc] at hcall
    obtain ⟨u, n, hbatch, ⟨put, hput, hopened, hsent⟩, hwhole, hlent⟩ := hcall
    simp only [Sender.go, hpc] at hs
    split at hs
    · next m rest hp =>
      cases hs
      rw [hp] at hbatch hwhole
      cases hbatch
      have hrest : s.ring.producer.resting := by rw [hp]; rfl
      unfold Sender.wrote
      split
      · next hm =>
        obtain ⟨hk, hnil⟩ := hwhole hm
        obtain rfl : u = [] := hnil
        exact .of_between h.counts ⟨hrest, put, hput, by rwa [append_nil] at hopened,
          by rw [hsent, ← hk]; rfl⟩ (by simp)
      · next hm =>
        rw [hlent hm, append_nil] at hopened
        refine .of_between h.counts ⟨hrest, put, hput, hopened, hsent⟩ fun again' k' => ?_
        simp only
        split_ifs <;> simp
    · cases hs

theorem Inv.ring (h : s.Inv) {a : Action T} (hs : s.step (.ring a) = some s') : s'.Inv := by
  have hconsumer : ∀ ring, a = .pop ∨ (∃ max, a = .readBatch max) ∨ a = .consumer →
      s.ring.step a = some ring → Inv { s with ring := ring } := by
    intro ring ha hring
    obtain ⟨hp, hpushed, hroom⟩ := System.consumer_frame ha hring
    refine ⟨h.counts.step hring, ?_⟩
    have hcall := h.call
    simp only
    split at hcall
    · trivial
    · obtain ⟨u, n, hbatch, ⟨put, hput, hopened, hsent⟩, hwhole, hlent⟩ := hcall
      exact ⟨u, n, by rw [hp, hbatch], ⟨put, by rw [hpushed, hput], hopened, hsent⟩,
        fun hm => ⟨(hwhole hm).1, by rw [hp]; exact (hwhole hm).2.mono hroom⟩, hlent⟩
    · obtain ⟨hrest, put, hput, hopened, hsent⟩ := hcall
      exact ⟨by rw [hp]; exact hrest, put, by rw [hpushed, hput], hopened, hsent⟩
  cases a with
  | push item =>
    simp only [Sender.step] at hs
    split at hs <;> try cases hs
    all_goals
      obtain ⟨ring, hring, rfl⟩ := map_eq_some_iff.mp hs
      exact ⟨h.counts.step hring, trivial⟩
  | writeBatch items limit => cases hs
  | pop | readBatch max | consumer =>
    obtain ⟨ring, hring, rfl⟩ := map_eq_some_iff.mp hs
    exact hconsumer ring (by simp) hring
  | producer =>
    obtain ⟨ring, hring, rfl⟩ := map_eq_some_iff.mp hs
    refine ⟨h.counts.step hring, ?_⟩
    have hcall := h.call
    simp only
    split at hcall
    · trivial
    · obtain ⟨u, n, hbatch, ⟨put, hput, hopened, hsent⟩, hwhole, hlent⟩ := hcall
      obtain ⟨hstays, ⟨hpushed, hbatch'⟩ | ⟨x, v, rfl, hpushed, hbatch'⟩⟩ :=
        System.batch_step h.counts hbatch hring
      · exact ⟨u, n, hbatch', ⟨put, by rw [hpushed, hput], hopened, hsent⟩,
          fun hm => ⟨(hwhole hm).1, hstays (hwhole hm).2⟩, hlent⟩
      · refine ⟨v, n + 1, hbatch', ⟨put ++ [x], ?_, ?_, ?_⟩, fun hm => ⟨?_, hstays (hwhole hm).2⟩, hlent⟩
        · rw [hpushed, hput, append_assoc]
        · rw [← hopened]
          simp
        · rw [length_append, hsent]
          rfl
        · rw [← (hwhole hm).1, length_cons]
          omega
    · obtain ⟨⟨ring', q, item⟩, hadvance, -⟩ := map_eq_some_iff.mp hring
      have hrest := hcall.resting
      cases hp : s.ring.producer with
      | idle | pushed | full item | wrote n rest => rw [hp] at hadvance; cases hadvance
      | _ => rw [hp] at hrest; cases hrest

theorem Inv.step (h : s.Inv) {a : SenderAction T} (hs : s.step a = some s') : s'.Inv := by
  cases a with
  | start method items =>
    simp only [Sender.step] at hs
    split at hs <;> try cases hs
    all_goals
      split_ifs at hs with hrest
      cases hs
      refine .of_between h.counts ⟨hrest, [], (append_nil _).symm, rfl, rfl⟩ ?_
      cases method <;> simp
  | go closed => exact h.go hs
  | drop =>
    simp only [Sender.step] at hs
    split at hs <;> cases hs
    all_goals
      next hpc _ =>
      exact .of_between h.counts ((h.between (by simp [hpc]) (by simp [hpc])).goto _) (by simp [goto])
  | ring a => exact h.ring hs

/-- When a batch send has ended, or waits, what it has sent is pushed, in order, and it has the rest. -/
theorem returns_rest {capacity : UInt64} (hs : Reachable step (new capacity) s)
    (hpc : s.call.pc = .done ∨ s.call.pc = .parked) :
    s.ring.pushed = s.before ++ s.call.opened.take s.call.sent ∧
      s.call.items = s.call.opened.drop s.call.sent := by
  have hinv : s.Inv := hs.invariant (I := Inv)
    ⟨⟨rfl, rfl, ⟨0, rfl, le_rfl, Nat.zero_le _⟩, ⟨0, rfl, le_rfl, le_rfl⟩, trivial⟩, trivial⟩
    fun _ _ _ h _ hstep => h.step hstep
  obtain ⟨-, put, hput, hopened, hsent⟩ := hinv.between (by rcases hpc with h | h <;> simp [h])
    (by rcases hpc with h | h <;> simp [h])
  rw [← hopened, ← hsent, take_left', drop_left']
  · exact ⟨hput, rfl⟩
  · rfl
  · rfl

end Sender

end Fibre.Channels.Spsc

namespace Fibre.Channels

end Fibre.Channels
