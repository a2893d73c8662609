import Fibre.Channels.Spsc.Ring

/-!
# First in, first out, and the exactness of full and empty

Each side's copy of the other's index is behind the index and never ahead of it, so a copy that
shows room or items is right; and a verdict of full or of empty is given only on a copy that was
refreshed in the same access.

The storage must have as many slots as the capacity asks for. Above `2 ^ 63` the next power of two
wraps to 0, the ring gets two slots, and the third item overwrites the first.
-/

namespace Fibre.Channels.Spsc

open Word Function Machine List Option

variable {T : Type*}

/-- The slots the producer has seen to be free and is to write. -/
def Producer.reserved : Producer T → ℕ
  | .write _ batch | .publish _ batch => 1 + (batch.elim 0 WriteBatch.left)
  | _ => 0

/-- A batch never has to refresh in the middle, and does not fail. -/
def Producer.Legal : Producer T → Prop
  | .refresh _ (some _) | .unreachable => False
  | _ => True

/-- The items the consumer has seen and is to take. -/
def Consumer.claimed : Consumer T → ℕ
  | .read _ | .release _ _ => 1
  | _ => 0

/-- The items it has moved out of their slots, with `head` not stored yet. -/
def Consumer.taken : Consumer T → ℕ
  | .release _ _ => 1
  | _ => 0

namespace System

/-- What is buffered are the items between the two indices. -/
structure Sound (s : System T) : Prop where
  /-- what was popped is what was pushed first, in order -/
  fifo : s.popped <+: s.pushed
  bounded : s.pushed.length ≤ s.popped.length + s.ring.cap.toNat
  /-- where `push` gives up, the ring is full -/
  full : ∀ s' item batch, s.producer = .refresh item batch → s.step .producer = some s' →
    s'.producer.resting = true → s.pushed.length = s.popped.length + s.ring.cap.toNat
  /-- where `pop` gives up, the ring is empty -/
  empty : ∀ s' batch, s.consumer = .refresh batch → s.step .consumer = some s' →
    s'.consumer.resting = true → s.popped = s.pushed
  /-- `producer_free_space` does not underflow -/
  freeSpace : ∀ items limit, s.producer = .freeSpace items limit →
    s.ring.tail - s.ring.head ≤ s.ring.cap
  reachable : s.producer ≠ .unreachable
  /-- the slot that is read has been written -/
  initialized : ∀ batch, s.consumer = .read batch → s.ring.take.isSome = true

/-- What the indices say of the counts, whatever the capacity is. -/
structure Counts (s : System T) : Prop where
  tail : s.ring.tail = UInt64.ofNat s.pushed.length
  head : s.ring.head = UInt64.ofNat s.popped.length
  cachedHead : ∃ h, s.ring.cachedHead = UInt64.ofNat h ∧ h ≤ s.popped.length ∧
    s.pushed.length + s.producer.reserved ≤ h + s.ring.cap.toNat
  cachedTail : ∃ t, s.ring.cachedTail = UInt64.ofNat t ∧ t ≤ s.pushed.length ∧
    s.popped.length + s.consumer.claimed ≤ t
  legal : s.producer.Legal

/-- The storage has `2 ^ k` slots. The copies are former values of the indices, recent enough for
what the sides have seen on them. -/
structure Inv (s : System T) (k : ℕ) : Prop where
  exp_lt : k < 64
  mask : s.ring.mask.toNat = 2 ^ k - 1
  cap_le : s.ring.cap.toNat ≤ 2 ^ k
  tail : s.ring.tail = UInt64.ofNat s.pushed.length
  head : s.ring.head = UInt64.ofNat s.popped.length
  popped : s.popped = s.pushed.take s.popped.length
  cachedHead : ∃ h, s.ring.cachedHead = UInt64.ofNat h ∧ h ≤ s.popped.length ∧
    s.pushed.length + s.producer.reserved ≤ h + s.ring.cap.toNat
  cachedTail : ∃ t, s.ring.cachedTail = UInt64.ofNat t ∧ t ≤ s.pushed.length ∧
    s.popped.length + s.consumer.claimed ≤ t
  legal : s.producer.Legal
  slots : ∀ j, s.popped.length + s.consumer.taken ≤ j → ∀ h : j < s.pushed.length,
    s.ring.buf (UInt64.ofNat j &&& s.ring.mask) = some s.pushed[j]
  written : ∀ item batch, s.producer = .publish item batch →
    s.ring.buf (UInt64.ofNat s.pushed.length &&& s.ring.mask) = some item
  taken : ∀ item batch, s.consumer = .release item batch →
    s.pushed[s.popped.length]? = some item

theorem toNat_ofNat_sub {a b : ℕ} (hle : a ≤ b) (hlt : b - a < 2 ^ 64) :
    (UInt64.ofNat b - UInt64.ofNat a).toNat = b - a := by
  have hsplit : UInt64.ofNat b = UInt64.ofNat a + UInt64.ofNat (b - a) := by
    rw [← UInt64.ofNat_add, Nat.add_sub_cancel' hle]
  rw [hsplit, add_sub_cancel_left, UInt64.toNat_ofNat', Nat.mod_eq_of_lt hlt]

theorem ofNat_inj {a b : ℕ} (hle : a ≤ b) (hlt : b - a < 2 ^ 64) :
    UInt64.ofNat a = UInt64.ofNat b ↔ a = b := by
  constructor
  · intro heq
    have hsub := toNat_ofNat_sub hle hlt
    rw [heq, sub_self] at hsub
    have hzero : b - a = 0 := hsub.symm
    omega
  · exact congrArg UInt64.ofNat

end System

namespace Ring

variable {r : Ring T} {p h c t : ℕ}

theorem looksFull_iff (htail : r.tail = UInt64.ofNat p) (hhead : r.cachedHead = UInt64.ofNat h)
    (hle : h ≤ p) (hroom : p ≤ h + r.cap.toNat) :
    r.looksFull = true ↔ p = h + r.cap.toNat := by
  have hcap := r.cap.toNat_lt
  have hsub : (r.tail - r.cachedHead).toNat = p - h := by
    rw [htail, hhead]
    exact System.toNat_ofNat_sub hle (by omega)
  rw [looksFull, decide_eq_true_iff, UInt64.le_iff_toNat_le, hsub]
  omega

theorem looksEmpty_iff (hhead : r.head = UInt64.ofNat c) (htail : r.cachedTail = UInt64.ofNat t)
    (hle : c ≤ t) (hroom : t ≤ c + r.cap.toNat) : r.looksEmpty = true ↔ c = t := by
  have hcap := r.cap.toNat_lt
  rw [looksEmpty, decide_eq_true_iff, hhead, htail]
  exact System.ofNat_inj hle (by omega)

theorem beginPush_eq (htail : r.tail = UInt64.ofNat p) (hhead : r.cachedHead = UInt64.ofNat h)
    (hle : h ≤ p) (hroom : p + 1 ≤ h + r.cap.toNat) (item : T) (batch : Option (WriteBatch T)) :
    r.beginPush item batch = .write item batch := by
  rw [beginPush, if_neg]
  rw [looksFull_iff htail hhead hle (by omega)]
  omega

theorem nextWrite_reserved (htail : r.tail = UInt64.ofNat p)
    (hhead : r.cachedHead = UInt64.ofNat h) (hle : h ≤ p) (b : WriteBatch T)
    (hroom : p + b.left ≤ h + r.cap.toNat) :
    (r.nextWrite b).reserved ≤ b.left ∧ (r.nextWrite b).Legal := by
  unfold nextWrite
  split_ifs with hleft
  · exact ⟨Nat.zero_le _, trivial⟩
  · split
    · exact ⟨Nat.zero_le _, trivial⟩
    · rw [beginPush_eq htail hhead hle (by omega)]
      refine ⟨?_, trivial⟩
      simp only [Producer.reserved, elim_some]
      omega

theorem beginPush_ne (item item' : T) (batch batch' : Option (WriteBatch T)) :
    r.beginPush item batch ≠ .publish item' batch' := by
  unfold beginPush
  split_ifs <;> simp

theorem nextWrite_ne (b : WriteBatch T) (item : T) (batch : Option (WriteBatch T)) :
    r.nextWrite b ≠ .publish item batch := by
  unfold nextWrite
  split_ifs
  · simp
  · split
    · simp
    · exact beginPush_ne _ _ _ _

theorem beginPop_ne (item : T) (batch batch' : Option (ReadBatch T)) :
    r.beginPop batch ≠ .release item batch' := by
  unfold beginPop
  split_ifs <;> simp

theorem nextRead_ne (b : ReadBatch T) (item : T) (batch : Option (ReadBatch T)) :
    r.nextRead b ≠ .release item batch := by
  unfold nextRead
  split_ifs
  · simp
  · exact beginPop_ne _ _ _

theorem claimed_beginPop (batch : Option (ReadBatch T)) (hhead : r.head = UInt64.ofNat c)
    (htail : r.cachedTail = UInt64.ofNat t) (hle : c ≤ t)
    (hlt : t ≤ c + r.cap.toNat) : c + (r.beginPop batch).claimed ≤ t := by
  have hempty := looksEmpty_iff hhead htail hle hlt
  unfold beginPop
  split_ifs with he
  · exact hle
  · rw [hempty] at he
    simp only [Consumer.claimed]
    omega

theorem claimed_nextRead (b : ReadBatch T) (hhead : r.head = UInt64.ofNat c)
    (htail : r.cachedTail = UInt64.ofNat t) (hle : c ≤ t)
    (hlt : t ≤ c + r.cap.toNat) : c + (r.nextRead b).claimed ≤ t := by
  unfold nextRead
  split_ifs
  · exact hle
  · exact claimed_beginPop _ hhead htail hle hlt

end Ring

namespace System

namespace Counts

variable {s s' : System T}

theorem length_le (hc : s.Counts) : s.popped.length ≤ s.pushed.length := by
  obtain ⟨t, -, ht, hclaimed⟩ := hc.cachedTail
  omega

theorem bounded (hc : s.Counts) : s.pushed.length ≤ s.popped.length + s.ring.cap.toNat := by
  obtain ⟨h, -, hle, hroom⟩ := hc.cachedHead
  omega

/-- What `producer_free_space` finds. -/
theorem freeSpace (hc : s.Counts) :
    s.ring.refreshHead.freeSpace.toNat = s.ring.cap.toNat - (s.pushed.length - s.popped.length) := by
  have hcap := s.ring.cap.toNat_lt
  have hbounded := hc.bounded
  have hused : (s.ring.tail - s.ring.head).toNat = s.pushed.length - s.popped.length := by
    rw [hc.tail, hc.head]
    exact toNat_ofNat_sub hc.length_le (by omega)
  simp only [Ring.freeSpace, Ring.refreshHead]
  rw [UInt64.toNat_sub_of_le, hused]
  rw [UInt64.le_iff_toNat_le, hused]
  omega

theorem setProducer (hc : s.Counts) {r : Ring T} {q : Producer T} {item : Option T} {h : ℕ}
    (htail : r.tail = UInt64.ofNat (s.pushed.length + item.toList.length))
    (hsame : r.head = s.ring.head ∧ r.cachedTail = s.ring.cachedTail ∧ r.cap = s.ring.cap)
    (hhead : r.cachedHead = UInt64.ofNat h) (hle : h ≤ s.popped.length)
    (hroom : s.pushed.length + item.toList.length + q.reserved ≤ h + s.ring.cap.toNat)
    (hlegal : q.Legal) :
    Counts { s with ring := r, producer := q, pushed := s.pushed ++ item.toList } where
  tail := by rw [htail, length_append]
  head := hsame.1.trans hc.head
  cachedHead := ⟨h, hhead, hle, by rw [hsame.2.2, length_append]; exact hroom⟩
  cachedTail := by
    obtain ⟨t, ht, hlt, hclaimed⟩ := hc.cachedTail
    exact ⟨t, hsame.2.1.trans ht, by rw [length_append]; omega, hclaimed⟩
  legal := hlegal

theorem setConsumer (hc : s.Counts) {r : Ring T} {q : Consumer T} {item : Option T} {t : ℕ}
    (hhead : r.head = UInt64.ofNat (s.popped.length + item.toList.length))
    (hsame : r.tail = s.ring.tail ∧ r.cachedHead = s.ring.cachedHead ∧ r.cap = s.ring.cap)
    (htail : r.cachedTail = UInt64.ofNat t) (hle : t ≤ s.pushed.length)
    (hclaimed : s.popped.length + item.toList.length + q.claimed ≤ t) :
    Counts { s with ring := r, consumer := q, popped := s.popped ++ item.toList } where
  tail := hsame.1.trans hc.tail
  head := by rw [hhead, length_append]
  cachedHead := by
    obtain ⟨h, hh, hle, hroom⟩ := hc.cachedHead
    exact ⟨h, hsame.2.1.trans hh, by rw [length_append]; omega, by rw [hsame.2.2]; exact hroom⟩
  cachedTail := ⟨t, htail, hle, by rw [length_append]; exact hclaimed⟩
  legal := hc.legal

theorem beginPush (hc : s.Counts) (item : T) :
    Counts { s with producer := s.ring.beginPush item none } := by
  obtain ⟨h, hh, hle, hroom⟩ := hc.cachedHead
  have hfull := Ring.looksFull_iff hc.tail hh (hle.trans hc.length_le) (by omega)
  unfold Ring.beginPush
  split_ifs with hf
  · exact ⟨hc.tail, hc.head, ⟨h, hh, hle, by simp only [Producer.reserved]; omega⟩, hc.cachedTail,
      trivial⟩
  · rw [hfull] at hf
    exact ⟨hc.tail, hc.head, ⟨h, hh, hle, by simp only [Producer.reserved, elim_none]; omega⟩,
      hc.cachedTail, trivial⟩

theorem producer (hc : s.Counts) (hs : s.step .producer = some s') : s'.Counts := by
  obtain ⟨⟨ring, q, item⟩, hadvance, rfl⟩ := map_eq_some_iff.mp hs
  have hlen := hc.length_le
  have hlegal := hc.legal
  obtain ⟨h, hh, hle, hroom⟩ := hc.cachedHead
  cases hp : s.producer with
  | refresh item batch =>
    rw [hp] at hadvance hlegal
    cases batch with
    | some b => exact hlegal.elim
    | none =>
      have hfresh := Ring.looksFull_iff (r := s.ring.refreshHead) hc.tail hc.head hlen hc.bounded
      have hbounded := hc.bounded
      simp only [Ring.advanceProducer] at hadvance
      split_ifs at hadvance with hfull
      all_goals
        cases hadvance
        refine hc.setProducer hc.tail ⟨rfl, rfl, rfl⟩ hc.head le_rfl ?_ trivial
      · exact hbounded
      · rw [hfresh] at hfull
        simp only [Ring.refreshHead] at hfull
        simp only [Producer.reserved, elim_none, toList_none, length_nil]
        omega
  | write item batch =>
    rw [hp] at hadvance hroom
    cases hadvance
    exact hc.setProducer hc.tail ⟨rfl, rfl, rfl⟩ hh hle hroom trivial
  | publish item batch =>
    rw [hp] at hadvance hroom
    simp only [Producer.reserved] at hroom
    have htail : s.ring.publish.tail = UInt64.ofNat (s.pushed.length + 1) := by
      rw [Ring.publish, hc.tail, UInt64.ofNat_add]
      rfl
    cases batch with
    | none =>
      cases hadvance
      exact hc.setProducer htail ⟨rfl, rfl, rfl⟩ hh hle (by simpa [Producer.reserved] using hroom)
        trivial
    | some b =>
      cases hadvance
      simp only [elim_some] at hroom
      obtain ⟨hres, hl⟩ := Ring.nextWrite_reserved htail hh (by omega)
        { b with sent := b.sent + 1 } (by simp only [Ring.publish]; omega)
      simp only at hres
      refine hc.setProducer htail ⟨rfl, rfl, rfl⟩ hh hle ?_ hl
      simp only [toList_some, length_singleton]
      omega
  | freeSpace items limit =>
    rw [hp] at hadvance
    cases hadvance
    have hbounded := hc.bounded
    have hleft : (min limit s.ring.refreshHead.freeSpace).toNat ≤
        s.ring.cap.toNat - (s.pushed.length - s.popped.length) := by
      rw [toNat_min, hc.freeSpace]
      exact Nat.min_le_right _ _
    obtain ⟨hres, hl⟩ := Ring.nextWrite_reserved (r := s.ring.refreshHead) hc.tail hc.head
      hlen ⟨items, (min limit s.ring.refreshHead.freeSpace).toNat, 0⟩
      (by simp only [Ring.refreshHead] at hleft ⊢; omega)
    simp only at hres
    refine hc.setProducer hc.tail ⟨rfl, rfl, rfl⟩ hc.head le_rfl ?_ hl
    simp only [toList_none, length_nil]
    omega
  | idle | unreachable | pushed | full | wrote =>
    rw [hp] at hadvance
    cases hadvance

theorem consumer (hc : s.Counts) (hs : s.step .consumer = some s') : s'.Counts := by
  obtain ⟨⟨ring, q, item⟩, hadvance, rfl⟩ := map_eq_some_iff.mp hs
  have hlen := hc.length_le
  have hbounded := hc.bounded
  obtain ⟨t, ht, hle, hclaimed⟩ := hc.cachedTail
  cases hq : s.consumer with
  | refresh batch =>
    rw [hq] at hadvance
    have hfresh := Ring.looksEmpty_iff (r := s.ring.refreshTail) hc.head hc.tail hlen hbounded
    simp only [Ring.advanceConsumer] at hadvance
    split_ifs at hadvance with hempty
    · cases batch with
      | none | some =>
        cases hadvance
        exact hc.setConsumer hc.head ⟨rfl, rfl, rfl⟩ hc.tail le_rfl hlen
    · cases hadvance
      rw [hfresh] at hempty
      refine hc.setConsumer hc.head ⟨rfl, rfl, rfl⟩ hc.tail le_rfl ?_
      simp only [Consumer.claimed, toList_none, length_nil]
      omega
  | read batch =>
    rw [hq] at hadvance hclaimed
    obtain ⟨⟨item', ring'⟩, htake, hadvance⟩ := map_eq_some_iff.mp hadvance
    obtain ⟨item'', -, htake⟩ := map_eq_some_iff.mp htake
    cases htake
    cases hadvance
    exact hc.setConsumer hc.head ⟨rfl, rfl, rfl⟩ ht hle hclaimed
  | release item batch =>
    rw [hq] at hadvance hclaimed
    simp only [Consumer.claimed] at hclaimed
    have hhead : s.ring.release.head = UInt64.ofNat (s.popped.length + 1) := by
      rw [Ring.release, hc.head, UInt64.ofNat_add]
      rfl
    cases batch with
    | none =>
      cases hadvance
      exact hc.setConsumer hhead ⟨rfl, rfl, rfl⟩ ht hle hclaimed
    | some b =>
      cases hadvance
      exact hc.setConsumer hhead ⟨rfl, rfl, rfl⟩ ht hle
        (Ring.claimed_nextRead _ hhead ht hclaimed (by simp only [Ring.release]; omega))
  | idle | popped | got =>
    rw [hq] at hadvance
    cases hadvance

theorem step {a : Action T} (hc : s.Counts) (hs : s.step a = some s') : s'.Counts := by
  have hbounded := hc.bounded
  obtain ⟨h, hh, hle, hroom⟩ := hc.cachedHead
  obtain ⟨t, ht, hlt, hclaimed⟩ := hc.cachedTail
  cases a with
  | push item =>
    simp only [System.step] at hs
    split_ifs at hs
    cases hs
    exact hc.beginPush item
  | writeBatch items limit =>
    simp only [System.step] at hs
    split_ifs at hs
    cases hs
    exact ⟨hc.tail, hc.head, ⟨h, hh, hle, by simp only [Producer.reserved]; omega⟩, hc.cachedTail,
      trivial⟩
  | pop =>
    simp only [System.step] at hs
    split_ifs at hs
    cases hs
    exact ⟨hc.tail, hc.head, hc.cachedHead,
      ⟨t, ht, hlt, Ring.claimed_beginPop none (c := s.popped.length) hc.head ht (by omega) (by omega)⟩,
      hc.legal⟩
  | readBatch max =>
    simp only [System.step] at hs
    split_ifs at hs
    cases hs
    exact ⟨hc.tail, hc.head, hc.cachedHead,
      ⟨t, ht, hlt, Ring.claimed_nextRead _ (c := s.popped.length) hc.head ht (by omega) (by omega)⟩,
      hc.legal⟩
  | producer => exact hc.producer hs
  | consumer => exact hc.consumer hs

end Counts

end System

namespace System.Inv

variable {s s' : System T} {k : ℕ}

theorem toCounts (hinv : s.Inv k) : s.Counts :=
  ⟨hinv.tail, hinv.head, hinv.cachedHead, hinv.cachedTail, hinv.legal⟩

theorem slot_ne (hinv : s.Inv k) {i j : ℕ} (hij : i < j) (hlt : j < i + 2 ^ k) :
    UInt64.ofNat i &&& s.ring.mask ≠ UInt64.ofNat j &&& s.ring.mask := by
  have hne := add_and_ne hinv.mask hinv.exp_lt 0 hij hlt
  simpa only [zero_add] using hne

theorem ofCounts (hinv : s.Inv k) (hc : s'.Counts)
    (hring : s'.ring.mask = s.ring.mask ∧ s'.ring.cap = s.ring.cap)
    (hpopped : s'.popped = s'.pushed.take s'.popped.length)
    (hslots : ∀ j, s'.popped.length + s'.consumer.taken ≤ j → ∀ h : j < s'.pushed.length,
      s'.ring.buf (UInt64.ofNat j &&& s'.ring.mask) = some s'.pushed[j])
    (hwritten : ∀ item batch, s'.producer = .publish item batch →
      s'.ring.buf (UInt64.ofNat s'.pushed.length &&& s'.ring.mask) = some item)
    (htaken : ∀ item batch, s'.consumer = .release item batch →
      s'.pushed[s'.popped.length]? = some item) : s'.Inv k :=
  ⟨hinv.exp_lt, hring.1 ▸ hinv.mask, hring.2 ▸ hinv.cap_le, hc.tail, hc.head, hpopped, hc.cachedHead,
    hc.cachedTail, hc.legal, hslots, hwritten, htaken⟩

/-- The indices may change, and the storage does not. -/
theorem still (hinv : s.Inv k) (hc : s'.Counts) (hring : s'.ring.mask = s.ring.mask ∧
      s'.ring.cap = s.ring.cap ∧ s'.ring.buf = s.ring.buf)
    (hpushed : s'.pushed = s.pushed) (hpopped : s'.popped = s.popped)
    (htaken : s.consumer.taken ≤ s'.consumer.taken)
    (hp : ∀ item batch, s'.producer = .publish item batch → s.producer = .publish item batch)
    (hq : ∀ item batch, s'.consumer = .release item batch → s.consumer = .release item batch) :
    s'.Inv k := by
  refine hinv.ofCounts hc ⟨hring.1, hring.2.1⟩ (by rw [hpopped, hpushed]; exact hinv.popped) ?_ ?_ ?_
  · intro j hj hlt
    rw [hring.1, hring.2.2]
    simp only [hpushed] at hlt ⊢
    exact hinv.slots j (by rw [hpopped] at hj; omega) hlt
  · intro item batch he
    rw [hring.1, hring.2.2, hpushed]
    exact hinv.written item batch (hp item batch he)
  · intro item batch he
    rw [hpushed, hpopped]
    exact hinv.taken item batch (hq item batch he)

theorem producer (hinv : s.Inv k) (hstep : s.step .producer = some s') : s'.Inv k := by
  have hc := hinv.toCounts.step hstep
  have hlen := hinv.toCounts.length_le
  obtain ⟨⟨ring, q, item⟩, hadvance, rfl⟩ := map_eq_some_iff.mp hstep
  cases hp : s.producer with
  | refresh item batch =>
    rw [hp] at hadvance
    simp only [Ring.advanceProducer] at hadvance
    split_ifs at hadvance
    · cases batch with
      | none | some b =>
        cases hadvance
        exact hinv.still hc ⟨rfl, rfl, rfl⟩ (append_nil _) rfl le_rfl (by simp) fun _ _ h => h
    · cases hadvance
      exact hinv.still hc ⟨rfl, rfl, rfl⟩ (append_nil _) rfl le_rfl (by simp) fun _ _ h => h
  | write item batch =>
    obtain ⟨h, -, hle, hroom⟩ := hinv.cachedHead
    rw [hp] at hadvance hroom
    cases hadvance
    simp only [toList_none, append_nil] at hc ⊢
    simp only [Producer.reserved] at hroom
    have hcap := hinv.cap_le
    refine hinv.ofCounts hc ⟨rfl, rfl⟩ hinv.popped ?_ ?_ hinv.taken
    · intro j hj hlt
      dsimp only at hj hlt
      have hne := hinv.slot_ne hlt (by omega)
      simp only [Ring.write, hinv.tail]
      rw [update_of_ne hne]
      exact hinv.slots j hj hlt
    · intro item' batch' he
      obtain ⟨rfl, -⟩ := Producer.publish.inj he
      simp only [Ring.write, hinv.tail, update_self]
  | publish item batch =>
    have hwritten := hinv.written item batch hp
    rw [hp] at hadvance
    -- the item counts as pushed from here on
    have hpublished : ∀ q : Producer T,
        Counts { s with ring := s.ring.publish, producer := q, pushed := s.pushed ++ [item] } →
        (∀ item batch, q ≠ .publish item batch) →
        Inv { s with ring := s.ring.publish, producer := q, pushed := s.pushed ++ [item] } k := by
      intro q hc hqp
      refine hinv.ofCounts hc ⟨rfl, rfl⟩ ?_ ?_ (fun item batch he => absurd he (hqp item batch)) ?_
      · rw [take_append_of_le_length hlen]
        exact hinv.popped
      · intro j hj hlt
        simp only [Ring.publish]
        rw [length_append, length_singleton] at hlt
        rcases Nat.lt_succ_iff_lt_or_eq.mp hlt with hlt | rfl
        · rw [getElem_append_left hlt]
          exact hinv.slots j hj hlt
        · rw [getElem_append_right le_rfl]
          simpa using hwritten
      · intro item' batch' he
        have htaken := hinv.taken item' batch' he
        have hlt := (List.getElem?_eq_some_iff.mp htaken).1
        rw [List.getElem?_append_left hlt]
        exact htaken
    cases batch with
    | none =>
      cases hadvance
      exact hpublished .pushed hc (by simp)
    | some b =>
      cases hadvance
      exact hpublished _ hc (Ring.nextWrite_ne _)
  | freeSpace items limit =>
    rw [hp] at hadvance
    cases hadvance
    exact hinv.still hc ⟨rfl, rfl, rfl⟩ (append_nil _) rfl le_rfl
      (fun _ _ he => absurd he (Ring.nextWrite_ne _ _ _)) fun _ _ h => h
  | idle | unreachable | pushed | full | wrote =>
    rw [hp] at hadvance
    cases hadvance

theorem consumer (hinv : s.Inv k) (hstep : s.step .consumer = some s') : s'.Inv k := by
  have hc := hinv.toCounts.step hstep
  obtain ⟨⟨ring, q, item⟩, hadvance, rfl⟩ := map_eq_some_iff.mp hstep
  have hbounded := hinv.toCounts.bounded
  obtain ⟨t, -, hle, hclaimed⟩ := hinv.cachedTail
  cases hq : s.consumer with
  | refresh batch =>
    have htaken : ∀ q : Consumer T, s.consumer.taken ≤ q.taken := fun q => by
      rw [hq]
      exact Nat.zero_le _
    rw [hq] at hadvance
    simp only [Ring.advanceConsumer] at hadvance
    split_ifs at hadvance
    · cases batch with
      | none | some b =>
        cases hadvance
        exact hinv.still hc ⟨rfl, rfl, rfl⟩ rfl (append_nil _) (htaken _) (fun _ _ h => h) (by simp)
    · cases hadvance
      exact hinv.still hc ⟨rfl, rfl, rfl⟩ rfl (append_nil _) (htaken _) (fun _ _ h => h) (by simp)
  | read batch =>
    rw [hq] at hadvance hclaimed
    simp only [Consumer.claimed] at hclaimed
    obtain ⟨⟨item', ring'⟩, htake, hadvance⟩ := map_eq_some_iff.mp hadvance
    obtain ⟨item'', hslot, htake⟩ := map_eq_some_iff.mp htake
    cases htake
    cases hadvance
    simp only [toList_none, append_nil] at hc ⊢
    have hlt : s.popped.length < s.pushed.length := by omega
    have hcap := hinv.cap_le
    have hnext := hinv.slots s.popped.length (by simp [hq, Consumer.taken]) hlt
    rw [hinv.head] at hslot
    rw [hslot] at hnext
    refine hinv.ofCounts hc ⟨rfl, rfl⟩ hinv.popped ?_ ?_ ?_
    · intro j hj hjlt
      dsimp only [Consumer.taken] at hj hjlt
      have hne := hinv.slot_ne (i := s.popped.length) (j := j) (by omega) (by omega)
      simp only [hinv.head]
      rw [update_of_ne hne.symm]
      exact hinv.slots j (by simp only [hq, Consumer.taken]; omega) hjlt
    · intro item batch he
      -- the producer's slot is not the one that was read
      obtain ⟨h, -, hhle, hroom⟩ := hinv.cachedHead
      rw [he] at hroom
      simp only [Producer.reserved] at hroom
      have hne := hinv.slot_ne hlt (by omega)
      simp only [hinv.head]
      rw [update_of_ne hne.symm]
      exact hinv.written item batch he
    · intro item batch he
      obtain ⟨rfl, -⟩ := Consumer.release.inj he
      rw [List.getElem?_eq_getElem hlt]
      exact hnext.symm
  | release item batch =>
    obtain ⟨hlt, hitem⟩ := List.getElem?_eq_some_iff.mp (hinv.taken item batch hq)
    rw [hq] at hadvance
    have hlength : (s.popped ++ [item]).length = s.popped.length + 1 := by simp
    -- the item counts as popped from here on
    have hreleased : ∀ q : Consumer T,
        Counts { s with ring := s.ring.release, consumer := q, popped := s.popped ++ [item] } →
        (∀ item batch, q ≠ .release item batch) →
        Inv { s with ring := s.ring.release, consumer := q, popped := s.popped ++ [item] } k := by
      intro q hc hqr
      refine hinv.ofCounts hc ⟨rfl, rfl⟩ ?_ (fun j hj => hinv.slots j ?_) hinv.written
        fun item batch he => absurd he (hqr item batch)
      · rw [hlength, take_succ_eq_append_getElem hlt, ← hinv.popped, hitem]
      · rw [hq]
        dsimp only at hj
        simp only [Consumer.taken]
        omega
    cases batch with
    | none =>
      cases hadvance
      exact hreleased _ hc (by simp)
    | some b =>
      cases hadvance
      exact hreleased _ hc (Ring.nextRead_ne _)
  | idle | popped | got =>
    rw [hq] at hadvance
    cases hadvance

theorem step {a : Action T} (hinv : s.Inv k) (hstep : s.step a = some s') : s'.Inv k := by
  have hc := hinv.toCounts.step hstep
  have htaken : s.consumer.resting = true → s.consumer.taken = 0 := by
    cases s.consumer <;> simp [Consumer.taken, Consumer.resting]
  cases a with
  | push item =>
    simp only [System.step] at hstep
    split_ifs at hstep
    cases hstep
    exact hinv.still hc ⟨rfl, rfl, rfl⟩ rfl rfl le_rfl
      (fun _ _ he => absurd he (Ring.beginPush_ne _ _ _ _)) fun _ _ h => h
  | writeBatch items limit =>
    simp only [System.step] at hstep
    split_ifs at hstep
    cases hstep
    exact hinv.still hc ⟨rfl, rfl, rfl⟩ rfl rfl le_rfl (by simp) fun _ _ h => h
  | pop =>
    simp only [System.step] at hstep
    split_ifs at hstep with hrest
    cases hstep
    exact hinv.still hc ⟨rfl, rfl, rfl⟩ rfl rfl (by rw [htaken hrest]; exact Nat.zero_le _)
      (fun _ _ h => h) fun _ _ he => absurd he (Ring.beginPop_ne _ _ _)
  | readBatch max =>
    simp only [System.step] at hstep
    split_ifs at hstep with hrest
    cases hstep
    exact hinv.still hc ⟨rfl, rfl, rfl⟩ rfl rfl (by rw [htaken hrest]; exact Nat.zero_le _)
      (fun _ _ h => h) fun _ _ he => absurd he (Ring.nextRead_ne _ _ _)
  | producer => exact hinv.producer hstep
  | consumer => exact hinv.consumer hstep

theorem exists_new {capacity : UInt64} (hle : capacity.toNat ≤ 2 ^ 63) :
    ∃ k, (System.new capacity : System T).Inv k := by
  have hmask : ∃ k < 64, capacity.toNat ≤ 2 ^ k ∧
      (Ring.new capacity : Ring T).mask.toNat = 2 ^ k - 1 := by
    obtain ⟨k, hk, hroom, hnext⟩ := nextPowerOfTwo_eq hle
    by_cases hzero : k = 0
    · subst hzero
      refine ⟨1, by decide, hroom.trans (by decide), ?_⟩
      rw [Ring.new, hnext]
      rfl
    · refine ⟨k, hk, hroom, ?_⟩
      have htwo : (2 : UInt64).toNat = 2 := rfl
      have hle2 : 2 ≤ 2 ^ k := Nat.le_self_pow hzero 2
      have hmax : max (UInt64.ofNat (2 ^ k)) 2 = UInt64.ofNat (2 ^ k) := by
        rw [← UInt64.toNat_inj, toNat_max, toNat_two_pow hk, htwo, max_eq_left hle2]
      simp only [Ring.new, hnext, hmax]
      exact toNat_two_pow_sub_one hk
  obtain ⟨k, hk, hroom, hmask⟩ := hmask
  refine ⟨k, ?_⟩
  exact
    { exp_lt := hk
      mask := hmask
      cap_le := hroom
      tail := rfl
      head := rfl
      popped := rfl
      cachedHead := ⟨0, rfl, le_rfl, Nat.zero_le _⟩
      cachedTail := ⟨0, rfl, le_rfl, le_rfl⟩
      legal := trivial
      slots := fun j _ hj => absurd hj (Nat.not_lt_zero j)
      written := fun _ _ he => by cases he
      taken := fun _ _ he => by cases he }

theorem toSound (hinv : s.Inv k) : s.Sound := by
  have hlen := hinv.toCounts.length_le
  have hbounded := hinv.toCounts.bounded
  refine ⟨?_, hbounded, ?_, ?_, ?_, ?_, ?_⟩
  · rw [hinv.popped]
    exact take_prefix _ _
  · intro s' item batch hp hstep hrest
    obtain ⟨⟨ring, q, item'⟩, hadvance, rfl⟩ := map_eq_some_iff.mp hstep
    have hlegal := hinv.legal
    rw [hp] at hadvance hlegal
    simp only [Ring.advanceProducer] at hadvance
    split_ifs at hadvance with hfull
    · rwa [Ring.looksFull_iff (r := s.ring.refreshHead) hinv.tail hinv.head hlen hbounded]
        at hfull
    · cases hadvance
      cases hrest
  · intro s' batch hc hstep hrest
    obtain ⟨⟨ring, q, item⟩, hadvance, rfl⟩ := map_eq_some_iff.mp hstep
    rw [hc] at hadvance
    simp only [Ring.advanceConsumer] at hadvance
    split_ifs at hadvance with hempty
    · rw [Ring.looksEmpty_iff (r := s.ring.refreshTail) hinv.head hinv.tail hlen hbounded]
        at hempty
      rw [hinv.popped, hempty, take_length]
    · cases hadvance
      cases hrest
  · intro items limit _
    rw [UInt64.le_iff_toNat_le, hinv.tail, hinv.head, toNat_ofNat_sub hlen ?_]
    · omega
    · have hcap := s.ring.cap.toNat_lt
      omega
  · intro hp
    have hlegal := hinv.legal
    rw [hp] at hlegal
    exact hlegal
  · intro batch hc
    obtain ⟨t, -, hle, hclaimed⟩ := hinv.cachedTail
    rw [hc] at hclaimed
    simp only [Consumer.claimed] at hclaimed
    have hslot := hinv.slots s.popped.length (by simp [hc, Consumer.taken]) (by omega)
    rw [Ring.take, hinv.head, hslot]
    rfl

end System.Inv

namespace System

/-- Up to `2 ^ 63` everything holds in every state. -/
theorem sound_of_le {capacity : UInt64} (hle : capacity.toNat ≤ 2 ^ 63) {s : System T}
    (hreach : Reachable step (new capacity) s) : s.Sound := by
  obtain ⟨k, hnew⟩ := Inv.exists_new hle (T := T)
  exact (hreach.invariant (I := fun s : System T => s.Inv k) hnew
    fun _ _ _ hinv _ hstep => hinv.step hstep).toSound

theorem exec_push {s : System T} (hrest : s.producer.resting = true)
    (hroom : s.ring.looksFull = false) (item : T) :
    exec step (fun _ _ => true) s [.push item, .producer, .producer] =
      some { s with
        ring := (s.ring.write item).publish
        producer := .pushed
        pushed := s.pushed ++ [item] } := by
  simp [exec, step, hrest, Ring.beginPush, hroom, Ring.advanceProducer]

theorem exec_pop {s : System T} (hrest : s.consumer.resting = true)
    (hempty : s.ring.looksEmpty = true) (hfresh : s.ring.refreshTail.looksEmpty = false) (item : T)
    (hslot : s.ring.buf (s.ring.head &&& s.ring.mask) = some item) :
    exec step (fun _ _ => true) s [.pop, .consumer, .consumer, .consumer] =
      some { s with
        ring := { s.ring.refreshTail with
          buf := update s.ring.buf (s.ring.head &&& s.ring.mask) none
          head := s.ring.head + 1 }
        consumer := .popped (some item)
        popped := s.popped ++ [item] } := by
  have htake : s.ring.refreshTail.take = some (item, { s.ring.refreshTail with
      buf := update s.ring.buf (s.ring.head &&& s.ring.mask) none }) := by
    simp [Ring.take, Ring.refreshTail, hslot]
  simp only [exec, step, hrest, Ring.beginPop, hempty, Ring.advanceConsumer, hfresh, htake,
    if_true, if_false, Bool.false_eq_true, bind_some, map_some, toList_none,
    toList_some, append_nil]
  rfl

/-- Three items are pushed into two slots, and one is popped. -/
def overrun (a b c : T) : List (Action T) :=
  [Action.push a, .producer, .producer] ++ ([Action.push b, .producer, .producer] ++
    ([Action.push c, .producer, .producer] ++ [Action.pop, .consumer, .consumer, .consumer]))

theorem exec_overrun {capacity : UInt64} (hlt : 2 ^ 63 < capacity.toNat) (a b c : T) :
    (exec step (fun _ _ => true) (new capacity) (overrun a b c)).map
      (fun s => (s.pushed, s.popped)) = some ([a, b, c], [c]) := by
  have hring : (Ring.new capacity : Ring T) = ⟨fun _ => none, 1, capacity, 0, 0, 0, 0⟩ := by
    rw [Ring.new, nextPowerOfTwo_eq_zero hlt]
    rfl
  have hroom : ∀ n : UInt64, n.toNat ≤ 2 → decide (capacity ≤ n) = false := by
    intro n hn
    rw [decide_eq_false_iff_not, UInt64.le_iff_toNat_le]
    omega
  have hwrapped : (2 : UInt64) &&& 1 = 0 := by decide
  rw [overrun, exec_append, new, hring, exec_push, bind_some, exec_append,
    exec_push, bind_some, exec_append, exec_push, bind_some,
    exec_pop rfl rfl rfl c]
  · rfl
  -- the third item is in the first slot
  · simp [Ring.write, Ring.publish, hwrapped]
  · rfl
  · simpa [Ring.looksFull, Ring.write, Ring.publish] using hroom 2 (by decide)
  · rfl
  · simpa [Ring.looksFull, Ring.write, Ring.publish] using hroom 1 (by decide)
  · rfl
  · simpa [Ring.looksFull, Ring.write, Ring.publish] using hroom 0 (by decide)

theorem exists_unsound_of_lt [Nontrivial T] {capacity : UInt64} (hlt : 2 ^ 63 < capacity.toNat) :
    ∃ s : System T, Reachable step (new capacity) s ∧ ¬ s.Sound := by
  obtain ⟨a, b, hab⟩ := exists_pair_ne T
  obtain ⟨s, hs, heq⟩ := map_eq_some_iff.mp (exec_overrun hlt a a b)
  obtain ⟨hpushed, hpopped⟩ := Prod.mk.inj heq
  refine ⟨s, reachable_of_exec hs, fun hsound => ?_⟩
  have hfifo := hsound.fifo
  rw [hpushed, hpopped, cons_prefix_cons] at hfifo
  exact hab hfifo.1.symm

/-- The ring is sound exactly up to the capacity whose storage can be rounded up. -/
theorem sound_iff [Nontrivial T] (capacity : UInt64) :
    (∀ s : System T, Reachable step (new capacity) s → s.Sound) ↔
      capacity.toNat ≤ 2 ^ 63 := by
  constructor
  · intro hall
    by_contra hlt
    obtain ⟨s, hreach, hunsound⟩ := exists_unsound_of_lt (T := T) (not_le.mp hlt)
    exact hunsound (hall s hreach)
  · exact fun hle s hreach => sound_of_le hle hreach

/-- A capacity that is no power of two. -/
theorem sound_three : (∀ s : System ℕ, Reachable step (new 3) s → s.Sound) ↔
    (3 : UInt64).toNat ≤ 2 ^ 63 :=
  sound_iff 3

/-- The capacity `2 ^ 63 + 1`. -/
theorem not_sound_large : ¬ ∀ s : System ℕ,
    Reachable step (new 9223372036854775809) s → s.Sound := by
  intro hall
  have hlt : 2 ^ 63 < (9223372036854775809 : UInt64).toNat := by decide
  obtain ⟨s, hreach, hunsound⟩ := exists_unsound_of_lt (T := ℕ) hlt
  exact hunsound (hall s hreach)

end System

end Fibre.Channels.Spsc
