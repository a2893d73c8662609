import Mathlib.Data.List.Infix
import Mathlib.Data.Nat.ModEq
import Fibre.Channels.Spmc.Cursors

/-!
# Every consumer receives the produced sequence

What the slots of the ring hold, how far the cursors are behind, and what each consumer received,
in every run.
-/

namespace Fibre.Channels.Spmc

open Function Machine List Option

variable {T : Type*}

/-- The items of this send whose sequence is stored. -/
def Producer.written : Producer T → ℕ
  | .write written _ | .store written _ _ => written
  | _ => 0

/-- The items of this send whose sequence is still to be stored. -/
def Producer.reserve : Producer T → ℕ
  | .write _ items => items.length
  | .store _ _ items => items.length + 1
  | _ => 0

/-- The slots whose value is not that of their sequence. -/
def Producer.pending : Producer T → ℕ
  | .store _ _ _ => 1
  | _ => 0

/-- What a consumer with its cursor at `tail` has seen of the produced items. -/
def Consumer.Fits (produced : List T) (tail : ℕ) (dropped : Bool) : Consumer T → Prop
  | .copy => tail < produced.length
  | .read n items => tail + n ≤ produced.length ∧ items.length < n ∧ items <+: produced.drop tail
  | .advance items => items <+: produced.drop tail
  | .checkHead => dropped
  | .batch max | .batchCheck max => 0 < max
  | .batchHead max => 0 < max ∧ dropped
  | .idle (some .disconnected) => dropped ∧ produced.length ≤ tail
  | .broken => False
  | _ => True

theorem Producer.pending_le_reserve (p : Producer T) : p.pending ≤ p.reserve := by
  cases p <;> simp [Producer.pending, Producer.reserve]

theorem Consumer.Fits.append {produced : List T} {tail : ℕ} {p : Consumer T}
    (h : p.Fits produced tail false) (item : T) : p.Fits (produced ++ [item]) tail false := by
  have hdrop : produced.drop tail <+: (produced ++ [item]).drop tail :=
    (prefix_append produced [item]).drop tail
  unfold Consumer.Fits at h ⊢
  split <;> simp_all
  · omega
  · exact ⟨by omega, h.2.2.trans hdrop⟩
  · exact h.trans hdrop

theorem Consumer.Fits.dropped {produced : List T} {tail : ℕ} {d : Bool} {p : Consumer T}
    (h : p.Fits produced tail d) : p.Fits produced tail true := by
  unfold Consumer.Fits at h ⊢
  split <;> simp_all

theorem mod_ne_of_lt_add {i j capacity : ℕ} (hij : i < j) (hj : j < i + capacity) :
    i % capacity ≠ j % capacity := by
  intro heq
  have hdvd : capacity ∣ j - i := (Nat.modEq_iff_dvd' hij.le).mp heq
  have := Nat.le_of_dvd (by omega) hdvd
  omega

theorem append_prefix {l a b : List T} (ha : a <+: l) (hb : b <+: l.drop a.length) :
    a ++ b <+: l := by
  obtain ⟨rest, rfl⟩ := ha
  rw [drop_left] at hb
  exact (prefix_append_right_inj a).mpr hb

theorem concat_prefix {l items : List T} {tail : ℕ} (h : items <+: l.drop tail)
    (hlt : tail + items.length < l.length) : items ++ [l[tail + items.length]] <+: l.drop tail := by
  refine append_prefix h ?_
  rw [drop_drop, drop_eq_getElem_cons hlt]
  exact prefix_append [_] _

namespace System

variable {s t : System T} {capacity c : ℕ}

/-- The ring holds the last items, every cursor is within reach, and what a consumer received is
what was produced. -/
structure Inv (capacity : ℕ) (s : System T) : Prop where
  room : ∀ c, (s.consumer c).active →
    s.produced.length + s.producer.reserve ≤ s.tail c + capacity
  tails : ∀ c, s.tail c ≤ s.produced.length
  head : s.head + s.producer.written = s.produced.length
  slots : ∀ i (hi : i < s.produced.length),
    s.produced.length + s.producer.pending ≤ i + capacity →
      s.slots (i % capacity) = ⟨2 * i + 1, some s.produced[i]⟩
  fresh : ∀ j i, (s.slots j).sequence = 2 * i + 1 → i < s.produced.length
  stored : ∀ written item items, s.producer = .store written item items →
    (s.slots (s.produced.length % capacity)).value = some item
  minTail : ∀ job idx rest m, s.producer = .scan job idx rest (some m) → m ≤ s.produced.length
  panicked : s.producer ≠ .panicked
  dropped : s.producerDropped → s.producer = .dropped
  fits : ∀ c, (s.consumer c).Fits s.produced (s.tail c) s.producerDropped
  cursor : ∀ c, s.tail c = s.start c + (s.received c).length
  received : ∀ c, s.received c <+: s.produced.drop (s.start c)
  absent : ∀ c, s.consumer c = .absent → s.received c = []

theorem inv_init : (init : System T).Inv capacity where
  room c _ := by simp [init, Producer.reserve]
  tails c := by simp [init]
  head := by simp [init, Producer.written]
  slots i hi := by simp [init] at hi
  fresh j i h := by
    simp only [init] at h
    omega
  stored written item items h := by simp [init] at h
  minTail job idx rest m h := by simp [init] at h
  panicked := by simp [init]
  dropped := by simp [init]
  fits c := by by_cases hc : c = 0 <;> simp [init, hc, Consumer.Fits]
  cursor c := by simp [init]
  received c := by simp [init]
  absent c _ := rfl

theorem Inv.slot_of_active (h : s.Inv capacity) (hc : (s.consumer c).active) {i : ℕ}
    (hle : s.tail c ≤ i) (hi : i < s.produced.length) :
    s.slots (i % capacity) = ⟨2 * i + 1, some s.produced[i]⟩ := by
  have hroom := h.room c hc
  have hpending := s.producer.pending_le_reserve
  exact h.slots i hi (by omega)

theorem Inv.head_le (h : s.Inv capacity) : s.head ≤ s.produced.length := by
  have := h.head
  omega

theorem Inv.head_of_dropped (h : s.Inv capacity) (hd : s.producerDropped) :
    s.head = s.produced.length := by
  have hhead := h.head
  rw [h.dropped hd] at hhead
  exact hhead

/-- The ring and the cursors stay as they are. -/
structure Same (s t : System T) : Prop where
  slots : t.slots = s.slots
  head : t.head = s.head
  producerDropped : t.producerDropped = s.producerDropped
  tail : t.tail = s.tail
  producer : t.producer = s.producer
  produced : t.produced = s.produced
  received : t.received = s.received
  start : t.start = s.start

theorem Inv.same (h : s.Inv capacity) (ht : Same s t)
    (hactive : ∀ k, (t.consumer k).active →
      ∃ c, (s.consumer c).active ∧ s.tail k = s.tail c)
    (hfits : ∀ k, (t.consumer k).Fits s.produced (s.tail k) s.producerDropped)
    (habsent : ∀ k, t.consumer k = .absent → s.consumer k = .absent) : t.Inv capacity := by
  obtain ⟨h1, h2, h3, h4, h5, h6, h7, h8⟩ := ht
  refine ⟨fun k hk => ?_, ?_, ?_, ?_, ?_, ?_, ?_, ?_, ?_, ?_, ?_, ?_, fun k hk => ?_⟩
  · obtain ⟨c, hc, heq⟩ := hactive k hk
    rw [h4, h5, h6, heq]
    exact h.room c hc
  · rw [h4, h6]
    exact h.tails
  · rw [h2, h5, h6]
    exact h.head
  · simp only [h1, h5, h6]
    exact h.slots
  · rw [h1, h6]
    exact h.fresh
  · rw [h1, h5, h6]
    exact h.stored
  · rw [h5, h6]
    exact h.minTail
  · rw [h5]
    exact h.panicked
  · rw [h3, h5]
    exact h.dropped
  · rw [h3, h4, h6]
    exact hfits
  · rw [h4, h7, h8]
    exact h.cursor
  · rw [h6, h7, h8]
    exact h.received
  · rw [h7]
    exact h.absent k (habsent k hk)

theorem Inv.setConsumer (h : s.Inv capacity) {p : Consumer T}
    (hactive : p.active → (s.consumer c).active)
    (hfits : p.Fits s.produced (s.tail c) s.producerDropped) (habsent : p ≠ .absent) :
    (s.setConsumer c p).Inv capacity := by
  refine h.same ⟨rfl, rfl, rfl, rfl, rfl, rfl, rfl, rfl⟩ (fun k hk => ⟨k, ?_, rfl⟩) (fun k => ?_)
    (fun k hk => ?_)
  · by_cases hkc : k = c
    · subst hkc
      exact hactive (by simpa [System.setConsumer] using hk)
    · simpa [System.setConsumer, hkc] using hk
  · by_cases hkc : k = c
    · subst hkc
      simpa [System.setConsumer] using hfits
    · simpa [System.setConsumer, hkc] using h.fits k
  · by_cases hkc : k = c
    · subst hkc
      exact absurd (by simpa [System.setConsumer] using hk) habsent
    · simpa [System.setConsumer, hkc] using hk

theorem Inv.advance (h : s.Inv capacity) {items : List T} (hc : s.consumer c = .advance items) :
    Inv capacity { s.setConsumer c (.idle (some (.ok items))) with
      tail := update s.tail c (s.tail c + items.length)
      received := update s.received c (s.received c ++ items) } := by
  have hitems : items <+: s.produced.drop (s.tail c) := by
    simpa [hc, Consumer.Fits] using h.fits c
  have hlen : s.tail c + items.length ≤ s.produced.length := by
    have hle := hitems.length_le
    have htail := h.tails c
    rw [length_drop] at hle
    omega
  have htail : ∀ k, s.tail k ≤ update s.tail c (s.tail c + items.length) k := by
    intro k
    by_cases hkc : k = c
    · subst hkc
      simp
    · simp [hkc]
  refine ⟨fun k hk => ?_, fun k => ?_, h.head, h.slots, h.fresh, h.stored, h.minTail, h.panicked,
    h.dropped, fun k => ?_, fun k => ?_, fun k => ?_, fun k hk => ?_⟩
  · have hold : (s.consumer k).active := by
      by_cases hkc : k = c
      · rw [hkc, hc]
        rfl
      · simpa [System.setConsumer, hkc] using hk
    exact (h.room k hold).trans (Nat.add_le_add_right (htail k) capacity)
  · by_cases hkc : k = c
    · subst hkc
      simpa using hlen
    · simpa [hkc] using h.tails k
  · by_cases hkc : k = c
    · subst hkc
      simp [System.setConsumer, Consumer.Fits]
    · simpa [System.setConsumer, hkc] using h.fits k
  · by_cases hkc : k = c
    · subst hkc
      simp [System.setConsumer, h.cursor k, Nat.add_assoc]
    · simpa [System.setConsumer, hkc] using h.cursor k
  · by_cases hkc : k = c
    · subst hkc
      simp only [update_self]
      refine append_prefix (h.received k) ?_
      rw [drop_drop]
      exact (h.cursor k) ▸ hitems
    · simpa [hkc] using h.received k
  · have hkc : k ≠ c := by
      rintro rfl
      simp [System.setConsumer] at hk
    simp only [update_of_ne hkc]
    exact h.absent k (by simpa [System.setConsumer, hkc] using hk)

theorem Inv.clone (h : s.Inv capacity) {child : ℕ} {last : Option (Outcome T)}
    (hc : s.consumer c = .idle last) (hchild : s.consumer child = .absent) :
    Inv capacity { (s.setConsumer c (.cloning child .lock)).setConsumer child .born with
      tail := update s.tail child (s.tail c)
      start := update s.start child (s.tail c) } := by
  have hact : ∀ k, (((s.setConsumer c (.cloning child .lock)).setConsumer child
      .born).consumer k).active → (s.consumer k).active ∧ k ≠ child := by
    intro k hk
    by_cases hkchild : k = child
    · simp [System.setConsumer, hkchild, Consumer.active] at hk
    · refine ⟨?_, hkchild⟩
      by_cases hkc : k = c
      · rw [hkc, hc]
        rfl
      · simpa [System.setConsumer, hkc, hkchild] using hk
  refine ⟨fun k hk => ?_, fun k => ?_, h.head, h.slots, h.fresh, h.stored, h.minTail, h.panicked,
    h.dropped, fun k => ?_, fun k => ?_, fun k => ?_, fun k hk => ?_⟩
  · simpa [(hact k hk).2] using h.room k (hact k hk).1
  · by_cases hk : k = child
    · subst hk
      simpa using h.tails c
    · simpa [hk] using h.tails k
  · by_cases hk : k = child
    · subst hk
      simp [System.setConsumer, Consumer.Fits]
    · by_cases hkc : k = c
      · subst hkc
        simp [System.setConsumer, hk, Consumer.Fits]
      · simpa [System.setConsumer, hk, hkc] using h.fits k
  · by_cases hk : k = child
    · subst hk
      simp [System.setConsumer, h.absent k hchild]
    · simpa [System.setConsumer, hk] using h.cursor k
  · by_cases hk : k = child
    · subst hk
      simp [System.setConsumer, h.absent k hchild]
    · simpa [System.setConsumer, hk] using h.received k
  · refine h.absent k ?_
    by_cases hkchild : k = child
    · rw [hkchild]
      exact hchild
    · by_cases hkc : k = c
      · subst hkc
        simp [System.setConsumer, hkchild] at hk
      · simpa [System.setConsumer, hkchild, hkc] using hk

theorem same_stepModify {f : List ℕ → List ℕ} {phase : Phase} {u : System T}
    {next : Option Phase} (hstep : s.stepModify c f phase = some (u, next)) :
    Same s u ∧ u.consumer = s.consumer := by
  cases phase <;> simp only [System.stepModify] at hstep
  case lock | drain =>
    split_ifs at hstep
    obtain ⟨rfl, -⟩ := Prod.mk.inj (Option.some.inj hstep)
    exact ⟨⟨rfl, rfl, rfl, rfl, rfl, rfl, rfl, rfl⟩, rfl⟩
  case mutate | publish | sync | unlock =>
    obtain ⟨rfl, -⟩ := Prod.mk.inj (Option.some.inj hstep)
    exact ⟨⟨rfl, rfl, rfl, rfl, rfl, rfl, rfl, rfl⟩, rfl⟩

theorem Inv.stepClone (h : s.Inv capacity) (hl : s.Listed) {child : ℕ} {phase : Phase}
    (hc : s.consumer c = .cloning child phase) {u : System T} {next : Option Phase}
    (hsame : Same s u) (hu : u.consumer = s.consumer) :
    Inv capacity (match next with
      | some phase => u.setConsumer c (.cloning child phase)
      | none => (u.setConsumer c (.idle none)).setConsumer child (.idle none)) := by
  have hactive : (s.consumer c).active := by
    rw [hc]
    rfl
  have hinv : u.Inv capacity := by
    refine h.same hsame (fun k hk => ⟨k, by rwa [hu] at hk, rfl⟩) (fun k => ?_) (fun k hk => ?_)
    · rw [hu]
      exact h.fits k
    · rwa [hu] at hk
  cases next with
  | some next =>
    exact hinv.setConsumer (fun _ => by rw [hu]; exact hactive) trivial (by simp)
  | none =>
    obtain ⟨h1, h2, h3, h4, h5, h6, h7, h8⟩ := hsame
    refine hinv.same ⟨rfl, rfl, rfl, rfl, rfl, rfl, rfl, rfl⟩ (fun k hk => ?_) (fun k => ?_)
      (fun k hk => ?_)
    · rw [hu, h4]
      by_cases hkchild : k = child
      · subst hkchild
        exact ⟨c, hactive, (hl.born c k phase hc).2⟩
      · by_cases hkc : k = c
        · rw [hkc]
          exact ⟨c, hactive, rfl⟩
        · exact ⟨k, by simpa [System.setConsumer, hkchild, hkc, hu] using hk, rfl⟩
    · by_cases hkchild : k = child
      · simp [System.setConsumer, hkchild, Consumer.Fits]
      · by_cases hkc : k = c
        · simp [System.setConsumer, hkc ▸ hkchild, hkc, Consumer.Fits]
        · simpa [System.setConsumer, hkchild, hkc] using hinv.fits k
    · by_cases hkchild : k = child
      · simp [System.setConsumer, hkchild] at hk
      · by_cases hkc : k = c
        · simp [System.setConsumer, hkc ▸ hkchild, hkc] at hk
        · simpa [System.setConsumer, hkchild, hkc] using hk

theorem Inv.stepConsumer (h : s.Inv capacity) (hl : s.Listed)
    (hstep : s.stepConsumer capacity c = some t) : t.Inv capacity := by
  have hfits := h.fits c
  have hhead := h.head_le
  unfold System.stepConsumer at hstep
  cases hc : s.consumer c with
  | load =>
    simp only [hc] at hstep
    split_ifs at hstep with hseq
    · obtain rfl := Option.some.inj hstep
      exact h.setConsumer (by simp [hc, Consumer.active]) (h.fresh _ _ hseq) (by simp)
    · obtain rfl := Option.some.inj hstep
      exact h.setConsumer (by simp [hc, Consumer.active]) trivial (by simp)
  | copy =>
    have hlt : s.tail c < s.produced.length := by simpa [hc, Consumer.Fits] using hfits
    have hslot := h.slot_of_active (by rw [hc]; rfl) le_rfl hlt
    simp only [hc, hslot, Option.some.injEq] at hstep
    subst hstep
    refine h.setConsumer (by simp [hc, Consumer.active]) ?_ (by simp)
    have hnil : ([] : List T) <+: s.produced.drop (s.tail c) := nil_prefix
    exact concat_prefix hnil hlt
  | check =>
    simp only [hc] at hstep
    split_ifs at hstep with hd
    · obtain rfl := Option.some.inj hstep
      exact h.setConsumer (by simp [hc, Consumer.active]) hd (by simp)
    · obtain rfl := Option.some.inj hstep
      exact h.setConsumer (by simp [hc, Consumer.active]) trivial (by simp)
  | checkHead =>
    have hd : s.producerDropped := by simpa [hc, Consumer.Fits] using hfits
    simp only [hc] at hstep
    split_ifs at hstep with hle
    · obtain rfl := Option.some.inj hstep
      rw [h.head_of_dropped hd] at hle
      exact h.setConsumer (by simp [hc, Consumer.active]) ⟨hd, hle⟩ (by simp)
    · obtain rfl := Option.some.inj hstep
      exact h.setConsumer (by simp [hc, Consumer.active]) trivial (by simp)
  | batch max =>
    have hmax : 0 < max := by simpa [hc, Consumer.Fits] using hfits
    simp only [hc] at hstep
    split_ifs at hstep with hle
    · obtain rfl := Option.some.inj hstep
      exact h.setConsumer (by simp [hc, Consumer.active]) hmax (by simp)
    · obtain rfl := Option.some.inj hstep
      refine h.setConsumer (by simp [hc, Consumer.active]) ⟨?_, ?_, nil_prefix⟩ (by simp)
      · omega
      · simp only [length_nil]
        omega
  | batchCheck max =>
    have hmax : 0 < max := by simpa [hc, Consumer.Fits] using hfits
    simp only [hc] at hstep
    split_ifs at hstep with hd
    · obtain rfl := Option.some.inj hstep
      exact h.setConsumer (by simp [hc, Consumer.active]) ⟨hmax, hd⟩ (by simp)
    · obtain rfl := Option.some.inj hstep
      exact h.setConsumer (by simp [hc, Consumer.active]) trivial (by simp)
  | batchHead max =>
    have hmax : 0 < max ∧ s.producerDropped := by simpa [hc, Consumer.Fits] using hfits
    simp only [hc] at hstep
    split_ifs at hstep with hle
    · obtain rfl := Option.some.inj hstep
      rw [h.head_of_dropped hmax.2] at hle
      exact h.setConsumer (by simp [hc, Consumer.active]) ⟨hmax.2, hle⟩ (by simp)
    · obtain rfl := Option.some.inj hstep
      refine h.setConsumer (by simp [hc, Consumer.active]) ⟨?_, ?_, nil_prefix⟩ (by simp)
      · omega
      · simp only [length_nil]
        omega
  | read n items =>
    obtain ⟨hn, hlen, hitems⟩ : s.tail c + n ≤ s.produced.length ∧ items.length < n ∧
        items <+: s.produced.drop (s.tail c) := by simpa [hc, Consumer.Fits] using hfits
    have hlt : s.tail c + items.length < s.produced.length := by omega
    have hslot := h.slot_of_active (by rw [hc]; rfl) (Nat.le_add_right _ _) hlt
    have hnext := concat_prefix hitems hlt
    simp only [hc, System.slotValue, hslot, if_true] at hstep
    split_ifs at hstep with hmore
    · obtain rfl := Option.some.inj hstep
      exact h.setConsumer (by simp [hc, Consumer.active]) ⟨hn, by simpa using hmore, hnext⟩
        (by simp)
    · obtain rfl := Option.some.inj hstep
      exact h.setConsumer (by simp [hc, Consumer.active]) hnext (by simp)
  | advance items =>
    simp only [hc, Option.some.injEq] at hstep
    subst hstep
    exact h.advance hc
  | cloning child phase =>
    simp only [hc] at hstep
    obtain ⟨⟨u, next⟩, hmodify, rfl⟩ := map_eq_some_iff.mp hstep
    obtain ⟨hsame, hu⟩ := same_stepModify hmodify
    exact h.stepClone hl hc hsame hu
  | dropping phase =>
    simp only [hc] at hstep
    obtain ⟨⟨u, next⟩, hmodify, rfl⟩ := map_eq_some_iff.mp hstep
    obtain ⟨hsame, hu⟩ := same_stepModify hmodify
    have hinv : u.Inv capacity := by
      refine h.same hsame (fun k hk => ⟨k, by rwa [hu] at hk, rfl⟩) (fun k => ?_) (fun k hk => ?_)
      · rw [hu]
        exact h.fits k
      · rwa [hu] at hk
    cases next with
    | some next => exact hinv.setConsumer (by simp [Consumer.active]) trivial (by simp)
    | none => exact hinv.setConsumer (by simp [Consumer.active]) trivial (by simp)
  | absent | born | idle | gone | broken => simp [hc] at hstep

theorem Inv.setProducer (h : s.Inv capacity) (hdropped : s.producerDropped = false)
    {p : Producer T} (l : LeftRight (List ℕ)) (hwritten : p.written = s.producer.written)
    (hpending : s.producer.pending = 0) (hp : p.pending = 0)
    (hroom : ∀ c, (s.consumer c).active → s.produced.length + p.reserve ≤ s.tail c + capacity)
    (hmin : ∀ job idx rest m, p = .scan job idx rest (some m) → m ≤ s.produced.length)
    (hpanic : p ≠ .panicked) : Inv capacity { s with tails := l, producer := p } where
  room := hroom
  tails := h.tails
  head := by
    have := h.head
    simpa [hwritten] using this
  slots i hi hle := h.slots i hi (by simpa only [hpending, hp] using hle)
  fresh := h.fresh
  stored written item items hstore := by
    simp only at hstore
    simp [hstore, Producer.pending] at hp
  minTail := hmin
  panicked := hpanic
  dropped hd := by simp [hdropped] at hd
  fits := h.fits
  cursor := h.cursor
  received := h.received
  absent := h.absent

theorem length_accepted_le (capacity : ℕ) (job : Job T) {head m : ℕ} (hm : m ≤ head)
    (hne : job.accepted capacity head m ≠ []) :
    head + (job.accepted capacity head m).length ≤ m + capacity := by
  cases job with
  | send item =>
    simp only [Job.accepted] at hne ⊢
    split_ifs at hne ⊢ with hfull
    · simp at hne
    · simp only [length_singleton]
      omega
  | batch items =>
    have hpos := length_pos_iff.mpr hne
    simp only [Job.accepted, length_take] at hpos ⊢
    omega
  | recheck => simp [Job.accepted] at hne

theorem Inv.afterScan (h : s.Inv capacity) (hl : s.Listed) {job : Job T} {idx : Bool}
    {minTail : Option ℕ} (hp : s.producer = .scan job idx [] minTail)
    (hdropped : s.producerDropped = false) (l : LeftRight (List ℕ)) :
    Inv capacity { s with tails := l, producer := s.afterScan capacity job minTail } := by
  have hpending : s.producer.pending = 0 := by simp [hp, Producer.pending]
  have hwritten : s.producer.written = 0 := by simp [hp, Producer.written]
  have hhead : s.head = s.produced.length := by simpa [hwritten] using h.head
  have hroom : ∀ c, (s.consumer c).active → s.produced.length ≤ s.tail c + capacity := by
    intro c hc
    simpa [hp, Producer.reserve] using h.room c hc
  cases minTail with
  | none =>
    exact h.setProducer hdropped l hwritten.symm hpending rfl hroom (by simp [System.afterScan])
      (by simp [System.afterScan])
  | some m =>
    -- no cursor is past the head
    have hm : m ≤ s.head := hhead ▸ h.minTail job idx [] m hp
    have hlt : ¬ s.head < m := by omega
    cases hitems : job.accepted capacity s.head m with
    | nil =>
      have hnext : s.afterScan capacity job (some m) = .idle := by
        simp [System.afterScan, hlt, hitems]
      rw [hnext]
      exact h.setProducer hdropped l hwritten.symm hpending rfl hroom (by simp) (by simp)
    | cons item items =>
      have hnext : s.afterScan capacity job (some m) = .write 0 (item :: items) := by
        simp [System.afterScan, hlt, hitems]
      rw [hnext]
      refine h.setProducer hdropped l hwritten.symm hpending rfl (fun c hc => ?_) (by simp)
        (by simp)
      -- all consumers are at or past the slowest cursor it found
      obtain ⟨m', hm', hle⟩ := hl.minTail_le hp hc
      obtain rfl : m = m' := Option.some.inj hm'
      have hlen := length_accepted_le capacity job hm (by simp [hitems])
      rw [hitems] at hlen
      simp only [Producer.reserve]
      omega

theorem Inv.write (h : s.Inv capacity) {written : ℕ} {item : T} {items : List T}
    (hp : s.producer = .write written (item :: items)) :
    Inv capacity { s with
      slots := update s.slots ((s.head + written) % capacity)
        { s.slots ((s.head + written) % capacity) with value := some item }
      producer := .store written item items } := by
  have hhead : s.head + written = s.produced.length := by
    simpa [hp, Producer.written] using h.head
  refine { h with
    room := fun c hc => ?_
    head := hhead
    slots := fun i hi hle => ?_
    fresh := fun j i hseq => ?_
    stored := fun w it its hstore => ?_
    minTail := by simp
    panicked := by simp
    dropped := fun hd => ?_ }
  · simpa [hp, Producer.reserve] using h.room c hc
  · have hi' : i < s.produced.length := hi
    simp only [Producer.pending] at hle
    have hne : i % capacity ≠ (s.head + written) % capacity :=
      mod_ne_of_lt_add (by omega) (by omega)
    simp only [update_of_ne hne]
    exact h.slots i hi (by simp only [hp, Producer.pending]; omega)
  · refine h.fresh j i ?_
    by_cases hj : j = (s.head + written) % capacity
    · subst hj
      simpa using hseq
    · simpa [hj] using hseq
  · obtain ⟨-, rfl, -⟩ := Producer.store.inj hstore
    simp [hhead]
  · have := h.dropped hd
    rw [hp] at this
    cases this

theorem Inv.store (h : s.Inv capacity) {written : ℕ} {item : T} {items : List T}
    (hp : s.producer = .store written item items) :
    Inv capacity { s with
      slots := update s.slots ((s.head + written) % capacity)
        { s.slots ((s.head + written) % capacity) with sequence := 2 * (s.head + written) + 1 }
      produced := s.produced ++ [item]
      producer := .write (written + 1) items } := by
  have hhead : s.head + written = s.produced.length := by
    simpa [hp, Producer.written] using h.head
  have hvalue := h.stored written item items hp
  have hdropped : s.producerDropped = false := by
    by_contra hd
    have := h.dropped (by simpa using hd)
    rw [hp] at this
    cases this
  rw [hhead]
  refine ⟨fun c hc => ?_, fun c => ?_, ?_, fun i hi hle => ?_, fun j i hseq => ?_, by simp,
    by simp, by simp, ?_, fun c => ?_, h.cursor, fun c => ?_, h.absent⟩
  · have := h.room c hc
    simp only [hp, Producer.reserve] at this
    simp only [length_append, length_singleton, Producer.reserve]
    omega
  · have := h.tails c
    simp only [length_append, length_singleton]
    omega
  · simp only [length_append, length_singleton, Producer.written]
    omega
  · simp only [length_append, length_singleton, Producer.pending] at hi hle
    rcases Nat.lt_succ_iff_lt_or_eq.mp hi with hi | rfl
    · -- an older item within reach is in another slot
      have hne : i % capacity ≠ s.produced.length % capacity :=
        mod_ne_of_lt_add hi (by omega)
      simp only [update_of_ne hne, getElem_append_left hi]
      exact h.slots i hi (by simp only [hp, Producer.pending]; omega)
    · simp [hvalue]
  · simp only [length_append, length_singleton]
    by_cases hj : j = s.produced.length % capacity
    · subst hj
      simp only [update_self] at hseq
      omega
    · simp only [update_of_ne hj] at hseq
      have := h.fresh j i hseq
      omega
  · simp [hdropped]
  · have hfits := h.fits c
    simp only [hdropped] at hfits ⊢
    exact hfits.append item
  · exact (h.received c).trans ((prefix_append s.produced [item]).drop _)

theorem Inv.publish (h : s.Inv capacity) {written : ℕ} (hp : s.producer = .write written []) :
    Inv capacity { s with head := s.head + written, producer := .idle } := by
  refine { h with
    room := fun c hc => ?_
    head := ?_
    slots := fun i hi hle => ?_
    stored := by simp
    minTail := by simp
    panicked := by simp
    dropped := fun hd => ?_ }
  · simpa [hp, Producer.reserve] using h.room c hc
  · simpa [hp, Producer.written] using h.head
  · exact h.slots i hi (by simpa [hp, Producer.pending] using hle)
  · have := h.dropped hd
    rw [hp] at this
    cases this

theorem Inv.stepProducer (h : s.Inv capacity) (hl : s.Listed)
    (hstep : s.stepProducer capacity = some t) : t.Inv capacity := by
  have hlive : s.producer ≠ .dropped → s.producerDropped = false := by
    intro hne
    by_contra hd
    exact hne (h.dropped (by simpa using hd))
  have hroom : s.producer.reserve = 0 → ∀ c, (s.consumer c).active →
      s.produced.length + 0 ≤ s.tail c + capacity := by
    intro hzero c hc
    exact hzero ▸ h.room c hc
  unfold System.stepProducer at hstep
  split at hstep
  case h_1 | h_2 | h_4 =>
    rename_i hp
    obtain rfl := Option.some.inj hstep
    exact h.setProducer (hlive (by simp [hp])) _ (by simp [hp, Producer.written])
      (by simp [hp, Producer.pending]) rfl (hroom (by simp [hp, Producer.reserve])) (by simp)
      (by simp)
  case h_3 job idx hp =>
    split_ifs at hstep
    all_goals
      obtain rfl := Option.some.inj hstep
      exact h.setProducer (hlive (by simp [hp])) _ (by simp [hp, Producer.written])
        (by simp [hp, Producer.pending]) rfl (hroom (by simp [hp, Producer.reserve])) (by simp)
        (by simp)
  case h_5 job idx c rest minTail hp =>
    obtain rfl := Option.some.inj hstep
    refine h.setProducer (hlive (by simp [hp])) _ (by simp [hp, Producer.written])
      (by simp [hp, Producer.pending]) rfl (hroom (by simp [hp, Producer.reserve]))
      (fun job' idx' rest' m hscan => ?_) (by simp)
    obtain ⟨-, -, -, hm⟩ := Producer.scan.inj hscan
    have htail := h.tails c
    cases minTail with
    | none =>
      obtain rfl : s.tail c = m := Option.some.inj hm
      exact htail
    | some m' =>
      obtain rfl : min (s.tail c) m' = m := Option.some.inj hm
      exact (min_le_left _ _).trans htail
  case h_6 job idx minTail hp =>
    obtain rfl := Option.some.inj hstep
    exact h.afterScan hl hp (hlive (by simp [hp])) _
  case h_7 written item items hp =>
    obtain rfl := Option.some.inj hstep
    exact h.write hp
  case h_8 written item items hp =>
    obtain rfl := Option.some.inj hstep
    exact h.store hp
  case h_9 written hp =>
    obtain rfl := Option.some.inj hstep
    exact h.publish hp
  case h_10 | h_11 | h_12 => cases hstep

theorem Inv.begin (h : s.Inv capacity) {p : Consumer T}
    (hstep : s.begin c p = some t) (hfits : p.Fits s.produced (s.tail c) s.producerDropped)
    (habsent : p ≠ .absent) : t.Inv capacity := by
  unfold System.begin at hstep
  split at hstep
  · next last hc =>
    obtain rfl := Option.some.inj hstep
    exact h.setConsumer (by simp [hc, Consumer.active]) hfits habsent
  · cases hstep

theorem Inv.step (h : s.Inv capacity) (hl : s.Listed) {a : Action T}
    (hstep : System.step capacity s a = some t) : t.Inv capacity := by
  cases a with
  | start job =>
    simp only [System.step] at hstep
    split at hstep
    · cases hstep
    · next hp _ =>
      obtain rfl := Option.some.inj hstep
      have hdropped : s.producerDropped = false := by
        by_contra hd
        have := h.dropped (by simpa using hd)
        rw [hp] at this
        cases this
      exact h.setProducer hdropped s.tails (by simp [hp, Producer.written])
        (by simp [hp, Producer.pending]) rfl
        (fun c hc => by simpa [hp, Producer.reserve] using h.room c hc) (by simp) (by simp)
    · cases hstep
  | dropProducer =>
    simp only [System.step] at hstep
    split at hstep
    · next hp =>
      obtain rfl := Option.some.inj hstep
      have hhead : s.head = s.produced.length := by simpa [hp, Producer.written] using h.head
      refine { h with
        room := fun c hc => by simpa [hp, Producer.reserve] using h.room c hc
        head := hhead
        slots := fun i hi hle => h.slots i hi (by simpa [hp, Producer.pending] using hle)
        stored := by simp
        minTail := by simp
        panicked := by simp
        dropped := fun _ => rfl
        fits := fun c => (h.fits c).dropped }
    · cases hstep
  | producer => exact h.stepProducer hl hstep
  | recv c => exact h.begin hstep trivial (by simp)
  | recheck c => exact h.begin hstep trivial (by simp)
  | recvBatch c max =>
    simp only [System.step] at hstep
    split_ifs at hstep with hmax
    exact h.begin hstep (Nat.pos_of_ne_zero hmax) (by simp)
  | clone c child =>
    simp only [System.step] at hstep
    split at hstep
    · next hchild =>
      obtain ⟨u, hbegin, rfl⟩ := map_eq_some_iff.mp hstep
      unfold System.begin at hbegin
      split at hbegin
      · next last hc =>
        obtain rfl := Option.some.inj hbegin
        exact h.clone hc hchild
      · cases hbegin
    · cases hstep
  | drop c => exact h.begin hstep trivial (by simp)
  | consumer c => exact h.stepConsumer hl hstep

structure Delivered (capacity : ℕ) (s : System T) : Prop where
  /-- what a consumer received is the produced sequence from its start on, up to its cursor -/
  received : ∀ c, s.received c <+: s.produced.drop (s.start c)
  cursor : ∀ c, s.tail c = s.start c + (s.received c).length
  /-- what it has not read yet is still in the ring, and nothing else is found there -/
  intact : ∀ c, (s.consumer c).active → ∀ i (hi : i < s.produced.length), s.tail c ≤ i →
    s.slotValue capacity i = some s.produced[i]
  sound : ∀ c, s.consumer c ≠ .broken
  /-- no consumer is further behind than the capacity, or ahead of what is produced -/
  behind : ∀ c, (s.consumer c).active → s.produced.length ≤ s.tail c + capacity
  tails : ∀ c, s.tail c ≤ s.produced.length
  /-- the head is what is produced, less the items of an unfinished send -/
  head : s.head ≤ s.produced.length ∧
    ((∀ written items, s.producer ≠ .write written items) →
      (∀ written item items, s.producer ≠ .store written item items) →
        s.head = s.produced.length)
  /-- the subtraction of the slowest cursor never underflows -/
  panicked : s.producer ≠ .panicked
  /-- who sees `Disconnected` has received all there is -/
  disconnected : ∀ c, s.consumer c = .idle (some .disconnected) →
    s.producer = .dropped ∧ s.received c = s.produced.drop (s.start c)

theorem Inv.keepsPromise (h : s.Inv capacity) : s.Delivered capacity where
  received := h.received
  cursor := h.cursor
  intact c hc i hi hle := by simp [System.slotValue, h.slot_of_active hc hle hi]
  sound c hc := by simpa [hc, Consumer.Fits] using h.fits c
  behind c hc := (Nat.le_add_right _ _).trans (h.room c hc)
  tails := h.tails
  head := by
    refine ⟨h.head_le, fun hwrite hstore => ?_⟩
    have hhead := h.head
    cases hp : s.producer <;> simp_all [Producer.written]
  panicked := h.panicked
  disconnected c hc := by
    obtain ⟨hd, hle⟩ : s.producerDropped ∧ s.produced.length ≤ s.tail c := by
      simpa [hc, Consumer.Fits] using h.fits c
    refine ⟨h.dropped hd, (h.received c).eq_of_length_le ?_⟩
    have := h.cursor c
    rw [length_drop]
    omega

end System

end Fibre.Channels.Spmc
