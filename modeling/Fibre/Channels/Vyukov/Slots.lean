import Fibre.Math.Crew
import Fibre.Channels.Vyukov.Ring

/-!
# The slots of the Vyukov ring

At every moment each slot of the array is in one phase of one position: free for it, claimed by a push,
published, or claimed by a pop. The stamp of the slot tells the position up to the calls that are under
way, and the positions of the slots are spread over one lap between the two cursors. So a push that
finds the stamp of the position it is to claim finds the slot free, and a pop finds the item.
-/

namespace Fibre.Channels.Vyukov

open Function Crew Machine List

variable {α : Type*}

/-! ### Machine arithmetic below `2 ^ 63` -/

theorem wrappingAdd_of_lt {a b : ℕ} (h : a + b < 2 ^ 64) : wrappingAdd a b = a + b :=
  Nat.mod_eq_of_lt h

theorem wrappingSub_of_le {a b : ℕ} (h : b ≤ a) (ha : a < 2 ^ 64) : wrappingSub a b = a - b := by
  have hsum : a + (2 ^ 64 - b) = a - b + 2 ^ 64 := by omega
  rw [wrappingSub, hsum, Nat.add_mod_right, Nat.mod_eq_of_lt (by omega)]

theorem wrappingSub_le {a b : ℕ} (h : b ≤ a) (hb : b ≤ 2 ^ 64) : wrappingSub a b ≤ a - b := by
  have hsum : a + (2 ^ 64 - b) = a - b + 2 ^ 64 := by omega
  rw [wrappingSub, hsum, Nat.add_mod_right]
  exact Nat.mod_le _ _

theorem diff_of_lt {a b : ℕ} (ha : a < 2 ^ 63) (hb : b < 2 ^ 63) : diff a b = a - b := by
  rw [diff, asIsize, asIsize, if_pos ha, if_pos hb]

theorem eq_of_mod_eq {p q lap : ℕ} (hmod : p % lap = q % lap) (hle : p ≤ q) (hlt : q < p + lap) :
    p = q := by
  have hdvd : lap ∣ q - p := (Nat.modEq_iff_dvd' hle).mp hmod
  have hzero : q - p = 0 := Nat.eq_zero_of_dvd_of_lt hdvd (by omega)
  omega

theorem eq_or_add_of_mod_eq {p q lap : ℕ} (hmod : p % lap = q % lap) (hle : p ≤ q)
    (hlt : q ≤ p + lap) : p = q ∨ q = p + lap := by
  rcases Nat.lt_or_ge q (p + lap) with h | h
  · exact .inl (eq_of_mod_eq hmod hle h)
  · exact .inr (le_antisymm hlt h)

theorem succ_mod_ne {p lap : ℕ} (hlap : 2 ≤ lap) : (p + 1) % lap ≠ p % lap := by
  intro hmod
  have heq := eq_of_mod_eq hmod.symm (Nat.le_succ p) (by omega)
  omega

/-! ### Phases -/

/-- The phase of a slot: free for a position, or claimed by the push of a call, or published, or claimed
by its pop. -/
inductive Phase
  | free (p : ℕ)
  | writing (p i : ℕ)
  | full (p : ℕ)
  | reading (p i : ℕ)

def Phase.pos : Phase → ℕ
  | .free p | .writing p _ | .full p | .reading p _ => p

/-- The phase that a call keeps a slot in. -/
def Pc.phase (i : ℕ) : Pc α → Option Phase
  | .write _ p | .publish p => some (.writing p i)
  | .read p | .free p _ => some (.reading p i)
  | _ => none

/-- The call has claimed a position. -/
def Pc.claims : Pc α → ℕ
  | .write _ _ | .publish _ | .pushed | .read _ | .free _ _ | .popped _ => 1
  | _ => 0

/-- The next access is one of `pop`. -/
def Pc.pops : Pc α → Bool
  | .loadPos | .loadSeq _ | .claimHead _ | .read _ | .free _ _ | .empty => true
  | _ => false

namespace System

/-- The size of the array. -/
def lap (s : System α) : ℕ := s.ring.mask + 1

/-- The call `i` is at an access. -/
def At (s : System α) (i : ℕ) (pc : Pc α) : Prop := ∃ p, s.parties[i]? = some p ∧ p.pc = pc

/-- The slot `x` is in a phase. -/
def Fits (s : System α) (x : ℕ) : Phase → Prop
  | .free p => p % s.lap = x ∧ s.ring.buf x = ⟨p, none⟩ ∧
      s.ring.enqueuePos ≤ p ∧ p < s.ring.dequeuePos + s.lap
  | .writing p i => p % s.lap = x ∧ s.ring.dequeuePos ≤ p ∧ p < s.ring.enqueuePos ∧
      ((∃ item, s.At i (.write item p) ∧ s.pushes[p]? = some item ∧ s.ring.buf x = ⟨p, none⟩) ∨
        s.At i (.publish p) ∧ s.ring.buf x = ⟨p, s.pushes[p]?⟩)
  | .full p => p % s.lap = x ∧ s.ring.dequeuePos ≤ p ∧ p < s.ring.enqueuePos ∧
      s.ring.buf x = ⟨p + 1, s.pushes[p]?⟩
  | .reading p i => p % s.lap = x ∧ p < s.ring.dequeuePos ∧ s.ring.enqueuePos ≤ p + s.lap ∧
      (s.At i (.read p) ∧ s.ring.buf x = ⟨p + 1, s.pushes[p]?⟩ ∨
        s.At i (.free p s.pushes[p]?) ∧ s.ring.buf x = ⟨p + 1, none⟩)

/-- What a call may rely on of what it has loaded. -/
def Knows (s : System α) : Pc α → Prop
  | .loadHead _ pos => pos ≤ s.ring.enqueuePos
  | .loadStamp _ pos => pos ≤ s.ring.enqueuePos ∧ pos < s.ring.dequeuePos + s.ring.cap
  | .claimTail _ pos => pos ≤ s.ring.enqueuePos ∧ pos < s.ring.dequeuePos + s.ring.cap ∧
      (s.ring.enqueuePos = pos → (s.ring.buf (pos % s.lap)).seq = pos)
  | .loadSeq pos => pos ≤ s.ring.dequeuePos
  | .claimHead pos => pos ≤ s.ring.dequeuePos ∧
      (s.ring.dequeuePos = pos → (s.ring.buf (pos % s.lap)).seq = pos + 1)
  | .lenTail head => head ≤ s.ring.dequeuePos
  -- the tail is that of a moment between the two loads of the head
  | .lenCheck head tail => ∃ d, head ≤ d ∧ d ≤ s.ring.dequeuePos ∧ d ≤ tail ∧ tail ≤ d + s.ring.cap
  | .counted n => n ≤ s.ring.cap
  | _ => True

/-- The size of the array and the cursors. -/
structure Sized (s : System α) : Prop where
  power : ∃ k, 1 ≤ k ∧ k ≤ 56 ∧ s.lap = 2 ^ k
  ordered : s.ring.dequeuePos ≤ s.ring.enqueuePos
  room : s.ring.enqueuePos ≤ s.ring.dequeuePos + s.lap
  capacity : s.ring.enqueuePos ≤ s.ring.dequeuePos + s.ring.cap
  /-- no position comes near the end of the machine words -/
  low : s.ring.enqueuePos + 2 ^ 57 ≤ 2 ^ 63
  cap : s.ring.cap < 2 ^ 64

structure Alone (s : System α) : Prop where
  dropping : ∀ p ∈ s.parties, p.drops = true → s.dropping = true
  pops : ∀ p ∈ s.parties, p.drops = true → p.pc.pops = true
  unique : ∀ (i j : ℕ) (p q : Party α), s.parties[i]? = some p → s.parties[j]? = some q →
    p.drops = true → q.drops = true → i = j
  ended : s.dropping = true → ∀ p ∈ s.parties, p.drops = false → p.pc.ended = true
  dropper : s.dropping = true → ∃ p ∈ s.parties, p.drops = true
  /-- it ends when nothing is left -/
  ends : ∀ p ∈ s.parties, p.drops = true → p.pc.ended = true →
    s.ring.dequeuePos = s.ring.enqueuePos

structure History (s : System α) : Prop where
  pushes : s.pushes.length = s.ring.enqueuePos
  claims : s.claims = List.range s.ring.dequeuePos
  nodup : (s.takes.map Take.pos).Nodup
  items : ∀ t ∈ s.takes, t.pos < s.ring.dequeuePos ∧ t.item = s.pushes[t.pos]?
  /-- a claimed position is read by now, or a call is about to read it, not both -/
  claimed : ∀ p < s.ring.dequeuePos,
    (p ∈ s.takes.map Take.pos ∨ ∃ i, s.At i (.read p)) ∧
      ∀ i, s.At i (.read p) → p ∉ s.takes.map Take.pos
  freeing : ∀ i p item, s.At i (.free p item) → ⟨i, p, item⟩ ∈ s.takes
  popped : ∀ i item, s.At i (.popped item) → ∃ t ∈ s.takes, t.reader = i ∧ t.item = item

/-- The slots, the cursors and the history. -/
structure Inv (s : System α) (phase : ℕ → Phase) : Prop where
  sized : s.Sized
  fits : ∀ x < s.lap, s.Fits x (phase x)
  busy : ∀ (i : ℕ) (p : Party α) (ph : Phase), s.parties[i]? = some p →
    p.pc.phase i = some ph → phase (ph.pos % s.lap) = ph
  knows : ∀ (i : ℕ) (p : Party α), s.parties[i]? = some p → s.Knows p.pc
  /-- every call claims one position at most -/
  count : s.dropping = false → s.ring.enqueuePos + s.ring.dequeuePos ≤
    weigh (fun p : Party α => p.pc.claims) s.parties
  short : s.dropping = false → s.parties.length < 2 ^ 63
  alone : s.Alone
  history : s.History

/-! ### Reading the phases -/

variable {s s' : System α} {phase : ℕ → Phase} {i j x pos : ℕ} {p p' : Party α} {pc : Pc α}

theorem lap_pos (s : System α) : 0 < s.lap := Nat.succ_pos _

theorem Sized.two_le (h : s.Sized) : 2 ≤ s.lap := by
  obtain ⟨k, hone, -, hk⟩ := h.power
  rw [hk]
  calc 2 = 2 ^ 1 := rfl
    _ ≤ 2 ^ k := Nat.pow_le_pow_right Nat.two_pos hone

theorem Sized.lap_le (h : s.Sized) : s.lap ≤ 2 ^ 56 := by
  obtain ⟨k, -, hle, hk⟩ := h.power
  rw [hk]
  exact Nat.pow_le_pow_right Nat.two_pos hle

theorem Sized.index (h : s.Sized) (pos : ℕ) : pos &&& s.ring.mask = pos % s.lap := by
  obtain ⟨k, -, -, hk⟩ := h.power
  have hmask : s.ring.mask = 2 ^ k - 1 := by
    have hlap : s.ring.mask + 1 = 2 ^ k := hk
    omega
  rw [hmask, hk, Nat.and_two_pow_sub_one_eq_mod]

theorem Sized.slot (h : s.Sized) (pos : ℕ) : s.ring.slot pos = s.ring.buf (pos % s.lap) := by
  rw [Ring.slot, h.index]

theorem Sized.setSlot (h : s.Sized) (pos : ℕ) (slot : Slot α) :
    s.ring.setSlot pos slot = { s.ring with buf := update s.ring.buf (pos % s.lap) slot } := by
  rw [Ring.setSlot, h.index]

theorem mod_lt (s : System α) (pos : ℕ) : pos % s.lap < s.lap := Nat.mod_lt _ s.lap_pos

theorem At.eq (h : s.At i pc) (hp : s.parties[i]? = some p) : p.pc = pc := by
  obtain ⟨q, hq, rfl⟩ := h
  rw [hp] at hq
  rw [Option.some.inj hq]

namespace Inv

theorem fits_at (h : Inv s phase) (pos : ℕ) : s.Fits (pos % s.lap) (phase (pos % s.lap)) :=
  h.fits _ (s.mod_lt pos)

theorem seq_lt (h : Inv s phase) (pos : ℕ) : (s.ring.buf (pos % s.lap)).seq < 2 ^ 63 := by
  have hfits := h.fits_at pos
  have hlap := h.sized.lap_le
  have hlow := h.sized.low
  have hord := h.sized.ordered
  cases hph : phase (pos % s.lap) with
  | free p =>
    rw [hph] at hfits
    obtain ⟨-, hbuf, -, hlt⟩ := hfits
    rw [hbuf]
    show p < _
    omega
  | writing p i =>
    rw [hph] at hfits
    obtain ⟨-, -, hlt, ⟨_, -, -, hbuf⟩ | ⟨-, hbuf⟩⟩ := hfits <;> rw [hbuf] <;> show p < _ <;> omega
  | full p =>
    rw [hph] at hfits
    obtain ⟨-, -, hlt, hbuf⟩ := hfits
    rw [hbuf]
    show p + 1 < _
    omega
  | reading p i =>
    rw [hph] at hfits
    obtain ⟨-, hlt, -, ⟨-, hbuf⟩ | ⟨-, hbuf⟩⟩ := hfits <;> rw [hbuf] <;> show p + 1 < _ <;> omega

/-- The next enqueue position finds its stamp only in a slot that is free. -/
theorem free_of_seq (h : Inv s phase)
    (hseq : (s.ring.buf (s.ring.enqueuePos % s.lap)).seq = s.ring.enqueuePos) :
    phase (s.ring.enqueuePos % s.lap) = .free s.ring.enqueuePos := by
  have hfits := h.fits_at s.ring.enqueuePos
  have htwo := h.sized.two_le
  cases hph : phase (s.ring.enqueuePos % s.lap) with
  | free p =>
    rw [hph] at hfits
    obtain ⟨-, hbuf, -, -⟩ := hfits
    rw [hbuf] at hseq
    exact congrArg Phase.free hseq
  | writing p i =>
    rw [hph] at hfits
    obtain ⟨-, -, hlt, ⟨_, -, -, hbuf⟩ | ⟨-, hbuf⟩⟩ := hfits <;> rw [hbuf] at hseq <;>
      exact absurd hseq hlt.ne
  | full p =>
    rw [hph] at hfits
    obtain ⟨hmod, -, -, hbuf⟩ := hfits
    rw [hbuf] at hseq
    rw [← show p + 1 = s.ring.enqueuePos from hseq] at hmod
    exact absurd hmod.symm (succ_mod_ne htwo)
  | reading p i =>
    rw [hph] at hfits
    obtain ⟨hmod, -, -, hor⟩ := hfits
    have hnext : p + 1 = s.ring.enqueuePos := by
      obtain ⟨-, hbuf⟩ | ⟨-, hbuf⟩ := hor <;> rw [hbuf] at hseq <;> exact hseq
    rw [← hnext] at hmod
    exact absurd hmod.symm (succ_mod_ne htwo)

/-- The next dequeue position finds its stamp only in a slot that is published. -/
theorem full_of_seq (h : Inv s phase)
    (hseq : (s.ring.buf (s.ring.dequeuePos % s.lap)).seq = s.ring.dequeuePos + 1) :
    phase (s.ring.dequeuePos % s.lap) = .full s.ring.dequeuePos := by
  have hfits := h.fits_at s.ring.dequeuePos
  have htwo := h.sized.two_le
  cases hph : phase (s.ring.dequeuePos % s.lap) with
  | free p =>
    rw [hph] at hfits
    obtain ⟨hmod, hbuf, -, -⟩ := hfits
    rw [hbuf] at hseq
    rw [show p = s.ring.dequeuePos + 1 from hseq] at hmod
    exact absurd hmod (succ_mod_ne htwo)
  | writing p i =>
    rw [hph] at hfits
    obtain ⟨hmod, -, -, hor⟩ := hfits
    have hnext : p = s.ring.dequeuePos + 1 := by
      obtain ⟨_, -, -, hbuf⟩ | ⟨-, hbuf⟩ := hor <;> rw [hbuf] at hseq <;> exact hseq
    rw [hnext] at hmod
    exact absurd hmod (succ_mod_ne htwo)
  | full p =>
    rw [hph] at hfits
    obtain ⟨-, -, -, hbuf⟩ := hfits
    rw [hbuf] at hseq
    exact congrArg Phase.full (Nat.succ.inj hseq)
  | reading p i =>
    rw [hph] at hfits
    obtain ⟨-, hlt, -, hor⟩ := hfits
    have heq : p = s.ring.dequeuePos := by
      obtain ⟨-, hbuf⟩ | ⟨-, hbuf⟩ := hor <;> rw [hbuf] at hseq <;> exact Nat.succ.inj hseq
    exact absurd heq hlt.ne

/-- A pop finds no item where the oldest position is unclaimed, or claimed and not published. -/
theorem unpublished (h : Inv s phase) (hle : pos ≤ s.ring.dequeuePos)
    (hseq : (s.ring.buf (pos % s.lap)).seq < pos + 1) :
    s.ring.enqueuePos = s.ring.dequeuePos ∨ ∃ j,
      (∃ item, s.At j (.write item s.ring.dequeuePos)) ∨ s.At j (.publish s.ring.dequeuePos) := by
  have hfits := h.fits_at pos
  have hord := h.sized.ordered
  cases hph : phase (pos % s.lap) with
  | free p =>
    rw [hph] at hfits
    obtain ⟨-, hbuf, hlow, -⟩ := hfits
    rw [hbuf] at hseq
    have hp : p < pos + 1 := hseq
    exact .inl (by omega)
  | writing p i =>
    rw [hph] at hfits
    obtain ⟨-, hlow, -, hor⟩ := hfits
    have hp : p < pos + 1 := by
      obtain ⟨_, -, -, hbuf⟩ | ⟨-, hbuf⟩ := hor <;> rw [hbuf] at hseq <;> exact hseq
    have heq : p = s.ring.dequeuePos := by omega
    subst heq
    exact .inr ⟨i, hor.imp (fun ⟨item, hat, _⟩ => ⟨item, hat⟩) And.left⟩
  | full p =>
    rw [hph] at hfits
    obtain ⟨-, hlow, -, hbuf⟩ := hfits
    rw [hbuf] at hseq
    have hp : p + 1 < pos + 1 := hseq
    omega
  | reading p i =>
    -- the slot is not freed yet for a position that nobody has claimed
    rw [hph] at hfits
    obtain ⟨hmod, hlt, hroom, hor⟩ := hfits
    have hp : p + 1 < pos + 1 := by
      obtain ⟨-, hbuf⟩ | ⟨-, hbuf⟩ := hor <;> rw [hbuf] at hseq <;> exact hseq
    rcases eq_or_add_of_mod_eq hmod (by omega) (by omega) with heq | heq
    · omega
    · exact .inl (by omega)

end Inv

/-! ### What a step leaves alone -/

theorem At.set_of_ne (h : s.At j pc) (hne : j ≠ i) (hs : s'.parties = s.parties.set i p') :
    s'.At j pc := by
  obtain ⟨q, hq, rfl⟩ := h
  refine ⟨q, ?_, rfl⟩
  rw [hs, List.getElem?_set_ne (Ne.symm hne)]
  exact hq

theorem at_set_self (hp : s.parties[i]? = some p) (hs : s'.parties = s.parties.set i p') :
    s'.At i p'.pc := by
  refine ⟨p', ?_, rfl⟩
  rw [hs, List.getElem?_set_self (List.getElem?_eq_some_iff.mp hp).1]

theorem At.of_set (h : s'.At j pc) (hp : s.parties[i]? = some p)
    (hs : s'.parties = s.parties.set i p') : j = i ∧ p'.pc = pc ∨ j ≠ i ∧ s.At j pc := by
  obtain ⟨q, hq, rfl⟩ := h
  rw [hs] at hq
  by_cases hji : j = i
  · subst hji
    rw [List.getElem?_set_self (List.getElem?_eq_some_iff.mp hp).1] at hq
    exact .inl ⟨rfl, by rw [Option.some.inj hq]⟩
  · rw [List.getElem?_set_ne (Ne.symm hji)] at hq
    exact .inr ⟨hji, q, hq, rfl⟩

theorem forall_set {P : ℕ → Party α → Prop} (hp : s.parties[i]? = some p)
    (hothers : ∀ j q, j ≠ i → s.parties[j]? = some q → P j q) (hself : P i p') :
    ∀ j q, (s.parties.set i p')[j]? = some q → P j q := by
  intro j q hq
  by_cases hji : j = i
  · subst hji
    rw [List.getElem?_set_self (List.getElem?_eq_some_iff.mp hp).1] at hq
    exact Option.some.inj hq ▸ hself
  · rw [List.getElem?_set_ne (Ne.symm hji)] at hq
    exact hothers j q hji hq

theorem Fits.mono {ph : Phase} (h : s.Fits x ph) (hord : s.ring.dequeuePos ≤ s.ring.enqueuePos)
    (hlap : s'.lap = s.lap) (hbuf : s'.ring.buf x = s.ring.buf x)
    (hpushes : ∀ q < s.ring.enqueuePos, s'.pushes[q]? = s.pushes[q]?)
    (henq : s.ring.enqueuePos ≤ s'.ring.enqueuePos) (hdeq : s.ring.dequeuePos ≤ s'.ring.dequeuePos)
    (hfree : ∀ q, ph = .free q → s'.ring.enqueuePos ≤ q)
    (hwriting : ∀ q i, ph = .writing q i → s'.ring.dequeuePos ≤ q)
    (hfull : ∀ q, ph = .full q → s'.ring.dequeuePos ≤ q)
    (hreading : ∀ q i, ph = .reading q i → s'.ring.enqueuePos ≤ q + s.lap)
    (hat : ∀ j pc, pc.phase j = some ph → s.At j pc → s'.At j pc) : s'.Fits x ph := by
  cases ph with
  | free q =>
    obtain ⟨hmod, hval, -, hlt⟩ := h
    exact ⟨hlap ▸ hmod, hbuf.trans hval, hfree q rfl, by omega⟩
  | writing q j =>
    obtain ⟨hmod, -, hlt, hor⟩ := h
    refine ⟨hlap ▸ hmod, hwriting q j rfl, hlt.trans_le henq, ?_⟩
    rw [hbuf, hpushes q hlt]
    rcases hor with ⟨item, hj, hitem, hval⟩ | ⟨hj, hval⟩
    · exact .inl ⟨item, hat j _ rfl hj, hitem, hval⟩
    · exact .inr ⟨hat j _ rfl hj, hval⟩
  | full q =>
    obtain ⟨hmod, -, hlt, hval⟩ := h
    refine ⟨hlap ▸ hmod, hfull q rfl, hlt.trans_le henq, ?_⟩
    rw [hbuf, hpushes q hlt]
    exact hval
  | reading q j =>
    obtain ⟨hmod, hlt, -, hor⟩ := h
    refine ⟨hlap ▸ hmod, hlt.trans_le hdeq, hlap ▸ hreading q j rfl, ?_⟩
    rw [hbuf, hpushes q (hlt.trans_le hord)]
    exact hor.imp (And.imp_left (hat j _ rfl)) (And.imp_left (hat j _ rfl))

/-- What a call knows stays so while the cursors go on: where it still matters, its slot is not touched. -/
theorem Knows.mono (hk : s.Knows pc) (h : Inv s phase) (hlap : s'.lap = s.lap)
    (hcap : s'.ring.cap = s.ring.cap) (henq : s.ring.enqueuePos ≤ s'.ring.enqueuePos)
    (hdeq : s.ring.dequeuePos ≤ s'.ring.dequeuePos)
    (hfree : s'.ring.enqueuePos = s.ring.enqueuePos →
      phase (s.ring.enqueuePos % s.lap) = .free s.ring.enqueuePos →
      s'.ring.buf (s.ring.enqueuePos % s.lap) = s.ring.buf (s.ring.enqueuePos % s.lap))
    (hfull : s'.ring.dequeuePos = s.ring.dequeuePos →
      phase (s.ring.dequeuePos % s.lap) = .full s.ring.dequeuePos →
      s'.ring.buf (s.ring.dequeuePos % s.lap) = s.ring.buf (s.ring.dequeuePos % s.lap)) :
    s'.Knows pc := by
  cases pc with
  | loadHead item pos => exact le_trans hk henq
  | loadStamp item pos =>
    refine ⟨hk.1.trans henq, ?_⟩
    rw [hcap]
    exact hk.2.trans_le (Nat.add_le_add_right hdeq _)
  | claimTail item pos =>
    obtain ⟨hle, hroom, hseq⟩ := hk
    refine ⟨hle.trans henq, ?_, fun heq => ?_⟩
    · rw [hcap]
      exact hroom.trans_le (Nat.add_le_add_right hdeq _)
    · have hold : s.ring.enqueuePos = pos := le_antisymm (henq.trans heq.le) hle
      subst hold
      rw [hlap, hfree heq (h.free_of_seq (hseq rfl))]
      exact hseq rfl
  | loadSeq pos => exact le_trans hk hdeq
  | claimHead pos =>
    obtain ⟨hle, hseq⟩ := hk
    refine ⟨hle.trans hdeq, fun heq => ?_⟩
    have hold : s.ring.dequeuePos = pos := le_antisymm (hdeq.trans heq.le) hle
    subst hold
    rw [hlap, hfull heq (h.full_of_seq (hseq rfl))]
    exact hseq rfl
  | lenTail head => exact le_trans hk hdeq
  | lenCheck head tail =>
    obtain ⟨d, hhead, hd, htail, hroom⟩ := hk
    exact ⟨d, hhead, hd.trans hdeq, htail, hcap ▸ hroom⟩
  | counted n =>
    show n ≤ s'.ring.cap
    rw [hcap]
    exact hk
  | _ => trivial

theorem Alone.set (h : s.Alone) (hp : s.parties[i]? = some p) (hdrops : p'.drops = p.drops)
    (hgoes : p.pc.ended = false) (hpops : p.drops = true → p'.pc.pops = true)
    (hs : s'.parties = s.parties.set i p') (hdropping : s'.dropping = s.dropping)
    (hends : ∀ q ∈ s'.parties, q.drops = true → q.pc.ended = true →
      s'.ring.dequeuePos = s'.ring.enqueuePos) : s'.Alone := by
  have hmem := mem_of_getElem? hp
  have hlt := (List.getElem?_eq_some_iff.mp hp).1
  have hor : ∀ q ∈ s'.parties, q ∈ s.parties ∨ q = p' := by
    rw [hs]
    exact fun q hq => mem_or_eq_of_mem_set hq
  have hat : ∀ (j : ℕ) (q : Party α), s'.parties[j]? = some q → q.drops = true →
      ∃ r, s.parties[j]? = some r ∧ r.drops = true := by
    rw [hs]
    refine forall_set
      (P := fun j q => q.drops = true → ∃ r, s.parties[j]? = some r ∧ r.drops = true) hp ?_ ?_
    · exact fun j q _ hq hqd => ⟨q, hq, hqd⟩
    · exact fun hd => ⟨p, hp, hdrops ▸ hd⟩
  refine ⟨fun q hq hd => ?_, fun q hq hd => ?_, fun j k q r hq hr hqd hrd => ?_,
    fun hd q hq hnot => ?_, fun hd => ?_, hends⟩
  · rw [hdropping]
    rcases hor q hq with hold | rfl
    · exact h.dropping q hold hd
    · exact h.dropping p hmem (hdrops ▸ hd)
  · rcases hor q hq with hold | rfl
    · exact h.pops q hold hd
    · exact hpops (hdrops ▸ hd)
  · obtain ⟨q', hq', hqd'⟩ := hat j q hq hqd
    obtain ⟨r', hr', hrd'⟩ := hat k r hr hrd
    exact h.unique j k q' r' hq' hr' hqd' hrd'
  · rw [hdropping] at hd
    rcases hor q hq with hold | rfl
    · exact h.ended hd q hold hnot
    · -- the mover was not over
      have hended := h.ended hd p hmem (hdrops ▸ hnot)
      rw [hgoes] at hended
      cases hended
  · rw [hdropping] at hd
    obtain ⟨q, hq, hqd⟩ := h.dropper hd
    obtain ⟨j, hj⟩ := mem_iff_getElem?.mp hq
    by_cases hji : j = i
    · subst hji
      rw [hp] at hj
      obtain rfl := Option.some.inj hj
      refine ⟨p', ?_, hdrops.trans hqd⟩
      rw [hs]
      exact mem_set hlt p'
    · refine ⟨q, ?_, hqd⟩
      rw [hs]
      refine mem_of_getElem? (i := j) ?_
      rw [List.getElem?_set_ne (Ne.symm hji)]
      exact hj

theorem Alone.eq_of_drops (h : s.Alone) (hp : s.parties[i]? = some p) (hgoes : p.pc.ended = false)
    (hd : s.dropping = true) : p.drops = true := by
  cases hdrops : p.drops with
  | true => rfl
  | false =>
    have hended := h.ended hd p (mem_of_getElem? hp) hdrops
    rw [hgoes] at hended
    cases hended

theorem History.set (h : s.History) (hp : s.parties[i]? = some p) (hclaims : p.pc.phase i = none ∨
      ∃ q, p.pc.phase i = some (.writing q i))
    (hclaims' : p'.pc.phase i = none ∨ ∃ q, p'.pc.phase i = some (.writing q i))
    (hpopped : ∀ item, p'.pc ≠ .popped item)
    (hs : s'.parties = s.parties.set i p') (htakes : s'.takes = s.takes)
    (hclaimed : s'.claims = s.claims) (hdeq : s'.ring.dequeuePos = s.ring.dequeuePos)
    (hlength : s'.pushes.length = s'.ring.enqueuePos)
    (hpushes : ∀ q < s.ring.dequeuePos, s'.pushes[q]? = s.pushes[q]?) : s'.History := by
  have hread : ∀ j q, s'.At j (.read q) ↔ s.At j (.read q) := by
    intro j q
    constructor
    · intro hj
      rcases hj.of_set hp hs with ⟨-, hpc⟩ | ⟨-, hj⟩
      · rw [hpc] at hclaims'
        rcases hclaims' with hnone | ⟨_, hsome⟩
        · cases hnone
        · cases hsome
      · exact hj
    · intro hj
      apply hj.set_of_ne _ hs
      rintro rfl
      rw [hj.eq hp] at hclaims
      rcases hclaims with hnone | ⟨_, hsome⟩
      · cases hnone
      · cases hsome
  refine ⟨hlength, ?_, htakes ▸ h.nodup, ?_, ?_, ?_, ?_⟩
  · rw [hclaimed, hdeq]
    exact h.claims
  · rw [htakes, hdeq]
    intro t ht
    obtain ⟨hlt, hitem⟩ := h.items t ht
    exact ⟨hlt, hitem.trans (hpushes _ hlt).symm⟩
  · rw [htakes, hdeq]
    intro q hq
    obtain ⟨hor, hnot⟩ := h.claimed q hq
    refine ⟨hor.imp_right fun ⟨j, hj⟩ => ⟨j, (hread j q).mpr hj⟩, fun j hj => ?_⟩
    exact hnot j ((hread j q).mp hj)
  · rw [htakes]
    intro j q item hj
    rcases hj.of_set hp hs with ⟨-, hpc⟩ | ⟨-, hj⟩
    · rw [hpc] at hclaims'
      rcases hclaims' with hnone | ⟨_, hsome⟩
      · cases hnone
      · cases hsome
    · exact h.freeing j q item hj
  · rw [htakes]
    intro j item hj
    rcases hj.of_set hp hs with ⟨-, hpc⟩ | ⟨-, hj⟩
    · exact absurd hpc (hpopped item)
    · exact h.popped j item hj

namespace Inv

theorem phase_ne (h : Inv s phase) {x : ℕ} (hx : x < s.lap)
    (hne : ∀ ph, p.pc.phase i = some ph → ph.pos % s.lap ≠ x) :
    p.pc.phase i ≠ some (phase x) := by
  intro hph
  have hfits := h.fits x hx
  apply hne (phase x) hph
  cases hphx : phase x <;> rw [hphx] at hfits <;> exact hfits.1

theorem at_of_phase (h : Inv s phase) (hp : s.parties[i]? = some p)
    (hs : s'.parties = s.parties.set i p') {x : ℕ} (hx : x < s.lap)
    (hne : ∀ ph, p.pc.phase i = some ph → ph.pos % s.lap ≠ x) :
    ∀ j pc, pc.phase j = some (phase x) → s.At j pc → s'.At j pc := by
  intro j pc hph hj
  apply hj.set_of_ne _ hs
  rintro rfl
  apply h.phase_ne hx hne
  rw [hj.eq hp]
  exact hph

/-- A step that only moves the call from one place to another, where it keeps no slot. -/
theorem quiet (h : Inv s phase) (hp : s.parties[i]? = some p) (hclaims : p.pc.claims = 0)
    (hclaims' : p'.pc.claims = 0) (hdrops : p'.drops = p.drops) (hgoes : p.pc.ended = false)
    (hpops : p.drops = true → p'.pc.pops = true)
    (hends : p.drops = true → p'.pc.ended = true → s.ring.dequeuePos = s.ring.enqueuePos)
    (hknows : s.Knows p'.pc) : Inv { s with parties := s.parties.set i p' } phase := by
  have hphase : ∀ {pc : Pc α}, pc.claims = 0 → pc.phase i = none := by
    intro pc hpc
    cases pc <;> first | rfl | cases hpc
  have hnone : ∀ ph, p.pc.phase i = some ph → ∀ x, ph.pos % s.lap ≠ x := by
    intro ph hph
    rw [hphase hclaims] at hph
    cases hph
  refine ⟨?_, fun x hx => ?_, ?_, ?_, fun hd => ?_, fun hd => ?_, ?_, ?_⟩
  · exact ⟨h.sized.power, h.sized.ordered, h.sized.room, h.sized.capacity, h.sized.low, h.sized.cap⟩
  · have hfits := h.fits x hx
    refine hfits.mono h.sized.ordered rfl rfl (fun _ _ => rfl) le_rfl le_rfl ?_ ?_ ?_ ?_
      (h.at_of_phase hp rfl hx fun ph hph => hnone ph hph x)
    · rintro q hq
      rw [hq] at hfits
      exact hfits.2.2.1
    · rintro q j hq
      rw [hq] at hfits
      exact hfits.2.1
    · rintro q hq
      rw [hq] at hfits
      exact hfits.2.1
    · rintro q j hq
      rw [hq] at hfits
      exact hfits.2.2.1
  · intro j q ph
    refine forall_set (P := fun j q => q.pc.phase j = some ph → phase (ph.pos % s.lap) = ph) hp
      (fun j q _ hq => h.busy j q ph hq) ?_ j q
    intro hph
    rw [hphase hclaims'] at hph
    cases hph
  · exact forall_set (P := fun _ q => s.Knows q.pc) hp (fun j q _ hq => h.knows j q hq) hknows
  · have hset := weigh_set (fun p : Party α => p.pc.claims) hp p'
    have hcount := h.count hd
    show _ ≤ weigh _ (s.parties.set i p')
    simp only [hclaims, hclaims'] at hset
    exact hcount.trans hset.ge
  · show (s.parties.set i p').length < _
    rw [length_set]
    exact h.short hd
  · refine h.alone.set hp hdrops hgoes hpops rfl rfl fun q hq hqd hended => ?_
    rcases mem_or_eq_of_mem_set hq with hold | rfl
    · exact h.alone.ends q hold hqd hended
    · exact hends (hdrops ▸ hqd) hended
  · refine h.history.set hp (.inl (hphase hclaims)) (.inl (hphase hclaims')) (fun item hpc => ?_)
      rfl rfl rfl rfl h.history.pushes fun _ _ => rfl
    rw [hpc] at hclaims'
    cases hclaims'

theorem fits_update {ph : Phase}
    (hself : s'.Fits x ph) (hothers : ∀ y < s.lap, y ≠ x → s'.Fits y (phase y))
    (hlap : s'.lap = s.lap) : ∀ y < s'.lap, s'.Fits y (update phase x ph y) := by
  intro y hy
  by_cases hyx : y = x
  · subst hyx
    rw [update_self]
    exact hself
  · rw [update_of_ne hyx]
    exact hothers y (hlap ▸ hy) hyx

/-- The other calls keep the slots they kept, if the slot that changes was not kept by one of them. -/
theorem busy_update (h : Inv s phase) (hp : s.parties[i]? = some p) {ph : Phase}
    (hothers : ∀ (j : ℕ) (q : Party α) (ph₂ : Phase), j ≠ i → s.parties[j]? = some q →
      q.pc.phase j = some ph₂ → ph₂.pos % s.lap ≠ x)
    (hself : ∀ ph₂, p'.pc.phase i = some ph₂ → ph₂ = ph ∧ ph₂.pos % s.lap = x)
    (hlap : s'.lap = s.lap) (hs : s'.parties = s.parties.set i p') :
    ∀ (j : ℕ) (q : Party α) (ph₂ : Phase), s'.parties[j]? = some q → q.pc.phase j = some ph₂ →
      update phase x ph (ph₂.pos % s'.lap) = ph₂ := by
  intro j q ph₂
  rw [hs, hlap]
  refine forall_set
    (P := fun j q => q.pc.phase j = some ph₂ → update phase x ph (ph₂.pos % s.lap) = ph₂) hp
    (fun j q hji hq hph => ?_) (fun hph => ?_) j q
  · rw [update_of_ne (hothers j q ph₂ hji hq hph)]
    exact h.busy j q ph₂ hq hph
  · obtain ⟨rfl, hmod⟩ := hself ph₂ hph
    rw [hmod, update_self]

end Inv

end System

end Fibre.Channels.Vyukov
