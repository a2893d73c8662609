import Fibre.Channels.Oneshot.Pool

/-!
# The lifecycle of pooled oneshot channels

Whichever handle exits last retires the slot, the value is received, handed back or dropped, and
the storage is freed once, when the pool was dropped and the last channel settled its stake.

A channel is *pushed* once its slot is back in the free list. Until then the slot is its own, and
the state word says which of its handles is still there.
-/

namespace Fibre.Channels.Oneshot.Pool

open Function Crew Machine List Option

variable {T : Type*}

namespace Channel

variable (c : Channel T)

/-- The receiver's `close` or drop came to its end, and left the slot to the sender. -/
def receiverExited : Bool :=
  match c.receiver with
  | .gone => true
  | .idle => c.exited
  | _ => false

/-- The slot is back in the free list. -/
def pushed : Bool :=
  match c.sender with
  | .gone => c.receiverExited || c.receiver = .retire .settle || c.receiver = .retire .free
  | .retire .settle | .retire .free => true
  | _ => false

/-- The slot the channel has. -/
def holds : Multiset ℕ := if c.pushed then 0 else {c.idx}

def staked : ℕ :=
  if c.pushed ∧ c.sender ≠ .retire .settle ∧ c.receiver ≠ .retire .settle then 0 else 1

/-- A handle of the channel is about to free the storage. -/
def freeing : ℕ := if c.sender = .retire .free ∨ c.receiver = .retire .free then 1 else 0

/-- A handle of the channel called `retire`. -/
def retiring : Prop := (∃ r, c.sender = .retire r) ∨ ∃ r, c.receiver = .retire r

/-- What the receiver relies on after the sender left, before it looks. -/
def Awaits (slot : Slot T) : Prop :=
  if slot.state.value then slot.value ≠ none else slot.state.senderGone = true ∧ slot.value = none

/-- The sender left: what the receiver can rely on. -/
def ReceiverFits (slot : Slot T) : Prop :=
  match c.receiver with
  | .idle => c.exited = false ∧ if c.done then slot.value = none else Awaits slot
  | .tryLoad | .pollLoad | .announce | .pollAgain =>
    c.exited = false ∧ c.done = false ∧ Awaits slot
  | .read => c.exited = false ∧ slot.value ≠ none
  | .closeLoad | .closeOr false => Awaits slot
  | .closeDrop => slot.state.value = true ∧ slot.value ≠ none
  | .closeOr true => slot.state.value = true ∧ slot.value = none
  | .closeDropLate => slot.value ≠ none
  | .retire .reset => slot.value = none
  | .retire .push => slot = .new
  | .retire _ | .gone => False

/-- The receiver has not seen the sender leave. -/
def receiverOpen : Bool :=
  match c.receiver with
  | .idle | .tryLoad | .pollLoad | .announce | .pollAgain => !c.exited && !c.done
  | .closeLoad | .closeOr false => true
  | _ => false

/-- The sender is still there: the receiver is, too, or it announced that it is gone. -/
def Faces (slot : Slot T) : Prop :=
  if slot.state.receiverGone then c.receiverExited = true else c.receiverOpen = true

/-- What the state word and the cell are, for the points both handles are at. -/
def Fits (slot : Slot T) : Prop :=
  match c.sender with
  | .idle | .close =>
    slot.state.value = false ∧ slot.state.senderGone = false ∧ slot.value = none ∧ c.Faces slot
  | .publish =>
    slot.state.value = false ∧ slot.state.senderGone = false ∧ slot.value ≠ none ∧ c.Faces slot
  | .readBack => slot.value ≠ none ∧ c.receiverExited = true
  | .retire .reset => slot.value = none ∧ c.receiverExited = true
  | .retire .push => slot = .new ∧ c.receiverExited = true
  | .retire _ => False
  | .gone => c.ReceiverFits slot

/-- What is true of a channel: while it has its slot, and afterwards. -/
structure Sound (slot : Slot T) : Prop where
  /-- the slot is as the handles expect it -/
  fits : c.pushed = false → c.Fits slot
  /-- one handle was left when the other retired the slot -/
  last : c.pushed = true → c.sender = .gone ∨ c.receiverExited = true
  /-- the value is in the cell, received, handed back or dropped -/
  ledger : c.passed = (if c.pushed then 0 else slot.held) + c.received + c.returned + c.dropped
  fresh : c.sender = .idle → c.passed = 0
  once : c.passed.card ≤ 1
  retires : c.retires ≤ 1 ∧ (c.retires = 1 ↔ c.pushed = true ∨ c.retiring)

theorem Sound.of_pushed {c : Channel T} {slot slot' : Slot T} (h : c.Sound slot)
    (hp : c.pushed = true) : c.Sound slot' where
  fits := fun hp' => by simp [hp] at hp'
  last := h.last
  ledger := by simpa [hp] using h.ledger
  fresh := h.fresh
  once := h.once
  retires := h.retires

/-! ### The points of both handles -/

variable {c : Channel T} {slot : Slot T}

theorem receiverExited_of_open (h : c.receiverOpen = true) : c.receiverExited = false := by
  cases hr : c.receiver <;> simp_all [receiverOpen, receiverExited]

/-- What the state word and the cell are, while the receiver has not seen the sender leave. -/
def OpenFits (sender : Sender) (slot : Slot T) : Prop :=
  match sender with
  | .idle | .close =>
    slot.state.value = false ∧ slot.state.senderGone = false ∧ slot.value = none ∧
      slot.state.receiverGone = false
  | .publish =>
    slot.state.value = false ∧ slot.state.senderGone = false ∧ slot.value ≠ none ∧
      slot.state.receiverGone = false
  | .gone => Awaits slot
  | .readBack | .retire _ => False

theorem fits_open_iff (h : c.receiverOpen = true) : c.Fits slot ↔ OpenFits c.sender slot := by
  have hexited := receiverExited_of_open h
  cases hs : c.sender with
  | gone =>
    simp only [Fits, hs, OpenFits]
    cases hr : c.receiver with
    | closeOr saw => cases saw <;> simp_all [receiverOpen, ReceiverFits]
    | _ => simp_all [receiverOpen, ReceiverFits]
  | retire r => cases r <;> simp [Fits, hs, OpenFits, hexited]
  | _ => simp [Fits, hs, OpenFits, Faces, h, hexited]

theorem Fits.sender_gone (h : c.Fits slot) (hopen : c.receiverOpen = false)
    (hexited : c.receiverExited = false) : c.sender = .gone ∧ c.ReceiverFits slot := by
  cases hs : c.sender with
  | gone => exact ⟨rfl, by simpa [Fits, hs] using h⟩
  | retire r => cases r <;> simp [Fits, hs, hexited] at h
  | _ => simp [Fits, hs, Faces, hopen, hexited] at h

theorem sound_of (hp : c.pushed = false) (hfits : c.Fits slot)
    (hledger : c.passed = slot.held + c.received + c.returned + c.dropped)
    (hfresh : c.sender = .idle → c.passed = 0) (honce : c.passed.card ≤ 1)
    (hretires : c.retires ≤ 1 ∧ (c.retires = 1 ↔ c.retiring)) : c.Sound slot where
  fits := fun _ => hfits
  last := fun hp' => by simp [hp] at hp'
  ledger := by simpa [hp] using hledger
  fresh := hfresh
  once := honce
  retires := by simpa [hp] using hretires

theorem Sound.ledger_active (h : c.Sound slot) (hp : c.pushed = false) :
    c.passed = slot.held + c.received + c.returned + c.dropped := by
  simpa [hp] using h.ledger

theorem Sound.retires_active (h : c.Sound slot) (hp : c.pushed = false) :
    c.retires ≤ 1 ∧ (c.retires = 1 ↔ c.retiring) := by
  simpa [hp] using h.retires

theorem Sound.pushed_eq_false (h : c.Sound slot) (hexited : c.receiverExited = false)
    (hr : c.receiver ≠ .retire .settle) (hr' : c.receiver ≠ .retire .free) : c.pushed = false := by
  by_contra hp
  have hp : c.pushed = true := by simpa using hp
  rcases h.last hp with hs | hs
  · simp [pushed, hs, hexited, hr, hr'] at hp
  · simp [hexited] at hs

theorem Sound.freeing_eq_zero (h : c.Sound slot) (hp : c.pushed = false) : c.freeing = 0 := by
  have hfits := h.fits hp
  rw [freeing, if_neg]
  rintro (hs | hr)
  · simp [pushed, hs] at hp
  · have hs := (hfits.sender_gone (by simp [receiverOpen, hr]) (by simp [receiverExited, hr])).1
    simp [pushed, hs, hr] at hp

theorem OpenFits.pushed_eq_false (h : OpenFits c.sender slot) (hopen : c.receiverOpen = true) :
    c.pushed = false := by
  have hexited := receiverExited_of_open hopen
  cases hs : c.sender with
  | gone => cases hr : c.receiver <;> simp_all [pushed, receiverOpen]
  | retire r => simp [hs, OpenFits] at h
  | _ => simp [pushed, hs]

theorem OpenFits.not_retiring (h : OpenFits c.sender slot) (hopen : c.receiverOpen = true) :
    ¬ c.retiring := by
  rintro (⟨r, hs⟩ | ⟨r, hr⟩)
  · simp [hs, OpenFits] at h
  · simp [receiverOpen, hr] at hopen

theorem Sound.move {c' : Channel T} {slot' : Slot T} (h : c.Sound slot) (hp : c.pushed = false)
    (hp' : c'.pushed = false) (hfits : c'.Fits slot') (hpassed : c'.passed = c.passed)
    (hledger : slot'.held + c'.received + c'.returned + c'.dropped =
      slot.held + c.received + c.returned + c.dropped)
    (hidle : c'.sender = .idle → c.sender = .idle) (hretires : c'.retires = c.retires)
    (hretiring : c'.retiring ↔ c.retiring) : c'.Sound slot' :=
  sound_of hp' hfits (by rw [hpassed, hledger, h.ledger_active hp])
    (fun hs => by rw [hpassed, h.fresh (hidle hs)]) (hpassed ▸ h.once)
    (by rw [hretires, hretiring]; exact h.retires_active hp)

theorem Sound.call {c' : Channel T} {slot' : Slot T} (h : c.Sound slot) (hp : c.pushed = false)
    (hp' : c'.pushed = false) (hfits : c'.Fits slot') (hpassed : c'.passed = c.passed)
    (hledger : slot'.held + c'.received + c'.returned + c'.dropped =
      slot.held + c.received + c.returned + c.dropped)
    (hidle : c'.sender ≠ .idle) (hretires : c'.retires = c.retires + 1)
    (hretiring : ¬ c.retiring) (hretiring' : c'.retiring) : c'.Sound slot' := by
  obtain ⟨hle, hone⟩ := h.retires_active hp
  have hzero : c.retires ≠ 1 := fun heq => hretiring (hone.mp heq)
  exact sound_of hp' hfits (by rw [hpassed, hledger, h.ledger_active hp])
    (fun hs => absurd hs hidle) (hpassed ▸ h.once)
    ⟨by omega, by simp only [hretiring', iff_true]; omega⟩

theorem Finished.pushed (h : c.Finished) : c.pushed = true := by
  obtain ⟨hs, hr | ⟨hr, hexited⟩⟩ := h
  · simp [Channel.pushed, hs, receiverExited, hr]
  · simp [Channel.pushed, hs, receiverExited, hr, hexited]

theorem Finished.staked (h : c.Finished) : c.staked = 0 := by
  have hp := h.pushed
  obtain ⟨hs, hr⟩ := h
  rcases hr with hr | ⟨hr, -⟩ <;> simp [Channel.staked, hp, hs, hr]

theorem Finished.freeing (h : c.Finished) : c.freeing = 0 := by
  obtain ⟨hs, hr | ⟨hr, -⟩⟩ := h <;> simp [Channel.freeing, hs, hr]

theorem finished_of (hstaked : c.staked = 0) (hfreeing : c.freeing = 0) :
    c.Finished := by
  obtain ⟨hp, hs, hr⟩ : c.pushed = true ∧ c.sender ≠ .retire .settle ∧
      c.receiver ≠ .retire .settle := by
    simpa [Channel.staked] using hstaked
  obtain ⟨hs', hr'⟩ : c.sender ≠ .retire .free ∧ c.receiver ≠ .retire .free := by
    simpa [Channel.freeing] using hfreeing
  have hgone : c.sender = .gone := by
    cases hc : c.sender with
    | gone => rfl
    | retire r => cases r <;> simp_all [Channel.pushed]
    | _ => simp [Channel.pushed, hc] at hp
  have hexited : c.receiverExited = true := by simpa [Channel.pushed, hgone, hr, hr'] using hp
  refine ⟨hgone, ?_⟩
  cases hc : c.receiver <;> simp_all [receiverExited]

/-! ### The receiver's steps -/

variable {receiver : Receiver} {done exited waitingSet : Bool}

theorem Sound.look {slot' : Slot T} (h : c.Sound slot) (hopen : c.receiverOpen = true)
    (hp : c.pushed = false)
    (hopen' : { c with receiver, done, exited, waitingSet }.receiverOpen = true)
    (hslot : slot'.value = slot.value ∧
      slot'.state = { slot.state with waiting := slot'.state.waiting }) :
    { c with receiver, done, exited, waitingSet }.pushed = false ∧
      { c with receiver, done, exited, waitingSet }.Sound slot' := by
  obtain ⟨hvalue, hstate⟩ := hslot
  have hfits := (fits_open_iff hopen).mp (h.fits hp)
  have hfits' : OpenFits c.sender slot' := by
    rw [show slot' = ⟨{ slot.state with waiting := slot'.state.waiting }, slot.value⟩ from
      congrArg₂ Slot.mk hstate hvalue]
    cases hs : c.sender <;> simp_all [OpenFits, Awaits]
  have hp' := OpenFits.pushed_eq_false (c := { c with receiver, done, exited, waitingSet })
    hfits' hopen'
  refine ⟨hp', h.move hp hp' ((fits_open_iff hopen').mpr hfits') rfl ?_ id rfl ?_⟩
  · simp [Slot.held, hvalue]
  · exact iff_of_false (OpenFits.not_retiring (c := { c with receiver, done, exited, waitingSet })
      hfits' hopen') (hfits.not_retiring hopen)

theorem Sound.sees_value (h : c.Sound slot) (hopen : c.receiverOpen = true)
    (hp : c.pushed = false) (hvalue : slot.state.value = true) :
    c.sender = .gone ∧ slot.value ≠ none := by
  have hfits := (fits_open_iff hopen).mp (h.fits hp)
  cases hs : c.sender <;> simp_all [OpenFits, Awaits]

theorem Sound.sees_gone (h : c.Sound slot) (hopen : c.receiverOpen = true)
    (hp : c.pushed = false) (hvalue : slot.state.value = false)
    (hgone : slot.state.senderGone = true) : c.sender = .gone ∧ slot.value = none := by
  have hfits := (fits_open_iff hopen).mp (h.fits hp)
  cases hs : c.sender <;> simp_all [OpenFits, Awaits]

theorem Sound.sees_nothing (h : c.Sound slot) (hopen : c.receiverOpen = true)
    (hp : c.pushed = false) (hvalue : slot.state.value = false)
    (hgone : slot.state.senderGone = false) :
    (c.sender = .idle ∨ c.sender = .close) ∧ slot.value = none ∨
      c.sender = .publish ∧ slot.value ≠ none := by
  have hfits := (fits_open_iff hopen).mp (h.fits hp)
  cases hs : c.sender <;> simp_all [OpenFits, Awaits]

theorem Sound.alone {c' : Channel T} {slot' : Slot T} (h : c.Sound slot) (hs : c.sender = .gone)
    (hp : c.pushed = false) (hr : ∀ r, c.receiver ≠ .retire r) (hs' : c'.sender = .gone)
    (hexited : c'.receiverExited = false) (hr' : ∀ r, c'.receiver ≠ .retire r)
    (hfits : c'.ReceiverFits slot') (hpassed : c'.passed = c.passed)
    (hledger : slot'.held + c'.received + c'.returned + c'.dropped =
      slot.held + c.received + c.returned + c.dropped)
    (hretires : c'.retires = c.retires) : c'.pushed = false ∧ c'.Sound slot' := by
  have hp' : c'.pushed = false := by simp [pushed, hs', hexited, hr']
  refine ⟨hp', h.move hp hp' (by simpa [Fits, hs'] using hfits) hpassed hledger
    (by simp [hs']) hretires ?_⟩
  simp [retiring, hs, hs', hr, hr']

theorem Sound.receiverRetires {slot' : Slot T} {dropped : Multiset T} (h : c.Sound slot)
    (hs : c.sender = .gone) (hp : c.pushed = false) (hr : ∀ r, c.receiver ≠ .retire r)
    (hnone : slot'.value = none)
    (hledger : c.received + c.returned + dropped =
      slot.held + c.received + c.returned + c.dropped) :
    { c with dropped, exited }.receiverRetires.pushed = false ∧
      { c with dropped, exited }.receiverRetires.Sound slot' := by
  have hp' : { c with dropped, exited }.receiverRetires.pushed = false := by
    simp [pushed, Channel.receiverRetires, hs, receiverExited]
  refine ⟨hp', h.call hp hp' ?_ rfl ?_ ?_ rfl ?_ ?_⟩
  · simp [Fits, Channel.receiverRetires, hs, ReceiverFits, hnone]
  · simpa [Channel.receiverRetires, Slot.held, hnone] using hledger
  · simp [Channel.receiverRetires, hs]
  · simp [retiring, hs, hr]
  · simp [retiring, Channel.receiverRetires]

theorem Sound.open_of (h : c.Sound slot) (hp : c.pushed = false)
    (hr : c.receiver = .tryLoad ∨ c.receiver = .pollLoad ∨ c.receiver = .announce ∨
      c.receiver = .pollAgain ∨ c.receiver = .closeLoad ∨ c.receiver = .closeOr false) :
    c.receiverOpen = true := by
  by_contra hopen
  have hexited : c.receiverExited = false := by
    rcases hr with hr | hr | hr | hr | hr | hr <;> simp [receiverExited, hr]
  have hfits := ((h.fits hp).sender_gone (by simpa using hopen) hexited).2
  rcases hr with hr | hr | hr | hr | hr | hr <;>
    simp [ReceiverFits, receiverOpen, hr] at hfits hopen <;> simp_all

theorem Sound.looking (h : c.Sound slot)
    (hr : c.receiver = .tryLoad ∨ c.receiver = .pollLoad ∨ c.receiver = .announce ∨
      c.receiver = .pollAgain) :
    c.receiverOpen = true ∧ c.pushed = false ∧ c.exited = false ∧ c.done = false := by
  have hexited : c.receiverExited = false := by
    rcases hr with hr | hr | hr | hr <;> simp [receiverExited, hr]
  have hp : c.pushed = false := by
    refine h.pushed_eq_false hexited ?_ ?_ <;>
    rcases hr with hr | hr | hr | hr <;> simp [hr]
  have hopen : c.receiverOpen = true := h.open_of hp <| by
    rcases hr with hr | hr | hr | hr <;> simp [hr]
  have hflags : c.exited = false ∧ c.done = false := by
    rcases hr with hr | hr | hr | hr <;> simpa [receiverOpen, hr] using hopen
  exact ⟨hopen, hp, hflags⟩

theorem Sound.left_alone (h : c.Sound slot) (hopen : c.receiverOpen = false)
    (hexited : c.receiverExited = false) (hr : ∀ r, c.receiver ≠ .retire r) :
    c.pushed = false ∧ c.sender = .gone ∧ c.ReceiverFits slot := by
  have hp := h.pushed_eq_false hexited (hr .settle) (hr .free)
  exact ⟨hp, (h.fits hp).sender_gone hopen hexited⟩

theorem Sound.sees {c₀ : Channel T} (h : c.Sound slot) (hopen : c.receiverOpen = true)
    (hp : c.pushed = false) (hexited : c.exited = false)
    (h₀ : c₀.pushed = false ∧ c₀.Sound slot) :
    (if slot.state.value then { c with receiver := .read }
      else if slot.state.senderGone then { c with receiver := .idle, done := true }
      else c₀).pushed = false ∧
    (if slot.state.value then { c with receiver := .read }
      else if slot.state.senderGone then { c with receiver := .idle, done := true }
      else c₀).Sound slot := by
  have hr : ∀ r, c.receiver ≠ .retire r := fun r hr => by simp [receiverOpen, hr] at hopen
  split_ifs with hvalue hgone
  · obtain ⟨hs, hcell⟩ := h.sees_value hopen hp hvalue
    exact h.alone hs hp hr hs rfl (by simp) ⟨hexited, hcell⟩ rfl rfl rfl
  · obtain ⟨hs, hcell⟩ := h.sees_gone hopen hp (by simpa using hvalue) hgone
    refine h.alone hs hp hr hs (by simpa [receiverExited] using hexited) (by simp) ?_ rfl rfl rfl
    simp [ReceiverFits, hexited, hcell]
  · exact h₀

theorem Sound.closeOr (h : c.Sound slot) (hr : c.receiver = .closeOr false)
    (hp : c.pushed = false) :
    (if slot.state.value then { c with receiver := .closeDropLate }
      else if slot.state.senderGone then c.receiverRetires else c.receiverExits).pushed = false ∧
    (if slot.state.value then { c with receiver := .closeDropLate }
      else if slot.state.senderGone then c.receiverRetires else c.receiverExits).Sound
        { slot with state := { slot.state with receiverGone := true } } := by
  have hopen : c.receiverOpen = true := by simp [receiverOpen, hr]
  have hr' : ∀ r, c.receiver ≠ .retire r := by simp [hr]
  split_ifs with hvalue hgone
  · obtain ⟨hs, hcell⟩ := h.sees_value hopen hp hvalue
    exact h.alone hs hp hr' hs rfl (by simp) hcell rfl rfl rfl
  · obtain ⟨hs, hcell⟩ := h.sees_gone hopen hp (by simpa using hvalue) hgone
    exact h.receiverRetires hs hp hr' hcell (by simp [Slot.held, hcell])
  · -- the sender is there, and finds `RECEIVER_GONE`
    have hexited : c.receiverExits.receiverExited = true := by
      cases he : c.exited <;> simp [receiverExits, receiverExited, he]
    have hretiring : c.receiverExits.retiring ↔ c.retiring := by
      cases he : c.exited <;> simp [retiring, receiverExits, hr, he]
    rcases h.sees_nothing hopen hp (by simpa using hvalue) (by simpa using hgone) with
      ⟨hs, hcell⟩ | ⟨hs, hcell⟩
    · have hp' : c.receiverExits.pushed = false := by
        rcases hs with hs | hs <;> simp [pushed, receiverExits, hs]
      refine ⟨hp', h.move hp hp' ?_ rfl rfl id rfl hretiring⟩
      rcases hs with hs | hs <;>
        simp_all [Fits, Faces, receiverExits]
    · have hp' : c.receiverExits.pushed = false := by simp [pushed, receiverExits, hs]
      refine ⟨hp', h.move hp hp' ?_ rfl rfl id rfl hretiring⟩
      simp_all [Fits, Faces, receiverExits]

/-! ### The sender's steps -/

theorem Sound.send (h : c.Sound slot) (hs : c.sender = .idle) (value : T) :
    { c with sender := .publish, passed := value ::ₘ c.passed }.Sound
      { slot with value := some value } := by
  have hp : c.pushed = false := by simp [pushed, hs]
  have hfits := h.fits hp
  have hledger := h.ledger_active hp
  have hretires := h.retires_active hp
  simp only [Fits, hs] at hfits
  obtain ⟨hvalue, hgone, hnone, hfaces⟩ := hfits
  refine sound_of (by simp [pushed]) ?_ ?_ (by simp) (by simp [h.fresh hs]) ?_
  · simpa [Fits, hvalue, hgone, Faces, receiverExited, receiverOpen] using hfaces
  · rw [hledger]
    simp [Slot.held, hnone]
  · simpa [retiring, hs] using hretires

theorem Sound.dropSender (h : c.Sound slot) (hs : c.sender = .idle) :
    { c with sender := .close }.Sound slot := by
  have hp : c.pushed = false := by simp [pushed, hs]
  have hfits := h.fits hp
  refine h.move hp (by simp [pushed]) ?_ rfl rfl (by simp) rfl (by simp [retiring, hs])
  simpa [Fits, hs, Faces, receiverExited, receiverOpen] using hfits

theorem Sound.leaves {slot' : Slot T} (h : c.Sound slot) (hs : c.sender = .publish ∨ c.sender = .close)
    (hopen : c.receiverOpen = true) (hvalue : slot'.value = slot.value) (hawaits : Awaits slot') :
    { c with sender := .gone }.pushed = false ∧ { c with sender := .gone }.Sound slot' := by
  have hp : c.pushed = false := by
    rcases hs with hs | hs <;> simp [pushed, hs]
  have hopen' : { c with sender := .gone }.receiverOpen = true := hopen
  have hp' := OpenFits.pushed_eq_false (c := { c with sender := .gone }) hawaits hopen'
  refine ⟨hp', h.move hp hp' ((fits_open_iff hopen').mpr hawaits) rfl ?_ (by simp) rfl ?_⟩
  · simp [Slot.held, hvalue]
  · rcases hs with hs | hs <;> simp [retiring, hs]

theorem Sound.publish (h : c.Sound slot) (hs : c.sender = .publish) :
    { c with sender := if slot.state.receiverGone then .readBack else .gone }.pushed = false ∧
      { c with sender := if slot.state.receiverGone then .readBack else .gone }.Sound
        { slot with state := { slot.state with value := true } } := by
  have hp : c.pushed = false := by simp [pushed, hs]
  have hfits := h.fits hp
  simp only [Fits, hs, Faces] at hfits
  obtain ⟨-, -, hcell, hfaces⟩ := hfits
  split_ifs at hfaces ⊢ with hgone
  · refine ⟨by simp [pushed], h.move hp (by simp [pushed]) ?_ rfl rfl (by simp) rfl ?_⟩
    · exact ⟨hcell, hfaces⟩
    · simp [retiring, hs]
  · exact h.leaves (.inl hs) hfaces rfl (by simpa [Awaits] using hcell)

theorem Sound.close (h : c.Sound slot) (hs : c.sender = .close) :
    (if slot.state.receiverGone then c.senderRetires else { c with sender := .gone }).pushed = false ∧
      (if slot.state.receiverGone then c.senderRetires else { c with sender := .gone }).Sound
        { slot with state := { slot.state with senderGone := true } } := by
  have hp : c.pushed = false := by simp [pushed, hs]
  have hfits := h.fits hp
  simp only [Fits, hs, Faces] at hfits
  obtain ⟨hvalue, -, hcell, hfaces⟩ := hfits
  split_ifs at hfaces ⊢ with hgone
  · have hp' : c.senderRetires.pushed = false := by simp [pushed, senderRetires]
    refine ⟨hp', h.call hp hp' ?_ rfl rfl (by simp [senderRetires]) rfl ?_ ?_⟩
    · exact ⟨hcell, hfaces⟩
    · cases hr : c.receiver <;> simp_all [retiring, receiverExited]
    · simp [retiring, senderRetires]
  · exact h.leaves (.inr hs) hfaces rfl (by simp [Awaits, hvalue, hcell])

theorem Sound.readBack (h : c.Sound slot) (hs : c.sender = .readBack) :
    { c with returned := slot.held + c.returned }.senderRetires.pushed = false ∧
      { c with returned := slot.held + c.returned }.senderRetires.Sound slot.take := by
  have hp : c.pushed = false := by simp [pushed, hs]
  have hfits := h.fits hp
  simp only [Fits, hs] at hfits
  obtain ⟨-, hexited⟩ := hfits
  have hp' : { c with returned := slot.held + c.returned }.senderRetires.pushed = false := by
    simp [pushed, senderRetires]
  refine ⟨hp', h.call hp hp' ?_ rfl ?_ (by simp [senderRetires]) rfl ?_ ?_⟩
  · exact ⟨rfl, hexited⟩
  · simp only [senderRetires, Slot.take, Slot.held, zero_add]
    ac_rfl
  · cases hr : c.receiver <;> simp_all [retiring, receiverExited]
  · simp [retiring, senderRetires]

/-! ### The recycler -/

/-- The points of a handle in `retire`: `move r` before the access `r`, and `exits` at its end. -/
structure Recycles (move : Retire → Channel T) (exits : Channel T) : Prop where
  idx : ∀ r, (move r).idx = exits.idx
  pushed : ∀ r, (move r).pushed = true ↔ r = .settle ∨ r = .free
  pushed_exits : exits.pushed = true
  reset : ∀ slot, (move .reset).Fits slot ↔ slot.value = none
  push : ∀ slot, (move .push).Fits slot ↔ slot = .new
  staked : ∀ r, (move r).staked = if r = .free then 0 else 1
  staked_exits : exits.staked = 0
  freeing : ∀ r, (move r).freeing = if r = .free then 1 else 0
  freeing_exits : exits.freeing = 0
  last : ∀ r, (move r).sender = .gone ∨ (move r).receiverExited = true
  last_exits : exits.sender = .gone
  idle : ∀ r, (move r).sender ≠ .idle
  retiring : ∀ r, (move r).retiring
  ledger : ∀ r, (move r).passed = exits.passed ∧ (move r).received = exits.received ∧
    (move r).returned = exits.returned ∧ (move r).dropped = exits.dropped ∧
    (move r).retires = exits.retires

theorem recycles_sender (hexited : c.receiverExited = true) :
    Recycles (fun r => { c with sender := .retire r }) { c with sender := .gone } where
  idx := fun _ => rfl
  pushed := fun r => by cases r <;> simp [Channel.pushed]
  pushed_exits := by simpa [Channel.pushed, receiverExited] using .inl (.inl hexited)
  reset := fun slot => by simpa [Fits, receiverExited] using fun _ => hexited
  push := fun slot => by simpa [Fits, receiverExited] using fun _ => hexited
  staked := fun r => by
    cases hr : c.receiver <;> cases r <;> simp_all [Channel.staked, Channel.pushed, receiverExited]
  staked_exits := by
    cases hr : c.receiver <;> simp_all [Channel.staked, Channel.pushed, receiverExited]
  freeing := fun r => by
    cases hr : c.receiver <;> cases r <;> simp_all [Channel.freeing, receiverExited]
  freeing_exits := by
    cases hr : c.receiver <;> simp_all [Channel.freeing, receiverExited]
  last := fun _ => .inr hexited
  last_exits := rfl
  idle := fun _ => by simp
  retiring := fun r => .inl ⟨r, rfl⟩
  ledger := fun _ => ⟨rfl, rfl, rfl, rfl, rfl⟩

theorem recycles_receiver (hs : c.sender = .gone) :
    Recycles (fun r => { c with receiver := .retire r }) c.receiverExits where
  idx := fun _ => rfl
  pushed := fun r => by cases r <;> simp [Channel.pushed, hs, receiverExited]
  pushed_exits := by cases he : c.exited <;> simp [Channel.pushed, receiverExits, receiverExited, hs, he]
  reset := fun slot => by simp [Fits, ReceiverFits, hs]
  push := fun slot => by simp [Fits, ReceiverFits, hs]
  staked := fun r => by cases r <;> simp [Channel.staked, Channel.pushed, hs, receiverExited]
  staked_exits := by
    cases he : c.exited <;> simp [Channel.staked, Channel.pushed, receiverExits, receiverExited, hs, he]
  freeing := fun r => by cases r <;> simp [Channel.freeing, hs]
  freeing_exits := by cases he : c.exited <;> simp [Channel.freeing, receiverExits, hs, he]
  last := fun _ => .inl hs
  last_exits := hs
  idle := fun _ => by simp [hs]
  retiring := fun r => .inr ⟨r, rfl⟩
  ledger := fun _ => ⟨rfl, rfl, rfl, rfl, rfl⟩

variable {move : Retire → Channel T} {exits : Channel T} {r r' : Retire} {slot' : Slot T}

theorem Recycles.accounts (hrec : Recycles move exits) (h : (move r).Sound slot)
    (hnone : (move r).pushed = false → slot.value = none) :
    exits.passed = exits.received + exits.returned + exits.dropped ∧ exits.passed.card ≤ 1 ∧
      exits.retires = 1 := by
  obtain ⟨hpassed, hreceived, hreturned, hdropped, hretires⟩ := hrec.ledger r
  refine ⟨?_, hpassed ▸ h.once, ?_⟩
  · have hledger := h.ledger
    have hheld : (if (move r).pushed then 0 else slot.held) = 0 := by
      split_ifs with hp
      · rfl
      · simp [Slot.held, hnone (by simpa using hp)]
    rwa [hheld, zero_add, hpassed, hreceived, hreturned, hdropped] at hledger
  · rw [← hretires]
    exact h.retires.2.mpr (.inr (hrec.retiring r))

theorem Recycles.sound_move (hrec : Recycles move exits) (h : (move r).Sound slot)
    (hnone : (move r).pushed = false → slot.value = none)
    (hfits : (move r').pushed = false → (move r').Fits slot' ∧ slot'.value = none) :
    (move r').Sound slot' := by
  obtain ⟨hpassed, honce, hone⟩ := hrec.accounts h hnone
  obtain ⟨hpassed', hreceived, hreturned, hdropped, hretires⟩ := hrec.ledger r'
  refine ⟨fun hp => (hfits hp).1, fun _ => hrec.last r', ?_, fun hs => absurd hs (hrec.idle r'),
    hpassed' ▸ honce, ?_⟩
  · have hheld : (if (move r').pushed then 0 else slot'.held) = 0 := by
      split_ifs with hp
      · rfl
      · simp [Slot.held, (hfits (by simpa using hp)).2]
    rw [hheld, zero_add, hpassed', hreceived, hreturned, hdropped, hpassed]
  · simp [hretires, hone, hrec.retiring r']

theorem Recycles.sound_exits (hrec : Recycles move exits) (h : (move r).Sound slot)
    (hp : (move r).pushed = true) : exits.Sound slot' := by
  obtain ⟨hpassed, honce, hone⟩ := hrec.accounts h fun hp' => by simp [hp] at hp'
  refine ⟨fun hp' => ?_, fun _ => .inl hrec.last_exits, ?_, fun hs => ?_, honce, ?_⟩
  · simp [hrec.pushed_exits] at hp'
  · simpa [hrec.pushed_exits] using hpassed
  · simp [hrec.last_exits] at hs
  · simp [hone, hrec.pushed_exits]

end Channel

namespace System

variable {s t : System T} {c c' : Channel T} {slot : Slot T} {i : ℕ}

/-- What the pool promises. -/
structure Retired (s : System T) : Prop where
  /-- every slot is free, handed out, or of one channel -/
  slots : s.free + (s.pairs.flatten : Multiset ℕ) + gather Channel.holds s.channels =
    Multiset.range s.capacity
  /-- a slot is retired once for each use -/
  retires : ∀ c ∈ s.channels, c.retires ≤ 1 ∧ (c.Finished → c.retires = 1 ∧ c.pushed = true)
  /-- a channel has at most one value, and it is received, handed back or dropped once -/
  values : ∀ c ∈ s.channels, c.passed.card ≤ 1 ∧
    c.received + c.returned + c.dropped ≤ c.passed ∧
    (c.Finished → c.passed = c.received + c.returned + c.dropped)
  /-- the storage is freed once, after the pool was dropped and every slot retired -/
  freed : s.frees ≤ 1 ∧
    (s.frees = 1 → s.handle = .dropped ∧ s.pairs = [] ∧
      ∀ c ∈ s.channels, c.Finished ∧ c.retires = 1)
  /-- it is freed when the pool was dropped and all handles finished -/
  frees : s.handle = .dropped → (∀ c ∈ s.channels, c.Finished) → s.frees = 1
  /-- no cell is read uninitialized or overwritten, and nothing is accessed after it was freed -/
  fault : s.fault = false

/-- The invariant. -/
structure Inv (s : System T) : Prop where
  slots : s.free + (s.pairs.flatten : Multiset ℕ) + gather Channel.holds s.channels =
    Multiset.range s.capacity
  spare : ∀ idx ∈ s.free + (s.pairs.flatten : Multiset ℕ), s.slots idx = .new
  channels : ∀ (i : ℕ) (c : Channel T), s.channels[i]? = some c → c.Sound (s.slots c.idx)
  stakes : s.lifecycle.stakes = weigh Channel.staked s.channels
  closed : s.lifecycle.closed = true ↔ s.handle ≠ .alive
  borrowed : s.handle ≠ .alive → s.pairs = []
  frees : s.frees + (if s.handle = .freeing then 1 else 0) + weigh Channel.freeing s.channels =
    if s.lifecycle.closed = true ∧ s.lifecycle.stakes = 0 then 1 else 0
  fault : s.fault = false

theorem inv_new (capacity : ℕ) : (new capacity : System T).Inv where
  slots := by simp [new]
  spare := fun _ _ => rfl
  channels := fun i c hi => by simp [new] at hi
  stakes := rfl
  closed := by simp [new]
  borrowed := fun _ => rfl
  frees := rfl
  fault := rfl

theorem Inv.unique (h : s.Inv) {j : ℕ} (hi : s.channels[i]? = some c)
    (hj : s.channels[j]? = some c') (hp : c.pushed = false) (hp' : c'.pushed = false)
    (hidx : c'.idx = c.idx) : j = i := by
  have hnodup : (gather Channel.holds s.channels).Nodup :=
    (Multiset.nodup_add.mp (h.slots ▸ Multiset.nodup_range _)).2.1
  refine unique_of_nodup_gather hnodup hj hi (x := c.idx) ?_ ?_
  · simp [Channel.holds, hp', hidx]
  · simp [Channel.holds, hp]

theorem Inv.not_spare (h : s.Inv) (hi : s.channels[i]? = some c) (hp : c.pushed = false) :
    c.idx ∉ s.free + (s.pairs.flatten : Multiset ℕ) := by
  have hdisjoint := (Multiset.nodup_add.mp (h.slots ▸ Multiset.nodup_range _)).2.2
  refine Multiset.disjoint_right.mp hdisjoint (mem_gather hi ?_)
  simp [Channel.holds, hp]

/-- What one step of a channel has to keep: it touches its own slot while it has it, gives it back
as new, and stakes and frees are counted. -/
theorem Inv.change (h : s.Inv) (hi : s.channels[i]? = some c) (hidx' : c'.idx = c.idx)
    (hchannels : t.channels = s.channels.set i c')
    (hframe : t.capacity = s.capacity ∧ t.pairs = s.pairs ∧ t.handle = s.handle ∧
      t.lifecycle.closed = s.lifecycle.closed)
    (hslots : ∀ idx, (idx = c.idx → c.pushed = true) → t.slots idx = s.slots idx)
    (hfree : t.free + c'.holds = s.free + c.holds)
    (hnew : c.pushed = false → c'.pushed = true → t.slots c.idx = .new)
    (hsound : c'.Sound (t.slots c.idx))
    (hstakes : t.lifecycle.stakes + c.staked = s.lifecycle.stakes + c'.staked)
    (hfrees : t.frees + c'.freeing +
        (if s.lifecycle.closed = true ∧ s.lifecycle.stakes = 0 then 1 else 0) =
      s.frees + c.freeing +
        (if s.lifecycle.closed = true ∧ t.lifecycle.stakes = 0 then 1 else 0))
    (hfault : t.fault = false) : t.Inv := by
  obtain ⟨hcapacity, hpairs, hhandle, hclosed⟩ := hframe
  have hholds := gather_set Channel.holds hi c'
  have hstaked := weigh_set Channel.staked hi c'
  have hfreeing := weigh_set Channel.freeing hi c'
  exact {
    slots := by
      rw [hcapacity, hpairs, hchannels, ← h.slots]
      refine add_right_cancel (b := c.holds) ?_
      calc t.free + (s.pairs.flatten : Multiset ℕ) +
            gather Channel.holds (s.channels.set i c') + c.holds
          = (t.free + c'.holds) + (s.pairs.flatten : Multiset ℕ) +
              gather Channel.holds s.channels := by
            rw [add_assoc, hholds]
            ac_rfl
        _ = s.free + (s.pairs.flatten : Multiset ℕ) + gather Channel.holds s.channels +
              c.holds := by
            rw [hfree]
            ac_rfl
    spare := by
      intro idx hidx
      rw [hpairs] at hidx
      by_cases hown : idx = c.idx → c.pushed = true
      · -- the slot was not of the channel: it was spare before
        have hspare : idx ∈ s.free + (s.pairs.flatten : Multiset ℕ) := by
          rcases Multiset.mem_add.mp hidx with hmem | hmem
          · have hmem' : idx ∈ s.free + c.holds := hfree ▸ Multiset.mem_add.mpr (.inl hmem)
            rcases Multiset.mem_add.mp hmem' with hmem' | hmem'
            · exact Multiset.mem_add.mpr (.inl hmem')
            · simp only [Channel.holds] at hmem'
              split_ifs at hmem' with hp
              · simp at hmem'
              · exact absurd (hown (Multiset.mem_singleton.mp hmem')) hp
          · exact Multiset.mem_add.mpr (.inr hmem)
        rw [hslots idx hown]
        exact h.spare idx hspare
      · obtain ⟨rfl, hp⟩ := Classical.not_imp.mp hown
        have hp : c.pushed = false := by simpa using hp
        refine hnew hp ?_
        by_contra hp'
        have hsame : c'.holds = c.holds := by simp [Channel.holds, hp, hp', hidx']
        rw [hsame, add_left_inj] at hfree
        exact h.not_spare hi hp (hfree ▸ hidx)
    channels := by
      intro j d hj
      rw [hchannels, List.getElem?_set] at hj
      split_ifs at hj with hij hlt
      · obtain rfl := Option.some.inj hj
        rw [hidx']
        exact hsound
      · have hd := h.channels j d hj
        by_cases hp : d.pushed = true
        · exact hd.of_pushed hp
        · rw [hslots]
          · exact hd
          · intro heq
            by_contra hpc
            exact hij (h.unique hi hj (by simpa using hpc) (by simpa using hp) heq).symm
    stakes := by
      have := h.stakes
      rw [hchannels]
      omega
    closed := by rw [hclosed, hhandle, h.closed]
    borrowed := by
      rw [hhandle, hpairs]
      exact h.borrowed
    frees := by
      have := h.frees
      rw [hchannels, hhandle, hclosed]
      omega
    fault := hfault }

theorem Inv.frees_eq_zero (h : s.Inv) (hi : s.channels[i]? = some c) (hstaked : c.staked = 1) :
    s.frees = 0 := by
  have hstakes := h.stakes
  have hle := le_weigh Channel.staked hi
  have hfrees := h.frees
  have hopen : ¬ (s.lifecycle.closed = true ∧ s.lifecycle.stakes = 0) := by omega
  rw [if_neg hopen] at hfrees
  omega

theorem Inv.access_ok (h : s.Inv) (hi : s.channels[i]? = some c) (hstaked : c.staked = 1) :
    (s.fault || decide (0 < s.frees)) = false := by
  simp [h.fault, h.frees_eq_zero hi hstaked]

theorem expect_eq (h : slot.value ≠ none) : s.expect slot = s := by
  have hsome : slot.value.isNone = false := by
    cases hv : slot.value <;> simp_all
  simp [expect, hsome]

theorem Inv.put (h : s.Inv) (hi : s.channels[i]? = some c) (hp : c.pushed = false)
    (hidx : c'.idx = c.idx) (hsound : c'.pushed = false ∧ c'.Sound slot) :
    (s.put i c' slot).Inv := by
  have hstaked : ∀ d : Channel T, d.pushed = false → d.staked = 1 := fun d hd => by
    simp [Channel.staked, hd]
  have hslot : (s.put i c' slot).slots c.idx = slot := by simp [System.put, hidx]
  refine h.change hi hidx rfl ⟨rfl, rfl, rfl, rfl⟩ (fun idx hne => ?_) ?_ (fun _ hp' => ?_) ?_ ?_ ?_
    (h.access_ok hi (hstaked c hp))
  · refine update_of_ne (fun heq => ?_) _ _
    have := hne (heq.trans hidx)
    simp [hp] at this
  · simp [System.put, Channel.holds, hp, hsound.1, hidx]
  · simp [hsound.1] at hp'
  · rw [hslot]
    exact hsound.2
  · rw [hstaked c hp, hstaked c' hsound.1]
    rfl
  · rw [(h.channels i c hi).freeing_eq_zero hp, hsound.2.freeing_eq_zero hsound.1]
    rfl

theorem Inv.setChannel (h : s.Inv) (hi : s.channels[i]? = some c) (hidx : c'.idx = c.idx)
    (hp : c'.pushed = c.pushed) (hsound : c'.Sound (s.slots c.idx))
    (hstaked : c'.staked = c.staked) (hfreeing : c'.freeing = c.freeing) :
    (s.setChannel i c').Inv := by
  refine h.change hi hidx rfl ⟨rfl, rfl, rfl, rfl⟩ (fun _ _ => rfl) ?_ (fun hp' hp'' => ?_) hsound ?_
    ?_ h.fault
  · simp [System.setChannel, Channel.holds, hp, hidx]
  · rw [hp, hp'] at hp''
    cases hp''
  · rw [hstaked]
    rfl
  · rw [hfreeing]
    rfl

theorem Inv.setActive (h : s.Inv) (hi : s.channels[i]? = some c) (hp : c.pushed = false)
    (hidx : c'.idx = c.idx) (hsound : c'.pushed = false ∧ c'.Sound (s.slots c.idx)) :
    (s.setChannel i c').Inv := by
  refine h.setChannel hi hidx (by rw [hp, hsound.1]) hsound.2 ?_ ?_
  · simp [Channel.staked, hp, hsound.1]
  · rw [(h.channels i c hi).freeing_eq_zero hp, hsound.2.freeing_eq_zero hsound.1]

theorem Inv.recycle (h : s.Inv) (hi : s.channels[i]? = some c) (hidx : c'.idx = c.idx)
    (hchannels : t.channels = s.channels.set i c')
    (hframe : t.capacity = s.capacity ∧ t.pairs = s.pairs ∧ t.handle = s.handle ∧
      t.lifecycle.closed = s.lifecycle.closed) (hslots : t.slots = s.slots)
    (hfree : t.free + c'.holds = s.free + c.holds) (hnew : c.pushed = false → s.slots c.idx = .new)
    (hsound : ∀ slot : Slot T, c'.Sound slot)
    (hstakes : t.lifecycle.stakes + c.staked = s.lifecycle.stakes + c'.staked)
    (hfrees : t.frees + c'.freeing +
        (if s.lifecycle.closed = true ∧ s.lifecycle.stakes = 0 then 1 else 0) =
      s.frees + c.freeing +
        (if s.lifecycle.closed = true ∧ t.lifecycle.stakes = 0 then 1 else 0))
    (hfault : t.fault = false) : t.Inv := by
  refine h.change hi hidx hchannels hframe (fun _ _ => by rw [hslots]) hfree (fun hp _ => ?_)
    (hsound _) hstakes hfrees hfault
  rw [hslots]
  exact hnew hp

theorem Inv.retire {move : Retire → Channel T} {exits : Channel T} {r : Retire} (h : s.Inv)
    (hrec : Channel.Recycles move exits) (hi : s.channels[i]? = some (move r)) :
    (s.retire i (move r) move exits r).Inv := by
  have hsound := h.channels i _ hi
  have hidx : ∀ r', (move r').idx = (move r).idx := fun r' => (hrec.idx r').trans (hrec.idx r).symm
  have hexits : exits.idx = (move r).idx := (hrec.idx r).symm
  cases r with
  | reset =>
    have hp : (move .reset).pushed = false := by simpa using mt (hrec.pushed .reset).mp (by simp)
    have hp' : (move .push).pushed = false := by simpa using mt (hrec.pushed .push).mp (by simp)
    have hnone := (hrec.reset _).mp (hsound.fits hp)
    have hslot : ({ s.slots (move .reset).idx with state := .clear } : Slot T) = .new := by
      simp [Slot.new, hnone]
    refine h.put hi hp (hidx .push) ⟨hp', hrec.sound_move hsound (fun _ => hnone) fun _ => ?_⟩
    rw [hslot]
    exact ⟨(hrec.push _).mpr rfl, rfl⟩
  | push =>
    have hp : (move .push).pushed = false := by simpa using mt (hrec.pushed .push).mp (by simp)
    have hp' : (move .settle).pushed = true := (hrec.pushed .settle).mpr (.inl rfl)
    have hnew := (hrec.push _).mp (hsound.fits hp)
    refine h.recycle hi (hidx .settle) rfl ⟨rfl, rfl, rfl, rfl⟩ ?_ ?_ (fun _ => hnew) (fun slot => ?_)
      ?_ ?_ ?_
    · simp [System.retire, System.put, hidx .settle]
    · simp only [System.retire, System.put, Channel.holds, hp, hp', if_true, add_zero,
        Bool.false_eq_true, if_false]
      rw [add_comm, Multiset.singleton_add]
    · exact hrec.sound_move hsound (fun _ => by rw [hnew]; rfl) fun hp'' => by simp [hp'] at hp''
    · rw [hrec.staked, hrec.staked]
      rfl
    · rw [hrec.freeing, hrec.freeing]
      rfl
    · exact h.access_ok hi (hrec.staked .push)
  | settle =>
    have hp : (move .settle).pushed = true := (hrec.pushed .settle).mpr (.inl rfl)
    have hp' : (move .free).pushed = true := (hrec.pushed .free).mpr (.inr rfl)
    have hstaked := hrec.staked .settle
    have hpositive : 0 < s.lifecycle.stakes := by
      have hstakes := h.stakes
      have hle := le_weigh Channel.staked hi
      simp only [reduceCtorEq, if_false] at hstaked
      omega
    have hholds : ∀ d : Channel T, d.pushed = true → d.holds = 0 := fun d hd => by
      simp [Channel.holds, hd]
    simp only [System.retire]
    split_ifs with hlast
    · refine h.recycle hi (hidx .free) rfl ⟨rfl, rfl, rfl, rfl⟩ ?_ ?_ (fun hp'' => ?_) (fun slot => ?_)
        ?_ ?_ ?_
      · simp [System.put, hidx .free]
      · rw [hholds _ hp, hholds _ hp']
        rfl
      · simp [hp] at hp''
      · exact hrec.sound_move hsound (fun hp'' => by simp [hp] at hp'') fun hp'' => by
          simp [hp'] at hp''
      · rw [hrec.staked, hrec.staked]
        simp only [System.put, Lifecycle.settle, reduceCtorEq, if_false, if_true]
        omega
      · rw [hrec.freeing, hrec.freeing]
        simp [System.put, Lifecycle.settle, hlast]
      · exact h.access_ok hi (hrec.staked .settle)
    · refine h.recycle hi hexits rfl ⟨rfl, rfl, rfl, rfl⟩ ?_ ?_ (fun hp'' => ?_) (fun slot => ?_)
        ?_ ?_ ?_
      · simp [System.put, hexits]
      · rw [hholds _ hp, hholds _ hrec.pushed_exits]
        rfl
      · simp [hp] at hp''
      · exact hrec.sound_exits hsound hp
      · rw [hrec.staked, hrec.staked_exits]
        simp only [System.put, Lifecycle.settle, reduceCtorEq, if_false]
        omega
      · rw [hrec.freeing, hrec.freeing_exits]
        have hnot : ¬ (s.lifecycle.closed = true ∧ s.lifecycle.stakes = 0) := by omega
        have hnot' : ¬ (s.lifecycle.closed = true ∧ s.lifecycle.stakes - 1 = 0) := fun hor =>
          hlast ⟨by omega, hor.1⟩
        simp [System.put, Lifecycle.settle, hnot, hnot']
      · exact h.access_ok hi (hrec.staked .settle)
  | free =>
    have hp : (move .free).pushed = true := (hrec.pushed .free).mpr (.inr rfl)
    have hholds : ∀ d : Channel T, d.pushed = true → d.holds = 0 := fun d hd => by
      simp [Channel.holds, hd]
    refine h.recycle hi hexits rfl ⟨rfl, rfl, rfl, rfl⟩ rfl ?_ (fun hp'' => ?_) (fun slot => ?_)
      ?_ ?_ h.fault
    · rw [hholds _ hp, hholds _ hrec.pushed_exits]
      rfl
    · simp [hp] at hp''
    · exact hrec.sound_exits hsound hp
    · rw [hrec.staked, hrec.staked_exits]
      rfl
    · rw [hrec.freeing, hrec.freeing_exits]
      rfl

theorem Inv.senderAccess (h : s.Inv) (hi : s.channels[i]? = some c) :
    (s.senderAccess i c).Inv := by
  have hsound := h.channels i c hi
  cases hs : c.sender with
  | idle | gone => simpa [System.senderAccess, hs] using h
  | publish =>
    simp only [System.senderAccess, hs]
    exact h.put hi (by simp [Channel.pushed, hs]) rfl (hsound.publish hs)
  | readBack =>
    have hp : c.pushed = false := by simp [Channel.pushed, hs]
    have hcell : (s.slots c.idx).value ≠ none := by
      have hfits := hsound.fits hp
      simp only [Channel.Fits, hs] at hfits
      exact hfits.1
    simp only [System.senderAccess, hs, expect_eq hcell]
    exact h.put hi hp rfl (hsound.readBack hs)
  | close =>
    simp only [System.senderAccess, hs]
    refine h.put hi (by simp [Channel.pushed, hs]) ?_ (hsound.close hs)
    split_ifs <;> rfl
  | retire r =>
    have hexited : c.receiverExited = true := by
      by_cases hp : c.pushed = true
      · exact (hsound.last hp).resolve_left (by simp [hs])
      · have hfits := hsound.fits (by simpa using hp)
        cases r <;> simp [Channel.Fits, hs] at hfits <;> exact hfits.2
    have hc : c = { c with sender := .retire r } := by rw [← hs]
    simp only [System.senderAccess, hs]
    exact h.retire (Channel.recycles_sender hexited) (hc ▸ hi)

theorem Inv.receiverAccess (h : s.Inv) (hi : s.channels[i]? = some c) :
    (s.receiverAccess i c).Inv := by
  have hsound := h.channels i c hi
  cases hr : c.receiver with
  | idle | gone => simpa [System.receiverAccess, hr] using h
  | tryLoad =>
    obtain ⟨hopen, hp, hflags⟩ := hsound.looking (by simp [hr])
    simp only [System.receiverAccess, hr]
    refine h.put hi hp (by split_ifs <;> rfl) (hsound.sees hopen hp hflags.1 ?_)
    exact hsound.look hopen hp (by simp [Channel.receiverOpen, hflags]) ⟨rfl, rfl⟩
  | read =>
    obtain ⟨hp, hs, hfits⟩ := hsound.left_alone (by simp [Channel.receiverOpen, hr])
      (by simp [Channel.receiverExited, hr]) (by simp [hr])
    simp only [Channel.ReceiverFits, hr] at hfits
    simp only [System.receiverAccess, hr, expect_eq hfits.2]
    refine h.put hi hp rfl (hsound.alone hs hp (by simp [hr]) hs ?_ (by simp) ?_ rfl ?_ rfl)
    · simpa [Channel.receiverExited] using hfits.1
    · simp [Channel.ReceiverFits, hfits.1, Slot.take]
    · simp only [Slot.take, Slot.held, zero_add]
  | pollLoad =>
    obtain ⟨hopen, hp, hflags⟩ := hsound.looking (by simp [hr])
    simp only [System.receiverAccess, hr]
    refine h.put hi hp (by split_ifs <;> rfl) (hsound.sees hopen hp hflags.1 ?_)
    split_ifs
    · exact hsound.look hopen hp (by simp [Channel.receiverOpen, hflags]) ⟨rfl, rfl⟩
    · exact hsound.look hopen hp (by simp [Channel.receiverOpen, hflags]) ⟨rfl, rfl⟩
  | announce =>
    obtain ⟨hopen, hp, hflags⟩ := hsound.looking (by simp [hr])
    simp only [System.receiverAccess, hr]
    exact h.put hi hp rfl
      (hsound.look hopen hp (by simp [Channel.receiverOpen, hflags]) ⟨rfl, rfl⟩)
  | pollAgain =>
    obtain ⟨hopen, hp, hflags⟩ := hsound.looking (by simp [hr])
    simp only [System.receiverAccess, hr]
    refine h.put hi hp (by split_ifs <;> rfl) (hsound.sees hopen hp hflags.1 ?_)
    exact hsound.look hopen hp (by simp [Channel.receiverOpen, hflags]) ⟨rfl, rfl⟩
  | closeLoad =>
    have hp := hsound.pushed_eq_false (by simp [Channel.receiverExited, hr]) (by simp [hr])
      (by simp [hr])
    have hopen := hsound.open_of hp (by simp [hr])
    simp only [System.receiverAccess, hr]
    refine h.put hi hp rfl ?_
    split_ifs with hvalue
    · obtain ⟨hs, hcell⟩ := hsound.sees_value hopen hp hvalue
      exact hsound.alone hs hp (by simp [hr]) hs rfl (by simp) ⟨hvalue, hcell⟩ rfl rfl rfl
    · exact hsound.look hopen hp (by simp [Channel.receiverOpen]) ⟨rfl, rfl⟩
  | closeDrop =>
    obtain ⟨hp, hs, hfits⟩ := hsound.left_alone (by simp [Channel.receiverOpen, hr])
      (by simp [Channel.receiverExited, hr]) (by simp [hr])
    simp only [Channel.ReceiverFits, hr] at hfits
    simp only [System.receiverAccess, hr, expect_eq hfits.2]
    refine h.put hi hp rfl (hsound.alone hs hp (by simp [hr]) hs rfl (by simp) ?_ rfl ?_ rfl)
    · exact ⟨hfits.1, rfl⟩
    · simp only [Slot.take, Slot.held, zero_add]
      ac_rfl
  | closeOr saw =>
    simp only [System.receiverAccess, hr]
    cases saw with
    | false =>
      have hp := hsound.pushed_eq_false (by simp [Channel.receiverExited, hr]) (by simp [hr])
        (by simp [hr])
      have hclose := hsound.closeOr hr hp
      simp only [and_true]
      cases hvalue : (s.slots c.idx).state.value with
      | true =>
        simp only [hvalue, if_true] at hclose ⊢
        exact h.put hi hp rfl hclose
      | false =>
        simp only [hvalue, Bool.false_eq_true, if_false, false_or] at hclose ⊢
        refine h.put hi hp ?_ hclose
        split_ifs <;> rfl
    | true =>
      obtain ⟨hp, hs, hfits⟩ := hsound.left_alone (by simp [Channel.receiverOpen, hr])
        (by simp [Channel.receiverExited, hr]) (by simp [hr])
      simp only [Channel.ReceiverFits, hr] at hfits
      simp only [hfits.1, Bool.true_eq_false, and_false, if_false, true_or, if_true]
      exact h.put hi hp rfl
        (hsound.receiverRetires hs hp (by simp [hr]) hfits.2 (by simp [Slot.held, hfits.2]))
  | closeDropLate =>
    obtain ⟨hp, hs, hfits⟩ := hsound.left_alone (by simp [Channel.receiverOpen, hr])
      (by simp [Channel.receiverExited, hr]) (by simp [hr])
    simp only [Channel.ReceiverFits, hr] at hfits
    simp only [System.receiverAccess, hr, expect_eq hfits]
    refine h.put hi hp rfl (hsound.receiverRetires hs hp (by simp [hr]) rfl ?_)
    ac_rfl
  | retire r =>
    have hs : c.sender = .gone := by
      by_cases hp : c.pushed = true
      · exact (hsound.last hp).resolve_right (by simp [Channel.receiverExited, hr])
      · exact ((hsound.fits (by simpa using hp)).sender_gone (by simp [Channel.receiverOpen, hr])
          (by simp [Channel.receiverExited, hr])).1
    have hc : c = { c with receiver := .retire r } := by rw [← hr]
    simp only [System.receiverAccess, hr]
    exact h.retire (Channel.recycles_receiver hs) (hc ▸ hi)

/-! ### Pairs -/

theorem flatten_eraseIdx {pairs : List (List ℕ)} {k : ℕ} {idxs : List ℕ}
    (h : pairs[k]? = some idxs) :
    (pairs.flatten : Multiset ℕ) = idxs + ((pairs.eraseIdx k).flatten : Multiset ℕ) := by
  induction pairs generalizing k with
  | nil => simp at h
  | cons p pairs ih =>
    cases k with
    | zero =>
      obtain rfl : p = idxs := by simpa using h
      simp
    | succ k =>
      have := ih (by simpa using h)
      simp only [flatten_cons, ← Multiset.coe_add, eraseIdx_cons_succ, this]
      ac_rfl

theorem sound_new (idx : ℕ) : (Channel.new idx : Channel T).Sound .new :=
  Channel.sound_of rfl ⟨rfl, rfl, rfl, rfl⟩ rfl (fun _ => rfl) (Nat.zero_le 1)
    ⟨Nat.zero_le 1, by simp [Channel.retiring, Channel.new]⟩

theorem gather_new (idxs : List ℕ) :
    gather Channel.holds (idxs.map (Channel.new (T := T))) = idxs := by
  induction idxs with
  | nil => rfl
  | cons idx idxs ih =>
    rw [map_cons, ← singleton_append, gather_append, ih]
    rfl

theorem weigh_new (idxs : List ℕ) :
    weigh Channel.staked (idxs.map (Channel.new (T := T))) = idxs.length := by
  induction idxs with
  | nil => rfl
  | cons idx idxs ih =>
    rw [map_cons, ← singleton_append, weigh_append, ih, length_cons, add_comm]
    rfl

theorem Inv.pair {idxs : List ℕ} (h : s.Inv) (halive : s.handle = .alive)
    (hle : (idxs : Multiset ℕ) ≤ s.free) :
    ({ s with free := s.free - idxs, pairs := s.pairs ++ [idxs] } : System T).Inv := by
  have hspare : s.free - idxs + ((s.pairs ++ [idxs]).flatten : Multiset ℕ) =
      s.free + (s.pairs.flatten : Multiset ℕ) := by
    conv_rhs => rw [← Multiset.sub_add_cancel hle]
    simp only [flatten_append, flatten_cons, flatten_nil, append_nil,
      ← Multiset.coe_add]
    ac_rfl
  exact {
    slots := hspare.symm ▸ h.slots
    spare := fun idx hidx => h.spare idx (hspare ▸ hidx)
    channels := h.channels
    stakes := h.stakes
    closed := h.closed
    borrowed := fun hdropped => absurd halive hdropped
    frees := h.frees
    fault := h.fault }

theorem Inv.stake {k : ℕ} {idxs : List ℕ} (h : s.Inv) (hk : s.pairs[k]? = some idxs) :
    ({ s with
      pairs := s.pairs.eraseIdx k
      lifecycle := s.lifecycle.stake idxs.length
      channels := s.channels ++ idxs.map .new } : System T).Inv := by
  have hflatten := flatten_eraseIdx hk
  have hholds := gather_new (T := T) idxs
  have hstaked := weigh_new (T := T) idxs
  have hfreeing : weigh Channel.freeing (idxs.map (Channel.new (T := T))) = 0 := by
    refine weigh_eq_zero fun c hc => ?_
    obtain ⟨idx, -, rfl⟩ := mem_map.mp hc
    rfl
  have halive : s.handle = .alive := by
    by_contra hdropped
    simp [h.borrowed hdropped] at hk
  exact {
    slots := by
      rw [gather_append, hholds, ← h.slots, hflatten]
      ac_rfl
    spare := by
      intro idx hidx
      refine h.spare idx ?_
      rw [hflatten]
      simp only [Multiset.mem_add] at hidx ⊢
      tauto
    channels := by
      intro i c hi
      rcases mem_append.mp (mem_of_getElem? hi) with hmem | hmem
      · obtain ⟨i, hi⟩ := mem_iff_getElem?.mp hmem
        exact h.channels i c hi
      · obtain ⟨idx, hidx, rfl⟩ := mem_map.mp hmem
        have hspare : idx ∈ s.free + (s.pairs.flatten : Multiset ℕ) := by
          rw [hflatten]
          simp [hidx]
        change (Channel.new idx).Sound (s.slots idx)
        rw [h.spare idx hspare]
        exact sound_new idx
    stakes := by
      rw [weigh_append, hstaked, ← h.stakes]
      rfl
    closed := h.closed
    borrowed := fun hdropped => absurd halive hdropped
    frees := by
      have hopen : s.lifecycle.closed = false := by simpa [halive] using h.closed
      have hfrees := h.frees
      simp only [hopen, Bool.false_eq_true, false_and, if_false] at hfrees
      simp only [weigh_append, hfreeing, Lifecycle.stake, hopen, Bool.false_eq_true, false_and,
        if_false]
      exact hfrees
    fault := h.fault }

/-! ### The steps -/

theorem Inv.receive {receiver : Receiver} (h : s.Inv) (hi : s.channels[i]? = some c)
    (hreceiver : receiver = .tryLoad ∨ receiver = .pollLoad)
    (hstep : s.receive i c receiver = some t) : t.Inv := by
  simp only [System.receive] at hstep
  split_ifs at hstep with hr hdone
  · obtain rfl := Option.some.inj hstep
    exact h
  · obtain rfl := Option.some.inj hstep
    have hflags : c.done = false ∧ c.exited = false := by simpa using hdone
    have hsound := h.channels i c hi
    have hopen : c.receiverOpen = true := by simp [Channel.receiverOpen, hr, hflags]
    have hp := hsound.pushed_eq_false (Channel.receiverExited_of_open hopen) (by simp [hr])
      (by simp [hr])
    have hopen' : { c with receiver := receiver }.receiverOpen = true := by
      rcases hreceiver with rfl | rfl <;> simp [Channel.receiverOpen, hflags]
    exact h.setActive hi hp rfl (hsound.look hopen hp hopen' ⟨rfl, rfl⟩)

theorem Inv.beginClose (h : s.Inv) (hi : s.channels[i]? = some c) (hr : c.receiver = .idle)
    (hexited : c.exited = false) (hdone : c.done = false) (done exited : Bool) :
    (s.setChannel i { c with exited, done, receiver := .closeLoad }).Inv := by
  have hsound := h.channels i c hi
  have hopen : c.receiverOpen = true := by simp [Channel.receiverOpen, hr, hdone, hexited]
  have hp := hsound.pushed_eq_false (Channel.receiverExited_of_open hopen) (by simp [hr])
    (by simp [hr])
  exact h.setActive hi hp rfl
    (hsound.look hopen hp (by simp [Channel.receiverOpen]) ⟨rfl, rfl⟩)

theorem Inv.beginRetire (h : s.Inv) (hi : s.channels[i]? = some c) (hr : c.receiver = .idle)
    (hexited : c.exited = false) (hdone : c.done = true) (exited : Bool) :
    (s.setChannel i { c with exited }.receiverRetires).Inv := by
  have hsound := h.channels i c hi
  obtain ⟨hp, hs, hfits⟩ := hsound.left_alone (by simp [Channel.receiverOpen, hr, hdone])
    (by simp [Channel.receiverExited, hr, hexited]) (by simp [hr])
  simp only [Channel.ReceiverFits, hr, hdone, if_true] at hfits
  exact h.setActive hi hp rfl
    (hsound.receiverRetires hs hp (by simp [hr]) hfits.2 (by simp [Slot.held, hfits.2]))

theorem Inv.dropExited (h : s.Inv) (hi : s.channels[i]? = some c) (hr : c.receiver = .idle)
    (hexited : c.exited = true) : (s.setChannel i { c with receiver := .gone }).Inv := by
  have hsound := h.channels i c hi
  have hexits : { c with receiver := .gone }.receiverExited = c.receiverExited := by
    simp [Channel.receiverExited, hr, hexited]
  have hp : { c with receiver := .gone }.pushed = c.pushed := by
    simp [Channel.pushed, hexits, hr]
  have hretiring : { c with receiver := .gone }.retiring ↔ c.retiring := by
    simp [Channel.retiring, hr]
  refine h.setChannel hi rfl hp ⟨fun hp' => ?_, ?_, ?_, hsound.fresh, hsound.once, ?_⟩ ?_ ?_
  · have hfits := hsound.fits (hp ▸ hp')
    cases hs : c.sender with
    | gone => simp [Channel.pushed, hs, Channel.receiverExited] at hp'
    | retire r => cases r <;> simp_all [Channel.Fits, Channel.receiverExited]
    | _ => simp_all [Channel.Fits, Channel.Faces, Channel.receiverOpen, Channel.receiverExited]
  · rw [hp, hexits]
    exact hsound.last
  · rw [hp]
    exact hsound.ledger
  · rw [hp, hretiring]
    exact hsound.retires
  · simp [Channel.staked, hp, hr]
  · simp [Channel.freeing, hr]

theorem Inv.dropPool (h : s.Inv) (halive : s.handle = .alive) (hpairs : s.pairs = []) :
    ({ s with
      lifecycle := s.lifecycle.close
      handle := if s.lifecycle = ⟨0, false⟩ then .freeing else .dropped } : System T).Inv := by
  have hopen : s.lifecycle.closed = false := by simpa [halive] using h.closed
  have hfrees := h.frees
  simp only [halive, hopen, reduceCtorEq, Bool.false_eq_true, false_and, if_false] at hfrees
  have hzero : s.lifecycle = ⟨0, false⟩ ↔ s.lifecycle.stakes = 0 := by
    rw [← hopen]
    constructor
    · intro heq
      rw [heq]
    · intro heq
      rw [← heq]
  exact {
    slots := h.slots
    spare := h.spare
    channels := h.channels
    stakes := h.stakes
    closed := by
      simp only [Lifecycle.close, true_iff]
      split_ifs <;> simp
    borrowed := fun _ => hpairs
    frees := by
      simp only [Lifecycle.close, true_and, hzero]
      split_ifs <;> simp_all
    fault := h.fault }

theorem Inv.freePool (h : s.Inv) (hfreeing : s.handle = .freeing) :
    ({ s with frees := s.frees + 1, handle := .dropped } : System T).Inv where
  slots := h.slots
  spare := h.spare
  channels := h.channels
  stakes := h.stakes
  closed := by simpa [hfreeing] using h.closed
  borrowed := fun _ => h.borrowed (by simp [hfreeing])
  frees := by
    have hfrees := h.frees
    rw [if_pos hfreeing] at hfrees
    rw [← hfrees]
    simp
  fault := h.fault

theorem Inv.step {a : Action T} (h : s.Inv) (hstep : s.step a = some t) : t.Inv := by
  cases a with
  | pair idxs =>
    simp only [System.step] at hstep
    split_ifs at hstep with hcond
    obtain rfl := Option.some.inj hstep
    exact h.pair hcond.1 hcond.2
  | stake k =>
    obtain ⟨idxs, hk, rfl⟩ := map_eq_some_iff.mp hstep
    exact h.stake hk
  | send i value =>
    obtain ⟨c, hi, hstep⟩ := bind_eq_some_iff.mp hstep
    split_ifs at hstep with hs
    obtain rfl := Option.some.inj hstep
    have hp : c.pushed = false := by simp [Channel.pushed, hs]
    have hsound := h.channels i c hi
    have hcell : (s.slots c.idx).value = none := by
      have hfits := hsound.fits hp
      simp only [Channel.Fits, hs] at hfits
      exact hfits.2.2.1
    have hput : (s.put i { c with sender := .publish, passed := value ::ₘ c.passed }
        { s.slots c.idx with value := some value }).Inv :=
      h.put hi hp rfl ⟨by simp [Channel.pushed], hsound.send hs value⟩
    simpa [System.send, hcell] using hput
  | dropSender i =>
    obtain ⟨c, hi, hstep⟩ := bind_eq_some_iff.mp hstep
    split_ifs at hstep with hs
    obtain rfl := Option.some.inj hstep
    exact h.setActive hi (by simp [Channel.pushed, hs]) rfl
      ⟨by simp [Channel.pushed], (h.channels i c hi).dropSender hs⟩
  | tryRecv i =>
    obtain ⟨c, hi, hstep⟩ := bind_eq_some_iff.mp hstep
    exact h.receive hi (.inl rfl) hstep
  | poll i =>
    obtain ⟨c, hi, hstep⟩ := bind_eq_some_iff.mp hstep
    exact h.receive hi (.inr rfl) hstep
  | closeReceiver i =>
    obtain ⟨c, hi, hstep⟩ := bind_eq_some_iff.mp hstep
    split_ifs at hstep with hr hexited hdone
    · obtain rfl := Option.some.inj hstep
      exact h
    · obtain rfl := Option.some.inj hstep
      exact h.beginRetire hi hr (by simpa using hexited) hdone true
    · obtain rfl := Option.some.inj hstep
      exact h.beginClose hi hr (by simpa using hexited) (by simpa using hdone) true true
  | dropReceiver i =>
    obtain ⟨c, hi, hstep⟩ := bind_eq_some_iff.mp hstep
    split_ifs at hstep with hr hexited hdone
    · obtain rfl := Option.some.inj hstep
      exact h.dropExited hi hr hexited
    · obtain rfl := Option.some.inj hstep
      exact h.beginRetire hi hr (by simpa using hexited) hdone c.exited
    · obtain rfl := Option.some.inj hstep
      exact h.beginClose hi hr (by simpa using hexited) (by simpa using hdone) c.done c.exited
  | advance i side =>
    cases side with
    | sender =>
      obtain ⟨c, hi, rfl⟩ := map_eq_some_iff.mp hstep
      exact h.senderAccess hi
    | receiver =>
      obtain ⟨c, hi, rfl⟩ := map_eq_some_iff.mp hstep
      exact h.receiverAccess hi
  | dropPool =>
    simp only [System.step] at hstep
    by_cases hcond : s.handle = .alive ∧ s.pairs = []
    · rw [if_pos hcond] at hstep
      obtain rfl := Option.some.inj hstep
      exact h.dropPool hcond.1 hcond.2
    · rw [if_neg hcond] at hstep
      cases hstep
  | freePool =>
    simp only [System.step] at hstep
    split_ifs at hstep with hfreeing
    obtain rfl := Option.some.inj hstep
    exact h.freePool hfreeing

/-! ### The promise -/

end System

end Fibre.Channels.Oneshot.Pool
