import Fibre.Channels.Oneshot.Core
import Fibre.Math.Crew
import Fibre.Math.Machine

/-!
# One value is delivered, none is lost

In every interleaving at most one send succeeds, the value slot is read only while it is
initialized, and every value passed to a send is in one place: with its send, in the slot, received,
handed back, or dropped. Once the channel is dropped only the last three are left.
-/

namespace Fibre.Channels.Oneshot

open Crew Machine List

variable {T : Type*}

/-! ### What the program points hold -/

namespace Call

/-- The call owns the phase `WRITING`. -/
def writes : Call T → ℕ
  | sendRecheck _ _ | sendRollback _ _ | sendWrite _ _ | sendPublish _ => 1
  | _ => 0

/-- The call has written the slot, and publishes it next. -/
def publishes : Call T → ℕ
  | sendPublish _ => 1
  | _ => 0

/-- The call has claimed the value, and takes it next. -/
def takes : Call T → ℕ
  | takeValue | dropValue _ => 1
  | _ => 0

/-- The call lowers the sender count next. -/
def counts : Call T → ℕ
  | decrement _ => 1
  | _ => 0

def succeeds : Call T → ℕ
  | dropSender _ .sent | decrement .sent | decrementLoop _ .sent | dropValue .sent
  | returned .sent => 1
  | _ => 0

/-- The value of a send that has not written it. -/
def holds : Call T → Multiset T
  | send _ value | sendLoad _ value | sendClaim _ value _ | sendRecheck _ value
  | sendRollback _ value | sendWrite _ value => {value}
  | _ => 0

def handle : Call T → Option ℕ
  | send h _ | sendLoad h _ | sendClaim h _ _ | sendRecheck h _ | sendRollback h _ | sendWrite h _
  | sendPublish h | dropSender h _ | closeSender h => some h
  | _ => none

theorem succeeds_eq (h : ℕ) (cur : Word) (result : Result T) :
    (decrement result).succeeds = (dropSender h result).succeeds ∧
      (returned result).succeeds = (dropSender h result).succeeds ∧
      (decrementLoop cur result).succeeds = (dropSender h result).succeeds ∧
      (dropValue result).succeeds = (dropSender h result).succeeds := by
  cases result <;> simp [succeeds]

theorem publishes_le_writes (c : Call T) : c.publishes ≤ c.writes := by
  cases c <;> simp [publishes, writes]

end Call

def System.stored (s : System T) : Multiset T := s.slot.elim 0 fun value => {value}

/-- The promise about the values. -/
structure System.Delivered (s : System T) : Prop where
  /-- at most one send returned `Ok` -/
  single : ∀ i j : ℕ, s.calls[i]? = some (.returned .sent) →
    s.calls[j]? = some (.returned .sent) → i = j
  /-- every value is in one place -/
  conserved : s.passed = gather Call.holds s.calls + s.stored + s.received + s.returned + s.dropped
  /-- once the channel is dropped, it is received, handed back or dropped -/
  settled : s.freed → s.passed = s.received + s.returned + s.dropped
  /-- at most one value is received or dropped, and only once -/
  once : s.received.card + s.dropped.card ≤ 1
  /-- the slot is read only while it is initialized -/
  initialized : s.fault = false

namespace System

variable {s t : System T} {i : ℕ} {c c' : Call T}

/-- The invariant of every run. -/
structure Inv (s : System T) : Prop where
  writing : weigh Call.writes s.calls = if s.word.phase = .writing then 1 else 0
  taking : weigh Call.takes s.calls ≤ if s.word.phase = .taken then 1 else 0
  filled : weigh Call.publishes s.calls + weigh Call.takes s.calls +
    (if s.word.phase = .sent ∧ s.freed = false then 1 else 0) = s.stored.card
  succeeded : weigh Call.succeeds s.calls =
    if s.word.phase = .sent ∨ s.word.phase = .taken then 1 else 0
  once : s.received.card + s.dropped.card + s.stored.card =
    weigh Call.publishes s.calls + weigh Call.succeeds s.calls
  conserved : s.passed = gather Call.holds s.calls + s.stored + s.received + s.returned + s.dropped
  counted : s.word.senderCount =
    s.senders.countP (fun handle => !handle.closed) + weigh Call.counts s.calls
  known : ∀ call ∈ s.calls, ∀ h, call.handle = some h → h < s.senders.length
  freed : s.freed → s.unused
  fault : s.fault = false

theorem inv_init : (init : System T).Inv :=
  ⟨rfl, Nat.zero_le _, rfl, rfl, rfl, rfl, rfl, by simp [init],
    fun h => absurd h Bool.false_ne_true, rfl⟩

theorem Inv.not_freed (h : s.Inv) (hi : s.calls[i]? = some c) (hc : ∀ r, c ≠ .returned r) :
    s.freed = false := by
  by_contra hfreed
  have hunused := h.freed (by simpa using hfreed)
  simp only [unused, Bool.and_eq_true, all_eq_true] at hunused
  have hreturned := hunused.2 c (mem_of_getElem? hi)
  cases c with
  | returned r => exact hc r rfl
  | _ => simp at hreturned

theorem Inv.move (h : s.Inv) (hi : s.calls[i]? = some c) (hc : ∀ r, c ≠ .returned r)
    (hcalls : t.calls = s.calls.set i c')
    (hwriting : c'.writes + (if s.word.phase = .writing then 1 else 0) =
      c.writes + if t.word.phase = .writing then 1 else 0)
    (htaking : weigh Call.takes s.calls + c'.takes ≤
      c.takes + if t.word.phase = .taken then 1 else 0)
    (hfilled : c'.publishes + c'.takes + (if t.word.phase = .sent then 1 else 0) +
        s.stored.card =
      c.publishes + c.takes + (if s.word.phase = .sent then 1 else 0) + t.stored.card)
    (hsucceeded : c'.succeeds +
        (if s.word.phase = .sent ∨ s.word.phase = .taken then 1 else 0) =
      c.succeeds + if t.word.phase = .sent ∨ t.word.phase = .taken then 1 else 0)
    (honce : t.received.card + t.dropped.card + t.stored.card + (c.publishes + c.succeeds) =
      s.received.card + s.dropped.card + s.stored.card + (c'.publishes + c'.succeeds))
    (hpassed : t.passed = s.passed)
    (hconserved : c'.holds + (t.stored + t.received + t.returned + t.dropped) =
      c.holds + (s.stored + s.received + s.returned + s.dropped))
    (hcounted : t.word.senderCount + s.senders.countP (fun handle => !handle.closed) + c.counts =
      s.word.senderCount + t.senders.countP (fun handle => !handle.closed) + c'.counts)
    (hsenders : t.senders.length = s.senders.length) (hhandle : c'.handle = c.handle ∨ c'.handle = none)
    (hfreed : t.freed = s.freed) (hfault : t.fault = false) : t.Inv := by
  have hnot := h.not_freed hi hc
  have hw := weigh_set Call.writes hi c'
  have ht := weigh_set Call.takes hi c'
  have hp := weigh_set Call.publishes hi c'
  have hs := weigh_set Call.succeeds hi c'
  have hn := weigh_set Call.counts hi c'
  have hg := gather_set Call.holds hi c'
  have h₁ := h.writing
  have h₂ := h.filled
  have h₃ := h.succeeded
  have h₄ := h.once
  have h₅ := h.counted
  rw [← hcalls] at hw ht hp hs hn hg
  simp only [hnot, and_true] at h₂
  refine ⟨by omega, by omega, ?_, by omega, by omega, ?_, by omega, ?_, ?_, hfault⟩
  · simp only [hfreed, hnot, and_true]
    omega
  · rw [hpassed, h.conserved]
    refine add_right_cancel (b := c.holds) ?_
    calc gather Call.holds s.calls + s.stored + s.received + s.returned + s.dropped + c.holds
        = gather Call.holds s.calls +
            (c.holds + (s.stored + s.received + s.returned + s.dropped)) := by ac_rfl
      _ = gather Call.holds s.calls +
            (c'.holds + (t.stored + t.received + t.returned + t.dropped)) := by rw [hconserved]
      _ = gather Call.holds s.calls + c'.holds +
            (t.stored + t.received + t.returned + t.dropped) := by ac_rfl
      _ = gather Call.holds t.calls + c.holds +
            (t.stored + t.received + t.returned + t.dropped) := by rw [hg]
      _ = _ := by ac_rfl
  · rw [hcalls, hsenders]
    intro call hcall k hk
    rcases mem_or_eq_of_mem_set hcall with hcall | rfl
    · exact h.known call hcall k hk
    · refine h.known c (mem_of_getElem? hi) k ?_
      rcases hhandle with hsame | hnone
      · exact hsame ▸ hk
      · simp [hnone] at hk
  · intro hf
    simp [hfreed, hnot] at hf

theorem Inv.quiet (h : s.Inv) (hi : s.calls[i]? = some c) (hc : ∀ r, c ≠ .returned r)
    (hcalls : t.calls = s.calls.set i c')
    (hphase : t.word.phase = s.word.phase ∨
      s.word.phase = .empty ∧ t.word.phase = .closed)
    (hslot : t.slot = s.slot) (hwrites : c'.writes = c.writes)
    (hpublishes : c'.publishes = c.publishes) (htakes : c'.takes = c.takes)
    (hsucceeds : c'.succeeds = c.succeeds)
    (hvalues : t.passed = s.passed ∧ t.received = s.received ∧ t.dropped = s.dropped)
    (hholds : c'.holds + t.returned = c.holds + s.returned)
    (hcounted : t.word.senderCount + s.senders.countP (fun handle => !handle.closed) + c.counts =
      s.word.senderCount + t.senders.countP (fun handle => !handle.closed) + c'.counts)
    (hsenders : t.senders.length = s.senders.length)
    (hhandle : c'.handle = c.handle ∨ c'.handle = none) (hfreed : t.freed = s.freed)
    (hfault : t.fault = s.fault) : t.Inv := by
  have hstored : t.stored = s.stored := by rw [stored, stored, hslot]
  obtain ⟨hpassed, hreceived, hdropped⟩ := hvalues
  have htaking := h.taking
  refine h.move hi hc hcalls ?_ ?_ ?_ ?_ ?_ hpassed ?_ hcounted hsenders hhandle hfreed
    (hfault.trans h.fault)
  · rcases hphase with heq | ⟨hs, ht⟩
    · rw [hwrites, heq]
    · simp [hwrites, hs, ht]
  · rcases hphase with heq | ⟨hs, ht⟩
    · rw [htakes, heq]
      omega
    · simp [hs, ht, htakes] at htaking ⊢
      omega
  · rcases hphase with heq | ⟨hs, ht⟩
    · rw [hpublishes, htakes, heq, hstored]
    · simp [hpublishes, htakes, hs, ht, hstored]
  · rcases hphase with heq | ⟨hs, ht⟩
    · rw [hsucceeds, heq]
    · simp [hsucceeds, hs, ht]
  · rw [hreceived, hdropped, hstored, hpublishes, hsucceeds]
  · rw [hstored, hreceived, hdropped]
    calc c'.holds + (s.stored + s.received + t.returned + s.dropped)
        = c'.holds + t.returned + (s.stored + s.received + s.dropped) := by ac_rfl
      _ = c.holds + s.returned + (s.stored + s.received + s.dropped) := by rw [hholds]
      _ = _ := by ac_rfl

theorem Inv.phase_of_writes (h : s.Inv) (hi : s.calls[i]? = some c) (hc : c.writes = 1) :
    s.word.phase = .writing := by
  have hle := le_weigh Call.writes hi
  have hwriting := h.writing
  split at hwriting
  · assumption
  · omega

theorem Inv.slot_of_writes (h : s.Inv) (hi : s.calls[i]? = some c) (hc : c.writes = 1)
    (hp : c.publishes = 0) : s.slot = none := by
  have hphase := h.phase_of_writes hi hc
  have hfilled := h.filled
  have htaking := h.taking
  have hpublishes : weigh Call.publishes s.calls = 0 := by
    have hset := weigh_set Call.writes hi (.returned .done)
    have hset' := weigh_set Call.publishes hi (.returned .done)
    have hle := weigh_mono Call.publishes_le_writes (s.calls.set i (.returned .done))
    have hwriting := h.writing
    have hw : (Call.returned .done : Call T).writes = 0 := rfl
    have hp : (Call.returned .done : Call T).publishes = 0 := rfl
    simp only [hphase, if_true] at hwriting
    omega
  simp only [hphase, hpublishes] at hfilled htaking
  cases hslot : s.slot with
  | none => rfl
  | some value =>
    simp [stored, hslot] at hfilled htaking
    omega

theorem Inv.slot_of_takes (h : s.Inv) (hi : s.calls[i]? = some c) (hc : c.takes = 1) :
    ∃ value, s.slot = some value := by
  have hle := le_weigh Call.takes hi
  have hfilled := h.filled
  cases hslot : s.slot with
  | none =>
    simp only [stored, hslot, Option.elim, Multiset.card_zero] at hfilled
    omega
  | some value => exact ⟨value, rfl⟩

theorem Inv.claim (h : s.Inv) (hi : s.calls[i]? = some c) (hc : ∀ r, c ≠ .returned r)
    (hsent : s.word.phase = .sent) (hwrites : c.writes = 0 ∧ c'.writes = 0)
    (hpublishes : c.publishes = 0 ∧ c'.publishes = 0) (htakes : c.takes = 0 ∧ c'.takes = 1)
    (hsucceeds : c'.succeeds = c.succeeds) (hholds : c'.holds = c.holds)
    (hcounts : c'.counts = c.counts) (hhandle : c'.handle = c.handle ∨ c'.handle = none) :
    ({ s with word := s.word.withPhase .taken, calls := s.calls.set i c' } :
      System T).Inv := by
  have htaking := h.taking
  refine h.move hi hc rfl ?_ ?_ ?_ ?_ ?_ rfl ?_ ?_ rfl hhandle rfl h.fault
  all_goals simp_all [Word.withPhase, stored]

theorem countP_setClosed {l : List Handle} {k : ℕ} {handle : Handle} (hk : l[k]? = some handle)
    (hopen : handle.closed = false) :
    (l.modify k fun handle => { handle with closed := true }).countP
      (fun handle => !handle.closed) + 1 = l.countP fun handle => !handle.closed := by
  induction l generalizing k with
  | nil => simp at hk
  | cons a l ih =>
    cases k with
    | zero =>
      obtain rfl : a = handle := by simpa using hk
      simp [hopen]
    | succ k =>
      have hl := ih (by simpa using hk)
      simp only [modify_succ_cons, countP_cons]
      omega

/-- A sender handle is closed, or its call ends since it is closed already. -/
theorem Inv.close (h : s.Inv) {k : ℕ} {result : Result T} (hi : s.calls[i]? = some c)
    (hc : ∀ r, c ≠ .returned r) (hk : c.handle = some k) (hopen : s.closed k = false)
    (hplain : c.writes = 0 ∧ c.publishes = 0 ∧ c.takes = 0 ∧ c.counts = 0 ∧ c.holds = 0)
    (hsucceeds : (Call.decrement result).succeeds = c.succeeds) :
    ({ s.setClosed k with calls := s.calls.set i (.decrement result) } : System T).Inv := by
  obtain ⟨hwrites, hpublishes, htakes, hcounts, hholds⟩ := hplain
  have hlt := h.known c (mem_of_getElem? hi) k hk
  have hget : s.senders[k]? = some s.senders[k] := List.getElem?_eq_getElem hlt
  have hflag : s.senders[k].closed = false := by simpa [closed, hget] using hopen
  have hcount := countP_setClosed hget hflag
  refine h.quiet hi hc rfl (.inl rfl) rfl hwrites.symm hpublishes.symm htakes.symm hsucceeds
    ⟨rfl, rfl, rfl⟩ ?_ ?_ (by simp [setClosed]) (.inr rfl) rfl rfl
  · rw [hholds]
    rfl
  · have hone : (Call.decrement result : Call T).counts = 1 := rfl
    simp only [setClosed]
    omega

theorem Inv.giveBack (h : s.Inv) {value : T} (hi : s.calls[i]? = some c)
    (hc : ∀ r, c ≠ .returned r) (hholds : c.holds = {value}) (hholds' : c'.holds = 0)
    (hwrites : c'.writes = c.writes) (hpublishes : c'.publishes = c.publishes)
    (htakes : c'.takes = c.takes) (hsucceeds : c'.succeeds = c.succeeds)
    (hcounts : c'.counts = c.counts) (hhandle : c'.handle = c.handle ∨ c'.handle = none) :
    ({ s.giveBack value with calls := s.calls.set i c' } : System T).Inv := by
  refine h.quiet hi hc rfl (.inl rfl) rfl hwrites hpublishes htakes hsucceeds ⟨rfl, rfl, rfl⟩ ?_
    ?_ rfl hhandle rfl rfl
  · simp [System.giveBack, hholds, hholds']
  · rw [hcounts]
    rfl

theorem Inv.skip (h : s.Inv) (hi : s.calls[i]? = some c) (hc : ∀ r, c ≠ .returned r)
    (hwrites : c'.writes = c.writes) (hpublishes : c'.publishes = c.publishes)
    (htakes : c'.takes = c.takes) (hsucceeds : c'.succeeds = c.succeeds)
    (hcounts : c'.counts = c.counts) (hholds : c'.holds = c.holds)
    (hhandle : c'.handle = c.handle ∨ c'.handle = none) :
    ({ s with calls := s.calls.set i c' } : System T).Inv :=
  h.quiet hi hc rfl (.inl rfl) rfl hwrites hpublishes htakes hsucceeds ⟨rfl, rfl, rfl⟩
    (by rw [hholds]) (by rw [hcounts]) rfl hhandle rfl rfl

theorem Inv.empty (h : s.Inv) (hi : s.calls[i]? = some c) (hc : ∀ r, c ≠ .returned r) {value : T}
    (hslot : s.slot = some value) {received dropped : Multiset T}
    (hvalues : received + dropped = value ::ₘ (s.received + s.dropped))
    (hwrites : c.writes = 0 ∧ c'.writes = 0) (hpublishes : c.publishes = 0 ∧ c'.publishes = 0)
    (htakes : c.takes = 1 ∧ c'.takes = 0) (hsucceeds : c'.succeeds = c.succeeds)
    (hholds : c'.holds = c.holds) (hcounts : c'.counts = c.counts)
    (hhandle : c'.handle = c.handle ∨ c'.handle = none) :
    ({ s with slot := none, received := received, dropped := dropped,
              calls := s.calls.set i c' } : System T).Inv := by
  have htaking := h.taking
  have hcard := congrArg Multiset.card hvalues
  simp only [Multiset.card_add, Multiset.card_cons] at hcard
  refine h.move hi hc rfl ?_ ?_ ?_ ?_ ?_ rfl ?_ ?_ rfl hhandle rfl h.fault
  · rw [hwrites.1, hwrites.2]
  · rw [htakes.1, htakes.2]
    exact htaking.trans (Nat.le_add_left _ _)
  · simp [hpublishes, htakes, stored, hslot, add_comm]
  · rw [hsucceeds]
  · simp only [stored, hslot, Option.elim, Multiset.card_zero, Multiset.card_singleton, hpublishes,
      hsucceeds]
    omega
  · rw [hholds]
    calc c.holds + ((0 : Multiset T) + received + s.returned + dropped)
        = c.holds + (received + dropped + s.returned) := by rw [zero_add]; ac_rfl
      _ = c.holds + ({value} + s.received + s.returned + s.dropped) := by
          rw [hvalues, ← Multiset.singleton_add]
          ac_rfl
      _ = _ := by rw [stored, hslot]; rfl
  · rw [hcounts]

theorem Inv.access (h : s.Inv) (hi : s.calls[i]? = some c) :
    ({ (s.access c).2 with calls := s.calls.set i (s.access c).1 } : System T).Inv := by
  have hwriting := h.phase_of_writes hi
  have htaking := h.taking
  cases c with
  | send k value =>
    simp only [System.access]
    split_ifs
    · exact h.giveBack hi (by simp) rfl rfl rfl rfl rfl rfl rfl (.inl rfl)
    · exact h.skip hi (by simp) rfl rfl rfl rfl rfl rfl (.inl rfl)
  | sendLoad k value => exact h.skip hi (by simp) rfl rfl rfl rfl rfl rfl (.inl rfl)
  | sendClaim k value cur =>
    simp only [System.access]
    split_ifs with hdropped hphase hcur
    · exact h.giveBack hi (by simp) rfl rfl rfl rfl rfl rfl rfl (.inl rfl)
    · exact h.giveBack hi (by simp) rfl rfl rfl rfl rfl rfl rfl (.inl rfl)
    · subst hcur
      have hempty : s.word.phase = .empty := not_not.mp hphase
      refine h.move hi (by simp) rfl ?_ ?_ ?_ ?_ ?_ rfl ?_ rfl rfl (.inl rfl) rfl h.fault
      all_goals simp_all [Word.withPhase, Call.writes, Call.takes, Call.publishes, Call.succeeds,
        Call.holds, stored]
    · exact h.skip hi (by simp) rfl rfl rfl rfl rfl rfl (.inl rfl)
  | sendRecheck k value =>
    simp only [System.access]
    split_ifs
    · exact h.skip hi (by simp) rfl rfl rfl rfl rfl rfl (.inl rfl)
    · exact h.skip hi (by simp) rfl rfl rfl rfl rfl rfl (.inl rfl)
  | sendRollback k value =>
    have hphase : s.word.phase = .writing := hwriting rfl
    refine h.move hi (by simp) rfl ?_ ?_ ?_ ?_ ?_ rfl ?_ rfl rfl (.inl rfl) rfl h.fault
    all_goals simp_all [System.access, Word.subPhase, Word.withPhase, Phase.code, Phase.ofCode,
      Call.writes, Call.takes, Call.publishes, Call.succeeds, Call.holds, stored, System.giveBack]
  | sendWrite k value =>
    have hphase : s.word.phase = .writing := hwriting rfl
    have hslot := h.slot_of_writes hi rfl rfl
    refine h.move hi (by simp) rfl ?_ ?_ ?_ ?_ ?_ rfl ?_ rfl rfl (.inl rfl) rfl h.fault
    all_goals simp_all [System.access, Call.writes, Call.takes, Call.publishes, Call.succeeds,
      Call.holds, stored]
  | sendPublish k =>
    have hphase : s.word.phase = .writing := hwriting rfl
    refine h.move hi (by simp) rfl ?_ ?_ ?_ ?_ ?_ rfl ?_ rfl rfl (.inl rfl) rfl h.fault
    all_goals simp_all [System.access, Word.addPhase, Word.withPhase, Phase.code, Phase.ofCode,
      Call.writes, Call.takes, Call.publishes, Call.succeeds, Call.holds, stored]
  | dropSender k result =>
    obtain ⟨hdecrement, hreturned, -⟩ := Call.succeeds_eq k s.word result
    simp only [System.access]
    split_ifs with hclosed
    · exact h.skip hi (by simp) rfl rfl rfl hreturned rfl rfl (.inr rfl)
    · exact h.close hi (by simp) rfl (by simpa using hclosed) ⟨rfl, rfl, rfl, rfl, rfl⟩ hdecrement
  | closeSender k =>
    simp only [System.access]
    split_ifs with hclosed
    · exact h.skip hi (by simp) rfl rfl rfl rfl rfl rfl (.inr rfl)
    · exact h.close hi (by simp) rfl (by simpa using hclosed) ⟨rfl, rfl, rfl, rfl, rfl⟩ rfl
  | decrement result =>
    obtain ⟨hdecrement, hreturned, hloop, -⟩ := Call.succeeds_eq 0
      { s.word with senderCount := s.word.senderCount - 1 } result
    -- a call that lowers the count is counted in it
    have hpos : 0 < s.word.senderCount := by
      have hle := le_weigh Call.counts hi
      have hone : (Call.decrement result : Call T).counts = 1 := rfl
      have hcounted := h.counted
      omega
    simp only [System.access]
    split_ifs with hlast
    · refine h.quiet hi (by simp) rfl (.inl rfl) rfl rfl rfl rfl (hreturned.trans hdecrement.symm)
        ⟨rfl, rfl, rfl⟩ rfl ?_ rfl (.inl rfl) rfl rfl
      simp only [Call.counts]
      omega
    · refine h.quiet hi (by simp) rfl (.inl rfl) rfl rfl rfl rfl (hloop.trans hdecrement.symm)
        ⟨rfl, rfl, rfl⟩ rfl ?_ rfl (.inl rfl) rfl rfl
      simp only [Call.counts]
      omega
  | decrementLoop cur result =>
    obtain ⟨-, hreturned, hloop, hdrop⟩ := Call.succeeds_eq 0 cur result
    obtain ⟨-, -, hloop', -⟩ := Call.succeeds_eq 0 s.word result
    simp only [System.access]
    split_ifs with hempty hcur hsent hreceiver hcur
    · subst hcur
      exact h.quiet hi (by simp) rfl (.inr ⟨hempty, rfl⟩) rfl rfl rfl rfl
        (hreturned.trans hloop.symm) ⟨rfl, rfl, rfl⟩ rfl rfl rfl (.inl rfl) rfl rfl
    · exact h.skip hi (by simp) rfl rfl rfl (hloop'.trans hloop.symm) rfl rfl (.inl rfl)
    · subst hcur
      exact h.claim hi (by simp) hsent ⟨rfl, rfl⟩ ⟨rfl, rfl⟩ ⟨rfl, rfl⟩ (hdrop.trans hloop.symm) rfl
        rfl (.inl rfl)
    · exact h.skip hi (by simp) rfl rfl rfl (hloop'.trans hloop.symm) rfl rfl (.inl rfl)
    · exact h.skip hi (by simp) rfl rfl rfl (hreturned.trans hloop.symm) rfl rfl (.inl rfl)
    · exact h.skip hi (by simp) rfl rfl rfl (hreturned.trans hloop.symm) rfl rfl (.inl rfl)
  | dropValue result =>
    obtain ⟨-, hreturned, -, hdrop⟩ := Call.succeeds_eq 0 s.word result
    obtain ⟨value, hslot⟩ := h.slot_of_takes hi rfl
    simp only [System.access, System.dropValue, hslot]
    exact h.empty hi (by simp) hslot (Multiset.add_cons _ _ _) ⟨rfl, rfl⟩ ⟨rfl, rfl⟩ ⟨rfl, rfl⟩
      (hreturned.trans hdrop.symm) rfl rfl (.inl rfl)
  | dropReceiver | closeReceiver =>
    simp only [System.access]
    split_ifs
    · exact h.skip hi (by simp) rfl rfl rfl rfl rfl rfl (.inl rfl)
    · exact h.quiet hi (by simp) rfl (.inl rfl) rfl rfl rfl rfl rfl ⟨rfl, rfl, rfl⟩ rfl rfl rfl
        (.inl rfl) rfl rfl
  | markReceiver =>
    exact h.quiet hi (by simp) rfl (.inl rfl) rfl rfl rfl rfl rfl ⟨rfl, rfl, rfl⟩ rfl rfl rfl
      (.inl rfl) rfl rfl
  | markLoop cur =>
    simp only [System.access]
    split_ifs with hempty hcur hsent hcur
    · subst hcur
      exact h.quiet hi (by simp) rfl (.inr ⟨hempty, rfl⟩) rfl rfl rfl rfl rfl ⟨rfl, rfl, rfl⟩ rfl
        rfl rfl (.inl rfl) rfl rfl
    · exact h.skip hi (by simp) rfl rfl rfl rfl rfl rfl (.inl rfl)
    · subst hcur
      exact h.claim hi (by simp) hsent ⟨rfl, rfl⟩ ⟨rfl, rfl⟩ ⟨rfl, rfl⟩ rfl rfl rfl (.inl rfl)
    · exact h.skip hi (by simp) rfl rfl rfl rfl rfl rfl (.inl rfl)
    · exact h.skip hi (by simp) rfl rfl rfl rfl rfl rfl (.inl rfl)
  | recv attempt =>
    simp only [System.access]
    split_ifs
    · exact h.skip hi (by simp) rfl rfl rfl rfl rfl rfl (.inl rfl)
    · exact h.skip hi (by simp) rfl rfl rfl rfl rfl rfl (.inl rfl)
  | recvLoad attempt => exact h.skip hi (by simp) rfl rfl rfl rfl rfl rfl (.inl rfl)
  | recvLoop attempt cur =>
    have hnothing : ({ s with calls := s.calls.set i (recvEmpty attempt) } : System T).Inv := by
      cases attempt <;> exact h.skip hi (by simp) rfl rfl rfl rfl rfl rfl (.inl rfl)
    simp only [System.access]
    split_ifs with hsent hcur hlater hclosed hsenders hcur
    · subst hcur
      exact h.claim hi (by simp) hsent ⟨rfl, rfl⟩ ⟨rfl, rfl⟩ ⟨rfl, rfl⟩ rfl rfl rfl (.inl rfl)
    · exact h.skip hi (by simp) rfl rfl rfl rfl rfl rfl (.inl rfl)
    · exact hnothing
    · exact h.skip hi (by simp) rfl rfl rfl rfl rfl rfl (.inl rfl)
    · exact hnothing
    · subst hcur
      have hempty : s.word.phase = .empty := by
        revert hsent hlater hclosed
        cases s.word.phase <;> simp
      exact h.quiet hi (by simp) rfl (.inr ⟨hempty, rfl⟩) rfl rfl rfl rfl rfl ⟨rfl, rfl, rfl⟩ rfl
        rfl rfl (.inl rfl) rfl rfl
    · exact h.skip hi (by simp) rfl rfl rfl rfl rfl rfl (.inl rfl)
  | takeValue =>
    obtain ⟨value, hslot⟩ := h.slot_of_takes hi rfl
    simp only [System.access, System.takeValue, hslot]
    exact h.empty hi (by simp) hslot (Multiset.cons_add _ _ _) ⟨rfl, rfl⟩ ⟨rfl, rfl⟩ ⟨rfl, rfl⟩ rfl
      rfl rfl (.inl rfl)
  | pollTaken attempt =>
    simp only [System.access]
    split_ifs
    · exact h.skip hi (by simp) rfl rfl rfl rfl rfl rfl (.inl rfl)
    · exact h.skip hi (by simp) rfl rfl rfl rfl rfl rfl (.inl rfl)
    · exact h.skip hi (by simp) rfl rfl rfl rfl rfl rfl (.inl rfl)
  | returned result =>
    have hself : s.calls.set i (.returned result) = s.calls := by
      obtain ⟨hlt, heq⟩ := List.getElem?_eq_some_iff.mp hi
      rw [← heq, set_getElem_self]
    simp only [System.access, hself]
    exact h

theorem Inv.start (h : s.Inv) (hnot : s.freed = false) (call : Call T) {passed : Multiset T}
    (hpassed : passed = call.holds + s.passed) (hwrites : call.writes = 0)
    (hpublishes : call.publishes = 0) (htakes : call.takes = 0) (hsucceeds : call.succeeds = 0)
    (hcounts : call.counts = 0) (hknown : ∀ k, call.handle = some k → k < s.senders.length) :
    ({ s.start call with passed := passed } : System T).Inv := by
  have hweigh (w : Call T → ℕ) (hw : w call = 0) :
      weigh w (s.start call).calls = weigh w s.calls := by
    rw [System.start, weigh_append_singleton, hw, add_zero]
  refine ⟨?_, ?_, ?_, ?_, ?_, ?_, ?_, ?_, ?_, h.fault⟩
  · exact (hweigh _ hwrites).trans h.writing
  · exact (hweigh _ htakes).trans_le h.taking
  · rw [hweigh _ hpublishes, hweigh _ htakes]
    exact h.filled
  · exact (hweigh _ hsucceeds).trans h.succeeded
  · rw [hweigh _ hpublishes, hweigh _ hsucceeds]
    exact h.once
  · simp only [System.start, gather_append_singleton, stored, hpassed, h.conserved]
    ac_rfl
  · rw [hweigh _ hcounts]
    exact h.counted
  · simp only [System.start, mem_append, mem_singleton]
    rintro c (hc | rfl)
    · exact h.known c hc
    · exact hknown
  · intro hfreed
    simp [System.start, hnot] at hfreed

theorem Inv.setHandles (h : s.Inv) (hnot : s.freed = false) {senders : List Handle}
    {receiver : Handle}
    (hcount : senders.countP (fun handle => !handle.closed) =
      s.senders.countP fun handle => !handle.closed)
    (hlength : s.senders.length ≤ senders.length) :
    ({ s with senders := senders, receiver := receiver } : System T).Inv where
  writing := h.writing
  taking := h.taking
  filled := h.filled
  succeeded := h.succeeded
  once := h.once
  conserved := h.conserved
  counted := by
    rw [hcount]
    exact h.counted
  known c hc k hk := (h.known c hc k hk).trans_le hlength
  freed hfreed := by simp [hnot] at hfreed
  fault := h.fault

theorem countP_consume (l : List Handle) (k : ℕ) :
    (l.modify k fun handle => { handle with gone := true }).countP (fun handle => !handle.closed) =
      l.countP fun handle => !handle.closed := by
  induction l generalizing k with
  | nil => simp
  | cons a l ih =>
    cases k with
    | zero => simp only [modify_zero_cons, countP_cons]
    | succ k => simp only [modify_succ_cons, countP_cons, ih]

theorem Inv.not_freed_of_sender (h : s.Inv) {k : ℕ} (hk : s.hasSender k) :
    s.freed = false ∧ k < s.senders.length := by
  simp only [hasSender] at hk
  cases hget : s.senders[k]? with
  | none => simp [hget] at hk
  | some handle =>
    refine ⟨?_, (List.getElem?_eq_some_iff.mp hget).1⟩
    by_contra hfreed
    have hunused := h.freed (by simpa using hfreed)
    simp only [unused, Bool.and_eq_true, all_eq_true] at hunused
    have hgone := hunused.1.2 handle (mem_of_getElem? hget)
    simp [hget, hgone] at hk

theorem Inv.not_freed_of_receiver (h : s.Inv) (hk : s.receiver.gone = false) :
    s.freed = false := by
  by_contra hfreed
  have hunused := h.freed (by simpa using hfreed)
  simp [unused, hk] at hunused

/-- Once every call has returned, nothing is counted and nothing held. -/
theorem weigh_eq_zero_of_unused (h : s.unused) (w : Call T → ℕ) (hw : ∀ r, w (.returned r) = 0) :
    weigh w s.calls = 0 := by
  simp only [unused, Bool.and_eq_true, all_eq_true] at h
  refine weigh_eq_zero fun c hc => ?_
  have hret := h.2 c hc
  cases c with
  | returned r => exact hw r
  | _ => simp at hret

theorem Inv.free (h : s.Inv) (hunused : s.unused) (hnot : s.freed = false) :
    ({ (if s.word.phase = .sent then s.dropValue else s) with freed := true } : System T).Inv := by
  have hpublishes := weigh_eq_zero_of_unused hunused Call.publishes fun _ => rfl
  have htakes := weigh_eq_zero_of_unused hunused Call.takes fun _ => rfl
  have hfilled := h.filled
  simp only [hpublishes, htakes, hnot, and_true, add_zero, zero_add] at hfilled
  by_cases hsent : s.word.phase = .sent
  · obtain ⟨value, hslot⟩ : ∃ value, s.slot = some value := by
      cases hslot : s.slot with
      | none => simp [hsent, stored, hslot] at hfilled
      | some value => exact ⟨value, rfl⟩
    have honce := h.once
    simp only [hsent, if_true, System.dropValue, hslot]
    refine ⟨h.writing, h.taking, ?_, h.succeeded, ?_, ?_, h.counted, h.known, fun _ => hunused,
      h.fault⟩
    · simp [hpublishes, htakes, stored]
    · simp only [stored, hslot, Option.elim, Multiset.card_singleton, Multiset.card_zero,
        Multiset.card_cons] at honce ⊢
      omega
    · have hconserved := h.conserved
      simp only [stored, hslot, Option.elim] at hconserved ⊢
      rw [hconserved, ← Multiset.singleton_add]
      rw [add_zero]
      ac_rfl
  · simp only [hsent, if_false] at hfilled ⊢
    refine ⟨h.writing, h.taking, ?_, h.succeeded, h.once, h.conserved, h.counted, h.known,
      fun _ => hunused, h.fault⟩
    simpa [hpublishes, htakes, hsent, stored] using hfilled

theorem Inv.step (h : s.Inv) {a : Action T} (hstep : s.step a = some t) : t.Inv := by
  cases a with
  | clone k =>
    simp only [System.step] at hstep
    split_ifs at hstep with hk
    obtain rfl : _ = t := Option.some.inj hstep
    have hnot := (h.not_freed_of_sender hk).1
    have hcounted := h.counted
    refine ⟨h.writing, h.taking, h.filled, h.succeeded, h.once, h.conserved, ?_, ?_, ?_, h.fault⟩
    · simp only [countP_append, countP_singleton]
      simp
      omega
    · intro c hc j hj
      have := h.known c hc j hj
      simp only [length_append, length_singleton]
      omega
    · intro hfreed
      simp [hnot] at hfreed
  | send k value =>
    simp only [System.step] at hstep
    split_ifs at hstep with hk
    obtain rfl : _ = t := Option.some.inj hstep
    obtain ⟨hnot, hlt⟩ := h.not_freed_of_sender hk
    have hconsumed : (s.consume k).Inv :=
      h.setHandles hnot (countP_consume s.senders k) (by simp)
    refine hconsumed.start hnot (.send k value) (Multiset.singleton_add _ _).symm rfl rfl rfl rfl rfl
      fun j hj => ?_
    obtain rfl : k = j := by simpa [Call.handle] using hj
    simpa [consume] using hlt
  | closeSender k =>
    simp only [System.step] at hstep
    split_ifs at hstep with hk
    obtain rfl : _ = t := Option.some.inj hstep
    obtain ⟨hnot, hlt⟩ := h.not_freed_of_sender hk
    refine h.start hnot (.closeSender k) (zero_add _).symm rfl rfl rfl rfl rfl fun j hj => ?_
    obtain rfl : k = j := by simpa [Call.handle] using hj
    exact hlt
  | dropSender k =>
    simp only [System.step] at hstep
    split_ifs at hstep with hk
    obtain rfl : _ = t := Option.some.inj hstep
    obtain ⟨hnot, hlt⟩ := h.not_freed_of_sender hk
    have hconsumed : (s.consume k).Inv :=
      h.setHandles hnot (countP_consume s.senders k) (by simp)
    refine hconsumed.start hnot (.dropSender k .done) (zero_add _).symm rfl rfl rfl rfl rfl
      fun j hj => ?_
    obtain rfl : k = j := by simpa [Call.handle] using hj
    simpa [consume] using hlt
  | tryRecv | poll | closeReceiver =>
    simp only [System.step] at hstep
    split_ifs at hstep with hgone
    obtain rfl : _ = t := Option.some.inj hstep
    have hnot := h.not_freed_of_receiver (by simpa using hgone)
    exact h.start hnot _ (zero_add _).symm rfl rfl rfl rfl rfl (by simp [Call.handle])
  | dropReceiver =>
    simp only [System.step] at hstep
    split_ifs at hstep with hgone
    obtain rfl : _ = t := Option.some.inj hstep
    have hnot := h.not_freed_of_receiver (by simpa using hgone)
    have hleft : ({ s with receiver := { s.receiver with gone := true } } : System T).Inv :=
      h.setHandles hnot rfl le_rfl
    exact hleft.start hnot _ (zero_add _).symm rfl rfl rfl rfl rfl (by simp [Call.handle])
  | advance i =>
    obtain ⟨call, hi, rfl⟩ := Option.map_eq_some_iff.mp hstep
    exact h.access hi
  | free =>
    simp only [System.step] at hstep
    by_cases hfree : s.unused ∧ ¬ s.freed
    · rw [if_pos hfree] at hstep
      obtain rfl : _ = t := Option.some.inj hstep
      exact h.free hfree.1 (by simpa using hfree.2)
    · rw [if_neg hfree] at hstep
      cases hstep

/-- In every interleaving of the accesses of sends, closes, drops, `try_recv` and polls, at most
one send succeeds, no value is lost, delivered twice or dropped twice, and the slot is read only
while it is initialized. -/
theorem delivered_once (h : Reachable step (init : System T) s) : s.Delivered := by
  have hinv : s.Inv :=
    Run.invariant h inv_init fun _ _ _ ht _ hstep => ht.step hstep
  have hsucceeded := hinv.succeeded
  have hle : weigh Call.succeeds s.calls ≤ 1 := by
    split at hsucceeded <;> omega
  refine ⟨fun i j hi hj => ?_, hinv.conserved, fun hfreed => ?_, ?_, hinv.fault⟩
  · exact unique_of_weigh_le_one hle hi hj rfl rfl
  · have hunused := hinv.freed hfreed
    have hstored : s.stored = 0 := by
      have hfilled := hinv.filled
      rw [weigh_eq_zero_of_unused hunused _ fun _ => rfl,
        weigh_eq_zero_of_unused hunused _ fun _ => rfl] at hfilled
      simpa [hfreed] using hfilled.symm
    have hholds : gather Call.holds s.calls = 0 := by
      simp only [unused, Bool.and_eq_true, List.all_eq_true] at hunused
      refine gather_eq_zero fun c hc => ?_
      have hret := hunused.2 c hc
      cases c with
      | returned r => rfl
      | _ => simp at hret
    rw [hinv.conserved, hstored, hholds]
    ac_rfl
  · have honce := hinv.once
    have hwriting := hinv.writing
    have hpublishes := weigh_mono Call.publishes_le_writes s.calls
    cases hphase : s.word.phase <;> simp [hphase] at hwriting hsucceeded <;> omega

/-- A value sent and received, and one that came late and was handed back. -/
theorem delivered_one_value : ∃ s : System ℕ, Reachable step init s ∧ s.Delivered ∧
    s.freed ∧ s.received = {7} ∧ s.returned = {8} := by
  have hexec : (exec step (fun _ _ => true) init
      (Action.clone 0 :: Action.send 0 7 :: List.replicate 8 (Action.advance 0) ++
        Action.send 1 8 :: List.replicate 6 (Action.advance 1) ++
        Action.tryRecv :: List.replicate 4 (Action.advance 2) ++
        Action.dropReceiver :: List.replicate 3 (Action.advance 3) ++ [Action.free])).map
        (fun s => (s.freed, s.received, s.returned)) = some (true, {7}, {8}) := rfl
  obtain ⟨s, hs, heq⟩ := Option.map_eq_some_iff.mp hexec
  obtain ⟨hfreed, hreceived, hreturned⟩ : s.freed = true ∧ s.received = {7} ∧ s.returned = {8} := by
    simpa using heq
  have hrun := reachable_of_exec hs
  exact ⟨s, hrun, delivered_once hrun, hfreed, hreceived, hreturned⟩

end System

end Fibre.Channels.Oneshot
