import Fibre.Channels.Oneshot.Delivery

/-!
# What the error of a send says

A send that fails says why: `Sent` is for a channel that was sent a value, and `Closed` for the
rest. The phase it looks at stands for more than that. While another send writes, nothing is sent
yet, and it may turn back; and a channel that its last sender closed never carries a value, though a
clone of that sender can still be made, and send.
-/

namespace Fibre.Channels.Oneshot

open Crew Machine List Option

variable {T : Type*}

namespace Call

/-- The result of a call that has ended but for its handle. -/
def result : Call T → Option (Result T)
  | dropSender _ result | decrement result | decrementLoop _ result | dropValue result
  | returned result => some result
  | _ => none

/-- What the call says, or is about to say, needs a send that succeeded. -/
def Relies : Call T → Prop
  | sendClaim _ _ cur => cur.phase = .sent ∨ cur.phase = .taken
  | c => ∃ value, c.result = some (.alreadySent value)

theorem succeeds_of_result {c : Call T} (h : c.result = some .sent) : c.succeeds = 1 := by
  cases c <;> simp_all [result, succeeds]

theorem result_of_succeeds {c : Call T} (h : c.succeeds ≠ 0) : c.result = some .sent := by
  unfold succeeds at h
  split at h <;> first | rfl | exact absurd rfl h

end Call

namespace System

variable {s t : System T} {i : ℕ} {c : Call T}

/-- A send has succeeded. -/
def HasSent (s : System T) : Prop := ∃ call ∈ s.calls, call.result = some .sent

structure ErrorsTell (s : System T) : Prop where
  /-- `Sent` is said when a send has succeeded -/
  sent : ∀ call ∈ s.calls, ∀ value, call.result = some (.alreadySent value) → s.HasSent
  /-- every other error is `Closed`, and the value comes back -/
  closed : ∀ call ∈ s.calls, ∀ value, call.holds = {value} →
    ∀ r, (s.access call).1.result = some r → r = .alreadySent value ∨ r = .closed value

/-- A send that found its own handle open, and the receiver there, is about to look at a phase that
says `WRITING` or `CLOSED`, and the channel does not say `SENT` or `TAKEN` by now. -/
def hasty (s : System T) : Action T → Bool
  | .advance i =>
    match s.calls[i]? with
    | some (.sendClaim _ _ cur) => !cur.rxDropped &&
        (cur.phase = .writing || cur.phase = .closed) &&
        s.word.phase ≠ .sent && s.word.phase ≠ .taken
    | _ => false
  | _ => false

/-- Who needs a send that succeeded has one. -/
structure Grounded (s : System T) : Prop where
  inv : s.Inv
  relies : ∀ call ∈ s.calls, call.Relies → 0 < weigh Call.succeeds s.calls

theorem hasSent_iff : s.HasSent ↔ 0 < weigh Call.succeeds s.calls := by
  constructor
  · rintro ⟨call, hmem, hresult⟩
    obtain ⟨i, hi⟩ := List.getElem?_of_mem hmem
    have hle := le_weigh Call.succeeds hi
    rw [Call.succeeds_of_result hresult] at hle
    exact hle
  · intro hpos
    by_contra hnone
    refine hpos.ne' (weigh_eq_zero fun call hmem => ?_)
    by_contra hsucceeds
    exact hnone ⟨call, hmem, Call.result_of_succeeds hsucceeds⟩

theorem Inv.hasSent (h : s.Inv) (hphase : s.word.phase = .sent ∨ s.word.phase = .taken) :
    0 < weigh Call.succeeds s.calls := by
  rw [h.succeeded, if_pos hphase]
  exact Nat.one_pos

theorem succeeds_le_access (s : System T) (c : Call T) :
    c.succeeds ≤ (s.access c).1.succeeds := by
  cases c with
  | dropSender k result =>
    obtain ⟨hdecrement, hreturned, -⟩ := Call.succeeds_eq k s.word result
    simp only [access]
    split_ifs
    · exact hreturned.ge
    · exact hdecrement.ge
  | decrement result =>
    obtain ⟨hdecrement, hreturned, hloop, -⟩ := Call.succeeds_eq 0
      { s.word with senderCount := s.word.senderCount - 1 } result
    simp only [access]
    split_ifs
    · exact (hdecrement.trans hreturned.symm).le
    · exact (hdecrement.trans hloop.symm).le
  | decrementLoop cur result =>
    obtain ⟨-, hreturned, hloop, hdrop⟩ := Call.succeeds_eq 0 cur result
    obtain ⟨-, -, hloop', -⟩ := Call.succeeds_eq 0 s.word result
    simp only [access]
    split_ifs
    · exact (hloop.trans hreturned.symm).le
    · exact (hloop.trans hloop'.symm).le
    · exact (hloop.trans hdrop.symm).le
    · exact (hloop.trans hloop'.symm).le
    · exact (hloop.trans hreturned.symm).le
    · exact (hloop.trans hreturned.symm).le
  | dropValue result =>
    obtain ⟨-, hreturned, -, hdrop⟩ := Call.succeeds_eq 0 s.word result
    exact (hdrop.trans hreturned.symm).le
  | returned result => exact le_rfl
  | _ => exact Nat.zero_le _

/-- What a call comes to rely on is there, unless it was hasty. -/
theorem Grounded.access (h : s.Grounded) (hi : s.calls[i]? = some c)
    (hcareful : ¬ s.hasty (.advance i)) (hrelies : (s.access c).1.Relies) :
    0 < weigh Call.succeeds s.calls := by
  have hold : c.Relies → 0 < weigh Call.succeeds s.calls :=
    h.relies c (mem_of_getElem? hi)
  cases c with
  | send k value =>
    simp only [System.access] at hrelies
    split_ifs at hrelies <;> simp [Call.Relies, Call.result] at hrelies
  | sendLoad k value => exact h.inv.hasSent hrelies
  | sendClaim k value cur =>
    simp only [System.access] at hrelies
    split_ifs at hrelies with hdropped hphase hcur
    · simp [Call.Relies, Call.result] at hrelies
    · -- the phase it looks at is not `EMPTY`, and says `SENT` or `TAKEN` if it was not hasty
      by_cases hseen : cur.phase = .sent ∨ cur.phase = .taken
      · exact hold hseen
      · refine h.inv.hasSent ?_
        by_contra hnow
        rw [not_or] at hseen hnow
        refine hcareful ?_
        have hbusy : cur.phase = .writing ∨ cur.phase = .closed := by
          cases hp : cur.phase <;> simp_all
        simp [hasty, hi, hdropped, hbusy, hnow]
    · simp [Call.Relies, Call.result] at hrelies
    · exact h.inv.hasSent hrelies
  | sendRecheck k value =>
    simp only [System.access] at hrelies
    split_ifs at hrelies <;> simp [Call.Relies, Call.result] at hrelies
  | dropSender k result =>
    refine hold ?_
    simp only [System.access] at hrelies
    split_ifs at hrelies <;> exact hrelies
  | decrement result =>
    refine hold ?_
    simp only [System.access] at hrelies
    split_ifs at hrelies <;> exact hrelies
  | decrementLoop cur result =>
    refine hold ?_
    simp only [System.access] at hrelies
    split_ifs at hrelies <;> exact hrelies
  | dropValue result => exact hold hrelies
  | returned result => exact hold hrelies
  | closeSender k =>
    simp only [System.access] at hrelies
    split_ifs at hrelies <;> simp [Call.Relies, Call.result] at hrelies
  | dropReceiver | closeReceiver =>
    simp only [System.access] at hrelies
    split_ifs at hrelies <;> simp [Call.Relies, Call.result] at hrelies
  | markLoop cur =>
    simp only [System.access] at hrelies
    split_ifs at hrelies <;> simp [Call.Relies, Call.result] at hrelies
  | recv attempt =>
    simp only [System.access] at hrelies
    split_ifs at hrelies <;> simp [Call.Relies, Call.result] at hrelies
  | recvLoop attempt cur =>
    simp only [System.access] at hrelies
    split_ifs at hrelies <;> cases attempt <;>
      simp [recvEmpty, Call.Relies, Call.result] at hrelies
  | takeValue =>
    simp only [System.access, System.takeValue] at hrelies
    split at hrelies <;> simp [Call.Relies, Call.result] at hrelies
  | pollTaken attempt =>
    simp only [System.access] at hrelies
    split_ifs at hrelies <;> simp [Call.Relies, Call.result] at hrelies
  | sendRollback | sendWrite | sendPublish | markReceiver | recvLoad =>
    simp [System.access, Call.Relies, Call.result] at hrelies

theorem Grounded.start (h : s.Grounded) (ht : t.Inv) {call : Call T}
    (hcalls : t.calls = s.calls ++ [call]) (hcall : ¬ call.Relies) (hzero : call.succeeds = 0) :
    t.Grounded where
  inv := ht
  relies c hc hrelies := by
    rw [hcalls, weigh_append_singleton, hzero, add_zero]
    rw [hcalls, mem_append, mem_singleton] at hc
    rcases hc with hc | rfl
    · exact h.relies c hc hrelies
    · exact absurd hrelies hcall

theorem Grounded.step (h : s.Grounded) {a : Action T} (hcareful : ¬ s.hasty a)
    (hstep : s.step a = some t) : t.Grounded := by
  have ht := h.inv.step hstep
  cases a with
  | clone k =>
    simp only [System.step] at hstep
    split_ifs at hstep
    obtain rfl : _ = t := Option.some.inj hstep
    exact ⟨ht, h.relies⟩
  | advance i =>
    obtain ⟨c, hi, rfl⟩ := map_eq_some_iff.mp hstep
    refine ⟨ht, fun call hmem hrelies => ?_⟩
    have hkeep : 0 < weigh Call.succeeds s.calls →
        0 < weigh Call.succeeds (s.calls.set i (s.access c).1) := by
      intro hpos
      have hset := weigh_set Call.succeeds hi (s.access c).1
      have hle := succeeds_le_access s c
      omega
    rcases mem_or_eq_of_mem_set hmem with hmem | rfl
    · exact hkeep (h.relies call hmem hrelies)
    · exact hkeep (h.access hi hcareful hrelies)
  | free =>
    simp only [System.step] at hstep
    split_ifs at hstep with hfree hsent
    · obtain rfl : _ = t := Option.some.inj hstep
      have hcalls : s.dropValue.calls = s.calls := by
        rw [System.dropValue]
        split <;> rfl
      refine ⟨ht, fun call hmem hrelies => ?_⟩
      simp only [hcalls] at hmem ⊢
      exact h.relies call hmem hrelies
    · obtain rfl : _ = t := Option.some.inj hstep
      exact ⟨ht, h.relies⟩
  | _ =>
    simp only [System.step] at hstep
    split_ifs at hstep
    obtain rfl : _ = t := Option.some.inj hstep
    exact h.start ht rfl (by simp [Call.Relies, Call.result]) rfl

theorem access_closed (s : System T) (c : Call T) {value : T} (hc : c.holds = {value})
    {r : Result T} (hr : (s.access c).1.result = some r) :
    r = .alreadySent value ∨ r = .closed value := by
  cases c with
  | send k v | sendClaim k v cur | sendRecheck k v | sendRollback k v =>
    obtain rfl : v = value := by simpa [Call.holds] using hc
    simp only [System.access] at hr
    first
      | (split_ifs at hr <;> simp_all [Call.result])
      | simp_all [Call.result]
  | sendLoad k v | sendWrite k v => simp [System.access, Call.result] at hr
  | _ => simp [Call.holds] at hc

theorem Inv.not_errorsTell (h : s.Inv) {a : Action T} (hhasty : s.hasty a)
    (hstep : s.step a = some t) : ¬ t.ErrorsTell := by
  cases a with
  | advance i =>
    obtain ⟨c, hi, rfl⟩ := map_eq_some_iff.mp hstep
    simp only [hasty, hi] at hhasty
    cases c with
    | sendClaim k value cur =>
      simp only [Bool.and_eq_true, Bool.or_eq_true, Bool.not_eq_true', decide_eq_true_eq, ne_eq]
        at hhasty
      obtain ⟨⟨⟨hdropped, hbusy⟩, hsent⟩, htaken⟩ := hhasty
      have hphase : cur.phase ≠ .empty := by
        rcases hbusy with hbusy | hbusy <;> simp [hbusy]
      have haccess : (s.access (.sendClaim k value cur)).1 = .dropSender k (.alreadySent value) := by
        simp [System.access, hdropped, hphase]
      have hzero : weigh Call.succeeds s.calls = 0 := by
        rw [h.succeeded, if_neg (not_or.mpr ⟨hsent, htaken⟩)]
      have hset := weigh_set Call.succeeds hi (.dropSender k (.alreadySent value))
      have hnew : (Call.dropSender k (.alreadySent value)).succeeds = 0 := rfl
      intro htell
      have hpos := hasSent_iff.mp (htell.sent (.dropSender k (.alreadySent value))
        (by simpa [haccess] using mem_set (List.getElem?_eq_some_iff.mp hi).1 _) value rfl)
      simp only [haccess] at hpos
      omega
    | _ => cases hhasty
  | _ => cases hhasty

/-- In every run of a oneshot channel in which no send takes a phase for sent that is not, a send
says `Sent` only when a send has succeeded, and any other error is `Closed`. -/
theorem errors_tell (h : Run step (fun s a => ¬ s.hasty a) (init : System T) s) :
    s.ErrorsTell := by
  have hinit : (init : System T).Grounded := ⟨inv_init, by simp [init]⟩
  have hgrounded : s.Grounded :=
    Run.invariant h hinit fun _ _ _ ht hcareful hstep => ht.step hcareful hstep
  refine ⟨fun call hmem value hresult => ?_, fun call _ value hholds r hr => ?_⟩
  · refine hasSent_iff.mpr (hgrounded.relies call hmem ?_)
    cases call with
    | sendClaim => simp [Call.result] at hresult
    | _ => exact ⟨value, hresult⟩
  · exact access_closed s call hholds hr

/-- The second of two sends comes when the first has succeeded, and is told so. -/
theorem errors_tell_second : ∃ s : System ℕ,
    Run step (fun s a => ¬ s.hasty a) init s ∧ s.ErrorsTell ∧
      s.calls = [.returned .sent, .returned (.alreadySent 8)] := by
  have hexec : (exec step (fun s a => !s.hasty a) init
      (Action.clone 0 :: Action.send 0 7 :: List.replicate 8 (Action.advance 0) ++
        Action.send 1 8 :: List.replicate 6 (Action.advance 1))).map (·.calls) =
      some [.returned .sent, .returned (.alreadySent 8)] := rfl
  obtain ⟨s, hs, hcalls⟩ := Option.map_eq_some_iff.mp hexec
  have hrun := run_of_exec (C := fun s a => ¬ s.hasty a) (fun s a h => by simpa using h) hs
  exact ⟨s, hrun, errors_tell hrun, hcalls⟩

/-- The last sender closes the channel, and a clone of it sends. -/
theorem closed_not_told : ¬ ∀ s : System ℕ, Reachable step init s → s.ErrorsTell := by
  intro h
  have hexec : (exec step (fun _ _ => true) (init : System ℕ)
      (Action.closeSender 0 :: List.replicate 3 (Action.advance 0) ++
        Action.clone 0 :: Action.send 1 7 :: List.replicate 3 (Action.advance 1))).map (·.calls) =
      some [.returned .done, .dropSender 1 (.alreadySent 7)] := rfl
  obtain ⟨s, hs, hcalls⟩ := Option.map_eq_some_iff.mp hexec
  obtain ⟨call, hmem, hresult⟩ := (h s (reachable_of_exec hs)).sent
    (.dropSender 1 (.alreadySent 7)) (by simp [hcalls]) 7 rfl
  simp only [hcalls, List.mem_cons, List.not_mem_nil, or_false] at hmem
  rcases hmem with rfl | rfl <;> simp [Call.result] at hresult

end System

end Fibre.Channels.Oneshot
