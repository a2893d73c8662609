import Mathlib.Algebra.BigOperators.Group.List.Basic
import Mathlib.Algebra.GroupWithZero.Nat
import Mathlib.Algebra.Order.Group.Nat
import Fibre.Math.Machine

/-!
# Reports of dropped messages

An appender counts the messages it drops; at most once a second the thread that drops one reports
how many there were since the last report. The count, the time of the last report and the count that
was reported are three atomics; every access to them is a step, and so is the look at the clock.

A thread that is slow between its count and its report can report after one that counted later. What
it subtracts is then the greater of the two counts.
-/

namespace Fibre.Logging

open Machine List

structure DropCounter where
  dropped : ℕ
  reported : ℕ
  lastReportMs : ℕ

/-- What is printed: the count, and the count at the report before it. -/
structure DropReport where
  total : ℕ
  previouslyReported : ℕ
  deriving DecidableEq

/-- Where a call of `record` is: the access it makes next. -/
inductive Record
  /-- `dropped.fetch_add` -/
  | count
  /-- reads the clock -/
  | clock (total : ℕ)
  /-- loads `last_report_ms` -/
  | load (total nowMs : ℕ)
  /-- exchanges it for the time -/
  | exchange (total nowMs last : ℕ)
  /-- `reported.swap` -/
  | swap (total : ℕ)
  | reported (total : ℕ)
  | silent
  deriving DecidableEq

/-- The count a call has taken. -/
def Record.total : Record → ℕ
  | .clock t | .load t _ | .exchange t _ _ | .swap t | .reported t => t
  | .count | .silent => 0

/-- A call that has reported has not counted a later message than `total`. -/
def Record.upTo (total : ℕ) : Record → Bool
  | .reported t => t ≤ total
  | _ => true

def REPORT_INTERVAL_MS : ℕ := 1000

/-- The next access of a call, at `elapsed` milliseconds, and the report it makes. -/
def DropCounter.record (c : DropCounter) (elapsed : ℕ) :
    Record → Option (DropCounter × Record × Option DropReport)
  | .count =>
    let total := (c.dropped + 1) % 2 ^ 64
    some ({ c with dropped := total }, .clock total, none)
  | .clock total => some (c, .load total (elapsed % 2 ^ 64), none)
  | .load total nowMs => some (c,
      if REPORT_INTERVAL_MS ≤ nowMs - c.lastReportMs then .exchange total nowMs c.lastReportMs
      else .silent, none)
  | .exchange total nowMs last =>
    if c.lastReportMs = last then some ({ c with lastReportMs := nowMs }, .swap total, none)
    else some (c, .silent, none)
  | .swap total => some ({ c with reported := total }, .reported total, some ⟨total, c.reported⟩)
  | .reported _ | .silent => none

/-- The counter of an appender, the calls at it, and the clock, with the messages that were dropped
and the reports that were made. -/
structure Drops where
  counter : DropCounter
  elapsed : ℕ
  calls : List Record
  messages : ℕ
  reports : List DropReport

namespace Drops

inductive Action
  | record
  | step (i : ℕ)
  | tick (ms : ℕ)

def init : Drops := ⟨⟨0, 0, 0⟩, 0, [], 0, []⟩

def step (s : Drops) : Action → Option Drops
  | .record => some { s with calls := s.calls ++ [.count] }
  | .tick ms => some { s with elapsed := s.elapsed + ms }
  | .step i => s.calls[i]?.bind fun c =>
    (s.counter.record s.elapsed c).map fun (counter, c', report) =>
      { s with
        counter := counter
        calls := s.calls.set i c'
        messages := if c = .count then s.messages + 1 else s.messages
        reports := s.reports ++ report.toList }

def told (s : Drops) : ℕ := (s.reports.map fun r => r.total - r.previouslyReported).sum

structure Accounts (s : Drops) : Prop where
  /-- the subtraction does not underflow -/
  nonneg : ∀ r ∈ s.reports, r.previouslyReported ≤ r.total
  told_le : s.told ≤ s.messages

/-- No call that has reported has counted a later message than `total`. -/
def Latest (s : Drops) (total : ℕ) : Prop := ∀ t, .reported t ∈ s.calls → t ≤ total

/-- The next access of a call is not a report after one of a call that counted later. The counter
does not wrap. -/
def InOrder (s : Drops) : Action → Bool
  | .step i =>
    match s.calls[i]? with
    | some .count => s.messages + 1 < 2 ^ 64
    | some (.swap total) => s.calls.all (Record.upTo total)
    | _ => true
  | _ => true

structure Inv (s : Drops) : Prop where
  accounts : s.Accounts
  dropped : s.counter.dropped = s.messages
  total_le : ∀ c ∈ s.calls, c.total ≤ s.messages
  reported : s.counter.reported = s.told
  latest : s.Latest s.counter.reported
  mark : s.counter.reported = 0 ∨ .reported s.counter.reported ∈ s.calls

variable {s s' : Drops} {i : ℕ} {c c' : Record}

theorem inv_init : init.Inv where
  accounts := ⟨by simp [init], le_rfl⟩
  dropped := rfl
  total_le := by simp [init]
  reported := rfl
  latest := by simp [Latest, init]
  mark := .inl rfl

theorem all_upTo {total : ℕ} : s.calls.all (Record.upTo total) ↔ s.Latest total := by
  rw [all_eq_true]
  constructor
  · intro h t ht
    simpa [Record.upTo] using h _ ht
  · intro h c hc
    cases c with
    | reported t => simpa [Record.upTo] using h t hc
    | _ => rfl

theorem Inv.move (h : s.Inv) (hc : s.calls[i]? = some c) (hr : ∀ t, c ≠ .reported t)
    (hr' : ∀ t, c' ≠ .reported t) (hreports : s'.reports = s.reports)
    (hcalls : s'.calls = s.calls.set i c') (hreported : s'.counter.reported = s.counter.reported)
    (hdropped : s'.counter.dropped = s'.messages) (hmessages : s.messages ≤ s'.messages)
    (htotal : c'.total ≤ s'.messages) : s'.Inv := by
  have htold : s'.told = s.told := by rw [told, hreports, told]
  have hmem : ∀ t, .reported t ∈ s'.calls ↔ .reported t ∈ s.calls := by
    intro t
    rw [hcalls]
    constructor
    · intro ht
      exact (mem_or_eq_of_mem_set ht).resolve_right fun heq => hr' t heq.symm
    · intro ht
      obtain ⟨j, hj⟩ := mem_iff_getElem?.mp ht
      have hne : i ≠ j := by
        rintro rfl
        exact hr t (Option.some.inj (hc.symm.trans hj))
      exact mem_iff_getElem?.mpr ⟨j, by rwa [List.getElem?_set_ne hne]⟩
  refine ⟨⟨?_, ?_⟩, hdropped, ?_, ?_, ?_, ?_⟩
  · rw [hreports]
    exact h.accounts.nonneg
  · rw [htold]
    exact h.accounts.told_le.trans hmessages
  · intro d hd
    rw [hcalls] at hd
    rcases mem_or_eq_of_mem_set hd with hd | rfl
    · exact (h.total_le d hd).trans hmessages
    · exact htotal
  · rw [hreported, htold, h.reported]
  · intro t ht
    rw [hreported]
    exact h.latest t ((hmem t).mp ht)
  · rw [hreported, hmem]
    exact h.mark

theorem Inv.report (h : s.Inv) {total : ℕ} (hc : s.calls[i]? = some (.swap total))
    (hlatest : s.Latest total) : Inv { s with
      counter := { s.counter with reported := total }
      calls := s.calls.set i (.reported total)
      reports := s.reports ++ [⟨total, s.counter.reported⟩] } := by
  have hle : s.counter.reported ≤ total := by
    rcases h.mark with hzero | hmark
    · omega
    · exact hlatest _ hmark
  have htotal := h.total_le _ (mem_of_getElem? hc)
  have htold : s.told + (total - s.counter.reported) = total := by
    rw [← h.reported]
    omega
  have hi := (List.getElem?_eq_some_iff.mp hc).1
  refine ⟨⟨?_, ?_⟩, h.dropped, ?_, ?_, ?_, .inr (mem_set hi _)⟩
  · intro r hr
    rcases mem_append.mp hr with hr | hr
    · exact h.accounts.nonneg r hr
    · rw [mem_singleton.mp hr]
      exact hle
  · have hsum : Drops.told { s with
        reports := s.reports ++ [⟨total, s.counter.reported⟩] } = total := by
      simpa [told] using htold
    exact hsum.le.trans htotal
  · intro d hd
    rcases mem_or_eq_of_mem_set hd with hd | rfl
    · exact h.total_le d hd
    · exact htotal
  · simpa [told] using htold.symm
  · intro t ht
    rcases mem_or_eq_of_mem_set ht with ht | heq
    · exact hlatest t ht
    · exact (Record.reported.inj heq).le

theorem Inv.step (h : s.Inv) {a : Action} (hC : s.InOrder a) (hs : s.step a = some s') :
    s'.Inv := by
  cases a with
  | record =>
    cases hs
    refine ⟨⟨h.accounts.nonneg, h.accounts.told_le⟩, h.dropped, ?_, h.reported, ?_, ?_⟩
    · intro c hc
      rcases mem_append.mp hc with hc | hc
      · exact h.total_le c hc
      · rw [mem_singleton.mp hc]
        exact Nat.zero_le _
    · exact fun t ht => h.latest t (by simpa using ht)
    · exact h.mark.imp_right fun hmark => mem_append_left _ hmark
  | tick ms =>
    cases hs
    exact ⟨⟨h.accounts.nonneg, h.accounts.told_le⟩, h.dropped, h.total_le, h.reported, h.latest,
      h.mark⟩
  | step i =>
    obtain ⟨c, hc, hs⟩ := Option.bind_eq_some_iff.mp hs
    obtain ⟨⟨counter, c', report⟩, hrecord, rfl⟩ := Option.map_eq_some_iff.mp hs
    have htotal := h.total_le c (mem_of_getElem? hc)
    cases c with
    | reported t | silent => cases hrecord
    | count =>
      have hlt : s.messages + 1 < 2 ^ 64 := by simpa [InOrder, hc] using hC
      have hadd : (s.counter.dropped + 1) % 2 ^ 64 = s.messages + 1 := by
        rw [h.dropped, Nat.mod_eq_of_lt hlt]
      cases hrecord
      exact h.move hc (by simp) (by simp) (append_nil _) rfl rfl (by simpa using hadd)
        (by simp) hadd.le
    | clock t =>
      cases hrecord
      exact h.move hc (by simp) (by simp) (append_nil _) rfl rfl h.dropped le_rfl htotal
    | load t nowMs =>
      cases hrecord
      refine h.move hc (by simp) ?_ (append_nil _) rfl rfl h.dropped le_rfl ?_
      · split <;> simp
      · split
        · exact htotal
        · exact Nat.zero_le _
    | exchange t nowMs last =>
      rw [DropCounter.record] at hrecord
      split at hrecord
      · cases hrecord
        exact h.move hc (by simp) (by simp) (append_nil _) rfl rfl h.dropped le_rfl htotal
      · cases hrecord
        exact h.move hc (by simp) (by simp) (append_nil _) rfl rfl h.dropped le_rfl
          (Nat.zero_le _)
    | swap t =>
      cases hrecord
      have hall : s.calls.all (Record.upTo t) := by simpa [InOrder, hc] using hC
      exact h.report hc (all_upTo.mp hall)

/-- A call that reports after one that counted later subtracts more than it counted. -/
theorem Inv.not_accounts (h : s.Inv) {total : ℕ} (hc : s.calls[i]? = some (.swap total))
    (hlatest : ¬ s.Latest total) (hs : s.step (.step i) = some s') : ¬ s'.Accounts := by
  unfold Latest at hlatest
  push Not at hlatest
  obtain ⟨t, ht, hlt⟩ := hlatest
  have hle := h.latest t ht
  rw [Drops.step, hc] at hs
  cases hs
  intro haccounts
  have hnonneg := haccounts.nonneg ⟨total, s.counter.reported⟩ (by simp)
  dsimp only at hnonneg
  omega

/-- The reports add up as long as no call reports after one that counted later; one that does breaks
them. -/
theorem accounts_of_inOrder (h : Run step (fun s a => s.InOrder a) init s) :
    s.Accounts ∧ ∀ i total s', s.calls[i]? = some (.swap total) → s.step (.step i) = some s' →
      (s'.Accounts ↔ s.InOrder (.step i)) := by
  have hinv : s.Inv := h.invariant inv_init fun _ _ _ hI hC hs => hI.step hC hs
  refine ⟨hinv.accounts, fun i total s' hc hs => ⟨fun haccounts => ?_, fun hC => ?_⟩⟩
  · by_contra hC
    have hlatest : ¬ s.Latest total := by
      rw [← all_upTo]
      simpa [InOrder, hc] using hC
    exact hinv.not_accounts hc hlatest hs haccounts
  · exact (hinv.step hC hs).accounts

theorem accounts_of_inOrder_one : ∃ s : Drops, s.told = 1 ∧
    s.Accounts ∧ ∀ i total s', s.calls[i]? = some (.swap total) → s.step (.step i) = some s' →
      (s'.Accounts ↔ s.InOrder (.step i)) := by
  have hexec : (exec step InOrder init
      (.tick 1000 :: .record :: List.replicate 5 (.step 0))).map told = some 1 := by
    rfl
  obtain ⟨s, hs, htold⟩ := Option.map_eq_some_iff.mp hexec
  exact ⟨s, htold, accounts_of_inOrder (run_of_exec (fun _ _ => id) hs)⟩

/-- The first call counts, and reports only when the second one has. -/
theorem not_accounts_overtaken : ¬ ∀ s, Reachable step init s → s.Accounts := by
  intro h
  have hexec : (exec step (fun _ _ => true) init
      ([Action.record, .record, .tick 1000, .step 0] ++ List.replicate 5 (Action.step 1) ++
        Action.tick 1000 :: List.replicate 4 (Action.step 0))).map (·.reports) = some [⟨2, 0⟩, ⟨1, 2⟩] := by
    rfl
  obtain ⟨s, hs, hreports⟩ := Option.map_eq_some_iff.mp hexec
  have hle := (h s (reachable_of_exec hs)).nonneg ⟨1, 2⟩ (by simp [hreports])
  exact absurd hle (by decide)

end Drops

end Fibre.Logging
