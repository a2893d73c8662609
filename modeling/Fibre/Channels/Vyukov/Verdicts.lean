import Fibre.Channels.Vyukov.RingOrder

/-!
# Verdicts of a full Vyukov ring

A push gives up at its check of the capacity, or at a stamp that is behind its position. What it
knows then: that many positions are claimed by pushes and not freed by pops; or its position was out
of date, and the pops had passed it; or the slot it needs is not freed, while others are.
-/

namespace Fibre.Channels.Vyukov

open Crew Machine Option List

variable {α : Type*}

/-! ### The calls -/

inductive BatchSendErrorReason
  | full
  | closed

/-- `try_send`, by the answer of its push: an error has the item, and whether the receivers are
gone. -/
def trySend (alive : Bool) (item : α) : Pc α → Option (Except (α × Bool) Unit)
  | .pushed => if alive then some (.ok ()) else some (.error (item, true))
  | .full returned => some (.error (if alive then (returned, false) else (item, true)))
  | _ => if alive then none else some (.error (item, true))

/-- The loop of `try_send_batch_core`, by the answers of its pushes; `none` where one is missing. -/
def pushAll : List (Pc α) → List α → ℕ → Option (ℕ × List α × Option BatchSendErrorReason)
  | _, [], sent => some (sent, [], none)
  | .pushed :: answers, _ :: items, sent => pushAll answers items (sent + 1)
  | .full returned :: _, _ :: items, sent => some (sent, returned :: items, some .full)
  | _, _, _ => none

def trySendBatchCore (alive : Bool) (items : List α) (answers : List (Pc α)) :
    Option (ℕ × List α × Option BatchSendErrorReason) :=
  if items = [] then some (0, items, none)
  else if alive then pushAll answers items 0
  else some (0, items, some .closed)

theorem full_of_pushAll {answers : List (Pc α)} {items rest : List α} {n sent : ℕ}
    (h : pushAll answers items n = some (sent, rest, some .full)) :
    ∃ item, .full item ∈ answers := by
  induction answers generalizing items n with
  | nil => cases items <;> cases h
  | cons pc answers ih =>
    cases items with
    | nil => cases h
    | cons a items =>
      cases pc with
      | pushed => exact (ih h).imp fun _ hmem => mem_cons_of_mem _ hmem
      | full returned => exact ⟨returned, mem_cons_self⟩
      | _ => cases h

/-- A call by the answers of its pushes reports `Full`. -/
def ReportsFull (answers : List (Pc α)) : Prop :=
  (∃ item pc, answers = [pc] ∧ ∃ returned, trySend true item pc = some (.error (returned, false))) ∨
    ∃ items sent unsent, trySendBatchCore true items answers = some (sent, unsent, some .full)

theorem full_of_reportsFull {answers : List (Pc α)} (h : ReportsFull answers) :
    ∃ item, .full item ∈ answers := by
  rcases h with ⟨item, pc, rfl, returned, htry⟩ | ⟨items, sent, unsent, hcore⟩
  · cases pc <;> cases htry
    exact ⟨returned, mem_singleton_self _⟩
  · unfold trySendBatchCore at hcore
    split_ifs at hcore with hnil halive
    · cases hcore
    · exact full_of_pushAll hcore
    · cases hcore

namespace System

/-- The pop of the call has claimed a position and not freed it. -/
def holds (p : Party α) : ℕ :=
  match p.pc with
  | .read _ | .free _ _ => 1
  | _ => 0

/-- The positions that are claimed by pushes and not freed by pops: those claimed by pops are freed,
but for the ones that a pop holds. -/
def outstanding (s : System α) : ℕ := s.pushes.length + weigh holds s.parties - s.claims.length

/-- The check of the capacity has a position that the pops have passed. -/
def Stale (s : System α) : Action α → Prop
  | .step i => ∃ item pos, s.At i (.loadHead item pos) ∧
      ∀ e, s.claims.length ≤ e → e ≤ s.pushes.length → pos ≠ e % 2 ^ 64
  | _ => False

def Behind (s : System α) (pos : ℕ) : Action α → Prop
  | .step i => ∃ item, s.At i (.loadStamp item pos) ∧ diff (s.ring.slot pos).seq pos < 0
  | _ => False

/-- A position is claimed by a push, and by no pop that has freed it. -/
def Unfreed (s : System α) (pos : ℕ) : Prop :=
  pos < s.pushes.length ∧ (pos ∉ s.claims ∨ ∃ i, s.At i (.read pos) ∨ ∃ item, s.At i (.free pos item))

/-- A step at which no push can give up. -/
def Room (s : System α) (a : Action α) : Prop :=
  s.outstanding < s.ring.cap ∧ ¬ s.Stale a ∧ ∀ pos, ¬ s.Behind pos a

/-- The positions are the numbers of the claims. -/
def Counted (s : System α) : Prop :=
  s.ring.enqueuePos = s.pushes.length % 2 ^ 64 ∧ s.ring.dequeuePos = s.claims.length % 2 ^ 64

variable {s s' t : System α} {a : Action α} {i : ℕ} {item : α} {pos : ℕ}

theorem Counted.step (h : s.Counted) (hstep : s.step a = some s') : s'.Counted := by
  cases a with
  | start op | drop =>
    simp only [System.step] at hstep
    split_ifs at hstep
    cases hstep
    exact h
  | spurious i =>
    obtain ⟨p, -, hmatch⟩ := bind_eq_some_iff.mp hstep
    split at hmatch <;> cases hmatch <;> exact h
  | step i =>
    obtain ⟨p, -, hmap⟩ := bind_eq_some_iff.mp hstep
    obtain ⟨⟨ring, pc⟩, haccess, rfl⟩ := map_eq_some_iff.mp hmap
    obtain ⟨henq, hdeq⟩ := h
    have hnext : ∀ n, wrappingAdd (n % 2 ^ 64) 1 = (n + 1) % 2 ^ 64 := fun n => Nat.mod_add_mod n _ 1
    cases hpc : p.pc with
    | claimTail item pos =>
      simp only [Ring.access, hpc] at haccess
      unfold move
      rw [hpc]
      split_ifs at haccess with heq <;> cases haccess <;> simp only [record, heq, if_true, if_false]
      · refine ⟨?_, hdeq⟩
        show wrappingAdd pos 1 = (s.pushes ++ [item]).length % 2 ^ 64
        rw [← heq, henq, length_append]
        exact hnext _
      · exact ⟨henq, hdeq⟩
    | claimHead pos =>
      simp only [Ring.access, hpc] at haccess
      unfold move
      rw [hpc]
      split_ifs at haccess with heq <;> cases haccess <;> simp only [record, heq, if_true, if_false]
      · refine ⟨henq, ?_⟩
        show wrappingAdd pos 1 = (s.claims ++ [pos]).length % 2 ^ 64
        rw [← heq, hdeq, length_append]
        exact hnext _
      · exact ⟨henq, hdeq⟩
    | _ =>
      simp only [Ring.access, hpc] at haccess
      unfold move
      rw [hpc]
      try split_ifs at haccess
      all_goals cases haccess
      all_goals exact ⟨henq, hdeq⟩

/-- A push gives up only where there is no room. -/
theorem full_of_step (hcounted : s.Counted) (hstep : s.step a = some s')
    (hnot : ¬ s.At i (.full item)) (hfull : s'.At i (.full item)) : ¬ s.Room a := by
  rintro ⟨hroom, hstale, hbehind⟩
  cases a with
  | start op | drop =>
    simp only [System.step] at hstep
    split_ifs at hstep
    cases hstep
    rcases Inv.of_at_append hfull rfl with hold | hpc
    · exact hnot hold
    · first
        | cases hpc
        | cases op <;> cases hpc
  | spurious j =>
    obtain ⟨p, hp, hmatch⟩ := bind_eq_some_iff.mp hstep
    split at hmatch <;> cases hmatch
    all_goals
      rcases hfull.of_set hp rfl with ⟨-, hpc⟩ | ⟨-, hold⟩
      · cases hpc
      · exact hnot hold
  | step j =>
    obtain ⟨p, hp, hmap⟩ := bind_eq_some_iff.mp hstep
    obtain ⟨⟨ring, pc⟩, haccess, rfl⟩ := map_eq_some_iff.mp hmap
    rcases hfull.of_set hp rfl with ⟨rfl, hpc⟩ | ⟨-, hold⟩
    swap
    · exact hnot hold
    obtain rfl : pc = .full item := hpc
    cases hpc : p.pc with
    | loadHead item' pos =>
      simp only [Ring.access, hpc] at haccess
      split_ifs at haccess with hcap
      swap
      · cases haccess
      obtain ⟨e, hle, hlt, rfl⟩ : ∃ e, s.claims.length ≤ e ∧ e ≤ s.pushes.length ∧
          pos = e % 2 ^ 64 := by
        by_contra hno
        exact hstale ⟨item', pos, ⟨p, hp, hpc⟩, fun e hle hlt heq => hno ⟨e, hle, hlt, heq⟩⟩
      rw [hcounted.2, wrappingSub] at hcap
      unfold outstanding at hroom
      omega
    | loadStamp item' pos =>
      simp only [Ring.access, hpc] at haccess
      split_ifs at haccess with hzero hneg
      · cases haccess
      · exact hbehind pos ⟨item', ⟨p, hp, hpc⟩, hneg⟩
      · cases haccess
    | _ =>
      simp only [Ring.access, hpc] at haccess
      try split_ifs at haccess
      all_goals cases haccess

/-- A stamp is behind only while the position one lap before is not freed. -/
theorem Inv.unfreed_of_behind {phase : ℕ → Phase} (h : Inv s phase) (hbehind : s.Behind pos a) :
    s.lap ≤ pos ∧ s.Unfreed (pos - s.lap) := by
  cases a with
  | step i =>
    obtain ⟨item, ⟨p, hp, hpc⟩, hdiff⟩ := hbehind
    have hknows := h.knows i p hp
    rw [hpc] at hknows
    obtain ⟨hle, -⟩ := hknows
    have hlow := h.sized.low
    have hroom := h.sized.room
    have hclaims := h.history.claims
    rw [h.sized.slot, diff_of_lt (h.seq_lt pos) (by omega)] at hdiff
    have hseq : (s.ring.buf (pos % s.lap)).seq < pos := by omega
    have hfits := h.fits_at pos
    -- the slot has an earlier position, which is one lap away
    have hback : ∀ q, q % s.lap = pos % s.lap → q < pos → s.ring.enqueuePos ≤ q + s.lap →
        (q ∉ s.claims ∨ ∃ j, s.At j (.read q) ∨ ∃ item, s.At j (.free q item)) →
        s.lap ≤ pos ∧ s.Unfreed (pos - s.lap) := by
      intro q hmod hlt henq hheld
      rcases eq_or_add_of_mod_eq hmod hlt.le (by omega) with rfl | rfl
      · exact absurd hlt (lt_irrefl _)
      · rw [Nat.add_sub_cancel, Unfreed, h.history.pushes]
        exact ⟨Nat.le_add_left _ _, lt_of_lt_of_le (by omega) hle, hheld⟩
    cases hph : phase (pos % s.lap) with
    | free q =>
      rw [hph] at hfits
      obtain ⟨-, hbuf, henq, -⟩ := hfits
      rw [hbuf] at hseq
      simp only at hseq
      omega
    | writing q j =>
      rw [hph] at hfits
      obtain ⟨hmod, hdeq, -, hor⟩ := hfits
      have hq : q < pos := by
        rcases hor with ⟨_, -, -, hbuf⟩ | ⟨-, hbuf⟩ <;> rw [hbuf] at hseq <;> exact hseq
      exact hback q hmod hq (by omega) (.inl (by simpa [hclaims] using hdeq))
    | full q =>
      rw [hph] at hfits
      obtain ⟨hmod, hdeq, -, hbuf⟩ := hfits
      rw [hbuf] at hseq
      exact hback q hmod (Nat.lt_of_succ_lt hseq) (by omega) (.inl (by simpa [hclaims] using hdeq))
    | reading q j =>
      rw [hph] at hfits
      obtain ⟨hmod, -, henq, hor⟩ := hfits
      have hq : q + 1 < pos := by
        rcases hor with ⟨-, hbuf⟩ | ⟨-, hbuf⟩ <;> rw [hbuf] at hseq <;> exact hseq
      refine hback q hmod (Nat.lt_of_succ_lt hq) henq (.inr ⟨j, ?_⟩)
      rcases hor with ⟨hat, -⟩ | ⟨hat, -⟩
      · exact .inl hat
      · exact .inr ⟨_, hat⟩
  | start op | spurious i | drop => cases hbehind

/-- Nobody's push has given up, of those that begin in the run. -/
theorem not_full_of_room {s₀ : System α} {n : ℕ} (h0 : s₀.Counted) (hn : s₀.parties.length ≤ n)
    (hrun : Run System.step Room s₀ s) : ∀ i ≥ n, ∀ item, ¬ s.At i (.full item) := by
  have hinv := hrun.invariant (I := fun t => t.Counted ∧ ∀ i ≥ n, ∀ item, ¬ t.At i (.full item))
    ⟨h0, fun i hi item ⟨p, hp, _⟩ => by simp [List.getElem?_eq_none (hn.trans hi)] at hp⟩
    fun t a u hI hroom hstep => ⟨hI.1.step hstep, fun i hi item hfull =>
      full_of_step hI.1 hstep (hI.2 i hi item) hfull hroom⟩
  exact hinv.2

/-- Two items are pushed; one pop claims the older and does not free it, another takes the newer. -/
def slowPop : List (Action ℕ) :=
  .start (.push 7) :: List.replicate 6 (.step 0) ++ .start (.push 8) :: List.replicate 6 (.step 1) ++
    .start .pop :: List.replicate 3 (.step 2) ++ .start .pop :: List.replicate 5 (.step 3)

/-- The push that comes then, up to its load of the stamp. -/
def thirdPush : List (Action ℕ) := [.start (.push 9), .step 4, .step 4]

end System

end Fibre.Channels.Vyukov
