import Fibre.Channels.Sync.RwLock

/-!
# Readers and writers exclude each other

A party owns the lock from the `compare_exchange` that succeeds until its guard is dropped: with
the guard it has it also while it takes its node out of the queue. The state word counts the
owners, and the test before the `compare_exchange`, which the exchanged word has passed, keeps the
two kinds apart.
-/

namespace Fibre.Channels.Sync

open Function Crew List Nat

/-- It has acquired the lock and has not released it. -/
def Pc.owns : Pc → Bool
  | .lockList .finish | .inside .finish | .won => true
  | .fixPending .hold | .fixQueued .hold | .leave .hold | .holding => true
  | _ => false

/-- It holds the list's spinlock. -/
def Pc.isInside : Pc → Bool
  | .inside _ | .raise | .recheck | .recompare _ | .won | .popReaders _ _ => true
  | .fixPending _ | .fixQueued _ | .leave _ => true
  | _ => false

/-- The word a `compare_exchange` expects is one that the lock can be acquired from. -/
def Party.Looked (p : Party) : Prop :=
  match p.pc with
  | .compare _ s | .recompare s => s.blocked p.kind = false
  | _ => True

/-- Whether a party counts as an owner of the kind `k`. -/
def Party.owning (k : Kind) (p : Party) : ℕ := if p.kind = k ∧ p.pc.owns then 1 else 0

def Party.inside (p : Party) : ℕ := if p.pc.isInside then 1 else 0

theorem Party.owning_eq {p q : Party} (hkind : q.kind = p.kind) (howns : q.pc.owns = p.pc.owns)
    (k : Kind) : q.owning k = p.owning k := by
  rw [owning, owning, hkind, howns]

theorem Party.inside_eq {p q : Party} (h : q.pc.isInside = p.pc.isInside) :
    q.inside = p.inside := by
  rw [inside, inside, h]

/-- The state word counts the owners, and the spinlock who is inside. -/
structure System.Exclusive (s : System) : Prop where
  readers : weigh (Party.owning .reader) s.parties = s.core.word.readers
  writer : weigh (Party.owning .writer) s.parties = s.core.word.writeLocked.toNat
  apart : s.core.word.writeLocked = true → s.core.word.readers = 0
  inside : weigh Party.inside s.parties = s.core.locked.toNat
  looked : ∀ p ∈ s.parties, p.Looked

namespace System.Exclusive

variable {s : System} {c : Core} {i j : ℕ} {p p' q : Party}

theorem looked_at (h : s.Exclusive) (hp : s.parties[i]? = some p) : p.Looked :=
  h.looked p (mem_of_getElem? hp)

theorem looked_set (h : s.Exclusive) (hp' : p'.Looked) : ∀ q ∈ s.parties.set i p', q.Looked := by
  intro q hq
  rcases mem_or_eq_of_mem_set hq with hq | rfl
  · exact h.looked q hq
  · exact hp'

theorem keep (h : s.Exclusive) (hp : s.parties[i]? = some p)
    (hreaders : c.word.readers = s.core.word.readers)
    (hwriter : c.word.writeLocked = s.core.word.writeLocked) (hlocked : c.locked = s.core.locked)
    (hkind : p'.kind = p.kind) (howns : p'.pc.owns = p.pc.owns)
    (hinside : p'.pc.isInside = p.pc.isInside) (hlooked : p'.Looked) :
    Exclusive ⟨c, s.parties.set i p'⟩ := by
  have hr := weigh_set (Party.owning .reader) hp p'
  have hw := weigh_set (Party.owning .writer) hp p'
  have hin := weigh_set Party.inside hp p'
  rw [Party.owning_eq hkind howns] at hr hw
  rw [Party.inside_eq hinside] at hin
  refine ⟨?_, ?_, ?_, ?_, h.looked_set hlooked⟩
  · rw [hreaders, ← h.readers]
    exact add_right_cancel hr
  · rw [hwriter, ← h.writer]
    exact add_right_cancel hw
  · rw [hreaders, hwriter]
    exact h.apart
  · rw [hlocked, ← h.inside]
    exact add_right_cancel hin

theorem relock (h : s.Exclusive) (hp : s.parties[i]? = some p) {b : Bool}
    (hlocked : s.core.locked = !b) (hkind : p'.kind = p.kind) (howns : p'.pc.owns = p.pc.owns)
    (hbefore : p.pc.isInside = !b) (hinside : p'.pc.isInside = b) (hlooked : p'.Looked) :
    Exclusive ⟨{ s.core with locked := b }, s.parties.set i p'⟩ := by
  have hr := weigh_set (Party.owning .reader) hp p'
  have hw := weigh_set (Party.owning .writer) hp p'
  have hin := weigh_set Party.inside hp p'
  rw [Party.owning_eq hkind howns] at hr hw
  have hold := h.inside
  simp only [Party.inside, hbefore, hinside] at hin
  refine ⟨?_, ?_, h.apart, ?_, h.looked_set hlooked⟩
  · rw [← h.readers]
    exact add_right_cancel hr
  · rw [← h.writer]
    exact add_right_cancel hw
  · rw [hlocked] at hold
    cases b <;> simp_all

theorem acquire (h : s.Exclusive) (hp : s.parties[i]? = some p)
    (hfree : s.core.word.blocked p.kind = false) (hkind : p'.kind = p.kind)
    (hbefore : p.pc.owns = false) (howns : p'.pc.owns = true)
    (hinside : p'.pc.isInside = p.pc.isInside) (hlooked : p'.Looked) :
    Exclusive ⟨{ s.core with word := s.core.word.acquire p.kind }, s.parties.set i p'⟩ := by
  have hr := weigh_set (Party.owning .reader) hp p'
  have hw := weigh_set (Party.owning .writer) hp p'
  have hin := weigh_set Party.inside hp p'
  rw [Party.inside_eq hinside] at hin
  have hreaders := h.readers
  have hwriter := h.writer
  have hinside' := add_right_cancel hin
  simp only [Party.owning, hkind, hbefore, howns, Bool.false_eq_true, and_false, if_false,
    and_true, add_zero] at hr hw
  cases hk : p.kind with
  | reader =>
    obtain ⟨hunlocked, -⟩ : s.core.word.writeLocked = false ∧ s.core.word.writerPending = false := by
      simpa [Word.blocked, hk] using hfree
    refine ⟨?_, ?_, ?_, hinside'.trans h.inside, h.looked_set hlooked⟩
    · rw [hr, hk, hreaders]
      rfl
    · rw [hw, hk, hwriter]
      rfl
    · intro hlocked
      rw [Word.acquire, hunlocked] at hlocked
      cases hlocked
  | writer =>
    obtain ⟨hunlocked, hzero⟩ : s.core.word.writeLocked = false ∧ s.core.word.readers = 0 := by
      simpa [Word.blocked, hk] using hfree
    refine ⟨?_, ?_, fun _ => hzero, hinside'.trans h.inside, h.looked_set hlooked⟩
    · rw [hr, hk, hreaders]
      rfl
    · rw [hw, hk, hwriter, hunlocked]
      rfl

theorem release (h : s.Exclusive) (hp : s.parties[i]? = some p) (hkind : p'.kind = p.kind)
    (hbefore : p.pc.owns = true) (howns : p'.pc.owns = false)
    (hinside : p'.pc.isInside = p.pc.isInside) (hlooked : p'.Looked) :
    Exclusive ⟨{ s.core with word := s.core.word.release p.kind }, s.parties.set i p'⟩ := by
  have hr := weigh_set (Party.owning .reader) hp p'
  have hw := weigh_set (Party.owning .writer) hp p'
  have hin := weigh_set Party.inside hp p'
  rw [Party.inside_eq hinside] at hin
  have hreaders := h.readers
  have hwriter := h.writer
  have hinside' := add_right_cancel hin
  simp only [Party.owning, hkind, hbefore, howns, Bool.false_eq_true, and_false, if_false,
    and_true, add_zero] at hr hw
  cases hk : p.kind with
  | reader =>
    simp only [hk, if_true, reduceCtorEq, if_false] at hr hw
    refine ⟨?_, ?_, ?_, hinside'.trans h.inside, h.looked_set hlooked⟩
    · simp only [Word.release]
      omega
    · simp only [Word.release]
      omega
    · intro hlocked
      have hzero := h.apart hlocked
      simp only [Word.release]
      omega
  | writer =>
    simp only [hk, if_true, reduceCtorEq, if_false] at hr hw
    have hle : s.core.word.writeLocked.toNat ≤ 1 := Bool.toNat_le _
    refine ⟨?_, ?_, ?_, hinside'.trans h.inside, h.looked_set hlooked⟩
    · simp only [Word.release]
      omega
    · simp only [Word.release, Bool.toNat_false]
      omega
    · intro hlocked
      cases hlocked

theorem word_of_owns (h : s.Exclusive) (hp : s.parties[i]? = some p) (howns : p.pc.owns = true) :
    (p.kind = .reader → 1 ≤ s.core.word.readers) ∧
      (p.kind = .writer → s.core.word.writeLocked = true) := by
  constructor
  · intro hkind
    have hle := le_weigh (Party.owning .reader) hp
    simpa [h.readers, Party.owning, hkind, howns] using hle
  · intro hkind
    have hle := le_weigh (Party.owning .writer) hp
    rw [h.writer] at hle
    simp only [Party.owning, hkind, howns, and_self, if_true] at hle
    cases hlocked : s.core.word.writeLocked with
    | true => rfl
    | false => simp [hlocked] at hle

theorem not_free (h : s.Exclusive) (hp : s.parties[i]? = some p) (howns : p.pc.owns = true) :
    s.core.word.free = false := by
  have hword := h.word_of_owns hp howns
  cases hk : p.kind with
  | reader =>
    have hpos := hword.1 hk
    simp only [Word.free, Bool.and_eq_false_iff, decide_eq_false_iff_not]
    exact .inr (by omega)
  | writer => simp [Word.free, hword.2 hk]

/-- Two owners are readers. -/
theorem reader_of_ne (h : s.Exclusive) (hne : i ≠ j) (hp : s.parties[i]? = some p)
    (hq : s.parties[j]? = some q) (hpo : p.pc.owns = true) (hqo : q.pc.owns = true) :
    p.kind = .reader := by
  by_contra hkind
  have hpw : p.kind = .writer := by
    cases hk : p.kind with
    | reader => exact absurd hk hkind
    | writer => rfl
  have hlocked := (h.word_of_owns hp hpo).2 hpw
  cases hk : q.kind with
  | reader =>
    have hpos := (h.word_of_owns hq hqo).1 hk
    have hzero := h.apart hlocked
    omega
  | writer =>
    have hle : weigh (Party.owning .writer) s.parties ≤ 1 := by
      rw [h.writer]
      exact Bool.toNat_le _
    exact hne (unique_of_weigh_le_one hle hp hq (by simp [Party.owning, hpw, hpo])
      (by simp [Party.owning, hk, hqo]))

theorem unique (h : s.Exclusive) (hp : s.parties[i]? = some p) (hq : s.parties[j]? = some q)
    (hpi : p.pc.isInside = true) (hqi : q.pc.isInside = true) : i = j := by
  have hle : weigh Party.inside s.parties ≤ 1 := by
    rw [h.inside]
    exact Bool.toNat_le _
  exact unique_of_weigh_le_one hle hp hq (by simp [Party.inside, hpi]) (by simp [Party.inside, hqi])

theorem locked (h : s.Exclusive) (hp : s.parties[i]? = some p) (hpi : p.pc.isInside = true) :
    s.core.locked = true := by
  have hle := le_weigh Party.inside hp
  rw [h.inside] at hle
  cases hl : s.core.locked with
  | true => rfl
  | false => simp [hl, Party.inside, hpi] at hle

theorem exists_inside (h : s.Exclusive) (hl : s.core.locked = true) :
    ∃ (k : ℕ) (q : Party), s.parties[k]? = some q ∧ q.pc.isInside = true := by
  by_contra hnone
  have hzero : weigh Party.inside s.parties = 0 := by
    apply weigh_eq_zero
    intro q hq
    obtain ⟨k, hk⟩ := List.getElem?_of_mem hq
    have hout : q.pc.isInside ≠ true := fun hin => hnone ⟨k, q, hk, hin⟩
    simp [Party.inside, hout]
  rw [h.inside, hl] at hzero
  cases hzero

theorem step {s' : System} {a : Action} (h : s.Exclusive) (hstep : s.step a = some s') :
    s'.Exclusive := by
  rcases step_cases hstep with ⟨kind, mode, rfl⟩ | ⟨i, p, c, p', hp, hmove, rfl⟩
  · refine ⟨?_, ?_, h.apart, ?_, ?_⟩
    · simpa [Core.enter, Party.owning, Pc.owns] using h.readers
    · simpa [Core.enter, Party.owning, Pc.owns] using h.writer
    · simpa [Core.enter, Party.inside, Pc.isInside] using h.inside
    · intro q hq
      rcases mem_append.mp hq with hq | hq
      · exact h.looked q hq
      · rw [mem_singleton.mp hq]
        exact trivial
  have hlooked := h.looked_at hp
  cases hmove with
  | @fail n hpc =>
    have hnext : (p.failed n).pc.owns = false ∧ (p.failed n).pc.isInside = false ∧
        (p.failed n).Looked := by
      unfold Party.failed Party.Looked
      dsimp only
      split_ifs <;> exact ⟨rfl, rfl, trivial⟩
    rcases hpc with hpc | ⟨w, hpc⟩
    all_goals
      exact h.keep hp rfl rfl rfl rfl (hnext.1.trans (by simp [hpc, Pc.owns]))
        (hnext.2.1.trans (by simp [hpc, Pc.isInside])) hnext.2.2
  | look hpc hb =>
    exact h.keep hp rfl rfl rfl rfl (by simp [hpc, Pc.owns]) (by simp [hpc, Pc.isInside]) hb
  | acquire hpc =>
    have hnext : p.acquired.pc.owns = true ∧ p.acquired.pc.isInside = false ∧
        p.acquired.Looked := by
      unfold Party.acquired Party.Looked
      dsimp only
      split_ifs <;> exact ⟨rfl, rfl, trivial⟩
    have hb : s.core.word.blocked p.kind = false := by simpa [Party.Looked, hpc] using hlooked
    exact h.acquire hp hb rfl (by simp [hpc, Pc.owns]) hnext.1
      (hnext.2.1.trans (by simp [hpc, Pc.isInside])) hnext.2.2
  | win hpc =>
    have hb : s.core.word.blocked p.kind = false := by simpa [Party.Looked, hpc] using hlooked
    exact h.acquire hp hb rfl (by simp [hpc, Pc.owns]) rfl (by simp [hpc, Pc.isInside]) trivial
  | @lock e hpc hl =>
    refine h.relock hp (by simp [hl]) rfl ?_ (by simp [hpc, Pc.isInside]) rfl trivial
    cases e <;> simp [hpc, Pc.owns]
  | @leave a hpc =>
    have hin : p.pc.isInside = true := by simp [hpc, Pc.isInside]
    refine h.relock hp (by simp [h.locked hp hin]) rfl ?_ (by simp [hpc, Pc.isInside]) ?_ ?_
    all_goals cases a <;> simp [hpc, After.pc, Pc.owns, Pc.isInside, Party.Looked]
  | release hpc =>
    refine h.release hp rfl (by simp [hpc, Pc.owns]) ?_ ?_ ?_
    all_goals
      dsimp only [Party.Looked]
      split_ifs <;> simp [hpc, Pc.owns, Pc.isInside]
  | arm hpc =>
    exact h.keep hp rfl rfl rfl rfl (by simp [hpc, Pc.owns]) (by simp [hpc, Pc.isInside]) trivial
  | raise hpc =>
    refine h.keep hp ?_ ?_ rfl rfl (by simp [hpc, Pc.owns]) (by simp [hpc, Pc.isInside]) trivial
    all_goals cases p.kind <;> rfl
  | relook hpc hb =>
    exact h.keep hp rfl rfl rfl rfl (by simp [hpc, Pc.owns]) (by simp [hpc, Pc.isInside]) hb
  | unlink hpc he =>
    rcases he with rfl | rfl
    all_goals
      exact h.keep hp rfl rfl rfl rfl (by simp [hpc, Pc.owns, Entry.after])
        (by simp [hpc, Pc.isInside]) trivial
  | skip hpc he =>
    rcases he with rfl | rfl
    all_goals
      exact h.keep hp rfl rfl rfl rfl (by simp [hpc, Pc.owns, Entry.after])
        (by simp [hpc, Pc.isInside]) trivial
  | @fixPending a hpc =>
    refine h.keep hp rfl rfl rfl rfl ?_ (by simp [hpc, Pc.isInside]) trivial
    cases a <;> simp [hpc, Pc.owns]
  | @fixQueued a hpc =>
    refine h.keep hp rfl rfl rfl rfl ?_ (by simp [hpc, Pc.isInside]) trivial
    cases a <;> simp [hpc, Pc.owns]
  | sleep hpc => exact h.keep hp rfl rfl rfl rfl rfl rfl hlooked
  | finish hpc =>
    rcases hpc with ⟨hpc, -⟩ | hpc
    all_goals
      exact h.keep hp rfl rfl rfl rfl (by simp [hpc, Pc.owns])
        (by simp [hpc, Pc.isInside]) trivial
  | block hpc | miss hpc | won hpc | wakeWriter hpc | wakeReaders hpc | pop hpc | popped hpc | retry hpc
  | pass hpc | call hpc | drop _ hpc =>
    exact h.keep hp rfl rfl rfl rfl (by simp [hpc, Pc.owns]) (by simp [hpc, Pc.isInside]) trivial

end System.Exclusive

end Fibre.Channels.Sync
