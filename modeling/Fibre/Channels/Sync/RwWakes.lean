import Fibre.Channels.Sync.RwQueue

/-!
# Nobody is forgotten in the queue

Where the lock is free and somebody is queued, somebody will look at the lock: a queued waiter that
has been woken, one that holds the spinlock and looks at the word again before it waits, or an
unlock or a drop that is about to wake one. Whoever waits while the lock is held by others has seen
`HAS_QUEUED` raised, so the last owner wakes; whoever is woken and gives up passes the wake on.

A reader that is woken alone would be of no use behind a queued writer, so where writers are queued
it is one of them that is awake.
-/

namespace Fibre.Channels.Sync

open Function Machine List

/-- It is about to look at the lock, with its node queued. -/
def Pc.rechecks : Pc → Bool
  | .raise | .recheck | .recompare _ => true
  | _ => false

/-- The handles a party has taken and not called yet. -/
def Pc.handles : Pc → List Waiter
  | .popReaders _ wakes | .call wakes => wakes
  | .fixPending (.call wakes) | .fixQueued (.call wakes) | .leave (.call wakes) => wakes
  | _ => []

/-- An unlock, or the drop of a future that was woken, is about to wake the waiters. -/
def Party.wakes (c : Core) (i : ℕ) (p : Party) : Prop :=
  match p.pc with
  | .lockList .wake | .inside .wake | .popReaders _ _ => True
  | .fixPending .dropped | .fixQueued .dropped | .leave .dropped | .dropped =>
    (c.list.nodes i).state = .woken
  | _ => False

namespace System

/-- A queued waiter is about to look at the lock: it has been woken, or it looks again before it
waits. Where writers are queued it is a writer. -/
def Awake (s : System) (j : ℕ) (p : Party) : Prop :=
  j ∈ s.core.queue ∧ ((s.core.list.nodes j).state = .woken ∨ p.pc.rechecks = true) ∧
    (p.kind = .writer ∨ s.core.list.writers = 0)

/-- Where the lock is free and somebody is queued, somebody will look at it. -/
def Attended (s : System) : Prop :=
  s.core.word.free = true → s.core.queue ≠ [] →
    (∃ (i : ℕ) (p : Party), s.parties[i]? = some p ∧ p.wakes s.core i) ∨
      ∃ (j : ℕ) (p : Party), s.parties[j]? = some p ∧ s.Awake j p

/-- The handle a woken waiter has registered last has been called, or whoever has taken it is to
call it. -/
def Called (s : System) : Prop :=
  ∀ j p, s.parties[j]? = some p → (s.core.list.nodes j).state = .woken →
    ⟨j, s.core.round j⟩ ∈ s.core.called ∨
      ∃ (k : ℕ) (q : Party), s.parties[k]? = some q ∧ ⟨j, s.core.round j⟩ ∈ q.pc.handles

variable {s s' : System} {a : Action} {c : Core} {i j : ℕ} {p p' q : Party}

theorem getElem?_set_self' (hp : s.parties[i]? = some p) : (s.parties.set i p')[i]? = some p' := by
  have hlt : i < s.parties.length := (List.getElem?_eq_some_iff.mp hp).1
  simp [hlt]

namespace Attended

theorem keep (h : s.Attended) (hp : s.parties[i]? = some p)
    (hfree : c.word.free = true → s.core.word.free = true) (hlist : c.list = s.core.list)
    (hkind : p'.kind = p.kind) (hwakes : p.wakes s.core i → p'.wakes s.core i)
    (hre : p.pc.rechecks = true → p'.pc.rechecks = true) :
    Attended ⟨c, s.parties.set i p'⟩ := by
  have hqueue : c.queue = s.core.queue := by rw [Core.queue, Core.queue, hlist]
  have hwakes_congr : ∀ k (q : Party), q.wakes s.core k → q.wakes c k := by
    intro k q hq
    unfold Party.wakes at hq ⊢
    rw [hlist]
    exact hq
  intro hf hne
  simp only [hqueue] at hne
  rcases h (hfree hf) hne with ⟨k, q, hq, hw⟩ | ⟨k, q, hq, hmem, hawake, hkindq⟩
  · by_cases hki : k = i
    · subst hki
      obtain rfl : p = q := Option.some.inj (hp.symm.trans hq)
      exact .inl ⟨k, p', getElem?_set_self' hp, hwakes_congr k p' (hwakes hw)⟩
    · exact .inl ⟨k, q, by rw [List.getElem?_set_ne (Ne.symm hki)]; exact hq,
        hwakes_congr k q hw⟩
  · right
    by_cases hki : k = i
    · subst hki
      obtain rfl : p = q := Option.some.inj (hp.symm.trans hq)
      refine ⟨k, p', getElem?_set_self' hp, ?_, ?_, ?_⟩
      · exact hqueue ▸ hmem
      · rw [hlist]
        exact hawake.imp id hre
      · rw [hlist, hkind]
        exact hkindq
    · refine ⟨k, q, by rw [List.getElem?_set_ne (Ne.symm hki)]; exact hq, ?_, ?_, ?_⟩
      · exact hqueue ▸ hmem
      · rw [hlist]
        exact hawake
      · rw [hlist]
        exact hkindq

theorem of_wakes (hp : s.parties[i]? = some p) (hw : p'.wakes c i) :
    Attended ⟨c, s.parties.set i p'⟩ :=
  fun _ _ => .inl ⟨i, p', getElem?_set_self' hp, hw⟩

theorem of_not_free (hfree : c.word.free = false) : Attended ⟨c, s.parties.set i p'⟩ := by
  intro hf
  rw [show (System.mk c (s.parties.set i p')).core.word.free = c.word.free from rfl, hfree] at hf
  cases hf

theorem transfer (h : s.Attended) (hfree : s.core.word.free = true) (hne : s.core.queue ≠ [])
    (hp : s.parties[i]? = some p) (hpw : ¬ p.wakes s.core i) (hpa : ¬ s.Awake i p)
    (hstate : ∀ k, k ≠ i → (c.list.nodes k).state = (s.core.list.nodes k).state)
    (hmem : ∀ k, k ≠ i → k ∈ s.core.queue → k ∈ c.queue)
    (hwriters : s.core.list.writers = 0 → c.list.writers = 0) :
    Attended ⟨c, s.parties.set i p'⟩ := by
  intro _ _
  rcases h hfree hne with ⟨k, q, hq, hw⟩ | ⟨k, q, hq, hk, hawake, hkind⟩
  · have hki : k ≠ i := by
      rintro rfl
      obtain rfl : p = q := Option.some.inj (hp.symm.trans hq)
      exact hpw hw
    refine .inl ⟨k, q, by rw [List.getElem?_set_ne (Ne.symm hki)]; exact hq, ?_⟩
    unfold Party.wakes at hw ⊢
    rw [hstate k hki]
    exact hw
  · have hki : k ≠ i := by
      rintro rfl
      obtain rfl : p = q := Option.some.inj (hp.symm.trans hq)
      exact hpa ⟨hk, hawake, hkind⟩
    refine .inr ⟨k, q, by rw [List.getElem?_set_ne (Ne.symm hki)]; exact hq, hmem k hki hk, ?_, ?_⟩
    · rw [hstate k hki]
      exact hawake
    · exact hkind.imp id hwriters

theorem arm (h : s.Attended) (hqueued : s.Queued) (hp : s.parties[i]? = some p)
    (hpc : p.pc = .inside .arm) :
    Attended ⟨s.core.arm i p, s.parties.set i { p with hasNode := true, pc := .raise }⟩ := by
  intro hfree hne
  have hmem : i ∈ (s.core.arm i p).queue := by
    rw [(hqueued.arm_queue hp hpc).2]
    split_ifs with hi <;> simp [hi]
  by_cases hself : p.kind = .writer ∨ (s.core.arm i p).list.writers = 0
  · exact .inr ⟨i, _, getElem?_set_self' hp, hmem, .inr rfl, hself⟩
  have hreader : p.kind = .reader := by
    cases hk : p.kind with
    | reader => rfl
    | writer => exact absurd (.inl hk) hself
  have hwriters : s.core.list.writers ≠ 0 :=
    (hqueued.arm_writers hp hpc hreader).mp fun hz => hself (.inr hz)
  obtain ⟨j, hj, -⟩ := hqueued.holds.writers_ne_zero.mp hwriters
  refine h.transfer hfree (ne_nil_of_mem hj) hp ?_ ?_ ?_ ?_ ?_ hfree hne
  · simp [Party.wakes, hpc]
  · rintro ⟨-, -, hk | hk⟩
    · rw [hreader] at hk
      cases hk
    · exact hwriters hk
  · intro k hki
    rw [(hqueued.arm_node hp hpc k).2.1, if_neg hki]
  · exact fun k hki hk => (hqueued.mem_arm_queue hp hpc k hki).mpr hk
  · exact fun hz => absurd hz hwriters

theorem block (h : s.Attended) (hqueued : s.Queued) (hp : s.parties[i]? = some p)
    (hpc : p.pc = .recheck) (hb : s.core.word.blocked p.kind = true) :
    Attended ⟨s.core, s.parties.set i { p with pc := .leave .park }⟩ := by
  intro hfree hne
  have hagrees : s.core.Agrees := by simpa [Flagged, hpc] using hqueued.flagged i p hp
  have hfree' : s.core.word.writeLocked = false ∧ s.core.word.readers = 0 := by
    simpa [Word.free] using hfree
  have hreader : p.kind = .reader ∧ s.core.word.writerPending = true := by
    cases hk : p.kind with
    | reader => simpa [Word.blocked, hk, hfree'.1] using hb
    | writer => simp [Word.blocked, hk, hfree'] at hb
  have hwriters := hagrees.1.mp hreader.2
  refine h.transfer hfree hne hp ?_ ?_ (fun _ _ => rfl) (fun _ _ hk => hk) id hfree hne
  · simp [Party.wakes, hpc]
  · rintro ⟨-, -, hk | hk⟩
    · rw [hreader.1] at hk
      cases hk
    · exact hwriters hk

theorem cancel (h : s.Attended) (hqueued : s.Queued) (hp : s.parties[i]? = some p)
    (hpc : p.pc = .inside .cancel) (hw : (p'.pc = .fixPending .dropped ∨ p'.pc = .leave .dropped)) :
    Attended ⟨{ s.core with list := (s.core.list.unlink i).2 }, s.parties.set i p'⟩ := by
  have hholds := hqueued.holds.unlink_erase i
  have hqueue := hholds.waiters
  have hnode := hqueued.holds.unlink_node i
  by_cases hwoken : (s.core.list.nodes i).state = .woken
  · apply of_wakes hp
    rw [← (hnode i).2.1] at hwoken
    rcases hw with hw | hw
    all_goals
      unfold Party.wakes
      rw [hw]
      exact hwoken
  intro hfree hne
  have hne' : s.core.queue ≠ [] := by
    intro hnil
    apply hne
    rw [Core.queue, hqueue, hnil]
    rfl
  refine h.transfer hfree hne' hp ?_ ?_ ?_ ?_ ?_ hfree hne
  · simp [Party.wakes, hpc]
  · rintro ⟨-, hk | hk, -⟩
    · exact hwoken hk
    · simp [hpc, Pc.rechecks] at hk
  · exact fun k _ => (hnode k).2.1
  · intro k hki hk
    rw [Core.queue, hqueue]
    exact (mem_erase_of_ne hki).mpr hk
  · intro hz
    by_contra hnz
    obtain ⟨k, hk, hkw⟩ := hholds.writers_ne_zero.mp hnz
    rw [(hnode k).1] at hkw
    exact hqueued.holds.writers_ne_zero.mpr ⟨k, mem_of_mem_erase hk, hkw⟩ hz

/-- An owner that frees the lock wakes, unless the only waiter has yet to look at the lock. -/
theorem release (hqueued : s.Queued) (hex : s.Exclusive) (hp : s.parties[i]? = some p)
    (hpc : p.pc = .holding) :
    Attended ⟨{ s.core with word := s.core.word.release p.kind },
      s.parties.set i { p with pc := if s.core.word.wakes p.kind then .lockList .wake else .done }⟩ := by
  intro hfree hne
  have hword := hex.word_of_owns hp (by simp [hpc, Pc.owns])
  have hwakes : s.core.word.hasQueued = true → s.core.word.wakes p.kind = true := by
    intro hqueued'
    cases hk : p.kind with
    | reader =>
      have hpos := hword.1 hk
      simp only [Word.free, Word.release, hk, Bool.and_eq_true, decide_eq_true_eq] at hfree
      have hone : s.core.word.readers = 1 := by omega
      simp [Word.wakes, hone, hqueued']
    | writer => simp [Word.wakes, hqueued']
  cases hflag : s.core.word.hasQueued with
  | true =>
    refine .inl ⟨i, _, getElem?_set_self' hp, ?_⟩
    simp [Party.wakes, hwakes hflag]
  | false =>
    have hlocked : s.core.locked = true := by
      by_contra hl
      have hagrees := hqueued.agrees (by simpa using hl)
      rw [hagrees.2.mpr hne] at hflag
      cases hflag
    obtain ⟨k, q, hq, hin⟩ := hex.exists_inside hlocked
    have hki : k ≠ i := by
      rintro rfl
      obtain rfl : p = q := Option.some.inj (hp.symm.trans hq)
      simp [hpc, Pc.isInside] at hin
    rcases (hqueued.flagged k q hq).hasQueued hin hne with htrue | ⟨hraise, hself⟩
    · rw [hflag] at htrue
      cases htrue
    refine .inr ⟨k, q, by rw [List.getElem?_set_ne (Ne.symm hki)]; exact hq, ?_, ?_, ?_⟩
    · show k ∈ s.core.queue
      simp [hself]
    · exact .inr (by simp [hraise, Pc.rechecks])
    · cases hk : q.kind with
      | writer => exact .inl rfl
      | reader =>
        right
        show s.core.list.writers = 0
        by_contra hnz
        obtain ⟨m, hm, hmw⟩ := hqueued.holds.writers_ne_zero.mp hnz
        obtain rfl : m = k := by simpa [hself] using hm
        have hkw := (hqueued.seat m q hq).isWriter.mp hmw
        rw [hk] at hkw
        cases hkw

theorem start (h : s.Attended) (hqueued : s.Queued) (kind : Kind) (mode : Mode) :
    Attended ⟨s.core.enter s.parties.length kind,
      s.parties ++ [⟨kind, mode, false, .attempt (attempts mode)⟩]⟩ := by
  have hnew : s.parties.length ∉ s.core.queue := fun hi => Nat.lt_irrefl _ (hqueued.owned _ hi)
  have hqueue : (s.core.enter s.parties.length kind).queue = s.core.queue :=
    (hqueued.holds.create hnew (decide (kind = .writer)) _).waiters
  have hnode : ∀ (k : ℕ) (q : Party), s.parties[k]? = some q →
      (s.parties ++ [⟨kind, mode, false, .attempt (attempts mode)⟩])[k]? = some q ∧
        ((s.core.enter s.parties.length kind).list.nodes k).state =
          (s.core.list.nodes k).state := by
    intro k q hq
    have hk : k < s.parties.length := (List.getElem?_eq_some_iff.mp hq).1
    refine ⟨by rw [List.getElem?_append_left hk]; exact hq, ?_⟩
    simp [Core.enter, WaitList.create, Nat.ne_of_lt hk]
  intro hfree hne
  simp only [hqueue] at hne
  rcases h hfree hne with ⟨k, q, hq, hw⟩ | ⟨k, q, hq, hmem, hawake, hkind⟩
  · obtain ⟨hq', hstate⟩ := hnode k q hq
    refine .inl ⟨k, q, hq', ?_⟩
    unfold Party.wakes at hw ⊢
    rw [hstate]
    exact hw
  · obtain ⟨hq', hstate⟩ := hnode k q hq
    refine .inr ⟨k, q, hq', hqueue ▸ hmem, ?_, hkind⟩
    rw [hstate]
    exact hawake

theorem step (h : s.Attended) (hqueued : s.Queued) (hex : s.Exclusive)
    (hstep : s.step a = some s') : s'.Attended := by
  rcases step_cases hstep with ⟨kind, mode, rfl⟩ | ⟨i, p, c, p', hp, hmove, rfl⟩
  · exact h.start hqueued kind mode
  cases hmove with
  | @fail n hpc =>
    refine h.keep hp id rfl rfl ?_ ?_
    all_goals rcases hpc with hpc | ⟨w, hpc⟩
    all_goals simp [Party.wakes, hpc, Pc.rechecks]
  | look hpc hb =>
    exact h.keep hp id rfl rfl (by simp [Party.wakes, hpc]) (by simp [hpc, Pc.rechecks])
  | acquire hpc =>
    apply of_not_free
    cases p.kind <;> simp [Word.free, Word.acquire]
  | @lock e hpc hl =>
    refine h.keep hp id rfl rfl ?_ (by simp [hpc, Pc.rechecks])
    cases e <;> simp [Party.wakes, hpc]
  | arm hpc => exact h.arm hqueued hp hpc
  | raise hpc =>
    refine h.keep hp ?_ rfl rfl (by simp [Party.wakes, hpc]) (by simp [Pc.rechecks])
    cases p.kind <;> exact id
  | block hpc hb => exact h.block hqueued hp hpc hb
  | relook hpc hb =>
    exact h.keep hp id rfl rfl (by simp [Party.wakes, hpc]) (by simp [Pc.rechecks])
  | miss hpc => exact h.keep hp id rfl rfl (by simp [Party.wakes, hpc]) (by simp [Pc.rechecks])
  | win hpc =>
    apply of_not_free
    cases p.kind <;> simp [Word.free, Word.acquire]
  | won hpc => exact of_not_free (hex.not_free hp (by simp [hpc, Pc.owns]))
  | unlink hpc he =>
    rcases he with rfl | rfl
    · exact of_not_free (hex.not_free hp (by simp [hpc, Pc.owns]))
    · exact h.cancel hqueued hp hpc (.inl rfl)
  | skip hpc he hr =>
    rcases he with rfl | rfl
    · exact of_not_free (hex.not_free hp (by simp [hpc, Pc.owns]))
    · exact h.cancel hqueued hp hpc (.inr rfl)
  | @wakeWriter j hpc hw hj =>
    rw [hqueued.holds.firstWriter] at hj
    have hmem := mem_of_find?_eq_some hj
    have hwriter := List.find?_some hj
    obtain ⟨q, hq⟩ := hqueued.exists_party hmem
    have hij : i ≠ j := by
      rintro rfl
      have hq := ((hqueued.seat i p hp).queueing hmem).2
      simp [hpc, Pc.queueing] at hq
    intro _ _
    refine .inr ⟨j, q, by rw [List.getElem?_set_ne hij]; exact hq, ?_, .inl ?_, .inl ?_⟩
    · have hqueue := (hqueued.holds.takeAndMarkWoken j).waiters
      rw [Core.queue, hqueue]
      exact hmem
    · rw [(WaitList.Holds.takeAndMarkWoken_node s.core.list j j).2.1, if_pos rfl]
    · exact (hqueued.seat j q hq).isWriter.mp hwriter
  | wakeReaders hpc hw => exact of_wakes hp trivial
  | pop hpc => exact of_wakes hp trivial
  | popped hpc =>
    have hflagged := hqueued.flagged i p hp
    simp only [Flagged, hpc] at hflagged
    intro _ hne
    exact absurd (List.head?_eq_none_iff.mp hflagged.2.1.symm) hne
  | @fixPending a hpc =>
    refine h.keep hp id rfl rfl ?_ (by simp [hpc, Pc.rechecks])
    cases a <;> simp [Party.wakes, hpc]
  | @fixQueued a hpc =>
    refine h.keep hp id rfl rfl ?_ (by simp [hpc, Pc.rechecks])
    cases a <;> simp [Party.wakes, hpc]
  | @leave a hpc =>
    refine h.keep hp id rfl rfl ?_ (by simp [hpc, Pc.rechecks])
    cases a <;> simp [Party.wakes, hpc, After.pc]
  | retry hpc hwoken =>
    exact h.keep hp id rfl rfl (by simp [Party.wakes, hpc]) (by simp [hpc, Pc.rechecks])
  | sleep hpc => exact h.keep hp id rfl rfl id id
  | release hpc => exact release hqueued hex hp hpc
  | pass hpc hwoken => exact of_wakes hp trivial
  | finish hpc =>
    refine h.keep hp id rfl rfl ?_ ?_
    · rcases hpc with ⟨hpc, hn⟩ | hpc
      · simp [Party.wakes, hpc, hn]
      · simp [Party.wakes, hpc]
    · rcases hpc with ⟨hpc, -⟩ | hpc <;> simp [hpc, Pc.rechecks]
  | call hpc =>
    exact h.keep hp id rfl rfl (by simp [Party.wakes, hpc]) (by simp [hpc, Pc.rechecks])
  | drop hm hpc =>
    exact h.keep hp id rfl rfl (by simp [Party.wakes, hpc]) (by simp [hpc, Pc.rechecks])

end Attended

namespace Called

theorem move (h : s.Called) (hp : s.parties[i]? = some p)
    (hcalled : ∀ w ∈ s.core.called, w ∈ c.called)
    (hhandles : ∀ w ∈ p.pc.handles, w ∈ p'.pc.handles ∨ w ∈ c.called)
    (hstate : ∀ (k : ℕ) (q : Party), s.parties[k]? = some q → (c.list.nodes k).state = .woken →
      ((s.core.list.nodes k).state = .woken ∧ c.round k = s.core.round k) ∨
        ⟨k, c.round k⟩ ∈ p'.pc.handles) :
    Called ⟨c, s.parties.set i p'⟩ := by
  intro j q hq hwoken
  have hset : (s.parties.set i p')[i]? = some p' := getElem?_set_self' hp
  obtain ⟨q₀, hq₀⟩ : ∃ q₀, s.parties[j]? = some q₀ := by
    have hlt := (List.getElem?_eq_some_iff.mp hq).1
    rw [length_set] at hlt
    exact ⟨_, List.getElem?_eq_getElem hlt⟩
  rcases hstate j q₀ hq₀ hwoken with ⟨hold, hround⟩ | hmem
  · simp only [hround]
    rcases h j q₀ hq₀ hold with hin | ⟨k, r, hr, hin⟩
    · exact .inl (hcalled _ hin)
    · by_cases hki : k = i
      · subst hki
        obtain rfl : p = r := Option.some.inj (hp.symm.trans hr)
        rcases hhandles _ hin with hin | hin
        · exact .inr ⟨k, p', hset, hin⟩
        · exact .inl hin
      · exact .inr ⟨k, r, by rw [List.getElem?_set_ne (Ne.symm hki)]; exact hr, hin⟩
  · exact .inr ⟨i, p', hset, hmem⟩

theorem keep (h : s.Called) (hp : s.parties[i]? = some p) (hcalled : c.called = s.core.called)
    (hround : c.round = s.core.round)
    (hstate : ∀ k, (c.list.nodes k).state = (s.core.list.nodes k).state)
    (hhandles : p'.pc.handles = p.pc.handles) : Called ⟨c, s.parties.set i p'⟩ := by
  apply h.move hp
  · rw [hcalled]
    exact fun _ hw => hw
  · rw [hhandles]
    exact fun _ hw => .inl hw
  · intro k q _ hwoken
    rw [hstate] at hwoken
    exact .inl ⟨hwoken, congrFun hround k⟩

theorem mark (h : s.Called) (hqueued : s.Queued) (hp : s.parties[i]? = some p) {l : WaitList}
    (hstate : ∀ k, (l.nodes k).state = (if k = j then .woken else (s.core.list.nodes k).state))
    (hhandles : ∀ w ∈ p.pc.handles, w ∈ p'.pc.handles)
    (htaken : ∀ w, (s.core.list.nodes j).waiter = some w → w ∈ p'.pc.handles) :
    Called ⟨{ s.core with list := l }, s.parties.set i p'⟩ := by
  apply h.move hp
  · exact fun _ hw => hw
  · exact fun w hw => .inl (hhandles w hw)
  · intro k q hq hwoken
    dsimp only at hwoken ⊢
    rw [hstate] at hwoken
    split_ifs at hwoken with hkj
    · subst hkj
      cases hold : (s.core.list.nodes k).state with
      | woken => exact .inl ⟨rfl, rfl⟩
      | waiting =>
        right
        apply htaken
        rw [(hqueued.seat k q hq).waiter, hold]
        rfl
    · exact .inl ⟨hwoken, rfl⟩

theorem start (h : s.Called) (kind : Kind) (mode : Mode) :
    Called ⟨s.core.enter s.parties.length kind,
      s.parties ++ [⟨kind, mode, false, .attempt (attempts mode)⟩]⟩ := by
  intro j q hq hwoken
  simp only [Core.enter, WaitList.create, WaitList.modify_nodes] at hwoken ⊢
  split_ifs at hwoken with hj
  · cases hwoken
  have hlt : j < s.parties.length := by
    have hle := (List.getElem?_eq_some_iff.mp hq).1
    rw [length_append, length_singleton] at hle
    omega
  rw [List.getElem?_append_left hlt] at hq
  rcases h j q hq hwoken with hin | ⟨k, r, hr, hin⟩
  · exact .inl hin
  · have hk := (List.getElem?_eq_some_iff.mp hr).1
    exact .inr ⟨k, r, by rw [List.getElem?_append_left hk]; exact hr, hin⟩

theorem step (h : s.Called) (hqueued : s.Queued) (hstep : s.step a = some s') : s'.Called := by
  rcases step_cases hstep with ⟨kind, mode, rfl⟩ | ⟨i, p, c, p', hp, hmove, rfl⟩
  · exact h.start kind mode
  cases hmove with
  | @fail n hpc =>
    have hnext : (p.failed n).pc.handles = [] := by
      unfold Party.failed
      dsimp only
      split_ifs <;> rfl
    refine h.keep hp rfl rfl (fun _ => rfl) (hnext.trans ?_)
    rcases hpc with hpc | ⟨w, hpc⟩ <;> simp [hpc, Pc.handles]
  | acquire hpc =>
    have hnext : p.acquired.pc.handles = [] := by
      unfold Party.acquired
      dsimp only
      split_ifs <;> rfl
    exact h.keep hp rfl rfl (fun _ => rfl) (hnext.trans (by simp [hpc, Pc.handles]))
  | arm hpc =>
    apply h.move hp
    · exact fun _ hw => hw
    · simp [hpc, Pc.handles]
    · intro k q hq hwoken
      obtain ⟨-, hs, -⟩ := hqueued.arm_node hp hpc k
      rw [hs] at hwoken
      split_ifs at hwoken with hki
      exact .inl ⟨hwoken, by simp [Core.arm, hki]⟩
  | won hpc =>
    exact h.keep hp rfl rfl (fun k => (hqueued.holds.unlink_node i k).2.1)
      (by simp [hpc, Pc.handles])
  | unlink hpc he =>
    refine h.keep hp rfl rfl (fun k => (hqueued.holds.unlink_node i k).2.1) ?_
    rcases he with rfl | rfl <;> simp [hpc, Pc.handles, Entry.after]
  | skip hpc he hr =>
    refine h.keep hp rfl rfl (fun k => (hqueued.holds.unlink_node i k).2.1) ?_
    rcases he with rfl | rfl <;> simp [hpc, Pc.handles, Entry.after]
  | @wakeWriter j hpc hw hj =>
    refine h.mark (j := j) hqueued hp
      (fun k => (WaitList.Holds.takeAndMarkWoken_node _ j k).2.1) (by simp [hpc, Pc.handles]) ?_
    intro w hwaiter
    simp [Pc.handles, WaitList.takeAndMarkWoken, hwaiter]
  | @pop j wakes hpc =>
    refine h.mark (j := j) hqueued hp (fun k => (hqueued.holds.pop_node j k).2.1) ?_ ?_
    · intro w hw
      simp only [hpc, Pc.handles] at hw
      exact mem_append_left _ hw
    · intro w hwaiter
      rw [← (hqueued.holds.unlink_node j j).2.2] at hwaiter
      simp [Pc.handles, WaitList.pop, WaitList.takeAndMarkWoken, hwaiter]
  | @fixPending a hpc =>
    refine h.keep hp rfl rfl (fun _ => rfl) ?_
    cases a <;> simp [hpc, Pc.handles]
  | @fixQueued a hpc =>
    refine h.keep hp rfl rfl (fun _ => rfl) ?_
    cases a <;> simp [hpc, Pc.handles]
  | @leave a hpc =>
    refine h.keep hp rfl rfl (fun _ => rfl) ?_
    cases a <;> simp [hpc, Pc.handles, After.pc]
  | sleep hpc => exact h.keep hp rfl rfl (fun _ => rfl) rfl
  | release hpc =>
    refine h.keep hp rfl rfl (fun _ => rfl) ?_
    dsimp only
    split_ifs <;> simp [hpc, Pc.handles]
  | finish hpc =>
    refine h.keep hp rfl rfl (fun _ => rfl) ?_
    rcases hpc with ⟨hpc, -⟩ | hpc <;> simp [hpc, Pc.handles]
  | @call w wakes hpc =>
    apply h.move hp
    · exact fun _ hw => mem_cons_of_mem w hw
    · intro v hv
      simp only [hpc, Pc.handles] at hv
      rcases mem_cons.mp hv with rfl | hv
      · exact .inr mem_cons_self
      · exact .inl hv
    · exact fun k _ _ hwoken => .inl ⟨hwoken, rfl⟩
  | look hpc | lock hpc | raise hpc | block hpc | relook hpc | miss hpc | win hpc
  | wakeReaders hpc | popped hpc | retry hpc | pass hpc | drop _ hpc =>
    exact h.keep hp rfl rfl (fun _ => rfl) (by simp [hpc, Pc.handles])

end Called

/-! ### The reachable states -/

/-- A waiter has been woken: its node is marked, and the handle it registered last has been called
or is among those that somebody is calling. -/
def Woken (s : System) (j : ℕ) : Prop :=
  (s.core.list.nodes j).state = .woken ∧ (⟨j, s.core.round j⟩ ∈ s.core.called ∨
    ∃ (k : ℕ) (q : Party), s.parties[k]? = some q ∧ ⟨j, s.core.round j⟩ ∈ q.pc.handles)

/-- What the lock promises of a state. -/
structure Sound (s : System) : Prop where
  /-- two owners are readers -/
  excludes : ∀ (i j : ℕ) (p q : Party), i ≠ j → s.parties[i]? = some p → s.parties[j]? = some q →
    p.pc.owns = true → q.pc.owns = true → p.kind = .reader ∧ q.kind = .reader
  /-- the flags agree with the queue while nobody holds its spinlock -/
  flags : s.core.locked = false →
    (s.core.word.writerPending = true ↔
      ∃ j ∈ s.core.list.waiters, (s.core.list.nodes j).isWriter = true) ∧
    (s.core.word.hasQueued = true ↔ s.core.list.waiters ≠ [])
  /-- nobody is forgotten: a queued waiter has been woken, somebody is about to wake one, or one
  holds the spinlock and is to look at the lock again -/
  attended : s.core.word.free = true → s.core.list.waiters ≠ [] →
    (∃ j ∈ s.core.list.waiters, s.Woken j) ∨
    (∃ (i : ℕ) (p : Party), s.parties[i]? = some p ∧ p.wakes s.core i) ∨
    (s.core.locked = true ∧ ∃ j ∈ s.core.list.waiters, ∃ p : Party, s.parties[j]? = some p ∧
      p.pc.rechecks = true)

theorem Exclusive.init : System.init.Exclusive :=
  ⟨rfl, rfl, fun _ => rfl, rfl, by simp [System.init]⟩

theorem Queued.init : System.init.Queued := by
  have hqueue : System.init.core.queue = [] := rfl
  refine ⟨?_, ?_, ?_, ?_, fun _ => ⟨?_, ?_⟩⟩
  · rw [hqueue]
    exact WaitList.holds_new
  · simp [hqueue]
  · simp [System.init]
  · simp [System.init]
  · simp [Core.PendingAgrees, System.init, WaitList.new]
  · rw [Core.QueuedAgrees, hqueue]
    simp [System.init]

theorem invariant_of_reachable (h : Reachable System.step System.init s) :
    s.Exclusive ∧ s.Queued ∧ s.Attended ∧ s.Called := by
  refine h.invariant (I := fun s => s.Exclusive ∧ s.Queued ∧ s.Attended ∧ s.Called) ?_ ?_
  · refine ⟨Exclusive.init, Queued.init, fun _ hne => absurd rfl hne, fun j p hp => ?_⟩
    simp [System.init] at hp
  · rintro t a u ⟨hex, hqueued, hattended, hcalled⟩ - hstep
    exact ⟨hex.step hstep, hqueued.step hex hstep, hattended.step hqueued hex hstep,
      hcalled.step hqueued hstep⟩

theorem sound_of_reachable (h : Reachable System.step System.init s) : s.Sound := by
  obtain ⟨hex, hqueued, hattended, hcalled⟩ := invariant_of_reachable h
  refine ⟨?_, ?_, ?_⟩
  · intro i j p q hij hp hq hpo hqo
    exact ⟨hex.reader_of_ne hij hp hq hpo hqo, hex.reader_of_ne hij.symm hq hp hqo hpo⟩
  · intro hl
    have hagrees := hqueued.agrees hl
    exact ⟨hagrees.1.trans hqueued.holds.writers_ne_zero, hagrees.2⟩
  · intro hfree hne
    rcases hattended hfree hne with hw | ⟨j, p, hp, hmem, hawake, -⟩
    · exact .inr (.inl hw)
    rcases hawake with hwoken | hre
    · exact .inl ⟨j, hmem, hwoken, hcalled j p hp hwoken⟩
    · refine .inr (.inr ⟨hex.locked hp ?_, j, hmem, p, hp, hre⟩)
      cases hpc : p.pc <;> simp_all [Pc.rechecks, Pc.isInside]

/-- A writer leaves while a future for writing waits in the queue. -/
def wokenWriter : List Action :=
  [Action.start .writer .sync, .step 0, .step 0, .start .writer .async] ++
    List.replicate 10 (Action.step 1) ++ List.replicate 5 (Action.step 0)

/-- The queued writer is awake then, and it is the only one to look at the lock. -/
theorem sound_wokenWriter : ∃ s, Reachable System.step System.init s ∧ s.Sound ∧
    s.core.word.free = true ∧ s.core.list.waiters = [1] ∧
    (s.core.list.nodes 1).state = .woken := by
  have hexec : (exec System.step (fun _ _ => true) System.init wokenWriter).map
      (fun s => (s.core.word.free, s.core.list.waiters, (s.core.list.nodes 1).state)) =
      some (true, [1], .woken) := by
    rfl
  obtain ⟨s, hs, heq⟩ := Option.map_eq_some_iff.mp hexec
  have hreach := reachable_of_exec hs
  obtain ⟨hfree, hwaiters, hstate⟩ : s.core.word.free = true ∧ s.core.list.waiters = [1] ∧
      (s.core.list.nodes 1).state = .woken := by
    simpa using heq
  exact ⟨s, hreach, sound_of_reachable hreach, hfree, hwaiters, hstate⟩

/-- A reader gives up trying, the writer unlocks, and only then does the reader queue. -/
def queuedLate : List Action :=
  [Action.start .writer .sync, .step 0, .step 0, .start .reader .async] ++
    List.replicate 5 (Action.step 1) ++ [Action.step 0, .step 1, .step 1]

/-- At that point the lock is free and the reader is queued, but it has not been woken and nobody
is about to wake it. -/
theorem not_attended_queuedLate : ¬ ∀ s, Reachable System.step System.init s →
    s.core.word.free = true → s.core.list.waiters ≠ [] →
    (∃ j ∈ s.core.list.waiters, (s.core.list.nodes j).state = .woken) ∨
      ∃ (i : ℕ) (p : Party), s.parties[i]? = some p ∧ p.wakes s.core i := by
  intro hall
  have hexec : (exec System.step (fun _ _ => true) System.init queuedLate).map
      (fun s => (s.core.word.free, s.core.list.waiters, (s.core.list.nodes 1).state, s.parties)) =
      some (true, [1], .waiting,
        [⟨.writer, .sync, false, .done⟩, ⟨.reader, .async, true, .raise⟩]) := rfl
  obtain ⟨s, hs, heq⟩ := Option.map_eq_some_iff.mp hexec
  obtain ⟨hfree, hwaiters, hstate, hparties⟩ : s.core.word.free = true ∧
      s.core.list.waiters = [1] ∧ (s.core.list.nodes 1).state = .waiting ∧
      s.parties = [⟨.writer, .sync, false, .done⟩, ⟨.reader, .async, true, .raise⟩] := by
    simpa using heq
  rcases hall s (reachable_of_exec hs) hfree (by simp [hwaiters]) with
    ⟨j, hj, hwoken⟩ | ⟨i, p, hp, hw⟩
  · rw [hwaiters] at hj
    rw [List.mem_singleton.mp hj, hstate] at hwoken
    cases hwoken
  · rw [hparties] at hp
    match i, hp with
    | 0, hp =>
      obtain rfl := Option.some.inj hp
      exact hw
    | 1, hp =>
      obtain rfl := Option.some.inj hp
      exact hw

end System

end Fibre.Channels.Sync
