import Mathlib.Order.MinMax
import Fibre.Channels.Spmc.Ring

/-!
# The list of cursors

The producer loads the cursors one after the other, from a copy of the list that it has pinned. A
consumer that is cloned meanwhile cannot go on before the producer lets go of the old copy. So
whatever the producer makes of the loads, no consumer is behind it.
-/

namespace Fibre.Channels.Spmc

open Function List Option

variable {T : Type*}

/-- The consumer may read: it is there, and not on its way out. -/
def Consumer.active : Consumer T → Bool
  | .absent | .born | .dropping _ | .gone | .broken => false
  | _ => true

/-- The step of `modify` the consumer is at. -/
def Consumer.phase : Consumer T → Option Phase
  | .cloning _ phase | .dropping phase => some phase
  | _ => none

/-- The consumer at another step of the same `modify`. -/
def Consumer.withPhase (phase : Phase) : Consumer T → Consumer T
  | .cloning child _ => .cloning child phase
  | .dropping _ => .dropping phase
  | p => p

/-- The producer is counted as a reader of the copy. -/
def Producer.pins (idx : Bool) : Producer T → Bool
  | .pinned _ i | .unpin _ i | .scan _ i _ _ => i = idx
  | _ => false

def Producer.guards (idx : Bool) : Producer T → Bool
  | .scan _ i _ _ => i = idx
  | _ => false

/-- Where the child of a `clone` is listed. -/
def Pushed (l : LeftRight (List ℕ)) (child : ℕ) : Phase → Prop
  | .lock | .mutate => True
  | .publish => child ∈ l.data (!l.liveIdx)
  | .drain | .sync => child ∈ l.data l.liveIdx
  | .unlock => ∀ idx, child ∈ l.data idx

/-- The list that holds the child is the live one. -/
def Phase.published : Phase → Bool
  | .drain | .sync | .unlock => true
  | _ => false

theorem Producer.pins_of_guards {p : Producer T} {idx : Bool} (h : p.guards idx) : p.pins idx := by
  cases p <;> simp_all [Producer.guards, Producer.pins]

namespace System

variable {s t : System T} {c : ℕ}

/-- While it scans, the producer still has to load the cursor, or has taken it into account. -/
def Covered (s : System T) (c : ℕ) : Prop :=
  ∀ job idx rest minTail, s.producer = .scan job idx rest minTail →
    c ∈ rest ∨ ∃ m, minTail = some m ∧ m ≤ s.tail c

/-- The active consumers are listed in both copies, and the producer covers them. -/
structure Listed (s : System T) : Prop where
  holder : ∀ c phase, (s.consumer c).phase = some phase → phase ≠ .lock → s.tailsMutex = some c
  listed : ∀ c, (s.consumer c).active → ∀ idx, c ∈ s.tails.data idx
  born : ∀ c child phase, s.consumer c = .cloning child phase →
    s.consumer child = .born ∧ s.tail child = s.tail c
  parent : ∀ c c' child phase phase', s.consumer c = .cloning child phase →
    s.consumer c' = .cloning child phase' → c = c'
  pushed : ∀ c child phase, s.consumer c = .cloning child phase → Pushed s.tails child phase
  readers : ∀ idx, s.tails.activeReaders idx = if s.producer.pins idx then 1 else 0
  guard : ∀ idx, s.producer.guards idx → idx = s.tails.liveIdx ∨
    ∃ c, (s.consumer c).phase = some .drain
  covered : ∀ c, (s.consumer c).active → s.Covered c
  child : ∀ c child phase, s.consumer c = .cloning child phase → phase.published →
    s.producer.guards s.tails.liveIdx → s.Covered child

theorem listed_init : (init : System T).Listed where
  holder c phase h := by
    by_cases hc : c = 0 <;> simp [init, hc, Consumer.phase] at h
  listed c h idx := by
    by_cases hc : c = 0
    · simp [init, hc]
    · simp [init, hc, Consumer.active] at h
  born c child phase h := by by_cases hc : c = 0 <;> simp [init, hc] at h
  parent c c' child phase phase' h := by by_cases hc : c = 0 <;> simp [init, hc] at h
  pushed c child phase h := by by_cases hc : c = 0 <;> simp [init, hc] at h
  readers idx := by simp [init, Producer.pins]
  guard idx h := by simp [init, Producer.guards] at h
  covered c _ job idx rest minTail h := by simp [init] at h
  child c child phase h := by by_cases hc : c = 0 <;> simp [init, hc] at h

theorem Covered.mono (h : s.Covered c) (hprod : t.producer = s.producer)
    (htail : s.tail c ≤ t.tail c) : t.Covered c := by
  intro job idx rest minTail hp
  rw [hprod] at hp
  rcases h job idx rest minTail hp with hc | ⟨m, hm, hle⟩
  · exact .inl hc
  · exact .inr ⟨m, hm, hle.trans htail⟩

theorem Listed.holder_unique (h : s.Listed) {c c' : ℕ} {phase phase' : Phase}
    (hc : (s.consumer c).phase = some phase) (hc' : (s.consumer c').phase = some phase')
    (hphase : phase ≠ .lock) (hphase' : phase' ≠ .lock) : c = c' :=
  Option.some.inj ((h.holder c phase hc hphase).symm.trans (h.holder c' phase' hc' hphase'))

theorem Listed.guard_live (h : s.Listed) {idx : Bool} (hg : s.producer.guards idx) {phase : Phase}
    (hc : (s.consumer c).phase = some phase) (hlock : phase ≠ .lock) (hdrain : phase ≠ .drain) :
    idx = s.tails.liveIdx := by
  rcases h.guard idx hg with hidx | ⟨c', hc'⟩
  · exact hidx
  · obtain rfl := h.holder_unique hc hc' hlock (by decide)
    rw [hc] at hc'
    exact absurd (Option.some.inj hc') hdrain

/-- What the producer finds is not above any consumer's cursor. -/
theorem Listed.minTail_le (h : s.Listed) {job : Job T} {idx : Bool} {minTail : Option ℕ}
    (hp : s.producer = .scan job idx [] minTail) (hc : (s.consumer c).active) :
    ∃ m, minTail = some m ∧ m ≤ s.tail c :=
  (h.covered c hc job idx [] minTail hp).resolve_left not_mem_nil

/-- A consumer goes on by itself. -/
structure Quiet (s t : System T) (c : ℕ) (p : Consumer T) : Prop where
  tails : t.tails = s.tails
  tailsMutex : t.tailsMutex = s.tailsMutex
  producer : t.producer = s.producer
  consumer : t.consumer = update s.consumer c p
  tail : ∀ k, k ≠ c → t.tail k = s.tail k
  le : s.tail c ≤ t.tail c

theorem Quiet.consumer_self {p : Consumer T} (ht : Quiet s t c p) : t.consumer c = p := by
  rw [ht.consumer, update_self]

theorem Quiet.consumer_of_ne {p : Consumer T} (ht : Quiet s t c p) {k : ℕ} (hk : k ≠ c) :
    t.consumer k = s.consumer k := by
  rw [ht.consumer, update_of_ne hk]

theorem Quiet.tail_le {p : Consumer T} (ht : Quiet s t c p) (k : ℕ) : s.tail k ≤ t.tail k := by
  by_cases hk : k = c
  · rw [hk]
    exact ht.le
  · rw [ht.tail k hk]

theorem Listed.quiet (h : s.Listed) {p : Consumer T} (ht : Quiet s t c p)
    (hphase : (s.consumer c).phase = none) (hborn : s.consumer c ≠ .born)
    (hp : p.phase = none ∨ p = .dropping .lock)
    (hactive : p.active → (s.consumer c).active) : t.Listed := by
  have hclone : ∀ k child phase, t.consumer k = .cloning child phase →
      s.consumer k = .cloning child phase ∧ k ≠ c ∧ child ≠ c := by
    intro k child phase hk
    have hkc : k ≠ c := by
      rintro rfl
      rw [ht.consumer_self] at hk
      rcases hp with hp | rfl
      · simp [hk, Consumer.phase] at hp
      · simp at hk
    rw [ht.consumer_of_ne hkc] at hk
    refine ⟨hk, hkc, ?_⟩
    rintro rfl
    exact hborn (h.born k _ phase hk).1
  have hphases : ∀ k phase, (t.consumer k).phase = some phase → phase ≠ .lock →
      (s.consumer k).phase = some phase := by
    intro k phase hk hlock
    by_cases hkc : k = c
    · subst hkc
      rw [ht.consumer_self] at hk
      rcases hp with hp | rfl
      · rw [hp] at hk
        cases hk
      · exact absurd (Option.some.inj hk).symm hlock
    · rwa [ht.consumer_of_ne hkc] at hk
  have hact : ∀ k, (t.consumer k).active → (s.consumer k).active := by
    intro k hk
    by_cases hkc : k = c
    · subst hkc
      rw [ht.consumer_self] at hk
      exact hactive hk
    · rwa [ht.consumer_of_ne hkc] at hk
  refine ⟨fun k phase hk hlock => ?_, fun k hk idx => ?_, fun k child phase hk => ?_,
    fun k k' child phase phase' hk hk' => ?_, fun k child phase hk => ?_, fun idx => ?_,
    fun idx hg => ?_, fun k hk => ?_, fun k child phase hk hpub hg => ?_⟩
  · rw [ht.tailsMutex]
    exact h.holder k phase (hphases k phase hk hlock) hlock
  · rw [ht.tails]
    exact h.listed k (hact k hk) idx
  · obtain ⟨hk', hkc, hchild⟩ := hclone k child phase hk
    obtain ⟨hb, htl⟩ := h.born k child phase hk'
    rw [ht.consumer_of_ne hchild, ht.tail child hchild, ht.tail k hkc]
    exact ⟨hb, htl⟩
  · exact h.parent k k' child phase phase' (hclone k child phase hk).1
      (hclone k' child phase' hk').1
  · rw [ht.tails]
    exact h.pushed k child phase (hclone k child phase hk).1
  · rw [ht.tails, ht.producer]
    exact h.readers idx
  · rw [ht.producer] at hg
    rw [ht.tails]
    refine (h.guard idx hg).imp id fun ⟨k, hk⟩ => ⟨k, ?_⟩
    have hkc : k ≠ c := by
      rintro rfl
      rw [hphase] at hk
      cases hk
    rwa [ht.consumer_of_ne hkc]
  · exact (h.covered k (hact k hk)).mono ht.producer (ht.tail_le k)
  · rw [ht.producer, ht.tails] at hg
    exact (h.child k child phase (hclone k child phase hk).1 hpub hg).mono ht.producer
      (ht.tail_le child)

/-- The producer goes on: neither the list nor a consumer changes. -/
structure Scans (s t : System T) : Prop where
  liveIdx : t.tails.liveIdx = s.tails.liveIdx
  data : t.tails.data = s.tails.data
  tailsMutex : t.tailsMutex = s.tailsMutex
  consumer : t.consumer = s.consumer
  tail : t.tail = s.tail

theorem Listed.scans (h : s.Listed) (ht : Scans s t)
    (hreaders : ∀ idx, t.tails.activeReaders idx = if t.producer.pins idx then 1 else 0)
    (hguard : ∀ idx, t.producer.guards idx → idx = s.tails.liveIdx ∨ s.producer.guards idx)
    (hcovered : (∀ c, c ∈ s.tails.data s.tails.liveIdx → t.Covered c) ∨
      ((∀ c, s.Covered c → t.Covered c) ∧ ∀ idx, t.producer.guards idx → s.producer.guards idx)) :
    t.Listed := by
  refine ⟨fun k phase hk hlock => ?_, fun k hk idx => ?_, fun k child phase hk => ?_,
    fun k k' child phase phase' hk hk' => ?_, fun k child phase hk => ?_, hreaders,
    fun idx hg => ?_, fun k hk => ?_, fun k child phase hk hpub hg => ?_⟩
  · rw [ht.consumer] at hk
    rw [ht.tailsMutex]
    exact h.holder k phase hk hlock
  · rw [ht.consumer] at hk
    rw [ht.data]
    exact h.listed k hk idx
  · rw [ht.consumer] at hk ⊢
    rw [ht.tail]
    exact h.born k child phase hk
  · rw [ht.consumer] at hk hk'
    exact h.parent k k' child phase phase' hk hk'
  · rw [ht.consumer] at hk
    have hold := h.pushed k child phase hk
    unfold Pushed at hold ⊢
    rw [ht.data, ht.liveIdx]
    exact hold
  · rw [ht.liveIdx, ht.consumer]
    rcases hguard idx hg with hidx | hg
    · exact .inl hidx
    · exact h.guard idx hg
  · rw [ht.consumer] at hk
    rcases hcovered with hcov | ⟨hcov, -⟩
    · exact hcov k (h.listed k hk _)
    · exact hcov k (h.covered k hk)
  · rw [ht.consumer] at hk
    rw [ht.liveIdx] at hg
    rcases hcovered with hcov | ⟨hcov, hguards⟩
    · have hold := h.pushed k child phase hk
      refine hcov child ?_
      cases phase with
      | lock | mutate | publish => simp [Phase.published] at hpub
      | drain | sync => exact hold
      | unlock => exact hold _
    · exact hcov child (h.child k child phase hk hpub (hguards _ hg))

/-- The holder of the lock takes the next step of its `modify`. -/
structure Modifies (s t : System T) (c : ℕ) (phase phase' : Phase) : Prop where
  phase : (s.consumer c).phase = some phase
  consumer : t.consumer = update s.consumer c ((s.consumer c).withPhase phase')
  readers : t.tails.activeReaders = s.tails.activeReaders
  producer : t.producer = s.producer
  tail : t.tail = s.tail

section Modifies

variable {phase phase' : Phase}

theorem Modifies.phase_self (ht : Modifies s t c phase phase') :
    (t.consumer c).phase = some phase' := by
  have hold := ht.phase
  rw [ht.consumer, update_self]
  cases hc : s.consumer c <;> simp_all [Consumer.phase, Consumer.withPhase]

theorem Modifies.consumer_of_ne (ht : Modifies s t c phase phase') {k : ℕ} (hk : k ≠ c) :
    t.consumer k = s.consumer k := by
  rw [ht.consumer, update_of_ne hk]

theorem Modifies.active (ht : Modifies s t c phase phase') (k : ℕ) :
    (t.consumer k).active = (s.consumer k).active := by
  by_cases hk : k = c
  · subst hk
    rw [ht.consumer, update_self]
    cases s.consumer k <;> simp [Consumer.active, Consumer.withPhase]
  · rw [ht.consumer_of_ne hk]

theorem Modifies.cloning (ht : Modifies s t c phase phase') {k child : ℕ} {next : Phase}
    (hk : t.consumer k = .cloning child next) :
    (k = c ∧ next = phase' ∧ s.consumer k = .cloning child phase) ∨
      (k ≠ c ∧ s.consumer k = .cloning child next) := by
  by_cases hkc : k = c
  · subst hkc
    have hold := ht.phase
    rw [ht.consumer, update_self] at hk
    refine .inl ⟨rfl, ?_⟩
    cases hc : s.consumer k <;> simp_all [Consumer.phase, Consumer.withPhase]
  · rw [ht.consumer_of_ne hkc] at hk
    exact .inr ⟨hkc, hk⟩

theorem Modifies.exists_cloning (ht : Modifies s t c phase phase') {k child : ℕ} {next : Phase}
    (hk : t.consumer k = .cloning child next) : ∃ old, s.consumer k = .cloning child old := by
  rcases ht.cloning hk with ⟨-, -, hk⟩ | ⟨-, hk⟩
  · exact ⟨_, hk⟩
  · exact ⟨_, hk⟩

theorem Modifies.covered (ht : Modifies s t c phase phase') {k : ℕ} (hk : s.Covered k) :
    t.Covered k :=
  hk.mono ht.producer (by rw [ht.tail])

end Modifies

theorem Listed.modifies (h : s.Listed) {phase phase' : Phase} (ht : Modifies s t c phase phase')
    (hmutex : t.tailsMutex = some c)
    (halone : ∀ k ph, k ≠ c → (s.consumer k).phase = some ph → ph = .lock)
    (hlisted : ∀ k, (s.consumer k).active → ∀ idx, k ∈ t.tails.data idx)
    (hpushed : ∀ child, s.consumer c = .cloning child phase → Pushed t.tails child phase')
    (hguard : ∀ idx, s.producer.guards idx → idx = t.tails.liveIdx ∨ phase' = .drain)
    (hchild : ∀ child, s.consumer c = .cloning child phase → phase'.published →
      s.producer.guards t.tails.liveIdx → s.Covered child) : t.Listed := by
  refine ⟨fun k ph hk hlock => ?_, fun k hk idx => ?_, fun k child ph hk => ?_,
    fun k k' child ph ph' hk hk' => ?_, fun k child ph hk => ?_, fun idx => ?_, fun idx hg => ?_,
    fun k hk => ?_, fun k child ph hk hpub hg => ?_⟩
  · by_cases hkc : k = c
    · rw [hkc]
      exact hmutex
    · rw [ht.consumer_of_ne hkc] at hk
      exact absurd (halone k ph hkc hk) hlock
  · rw [ht.active] at hk
    exact hlisted k hk idx
  · obtain ⟨old, hold⟩ := ht.exists_cloning hk
    obtain ⟨hb, htl⟩ := h.born k child old hold
    have hchild : child ≠ c := by
      rintro rfl
      have := ht.phase
      simp [hb, Consumer.phase] at this
    rw [ht.consumer_of_ne hchild, ht.tail]
    exact ⟨hb, htl⟩
  · obtain ⟨old, hold⟩ := ht.exists_cloning hk
    obtain ⟨old', hold'⟩ := ht.exists_cloning hk'
    exact h.parent k k' child old old' hold hold'
  · rcases ht.cloning hk with ⟨rfl, rfl, hold⟩ | ⟨hkc, hold⟩
    · exact hpushed child hold
    · obtain rfl := halone k ph hkc (by rw [hold]; rfl)
      trivial
  · rw [ht.readers, ht.producer]
    exact h.readers idx
  · rw [ht.producer] at hg
    refine (hguard idx hg).imp id fun hdrain => ⟨c, ?_⟩
    rw [ht.phase_self, hdrain]
  · rw [ht.active] at hk
    exact ht.covered (h.covered k hk)
  · rw [ht.producer] at hg
    rcases ht.cloning hk with ⟨rfl, rfl, hold⟩ | ⟨hkc, hold⟩
    · exact ht.covered (hchild child hold hpub hg)
    · obtain rfl := halone k ph hkc (by rw [hold]; rfl)
      simp [Phase.published] at hpub

theorem mem_mutate_data {l : LeftRight (List ℕ)} {f : List ℕ → List ℕ} {k : ℕ}
    (hf : k ∈ l.data (!l.liveIdx) → k ∈ f (l.data (!l.liveIdx)))
    (hk : ∀ idx, k ∈ l.data idx) (idx : Bool) : k ∈ (l.mutate f).data idx := by
  by_cases hidx : idx = !l.liveIdx
  · subst hidx
    simpa [LeftRight.mutate] using hf (hk _)
  · simpa [LeftRight.mutate, hidx] using hk idx

theorem Listed.stepModify (h : s.Listed) {f : List ℕ → List ℕ} {phase next : Phase}
    (hphase : (s.consumer c).phase = some phase)
    (hf : ∀ k l, (s.consumer k).active → k ∈ l → k ∈ f l)
    (hpush : ∀ child, s.consumer c = .cloning child phase → ∀ l, child ∈ f l) {u : System T}
    (hstep : s.stepModify c f phase = some (u, some next)) :
    (u.setConsumer c ((s.consumer c).withPhase next)).Listed := by
  -- whoever else is in a `modify` waits for the lock
  have halone : phase ≠ .lock → ∀ k ph, k ≠ c → (s.consumer k).phase = some ph → ph = .lock := by
    intro hlock k ph hk hph
    by_contra hcon
    exact hk (h.holder_unique hph hphase hcon hlock)
  have hmutex : phase ≠ .lock → s.tailsMutex = some c := h.holder c phase hphase
  cases phase with
  | lock =>
    simp only [System.stepModify] at hstep
    split_ifs at hstep with hfree
    obtain ⟨rfl, rfl⟩ : _ = u ∧ Phase.mutate = next := by simpa using hstep
    have hfree' : ∀ k ph, (s.consumer k).phase = some ph → ph = .lock := by
      intro k ph hph
      by_contra hcon
      have := h.holder k ph hph hcon
      rw [hfree] at this
      cases this
    refine h.modifies ⟨hphase, rfl, rfl, rfl, rfl⟩ rfl (fun k ph _ => hfree' k ph) h.listed
      (fun _ _ => trivial) (fun idx hg => ?_) (by simp [Phase.published])
    rcases h.guard idx hg with hidx | ⟨k, hk⟩
    · exact .inl hidx
    · cases hfree' k _ hk
  | mutate =>
    obtain ⟨rfl, rfl⟩ : _ = u ∧ Phase.publish = next := by
      simpa [System.stepModify] using hstep
    refine h.modifies ⟨hphase, rfl, rfl, rfl, rfl⟩ (hmutex (by decide)) (halone (by decide))
      (fun k hk idx => ?_) (fun child hc => ?_)
      (fun idx hg => .inl (h.guard_live hg hphase (by decide) (by decide)))
      (by simp [Phase.published])
    · exact mem_mutate_data (hf k _ hk) (h.listed k hk) idx
    · have := hpush child hc (s.tails.data (!s.tails.liveIdx))
      simpa [Pushed, System.setConsumer, LeftRight.mutate] using this
  | publish =>
    obtain ⟨rfl, rfl⟩ : _ = u ∧ Phase.drain = next := by
      simpa [System.stepModify] using hstep
    refine h.modifies ⟨hphase, rfl, rfl, rfl, rfl⟩ (hmutex (by decide)) (halone (by decide))
      h.listed (fun child hc => h.pushed c child _ hc) (fun _ _ => .inr rfl)
      (fun child hc _ hg => ?_)
    -- the guard is on the copy that was live
    have hold : s.producer.guards (!s.tails.liveIdx) := hg
    have := h.guard_live hold hphase (by decide) (by decide)
    simp at this
  | drain =>
    simp only [System.stepModify] at hstep
    split_ifs at hstep with hdrained
    obtain ⟨rfl, rfl⟩ : s = u ∧ Phase.sync = next := by simpa using hstep
    refine h.modifies ⟨hphase, rfl, rfl, rfl, rfl⟩ (hmutex (by decide)) (halone (by decide))
      h.listed (fun child hc => h.pushed c child .drain hc) (fun idx hg => .inl ?_)
      (fun child hc _ hg => h.child c child _ hc rfl hg)
    -- nobody reads the old copy
    have hpins := h.readers idx
    rw [if_pos (Producer.pins_of_guards hg)] at hpins
    by_contra hidx
    have hold : idx = !s.tails.liveIdx := by
      cases idx <;> cases hl : s.tails.liveIdx <;> simp_all [System.setConsumer]
    rw [hold] at hpins
    simp [LeftRight.drained, hpins] at hdrained
  | sync =>
    obtain ⟨rfl, rfl⟩ : _ = u ∧ Phase.unlock = next := by
      simpa [System.stepModify] using hstep
    refine h.modifies ⟨hphase, rfl, rfl, rfl, rfl⟩ (hmutex (by decide)) (halone (by decide))
      (fun k hk idx => ?_) (fun child hc idx => ?_)
      (fun idx hg => .inl (h.guard_live hg hphase (by decide) (by decide)))
      (fun child hc _ hg => h.child c child _ hc rfl hg)
    · exact mem_mutate_data (hf k _ hk) (h.listed k hk) idx
    · have hlive : child ∈ s.tails.data s.tails.liveIdx := h.pushed c child _ hc
      by_cases hidx : idx = s.tails.liveIdx
      · subst hidx
        simpa [System.setConsumer, LeftRight.mutate] using hlive
      · have hstale : idx = !s.tails.liveIdx := by
          cases idx <;> cases hl : s.tails.liveIdx <;> simp_all
        subst hstale
        have := hpush child hc (s.tails.data (!s.tails.liveIdx))
        simpa [System.setConsumer, LeftRight.mutate] using this
  | unlock => simp [System.stepModify] at hstep

/-- A `modify` returns, with the lock released. A clone is active then. -/
structure Ends (s t : System T) (c : ℕ) : Prop where
  phase : (s.consumer c).phase = some .unlock
  self : (t.consumer c).phase = none
  active : (t.consumer c).active → (s.consumer c).active
  child : ∀ k, s.consumer c = .cloning k .unlock → (t.consumer k).phase = none
  other : ∀ k, k ≠ c → s.consumer c ≠ .cloning k .unlock → t.consumer k = s.consumer k
  tails : t.tails = s.tails
  producer : t.producer = s.producer
  tail : t.tail = s.tail

theorem Listed.ends (h : s.Listed) (ht : Ends s t c) : t.Listed := by
  have hsame : ∀ k ph, (t.consumer k).phase = some ph →
      t.consumer k = s.consumer k ∧ k ≠ c ∧ ph = .lock := by
    intro k ph hk
    have hkc : k ≠ c := by
      rintro rfl
      rw [ht.self] at hk
      cases hk
    have hchild : s.consumer c ≠ .cloning k .unlock := by
      intro hcon
      rw [ht.child k hcon] at hk
      cases hk
    have heq := ht.other k hkc hchild
    refine ⟨heq, hkc, ?_⟩
    by_contra hcon
    rw [heq] at hk
    exact hkc (h.holder_unique hk ht.phase hcon (by decide))
  have hclone : ∀ k child ph, t.consumer k = .cloning child ph →
      s.consumer k = .cloning child ph ∧ k ≠ c ∧ ph = .lock := by
    intro k child ph hk
    obtain ⟨heq, hkc, hlock⟩ := hsame k ph (by rw [hk]; rfl)
    exact ⟨by rw [← heq, hk], hkc, hlock⟩
  have hlive : ∀ idx, s.producer.guards idx → idx = s.tails.liveIdx := fun idx hg =>
    h.guard_live hg ht.phase (by decide) (by decide)
  have hact : ∀ k, (t.consumer k).active →
      (s.consumer k).active ∨ s.consumer c = .cloning k .unlock := by
    intro k hk
    by_cases hchild : s.consumer c = .cloning k .unlock
    · exact .inr hchild
    · by_cases hkc : k = c
      · subst hkc
        exact .inl (ht.active hk)
      · rw [ht.other k hkc hchild] at hk
        exact .inl hk
  refine ⟨fun k ph hk hlock => ?_, fun k hk idx => ?_, fun k child ph hk => ?_,
    fun k k' child ph ph' hk hk' => ?_, fun k child ph hk => ?_, fun idx => ?_, fun idx hg => ?_,
    fun k hk => ?_, fun k child ph hk hpub hg => ?_⟩
  · exact absurd (hsame k ph hk).2.2 hlock
  · rw [ht.tails]
    rcases hact k hk with hk | hk
    · exact h.listed k hk idx
    · exact h.pushed c k _ hk idx
  · obtain ⟨hold, hkc, -⟩ := hclone k child ph hk
    obtain ⟨hb, htl⟩ := h.born k child ph hold
    have hchild : child ≠ c := by
      rintro rfl
      have := ht.phase
      simp [hb, Consumer.phase] at this
    have hother : s.consumer c ≠ .cloning child .unlock := fun hcon =>
      hkc (h.parent k c child _ _ hold hcon)
    rw [ht.other child hchild hother, ht.tail]
    exact ⟨hb, htl⟩
  · exact h.parent k k' child ph ph' (hclone k child ph hk).1 (hclone k' child ph' hk').1
  · obtain rfl := (hclone k child ph hk).2.2
    trivial
  · rw [ht.tails, ht.producer]
    exact h.readers idx
  · rw [ht.producer] at hg
    rw [ht.tails]
    exact .inl (hlive idx hg)
  · refine Covered.mono ?_ ht.producer (by rw [ht.tail])
    rcases hact k hk with hk | hk
    · exact h.covered k hk
    · -- the producer's guard, if any, shows the child
      intro job idx rest minTail hp
      have hg : s.producer.guards idx := by simp [hp, Producer.guards]
      have hidx := hlive idx hg
      exact h.child c k _ hk rfl (hidx ▸ hg) job idx rest minTail hp
  · obtain rfl := (hclone k child ph hk).2.2
    simp [Phase.published] at hpub

theorem Listed.clone (h : s.Listed) {child : ℕ} {last : Option (Outcome T)}
    (hc : s.consumer c = .idle last) (hchild : s.consumer child = .absent) :
    Listed { (s.setConsumer c (.cloning child .lock)).setConsumer child .born with
      tail := update s.tail child (s.tail c)
      start := update s.start child (s.tail c) } := by
  have hne : c ≠ child := by
    rintro rfl
    rw [hc] at hchild
    cases hchild
  have hkeep : ∀ k, k ≠ c → k ≠ child →
      ((s.setConsumer c (.cloning child .lock)).setConsumer child .born).consumer k =
        s.consumer k := by
    intro k hkc hkchild
    simp [System.setConsumer, hkc, hkchild]
  have hself : ((s.setConsumer c (.cloning child .lock)).setConsumer child .born).consumer c =
      .cloning child .lock := by
    simp [System.setConsumer, hne]
  have hnew : ((s.setConsumer c (.cloning child .lock)).setConsumer child .born).consumer child =
      .born := by
    simp [System.setConsumer]
  have hcases : ∀ k ch ph, ((s.setConsumer c (.cloning child .lock)).setConsumer child
      .born).consumer k = .cloning ch ph →
      (k = c ∧ ch = child ∧ ph = .lock) ∨
        (k ≠ c ∧ k ≠ child ∧ ch ≠ c ∧ ch ≠ child ∧ s.consumer k = .cloning ch ph) := by
    intro k ch ph hk
    by_cases hkchild : k = child
    · rw [hkchild, hnew] at hk
      cases hk
    · by_cases hkc : k = c
      · rw [hkc, hself] at hk
        cases hk
        exact .inl ⟨hkc, rfl, rfl⟩
      · rw [hkeep k hkc hkchild] at hk
        have hb := (h.born k ch ph hk).1
        refine .inr ⟨hkc, hkchild, ?_, ?_, hk⟩
        · rintro rfl
          rw [hc] at hb
          cases hb
        · rintro rfl
          rw [hchild] at hb
          cases hb
  have hphases : ∀ k ph, (((s.setConsumer c (.cloning child .lock)).setConsumer child
      .born).consumer k).phase = some ph → ph ≠ .lock → (s.consumer k).phase = some ph := by
    intro k ph hk hlock
    by_cases hkchild : k = child
    · rw [hkchild, hnew] at hk
      cases hk
    · by_cases hkc : k = c
      · rw [hkc, hself] at hk
        exact absurd (Option.some.inj hk).symm hlock
      · rwa [hkeep k hkc hkchild] at hk
  have hact : ∀ k, (((s.setConsumer c (.cloning child .lock)).setConsumer child
      .born).consumer k).active → (s.consumer k).active ∧ k ≠ child := by
    intro k hk
    by_cases hkchild : k = child
    · rw [hkchild, hnew] at hk
      cases hk
    · refine ⟨?_, hkchild⟩
      by_cases hkc : k = c
      · rw [hkc, hc]
        rfl
      · rwa [hkeep k hkc hkchild] at hk
  refine ⟨fun k ph hk hlock => h.holder k ph (hphases k ph hk hlock) hlock,
    fun k hk idx => h.listed k (hact k hk).1 idx, fun k ch ph hk => ?_,
    fun k k' ch ph ph' hk hk' => ?_, fun k ch ph hk => ?_, h.readers, fun idx hg => ?_,
    fun k hk => ?_, fun k ch ph hk hpub hg => ?_⟩
  · rcases hcases k ch ph hk with ⟨rfl, rfl, rfl⟩ | ⟨hkc, hkchild, hchc, hch, hold⟩
    · exact ⟨hnew, by simp [hne]⟩
    · obtain ⟨hb, htl⟩ := h.born k ch ph hold
      refine ⟨(hkeep ch hchc hch).trans hb, ?_⟩
      simpa [hch, hkchild] using htl
  · rcases hcases k ch ph hk with ⟨rfl, rfl, rfl⟩ | ⟨hkc, hkchild, hchc, hch, hold⟩
    · rcases hcases k' _ ph' hk' with ⟨rfl, -, -⟩ | ⟨-, -, -, hch', -⟩
      · rfl
      · exact absurd rfl hch'
    · rcases hcases k' ch ph' hk' with ⟨-, rfl, -⟩ | ⟨-, -, -, -, hold'⟩
      · exact absurd rfl hch
      · exact h.parent k k' ch ph ph' hold hold'
  · rcases hcases k ch ph hk with ⟨-, -, rfl⟩ | ⟨-, -, -, -, hold⟩
    · trivial
    · exact h.pushed k ch ph hold
  · refine (h.guard idx hg).imp id fun ⟨k, hk⟩ => ⟨k, ?_⟩
    have hkc : k ≠ c := by
      rintro rfl
      simp [hc, Consumer.phase] at hk
    have hkchild : k ≠ child := by
      rintro rfl
      simp [hchild, Consumer.phase] at hk
    exact (congrArg Consumer.phase (hkeep k hkc hkchild)).trans hk
  · exact (h.covered k (hact k hk).1).mono rfl (by simp [(hact k hk).2])
  · rcases hcases k ch ph hk with ⟨-, -, rfl⟩ | ⟨-, -, -, hch, hold⟩
    · simp [Phase.published] at hpub
    · exact (h.child k ch ph hold hpub hg).mono rfl (by simp [hch])

theorem Listed.stepProducer (h : s.Listed) {capacity : ℕ}
    (hstep : s.stepProducer capacity = some t) : t.Listed := by
  have hreaders := h.readers
  unfold System.stepProducer at hstep
  split at hstep
  case h_1 job hp =>
    obtain rfl := Option.some.inj hstep
    exact h.scans ⟨rfl, rfl, rfl, rfl, rfl⟩
      (fun idx => by simpa [hp, Producer.pins] using hreaders idx) (by simp [Producer.guards])
      (.inl fun c _ => by simp [Covered])
  case h_2 job idx hp =>
    obtain rfl := Option.some.inj hstep
    refine h.scans ⟨rfl, rfl, rfl, rfl, rfl⟩ (fun i => ?_) (by simp [Producer.guards])
      (.inl fun c _ => by simp [Covered])
    have hpin := LeftRight.activeReaders_pin idx
      (fun i => by simpa [hp, Producer.pins] using hreaders i) i
    simpa [Producer.pins] using hpin
  case h_3 job idx hp =>
    split_ifs at hstep with hlive
    · obtain rfl := Option.some.inj hstep
      refine h.scans ⟨rfl, rfl, rfl, rfl, rfl⟩
        (fun i => by simpa [hp, Producer.pins] using hreaders i)
        (fun i hi => .inl (by simpa [Producer.guards, ← hlive, eq_comm] using hi))
        (.inl fun c hc job' idx' rest minTail hscan => ?_)
      obtain ⟨-, -, rfl, -⟩ := Producer.scan.inj hscan
      exact .inl (hlive ▸ hc)
    · obtain rfl := Option.some.inj hstep
      exact h.scans ⟨rfl, rfl, rfl, rfl, rfl⟩
        (fun i => by simpa [hp, Producer.pins] using hreaders i) (by simp [Producer.guards])
        (.inl fun c _ => by simp [Covered])
  case h_4 job idx hp =>
    obtain rfl := Option.some.inj hstep
    refine h.scans ⟨rfl, rfl, rfl, rfl, rfl⟩ (fun i => ?_) (by simp [Producer.guards])
      (.inl fun c _ => by simp [Covered])
    exact LeftRight.activeReaders_unpin (fun i => by simpa [hp, Producer.pins] using hreaders i) i
  case h_5 job idx k rest minTail hp =>
    obtain rfl := Option.some.inj hstep
    refine h.scans ⟨rfl, rfl, rfl, rfl, rfl⟩
      (fun i => by simpa [hp, Producer.pins] using hreaders i)
      (fun i hi => .inr (by simpa [hp, Producer.guards] using hi))
      (.inr ⟨fun c hc job' idx' rest' minTail' hscan => ?_,
        fun i hi => by simpa [hp, Producer.guards] using hi⟩)
    obtain ⟨-, -, rfl, rfl⟩ := Producer.scan.inj hscan
    rcases hc job idx _ minTail hp with hmem | ⟨m, rfl, hm⟩
    · rcases mem_cons.mp hmem with rfl | hmem
      · -- it is loaded now
        refine .inr ⟨_, rfl, ?_⟩
        cases minTail with
        | none => exact le_rfl
        | some m => exact min_le_left _ _
      · exact .inl hmem
    · exact .inr ⟨_, rfl, (min_le_right _ _).trans hm⟩
  case h_6 job idx minTail hp =>
    obtain rfl := Option.some.inj hstep
    have hquiet : ∀ i, (s.afterScan capacity job minTail).pins i = false ∧
        (s.afterScan capacity job minTail).guards i = false := by
      intro i
      unfold System.afterScan
      split
      · exact ⟨rfl, rfl⟩
      · split_ifs
        · exact ⟨rfl, rfl⟩
        · split <;> exact ⟨rfl, rfl⟩
    refine h.scans ⟨rfl, rfl, rfl, rfl, rfl⟩ (fun i => ?_)
      (fun i hi => by simp [(hquiet i).2] at hi)
      (.inl fun c _ job' idx' rest minTail' hscan => ?_)
    · rw [(hquiet i).1]
      exact LeftRight.activeReaders_unpin
        (fun i => by simpa [hp, Producer.pins] using hreaders i) i
    · have hguards := congrArg (Producer.guards idx') hscan
      rw [(hquiet idx').2] at hguards
      simp [Producer.guards] at hguards
  case h_7 | h_8 | h_9 =>
    rename_i hp
    obtain rfl := Option.some.inj hstep
    exact h.scans ⟨rfl, rfl, rfl, rfl, rfl⟩
      (fun idx => by simpa [hp, Producer.pins] using hreaders idx) (by simp [Producer.guards])
      (.inl fun c _ => by simp [Covered])
  case h_10 | h_11 | h_12 => cases hstep

theorem Listed.setConsumer (h : s.Listed) {p : Consumer T}
    (hphase : (s.consumer c).phase = none) (hborn : s.consumer c ≠ .born)
    (hp : p.phase = none ∨ p = .dropping .lock)
    (hactive : p.active → (s.consumer c).active) : (s.setConsumer c p).Listed :=
  h.quiet ⟨rfl, rfl, rfl, rfl, fun _ _ => rfl, le_rfl⟩ hphase hborn hp hactive

/-- The steps of a `modify`, to its end. -/
theorem Listed.modify (h : s.Listed) (f : List ℕ → List ℕ) (finish : System T → System T)
    {phase : Phase} (hphase : (s.consumer c).phase = some phase)
    (hf : ∀ k l, (s.consumer k).active → k ∈ l → k ∈ f l)
    (hpush : ∀ child, s.consumer c = .cloning child phase → ∀ l, child ∈ f l)
    (hfinish : phase = .unlock → Ends s (finish { s with tailsMutex := none }) c)
    {u : System T} {next : Option Phase} (hstep : s.stepModify c f phase = some (u, next)) :
    (match next with
      | some phase => u.setConsumer c ((s.consumer c).withPhase phase)
      | none => finish u).Listed := by
  cases next with
  | some next => exact h.stepModify hphase hf hpush hstep
  | none =>
    cases phase with
    | unlock =>
      obtain rfl : _ = u := by simpa [System.stepModify] using hstep
      exact h.ends (hfinish rfl)
    | lock | drain =>
      simp only [System.stepModify] at hstep
      split_ifs at hstep
      simp at hstep
    | mutate | publish | sync => simp [System.stepModify] at hstep

theorem Listed.stepConsumer (h : s.Listed) {capacity : ℕ}
    (hstep : s.stepConsumer capacity c = some t) : t.Listed := by
  unfold System.stepConsumer at hstep
  cases hc : s.consumer c with
  | cloning child phase =>
    simp only [hc] at hstep
    obtain ⟨⟨u, next⟩, hmodify, rfl⟩ := map_eq_some_iff.mp hstep
    have hne : c ≠ child := by
      rintro rfl
      have := (h.born c c phase hc).1
      rw [hc] at this
      cases this
    have hend := h.modify (· ++ [child])
      (fun u => (u.setConsumer c (.idle none)).setConsumer child (.idle none))
      (by rw [hc]; rfl) (fun k l _ hk => mem_append_left _ hk) ?_ ?_ hmodify
    · cases next with
      | some next => simpa [hc, Consumer.withPhase] using hend
      | none => exact hend
    · intro child' hc' l
      rw [hc] at hc'
      obtain ⟨rfl, -⟩ := Consumer.cloning.inj hc'
      simp
    · rintro rfl
      refine ⟨by rw [hc]; rfl, ?_, ?_, fun k hk => ?_, fun k hkc hk => ?_, rfl, rfl, rfl⟩
      · simp [System.setConsumer, hne, Consumer.phase]
      · rw [hc]
        exact fun _ => rfl
      · rw [hc] at hk
        obtain ⟨rfl, -⟩ := Consumer.cloning.inj hk
        simp [System.setConsumer, Consumer.phase]
      · have hkchild : k ≠ child := by
          rintro rfl
          exact hk hc
        simp [System.setConsumer, hkc, hkchild]
  | dropping phase =>
    simp only [hc] at hstep
    obtain ⟨⟨u, next⟩, hmodify, rfl⟩ := map_eq_some_iff.mp hstep
    have hend := h.modify (·.filter (· ≠ c)) (fun u => u.setConsumer c .gone)
      (by rw [hc]; rfl) ?_ ?_ ?_ hmodify
    · cases next with
      | some next => simpa [hc, Consumer.withPhase] using hend
      | none => exact hend
    · intro k l hk hmem
      have hkc : k ≠ c := by
        rintro rfl
        simp [hc, Consumer.active] at hk
      simpa [hkc] using hmem
    · intro child hc'
      rw [hc] at hc'
      cases hc'
    · rintro rfl
      refine ⟨by rw [hc]; rfl, ?_, ?_, fun k hk => ?_, fun k hkc hk => ?_, rfl, rfl, rfl⟩
      · simp [System.setConsumer, Consumer.phase]
      · simp [System.setConsumer, Consumer.active]
      · rw [hc] at hk
        cases hk
      · simp [System.setConsumer, hkc]
  | advance items =>
    simp only [hc, Option.some.injEq] at hstep
    subst hstep
    refine h.quiet (c := c) (p := .idle (some (.ok items)))
      ⟨rfl, rfl, rfl, rfl, fun k hk => update_of_ne hk _ _, ?_⟩ (by rw [hc]; rfl)
      (by simp [hc]) (.inl rfl) (by rw [hc]; exact fun _ => rfl)
    simp
  | absent | born | idle | gone | broken => simp [hc] at hstep
  | _ =>
    -- the other steps only move the consumer on
    simp only [hc] at hstep
    (repeat' split at hstep) <;>
    · obtain rfl := Option.some.inj hstep
      exact h.setConsumer (by rw [hc]; rfl) (by simp [hc]) (.inl rfl)
        (by rw [hc]; exact fun _ => rfl)

theorem Listed.begin (h : s.Listed) {p : Consumer T} (hp : p.phase = none ∨ p = .dropping .lock)
    (hstep : s.begin c p = some t) : t.Listed := by
  unfold System.begin at hstep
  split at hstep
  · next last hc =>
    obtain rfl := Option.some.inj hstep
    exact h.setConsumer (by rw [hc]; rfl) (by simp [hc]) hp (by rw [hc]; exact fun _ => rfl)
  · cases hstep

theorem Listed.step (h : s.Listed) {capacity : ℕ} {a : Action T}
    (hstep : System.step capacity s a = some t) : t.Listed := by
  cases a with
  | start job =>
    simp only [System.step] at hstep
    split at hstep
    · cases hstep
    · next hp _ =>
      obtain rfl := Option.some.inj hstep
      exact h.scans ⟨rfl, rfl, rfl, rfl, rfl⟩
        (fun idx => by simpa [hp, Producer.pins] using h.readers idx) (by simp [Producer.guards])
        (.inl fun c _ => by simp [Covered])
    · cases hstep
  | dropProducer =>
    simp only [System.step] at hstep
    split at hstep
    · next hp =>
      obtain rfl := Option.some.inj hstep
      exact h.scans ⟨rfl, rfl, rfl, rfl, rfl⟩
        (fun idx => by simpa [hp, Producer.pins] using h.readers idx) (by simp [Producer.guards])
        (.inl fun c _ => by simp [Covered])
    · cases hstep
  | producer => exact h.stepProducer hstep
  | recv c => exact h.begin (.inl rfl) hstep
  | recheck c => exact h.begin (.inl rfl) hstep
  | recvBatch c max =>
    simp only [System.step] at hstep
    split_ifs at hstep
    exact h.begin (.inl rfl) hstep
  | clone c child =>
    simp only [System.step] at hstep
    split at hstep
    · next hchild =>
      obtain ⟨u, hbegin, rfl⟩ := map_eq_some_iff.mp hstep
      unfold System.begin at hbegin
      split at hbegin
      · next last hc =>
        obtain rfl := Option.some.inj hbegin
        exact h.clone hc hchild
      · cases hbegin
    · cases hstep
  | drop c => exact h.begin (.inr rfl) hstep
  | consumer c => exact h.stepConsumer hstep

end System

end Fibre.Channels.Spmc
