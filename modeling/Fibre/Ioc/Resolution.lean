import Fibre.Math.WaitsFor
import Fibre.Ioc.Container

/-!
# Services that are resolved without waiting in a circle

A thread that runs a factory keeps a read lock for every `get` it is in, so a registration from inside
a factory may wait for the lock of its own thread. Where there is none, a thread that holds the write
lock of a shard waits for nothing, and a thread that nobody waits for is left aside; the others wait for
cells. Each of them waits for a service that the next one is resolving, under the one that this one waits
for. So the threads of a deadlock are resolving a circle of services, and there are two of them at least:
on one thread the circle ends in a panic.
-/

namespace Fibre.Ioc

open Machine WaitsFor Function List

variable {K : Type*}

def Visit.provider (v : Visit K) : Option ℕ :=
  match v.stage with
  | .looking => none
  | .found id | .running id => some id

theorem Visit.borrows_of_provider {v : Visit K} {id : ℕ} (h : v.provider = some id) : v.borrows := by
  obtain ⟨k, stage⟩ := v
  cases stage with
  | looking => cases h
  | found => rfl
  | running => rfl

namespace Thread

/-- What every thread keeps: its set has the keys of its calls, which differ, each call but the
innermost runs its factory, and a thread that registers is in no call. -/
structure Sound [DecidableEq K] (th : Thread K) : Prop where
  resolving : th.resolving = (th.visits.map Visit.key).toFinset
  nodup : (th.visits.map Visit.key).Nodup
  running : ∀ v ∈ th.visits.tail, ∃ id, v.stage = .running id
  apart : th.registering.isSome → th.visits = []

variable {th : Thread K} {k : K} {v : Visit K} {rest : List (Visit K)} {stage : Stage}

theorem free_iff_registering (h : th.free) : th.registering = none := by
  unfold free at h
  cases hr : th.registering with
  | none => rfl
  | some r => simp [hr] at h

theorem running_of_free (h : th.free) (hv : th.visits = v :: rest) :
    ∃ id, v.stage = .running id := by
  unfold free at h
  rw [hv] at h
  cases hstage : v.stage with
  | running id => exact ⟨id, rfl⟩
  | looking => simp [hstage] at h
  | found => simp [hstage] at h

variable [DecidableEq K]

theorem Sound.idle : (idle : Thread K).Sound where
  resolving := rfl
  nodup := nodup_nil
  running := nofun
  apart _ := rfl

theorem Sound.enter (h : th.Sound) (hfree : th.free) (hk : k ∉ th.resolving) :
    (th.enter k).Sound where
  resolving := by simp [Thread.enter, h.resolving]
  nodup := by
    rw [h.resolving, mem_toFinset] at hk
    exact nodup_cons.mpr ⟨hk, h.nodup⟩
  running v hv := by
    -- the call that was the innermost one is the factory that calls
    simp only [Thread.enter, tail_cons] at hv
    cases hvisits : th.visits with
    | nil => simp [hvisits] at hv
    | cons w rest =>
      rw [hvisits] at hv
      rcases mem_cons.mp hv with rfl | hv
      · exact running_of_free hfree hvisits
      · exact h.running v (by rw [hvisits]; exact hv)
  apart hsome := by
    have hnone := free_iff_registering hfree
    simp [Thread.enter, hnone] at hsome

theorem Sound.leave (h : th.Sound) (hv : th.visits = ⟨k, stage⟩ :: rest) :
    (th.leave k rest).Sound := by
  have hnodup := h.nodup
  rw [hv, map_cons, nodup_cons] at hnodup
  constructor
  · ext k'
    simp only [Thread.leave, h.resolving, hv, map_cons, toFinset_cons,
      Finset.mem_erase, Finset.mem_insert, mem_toFinset]
    constructor
    · rintro ⟨hne, rfl | hmem⟩
      · exact absurd rfl hne
      · exact hmem
    · intro hmem
      exact ⟨fun heq => hnodup.1 (heq ▸ hmem), .inr hmem⟩
  · exact hnodup.2
  · intro v hmem
    exact h.running v (by rw [hv]; exact mem_of_mem_tail hmem)
  · intro hsome
    have := h.apart hsome
    simp [hv] at this

theorem Sound.advance (h : th.Sound) (hv : th.visits = ⟨k, stage⟩ :: rest) (stage' : Stage) :
    ({ th with visits := ⟨k, stage'⟩ :: rest } : Thread K).Sound where
  resolving := by simp [h.resolving, hv]
  nodup := by simpa [hv] using h.nodup
  running := by simpa [hv] using h.running
  apart hsome := by simpa [hv] using h.apart hsome

theorem Sound.eq_of_key (h : th.Sound) (hv : th.visits = ⟨k, stage⟩ :: rest) (hmem : v ∈ th.visits)
    (hk : v.key = k) : v = ⟨k, stage⟩ := by
  have hnodup := h.nodup
  rw [hv, map_cons, nodup_cons] at hnodup
  rw [hv] at hmem
  rcases mem_cons.mp hmem with rfl | hmem
  · rfl
  · have hkey := mem_map_of_mem (f := Visit.key) hmem
    rw [hk] at hkey
    exact absurd hkey hnodup.1

end Thread

namespace System

variable {s s' : System K} {shard : K → ℕ} {t u : ℕ} {th th' : Thread K} {k : K} {id : ℕ}

/-- Nothing is registered from inside a factory. -/
def outside (s : System K) : Action K → Bool
  | .register t _ _ _ => s.threads[t]?.all fun th => th.visits.isEmpty
  | _ => true

/-- Who holds what: a reference keeps its provider in the map and its shard from being locked, a
cell is initialised by a call that runs its factory, and a locked shard belongs to one registration. -/
structure Inv [DecidableEq K] (shard : K → ℕ) (s : System K) : Prop where
  threads : ∀ th ∈ s.threads, th.Sound
  low : ∀ k id, s.map k = some id → id < s.made
  inj : ∀ k k' id, s.map k = some id → s.map k' = some id → k = k'
  held : ∀ th ∈ s.threads, ∀ v ∈ th.visits, ∀ id, v.provider = some id → s.map v.key = some id
  excluded : ∀ th ∈ s.threads, ∀ v ∈ th.visits, v.borrows → s.writer (shard v.key) = none
  cell : ∀ id u, s.cell id = .initialising u → s.provider id = .singleton →
    ∃ th, s.threads[u]? = some th ∧ ∃ v ∈ th.visits, v.stage = .running id
  locked : ∀ u th r, s.threads[u]? = some th → th.registering = some r → r.locked →
    s.writer (shard r.key) = some u
  writer : ∀ h u, s.writer h = some u → ∃ th r, s.threads[u]? = some th ∧
    th.registering = some r ∧ r.locked ∧ shard r.key = h

theorem threads_set (ht : s.threads[t]? = some th) :
    (s.threads.set t th')[u]? = if t = u then some th' else s.threads[u]? := by
  have hlt := (List.getElem?_eq_some_iff.mp ht).1
  rw [List.getElem?_set]
  split_ifs <;> simp_all

theorem mem_threads_set (h : th ∈ s.threads.set t th') : th = th' ∨ th ∈ s.threads :=
  (mem_or_eq_of_mem_set h).symm

/-- The second service is being resolved for the first one: a thread has its call right on the call of
that one. -/
def Depends (s : System K) (k k' : K) : Prop :=
  ∃ th ∈ s.threads, [k', k] <:+: th.visits.map Visit.key

/-- Over a chain of neighbours, the head is reached from every later one. -/
theorem transGen_of_neighbours {R : K → K → Prop} (l : List K) {k k' : K} (hk : k ∈ l)
    (hR : ∀ a b, [b, a] <:+: k' :: l → R a b) : Relation.TransGen R k k' := by
  induction l generalizing k' with
  | nil => cases hk
  | cons b l ih =>
    have hb : R b k' := hR b k' ⟨[], l, rfl⟩
    rcases mem_cons.mp hk with rfl | hk
    · exact .single hb
    · exact (ih hk fun a c hpair => hR a c (hpair.trans ⟨[k'], [], by simp⟩)).tail hb

def Innermost (s : System K) (t : ℕ) (k : K) : Prop :=
  ∃ th v rest, s.threads[t]? = some th ∧ th.visits = v :: rest ∧ v.key = k

theorem Innermost.eq {k k' : K} (h : s.Innermost t k) (h' : s.Innermost t k') : k = k' := by
  obtain ⟨th, v, rest, ht, hv, rfl⟩ := h
  obtain ⟨th', v', rest', ht', hv', rfl⟩ := h'
  obtain rfl := Option.some.inj (ht.symm.trans ht')
  rw [hv] at hv'
  cases hv'
  rfl

/-- The innermost call of the one thread is resolved for that of the other one. -/
def Above (s : System K) (t u : ℕ) : Prop :=
  ∃ k k', s.Innermost t k ∧ s.Innermost u k' ∧ Relation.TransGen s.Depends k k'

theorem Above.trans {v : ℕ} (h : s.Above t u) (h' : s.Above u v) : s.Above t v := by
  obtain ⟨k, k₁, ht, hu, hk⟩ := h
  obtain ⟨k₂, k', hu', hv, hk'⟩ := h'
  obtain rfl := hu.eq hu'
  exact ⟨k, k', ht, hv, hk.trans hk'⟩

variable [DecidableEq K]

theorem inv_init : Inv shard (init : System K) where
  threads := nofun
  low := nofun
  inj := nofun
  held := nofun
  excluded := nofun
  cell := nofun
  locked := by simp [init]
  writer := nofun

theorem Inv.cell_set (h : Inv shard s) (ht : s.threads[t]? = some th) (hv : th.visits = [])
    (hinit : s.cell id = .initialising u) (hsingle : s.provider id = .singleton) :
    ∃ x, (s.threads.set t th')[u]? = some x ∧ ∃ v ∈ x.visits, v.stage = .running id := by
  obtain ⟨x, hx, v, hmem, hstage⟩ := h.cell id u hinit hsingle
  refine ⟨x, ?_, v, hmem, hstage⟩
  rw [threads_set ht, if_neg ?_, hx]
  rintro rfl
  obtain rfl := Option.some.inj (ht.symm.trans hx)
  rw [hv] at hmem
  cases hmem

theorem Inv.visit (h : Inv shard s) (ht : s.threads[t]? = some th) {cell : ℕ → Cell}
    (hs : s' = { s with cell := cell, threads := s.threads.set t th' })
    (hsound : th'.Sound) (hreg : th'.registering = th.registering)
    (hvisits : ∀ v ∈ th'.visits, v ∈ th.visits ∨ (v.borrows → s.writer (shard v.key) = none) ∧
      ∀ id, v.provider = some id → s.map v.key = some id)
    (hcell : ∀ id u, cell id = .initialising u → s.provider id = .singleton →
      (u = t ∧ ∃ v ∈ th'.visits, v.stage = .running id) ∨ (s.cell id = .initialising u ∧
        ∀ v ∈ th.visits, v.stage = .running id → v ∈ th'.visits)) :
    Inv shard s' := by
  subst hs
  have hmem := mem_of_getElem? ht
  constructor
  · intro x hx
    rcases mem_threads_set hx with rfl | hx
    · exact hsound
    · exact h.threads x hx
  · exact h.low
  · exact h.inj
  · intro x hx v hv id hid
    rcases mem_threads_set hx with rfl | hx
    · rcases hvisits v hv with hv | ⟨-, hmap⟩
      · exact h.held th hmem v hv id hid
      · exact hmap id hid
    · exact h.held x hx v hv id hid
  · intro x hx v hv hborrows
    rcases mem_threads_set hx with rfl | hx
    · rcases hvisits v hv with hv | ⟨hnone, -⟩
      · exact h.excluded th hmem v hv hborrows
      · exact hnone hborrows
    · exact h.excluded x hx v hv hborrows
  · intro id u hinit hsingle
    simp only [threads_set ht]
    rcases hcell id u hinit hsingle with ⟨rfl, hv⟩ | ⟨hinit, hsub⟩
    · exact ⟨th', by simp, hv⟩
    · obtain ⟨x, hx, v, hv, hstage⟩ := h.cell id u hinit hsingle
      by_cases htu : t = u
      · -- the call that initialises the cell is still there
        obtain rfl : th = x := by
          rw [← htu, ht] at hx
          exact Option.some.inj hx
        exact ⟨th', by simp [htu], v, hsub v hv hstage, hstage⟩
      · exact ⟨x, by rw [if_neg htu, hx], v, hv, hstage⟩
  · intro u x r hx hr hlocked
    simp only [threads_set ht] at hx
    split_ifs at hx with htu
    · obtain rfl := Option.some.inj hx
      rw [hreg] at hr
      exact htu ▸ h.locked t th r ht hr hlocked
    · exact h.locked u x r hx hr hlocked
  · intro shrd u hw
    obtain ⟨x, r, hx, hr, hlocked, hshard⟩ := h.writer shrd u hw
    simp only [threads_set ht]
    by_cases htu : t = u
    · obtain rfl : th = x := by
        rw [← htu, ht] at hx
        exact Option.some.inj hx
      exact ⟨th', r, by simp [htu], by rw [hreg, hr], hlocked, hshard⟩
    · exact ⟨x, r, by rw [if_neg htu, hx], hr, hlocked, hshard⟩

theorem Inv.look (h : Inv shard s) (ht : s.threads[t]? = some th) {rest : List (Visit K)}
    (hv : th.visits = ⟨k, .looking⟩ :: rest) (hfree : s.writer (shard k) = none)
    (hmap : s.map k = some id) :
    Inv shard (s.setThread t { th with visits := ⟨k, .found id⟩ :: rest }) := by
  have hsound := h.threads th (mem_of_getElem? ht)
  apply h.visit ht rfl (hsound.advance hv _) rfl
  · intro v hmem
    rcases mem_cons.mp hmem with rfl | hmem
    · refine .inr ⟨fun _ => hfree, fun id' hid => ?_⟩
      obtain rfl := Option.some.inj hid
      exact hmap
    · exact .inl (by rw [hv]; exact mem_cons_of_mem _ hmem)
  · intro id' u hinit _
    refine .inr ⟨hinit, fun v hmem hstage => ?_⟩
    rw [hv] at hmem
    rcases mem_cons.mp hmem with rfl | hmem
    · cases hstage
    · exact mem_cons_of_mem _ hmem

theorem Inv.leave (h : Inv shard s) (ht : s.threads[t]? = some th) {rest : List (Visit K)}
    {stage : Stage} (hv : th.visits = ⟨k, stage⟩ :: rest) {cell : ℕ → Cell}
    (hs : s' = { s with cell := cell, threads := s.threads.set t (th.leave k rest) })
    (hcell : ∀ id u, cell id = .initialising u → s.provider id = .singleton →
      s.cell id = .initialising u ∧ stage ≠ .running id) : Inv shard s' := by
  have hsound := h.threads th (mem_of_getElem? ht)
  apply h.visit ht hs (hsound.leave hv) rfl
  · intro v hmem
    exact .inl (by rw [hv]; exact mem_cons_of_mem _ hmem)
  · intro id u hinit hsingle
    obtain ⟨hold, hne⟩ := hcell id u hinit hsingle
    refine .inr ⟨hold, fun v hmem hstage => ?_⟩
    rw [hv] at hmem
    rcases mem_cons.mp hmem with rfl | hmem
    · exact absurd hstage hne
    · exact hmem

theorem Inv.finish (h : Inv shard s) (ht : s.threads[t]? = some th) {rest : List (Visit K)}
    (hv : th.visits = ⟨k, .running id⟩ :: rest) {cell : Cell} (hcell : ∀ u, cell ≠ .initialising u) :
    Inv shard ((s.setCell id cell).setThread t (th.leave k rest)) := by
  unfold setCell
  split_ifs with hsingle
  · apply h.leave ht hv rfl
    intro id' u hinit _
    by_cases hid : id' = id
    · simp only [hid, update_self] at hinit
      exact absurd hinit (hcell u)
    · simp only [update_of_ne hid] at hinit
      refine ⟨hinit, fun heq => hid ?_⟩
      cases heq
      rfl
  · apply h.leave ht hv rfl
    intro id' u hinit hsingle'
    refine ⟨hinit, fun heq => ?_⟩
    cases heq
    exact absurd hsingle' hsingle

theorem Inv.ask (h : Inv shard s) (ht : s.threads[t]? = some th) {rest : List (Visit K)}
    (hv : th.visits = ⟨k, .found id⟩ :: rest) :
    Inv shard ((s.setCell id (.initialising t)).setThread t
      { th with visits := ⟨k, .running id⟩ :: rest }) := by
  have hmem := mem_of_getElem? ht
  have hfound : (⟨k, .found id⟩ : Visit K) ∈ th.visits := by
    rw [hv]
    exact mem_cons_self
  have hsound := (h.threads th hmem).advance hv (.running id)
  have hvisits : ∀ v ∈ (⟨k, .running id⟩ :: rest : List (Visit K)), v ∈ th.visits ∨
      (v.borrows → s.writer (shard v.key) = none) ∧
        ∀ id, v.provider = some id → s.map v.key = some id := by
    intro v hmem'
    rcases mem_cons.mp hmem' with rfl | hmem'
    · exact .inr ⟨fun _ => h.excluded th hmem ⟨k, .found id⟩ hfound rfl,
        h.held th hmem ⟨k, .found id⟩ hfound⟩
    · exact .inl (by rw [hv]; exact mem_cons_of_mem _ hmem')
  -- the calls that run their factory are there as before
  have hsub : ∀ id', ∀ v ∈ th.visits, v.stage = .running id' →
      v ∈ (⟨k, .running id⟩ :: rest : List (Visit K)) := by
    intro id' v hmem' hstage
    rw [hv] at hmem'
    rcases mem_cons.mp hmem' with rfl | hmem'
    · cases hstage
    · exact mem_cons_of_mem _ hmem'
  unfold setCell
  split_ifs with hsingle
  · apply h.visit ht rfl hsound rfl hvisits
    intro id' u hinit _
    by_cases hid : id' = id
    · simp only [hid, update_self] at hinit
      cases hinit
      exact .inl ⟨rfl, _, mem_cons_self, by rw [hid]⟩
    · simp only [update_of_ne hid] at hinit
      exact .inr ⟨hinit, hsub id'⟩
  · exact h.visit ht rfl hsound rfl hvisits fun id' u hinit _ => .inr ⟨hinit, hsub id'⟩

/-- A thread outside of every call is about to register. -/
theorem Inv.register (h : Inv shard s) (ht : s.threads[t]? = some th) (hfree : th.free)
    (hv : th.visits = []) (provider : Provider) (ready : Bool) :
    Inv shard (s.setThread t { th with registering := some ⟨k, provider, ready, false⟩ }) := by
  have hmem := mem_of_getElem? ht
  have hsound := h.threads th hmem
  have hnone := Thread.free_iff_registering hfree
  constructor
  · intro x hx
    rcases mem_threads_set hx with rfl | hx
    · exact ⟨hsound.resolving, hsound.nodup, hsound.running, fun _ => hv⟩
    · exact h.threads x hx
  · exact h.low
  · exact h.inj
  · intro x hx
    rcases mem_threads_set hx with rfl | hx
    · exact h.held th hmem
    · exact h.held x hx
  · intro x hx
    rcases mem_threads_set hx with rfl | hx
    · exact h.excluded th hmem
    · exact h.excluded x hx
  · intro id u hinit hsingle
    exact h.cell_set ht hv hinit hsingle
  · intro u x r hx hr hlocked
    simp only [setThread, threads_set ht] at hx
    split_ifs at hx with htu
    · obtain rfl := Option.some.inj hx
      obtain rfl := Option.some.inj hr
      cases hlocked
    · exact h.locked u x r hx hr hlocked
  · intro shrd u hw
    obtain ⟨x, r, hx, hr, hrest⟩ := h.writer shrd u hw
    refine ⟨x, r, ?_, hr, hrest⟩
    simp only [setThread, threads_set ht]
    rw [if_neg ?_, hx]
    rintro rfl
    obtain rfl := Option.some.inj (ht.symm.trans hx)
    rw [hnone] at hr
    cases hr

theorem Inv.lock (h : Inv shard s) (ht : s.threads[t]? = some th) {r : Registration K}
    (hr : th.registering = some r) (hfree : s.writer (shard r.key) = none)
    (hnone : ∀ u ∈ s.threads, ¬ u.borrows shard (shard r.key)) :
    Inv shard { s.setThread t { th with registering := some { r with locked := true } } with
      writer := update s.writer (shard r.key) (some t) } := by
  have hmem := mem_of_getElem? ht
  have hsound := h.threads th hmem
  have hv := hsound.apart (by rw [hr]; rfl)
  constructor
  · intro x hx
    rcases mem_threads_set hx with rfl | hx
    · exact ⟨hsound.resolving, hsound.nodup, hsound.running, fun _ => hv⟩
    · exact h.threads x hx
  · exact h.low
  · exact h.inj
  · intro x hx
    rcases mem_threads_set hx with rfl | hx
    · exact h.held th hmem
    · exact h.held x hx
  · intro x hx v hmem' hborrows
    rcases mem_threads_set hx with rfl | hx
    · rw [hv] at hmem'
      cases hmem'
    · have hne : shard v.key ≠ shard r.key := by
        intro heq
        apply hnone x hx
        rw [Thread.borrows, any_eq_true]
        exact ⟨v, hmem', by simp [hborrows, heq]⟩
      simp only [update_of_ne hne]
      exact h.excluded x hx v hmem' hborrows
  · intro id u hinit hsingle
    exact h.cell_set ht hv hinit hsingle
  · intro u x r' hx hr' hlocked
    simp only [setThread, threads_set ht] at hx
    split_ifs at hx with htu
    · obtain rfl := Option.some.inj hx
      obtain rfl := Option.some.inj hr'
      rw [← htu]
      exact update_self ..
    · have hw := h.locked u x r' hx hr' hlocked
      have hne : shard r'.key ≠ shard r.key := by
        intro heq
        rw [heq, hfree] at hw
        cases hw
      simpa only [update_of_ne hne] using hw
  · intro shrd u hw
    simp only [setThread, threads_set ht]
    by_cases hshard : shrd = shard r.key
    · simp only [hshard, update_self] at hw
      obtain rfl := Option.some.inj hw
      exact ⟨_, _, if_pos rfl, rfl, rfl, hshard.symm⟩
    · simp only [update_of_ne hshard] at hw
      obtain ⟨x, r', hx, hr', hlocked, heq⟩ := h.writer shrd u hw
      refine ⟨x, r', ?_, hr', hlocked, heq⟩
      rw [if_neg ?_, hx]
      rintro rfl
      -- the thread would have two shards locked
      obtain rfl := Option.some.inj (ht.symm.trans hx)
      have hw' := h.locked t th r' ht hr' hlocked
      obtain rfl := Option.some.inj (hr.symm.trans hr')
      rw [hfree] at hw'
      cases hw'

theorem Inv.insert (h : Inv shard s) (ht : s.threads[t]? = some th) {r : Registration K}
    (hr : th.registering = some r) (hlocked : r.locked) :
    Inv shard { s.setThread t { th with registering := none } with
      map := update s.map r.key (some s.made)
      provider := update s.provider s.made r.provider
      cell := update s.cell s.made (if r.ready then .full else .empty)
      made := s.made + 1
      writer := update s.writer (shard r.key) none } := by
  have hmem := mem_of_getElem? ht
  have hsound := h.threads th hmem
  have hv := hsound.apart (by rw [hr]; rfl)
  have hw := h.locked t th r ht hr hlocked
  -- so no reference is into this shard
  have hapart : ∀ x ∈ s.threads, ∀ v ∈ x.visits, v.borrows → shard v.key ≠ shard r.key := by
    intro x hx v hmem' hborrows heq
    have hnone := h.excluded x hx v hmem' hborrows
    rw [heq, hw] at hnone
    cases hnone
  constructor
  · intro x hx
    rcases mem_threads_set hx with rfl | hx
    · exact ⟨hsound.resolving, hsound.nodup, hsound.running, fun _ => hv⟩
    · exact h.threads x hx
  · intro k id hmap
    by_cases hk : k = r.key
    · simp only [hk, update_self] at hmap
      obtain rfl := Option.some.inj hmap
      exact Nat.lt_succ_self _
    · simp only [update_of_ne hk] at hmap
      exact Nat.lt_succ_of_lt (h.low k id hmap)
  · intro k k' id hmap hmap'
    by_cases hk : k = r.key <;> by_cases hk' : k' = r.key
    · rw [hk, hk']
    · simp only [hk, update_self, update_of_ne hk'] at hmap hmap'
      obtain rfl := Option.some.inj hmap
      exact absurd (h.low k' _ hmap') (lt_irrefl _)
    · simp only [hk', update_self, update_of_ne hk] at hmap hmap'
      obtain rfl := Option.some.inj hmap'
      exact absurd (h.low k _ hmap) (lt_irrefl _)
    · simp only [update_of_ne hk, update_of_ne hk'] at hmap hmap'
      exact h.inj k k' id hmap hmap'
  · intro x hx v hmem' id hid
    rcases mem_threads_set hx with rfl | hx
    · rw [hv] at hmem'
      cases hmem'
    · have hne : v.key ≠ r.key := fun heq =>
        hapart x hx v hmem' (Visit.borrows_of_provider hid) (by rw [heq])
      simp only [update_of_ne hne]
      exact h.held x hx v hmem' id hid
  · intro x hx v hmem' hborrows
    rcases mem_threads_set hx with rfl | hx
    · rw [hv] at hmem'
      cases hmem'
    · simp only [update_of_ne (hapart x hx v hmem' hborrows)]
      exact h.excluded x hx v hmem' hborrows
  · intro id u hinit hsingle
    have hne : id ≠ s.made := by
      rintro rfl
      simp only [update_self] at hinit
      split_ifs at hinit
    simp only [update_of_ne hne] at hinit hsingle
    exact h.cell_set ht hv hinit hsingle
  · intro u x r' hx hr' hlocked'
    simp only [setThread, threads_set ht] at hx
    split_ifs at hx with htu
    · obtain rfl := Option.some.inj hx
      cases hr'
    · have hw' := h.locked u x r' hx hr' hlocked'
      have hne : shard r'.key ≠ shard r.key := by
        intro heq
        rw [heq, hw] at hw'
        exact htu (Option.some.inj hw')
      simpa only [update_of_ne hne] using hw'
  · intro shrd u hw'
    simp only [setThread, threads_set ht]
    by_cases hshard : shrd = shard r.key
    · simp [hshard] at hw'
    · simp only [update_of_ne hshard] at hw'
      obtain ⟨x, r', hx, hr', hlocked', heq⟩ := h.writer shrd u hw'
      refine ⟨x, r', ?_, hr', hlocked', heq⟩
      rw [if_neg ?_, hx]
      rintro rfl
      obtain rfl := Option.some.inj (ht.symm.trans hx)
      obtain rfl := Option.some.inj (hr.symm.trans hr')
      exact hshard heq.symm

theorem Inv.spawn (h : Inv shard s) : Inv shard { s with threads := s.threads ++ [.idle] } := by
  have hmem : ∀ x ∈ s.threads ++ [Thread.idle], x ∈ s.threads ∨ x = .idle := by simp
  constructor
  · intro x hx
    rcases hmem x hx with hx | rfl
    · exact h.threads x hx
    · exact Thread.Sound.idle
  · exact h.low
  · exact h.inj
  · intro x hx v hv
    rcases hmem x hx with hx | rfl
    · exact h.held x hx v hv
    · cases hv
  · intro x hx v hv
    rcases hmem x hx with hx | rfl
    · exact h.excluded x hx v hv
    · cases hv
  · intro id u hinit hsingle
    obtain ⟨x, hx, hv⟩ := h.cell id u hinit hsingle
    exact ⟨x, List.getElem?_append_left (List.getElem?_eq_some_iff.mp hx).1 ▸ hx, hv⟩
  · intro u x r hx hr hlocked
    rw [List.getElem?_append] at hx
    split_ifs at hx with hlt
    · exact h.locked u x r hx hr hlocked
    · obtain rfl := mem_singleton.mp (mem_of_getElem? hx)
      cases hr
  · intro shrd u hw
    obtain ⟨x, r, hx, hrest⟩ := h.writer shrd u hw
    exact ⟨x, r, List.getElem?_append_left (List.getElem?_eq_some_iff.mp hx).1 ▸ hx, hrest⟩

theorem Inv.act (h : Inv shard s) (ht : s.threads[t]? = some th) {a : Action K}
    (hthread : a.thread = t) (hC : s.outside a) (hs : s.act shard t th a = some s') :
    Inv shard s' := by
  have hsound := h.threads th (mem_of_getElem? ht)
  cases a with
  | spawn => cases hs
  | get _ k =>
    simp only [System.act] at hs
    split_ifs at hs with hfree hk
    · obtain rfl := Option.some.inj hs
      exact ⟨h.threads, h.low, h.inj, h.held, h.excluded, h.cell, h.locked, h.writer⟩
    · obtain rfl := Option.some.inj hs
      simp only [Bool.not_eq_true', Bool.not_eq_false] at hfree
      apply h.visit ht rfl (hsound.enter hfree hk) rfl
      · intro v hv
        rcases mem_cons.mp hv with rfl | hv
        · exact .inr ⟨nofun, nofun⟩
        · exact .inl hv
      · exact fun id u hinit _ => .inr ⟨hinit, fun v hv _ => mem_cons_of_mem _ hv⟩
  | look =>
    simp only [System.act] at hs
    split at hs
    next k rest hv =>
      split_ifs at hs with hw
      have hnone : s.writer (shard k) = none := by simpa using hw
      split at hs
      next =>
        obtain rfl := Option.some.inj hs
        exact h.leave ht hv rfl fun id u hinit _ => ⟨hinit, nofun⟩
      next id hmap =>
        obtain rfl := Option.some.inj hs
        exact h.look ht hv hnone hmap
    next => cases hs
  | ask =>
    simp only [System.act] at hs
    split at hs
    next k id rest hv =>
      split at hs
      · obtain rfl := Option.some.inj hs
        exact h.leave ht hv rfl fun id u hinit _ => ⟨hinit, nofun⟩
      · cases hs
      · obtain rfl := Option.some.inj hs
        exact h.ask ht hv
    next => cases hs
  | ret =>
    simp only [System.act] at hs
    split at hs
    next k id rest hr hv =>
      obtain rfl := Option.some.inj hs
      exact h.finish ht hv nofun
    next => cases hs
  | unwind =>
    simp only [System.act] at hs
    split at hs
    next k id rest hr hv =>
      obtain rfl := Option.some.inj hs
      exact h.finish ht hv nofun
    next => cases hs
  | register u k provider ready =>
    obtain rfl : u = t := hthread
    simp only [System.act] at hs
    split_ifs at hs with hfree
    obtain rfl := Option.some.inj hs
    have hv : th.visits = [] := by
      simpa [outside, ht] using hC
    exact h.register ht hfree hv provider ready
  | lock =>
    simp only [System.act] at hs
    split at hs
    next k provider ready hr =>
      split_ifs at hs with hbusy
      obtain rfl := Option.some.inj hs
      simp only [Bool.or_eq_true, not_or, Bool.not_eq_true, Option.isSome_eq_false_iff,
        Option.isNone_iff_eq_none] at hbusy
      obtain ⟨hnone, hany⟩ := hbusy
      apply h.lock ht hr hnone
      intro x hx hborrows
      exact any_eq_false.mp hany x hx hborrows
    next => cases hs
  | insert =>
    simp only [System.act] at hs
    split at hs
    next k provider ready hr =>
      obtain rfl := Option.some.inj hs
      exact h.insert ht hr rfl
    next => cases hs

theorem Inv.step (h : Inv shard s) {a : Action K} (hC : s.outside a)
    (hs : System.step shard s a = some s') : Inv shard s' := by
  unfold System.step at hs
  split at hs
  · obtain rfl := Option.some.inj hs
    exact h.spawn
  · obtain ⟨th, ht, hact⟩ := Option.bind_eq_some_iff.mp hs
    exact h.act ht rfl hC hact

/-! ## What the threads wait for -/

theorem Inv.not_writer_of_waits (h : Inv shard s) (hw : Waits shard s t u) (hshard : ℕ) :
    s.writer hshard ≠ some t := by
  intro hwriter
  obtain ⟨x, r, hx, hr, hlocked, -⟩ := h.writer _ _ hwriter
  have hnil := (h.threads x (mem_of_getElem? hx)).apart (by rw [hr]; rfl)
  cases hw with
  | read th k rest ht hv =>
    obtain rfl := Option.some.inj (hx.symm.trans ht)
    rw [hnil] at hv
    cases hv
  | cell th k id rest ht hv =>
    obtain rfl := Option.some.inj (hx.symm.trans ht)
    rw [hnil] at hv
    cases hv
  | write th r' ht hr' hunlocked =>
    obtain rfl := Option.some.inj (hx.symm.trans ht)
    obtain rfl := Option.some.inj (hr.symm.trans hr')
    rw [hlocked] at hunlocked
    cases hunlocked
  | exclude th thu r' ht hr' hunlocked =>
    obtain rfl := Option.some.inj (hx.symm.trans ht)
    obtain rfl := Option.some.inj (hr.symm.trans hr')
    rw [hlocked] at hunlocked
    cases hunlocked

theorem Inv.visits_of_awaited (h : Inv shard s) (hw : Waits shard s u t) (hw' : Waits shard s t v)
    (ht : s.threads[t]? = some th) : th.visits ≠ [] := by
  intro hnil
  cases hw with
  | read _ k _ _ _ hwriter => exact h.not_writer_of_waits hw' _ hwriter
  | write _ r _ _ _ hwriter => exact h.not_writer_of_waits hw' _ hwriter
  | cell _ k id _ _ _ hsingle hinit =>
    obtain ⟨x, hx, v, hv, -⟩ := h.cell id t hinit hsingle
    obtain rfl := Option.some.inj (ht.symm.trans hx)
    rw [hnil] at hv
    cases hv
  | exclude _ x r _ _ _ hx hborrows =>
    obtain rfl := Option.some.inj (ht.symm.trans hx)
    simp [Thread.borrows, hnil] at hborrows

theorem Inv.innermost_of_waits (h : Inv shard s) (hw : Waits shard s t u)
    (ht : s.threads[t]? = some th) (hv : th.visits ≠ []) :
    ∃ v rest, th.visits = v :: rest ∧ ∀ id, v.stage ≠ .running id := by
  have hsound := h.threads th (mem_of_getElem? ht)
  cases hw with
  | read x k rest hx hvisits =>
    obtain rfl := Option.some.inj (ht.symm.trans hx)
    exact ⟨_, rest, hvisits, nofun⟩
  | cell x k id rest hx hvisits =>
    obtain rfl := Option.some.inj (ht.symm.trans hx)
    exact ⟨_, rest, hvisits, nofun⟩
  | write x r hx hr =>
    obtain rfl := Option.some.inj (ht.symm.trans hx)
    exact absurd (hsound.apart (by rw [hr]; rfl)) hv
  | exclude x thu r hx hr =>
    obtain rfl := Option.some.inj (ht.symm.trans hx)
    exact absurd (hsound.apart (by rw [hr]; rfl)) hv

theorem Inv.resolving_of_cell (h : Inv shard s) {rest : List (Visit K)}
    (ht : s.threads[t]? = some th) (hv : th.visits = ⟨k, .found id⟩ :: rest)
    (hsingle : s.provider id = .singleton) (hinit : s.cell id = .initialising u) :
    ∃ x, s.threads[u]? = some x ∧ ∃ v ∈ x.visits, v.stage = .running id ∧ v.key = k := by
  obtain ⟨x, hx, v, hmem, hstage⟩ := h.cell id u hinit hsingle
  refine ⟨x, hx, v, hmem, hstage, ?_⟩
  -- both have found the provider under their key, and it is under one key only
  have hfound := h.held th (mem_of_getElem? ht) ⟨k, .found id⟩
    (by rw [hv]; exact mem_cons_self) id rfl
  have hrunning := h.held x (mem_of_getElem? hx) v hmem id (by simp [Visit.provider, hstage])
  exact h.inj v.key k id hrunning hfound

theorem Inv.above_of_waits (h : Inv shard s) {p v : ℕ} (hp : Waits shard s p t)
    (ht : Waits shard s t u) (hu : Waits shard s u v) : s.Above t u := by
  cases id ht with
  | read _ k _ _ _ hwriter => exact absurd hwriter (h.not_writer_of_waits hu _)
  | write _ r _ _ _ hwriter => exact absurd hwriter (h.not_writer_of_waits hu _)
  | exclude th x r hth hr =>
    have hsound := h.threads th (mem_of_getElem? hth)
    exact absurd (hsound.apart (by rw [hr]; rfl)) (h.visits_of_awaited hp ht hth)
  | cell th k id rest hth hv hsingle hinit =>
    obtain ⟨x, hx, w, hw, hstage, hkey⟩ := h.resolving_of_cell hth hv hsingle hinit
    obtain ⟨top, below, hvisits, htop⟩ := h.innermost_of_waits hu hx (h.visits_of_awaited ht hu hx)
    refine ⟨k, top.key, ⟨th, _, rest, hth, hv, rfl⟩, ⟨x, top, below, hx, hvisits, rfl⟩, ?_⟩
    -- the call that runs the factory is further down
    have hmem : w ∈ below := by
      rw [hvisits] at hw
      rcases mem_cons.mp hw with rfl | hmem
      · exact absurd hstage (htop id)
      · exact hmem
    apply transGen_of_neighbours (below.map Visit.key) (hkey ▸ mem_map_of_mem hmem)
    intro a b hpair
    exact ⟨x, mem_of_getElem? hx, by rw [hvisits]; exact hpair⟩

theorem Inv.not_waits_self (h : Inv shard s) : ¬ Waits shard s t t := by
  intro hw
  cases id hw with
  | read _ k _ _ _ hwriter => exact h.not_writer_of_waits hw _ hwriter
  | write _ r _ _ _ hwriter => exact h.not_writer_of_waits hw _ hwriter
  | exclude th x r hth hr =>
    have hsound := h.threads th (mem_of_getElem? hth)
    exact h.visits_of_awaited hw hw hth (hsound.apart (by rw [hr]; rfl))
  | cell th k id rest hth hv hsingle hinit =>
    obtain ⟨x, hx, w, hw, hstage, hkey⟩ := h.resolving_of_cell hth hv hsingle hinit
    obtain rfl := Option.some.inj (hth.symm.trans hx)
    obtain rfl := (h.threads th (mem_of_getElem? hth)).eq_of_key hv hw hkey
    cases hstage

theorem Inv.circle_of_deadlocked (h : Inv shard s) {D : Set ℕ}
    (hD : Deadlocked (Waits shard s) D) : ∃ k, Relation.TransGen s.Depends k k := by
  -- the threads that wait are among those there are
  have hfin : D.Finite := by
    apply (Set.finite_lt_nat s.threads.length).subset
    intro t ht
    obtain ⟨u, -, hw⟩ := hD.2 t ht
    have hsome : ∃ th, s.threads[t]? = some th := by
      cases hw with
      | read th _ _ hth => exact ⟨th, hth⟩
      | cell th _ _ _ hth => exact ⟨th, hth⟩
      | write th _ hth => exact ⟨th, hth⟩
      | exclude th _ _ hth => exact ⟨th, hth⟩
    obtain ⟨th, hth⟩ := hsome
    exact (List.getElem?_eq_some_iff.mp hth).1
  obtain ⟨t, -, k, k', hk, hk', htrans⟩ := hD.exists_rel_self hfin (r := s.Above)
    (fun _ _ _ => Above.trans) (fun _ _ _ _ => h.above_of_waits)
  rw [hk.eq hk'] at htrans
  exact ⟨k', htrans⟩

/-- A `get` of a service that the thread is resolving ends in the panic for a circular dependency. -/
theorem Inv.circular (h : Inv shard s) (ht : s.threads[t]? = some th) (hfree : th.free)
    (hk : k ∈ th.visits.map Visit.key) :
    System.step shard s (.get t k) = some { s with circular := s.circular ++ [(t, k)] } := by
  have hmem : k ∈ th.resolving := by
    rw [(h.threads th (mem_of_getElem? ht)).resolving]
    exact mem_toFinset.mpr hk
  simp [System.step, Action.thread, ht, System.act, hfree, hmem]

/-- As long as nothing is registered from inside a factory, no thread waits for itself, threads wait for
one another only if the calls they are in make a circle of services, and a thread that comes back to a
service it is resolving panics. -/
theorem resolved_of_outside (hrun : Run (System.step shard) (fun s a => outside s a) init s) :
    (∀ t, ¬ Waits shard s t t) ∧
      (∀ D, Deadlocked (Waits shard s) D → ∃ k, Relation.TransGen s.Depends k k) ∧
      ∀ t th k, s.threads[t]? = some th → th.free → k ∈ th.visits.map Visit.key →
        System.step shard s (.get t k) = some { s with circular := s.circular ++ [(t, k)] } := by
  have h : Inv shard s := hrun.invariant inv_init fun _ _ _ h hC hs => h.step hC hs
  exact ⟨fun t => h.not_waits_self, fun D => h.circle_of_deadlocked,
    fun t th k ht hfree hk => h.circular ht hfree hk⟩

omit [DecidableEq K] in
/-- A thread that is at a registration, in a factory with a reference into the shard, waits for itself. -/
theorem deadlocked_of_registering {r : Registration K} (ht : s.threads[t]? = some th)
    (hr : th.registering = some r) (hlocked : r.locked = false)
    (hborrows : th.borrows shard (shard r.key)) : Deadlocked (Waits shard s) {t} :=
  deadlocked_singleton (.exclude th th r ht hr hlocked ht hborrows)

/-- A thread registers a singleton of the key, without a value. -/
def registering (t : ℕ) (k : K) : List (Action K) :=
  [.register t k .singleton false, .lock t, .insert t]

/-- A thread gets the service of a singleton, up to its factory. -/
def getting (t : ℕ) (k : K) : List (Action K) := [.get t k, .look t, .ask t]

/-- The services 0 and 1 need each other, and another thread asks for 0 meanwhile. -/
def circleOnOneThread : List (Action ℕ) :=
  [Action.spawn, .spawn] ++ registering 0 0 ++ registering 1 1 ++ getting 0 0 ++
    [Action.get 1 0, .look 1] ++ getting 0 1 ++ [Action.get 0 0]

/-- The circle is found on the thread that goes round it, and the other one waits for this thread. -/
theorem resolved_circleOnOneThread : ∃ s : System ℕ,
    Run (System.step fun k => k) (fun s a => outside s a) init s ∧ s.circular = [(0, 0)] ∧
      ((∀ t, ¬ Waits (fun k => k) s t t) ∧
        (∀ D, Deadlocked (Waits (fun k => k) s) D → ∃ k, Relation.TransGen s.Depends k k) ∧
        ∀ t th k, s.threads[t]? = some th → th.free → k ∈ th.visits.map Visit.key →
          System.step (fun k => k) s (.get t k) =
            some { s with circular := s.circular ++ [(t, k)] }) := by
  have hexec : (exec (System.step fun k => k) outside init circleOnOneThread).map
      (fun s => s.circular) = some [(0, 0)] := by decide
  obtain ⟨s, hs, hcircular⟩ := Option.map_eq_some_iff.mp hexec
  have hrun := run_of_exec (C := fun s a => outside s a) (fun _ _ => id) hs
  exact ⟨s, hrun, hcircular, resolved_of_outside hrun⟩

/-- The factory of service 0 registers service 1, in the same shard. -/
def registeringInside : List (Action ℕ) :=
  [.spawn] ++ registering 0 0 ++ getting 0 0 ++ [.register 0 1 .singleton true]

/-- Then its thread waits for the lock that it has itself. -/
theorem deadlocked_registeringInside : ∃ s : System ℕ,
    Reachable (System.step fun _ => 0) init s ∧ Deadlocked (Waits (fun _ => 0) s) {0} := by
  have hexec : (exec (System.step fun _ => 0) (fun _ _ => true) init registeringInside).map
      (fun s => s.threads[0]?.map fun th : Thread ℕ =>
        (th.registering.map Registration.locked, th.borrows (fun _ => 0) 0)) =
      some (some (some false, true)) := by decide
  obtain ⟨s, hs, hthread⟩ := Option.map_eq_some_iff.mp hexec
  obtain ⟨th, ht, hth⟩ := Option.map_eq_some_iff.mp hthread
  rw [Prod.mk.injEq] at hth
  obtain ⟨r, hr, hlocked⟩ := Option.map_eq_some_iff.mp hth.1
  exact ⟨s, reachable_of_exec hs, deadlocked_of_registering ht hr hlocked hth.2⟩

/-- The services 0 and 1 need each other, and two threads start at either end. -/
def circleOnTwoThreads : List (Action ℕ) :=
  [Action.spawn, .spawn] ++ registering 0 0 ++ registering 0 1 ++ getting 0 0 ++ getting 1 1 ++
    [Action.get 0 1, .look 0, .get 1 0, .look 1]

/-- A circle over two threads is not found: each sees its own calls only, and they wait for each
other. -/
theorem deadlocked_circleOnTwoThreads : ∃ s : System ℕ,
    Run (System.step fun k => k) (fun s a => outside s a) init s ∧
      Deadlocked (Waits (fun k => k) s) {0, 1} := by
  have hexec : (exec (System.step fun k => k) outside init circleOnTwoThreads).map
      (fun s => (s.threads.map fun th => th.visits.head?.map fun v => (v.key, v.stage),
        [s.provider 0, s.provider 1], [s.cell 0, s.cell 1])) =
      some ([some (1, .found 1), some (0, .found 0)], [.singleton, .singleton],
        [.initialising 0, .initialising 1]) := by decide
  obtain ⟨s, hs, hstate⟩ := Option.map_eq_some_iff.mp hexec
  refine ⟨s, run_of_exec (C := fun s a => outside s a) (fun _ _ => id) hs, ?_⟩
  simp only [Prod.mk.injEq, List.cons.injEq, and_true] at hstate
  obtain ⟨hthreads, ⟨hprovider, hprovider'⟩, hcell, hcell'⟩ := hstate
  have hwaits : ∀ t u k id : ℕ, (s.threads.map fun th => th.visits.head?.map fun v =>
      (v.key, v.stage))[t]? = some (some (k, .found id)) → s.provider id = .singleton →
      s.cell id = .initialising u → Waits (fun k => k) s t u := by
    intro t u k id ht hsingle hinit
    rw [List.getElem?_map] at ht
    obtain ⟨th, hth, hhead⟩ := Option.map_eq_some_iff.mp ht
    obtain ⟨⟨k', stage⟩, hv, heq⟩ := Option.map_eq_some_iff.mp hhead
    rw [Prod.mk.injEq] at heq
    obtain ⟨rfl, rfl⟩ := heq
    obtain ⟨rest, hvisits⟩ := List.head?_eq_some_iff.mp hv
    exact .cell th _ _ rest hth hvisits hsingle hinit
  apply deadlocked_pair
  · exact hwaits 0 1 1 1 (by rw [hthreads]; rfl) hprovider' hcell'
  · exact hwaits 1 0 0 0 (by rw [hthreads]; rfl) hprovider hcell

end System

end Fibre.Ioc
