import Mathlib.Data.List.AList
import Fibre.Cache.Policy
import Fibre.Cache.S3Queue

/-!
# S3-FIFO on keys

The policy a factory makes, which the shard's own S3-FIFO is meant to follow decision by
decision. Each tracked key has its metadata in a map; the queues hold the key with a stamp,
and an entry whose stamp is not the key's current one is stale. Removing a key leaves its
queue entry behind; eviction skips stale entries and `compact` drops them.
-/

namespace Fibre.Cache

open List Nat

/-- What the policy knows of a tracked key. The stamp is new each time the key is queued. -/
structure S3Meta where
  cost : UInt64
  freq : ℕ
  queue : S3Kind
  stamp : UInt32

/-- S3-FIFO on keys. `nextStamp` counts the stamps taken; the source's counter is this number
modulo `2 ^ 32`. -/
structure S3Fifo (K : Type*) where
  metas : AList fun _ : K => S3Meta
  small : List (K × UInt32)
  main : List (K × UInt32)
  smallCost : UInt64
  totalCost : UInt64
  ghost : List K
  ghostSet : Finset K
  nextStamp : ℕ
  smallTarget : UInt64
  ghostCap : ℕ

namespace S3Fifo

variable {K : Type*}

/-- An empty policy for `capacity` cost units. -/
def new (capacity : UInt64) : S3Fifo K where
  metas := ∅
  small := []
  main := []
  smallCost := 0
  totalCost := 0
  ghost := []
  ghostSet := ∅
  nextStamp := 0
  smallTarget := max (capacity / 10) 1
  ghostCap := (max capacity 1).toNat

/-- The queue of a kind, stale entries included. -/
def deque (s : S3Fifo K) : S3Kind → List (K × UInt32)
  | .small => s.small
  | .main => s.main

theorem mem_deque {s : S3Fifo K} {q : S3Kind} {e : K × UInt32} (h : e ∈ s.deque q) :
    e ∈ s.small ++ s.main := by
  cases q with
  | small => exact mem_append_left _ h
  | main => exact mem_append_right _ h

/-- Puts `l` in place of a queue. -/
def setDeque (s : S3Fifo K) (l : List (K × UInt32)) : S3Kind → S3Fifo K
  | .small => { s with small := l }
  | .main => { s with main := l }

theorem deque_setDeque (s : S3Fifo K) (l : List (K × UInt32)) (q q' : S3Kind) :
    (s.setDeque l q).deque q' = if q' = q then l else s.deque q' := by
  cases q <;> cases q' <;> simp [setDeque, deque]

theorem setDeque_sublist {s : S3Fifo K} {q : S3Kind} {e : K × UInt32} {rest : List (K × UInt32)}
    (h : s.deque q = e :: rest) :
    ((s.setDeque rest q).small ++ (s.setDeque rest q).main).Sublist (s.small ++ s.main) := by
  cases q with
  | small =>
    have hs : s.small = e :: rest := h
    rw [hs]
    exact (sublist_cons_self e rest).append_right _
  | main =>
    have hm : s.main = e :: rest := h
    rw [hm]
    exact (sublist_cons_self e rest).append_left _

theorem setDeque_frame (s : S3Fifo K) (l : List (K × UInt32)) (q : S3Kind) :
    (s.setDeque l q).metas = s.metas ∧ (s.setDeque l q).smallCost = s.smallCost ∧
      (s.setDeque l q).ghostSet = s.ghostSet ∧ (s.setDeque l q).ghost = s.ghost ∧
      (s.setDeque l q).smallTarget = s.smallTarget ∧ (s.setDeque l q).ghostCap = s.ghostCap ∧
      (s.setDeque l q).nextStamp = s.nextStamp := by
  cases q <;> exact ⟨rfl, rfl, rfl, rfl, rfl, rfl, rfl⟩

/-- The queued entries, stale or not. -/
def queued (s : S3Fifo K) : ℕ := s.small.length + s.main.length

theorem queued_setDeque {s : S3Fifo K} {q : S3Kind} {e : K × UInt32} {rest : List (K × UInt32)}
    (h : s.deque q = e :: rest) : (s.setDeque rest q).queued + 1 = s.queued := by
  cases q with
  | small =>
    have hs : s.small = e :: rest := h
    simp only [queued, setDeque, hs, length_cons]
    omega
  | main =>
    have hm : s.main = e :: rest := h
    simp only [queued, setDeque, hm, length_cons]
    omega

/-- Forgets everything but the stamps taken. -/
def clear (s : S3Fifo K) : S3Fifo K :=
  { s with
    metas := ∅
    small := []
    main := []
    ghost := []
    ghostSet := ∅
    smallCost := 0
    totalCost := 0 }

variable [DecidableEq K]

/-- The metadata behind a queue entry, unless it is stale. -/
def liveMeta (metas : AList fun _ : K => S3Meta) (q : S3Kind) (e : K × UInt32) : Option S3Meta :=
  (metas.lookup e.1).filter fun m => m.stamp = e.2 ∧ m.queue = q

/-- Queues a tracked key under a new stamp. -/
def push (s : S3Fifo K) (key : K) (q : S3Kind) : S3Fifo K :=
  let stamp := UInt32.ofNat (s.nextStamp + 1)
  let s := { s with nextStamp := s.nextStamp + 1 }
  match s.metas.lookup key with
  -- the source expects the key to be tracked
  | none => s
  | some m =>
    let s := { s with metas := s.metas.insert key { m with stamp := stamp, queue := q } }
    match q with
    | .small => { s with smallCost := s.smallCost + m.cost, small := s.small ++ [(key, stamp)] }
    | .main => { s with main := s.main ++ [(key, stamp)] }

def remember (s : S3Fifo K) (key : K) : S3Fifo K :=
  let kept := rememberGhost s.ghostCap s.ghostSet s.ghost key
  { s with ghostSet := kept.1, ghost := kept.2 }

/-- Drops the stale entries when they are most of the queues. -/
def compact (s : S3Fifo K) : S3Fifo K :=
  if s.small.length + s.main.length ≤ 2 * s.metas.keys.length + 64 then s
  else
    { s with
      small := s.small.filter fun e => (liveMeta s.metas .small e).isSome
      main := s.main.filter fun e => (liveMeta s.metas .main e).isSome }

/-- A read of `key`. -/
def onAccess (s : S3Fifo K) (key : K) : S3Fifo K :=
  match s.metas.lookup key with
  | none => s
  | some m => { s with metas := s.metas.insert key { m with freq := min (m.freq + 1) 3 } }

/-- A tracked key changes its cost; a new one is queued, in main if it is a ghost. -/
def onAdmit (s : S3Fifo K) (key : K) (cost : UInt64) : S3Fifo K :=
  match s.metas.lookup key with
  | some m =>
    { s with
      metas := s.metas.insert key { m with cost := cost }
      totalCost := s.totalCost - m.cost + cost
      smallCost := if m.queue = .small then s.smallCost - m.cost + cost else s.smallCost }
  | none =>
    let q := if key ∈ s.ghostSet then S3Kind.main else S3Kind.small
    let s := { s with
      ghostSet := s.ghostSet.erase key
      metas := s.metas.insert key ⟨cost, 0, .small, 0⟩
      totalCost := s.totalCost + cost }
    (s.push key q).compact

/-- Forgets a key; its queue entry is now stale. -/
def onRemove (s : S3Fifo K) (key : K) : S3Fifo K :=
  match s.metas.lookup key with
  | none => s
  | some m =>
    { s with
      metas := s.metas.erase key
      totalCost := s.totalCost - m.cost
      smallCost := if m.queue = .small then s.smallCost - m.cost else s.smallCost }

/-- The queue the next turn of the eviction loop takes from. -/
def turnQueue (s : S3Fifo K) : S3Kind :=
  if s.small ≠ [] ∧ (s.smallCost > s.smallTarget ∨ s.main = []) then .small else .main

/-- One turn of the eviction loop: `none` when the queue is empty, else the key evicted with
its cost, if any. -/
def evictTurn (s : S3Fifo K) : Option (Option (K × UInt64) × S3Fifo K) :=
  match s.deque s.turnQueue with
  | [] => none
  | e :: rest =>
    match s.turnQueue, liveMeta s.metas s.turnQueue e with
    | q, none => some (none, s.setDeque rest q)
    | .small, some m =>
      let s := { s with small := rest, smallCost := s.smallCost - m.cost }
      if m.freq > 1 then
        some (none, { s with metas := s.metas.insert e.1 { m with freq := 0 } }.push e.1 .main)
      else
        some (some (e.1, m.cost),
          { s with metas := s.metas.erase e.1, totalCost := s.totalCost - m.cost }.remember e.1)
    | .main, some m =>
      let s := { s with main := rest }
      if m.freq > 0 then
        some (none,
          { s with metas := s.metas.insert e.1 { m with freq := m.freq - 1 } }.push e.1 .main)
      else
        some (some (e.1, m.cost),
          { s with metas := s.metas.erase e.1, totalCost := s.totalCost - m.cost })

/-- The eviction loop, for at most `fuel` turns. -/
def evictLoop : ℕ → UInt64 → UInt64 → S3Fifo K → (List K × UInt64) × S3Fifo K
  | 0, _, freed, s => (([], freed), s)
  | fuel + 1, costToFree, freed, s =>
    if freed < costToFree then
      match s.evictTurn with
      | none => (([], freed), s)
      | some (none, s) => evictLoop fuel costToFree freed s
      | some (some (key, cost), s) =>
        let r := evictLoop fuel costToFree (freed + cost) s
        ((key :: r.1.1, r.1.2), r.2)
    else
      (([], freed), s)

/-- Turns that are always enough: an entry of the small queue is taken once and may move to
main, one of main goes round at most three times. -/
def evictTurns (s : S3Fifo K) : ℕ := 2 * s.small.length + 4 * s.main.length

/-- Evicts until `costToFree` is released or nothing is tracked. Returns the victims and the
cost released. -/
def evict (s : S3Fifo K) (costToFree : UInt64) : (List K × UInt64) × S3Fifo K :=
  evictLoop s.evictTurns costToFree 0 s

instance : CachePolicy (S3Fifo K) K where
  onAccess s key _ := s.onAccess key
  onAdmit s key cost := (.admitted, s.onAdmit key cost)
  onRemove := onRemove
  evict := evict
  clear := clear

/-- The entries of the small and the main queue that are not stale, oldest first, with their
read counts, the ghosts and their order. -/
def debugState (s : S3Fifo K) : List (K × ℕ) × List (K × ℕ) × Finset K × List K :=
  let live := fun q l => l.filterMap fun e => (liveMeta s.metas q e).map fun m => (e.1, m.freq)
  (live .small s.small, live .main s.main, s.ghostSet, s.ghost)

/-! ### The entries that are not stale -/

/-- The entries of a queue that are not stale. -/
def resident (metas : AList fun _ : K => S3Meta) (q : S3Kind) (l : List (K × UInt32)) :
    List (S3Entry K K) :=
  l.filterMap fun e => (liveMeta metas q e).map fun m => ⟨e.1, e.1, m.cost, m.freq⟩

section Resident

variable {metas : AList fun _ : K => S3Meta} {q : S3Kind} {l : List (K × UInt32)} {key : K}
  {m m' : S3Meta}

theorem liveMeta_eq_some {e : K × UInt32} :
    liveMeta metas q e = some m ↔ metas.lookup e.1 = some m ∧ m.stamp = e.2 ∧ m.queue = q := by
  simp [liveMeta, Option.filter_eq_some_iff]

theorem mem_resident {a : S3Entry K K} : a ∈ resident metas q l ↔
    ∃ m, metas.lookup a.name = some m ∧ m.queue = q ∧ (a.name, m.stamp) ∈ l ∧
      a = ⟨a.name, a.name, m.cost, m.freq⟩ := by
  simp only [resident, mem_filterMap, Option.map_eq_some_iff, liveMeta_eq_some]
  constructor
  · rintro ⟨⟨k, st⟩, hmem, m, ⟨hl, hst, hq⟩, rfl⟩
    exact ⟨m, hl, hq, by simpa [hst] using hmem, rfl⟩
  · rintro ⟨m, hl, hq, hmem, ha⟩
    exact ⟨_, hmem, m, ⟨hl, rfl, hq⟩, ha.symm⟩

@[simp] theorem resident_nil : resident metas q [] = [] := rfl

theorem resident_append (l l' : List (K × UInt32)) :
    resident metas q (l ++ l') = resident metas q l ++ resident metas q l' := by
  simp [resident]

theorem resident_cons_stale {e : K × UInt32} (h : liveMeta metas q e = none) :
    resident metas q (e :: l) = resident metas q l := by
  simp [resident, h]

theorem resident_cons_live {e : K × UInt32} (h : liveMeta metas q e = some m) :
    resident metas q (e :: l) = ⟨e.1, e.1, m.cost, m.freq⟩ :: resident metas q l := by
  simp [resident, h]

theorem resident_compact :
    resident metas q (l.filter fun e => (liveMeta metas q e).isSome) = resident metas q l := by
  simp only [resident, filterMap_filter]
  refine filterMap_congr ?_
  intro e _
  cases liveMeta metas q e <;> rfl

theorem resident_erase :
    resident (metas.erase key) q l = (resident metas q l).filter (·.name ≠ key) := by
  simp only [resident, filter_filterMap]
  refine filterMap_congr ?_
  rintro ⟨k, st⟩ _
  by_cases hk : k = key
  · subst hk
    cases h : liveMeta metas q (k, st) with
    | none => simp [liveMeta]
    | some m => simp [liveMeta, Option.filter_some]
  · simp only [liveMeta, AList.lookup_erase_ne hk]
    cases (metas.lookup k).filter fun m => m.stamp = st ∧ m.queue = q with
    | none => rfl
    | some m => simp [hk, Option.filter_some]

theorem resident_modify (hl : metas.lookup key = some m) (hst : m'.stamp = m.stamp)
    (hq : m'.queue = m.queue) :
    resident (metas.insert key m') q l = (resident metas q l).map fun a =>
      if a.name = key then ⟨key, key, m'.cost, m'.freq⟩ else a := by
  simp only [resident, map_filterMap]
  refine filterMap_congr ?_
  rintro ⟨k, st⟩ _
  by_cases hk : k = key
  · subst hk
    by_cases hlive : m.stamp = st ∧ m.queue = q
    · simp [liveMeta, hl, hst, hq, Option.filter_some, hlive.1, hlive.2]
    · simp [liveMeta, hl, hst, hq, Option.filter_some, hlive]
  · simp only [liveMeta, AList.lookup_insert_ne hk]
    cases (metas.lookup k).filter fun m => m.stamp = st ∧ m.queue = q with
    | none => rfl
    | some m => simp [hk]

/-- A key that was not tracked, under a new stamp: every queued entry of it is stale before
and after. -/
theorem resident_fresh {metas' : AList fun _ : K => S3Meta}
    (hmetas : ∀ k, k ≠ key → metas'.lookup k = metas.lookup k) (hnone : metas.lookup key = none)
    (hl : metas'.lookup key = some m) (hst : ∀ e ∈ l, e.2 ≠ m.stamp) :
    resident metas' q l = resident metas q l := by
  refine filterMap_congr ?_
  rintro ⟨k, st⟩ hmem
  by_cases hk : k = key
  · subst hk
    have hne : m.stamp ≠ st := fun h => hst _ hmem h.symm
    simp [liveMeta, Option.filter_some, hne, hnone, hl]
  · simp [liveMeta, hmetas k hk]

end Resident

/-! ### The queues it stores -/

/-- The entries that are not stale are the queues of `A`, each tracked key has one, and no
stamp occurs twice. -/
structure Refines (s : S3Fifo K) (A : S3Queue K K) : Prop where
  queues : ∀ q, A.queue q = resident s.metas q (s.deque q)
  tracked : ∀ k m, s.metas.lookup k = some m → (k, m.stamp) ∈ s.deque m.queue
  stamps : ((s.small ++ s.main).map (·.2)).Nodup
  stamp_le : ∀ e ∈ s.small ++ s.main, e.2.toNat ≤ s.nextStamp
  freq_le : ∀ k m, s.metas.lookup k = some m → m.freq ≤ 3
  smallCost : s.smallCost = A.smallCost
  ghost : A.ghost = s.ghostSet
  ghostOrder : A.ghostOrder = s.ghost
  smallTarget : A.smallTarget = s.smallTarget
  ghostCap : A.ghostCap = s.ghostCap

theorem refines_empty {s : S3Fifo K} {A : S3Queue K K} (hm : s.metas = ∅) (hs : s.small = [])
    (hq : s.main = []) (hc : s.smallCost = 0) (hA : A.entries = []) (hg : A.ghost = s.ghostSet)
    (ho : A.ghostOrder = s.ghost) (ht : A.smallTarget = s.smallTarget)
    (hcap : A.ghostCap = s.ghostCap) : s.Refines A := by
  obtain ⟨hAs, hAm⟩ := append_eq_nil_iff.mp hA
  refine ⟨?_, ?_, by simp [hs, hq], by simp [hs, hq], ?_, by simp [hc, S3Queue.smallCost, hAs], hg,
    ho, ht, hcap⟩
  · intro q
    cases q with
    | small => simp [S3Queue.queue, deque, hAs, hs]
    | main => simp [S3Queue.queue, deque, hAm, hq]
  · intro k m h
    simp [hm] at h
  · intro k m h
    simp [hm] at h

theorem refines_new (capacity : UInt64) : (new capacity : S3Fifo K).Refines (.new capacity) :=
  refines_empty rfl rfl rfl rfl rfl rfl rfl rfl rfl

theorem deque_push {s : S3Fifo K} {key : K} {m : S3Meta} (hl : s.metas.lookup key = some m)
    (q q' : S3Kind) : (s.push key q).deque q' =
      if q' = q then s.deque q' ++ [(key, UInt32.ofNat (s.nextStamp + 1))] else s.deque q' := by
  cases q <;> cases q' <;> simp [push, hl, deque]

theorem metas_push {s : S3Fifo K} {key : K} {m : S3Meta} (hl : s.metas.lookup key = some m)
    (q : S3Kind) : (s.push key q).metas =
      s.metas.insert key { m with stamp := UInt32.ofNat (s.nextStamp + 1), queue := q } := by
  cases q <;> simp [push, hl]

theorem smallCost_push {s : S3Fifo K} {key : K} {m : S3Meta} (hl : s.metas.lookup key = some m)
    (q : S3Kind) : (s.push key q).smallCost =
      if q = .small then s.smallCost + m.cost else s.smallCost := by
  cases q <;> simp [push, hl]

theorem push_perm {s : S3Fifo K} {key : K} {m : S3Meta} (hl : s.metas.lookup key = some m)
    (q : S3Kind) : ((s.push key q).small ++ (s.push key q).main).Perm
      ((key, UInt32.ofNat (s.nextStamp + 1)) :: (s.small ++ s.main)) := by
  cases q with
  | small =>
    simp only [push, hl, append_assoc, singleton_append]
    exact perm_middle
  | main =>
    simp only [push, hl, ← append_assoc]
    exact perm_append_singleton _ _

theorem queued_push {s : S3Fifo K} {key : K} {m : S3Meta} (hl : s.metas.lookup key = some m)
    (q : S3Kind) : (s.push key q).queued = s.queued + 1 := by
  have hlen := (push_perm hl q).length_eq
  simpa [queued] using hlen

theorem nextStamp_push (s : S3Fifo K) (key : K) (q : S3Kind) :
    (s.push key q).nextStamp = s.nextStamp + 1 := by
  unfold push
  simp only
  split
  · rfl
  · cases q <;> rfl

theorem nextStamp_onAdmit (s : S3Fifo K) (key : K) (cost : UInt64) :
    (s.onAdmit key cost).nextStamp =
      if (s.metas.lookup key).isSome then s.nextStamp else s.nextStamp + 1 := by
  have hcompact : ∀ s : S3Fifo K, s.compact.nextStamp = s.nextStamp := by
    intro s
    unfold compact
    split_ifs <;> rfl
  unfold onAdmit
  cases s.metas.lookup key with
  | none =>
    simp only [hcompact, nextStamp_push]
    rfl
  | some m => rfl

theorem push_frame (s : S3Fifo K) (key : K) (q : S3Kind) :
    (s.push key q).ghostSet = s.ghostSet ∧ (s.push key q).ghost = s.ghost ∧
      (s.push key q).smallTarget = s.smallTarget ∧ (s.push key q).ghostCap = s.ghostCap := by
  unfold push
  simp only
  split
  · exact ⟨rfl, rfl, rfl, rfl⟩
  · cases q <;> exact ⟨rfl, rfl, rfl, rfl⟩

namespace Refines

variable {s : S3Fifo K} {A : S3Queue K K} {key : K} {m : S3Meta} {cost : UInt64}

theorem clear (h : s.Refines A) :
    s.clear.Refines { A with small := [], main := [], ghost := ∅, ghostOrder := [] } :=
  refines_empty rfl rfl rfl rfl rfl rfl rfl h.smallTarget h.ghostCap

theorem mem_queue (h : s.Refines A) (hl : s.metas.lookup key = some m) :
    (⟨key, key, m.cost, m.freq⟩ : S3Entry K K) ∈ A.queue m.queue := by
  rw [h.queues]
  exact mem_resident.mpr ⟨m, hl, rfl, h.tracked key m hl, rfl⟩

theorem mem_names (h : s.Refines A) :
    key ∈ A.entries.map (·.name) ↔ (s.metas.lookup key).isSome := by
  constructor
  · intro hmem
    obtain ⟨a, ha, rfl⟩ := mem_map.mp hmem
    obtain ⟨q, hq⟩ := S3Queue.mem_entries.mp ha
    rw [h.queues, mem_resident] at hq
    obtain ⟨m, hm, -⟩ := hq
    simp [hm]
  · intro hl
    obtain ⟨m, hm⟩ := Option.isSome_iff_exists.mp hl
    exact mem_map.mpr ⟨_, S3Queue.mem_entries.mpr ⟨_, h.mem_queue hm⟩, rfl⟩

theorem nodup_resident {metas : AList fun _ : K => S3Meta} {q : S3Kind} {l : List (K × UInt32)}
    (h : (l.map (·.2)).Nodup) : ((resident metas q l).map (·.name)).Nodup := by
  induction l with
  | nil => exact nodup_nil
  | cons e l ih =>
    obtain ⟨hnot, hnd⟩ := nodup_cons.mp h
    cases hlive : liveMeta metas q e with
    | none =>
      rw [resident_cons_stale hlive]
      exact ih hnd
    | some m =>
      rw [resident_cons_live hlive, map_cons]
      refine nodup_cons.mpr ⟨?_, ih hnd⟩
      -- a second live entry of the key would have the same stamp
      intro hmem
      obtain ⟨a, ha, hname⟩ := mem_map.mp hmem
      obtain ⟨m', hm', -, hst, -⟩ := mem_resident.mp ha
      obtain ⟨hm, hst', -⟩ := liveMeta_eq_some.mp hlive
      simp only at hname
      rw [hname, hm] at hm'
      obtain rfl := Option.some.inj hm'
      exact hnot (mem_map.mpr ⟨_, hst, hst'⟩)

theorem nodup_names (h : s.Refines A) : (A.entries.map (·.name)).Nodup := by
  have hst := h.stamps
  rw [map_append, nodup_append] at hst
  have hs : A.small = _ := h.queues .small
  have hm : A.main = _ := h.queues .main
  rw [S3Queue.entries, map_append, nodup_append]
  refine ⟨hs ▸ nodup_resident hst.1, hm ▸ nodup_resident hst.2.1, ?_⟩
  -- the metadata names one queue
  intro k hks k' hkm heq
  subst heq
  rw [hs] at hks
  rw [hm] at hkm
  obtain ⟨a, ha, rfl⟩ := mem_map.mp hks
  obtain ⟨a', ha', hname⟩ := mem_map.mp hkm
  obtain ⟨m, hl, hq, -⟩ := mem_resident.mp ha
  obtain ⟨m', hl', hq', -⟩ := mem_resident.mp ha'
  rw [hname, hl] at hl'
  obtain rfl := Option.some.inj hl'
  simp [hq] at hq'

theorem lookup_insert_eq_some {metas : AList fun _ : K => S3Meta} {k : K} {m' : S3Meta}
    (h : (metas.insert key m').lookup k = some m) :
    k = key ∧ m = m' ∨ k ≠ key ∧ metas.lookup k = some m := by
  by_cases hkey : k = key
  · subst hkey
    rw [AList.lookup_insert] at h
    exact .inl ⟨rfl, (Option.some.inj h).symm⟩
  · rw [AList.lookup_insert_ne hkey] at h
    exact .inr ⟨hkey, h⟩

theorem modify (h : s.Refines A) (hl : s.metas.lookup key = some m) (m' : S3Meta)
    (hst : m'.stamp = m.stamp) (hq : m'.queue = m.queue) (hfreq : m'.freq ≤ 3)
    (f : S3Entry K K → S3Entry K K)
    (hf : f ⟨key, key, m.cost, m.freq⟩ = ⟨key, key, m'.cost, m'.freq⟩)
    (hne : ∀ e, e.name ≠ key → f e = e) {small total : UInt64}
    (hsmall : small = (A.mapEntries f).smallCost) :
    { s with metas := s.metas.insert key m', smallCost := small, totalCost := total }.Refines
      (A.mapEntries f) := by
  refine ⟨?_, ?_, h.stamps, h.stamp_le, ?_, hsmall, h.ghost, h.ghostOrder, h.smallTarget,
    h.ghostCap⟩
  · intro q
    change _ = resident (s.metas.insert key m') q (s.deque q)
    rw [resident_modify hl hst hq, ← h.queues, S3Queue.queue_mapEntries]
    refine map_congr_left ?_
    intro a ha
    rw [h.queues] at ha
    obtain ⟨m'', hl', -, -, heq⟩ := mem_resident.mp ha
    by_cases hk : a.name = key
    · rw [hk, hl] at hl'
      obtain rfl := Option.some.inj hl'
      rw [if_pos hk, heq, hk, hf]
    · rw [if_neg hk, hne a hk]
  · intro k m'' hk
    rcases lookup_insert_eq_some hk with ⟨rfl, rfl⟩ | ⟨-, hk⟩
    · rw [hst, hq]
      exact h.tracked k m hl
    · exact h.tracked k m'' hk
  · intro k m'' hk
    rcases lookup_insert_eq_some hk with ⟨rfl, rfl⟩ | ⟨-, hk⟩
    · exact hfreq
    · exact h.freq_le k m'' hk

theorem onAccess (h : s.Refines A) (key : K) : (s.onAccess key).Refines (A.touch key) := by
  unfold S3Fifo.onAccess
  cases hl : s.metas.lookup key with
  | none =>
    rw [S3Queue.touch_of_not_mem]
    · exact h
    · rw [h.mem_names, hl]
      simp
  | some m =>
    refine h.modify hl { m with freq := min (m.freq + 1) 3 } rfl rfl (min_le_right _ _) _ ?_ ?_ ?_
    · simp [S3Entry.bump]
    · intro e he
      rw [if_neg he]
    · rw [h.smallCost]
      exact (S3Queue.smallCost_touch A key).symm

theorem onAdmit_resident (h : s.Refines A) (hk : key ∈ A.entries.map (·.name)) (cost : UInt64) :
    (s.onAdmit key cost).Refines (A.update key cost) := by
  obtain ⟨m, hl⟩ := Option.isSome_iff_exists.mp (h.mem_names.mp hk)
  unfold S3Fifo.onAdmit
  simp only [hl]
  refine h.modify hl { m with cost := cost } rfl rfl (h.freq_le key m hl) _ ?_ ?_ ?_
  · simp
  · intro e he
    rw [if_neg he]
  · rw [h.smallCost]
    exact (S3Queue.smallCost_update h.nodup_names (h.mem_queue hl) cost).symm

theorem lookup_erase_eq_some {metas : AList fun _ : K => S3Meta} {k : K}
    (h : (metas.erase key).lookup k = some m) : k ≠ key ∧ metas.lookup k = some m := by
  have hne : k ≠ key := by
    rintro rfl
    simp at h
  rw [AList.lookup_erase_ne hne] at h
  exact ⟨hne, h⟩

theorem onRemove (h : s.Refines A) (key : K) : (s.onRemove key).Refines (A.remove key) := by
  unfold S3Fifo.onRemove
  cases hl : s.metas.lookup key with
  | none =>
    rw [S3Queue.remove_of_not_mem]
    · exact h
    · rw [h.mem_names, hl]
      simp
  | some m =>
    refine ⟨?_, ?_, h.stamps, h.stamp_le, ?_, ?_, h.ghost, h.ghostOrder, h.smallTarget,
      h.ghostCap⟩
    · intro q
      change _ = resident (s.metas.erase key) q (s.deque q)
      rw [resident_erase, ← h.queues, S3Queue.queue_remove]
    · intro k m hk
      exact h.tracked k m (lookup_erase_eq_some hk).2
    · intro k m hk
      exact h.freq_le k m (lookup_erase_eq_some hk).2
    · simp only [h.smallCost]
      exact (S3Queue.smallCost_remove h.nodup_names (h.mem_queue hl)).symm

/-- Queueing a key that is not tracked, under a stamp never taken. `s'` is `s` with the key's
metadata. -/
theorem push (h : s.Refines A) (hlt : s.nextStamp + 1 < 2 ^ 32)
    (hfresh : key ∉ A.entries.map (·.name)) (metas : AList fun _ : K => S3Meta)
    (hmetas : ∀ k, k ≠ key → metas.lookup k = s.metas.lookup k) (hl : metas.lookup key = some m)
    (hfreq : m.freq ≤ 3) (q : S3Kind) (total : UInt64) :
    ({ s with metas := metas, totalCost := total }.push key q).Refines
      (A.enqueue ⟨key, key, m.cost, m.freq⟩ q) := by
  have hstamp : (UInt32.ofNat (s.nextStamp + 1)).toNat = s.nextStamp + 1 :=
    UInt32.toNat_ofNat_of_lt' hlt
  have hnew : ∀ e ∈ s.small ++ s.main, e.2 ≠ UInt32.ofNat (s.nextStamp + 1) := by
    intro e he heq
    have hle := h.stamp_le e he
    rw [heq, hstamp] at hle
    omega
  have hnone : s.metas.lookup key = none := by
    simpa using h.mem_names.not.mp hfresh
  generalize hs' : ({ s with metas := metas, totalCost := total } : S3Fifo K) = s'
  have hl' : s'.metas.lookup key = some m := hs' ▸ hl
  have hlookup : ∀ k m', (s'.push key q).metas.lookup k = some m' →
      k = key ∧ m' = { m with stamp := UInt32.ofNat (s.nextStamp + 1), queue := q } ∨
        k ≠ key ∧ s.metas.lookup k = some m' := by
    intro k m' hk
    rw [metas_push hl'] at hk
    subst hs'
    exact (lookup_insert_eq_some hk).imp_right fun ⟨hne, hk⟩ => ⟨hne, hmetas k hne ▸ hk⟩
  have hself : (s'.push key q).metas.lookup key =
      some { m with stamp := UInt32.ofNat (s.nextStamp + 1), queue := q } := by
    rw [metas_push hl']
    subst hs'
    exact AList.lookup_insert _
  have hperm := push_perm hl' q
  have hdeque : ∀ q, s'.deque q = s.deque q := by
    subst hs'
    intro q
    cases q <;> rfl
  obtain ⟨hg, ho, ht, hc⟩ := push_frame s' key q
  refine ⟨?_, ?_, (hperm.map _).nodup_iff.mpr ?_, ?_, ?_, ?_, ?_, ?_, ?_, ?_⟩
  · intro q'
    -- what a queue already holds is as before
    have hold : resident (s'.push key q).metas q' (s.deque q') = A.queue q' := by
      rw [h.queues]
      refine resident_fresh ?_ hnone hself ?_
      · intro k hk
        rw [metas_push hl', AList.lookup_insert_ne hk, ← hmetas k hk]
        subst hs'
        rfl
      · intro e he
        exact hnew e (mem_deque he)
    rw [deque_push hl', hdeque, S3Queue.queue_enqueue]
    split_ifs with hq
    · have hlive : liveMeta (s'.push key q).metas q' (key, UInt32.ofNat (s'.nextStamp + 1)) =
          some { m with stamp := UInt32.ofNat (s.nextStamp + 1), queue := q } :=
        liveMeta_eq_some.mpr ⟨hself, by subst hs'; rfl, hq.symm⟩
      rw [resident_append, hold, resident_cons_live hlive, resident_nil]
    · exact hold.symm
  · intro k m' hk
    rw [deque_push hl', hdeque]
    rcases hlookup k m' hk with ⟨rfl, rfl⟩ | ⟨-, hk⟩
    · subst hs'
      simp
    · have hmem := h.tracked k m' hk
      split_ifs
      · exact mem_append_left _ hmem
      · exact hmem
  · subst hs'
    refine nodup_cons.mpr ⟨?_, h.stamps⟩
    intro hmem
    obtain ⟨e, he, heq⟩ := mem_map.mp hmem
    exact hnew e he heq
  · intro e he
    rw [nextStamp_push]
    subst hs'
    rcases mem_cons.mp (hperm.mem_iff.mp he) with rfl | he
    · exact hstamp.le
    · exact (h.stamp_le e he).trans (le_succ _)
  · intro k m' hk
    rcases hlookup k m' hk with ⟨-, rfl⟩ | ⟨-, hk⟩
    · exact hfreq
    · exact h.freq_le k m' hk
  · rw [smallCost_push hl', S3Queue.smallCost_enqueue, ← h.smallCost]
    subst hs'
    rfl
  · rw [hg]
    subst hs'
    cases q <;> exact h.ghost
  · rw [ho]
    subst hs'
    cases q <;> exact h.ghostOrder
  · rw [ht]
    subst hs'
    cases q <;> exact h.smallTarget
  · rw [hc]
    subst hs'
    cases q <;> exact h.ghostCap

theorem mem_filter_live (hk : s.metas.lookup key = some m) {l : List (K × UInt32)}
    (hmem : (key, m.stamp) ∈ l) :
    (key, m.stamp) ∈ l.filter fun e => (liveMeta s.metas m.queue e).isSome := by
  have hlive : liveMeta s.metas m.queue (key, m.stamp) = some m :=
    liveMeta_eq_some.mpr ⟨hk, rfl, rfl⟩
  exact mem_filter.mpr ⟨hmem, Option.isSome_of_mem hlive⟩

theorem compact (h : s.Refines A) : s.compact.Refines A := by
  unfold S3Fifo.compact
  split_ifs
  · exact h
  have hsub : (s.small.filter (fun e => (liveMeta s.metas .small e).isSome) ++
      s.main.filter fun e => (liveMeta s.metas .main e).isSome).Sublist (s.small ++ s.main) :=
    filter_sublist.append filter_sublist
  refine ⟨?_, ?_, h.stamps.sublist (hsub.map _), ?_, h.freq_le, h.smallCost, h.ghost,
    h.ghostOrder, h.smallTarget, h.ghostCap⟩
  · intro q
    rw [h.queues]
    cases q <;> exact resident_compact.symm
  · -- the entry of a tracked key is not stale, so it is kept
    intro k m hk
    have hkept := mem_filter_live hk (h.tracked k m hk)
    cases hq : m.queue <;> rw [hq] at hkept <;> exact hkept
  · intro e he
    exact h.stamp_le e (hsub.subset he)

theorem onAdmit_fresh (h : s.Refines A) (hlt : s.nextStamp + 1 < 2 ^ 32)
    (hfresh : key ∉ A.entries.map (·.name)) (cost : UInt64) :
    (s.onAdmit key cost).Refines (A.admitEntry key key cost) := by
  have hnone : s.metas.lookup key = none := by
    simpa using h.mem_names.not.mp hfresh
  have hg : Refines { s with ghostSet := s.ghostSet.erase key }
      { A with ghost := A.ghost.erase key } :=
    ⟨h.queues, h.tracked, h.stamps, h.stamp_le, h.freq_le, h.smallCost, by rw [h.ghost],
      h.ghostOrder, h.smallTarget, h.ghostCap⟩
  have hp := hg.push hlt hfresh (s.metas.insert key ⟨cost, 0, .small, 0⟩)
    (fun k hk => AList.lookup_insert_ne hk) (AList.lookup_insert _) (zero_le _)
    (if key ∈ s.ghostSet then .main else .small) (s.totalCost + cost)
  unfold S3Fifo.onAdmit
  simp only [hnone]
  have hA : A.admitEntry key key cost = S3Queue.enqueue { A with ghost := A.ghost.erase key }
      ⟨key, key, cost, 0⟩ (if key ∈ s.ghostSet then .main else .small) := by
    unfold S3Queue.admitEntry
    rw [h.ghost]
    split_ifs with hmem
    · rfl
    · rw [Finset.erase_eq_of_notMem hmem]
      simp [S3Queue.enqueue, ← h.ghost]
  rw [hA]
  exact hp.compact

/-! ### Eviction -/

theorem remember (h : s.Refines A) (key : K) : (s.remember key).Refines (A.remember key) := by
  refine ⟨?_, ?_, h.stamps, h.stamp_le, h.freq_le, h.smallCost, ?_, ?_, h.smallTarget, h.ghostCap⟩
  · intro q
    have hq := h.queues q
    cases q <;> exact hq
  · intro k m hk
    have hmem := h.tracked k m hk
    revert hmem
    cases m.queue <;> exact id
  · simp only [S3Queue.remember, S3Fifo.remember, h.ghost, h.ghostOrder, h.ghostCap]
  · simp only [S3Queue.remember, S3Fifo.remember, h.ghost, h.ghostOrder, h.ghostCap]

section Turn

variable {q : S3Kind} {e : K × UInt32} {rest : List (K × UInt32)}

theorem skip (h : s.Refines A) (hd : s.deque q = e :: rest)
    (hstale : liveMeta s.metas q e = none) : (s.setDeque rest q).Refines A := by
  have hsub := setDeque_sublist hd
  obtain ⟨hm, hc, hg, ho, ht, hcap, hn⟩ := setDeque_frame s rest q
  refine ⟨?_, ?_, h.stamps.sublist (hsub.map _), ?_, hm ▸ h.freq_le, hc ▸ h.smallCost, hg ▸ h.ghost,
    ho ▸ h.ghostOrder, ht ▸ h.smallTarget, hcap ▸ h.ghostCap⟩
  · intro q'
    rw [h.queues, hm, deque_setDeque]
    split_ifs with hq
    · subst hq
      rw [hd, resident_cons_stale hstale]
    · rfl
  · intro k m hk
    rw [hm] at hk
    have hmem := h.tracked k m hk
    rw [deque_setDeque]
    split_ifs with hq
    · rw [hq, hd] at hmem
      refine (mem_cons.mp hmem).resolve_left ?_
      rintro rfl
      rw [liveMeta_eq_some.mpr ⟨hk, rfl, hq⟩] at hstale
      simp at hstale
    · exact hmem
  · intro e he
    rw [hn]
    exact h.stamp_le e (hsub.subset he)

theorem pop (h : s.Refines A) (hd : s.deque q = e :: rest)
    (hlive : liveMeta s.metas q e = some m) (total : UInt64) :
    ∃ tail, A.queue q = ⟨e.1, e.1, m.cost, m.freq⟩ :: tail ∧
      { s.setDeque rest q with
        metas := s.metas.erase e.1
        smallCost := if q = S3Kind.small then s.smallCost - m.cost else s.smallCost
        totalCost := total }.Refines (A.setQueue tail q) := by
  have hsub := setDeque_sublist hd
  obtain ⟨hm, hc, hg, ho, ht, hcap, hn⟩ := setDeque_frame s rest q
  have hhead : A.queue q = ⟨e.1, e.1, m.cost, m.freq⟩ :: resident s.metas q rest := by
    rw [h.queues, hd, resident_cons_live hlive]
  refine ⟨_, hhead, ?_, ?_, h.stamps.sublist (hsub.map _), ?_, ?_, ?_, ?_, ?_, ?_, ?_⟩
  · intro q'
    have hnot := S3Queue.not_mem_of_setQueue h.nodup_names hhead q'
    change _ = resident (s.metas.erase e.1) q' ((s.setDeque rest q).deque q')
    rw [resident_erase, deque_setDeque]
    rw [S3Queue.queue_setQueue] at hnot ⊢
    split_ifs with hq
    · subst hq
      rw [if_pos rfl] at hnot
      exact (S3Queue.filter_name_of_not_mem hnot).symm
    · rw [if_neg hq] at hnot
      rw [← h.queues]
      exact (S3Queue.filter_name_of_not_mem hnot).symm
  · intro k m' hk
    obtain ⟨hne, hk⟩ := lookup_erase_eq_some hk
    have hmem := h.tracked k m' hk
    change _ ∈ (s.setDeque rest q).deque m'.queue
    rw [deque_setDeque]
    split_ifs with hq
    · rw [hq, hd] at hmem
      refine (mem_cons.mp hmem).resolve_left ?_
      rintro rfl
      exact hne rfl
    · exact hmem
  · intro e he
    exact hn ▸ h.stamp_le e (hsub.subset he)
  · intro k m' hk
    exact h.freq_le k m' (lookup_erase_eq_some hk).2
  · rw [h.smallCost]
    cases q with
    | small =>
      have hs : A.small = _ := hhead
      simp only [if_true, S3Queue.smallCost, S3Queue.setQueue, hs, map_cons, sum_cons]
      abel
    | main => rfl
  · cases q <;> exact h.ghost
  · cases q <;> exact h.ghostOrder
  · cases q <;> exact h.smallTarget
  · cases q <;> exact h.ghostCap

theorem evictStep_eq (h : s.Refines A) (hd : s.deque s.turnQueue = e :: rest)
    (hlive : liveMeta s.metas s.turnQueue e = some m) : A.evictStep =
      match s.turnQueue with
      | .small => A.evictSmall
      | .main => A.evictMain := by
  have hs : A.small = _ := h.queues .small
  have hm : A.main = _ := h.queues .main
  have hhead : A.queue s.turnQueue ≠ [] := by
    rw [h.queues, hd, resident_cons_live hlive]
    simp
  unfold turnQueue at hhead ⊢
  unfold S3Queue.evictStep
  rw [← h.smallCost, h.smallTarget]
  split_ifs at hhead ⊢ with hlists hraw hraw
  · rfl
  · -- the queues of the policy are empty only if the lists are
    refine absurd ⟨?_, hlists.2.imp_right fun hmain => absurd hmain hhead⟩ hraw
    intro hsmall
    apply hlists.1
    rw [hs]
    simp [deque, hsmall]
  · refine absurd ⟨hhead, hraw.2.imp_right fun hmain => ?_⟩ hlists
    rw [hm]
    simp [deque, hmain]
  · rfl

theorem requeue (h : s.Refines A) (hd : s.deque q = e :: rest)
    (hlive : liveMeta s.metas q e = some m) (hlt : s.nextStamp + 1 < 2 ^ 32) {f : ℕ}
    (hf : f ≤ 3) {tail : List (S3Entry K K)}
    (htail : A.queue q = ⟨e.1, e.1, m.cost, m.freq⟩ :: tail) :
    ({ s.setDeque rest q with
      metas := s.metas.insert e.1 { m with freq := f }
      smallCost := if q = S3Kind.small then s.smallCost - m.cost else s.smallCost }.push
        e.1 .main).Refines ((A.setQueue tail q).enqueue ⟨e.1, e.1, m.cost, f⟩ .main) := by
  obtain ⟨tail', htail', hr⟩ := h.pop hd hlive s.totalCost
  obtain rfl : tail = tail' := by
    rw [htail] at htail'
    exact (List.cons.inj htail').2
  have hfresh : e.1 ∉ (A.setQueue tail q).entries.map (·.name) := by
    intro hmem
    obtain ⟨a, ha, hname⟩ := mem_map.mp hmem
    obtain ⟨q', hq'⟩ := S3Queue.mem_entries.mp ha
    exact S3Queue.not_mem_of_setQueue h.nodup_names htail q' (mem_map.mpr ⟨a, hq', hname⟩)
  obtain ⟨-, -, -, -, -, -, hn⟩ := setDeque_frame s rest q
  refine hr.push (hn ▸ hlt) hfresh (s.metas.insert e.1 { m with freq := f }) ?_
    (AList.lookup_insert _) hf .main (s.setDeque rest q).totalCost
  intro k hk
  rw [AList.lookup_insert_ne hk, AList.lookup_erase_ne hk]

theorem evictTurn (h : s.Refines A) {v : Option (K × UInt64)} {s' : S3Fifo K}
    (ht : s.evictTurn = some (v, s')) (hlt : s'.nextStamp < 2 ^ 32) :
    (v = none ∧ s'.Refines A ∧ s'.queued + 1 = s.queued) ∨
      ∃ w A', A.evictStep = some (w, A') ∧ s'.Refines A' ∧
        v = w.map (fun a => (a.name, a.cost)) ∧
        s'.queued + A.entries.length = s.queued + A'.entries.length := by
  unfold S3Fifo.evictTurn at ht
  split at ht
  · simp at ht
  next e rest hd =>
  cases hlive : liveMeta s.metas s.turnQueue e with
  | none =>
    obtain ⟨rfl, rfl⟩ : none = v ∧ s.setDeque rest s.turnQueue = s' := by simpa [hlive] using ht
    exact .inl ⟨rfl, h.skip hd hlive, queued_setDeque hd⟩
  | some m =>
    right
    have hstep := h.evictStep_eq hd hlive
    obtain ⟨tail, htail, hpop⟩ := h.pop hd hlive (s.totalCost - m.cost)
    have hlen := queued_setDeque hd
    generalize s.turnQueue = q at *
    rw [hlive] at ht
    have hreq := fun hlt f hf => h.requeue (f := f) hd hlive hlt hf htail
    cases q with
    | small =>
      have hs : A.small = _ := htail
      simp only at ht
      simp only [S3Queue.evictSmall, hs] at hstep
      rw [if_pos rfl] at hpop hreq
      split_ifs at ht hstep with hfreq
      · obtain ⟨rfl, rfl⟩ : none = v ∧ _ = s' := by simpa using ht
        refine ⟨_, _, hstep, hreq ?_ 0 (zero_le _), rfl, ?_⟩
        · rwa [nextStamp_push] at hlt
        · rw [queued_push (AList.lookup_insert _)]
          simp only [queued, setDeque, S3Queue.entries, hs, length_append, length_cons,
            length_nil] at hlen ⊢
          omega
      · obtain ⟨rfl, rfl⟩ : some _ = v ∧ _ = s' := by simpa using ht
        refine ⟨_, _, hstep, hpop.remember e.1, rfl, ?_⟩
        simp only [queued, setDeque, S3Fifo.remember, S3Queue.remember, S3Queue.entries, hs,
          length_append, length_cons] at hlen ⊢
        omega
    | main =>
      have hm : A.main = _ := htail
      simp only at ht
      simp only [S3Queue.evictMain, hm] at hstep
      rw [if_neg (by simp)] at hpop hreq
      split_ifs at ht hstep with hfreq
      · obtain ⟨rfl, rfl⟩ : none = v ∧ _ = s' := by simpa using ht
        refine ⟨_, _, hstep, hreq ?_ (m.freq - 1) ?_, rfl, ?_⟩
        · rwa [nextStamp_push] at hlt
        · have := h.freq_le e.1 m (liveMeta_eq_some.mp hlive).1
          omega
        · rw [queued_push (AList.lookup_insert _)]
          simp only [queued, setDeque, S3Queue.entries, hm, length_append, length_cons,
            length_nil] at hlen ⊢
          omega
      · obtain ⟨rfl, rfl⟩ : some _ = v ∧ _ = s' := by simpa using ht
        refine ⟨_, _, hstep, hpop, rfl, ?_⟩
        simp only [queued, setDeque, S3Queue.entries, hm, length_append,
          length_cons] at hlen ⊢
        omega

theorem evictTurn_none (h : s.Refines A) (ht : s.evictTurn = none) : A.evictStep = none := by
  have hnil : s.deque s.turnQueue = [] := by
    unfold S3Fifo.evictTurn at ht
    split at ht
    · assumption
    · split at ht
      · simp at ht
      · simp only at ht
        split_ifs at ht
      · simp only at ht
        split_ifs at ht
  have hboth : s.small = [] ∧ s.main = [] := by
    unfold turnQueue at hnil
    split_ifs at hnil with hq
    · exact absurd hnil hq.1
    · have hmain : s.main = [] := hnil
      by_contra hne
      exact hq ⟨fun hs => hne ⟨hs, hmain⟩, .inr hmain⟩
  have hs : A.small = _ := h.queues .small
  have hm : A.main = _ := h.queues .main
  rw [S3Queue.evictStep_eq_none, S3Queue.entries, hs, hm]
  simp [deque, hboth.1, hboth.2]

end Turn

theorem nextStamp_evictTurn {v : Option (K × UInt64)} {s' : S3Fifo K}
    (ht : s.evictTurn = some (v, s')) : s.nextStamp ≤ s'.nextStamp := by
  unfold S3Fifo.evictTurn at ht
  split at ht
  · simp at ht
  next e rest hd =>
  split at ht
  · obtain ⟨-, rfl⟩ : none = v ∧ _ = s' := by simpa using ht
    exact (setDeque_frame s rest _).2.2.2.2.2.2.ge
  · simp only at ht
    split_ifs at ht
    · obtain ⟨-, rfl⟩ : none = v ∧ _ = s' := by simpa using ht
      rw [nextStamp_push]
      exact le_succ _
    · obtain ⟨-, rfl⟩ : some _ = v ∧ _ = s' := by simpa using ht
      exact le_rfl
  · simp only at ht
    split_ifs at ht
    · obtain ⟨-, rfl⟩ : none = v ∧ _ = s' := by simpa using ht
      rw [nextStamp_push]
      exact le_succ _
    · obtain ⟨-, rfl⟩ : some _ = v ∧ _ = s' := by simpa using ht
      exact le_rfl

theorem nextStamp_evictLoop_le (fuel : ℕ) (c freed : UInt64) (s : S3Fifo K) :
    s.nextStamp ≤ (evictLoop fuel c freed s).2.nextStamp := by
  induction fuel generalizing freed s with
  | zero => exact le_rfl
  | succ fuel ih =>
    unfold evictLoop
    split_ifs
    · cases ht : s.evictTurn with
      | none => exact le_rfl
      | some r =>
        obtain ⟨v, s'⟩ := r
        have hle := nextStamp_evictTurn ht
        cases v with
        | none => exact hle.trans (ih freed s')
        | some kc => exact hle.trans (ih (freed + kc.2) s')
    · exact le_rfl

theorem length_le (h : s.Refines A) :
    A.small.length ≤ s.small.length ∧ A.main.length ≤ s.main.length := by
  have hs : A.small = _ := h.queues .small
  have hm : A.main = _ := h.queues .main
  rw [hs, hm]
  exact ⟨length_filterMap_le _ _, length_filterMap_le _ _⟩

/-- The loop is the one on plain lists, given fuel for the turns of that one and for the
stale entries. -/
theorem evictLoop (h : s.Refines A) {fuel : ℕ} {c freed : UInt64}
    (hfuel : A.work + s.queued ≤ fuel + A.entries.length)
    (hlt : (S3Fifo.evictLoop fuel c freed s).2.nextStamp < 2 ^ 32) :
    (S3Fifo.evictLoop fuel c freed s).2.Refines (A.evict c freed).2.2 ∧
      (S3Fifo.evictLoop fuel c freed s).1 =
        ((A.evict c freed).2.1.map (·.name), (A.evict c freed).1) := by
  induction fuel generalizing s A freed with
  | zero =>
    -- no turn is left to take, so there is nothing to evict
    have hnil : A.entries = [] := by
      have hle := A.length_entries_le_work
      have hlen := h.length_le
      rw [S3Queue.entries, length_append] at hle hfuel
      rw [S3Queue.entries, append_eq_nil_iff, ← length_eq_zero_iff,
        ← length_eq_zero_iff]
      unfold queued at hfuel
      omega
    rw [S3Queue.evict_of_none (S3Queue.evictStep_eq_none.mpr hnil)]
    exact ⟨h, rfl⟩
  | succ fuel ih =>
    unfold S3Fifo.evictLoop at hlt ⊢
    split_ifs at hlt ⊢ with hfreed
    · cases ht : s.evictTurn with
      | none =>
        rw [S3Queue.evict_of_none (h.evictTurn_none ht)]
        exact ⟨h, rfl⟩
      | some r =>
        obtain ⟨v, s'⟩ := r
        rw [ht] at hlt
        have hs' : s'.nextStamp < 2 ^ 32 := by
          refine lt_of_le_of_lt ?_ hlt
          cases v <;> exact nextStamp_evictLoop_le _ _ _ _
        rcases h.evictTurn ht hs' with ⟨rfl, hr, hlen⟩ | ⟨w, A', hstep, hr, rfl, hlen⟩
        · exact ih hr (by omega) hlt
        · have hwork := S3Queue.evictStep_work hstep
          cases w with
          | none =>
            rw [S3Queue.evict_of_requeue hfreed hstep]
            exact ih hr (by omega) hlt
          | some a =>
            rw [S3Queue.evict_of_victim hfreed hstep]
            obtain ⟨hr', hout⟩ := ih hr (by omega) hlt
            exact ⟨hr', by simp [hout]⟩
    · rw [S3Queue.evict_of_le (by simpa using hfreed)]
      exact ⟨h, rfl⟩

/-- Eviction names the victims of the one on plain lists, in order, and frees as much. -/
theorem evict (h : s.Refines A) (c : UInt64) (hlt : (s.evict c).2.nextStamp < 2 ^ 32) :
    (s.evict c).2.Refines (A.evict c 0).2.2 ∧
      (s.evict c).1 = ((A.evict c 0).2.1.map (·.name), (A.evict c 0).1) := by
  refine h.evictLoop ?_ hlt
  have hlen := h.length_le
  have hwork : A.work ≤ 2 * A.small.length + 4 * A.main.length := by
    refine S3Queue.work_le ?_
    intro e he
    have hm : A.main = _ := h.queues .main
    rw [hm] at he
    obtain ⟨m, hl, -, -, heq⟩ := mem_resident.mp he
    rw [heq]
    exact h.freq_le _ m hl
  rw [evictTurns, queued, S3Queue.entries, length_append]
  omega

theorem debugState (h : s.Refines A) : s.debugState =
    (A.small.map fun e => (e.name, e.freq), A.main.map fun e => (e.name, e.freq), A.ghost,
      A.ghostOrder) := by
  have hs : A.small = _ := h.queues .small
  have hm : A.main = _ := h.queues .main
  simp only [S3Fifo.debugState, hs, hm, h.ghost, h.ghostOrder, resident, map_filterMap,
    Option.map_map]
  rfl

end Refines

end S3Fifo

end Fibre.Cache
