import Mathlib.Algebra.Order.BigOperators.Group.List
import Mathlib.Algebra.Order.Ring.Nat
import Mathlib.Data.UInt
import Mathlib.Tactic.Abel

/-!
# S3-FIFO on plain lists

What an S3-FIFO policy is for, apart from how its queues are stored: a small FIFO for
new entries, a main FIFO for entries read again, and a ghost list of tags recently
evicted from the small FIFO. Both implementations in the cache, the one over slab
nodes and the one over keys, are compared with this machine.

An entry has a name, by which it is read, updated and removed, and a tag, under which
the ghost list remembers it. For the key-based policy both are the key; for the node
policy the name is the node id and the tag is the key's hash.
-/

namespace Fibre.Cache

open List

/-- A tracked entry: its name, the tag the ghost list knows it by, its cost and how
often it was read, capped at 3. -/
structure S3Entry (ν γ : Type*) where
  name : ν
  tag : γ
  cost : UInt64
  freq : ℕ
  deriving DecidableEq

/-- The two queues, oldest first, and the ghost list. -/
structure S3Queue (ν γ : Type*) where
  small : List (S3Entry ν γ)
  main : List (S3Entry ν γ)
  ghost : Finset γ
  ghostOrder : List γ
  smallTarget : UInt64
  ghostCap : ℕ

/-- Which of the two queues. -/
inductive S3Kind
  | small
  | main
  deriving DecidableEq

variable {ν γ : Type*}

/-- Remembers a tag, after dropping the oldest ghost when there are `cap`. A tag that is
a ghost already keeps its place. -/
def rememberGhost [DecidableEq γ] (cap : ℕ) (ghost : Finset γ) (order : List γ) (tag : γ) :
    Finset γ × List γ :=
  let kept : Finset γ × List γ :=
    if cap ≤ order.length then
      match order with
      | old :: rest => (ghost.erase old, rest)
      | [] => (ghost, [])
    else (ghost, order)
  if tag ∈ kept.1 then kept else (insert tag kept.1, kept.2 ++ [tag])

namespace S3Entry

/-- One more read, capped. -/
def bump (e : S3Entry ν γ) : S3Entry ν γ := { e with freq := min (e.freq + 1) 3 }

/-- What the cache knows of an entry: all but how often it was read. -/
def core (e : S3Entry ν γ) : ν × γ × UInt64 := (e.name, e.tag, e.cost)

@[simp] theorem core_freq (e : S3Entry ν γ) (n : ℕ) : { e with freq := n }.core = e.core := rfl

end S3Entry

namespace S3Queue

/-- The empty queues for `capacity` cost units. -/
def new (capacity : UInt64) : S3Queue ν γ where
  small := []
  main := []
  ghost := ∅
  ghostOrder := []
  smallTarget := max (capacity / 10) 1
  ghostCap := (max capacity 1).toNat

/-- Every tracked entry. -/
def entries (A : S3Queue ν γ) : List (S3Entry ν γ) := A.small ++ A.main

def queue (A : S3Queue ν γ) : S3Kind → List (S3Entry ν γ)
  | .small => A.small
  | .main => A.main

/-- Puts `l` in place of a queue. -/
def setQueue (A : S3Queue ν γ) (l : List (S3Entry ν γ)) : S3Kind → S3Queue ν γ
  | .small => { A with small := l }
  | .main => { A with main := l }

def enqueue (A : S3Queue ν γ) (e : S3Entry ν γ) : S3Kind → S3Queue ν γ
  | .small => { A with small := A.small ++ [e] }
  | .main => { A with main := A.main ++ [e] }

def smallCost (A : S3Queue ν γ) : UInt64 := (A.small.map (·.cost)).sum

/-- Applies `f` to every tracked entry. -/
def mapEntries (A : S3Queue ν γ) (f : S3Entry ν γ → S3Entry ν γ) : S3Queue ν γ :=
  { A with small := A.small.map f, main := A.main.map f }

section Operations

variable [DecidableEq ν] [DecidableEq γ]

/-- A new entry goes to the small queue, or to the main queue when its tag is a ghost. -/
def admitEntry (A : S3Queue ν γ) (name : ν) (tag : γ) (cost : UInt64) : S3Queue ν γ :=
  if tag ∈ A.ghost then
    { A with ghost := A.ghost.erase tag, main := A.main ++ [⟨name, tag, cost, 0⟩] }
  else
    { A with small := A.small ++ [⟨name, tag, cost, 0⟩] }

/-- A read of `name`. -/
def touch (A : S3Queue ν γ) (name : ν) : S3Queue ν γ :=
  A.mapEntries fun e => if e.name = name then e.bump else e

/-- The entry `name` now costs `cost`. -/
def update (A : S3Queue ν γ) (name : ν) (cost : UInt64) : S3Queue ν γ :=
  A.mapEntries fun e => if e.name = name then { e with cost := cost } else e

/-- Forgets the entry `name`. -/
def remove (A : S3Queue ν γ) (name : ν) : S3Queue ν γ :=
  { A with
    small := A.small.filter (·.name ≠ name)
    main := A.main.filter (·.name ≠ name) }

def remember (A : S3Queue ν γ) (tag : γ) : S3Queue ν γ :=
  let kept := rememberGhost A.ghostCap A.ghost A.ghostOrder tag
  { A with ghost := kept.1, ghostOrder := kept.2 }

/-- The oldest entry of the small queue: read twice, it moves on to main; otherwise it
is evicted and remembered. -/
def evictSmall (A : S3Queue ν γ) : Option (Option (S3Entry ν γ) × S3Queue ν γ) :=
  match A.small with
  | [] => none
  | e :: rest =>
    if e.freq > 1 then
      some (none, { A with small := rest, main := A.main ++ [{ e with freq := 0 }] })
    else
      some (some e, remember { A with small := rest } e.tag)

omit [DecidableEq γ] in
/-- The oldest entry of the main queue: read since its last turn, it goes round again;
otherwise it is evicted. -/
def evictMain (A : S3Queue ν γ) : Option (Option (S3Entry ν γ) × S3Queue ν γ) :=
  match A.main with
  | [] => none
  | e :: rest =>
    if e.freq > 0 then
      some (none, { A with main := rest ++ [{ e with freq := e.freq - 1 }] })
    else
      some (some e, { A with main := rest })

/-- One turn of the eviction loop, `none` when nothing is tracked. -/
def evictStep (A : S3Queue ν γ) : Option (Option (S3Entry ν γ) × S3Queue ν γ) :=
  if A.small ≠ [] ∧ (A.smallCost > A.smallTarget ∨ A.main = []) then A.evictSmall
  else A.evictMain

end Operations

/-! ### Entries by name -/

section Names

variable {A : S3Queue ν γ} {e : S3Entry ν γ} {name : ν}

theorem mem_entries : e ∈ A.entries ↔ ∃ q, e ∈ A.queue q := by
  rw [entries, mem_append]
  constructor
  · rintro (h | h)
    · exact ⟨.small, h⟩
    · exact ⟨.main, h⟩
  · rintro ⟨q, h⟩
    cases q with
    | small => exact .inl h
    | main => exact .inr h

theorem names_mapEntries {f : S3Entry ν γ → S3Entry ν γ} (h : ∀ e, (f e).name = e.name) :
    (A.mapEntries f).entries.map (·.name) = A.entries.map (·.name) := by
  simp only [entries, mapEntries, ← map_append, map_map]
  exact map_congr_left fun e _ => h e

theorem mem_admitEntry [DecidableEq γ] {tag : γ} {cost : UInt64} :
    e ∈ (A.admitEntry name tag cost).entries ↔ e = ⟨name, tag, cost, 0⟩ ∨ e ∈ A.entries := by
  unfold admitEntry
  split_ifs
  · simp only [entries, mem_append, mem_singleton]
    tauto
  · simp only [entries, mem_append, mem_singleton]
    tauto

theorem queue_mapEntries (A : S3Queue ν γ) (f : S3Entry ν γ → S3Entry ν γ) (q : S3Kind) :
    (A.mapEntries f).queue q = (A.queue q).map f := by
  cases q <;> rfl

theorem queue_setQueue (A : S3Queue ν γ) (l : List (S3Entry ν γ)) (q q' : S3Kind) :
    (A.setQueue l q).queue q' = if q' = q then l else A.queue q' := by
  cases q <;> cases q' <;> simp [setQueue, queue]

theorem not_mem_of_setQueue (hnd : (A.entries.map (·.name)).Nodup) {q : S3Kind}
    {rest : List (S3Entry ν γ)} (h : A.queue q = e :: rest) (q' : S3Kind) :
    e.name ∉ ((A.setQueue rest q).queue q').map (·.name) := by
  rw [entries, map_append, nodup_append] at hnd
  obtain ⟨hs, hm, hdisj⟩ := hnd
  cases q <;> cases q' <;> simp only [queue] at h <;>
    simp only [h, map_cons, nodup_cons, mem_cons, forall_eq_or_imp] at hs hm hdisj
  · exact hs.1
  · exact fun hmem => hdisj.1 _ hmem rfl
  · exact fun hmem => (hdisj _ hmem).1 rfl
  · exact hm.1

theorem queue_enqueue (A : S3Queue ν γ) (e : S3Entry ν γ) (q q' : S3Kind) :
    (A.enqueue e q).queue q' = if q' = q then A.queue q' ++ [e] else A.queue q' := by
  cases q <;> cases q' <;> simp [enqueue, queue]

theorem smallCost_enqueue (A : S3Queue ν γ) (e : S3Entry ν γ) (q : S3Kind) :
    (A.enqueue e q).smallCost = if q = .small then A.smallCost + e.cost else A.smallCost := by
  cases q <;> simp [enqueue, smallCost]

theorem mapEntries_of_not_mem {f : S3Entry ν γ → S3Entry ν γ} (hf : ∀ e, e.name ≠ name → f e = e)
    (h : name ∉ A.entries.map (·.name)) : A.mapEntries f = A := by
  have hid : ∀ l : List (S3Entry ν γ), (∀ e ∈ l, e ∈ A.entries) → l.map f = l := by
    intro l hl
    conv_rhs => rw [← map_id l]
    refine map_congr_left ?_
    intro e he
    exact hf e fun hname => h (mem_map.mpr ⟨e, hl e he, hname⟩)
  unfold mapEntries
  rw [hid A.small fun e he => mem_append_left _ he,
    hid A.main fun e he => mem_append_right _ he]

theorem nodup_small (hnd : (A.entries.map (·.name)).Nodup) : (A.small.map (·.name)).Nodup := by
  rw [entries, map_append] at hnd
  exact (nodup_append.mp hnd).1

theorem not_mem_small (hnd : (A.entries.map (·.name)).Nodup) (he : e ∈ A.main) : e.name ∉ A.small.map (·.name) := by
  rw [entries, map_append, nodup_append] at hnd
  exact fun h => hnd.2.2 _ h _ (mem_map_of_mem he) rfl

variable [DecidableEq ν]

theorem touch_of_not_mem (h : name ∉ A.entries.map (·.name)) : A.touch name = A :=
  mapEntries_of_not_mem (fun _ he => if_neg he) h

theorem filter_name_of_not_mem {l : List (S3Entry ν γ)} (h : name ∉ l.map (·.name)) :
    l.filter (·.name ≠ name) = l := by
  refine filter_eq_self.mpr ?_
  intro e he
  simpa using fun hname => h (mem_map.mpr ⟨e, he, hname⟩)

theorem remove_of_not_mem (h : name ∉ A.entries.map (·.name)) : A.remove name = A := by
  rw [entries, map_append, mem_append, not_or] at h
  unfold remove
  rw [filter_name_of_not_mem h.1, filter_name_of_not_mem h.2]

theorem perm_cons_filter_name {l : List (S3Entry ν γ)} (hnd : (l.map (·.name)).Nodup)
    (he : e ∈ l) : l.Perm (e :: l.filter (·.name ≠ e.name)) := by
  obtain ⟨l₁, l₂, rfl⟩ := append_of_mem he
  rw [map_append, map_cons, nodup_append, nodup_cons] at hnd
  have h₁ : e.name ∉ l₁.map (·.name) := fun h => hnd.2.2 _ h e.name (by simp) rfl
  have h₂ : e.name ∉ l₂.map (·.name) := hnd.2.1.1
  rw [filter_append, filter_cons_of_neg (by simp), filter_name_of_not_mem h₁,
    filter_name_of_not_mem h₂]
  exact perm_middle

theorem sum_update {l : List (S3Entry ν γ)} (hnd : (l.map (·.name)).Nodup) (he : e ∈ l)
    (cost : UInt64) :
    ((l.map fun a => if a.name = e.name then { a with cost := cost } else a).map (·.cost)).sum =
      (l.map (·.cost)).sum - e.cost + cost := by
  have hp := perm_cons_filter_name hnd he
  have hrest : ((l.filter (·.name ≠ e.name)).map
      fun a => if a.name = e.name then { a with cost := cost } else a) =
        l.filter (·.name ≠ e.name) := by
    conv_rhs => rw [← map_id (l.filter _)]
    refine map_congr_left ?_
    intro a ha
    rw [if_neg (by simpa using (mem_filter.mp ha).2)]
    rfl
  rw [((hp.map fun a => if a.name = e.name then { a with cost := cost } else a).map
    (·.cost)).sum_eq, (hp.map (·.cost)).sum_eq, map_cons, hrest]
  simp only [if_true, map_cons, sum_cons]
  abel

theorem sum_remove {l : List (S3Entry ν γ)} (hnd : (l.map (·.name)).Nodup) (he : e ∈ l) :
    ((l.filter (·.name ≠ e.name)).map (·.cost)).sum = (l.map (·.cost)).sum - e.cost := by
  rw [((perm_cons_filter_name hnd he).map (·.cost)).sum_eq, map_cons, sum_cons]
  abel

theorem smallCost_update (hnd : (A.entries.map (·.name)).Nodup) {q : S3Kind} (he : e ∈ A.queue q)
    (cost : UInt64) : (A.update e.name cost).smallCost =
      if q = .small then A.smallCost - e.cost + cost else A.smallCost := by
  cases q with
  | small =>
    rw [if_pos rfl]
    exact sum_update (nodup_small hnd) he cost
  | main =>
    rw [if_neg (by simp)]
    unfold smallCost update mapEntries
    rw [map_map]
    congr 1
    refine map_congr_left ?_
    intro a ha
    rw [Function.comp_apply, if_neg]
    exact fun hname => not_mem_small hnd he (mem_map.mpr ⟨a, ha, hname⟩)

theorem smallCost_remove (hnd : (A.entries.map (·.name)).Nodup) {q : S3Kind} (he : e ∈ A.queue q) :
    (A.remove e.name).smallCost = if q = .small then A.smallCost - e.cost else A.smallCost := by
  cases q with
  | small =>
    rw [if_pos rfl]
    exact sum_remove (nodup_small hnd) he
  | main =>
    rw [if_neg (by simp)]
    unfold smallCost remove
    rw [filter_name_of_not_mem (not_mem_small hnd he)]

theorem queue_remove (A : S3Queue ν γ) (name : ν) (q : S3Kind) :
    (A.remove name).queue q = (A.queue q).filter (·.name ≠ name) := by
  cases q <;> rfl

theorem smallCost_touch (A : S3Queue ν γ) (name : ν) : (A.touch name).smallCost = A.smallCost := by
  unfold smallCost touch mapEntries
  rw [map_map]
  congr 1
  refine map_congr_left ?_
  intro a _
  rw [Function.comp_apply]
  split_ifs <;> rfl

end Names

/-! ### The eviction loop -/

/-- Turns the eviction loop can still take. -/
def work (A : S3Queue ν γ) : ℕ := 2 * A.small.length + (A.main.map (·.freq + 1)).sum

theorem work_le {A : S3Queue ν γ} (h : ∀ e ∈ A.main, e.freq ≤ 3) :
    A.work ≤ 2 * A.small.length + 4 * A.main.length := by
  have hmain : (A.main.map (·.freq + 1)).sum ≤ 4 * A.main.length := by
    refine (sum_le_card_nsmul _ 4 ?_).trans (by simp [mul_comm])
    intro x hx
    obtain ⟨e, he, rfl⟩ := mem_map.mp hx
    have := h e he
    omega
  unfold work
  omega

theorem length_entries_le_work (A : S3Queue ν γ) : A.entries.length ≤ A.work := by
  have hmain : A.main.length ≤ (A.main.map (·.freq + 1)).sum := by
    have := length_le_sum_of_one_le (A.main.map (·.freq + 1)) ?_
    · simp only [length_map] at this
      exact this
    · intro x hx
      obtain ⟨e, -, rfl⟩ := mem_map.mp hx
      omega
  rw [entries, length_append, work]
  omega

variable [DecidableEq γ] {A A' : S3Queue ν γ} {v : Option (S3Entry ν γ)}

theorem evictStep_cases (h : A.evictStep = some (v, A')) :
    (∃ e rest, A.small = e :: rest ∧
      (1 < e.freq ∧ v = none ∧
          A' = { A with small := rest, main := A.main ++ [{ e with freq := 0 }] } ∨
        e.freq ≤ 1 ∧ v = some e ∧ A' = remember { A with small := rest } e.tag)) ∨
    (∃ e rest, A.main = e :: rest ∧
      (0 < e.freq ∧ v = none ∧
          A' = { A with main := rest ++ [{ e with freq := e.freq - 1 }] } ∨
        e.freq = 0 ∧ v = some e ∧ A' = { A with main := rest })) := by
  unfold evictStep at h
  split_ifs at h
  · left
    unfold evictSmall at h
    split at h
    · simp at h
    · next e rest hs =>
      refine ⟨e, rest, hs, ?_⟩
      split_ifs at h with hf
      · obtain ⟨rfl, rfl⟩ : none = v ∧ _ = A' := by simpa using h
        exact .inl ⟨hf, rfl, rfl⟩
      · obtain ⟨rfl, rfl⟩ : some e = v ∧ _ = A' := by simpa using h
        exact .inr ⟨by omega, rfl, rfl⟩
  · right
    unfold evictMain at h
    split at h
    · simp at h
    · next e rest hm =>
      refine ⟨e, rest, hm, ?_⟩
      split_ifs at h with hf
      · obtain ⟨rfl, rfl⟩ : none = v ∧ _ = A' := by simpa using h
        exact .inl ⟨hf, rfl, rfl⟩
      · obtain ⟨rfl, rfl⟩ : some e = v ∧ _ = A' := by simpa using h
        exact .inr ⟨by omega, rfl, rfl⟩

theorem evictStep_eq_none : A.evictStep = none ↔ A.entries = [] := by
  unfold evictStep evictSmall evictMain entries
  cases hs : A.small <;> cases hm : A.main <;> simp
  all_goals (split_ifs <;> simp)

theorem evictStep_work (h : A.evictStep = some (v, A')) : A'.work < A.work := by
  rcases evictStep_cases h with ⟨e, rest, hs, ⟨-, -, rfl⟩ | ⟨-, -, rfl⟩⟩ |
    ⟨e, rest, hm, ⟨hf, -, rfl⟩ | ⟨hf, -, rfl⟩⟩
  · simp [work, hs]
    omega
  · simp [work, hs, remember]
  · simp [work, hm]
    omega
  · simp [work, hm]

theorem evictStep_perm (h : A.evictStep = some (v, A')) :
    (A.entries.map (·.core)).Perm ((v.toList ++ A'.entries).map (·.core)) := by
  rcases evictStep_cases h with ⟨e, rest, hs, ⟨-, rfl, rfl⟩ | ⟨-, rfl, rfl⟩⟩ |
    ⟨e, rest, hm, ⟨hf, rfl, rfl⟩ | ⟨hf, rfl, rfl⟩⟩
  · simp only [entries, hs, Option.toList_none, nil_append, map_append,
      map_cons, map_nil, S3Entry.core_freq, cons_append]
    rw [← append_assoc]
    exact (perm_append_singleton _ _).symm
  · simp [entries, hs, remember]
  · simp only [entries, hm, Option.toList_none, nil_append, map_append,
      map_cons, map_nil, S3Entry.core_freq]
    exact (perm_append_singleton _ _).symm.append_left _
  · simp only [entries, hm, Option.toList_some, singleton_append, map_append,
      map_cons]
    exact perm_middle

/-- The eviction loop: turns until `costToFree` is freed or nothing is tracked. Returns
the cost freed, the victims in order, and what is left. -/
def evict (A : S3Queue ν γ) (costToFree freed : UInt64) :
    UInt64 × List (S3Entry ν γ) × S3Queue ν γ :=
  if freed < costToFree then
    match _h : A.evictStep with
    | none => (freed, [], A)
    | some (none, A') => evict A' costToFree freed
    | some (some e, A') =>
      let r := evict A' costToFree (freed + e.cost)
      (r.1, e :: r.2.1, r.2.2)
  else
    (freed, [], A)
termination_by A.work
decreasing_by
  · exact evictStep_work _h
  · exact evictStep_work _h

/-! ### The loop, turn by turn -/

section Turns

variable {c freed : UInt64} {e : S3Entry ν γ}

theorem evict_of_le (h : c ≤ freed) : A.evict c freed = (freed, [], A) := by
  rw [evict, if_neg (by simpa using h)]

theorem evict_of_none (h : A.evictStep = none) : A.evict c freed = (freed, [], A) := by
  rw [evict]
  split_ifs
  · split <;> simp_all
  · rfl

theorem evict_of_requeue (hlt : freed < c) (h : A.evictStep = some (none, A')) :
    A.evict c freed = A'.evict c freed := by
  rw [evict, if_pos hlt]
  split <;> simp_all

theorem evict_of_victim (hlt : freed < c) (h : A.evictStep = some (some e, A')) :
    A.evict c freed = ((A'.evict c (freed + e.cost)).1,
      e :: (A'.evict c (freed + e.cost)).2.1, (A'.evict c (freed + e.cost)).2.2) := by
  rw [evict, if_pos hlt]
  split <;> simp_all

end Turns

/-- Eviction splits what is tracked into the victims and the rest. -/
theorem evict_perm (A : S3Queue ν γ) (c freed : UInt64) :
    (A.entries.map (·.core)).Perm
      (((A.evict c freed).2.1 ++ (A.evict c freed).2.2.entries).map (·.core)) := by
  fun_induction evict A c freed with
  | case1 => simp
  | case2 A freed _ A' h ih => exact (evictStep_perm h).trans ih
  | case3 A freed _ e A' h r ih =>
    refine (evictStep_perm h).trans ?_
    simpa using ih
  | case4 => simp

theorem evict_names_perm (A : S3Queue ν γ) (c freed : UInt64) :
    (A.entries.map (·.name)).Perm
      ((A.evict c freed).2.1.map (·.name) ++ (A.evict c freed).2.2.entries.map (·.name)) := by
  have hp := (evict_perm A c freed).map fun core => core.1
  rwa [map_map, map_map, map_append] at hp

theorem evict_freed (A : S3Queue ν γ) (c freed : UInt64) :
    (A.evict c freed).1 = freed + ((A.evict c freed).2.1.map (·.cost)).sum := by
  fun_induction evict A c freed with
  | case1 => simp
  | case2 A freed _ A' h ih => exact ih
  | case3 A freed _ e A' h r ih =>
    simp only [map_cons, sum_cons]
    rw [ih]
    abel
  | case4 => simp

/-- Eviction stops when enough is freed or nothing is tracked. -/
theorem evict_enough (A : S3Queue ν γ) (c freed : UInt64) :
    c ≤ (A.evict c freed).1 ∨ (A.evict c freed).2.2.entries = [] := by
  fun_induction evict A c freed with
  | case1 A freed _ h => exact .inr (evictStep_eq_none.mp h)
  | case2 A freed _ A' h ih => exact ih
  | case3 A freed _ e A' h r ih => exact ih
  | case4 A freed h => exact .inl (by simpa using h)

end S3Queue

end Fibre.Cache
