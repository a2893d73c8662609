import Mathlib.Tactic.Abel
import Fibre.Math.CostQueue

/-!
# W-TinyLFU on plain lists

What a W-TinyLFU policy is for, apart from how its segments are stored: a small window of
new entries, a probation and a protected segment for the rest, and a frequency sketch that
decides whether an entry leaving a full window may enter the main segments. Both
implementations in the cache, the one over slab nodes and the one over keys, are compared
with this machine.

An entry has a name, by which it is read, updated and removed, and a tag, under which the
sketch counts it. Segments are lists, least recently used first.
-/

namespace Fibre.Cache

open CostQueue List

/-- A tracked entry: its name, the tag the sketch knows it by, and its cost. -/
structure Tracked (ν γ : Type*) where
  name : ν
  tag : γ
  cost : UInt64
  deriving DecidableEq

/-- A sketch that counts tags. -/
class FrequencySketch (σ γ : Type*) where
  increment : σ → γ → σ
  estimate : σ → γ → ℕ

/-- The three segments, least recently used first, and the sketch. -/
structure TinyQueue (ν γ σ : Type*) where
  window : List (Tracked ν γ)
  probation : List (Tracked ν γ)
  protectedSeg : List (Tracked ν γ)
  sketch : σ
  windowTarget : UInt64
  mainCapacity : UInt64
  protCapacity : UInt64

variable {ν γ σ : Type*}

namespace Tracked

variable [DecidableEq ν]

/-- The entries of a segment with other names. -/
def without (name : ν) (l : List (Tracked ν γ)) : List (Tracked ν γ) := l.filter (·.name ≠ name)

/-- The entries of a segment with this name: at most one in the policies' states. -/
def only (name : ν) (l : List (Tracked ν γ)) : List (Tracked ν γ) := l.filter (·.name = name)

/-- The segment after `name` was used. -/
def refresh (name : ν) (l : List (Tracked ν γ)) : List (Tracked ν γ) := without name l ++ only name l

/-- The segment with the cost of `name` changed. -/
def setCost (name : ν) (cost : UInt64) (l : List (Tracked ν γ)) : List (Tracked ν γ) :=
  l.map fun e => if e.name = name then { e with cost := cost } else e

theorem refresh_perm (name : ν) (l : List (Tracked ν γ)) : (refresh name l).Perm l := by
  refine perm_append_comm.trans ?_
  have := filter_append_perm (fun e : Tracked ν γ => decide (e.name = name)) l
  simpa [only, without] using this

theorem without_append_only_perm (name : ν) (l : List (Tracked ν γ)) :
    (without name l ++ only name l).Perm l := refresh_perm name l

theorem without_of_not_mem {name : ν} {l : List (Tracked ν γ)} (h : name ∉ l.map (·.name)) :
    without name l = l := by
  refine filter_eq_self.mpr ?_
  intro e he
  simp only [decide_not, Bool.not_eq_true', decide_eq_false_iff_not]
  rintro rfl
  exact h (mem_map_of_mem he)

theorem only_of_not_mem {name : ν} {l : List (Tracked ν γ)} (h : name ∉ l.map (·.name)) :
    only name l = [] := by
  refine filter_eq_nil_iff.mpr ?_
  intro e he
  simp only [decide_eq_true_eq]
  rintro rfl
  exact h (mem_map_of_mem he)

theorem setCost_of_not_mem {name : ν} {l : List (Tracked ν γ)} {cost : UInt64}
    (h : name ∉ l.map (·.name)) : setCost name cost l = l := by
  conv_rhs => rw [← map_id l]
  refine map_congr_left ?_
  intro e he
  rw [if_neg]
  · rfl
  · rintro rfl
    exact h (mem_map_of_mem he)

theorem find?_name {l : List (Tracked ν γ)} (hnd : (l.map (·.name)).Nodup) {e : Tracked ν γ}
    (he : e ∈ l) : l.find? (·.name = e.name) = some e := by
  induction l with
  | nil => simp at he
  | cons d l ih =>
    simp only [map_cons, nodup_cons] at hnd
    rcases mem_cons.mp he with rfl | he
    · simp
    · have hne : d.name ≠ e.name := fun hne =>
        hnd.1 (hne ▸ mem_map_of_mem (f := (·.name)) he)
      rw [List.find?_cons_of_neg (by simpa using hne)]
      exact ih hnd.2 he

theorem total_setCost {l : List (Tracked ν γ)} (hnd : (l.map (·.name)).Nodup) {e : Tracked ν γ}
    (he : e ∈ l) (c : UInt64) :
    total Tracked.cost (setCost e.name c l) = total Tracked.cost l - e.cost + c := by
  obtain ⟨l₁, l₂, rfl⟩ := append_of_mem he
  simp only [map_append, map_cons, nodup_append, nodup_cons] at hnd
  have h₁ : setCost e.name c l₁ = l₁ :=
    setCost_of_not_mem fun hmem => hnd.2.2 _ hmem e.name (by simp) rfl
  have h₂ : setCost e.name c l₂ = l₂ := setCost_of_not_mem hnd.2.1.1
  have hsplit : setCost e.name c (l₁ ++ e :: l₂) = l₁ ++ { e with cost := c } :: l₂ := by
    simp only [setCost] at h₁ h₂ ⊢
    rw [map_append, map_cons, h₁, h₂, if_pos rfl]
  rw [hsplit]
  simp only [total_append, total_cons]
  abel

theorem only_eq {l : List (Tracked ν γ)} (hnd : (l.map (·.name)).Nodup) {e : Tracked ν γ}
    (he : e ∈ l) : only e.name l = [e] := by
  obtain ⟨l₁, l₂, rfl⟩ := append_of_mem he
  simp only [map_append, map_cons, nodup_append, nodup_cons] at hnd
  have h₁ := only_of_not_mem (fun hmem => hnd.2.2 _ hmem e.name (by simp) rfl)
  have h₂ := only_of_not_mem hnd.2.1.1
  unfold only at h₁ h₂ ⊢
  rw [filter_append, filter_cons_of_pos (by simp), h₁, h₂, nil_append]

theorem refresh_eq {l : List (Tracked ν γ)} (hnd : (l.map (·.name)).Nodup) {e : Tracked ν γ}
    (he : e ∈ l) : refresh e.name l = without e.name l ++ [e] := by
  rw [refresh, only_eq hnd he]

theorem setCost_self {l : List (Tracked ν γ)} {e : Tracked ν γ}
    (h : ∀ d ∈ l, d.name = e.name → d = e) : setCost e.name e.cost l = l := by
  conv_rhs => rw [← map_id l]
  refine map_congr_left ?_
  intro d hd
  split_ifs with hname
  · rw [h d hd hname]
    rfl
  · rfl

/-- Names differ and the costs add up to less than `2 ^ 64`. -/
structure Sound (l : List (Tracked ν γ)) : Prop where
  nodup : (l.map (·.name)).Nodup
  cost_lt : totalNat Tracked.cost l < 2 ^ 64

namespace Sound

variable {l l' : List (Tracked ν γ)} {name : ν}

omit [DecidableEq ν]

theorem of_subperm (h : Sound l) (hl : l'.Subperm l) : Sound l' := by
  obtain ⟨l₀, hp, hsub⟩ := hl
  refine ⟨(hp.map _).nodup_iff.mp (h.nodup.sublist (hsub.map _)), ?_⟩
  rw [← totalNat_perm _ hp]
  exact (totalNat_sublist_le hsub).trans_lt h.cost_lt

theorem of_perm (h : Sound l) (hl : l'.Perm l) : Sound l' := h.of_subperm hl.subperm

theorem left (h : Sound (l ++ l')) : Sound l :=
  h.of_subperm (sublist_append_left l l').subperm

theorem right (h : Sound (l ++ l')) : Sound l' :=
  h.of_subperm (sublist_append_right l l').subperm

theorem not_mem_left (h : Sound (l ++ l')) (hk : name ∈ l'.map (·.name)) :
    name ∉ l.map (·.name) := by
  have := h.nodup
  rw [map_append, nodup_append] at this
  exact fun hl => this.2.2 _ hl _ hk rfl

end Sound

end Tracked

namespace TinyQueue

/-- Every tracked entry. -/
def entries (A : TinyQueue ν γ σ) : List (Tracked ν γ) := A.window ++ A.probation ++ A.protectedSeg

def mainCost (A : TinyQueue ν γ σ) : UInt64 :=
  total Tracked.cost A.probation + total Tracked.cost A.protectedSeg

/-- Demotes the oldest protected entries until the segment is within its capacity. -/
def maintain (A : TinyQueue ν γ σ) : TinyQueue ν γ σ :=
  let r := spill Tracked.cost A.protCapacity A.protectedSeg
  { A with probation := A.probation ++ r.1, protectedSeg := r.2 }

section Names

variable [DecidableEq ν]

/-- A use of `name`: it becomes the newest of its segment, a probation entry the newest of
the protected one. -/
def touch (A : TinyQueue ν γ σ) (name : ν) : TinyQueue ν γ σ :=
  if name ∈ A.window.map (·.name) then
    { A with window := Tracked.refresh name A.window }
  else if name ∈ A.probation.map (·.name) then
    maintain { A with
      probation := Tracked.without name A.probation
      protectedSeg := A.protectedSeg ++ Tracked.only name A.probation }
  else
    { A with protectedSeg := Tracked.refresh name A.protectedSeg }

/-- Forgets the entry `name`. -/
def remove (A : TinyQueue ν γ σ) (name : ν) : TinyQueue ν γ σ :=
  { A with
    window := Tracked.without name A.window
    probation := Tracked.without name A.probation
    protectedSeg := Tracked.without name A.protectedSeg }

/-- The entry `name`, if tracked. -/
def find? (A : TinyQueue ν γ σ) (name : ν) : Option (Tracked ν γ) :=
  A.entries.find? (·.name = name)

end Names

section Sketch

variable [FrequencySketch σ γ]

/-- Counts a use of `tag`. -/
def count (A : TinyQueue ν γ σ) (tag : γ) : TinyQueue ν γ σ :=
  { A with sketch := FrequencySketch.increment A.sketch tag }

/-- A read of `name`, ignored when it is not tracked. -/
def read [DecidableEq ν] (A : TinyQueue ν γ σ) (name : ν) : TinyQueue ν γ σ :=
  match A.find? name with
  | none => A
  | some e => (A.count e.tag).touch name

/-- The entry `name` was replaced by one of `cost`. -/
def update [DecidableEq ν] (A : TinyQueue ν γ σ) (name : ν) (cost : UInt64) :
    TinyQueue ν γ σ :=
  match A.find? name with
  | none => A
  | some e =>
    let A := A.count e.tag
    { A with
      window := Tracked.setCost name cost A.window
      probation := Tracked.setCost name cost A.probation
      protectedSeg := Tracked.setCost name cost A.protectedSeg : TinyQueue ν γ σ }.touch name

/-- Whether an entry leaving the window may enter the main segments: they have room, or it
is used at least as often as the next victim there. -/
def admits (A : TinyQueue ν γ σ) (e : Tracked ν γ) : Bool :=
  A.mainCost + e.cost ≤ A.mainCapacity ||
    match A.probation.head?.or A.protectedSeg.head? with
    | none => true
    | some v => FrequencySketch.estimate A.sketch v.tag ≤ FrequencySketch.estimate A.sketch e.tag

/-- Moves the oldest of `window` on until the rest fits. Returns the entries rejected and
the state with what is left as its window. -/
def settle (A : TinyQueue ν γ σ) : List (Tracked ν γ) → List (Tracked ν γ) × TinyQueue ν γ σ
  | [] => ([], { A with window := [] })
  | e :: rest =>
    if A.windowTarget < total Tracked.cost (e :: rest) then
      if A.admits e then
        settle { A with probation := A.probation ++ [e] } rest
      else
        let r := settle A rest
        (e :: r.1, r.2)
    else
      ([], { A with window := e :: rest })

/-- A new entry enters the window. Returns the entries rejected on the way. -/
def admitEntry (A : TinyQueue ν γ σ) (name : ν) (tag : γ) (cost : UInt64) :
    List (Tracked ν γ) × TinyQueue ν γ σ :=
  (A.count tag).settle (A.window ++ [⟨name, tag, cost⟩])

end Sketch

/-- Evicts from probation, then from the protected segment, until `c` is freed. Returns the
victims in order. -/
def evict (A : TinyQueue ν γ σ) (c : UInt64) : List (Tracked ν γ) × TinyQueue ν γ σ :=
  let A := A.maintain
  let p := popUntil Tracked.cost c A.probation
  let q := popUntil Tracked.cost p.1 A.protectedSeg
  (p.2.1 ++ q.2.1, { A with probation := p.2.2, protectedSeg := q.2.2 })

/-! ### What is tracked -/

variable {A : TinyQueue ν γ σ}

theorem maintain_perm (A : TinyQueue ν γ σ) : A.maintain.entries.Perm A.entries := by
  have h := spill_append Tracked.cost A.protCapacity A.protectedSeg
  have heq : A.maintain.entries = A.entries := by
    simp only [entries, maintain, append_assoc]
    rw [h]
  rw [heq]

@[simp] theorem maintain_window (A : TinyQueue ν γ σ) : A.maintain.window = A.window := rfl

theorem maintain_of_le (h : total Tracked.cost A.protectedSeg ≤ A.protCapacity) :
    A.maintain = A := by
  simp [maintain, spill_of_le h]

theorem protectedSeg_maintain_le (A : TinyQueue ν γ σ) :
    total Tracked.cost A.maintain.protectedSeg ≤ A.protCapacity :=
  total_spill_le _ _ _

theorem touch_perm [DecidableEq ν] (A : TinyQueue ν γ σ) (name : ν) :
    (A.touch name).entries.Perm A.entries := by
  unfold touch
  split_ifs with hw hp
  · exact ((Tracked.refresh_perm name A.window).append_right _).append_right _
  · refine (maintain_perm _).trans ?_
    simp only [entries, append_assoc]
    refine Perm.append_left _ ?_
    calc (Tracked.without name A.probation ++
          (A.protectedSeg ++ Tracked.only name A.probation)).Perm
          (Tracked.without name A.probation ++
            (Tracked.only name A.probation ++ A.protectedSeg)) :=
        perm_append_comm.append_left _
      _ = Tracked.without name A.probation ++ Tracked.only name A.probation ++
            A.protectedSeg := by rw [append_assoc]
      Perm _ (A.probation ++ A.protectedSeg) :=
        (Tracked.without_append_only_perm name A.probation).append_right _
  · exact (Tracked.refresh_perm name A.protectedSeg).append_left _

theorem touch_window_perm [DecidableEq ν] (A : TinyQueue ν γ σ) (name : ν) :
    (A.touch name).window.Perm A.window := by
  unfold touch
  split_ifs
  · exact Tracked.refresh_perm name A.window
  · exact Perm.refl _
  · exact Perm.refl _

@[simp] theorem touch_windowTarget [DecidableEq ν] (A : TinyQueue ν γ σ) (name : ν) :
    (A.touch name).windowTarget = A.windowTarget := by
  unfold touch
  split_ifs <;> rfl

theorem touch_sketch [DecidableEq ν] (A : TinyQueue ν γ σ) (name : ν) :
    (A.touch name).sketch = A.sketch := by
  unfold touch
  split_ifs <;> rfl

theorem totalNat_window_le (A : TinyQueue ν γ σ) :
    totalNat Tracked.cost A.window ≤ totalNat Tracked.cost A.entries := by
  simp only [entries, totalNat_append]
  omega

theorem remove_entries [DecidableEq ν] (A : TinyQueue ν γ σ) (name : ν) :
    (A.remove name).entries = Tracked.without name A.entries := by
  simp [entries, remove, Tracked.without]

theorem remove_of_not_mem [DecidableEq ν] {name : ν} (h : name ∉ A.entries.map (·.name)) :
    A.remove name = A := by
  simp only [entries, map_append, mem_append, not_or] at h
  rw [remove, Tracked.without_of_not_mem h.1.1, Tracked.without_of_not_mem h.1.2,
    Tracked.without_of_not_mem h.2]

section Sketch

variable [FrequencySketch σ γ]

theorem read_perm [DecidableEq ν] (A : TinyQueue ν γ σ) (name : ν) :
    (A.read name).entries.Perm A.entries := by
  unfold read
  split
  · exact Perm.refl _
  · exact touch_perm _ name

theorem read_window_perm [DecidableEq ν] (A : TinyQueue ν γ σ) (name : ν) :
    (A.read name).window.Perm A.window := by
  unfold read
  split
  · exact Perm.refl _
  · exact touch_window_perm _ name

@[simp] theorem read_windowTarget [DecidableEq ν] (A : TinyQueue ν γ σ) (name : ν) :
    (A.read name).windowTarget = A.windowTarget := by
  unfold read
  split
  · rfl
  · exact touch_windowTarget _ name

theorem foldl_read [DecidableEq ν] (A : TinyQueue ν γ σ) (names : List ν) :
    (names.foldl read A).windowTarget = A.windowTarget ∧
      (names.foldl read A).window.Perm A.window := by
  induction names generalizing A with
  | nil => exact ⟨rfl, Perm.refl _⟩
  | cons name names ih =>
    obtain ⟨ht, hw⟩ := ih (A.read name)
    exact ⟨ht.trans (A.read_windowTarget name), hw.trans (A.read_window_perm name)⟩

theorem update_window_perm [DecidableEq ν] (A : TinyQueue ν γ σ) (name : ν) (cost : UInt64) :
    (A.update name cost).window.Perm (Tracked.setCost name cost A.window) := by
  unfold update
  split
  · next hnone =>
    rw [Tracked.setCost_of_not_mem]
    intro hmem
    obtain ⟨e, he, hname⟩ := mem_map.mp hmem
    have hnone' := List.find?_eq_none.mp hnone e (by simp [entries, he])
    exact hnone' (by simpa using hname)
  · exact touch_window_perm _ name

@[simp] theorem update_windowTarget [DecidableEq ν] (A : TinyQueue ν γ σ) (name : ν)
    (cost : UInt64) : (A.update name cost).windowTarget = A.windowTarget := by
  unfold update
  split
  · rfl
  · exact touch_windowTarget _ name

theorem update_perm [DecidableEq ν] (A : TinyQueue ν γ σ) (name : ν) (cost : UInt64) :
    (A.update name cost).entries.Perm (Tracked.setCost name cost A.entries) := by
  unfold update
  split
  · next hnone =>
    rw [Tracked.setCost_of_not_mem]
    simpa [find?, List.find?_eq_none] using hnone
  · refine (touch_perm _ name).trans ?_
    simp [entries, Tracked.setCost, count]

theorem read_of_mem [DecidableEq ν] (hnd : (A.entries.map (·.name)).Nodup) {e : Tracked ν γ}
    (he : e ∈ A.entries) : A.read e.name = (A.count e.tag).touch e.name := by
  rw [read, find?, Tracked.find?_name hnd he]

theorem update_of_mem [DecidableEq ν] (hnd : (A.entries.map (·.name)).Nodup) {e : Tracked ν γ}
    (he : e ∈ A.entries) : A.update e.name e.cost = (A.count e.tag).touch e.name := by
  have hself : ∀ l : List (Tracked ν γ), (∀ d ∈ l, d ∈ A.entries) →
      Tracked.setCost e.name e.cost l = l := by
    intro l hl
    exact Tracked.setCost_self fun d hd => inj_on_of_nodup_map hnd (hl d hd) he
  rw [update, find?, Tracked.find?_name hnd he]
  simp only [count]
  rw [hself A.window (by simp +contextual [entries]), hself A.probation (by simp +contextual [entries]),
    hself A.protectedSeg (by simp +contextual [entries])]

theorem read_sketch [DecidableEq ν] (A : TinyQueue ν γ σ) (name : ν) :
    (A.read name).sketch = A.sketch ∨
      ∃ tag : γ, (A.read name).sketch = FrequencySketch.increment A.sketch tag := by
  unfold read
  split
  · exact .inl rfl
  · exact .inr ⟨_, touch_sketch _ _⟩

theorem update_sketch [DecidableEq ν] (A : TinyQueue ν γ σ) (name : ν) (cost : UInt64) :
    (A.update name cost).sketch = A.sketch ∨
      ∃ tag : γ, (A.update name cost).sketch = FrequencySketch.increment A.sketch tag := by
  unfold update
  split
  · exact .inl rfl
  · exact .inr ⟨_, touch_sketch _ _⟩

theorem settle_nil (A : TinyQueue ν γ σ) : A.settle [] = ([], { A with window := [] }) := rfl

theorem settle_cons (A : TinyQueue ν γ σ) (e : Tracked ν γ) (rest : List (Tracked ν γ)) :
    A.settle (e :: rest) =
      if A.windowTarget < total Tracked.cost (e :: rest) then
        if A.admits e then { A with probation := A.probation ++ [e] }.settle rest
        else (e :: (A.settle rest).1, (A.settle rest).2)
      else ([], { A with window := e :: rest }) := rfl

theorem settle_window (A : TinyQueue ν γ σ) (v w : List (Tracked ν γ)) :
    { A with window := v : TinyQueue ν γ σ }.settle w = A.settle w := by
  induction w generalizing A with
  | nil => rfl
  | cons e rest ih =>
    rw [settle_cons, settle_cons]
    have hadm : { A with window := v : TinyQueue ν γ σ }.admits e = A.admits e := rfl
    rw [hadm]
    split_ifs
    · exact ih { A with probation := A.probation ++ [e] }
    · rw [ih A]
    · rfl

theorem settle_of_le (h : total Tracked.cost A.window ≤ A.windowTarget) :
    A.settle A.window = ([], A) := by
  cases hw : A.window with
  | nil => rw [settle_nil, ← hw]
  | cons e rest =>
    rw [hw] at h
    rw [settle_cons, if_neg (by simpa using h), ← hw]

theorem settle_cons_admits {e : Tracked ν γ} {rest : List (Tracked ν γ)}
    (hover : A.windowTarget < total Tracked.cost (e :: rest)) (hadm : A.admits e) :
    A.settle (e :: rest) =
      { A with window := rest, probation := A.probation ++ [e] : TinyQueue ν γ σ }.settle rest := by
  rw [settle_cons, if_pos hover, if_pos hadm]
  exact (settle_window { A with probation := A.probation ++ [e] } rest rest).symm

theorem settle_cons_reject {e : Tracked ν γ} {rest : List (Tracked ν γ)}
    (hover : A.windowTarget < total Tracked.cost (e :: rest)) (hadm : ¬ A.admits e) :
    A.settle (e :: rest) =
      (e :: ({ A with window := rest : TinyQueue ν γ σ }.settle rest).1,
        ({ A with window := rest : TinyQueue ν γ σ }.settle rest).2) := by
  have hrest := settle_window A rest rest
  rw [settle_cons, if_pos hover, if_neg hadm, hrest]

theorem settle_perm (A : TinyQueue ν γ σ) (w : List (Tracked ν γ)) :
    (w ++ A.probation ++ A.protectedSeg).Perm ((A.settle w).1 ++ (A.settle w).2.entries) := by
  induction w generalizing A with
  | nil => simp [settle_nil, entries]
  | cons e rest ih =>
    rw [settle_cons]
    split_ifs
    · refine Perm.trans ?_ (ih _)
      have hmid : (rest ++ A.probation ++ e :: A.protectedSeg).Perm
          (e :: (rest ++ A.probation ++ A.protectedSeg)) := perm_middle
      simpa using hmid.symm
    · simpa using ih A
    · simp [entries]

theorem settle_windowTarget (A : TinyQueue ν γ σ) (w : List (Tracked ν γ)) :
    (A.settle w).2.windowTarget = A.windowTarget := by
  induction w generalizing A with
  | nil => rfl
  | cons e rest ih =>
    rw [settle_cons]
    split_ifs
    · exact ih _
    · exact ih _
    · rfl

theorem settle_sketch (A : TinyQueue ν γ σ) (w : List (Tracked ν γ)) :
    (A.settle w).2.sketch = A.sketch := by
  induction w generalizing A with
  | nil => rfl
  | cons e rest ih =>
    rw [settle_cons]
    split_ifs
    · exact ih _
    · exact ih _
    · rfl

theorem admitEntry_sketch (A : TinyQueue ν γ σ) (name : ν) (tag : γ) (cost : UInt64) :
    (A.admitEntry name tag cost).2.sketch = FrequencySketch.increment A.sketch tag :=
  settle_sketch _ _

theorem window_settle_le (A : TinyQueue ν γ σ) (w : List (Tracked ν γ)) :
    total Tracked.cost (A.settle w).2.window ≤ A.windowTarget := by
  induction w generalizing A with
  | nil => simp [settle_nil]
  | cons e rest ih =>
    rw [settle_cons]
    split_ifs with h
    · exact ih _
    · exact ih _
    · simpa using h

theorem admitEntry_perm (A : TinyQueue ν γ σ) (name : ν) (tag : γ) (cost : UInt64) :
    (⟨name, tag, cost⟩ :: A.entries).Perm
      ((A.admitEntry name tag cost).1 ++ (A.admitEntry name tag cost).2.entries) := by
  refine Perm.trans ?_ (settle_perm _ _)
  simp only [count, entries, append_assoc]
  exact perm_middle.symm

theorem window_admitEntry_le (A : TinyQueue ν γ σ) (name : ν) (tag : γ) (cost : UInt64) :
    total Tracked.cost (A.admitEntry name tag cost).2.window ≤ A.windowTarget :=
  window_settle_le _ _

end Sketch

theorem evict_perm (A : TinyQueue ν γ σ) (c : UInt64) :
    A.entries.Perm ((A.evict c).1 ++ (A.evict c).2.entries) := by
  refine (maintain_perm A).symm.trans ?_
  have hp := popUntil_append Tracked.cost c A.maintain.probation
  have hq := popUntil_append Tracked.cost
    (popUntil Tracked.cost c A.maintain.probation).1 A.maintain.protectedSeg
  classical
  rw [perm_iff_count]
  intro e
  simp only [evict, entries, count_append]
  have hpe := congrArg (List.count e) hp
  have hqe := congrArg (List.count e) hq
  simp only [count_append] at hpe hqe
  omega

@[simp] theorem evict_window (A : TinyQueue ν γ σ) (c : UInt64) :
    (A.evict c).2.window = A.window := rfl

/-- Eviction stops when the victims pay for `c` or the main segments are empty. -/
theorem evict_done (A : TinyQueue ν γ σ) (c : UInt64) :
    c.toNat ≤ totalNat Tracked.cost (A.evict c).1 ∨ (A.evict c).2.entries = A.window := by
  have hp := toNat_popUntil Tracked.cost c A.maintain.probation
  have hq := toNat_popUntil Tracked.cost
    (popUntil Tracked.cost c A.maintain.probation).1 A.maintain.protectedSeg
  rcases popUntil_done Tracked.cost
    (popUntil Tracked.cost c A.maintain.probation).1 A.maintain.protectedSeg with h | h
  · left
    rw [h] at hq
    simp only [evict, totalNat_append, UInt64.toNat_zero] at *
    omega
  · rcases popUntil_done Tracked.cost c A.maintain.probation with h' | h'
    · left
      rw [h'] at hp
      simp only [evict, totalNat_append, UInt64.toNat_zero] at *
      omega
    · right
      simp [evict, entries, h, h']

end TinyQueue

end Fibre.Cache
