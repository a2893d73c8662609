import Fibre.Cache.HS3Fifo
import Fibre.Cache.S3Fifo

/-!
# The two S3-FIFO policies in lockstep

The node policy of the shard and the key policy of a factory are driven by the same calls. A
driver keeps the node of each resident key, as a shard does. Both policies then store the same
queues: those on plain lists, with entries named by key for the one and by node, tagged with
the key's hash, for the other.
-/

namespace Fibre.Cache

open Function List

namespace S3Queue

variable {ν ν' γ γ' : Type*}

/-! ### The tags in use -/

/-- Every tag, of an entry or a ghost, is in `S`. -/
structure TagsIn (S : Set γ) (A : S3Queue ν γ) : Prop where
  entries : ∀ e ∈ A.entries, e.tag ∈ S
  ghost : ∀ t ∈ A.ghost, t ∈ S
  ghostOrder : ∀ t ∈ A.ghostOrder, t ∈ S

variable {S : Set γ} {A A' : S3Queue ν γ} {tag : γ}

namespace TagsIn

theorem mapEntries (hA : A.TagsIn S) {h : S3Entry ν γ → S3Entry ν γ}
    (hh : ∀ e, (h e).tag = e.tag) : (A.mapEntries h).TagsIn S := by
  refine ⟨?_, hA.ghost, hA.ghostOrder⟩
  intro e he
  simp only [S3Queue.entries, S3Queue.mapEntries, ← map_append] at he
  obtain ⟨a, ha, rfl⟩ := mem_map.mp he
  rw [hh]
  exact hA.entries a ha

theorem remove [DecidableEq ν] (hA : A.TagsIn S) (name : ν) : (A.remove name).TagsIn S := by
  refine ⟨?_, hA.ghost, hA.ghostOrder⟩
  intro e he
  simp only [S3Queue.entries, S3Queue.remove, ← filter_append] at he
  exact hA.entries e (mem_of_mem_filter he)

variable [DecidableEq γ]

theorem admitEntry (hA : A.TagsIn S) (ht : tag ∈ S) (name : ν) (cost : UInt64) :
    (A.admitEntry name tag cost).TagsIn S := by
  have hentries : ∀ e ∈ (A.admitEntry name tag cost).entries, e.tag ∈ S := by
    intro e he
    rcases mem_admitEntry.mp he with rfl | he
    · exact ht
    · exact hA.entries e he
  unfold S3Queue.admitEntry at hentries ⊢
  split_ifs at hentries ⊢
  · exact ⟨hentries, fun t h => hA.ghost t (Finset.mem_of_mem_erase h), hA.ghostOrder⟩
  · exact ⟨hentries, hA.ghost, hA.ghostOrder⟩

theorem rememberGhost_subset {cap : ℕ} {ghost : Finset γ} {order : List γ} {t : γ} :
    (t ∈ (rememberGhost cap ghost order tag).1 → t = tag ∨ t ∈ ghost) ∧
      (t ∈ (rememberGhost cap ghost order tag).2 → t = tag ∨ t ∈ order) := by
  unfold rememberGhost
  cases order with
  | nil =>
    by_cases hcap : cap ≤ 0 <;> by_cases hmem : tag ∈ ghost <;> simp_all
  | cons old rest =>
    by_cases hcap : cap ≤ rest.length + 1
    · by_cases hmem : tag ∈ ghost.erase old
      · simp only [length_cons, hcap, if_true, hmem]
        exact ⟨fun h => .inr (Finset.mem_of_mem_erase h), fun h => .inr (mem_cons_of_mem _ h)⟩
      · simp only [length_cons, hcap, if_true, hmem, if_false, Finset.mem_insert,
          mem_append, mem_singleton]
        exact ⟨Or.imp_right Finset.mem_of_mem_erase,
          fun h => (Or.symm h).imp_right (mem_cons_of_mem _)⟩
    · by_cases hmem : tag ∈ ghost
      · simp only [length_cons, hcap, if_false, hmem, if_true]
        exact ⟨.inr, .inr⟩
      · simp only [length_cons, hcap, if_false, hmem, Finset.mem_insert, mem_append,
          mem_singleton]
        exact ⟨id, Or.symm⟩

theorem evictStep (hA : A.TagsIn S) {v : Option (S3Entry ν γ)} (h : A.evictStep = some (v, A')) :
    A'.TagsIn S := by
  have hentries : ∀ e ∈ A'.entries, e.tag ∈ S := by
    intro e he
    have hperm := evictStep_perm h
    have hmem : e.core ∈ A.entries.map (·.core) :=
      hperm.mem_iff.mpr (mem_map_of_mem (mem_append_right _ he))
    obtain ⟨a, ha, hcore⟩ := mem_map.mp hmem
    have htag : a.tag = e.tag := congrArg (fun c => c.2.1) hcore
    exact htag ▸ hA.entries a ha
  rcases evictStep_cases h with ⟨e, rest, hs, ⟨-, -, rfl⟩ | ⟨-, -, rfl⟩⟩ |
    ⟨e, rest, hm, ⟨-, -, rfl⟩ | ⟨-, -, rfl⟩⟩
  · exact ⟨hentries, hA.ghost, hA.ghostOrder⟩
  · have ht : e.tag ∈ S := hA.entries e (by simp [S3Queue.entries, hs])
    refine ⟨hentries, ?_, ?_⟩
    · intro t hmem
      rcases rememberGhost_subset.1 hmem with rfl | hmem
      · exact ht
      · exact hA.ghost t hmem
    · intro t hmem
      rcases rememberGhost_subset.2 hmem with rfl | hmem
      · exact ht
      · exact hA.ghostOrder t hmem
  · exact ⟨hentries, hA.ghost, hA.ghostOrder⟩
  · exact ⟨hentries, hA.ghost, hA.ghostOrder⟩

theorem evict (hA : A.TagsIn S) (c freed : UInt64) : (A.evict c freed).2.2.TagsIn S := by
  fun_induction S3Queue.evict A c freed with
  | case1 => exact hA
  | case2 A freed _ A' h ih => exact ih (hA.evictStep h)
  | case3 A freed _ e A' h r ih => exact ih (hA.evictStep h)
  | case4 => exact hA

end TagsIn

/-! ### Queues under other names -/

def relabelEntry (f : ν → ν') (g : γ → γ') (e : S3Entry ν γ) : S3Entry ν' γ' :=
  ⟨f e.name, g e.tag, e.cost, e.freq⟩

variable [DecidableEq γ']

/-- The same queues under other names and tags. -/
def relabel (f : ν → ν') (g : γ → γ') (A : S3Queue ν γ) : S3Queue ν' γ' where
  small := A.small.map (relabelEntry f g)
  main := A.main.map (relabelEntry f g)
  ghost := A.ghost.image g
  ghostOrder := A.ghostOrder.map g
  smallTarget := A.smallTarget
  ghostCap := A.ghostCap

variable {f : ν → ν'} {g : γ → γ'} {name : ν} {cost : UInt64}

theorem entries_relabel (f : ν → ν') (g : γ → γ') (A : S3Queue ν γ) :
    (A.relabel f g).entries = A.entries.map (relabelEntry f g) := by
  simp [entries, relabel]

theorem relabel_congr (f' : ν → ν') (h : ∀ e ∈ A.entries, f e.name = f' e.name) :
    A.relabel f g = A.relabel f' g := by
  have hmap : ∀ l : List (S3Entry ν γ), (∀ e ∈ l, e ∈ A.entries) →
      l.map (relabelEntry f g) = l.map (relabelEntry f' g) := by
    intro l hl
    refine map_congr_left ?_
    intro e he
    rw [relabelEntry, relabelEntry, h e (hl e he)]
  unfold relabel
  rw [hmap A.small fun e he => mem_append_left _ he,
    hmap A.main fun e he => mem_append_right _ he]

theorem relabel_mapEntries {h : S3Entry ν γ → S3Entry ν γ} {h' : S3Entry ν' γ' → S3Entry ν' γ'}
    (hh : ∀ e ∈ A.entries, relabelEntry f g (h e) = h' (relabelEntry f g e)) :
    (A.mapEntries h).relabel f g = (A.relabel f g).mapEntries h' := by
  have hmap : ∀ l : List (S3Entry ν γ), (∀ e ∈ l, e ∈ A.entries) →
      (l.map h).map (relabelEntry f g) = (l.map (relabelEntry f g)).map h' := by
    intro l hl
    rw [map_map, map_map]
    exact map_congr_left fun e he => hh e (hl e he)
  simp only [relabel, mapEntries]
  rw [hmap A.small fun e he => mem_append_left _ he,
    hmap A.main fun e he => mem_append_right _ he]

section Named

variable [DecidableEq ν] [DecidableEq ν']
  (hf : ∀ e ∈ A.entries, f e.name = f name → e.name = name)

include hf

theorem relabel_touch : (A.touch name).relabel f g = (A.relabel f g).touch (f name) := by
  refine relabel_mapEntries ?_
  intro e he
  by_cases hn : e.name = name
  · simp [relabelEntry, hn, S3Entry.bump]
  · have hn' : f e.name ≠ f name := fun h => hn (hf e he h)
    simp [relabelEntry, hn, hn']

theorem relabel_update :
    (A.update name cost).relabel f g = (A.relabel f g).update (f name) cost := by
  refine relabel_mapEntries ?_
  intro e he
  by_cases hn : e.name = name
  · simp [relabelEntry, hn]
  · have hn' : f e.name ≠ f name := fun h => hn (hf e he h)
    simp [relabelEntry, hn, hn']

theorem relabel_remove : (A.remove name).relabel f g = (A.relabel f g).remove (f name) := by
  have hfilter : ∀ l : List (S3Entry ν γ), (∀ e ∈ l, e ∈ A.entries) →
      (l.filter (·.name ≠ name)).map (relabelEntry f g) =
        (l.map (relabelEntry f g)).filter (·.name ≠ f name) := by
    intro l hl
    rw [filter_map]
    congr 1
    refine filter_congr ?_
    intro e he
    by_cases hn : e.name = name
    · simp [relabelEntry, hn]
    · have hn' : f e.name ≠ f name := fun h => hn (hf e (hl e he) h)
      simp [relabelEntry, hn, hn']
  simp only [relabel, remove]
  rw [hfilter A.small fun e he => mem_append_left _ he,
    hfilter A.main fun e he => mem_append_right _ he]

end Named

section Ghosts

variable (hg : Set.InjOn g S)

include hg

theorem mem_image_iff {s : Finset γ} (hs : ∀ t ∈ s, t ∈ S) (ht : tag ∈ S) :
    g tag ∈ s.image g ↔ tag ∈ s := by
  rw [Finset.mem_image]
  constructor
  · rintro ⟨t, hmem, heq⟩
    exact hg (hs t hmem) ht heq ▸ hmem
  · exact fun hmem => ⟨tag, hmem, rfl⟩

variable [DecidableEq γ]

theorem image_erase {s : Finset γ} (hs : ∀ t ∈ s, t ∈ S) (ht : tag ∈ S) :
    (s.erase tag).image g = (s.image g).erase (g tag) := by
  ext x
  simp only [Finset.mem_image, Finset.mem_erase]
  constructor
  · rintro ⟨t, ⟨hne, hmem⟩, rfl⟩
    exact ⟨fun h => hne (hg (hs t hmem) ht h), t, hmem, rfl⟩
  · rintro ⟨hne, t, hmem, rfl⟩
    exact ⟨t, ⟨fun h => hne (h ▸ rfl), hmem⟩, rfl⟩

theorem rememberGhost_image {cap : ℕ} {ghost : Finset γ} {order : List γ}
    (hs : ∀ t ∈ ghost, t ∈ S) (ho : ∀ t ∈ order, t ∈ S) (ht : tag ∈ S) :
    rememberGhost cap (ghost.image g) (order.map g) (g tag) =
      ((rememberGhost cap ghost order tag).1.image g,
        (rememberGhost cap ghost order tag).2.map g) := by
  have hadd : ∀ (s : Finset γ) (l : List γ), (∀ t ∈ s, t ∈ S) →
      (if g tag ∈ s.image g then (s.image g, l.map g)
        else (insert (g tag) (s.image g), l.map g ++ [g tag])) =
      ((if tag ∈ s then (s, l) else (insert tag s, l ++ [tag])).1.image g,
        (if tag ∈ s then (s, l) else (insert tag s, l ++ [tag])).2.map g) := by
    intro s l hs
    by_cases hmem : tag ∈ s
    · rw [if_pos hmem, if_pos ((mem_image_iff hg hs ht).mpr hmem)]
    · rw [if_neg hmem, if_neg fun h => hmem ((mem_image_iff hg hs ht).mp h)]
      simp [Finset.image_insert]
  unfold rememberGhost
  by_cases hcap : cap ≤ order.length
  · cases order with
    | nil => simpa [hcap] using hadd ghost [] hs
    | cons old rest =>
      have hold : old ∈ S := ho old (by simp)
      have hcap' : cap ≤ (g old :: rest.map g).length := by simpa using hcap
      simp only [hcap, hcap', if_true, map_cons, ← image_erase hg hs hold]
      exact hadd (ghost.erase old) rest fun t h => hs t (Finset.mem_of_mem_erase h)
  · simpa [hcap] using hadd ghost order hs

theorem relabel_remember (hA : A.TagsIn S) (ht : tag ∈ S) :
    (A.remember tag).relabel f g = (A.relabel f g).remember (g tag) := by
  simp only [relabel, remember, rememberGhost_image hg hA.ghost hA.ghostOrder ht]

theorem relabel_admitEntry (hA : A.TagsIn S) (ht : tag ∈ S) (name : ν) :
    (A.admitEntry name tag cost).relabel f g =
      (A.relabel f g).admitEntry (f name) (g tag) cost := by
  have hiff : g tag ∈ (A.relabel f g).ghost ↔ tag ∈ A.ghost := mem_image_iff hg hA.ghost ht
  unfold admitEntry
  by_cases hmem : tag ∈ A.ghost
  · rw [if_pos hmem, if_pos (hiff.mpr hmem)]
    simp [relabel, relabelEntry, image_erase hg hA.ghost ht]
  · rw [if_neg hmem, if_neg fun h => hmem (hiff.mp h)]
    simp [relabel, relabelEntry]

theorem relabel_evictSmall (hA : A.TagsIn S) : (A.relabel f g).evictSmall =
    A.evictSmall.map fun r => (r.1.map (relabelEntry f g), r.2.relabel f g) := by
  unfold evictSmall
  cases hs : A.small with
  | nil => simp [relabel, hs]
  | cons e rest =>
    have hrest : TagsIn S { A with small := rest } :=
      ⟨fun a ha => hA.entries a (by
        rw [entries, hs]
        exact mem_cons_of_mem _ ha), hA.ghost, hA.ghostOrder⟩
    have ht : e.tag ∈ S := hA.entries e (by simp [entries, hs])
    have hr := relabel_remember (f := f) hg hrest ht
    have hsmall : (A.relabel f g).small = relabelEntry f g e :: rest.map (relabelEntry f g) := by
      simp [relabel, hs]
    rw [hsmall]
    simp only
    by_cases hfreq : e.freq > 1
    · have hfreq' : (relabelEntry f g e).freq > 1 := hfreq
      rw [if_pos hfreq, if_pos hfreq']
      simp [relabel, relabelEntry]
    · have hfreq' : ¬ (relabelEntry f g e).freq > 1 := hfreq
      rw [if_neg hfreq, if_neg hfreq', Option.map_some, hr]
      rfl

omit hg [DecidableEq γ] in
theorem relabel_evictMain : (A.relabel f g).evictMain =
    A.evictMain.map fun r => (r.1.map (relabelEntry f g), r.2.relabel f g) := by
  unfold evictMain
  cases hm : A.main with
  | nil => simp [relabel, hm]
  | cons e rest =>
    have hmain : (A.relabel f g).main = relabelEntry f g e :: rest.map (relabelEntry f g) := by
      simp [relabel, hm]
    rw [hmain]
    simp only
    by_cases hfreq : e.freq > 0
    · have hfreq' : (relabelEntry f g e).freq > 0 := hfreq
      rw [if_pos hfreq, if_pos hfreq']
      simp [relabel, relabelEntry]
    · have hfreq' : ¬ (relabelEntry f g e).freq > 0 := hfreq
      rw [if_neg hfreq, if_neg hfreq']
      simp [relabel]

theorem relabel_evictStep (hA : A.TagsIn S) : (A.relabel f g).evictStep =
    A.evictStep.map fun r => (r.1.map (relabelEntry f g), r.2.relabel f g) := by
  have hcond : ((A.relabel f g).small ≠ [] ∧
      ((A.relabel f g).smallCost > (A.relabel f g).smallTarget ∨ (A.relabel f g).main = [])) ↔
        (A.small ≠ [] ∧ (A.smallCost > A.smallTarget ∨ A.main = [])) := by
    have hcost : (A.relabel f g).smallCost = A.smallCost := by
      simp only [smallCost, relabel, map_map]
      rfl
    rw [hcost]
    simp [relabel]
  unfold evictStep
  by_cases h : A.small ≠ [] ∧ (A.smallCost > A.smallTarget ∨ A.main = [])
  · rw [if_pos h, if_pos (hcond.mpr h)]
    exact relabel_evictSmall hg hA
  · rw [if_neg h, if_neg fun h' => h (hcond.mp h')]
    exact relabel_evictMain

end Ghosts

theorem relabel_evict [DecidableEq γ] (hg : Set.InjOn g S) (hA : A.TagsIn S) (c freed : UInt64) :
    (A.relabel f g).evict c freed = ((A.evict c freed).1,
      (A.evict c freed).2.1.map (relabelEntry f g), (A.evict c freed).2.2.relabel f g) := by
  fun_induction S3Queue.evict A c freed with
  | case1 A freed hlt h =>
    have hstep : (A.relabel f g).evictStep = none := by
      rw [relabel_evictStep hg hA, h]
      rfl
    rw [evict_of_none hstep]
    rfl
  | case2 A freed hlt A' h ih =>
    have hstep : (A.relabel f g).evictStep = some (none, A'.relabel f g) := by
      rw [relabel_evictStep hg hA, h]
      rfl
    rw [evict_of_requeue hlt hstep]
    exact ih (hA.evictStep h)
  | case3 A freed hlt e A' h r ih =>
    have hstep : (A.relabel f g).evictStep = some (some (relabelEntry f g e), A'.relabel f g) := by
      rw [relabel_evictStep hg hA, h]
      rfl
    rw [evict_of_victim hlt hstep]
    have hcost : (relabelEntry f g e).cost = e.cost := rfl
    rw [hcost, ih (hA.evictStep h)]
    rfl
  | case4 A freed hle =>
    rw [evict_of_le (by simpa using hle)]
    rfl

end S3Queue

/-! ### The two policies and their driver -/

inductive PolicyOp (K : Type*)
  | insert (key : K) (cost : UInt64)
  | access (key : K)
  | remove (key : K)
  | evict (costToFree : UInt64)
  | clear

/-- The key a call names. -/
def PolicyOp.key? {K : Type*} : PolicyOp K → Option K
  | .insert key _ | .access key | .remove key => some key
  | .evict _ | .clear => none

/-- The key policy, the node policy, and the node of each resident key. -/
structure S3Pair (K : Type*) where
  byKey : S3Fifo K
  byNode : HS3Fifo
  nodes : K → Option NodeId

namespace S3Pair

variable {K : Type*}

/-- Two empty policies for `capacity` cost units. -/
def new (capacity : UInt64) : S3Pair K := ⟨.new capacity, .new capacity, fun _ => none⟩

variable [DecidableEq K] (hash : K → UInt64)

/-- A call on both policies. The node policy is called as a shard calls it: by the node of a
resident key, and by hash for a new one. -/
def step (p : S3Pair K) : PolicyOp K → S3Pair K
  | .insert key cost =>
    match p.nodes key with
    | some node => { p with
        byKey := p.byKey.onAdmit key cost
        byNode := p.byNode.update node cost }
    | none =>
      let r := p.byNode.admitKey (hash key) cost
      { byKey := p.byKey.onAdmit key cost
        byNode := r.2
        nodes := update p.nodes key (some r.1) }
  | .access key => { p with
      byKey := p.byKey.onAccess key
      byNode := (p.nodes key).elim p.byNode p.byNode.touch }
  | .remove key =>
    { byKey := p.byKey.onRemove key
      byNode := (p.nodes key).elim p.byNode p.byNode.remove
      nodes := update p.nodes key none }
  | .evict costToFree =>
    let r := p.byNode.evict costToFree []
    { byKey := (p.byKey.evict costToFree).2
      byNode := r.2.1
      nodes := fun key => (p.nodes key).filter fun node => node ∉ r.2.2.map (·.2) }
  | .clear => ⟨p.byKey.clear, p.byNode.clear, fun _ => none⟩

/-- A sequence of calls. -/
def run (p : S3Pair K) (ops : List (PolicyOp K)) : S3Pair K := ops.foldl (step hash) p

def node (p : S3Pair K) (key : K) : NodeId := (p.nodes key).getD ⟨0, 0⟩

/-- Both policies store the queues `A`, the one by key and the other by node and hash, and the
driver has the nodes of exactly the keys in them. -/
structure AgreeAt (S : Set K) (p : S3Pair K) (A : S3Queue K K) : Prop where
  byKey : p.byKey.Refines A
  byNode : p.byNode.Refines (A.relabel p.node hash)
  nodes : ∀ key, (p.nodes key).isSome ↔ key ∈ A.entries.map (·.name)
  tags : A.TagsIn S
  tag_eq : ∀ e ∈ A.entries, e.tag = e.name

/-- Both policies store the same queues, with keys of `S`. -/
def Agree (S : Set K) (p : S3Pair K) : Prop := ∃ A, AgreeAt hash S p A

variable {hash} {S : Set K} {p : S3Pair K} {A : S3Queue K K} {key : K}

theorem agree_new (S : Set K) (capacity : UInt64) : (new capacity).Agree hash S := by
  refine ⟨.new capacity, S3Fifo.refines_new capacity, HS3Fifo.refines_new capacity, ?_, ?_, ?_⟩
  · intro key
    simp [new, S3Queue.entries, S3Queue.new]
  · exact ⟨by simp [S3Queue.entries, S3Queue.new], by simp [S3Queue.new], by simp [S3Queue.new]⟩
  · simp [S3Queue.entries, S3Queue.new]

namespace AgreeAt

theorem node_inj (h : p.AgreeAt hash S A) {e e' : S3Entry K K} (he : e ∈ A.entries)
    (he' : e' ∈ A.entries) (hn : p.node e.name = p.node e'.name) : e = e' := by
  have hnd := h.byNode.nodup_names
  rw [S3Queue.entries_relabel, map_map] at hnd
  exact inj_on_of_nodup_map hnd he he' hn

theorem of_node (h : p.AgreeAt hash S A) {n : NodeId} (hn : p.nodes key = some n) :
    key ∈ A.entries.map (·.name) ∧ p.node key = n ∧
      ∀ e ∈ A.entries, p.node e.name = p.node key → e.name = key := by
  have hmem : key ∈ A.entries.map (·.name) := (h.nodes key).mp (by simp [hn])
  refine ⟨hmem, by simp [node, hn], ?_⟩
  obtain ⟨e', he', rfl⟩ := mem_map.mp hmem
  intro e he heq
  rw [h.node_inj he he' heq]

theorem of_none (h : p.AgreeAt hash S A) (hn : p.nodes key = none) :
    key ∉ A.entries.map (·.name) := by
  rw [← h.nodes, hn]
  simp

theorem mapEntries (h : p.AgreeAt hash S A) {f : S3Entry K K → S3Entry K K}
    (hname : ∀ e, (f e).name = e.name) (htag : ∀ e, (f e).tag = e.tag) {k : S3Fifo K}
    {n : HS3Fifo} (hk : k.Refines (A.mapEntries f))
    (hn : n.Refines ((A.mapEntries f).relabel p.node hash)) :
    AgreeAt hash S { p with byKey := k, byNode := n } (A.mapEntries f) := by
  refine ⟨hk, hn, ?_, h.tags.mapEntries htag, ?_⟩
  · intro key
    rw [S3Queue.names_mapEntries hname]
    exact h.nodes key
  · intro e he
    simp only [S3Queue.entries, S3Queue.mapEntries, ← map_append] at he
    obtain ⟨a, ha, rfl⟩ := mem_map.mp he
    rw [hname, htag, h.tag_eq a ha]

theorem access (h : p.AgreeAt hash S A) (key : K) :
    AgreeAt hash S (p.step hash (.access key)) (A.touch key) := by
  refine h.mapEntries ?_ ?_ (h.byKey.onAccess key) ?_
  · intro e
    split_ifs <;> rfl
  · intro e
    split_ifs <;> rfl
  · change HS3Fifo.Refines _ ((A.touch key).relabel p.node hash)
    cases hn : p.nodes key with
    | none =>
      rw [S3Queue.touch_of_not_mem (h.of_none hn)]
      exact h.byNode
    | some n =>
      obtain ⟨-, rfl, hinj⟩ := h.of_node hn
      rw [S3Queue.relabel_touch hinj]
      exact h.byNode.touch _

theorem insert_resident (h : p.AgreeAt hash S A) {n : NodeId} (hn : p.nodes key = some n)
    (cost : UInt64) : AgreeAt hash S (p.step hash (.insert key cost)) (A.update key cost) := by
  obtain ⟨hmem, rfl, hinj⟩ := h.of_node hn
  simp only [step, hn]
  refine h.mapEntries ?_ ?_ (h.byKey.onAdmit_resident hmem cost) ?_
  · intro e
    split_ifs <;> rfl
  · intro e
    split_ifs <;> rfl
  · change HS3Fifo.Refines _ ((A.update key cost).relabel p.node hash)
    rw [S3Queue.relabel_update hinj]
    exact h.byNode.update _ cost

theorem insert_fresh (h : p.AgreeAt hash S A) (hS : Set.InjOn hash S) (hkey : key ∈ S)
    (hn : p.nodes key = none) (cost : UInt64) (hlt : p.byKey.nextStamp + 1 < 2 ^ 32) :
    AgreeAt hash S (p.step hash (.insert key cost)) (A.admitEntry key key cost) := by
  have hfresh := h.of_none hn
  simp only [step, hn]
  refine ⟨h.byKey.onAdmit_fresh hlt hfresh cost, ?_, ?_, h.tags.admitEntry hkey key cost, ?_⟩
  · have hr := h.byNode.admitKey (hash key) cost
    -- only the new key's node is new
    rw [S3Queue.relabel_congr (node ⟨p.byKey.onAdmit key cost,
      (p.byNode.admitKey (hash key) cost).2,
      update p.nodes key (some (p.byNode.admitKey (hash key) cost).1)⟩)] at hr
    · rw [S3Queue.relabel_admitEntry hS h.tags hkey]
      simpa [node] using hr
    · intro e he
      have hne : e.name ≠ key := fun heq => hfresh (heq ▸ mem_map_of_mem he)
      simp [node, hne]
  · intro k
    by_cases hk : k = key
    · subst hk
      simp only [update_self, Option.isSome_some, true_iff]
      exact mem_map.mpr ⟨_, S3Queue.mem_admitEntry.mpr (.inl rfl), rfl⟩
    · simp only [update_of_ne hk, h.nodes, mem_map, S3Queue.mem_admitEntry]
      constructor
      · rintro ⟨e, he, rfl⟩
        exact ⟨e, .inr he, rfl⟩
      · rintro ⟨e, rfl | he, rfl⟩
        · exact absurd rfl hk
        · exact ⟨e, he, rfl⟩
  · intro e he
    rcases S3Queue.mem_admitEntry.mp he with rfl | he
    · rfl
    · exact h.tag_eq e he

theorem remove (h : p.AgreeAt hash S A) (key : K) :
    AgreeAt hash S (p.step hash (.remove key)) (A.remove key) := by
  have hmem : ∀ e, e ∈ (A.remove key).entries ↔ e ∈ A.entries ∧ e.name ≠ key := by
    intro e
    simp only [S3Queue.entries, S3Queue.remove, ← filter_append, mem_filter]
    simp
  refine ⟨h.byKey.onRemove key, ?_, ?_, h.tags.remove key, ?_⟩
  · have hr : ((p.nodes key).elim p.byNode p.byNode.remove).Refines
        ((A.remove key).relabel p.node hash) := by
      cases hn : p.nodes key with
      | none =>
        rw [S3Queue.remove_of_not_mem (h.of_none hn)]
        exact h.byNode
      | some n =>
        obtain ⟨-, rfl, hinj⟩ := h.of_node hn
        rw [S3Queue.relabel_remove hinj]
        exact h.byNode.remove _
    rw [S3Queue.relabel_congr (p.step hash (.remove key)).node] at hr
    · exact hr
    · intro e he
      simp [node, step, ((hmem e).mp he).2]
  · intro k
    simp only [step, mem_map, hmem]
    by_cases hk : k = key
    · subst hk
      simp only [update_self, Option.isSome_none, Bool.false_eq_true, false_iff]
      rintro ⟨e, ⟨-, hne⟩, heq⟩
      exact hne heq
    · rw [update_of_ne hk, h.nodes, mem_map]
      constructor
      · rintro ⟨e, he, rfl⟩
        exact ⟨e, ⟨he, hk⟩, rfl⟩
      · rintro ⟨e, ⟨he, -⟩, rfl⟩
        exact ⟨e, he, rfl⟩
  · intro e he
    exact h.tag_eq e ((hmem e).mp he).1

theorem evict_out (h : p.AgreeAt hash S A) (hS : Set.InjOn hash S) (c : UInt64)
    (hlt : (p.byKey.evict c).2.nextStamp < 2 ^ 32) :
    (p.byNode.evict c []).1 = (p.byKey.evict c).1.2 ∧
      (p.byNode.evict c []).2.2 = (p.byKey.evict c).1.1.map fun key => (hash key, p.node key) := by
  obtain ⟨-, hkey⟩ := h.byKey.evict c hlt
  obtain ⟨hfreed, -, hout⟩ := h.byNode.evict c []
  rw [S3Queue.relabel_evict hS h.tags] at hfreed hout
  rw [hkey, hout, nil_append, map_map, map_map]
  refine ⟨hfreed, map_congr_left ?_⟩
  intro e he
  have hmem : e.core ∈ A.entries.map (·.core) :=
    (S3Queue.evict_perm A c 0).mem_iff.mpr (mem_map_of_mem (mem_append_left _ he))
  obtain ⟨a, ha, hcore⟩ := mem_map.mp hmem
  have htag : a.tag = e.tag := congrArg (fun c => c.2.1) hcore
  have hname : a.name = e.name := congrArg (fun c => c.1) hcore
  simp only [Function.comp_apply, S3Queue.relabelEntry, ← htag, ← hname, h.tag_eq a ha]

theorem evict (h : p.AgreeAt hash S A) (hS : Set.InjOn hash S) (c : UInt64)
    (hlt : (p.byKey.evict c).2.nextStamp < 2 ^ 32) :
    AgreeAt hash S (p.step hash (.evict c)) (A.evict c 0).2.2 := by
  obtain ⟨-, hout⟩ := h.evict_out hS c hlt
  obtain ⟨hk, hkey⟩ := h.byKey.evict c hlt
  obtain ⟨-, hn, -⟩ := h.byNode.evict c []
  rw [S3Queue.relabel_evict hS h.tags] at hn
  have hperm := S3Queue.evict_names_perm A c 0
  have hdisj := nodup_append.mp (hperm.nodup_iff.mp h.byKey.nodup_names)
  -- a resident key's node is among the victims' exactly when the key is
  have hvictim : ∀ e ∈ A.entries, p.node e.name ∈ (p.byNode.evict c []).2.2.map (·.2) ↔
      e.name ∈ (A.evict c 0).2.1.map (·.name) := by
    intro e he
    rw [hout, hkey, map_map]
    constructor
    · intro hmem
      obtain ⟨k, hkmem, heq⟩ := mem_map.mp hmem
      obtain ⟨e', he', rfl⟩ := mem_map.mp (hperm.mem_iff.mpr (mem_append_left _ hkmem))
      rwa [h.node_inj he he' heq.symm]
    · exact fun hmem => mem_map.mpr ⟨e.name, hmem, rfl⟩
  have hrest : ∀ key, key ∈ (A.evict c 0).2.2.entries.map (·.name) → ∃ n, p.nodes key = some n ∧
      (p.step hash (.evict c)).nodes key = some n := by
    intro key hmem
    have hres : key ∈ A.entries.map (·.name) := hperm.mem_iff.mpr (mem_append_right _ hmem)
    obtain ⟨n, hn⟩ := Option.isSome_iff_exists.mp ((h.nodes key).mpr hres)
    obtain ⟨-, hnode, -⟩ := h.of_node hn
    obtain ⟨e, he, rfl⟩ := mem_map.mp hres
    refine ⟨n, hn, ?_⟩
    have hnot : n ∉ (p.byNode.evict c []).2.2.map (·.2) := by
      rw [← hnode, hvictim e he]
      exact fun hv => hdisj.2.2 _ hv _ hmem rfl
    simpa [step, hn, Option.filter_some] using hnot
  refine ⟨hk, ?_, ?_, h.tags.evict c 0, ?_⟩
  · rw [S3Queue.relabel_congr (p.step hash (.evict c)).node] at hn
    · exact hn
    · intro e he
      obtain ⟨n, hn, hn'⟩ := hrest e.name (mem_map_of_mem he)
      simp [node, hn, hn']
  · intro key
    constructor
    · intro hsome
      obtain ⟨n, hn⟩ := Option.isSome_iff_exists.mp hsome
      simp only [step, Option.filter_eq_some_iff] at hn
      obtain ⟨hres, hnode, -⟩ := h.of_node hn.1
      refine (mem_append.mp (hperm.mem_iff.mp hres)).resolve_left ?_
      obtain ⟨e, he, rfl⟩ := mem_map.mp hres
      rw [← hvictim e he, hnode]
      simpa using hn.2
    · intro hmem
      obtain ⟨n, -, hn⟩ := hrest key hmem
      simp [hn]
  · intro e he
    have hmem : e.core ∈ A.entries.map (·.core) :=
      (S3Queue.evict_perm A c 0).mem_iff.mpr (mem_map_of_mem (mem_append_right _ he))
    obtain ⟨a, ha, hcore⟩ := mem_map.mp hmem
    have htag : a.tag = e.tag := congrArg (fun c => c.2.1) hcore
    have hname : a.name = e.name := congrArg (fun c => c.1) hcore
    rw [← htag, ← hname, h.tag_eq a ha]

end AgreeAt

theorem Agree.clear (h : p.Agree hash S) : (p.step hash .clear).Agree hash S := by
  obtain ⟨A, h⟩ := h
  refine ⟨_, h.byKey.clear, HS3Fifo.refines_clear h.byNode, ?_, ?_, ?_⟩
  · intro key
    simp [step, S3Queue.entries]
  · exact ⟨by simp [S3Queue.entries], by simp, by simp⟩
  · simp [S3Queue.entries]

theorem nextStamp_step (p : S3Pair K) (op : PolicyOp K) :
    p.byKey.nextStamp ≤ (p.step hash op).byKey.nextStamp := by
  cases op with
  | insert key cost =>
    have hstep : (p.step hash (.insert key cost)).byKey = p.byKey.onAdmit key cost := by
      cases hn : p.nodes key <;> simp [step, hn]
    rw [hstep, S3Fifo.nextStamp_onAdmit]
    split_ifs <;> omega
  | access key =>
    simp only [step, S3Fifo.onAccess]
    split <;> rfl
  | remove key =>
    simp only [step, S3Fifo.onRemove]
    split <;> rfl
  | evict c => exact S3Fifo.Refines.nextStamp_evictLoop_le _ _ _ _
  | clear => exact le_rfl

theorem nextStamp_run (p : S3Pair K) (ops : List (PolicyOp K)) :
    p.byKey.nextStamp ≤ (p.run hash ops).byKey.nextStamp := by
  induction ops generalizing p with
  | nil => exact le_rfl
  | cons op ops ih => exact (nextStamp_step p op).trans (ih (p.step hash op))

theorem Agree.step (h : p.Agree hash S) (hS : Set.InjOn hash S) (op : PolicyOp K)
    (hop : ∀ key ∈ op.key?, key ∈ S) (hlt : (p.step hash op).byKey.nextStamp < 2 ^ 32) :
    (p.step hash op).Agree hash S := by
  obtain ⟨A, h⟩ := h
  cases op with
  | insert key cost =>
    cases hn : p.nodes key with
    | some n => exact ⟨_, h.insert_resident hn cost⟩
    | none =>
      refine ⟨_, h.insert_fresh hS (hop key rfl) hn cost ?_⟩
      have hnone : (p.byKey.metas.lookup key).isSome = false := by
        simpa using h.byKey.mem_names.not.mp (h.of_none hn)
      simpa [S3Pair.step, hn, S3Fifo.nextStamp_onAdmit, hnone] using hlt
  | access key => exact ⟨_, h.access key⟩
  | remove key => exact ⟨_, h.remove key⟩
  | evict c => exact ⟨_, h.evict hS c hlt⟩
  | clear => exact Agree.clear ⟨A, h⟩

theorem Agree.run (h : p.Agree hash S) (hS : Set.InjOn hash S) (ops : List (PolicyOp K))
    (hops : ∀ op ∈ ops, ∀ key ∈ op.key?, key ∈ S)
    (hlt : (p.run hash ops).byKey.nextStamp < 2 ^ 32) : (p.run hash ops).Agree hash S := by
  induction ops generalizing p with
  | nil => exact h
  | cons op ops ih =>
    have hop := hops op (by simp)
    have hstep := h.step hS op hop ((nextStamp_run _ ops).trans_lt hlt)
    exact ih hstep (fun op' hop' => hops op' (mem_cons_of_mem _ hop')) hlt

/-- After any calls with keys of distinct hashes, and fewer than `2 ^ 32` stamps, the two
policies have the same keys in the same order in the small and in the main queue, with the
same read counts, and the same ghosts in the same order; and an eviction names the same keys,
by key and by hash and node, and frees the same cost. -/
theorem lockstep (hash : K → UInt64) (capacity : UInt64) (ops : List (PolicyOp K))
    (hinj : Set.InjOn hash {key | ∃ op ∈ ops, key ∈ op.key?})
    (hlt : (run hash (new capacity) ops).byKey.nextStamp < 2 ^ 32) :
    let p := run hash (new capacity) ops
    let k := p.byKey.debugState
    p.byNode.debugState = (k.1.map (fun e => (hash e.1, e.2)), k.2.1.map (fun e => (hash e.1, e.2)),
        k.2.2.1.image hash, k.2.2.2.map hash) ∧
      ∀ c, (p.byKey.evict c).2.nextStamp < 2 ^ 32 →
        (p.byNode.evict c []).1 = (p.byKey.evict c).1.2 ∧
          (p.byNode.evict c []).2.2.map (fun v => (v.1, some v.2)) =
            (p.byKey.evict c).1.1.map fun key => (hash key, p.nodes key) := by
  obtain ⟨A, h⟩ := (agree_new _ capacity).run hinj ops (fun op hop key hkey => ⟨op, hop, hkey⟩) hlt
  refine ⟨?_, ?_⟩
  · rw [h.byNode.debugState, h.byKey.debugState]
    have hmap : ∀ l : List (S3Entry K K), (∀ e ∈ l, e ∈ A.entries) →
        (l.map (S3Queue.relabelEntry (run hash (new capacity) ops).node hash)).map
          (fun e => (e.tag, e.freq)) =
          (l.map fun e => (e.name, e.freq)).map fun e => (hash e.1, e.2) := by
      intro l hl
      rw [List.map_map, List.map_map]
      refine List.map_congr_left ?_
      intro e he
      simp [S3Queue.relabelEntry, h.tag_eq e (hl e he)]
    simp only [S3Queue.relabel]
    rw [hmap A.small fun e he => List.mem_append_left _ he,
      hmap A.main fun e he => List.mem_append_right _ he]
  · intro c hc
    obtain ⟨hfreed, hout⟩ := h.evict_out hinj c hc
    refine ⟨hfreed, ?_⟩
    rw [hout, List.map_map]
    refine List.map_congr_left ?_
    intro key hkey
    -- a victim was resident, so it had a node
    obtain ⟨-, hvictims⟩ := h.byKey.evict c hc
    rw [hvictims] at hkey
    have hres : key ∈ A.entries.map (·.name) :=
      (S3Queue.evict_names_perm A c 0).mem_iff.mpr (List.mem_append_left _ hkey)
    obtain ⟨n, hn⟩ := Option.isSome_iff_exists.mp ((h.nodes key).mpr hres)
    simp [node, hn]

/-- Calls that promote a key, update it, evict, bring back a ghost and remove. -/
def sampleOps : List (PolicyOp UInt64) :=
  [.insert 1 3, .insert 2 4, .access 1, .access 1, .insert 1 5, .evict 4, .insert 2 1, .remove 1]

theorem lockstep_sampleOps :
    let p := run id (new 10) sampleOps
    let k := p.byKey.debugState
    p.byNode.debugState = (k.1.map (fun e => (id e.1, e.2)), k.2.1.map (fun e => (id e.1, e.2)),
        k.2.2.1.image id, k.2.2.2.map id) ∧
      ∀ c, (p.byKey.evict c).2.nextStamp < 2 ^ 32 →
        (p.byNode.evict c []).1 = (p.byKey.evict c).1.2 ∧
          (p.byNode.evict c []).2.2.map (fun v => (v.1, some v.2)) =
            (p.byKey.evict c).1.1.map fun key => (id key, p.nodes key) := by
  have h := lockstep id 10 sampleOps Function.injective_id.injOn (by decide)
  exact h

end S3Pair

end Fibre.Cache
