import Mathlib.Tactic.FinCases
import Fibre.Cache.Slab
import Fibre.Cache.TinyQueue

/-!
# The slab as three lists of entries

What a policy sees of its slab: three lists of tracked entries, least recently linked
first, named by node id. The slots and links behind them are hidden.
-/

namespace Fibre.Cache

open CostQueue Function List

namespace Slab

variable {P : Type*} [Inhabited P]

/-- The entry at a slot. -/
def node (s : Slab P) (i : ℕ) : Tracked NodeId P := ⟨s.id i, (s.payload i).getD default, s.costs i⟩

/-- The slab holds the lists `L`, with no slot detached. -/
def Holds (s : Slab P) (L : Fin 3 → List (Tracked NodeId P)) : Prop :=
  ∃ q, s.Repr q none ∧ ∀ a, L a = (q a).reverse.map s.node

variable {s : Slab P} {q : Fin 3 → List ℕ} {L : Fin 3 → List (Tracked NodeId P)} {a b : Fin 3}
  {i j : ℕ} {name : NodeId} {p : P} {c : UInt64}

theorem node_eq_iff : s.node j = s.node i ↔ j = i := by
  refine ⟨fun h => ?_, by rintro rfl; rfl⟩
  have := congrArg (fun e => e.name.slot) h
  simpa [node, id] using this

omit [Inhabited P] in
theorem id_inj : s.id j = s.id i ↔ j = i := by
  simp only [id, NodeId.mk.injEq]
  exact ⟨And.right, by rintro rfl; exact ⟨rfl, rfl⟩⟩

theorem map_node_without (i : ℕ) (l : List ℕ) :
    Tracked.without (s.id i) (l.map s.node) = (l.filter (· ≠ i)).map s.node := by
  rw [Tracked.without, filter_map]
  congr 1
  refine filter_congr ?_
  intro j _
  simp [node, id_inj]

theorem holds_new : (new : Slab P).Holds fun _ => [] := ⟨fun _ => [], repr_new, fun _ => rfl⟩

namespace Holds

theorem of_repr {s' : Slab P} {q' : Fin 3 → List ℕ} (hq : s'.Repr q' none)
    (hL : ∀ a, L a = (q' a).reverse.map s'.node) : s'.Holds L := ⟨q', hq, hL⟩

theorem cost (h : s.Holds L) (a : Fin 3) : (s.lists a).cost = total Tracked.cost (L a) := by
  obtain ⟨q, hq, hL⟩ := h
  rw [hq.cost, hL, total]
  simp only [map_map, map_reverse, sum_reverse]
  rfl

theorem mem_iff (hL : ∀ a, L a = (q a).reverse.map s.node) :
    s.node i ∈ L a ↔ i ∈ q a := by
  rw [hL]
  simp [node_eq_iff]

theorem seg_eq (h : s.Holds L) (hi : s.node i ∈ L a) : (s.links i).seg = some a := by
  obtain ⟨q, hq, hL⟩ := h
  exact hq.seg_eq ((mem_iff hL).mp hi)

theorem head?_eq (h : s.Holds L) (a : Fin 3) : (L a).head? = (s.lists a).tail.map s.node := by
  obtain ⟨q, hq, hL⟩ := h
  rw [hL, hq.tail]
  simp

theorem eq_nil_iff (h : s.Holds L) : L a = [] ↔ (s.lists a).tail = none := by
  rw [← List.head?_eq_none_iff, h.head?_eq]
  simp

theorem mem_of_tail (h : s.Holds L) (ht : (s.lists a).tail = some i) : s.node i ∈ L a := by
  refine mem_of_head? ?_
  rw [h.head?_eq, ht, Option.map_some]

theorem eq_cons (h : s.Holds L) (ht : (s.lists a).tail = some i) :
    L a = s.node i :: Tracked.without (s.id i) (L a) := by
  obtain ⟨q, hq, hL⟩ := h
  rw [hL, map_node_without, filter_reverse, (hq.tail_split ht).2]
  simp

theorem nodup (h : s.Holds L) (a : Fin 3) : ((L a).map (·.name)).Nodup := by
  obtain ⟨q, hq, hL⟩ := h
  rw [hL, map_map]
  refine Nodup.map ?_ (nodup_reverse.mpr (hq.nodup a))
  intro i j hij
  exact id_inj.mp hij

theorem disjoint (h : s.Holds L) (ha : name ∈ (L a).map (·.name))
    (hb : name ∈ (L b).map (·.name)) : a = b := by
  obtain ⟨q, hq, hL⟩ := h
  rw [hL] at ha hb
  simp only [map_map, mem_map, mem_reverse, Function.comp_apply] at ha hb
  obtain ⟨i, hi, rfl⟩ := ha
  obtain ⟨j, hj, hij⟩ := hb
  obtain rfl : j = i := id_inj.mp hij
  exact hq.seg_unique hi hj

theorem only_eq (h : s.Holds L) (hi : s.node i ∈ L a) :
    Tracked.only (s.id i) (L a) = [s.node i] := by
  obtain ⟨q, hq, hL⟩ := h
  have hmem := (mem_iff hL).mp hi
  rw [Tracked.only, hL, filter_map]
  have hfilter : (q a).reverse.filter ((fun e : Tracked NodeId P => decide (e.name = s.id i)) ∘
      s.node) = [i] := by
    have hcongr : (q a).reverse.filter ((fun e : Tracked NodeId P => decide (e.name = s.id i)) ∘
        s.node) = (q a).reverse.filter (· = i) := by
      refine filter_congr ?_
      intro j _
      simp [node, id_inj]
    rw [hcongr, List.filter_eq, count_reverse,
      count_eq_one_of_mem (hq.nodup a) hmem, replicate_one]
  rw [hfilter]
  rfl

theorem without_other (h : s.Holds L) (hi : s.node i ∈ L a) (hb : b ≠ a) :
    Tracked.without (s.id i) (L b) = L b := by
  refine Tracked.without_of_not_mem ?_
  intro hmem
  exact hb (h.disjoint hmem (mem_map_of_mem (f := (·.name)) hi))

theorem length_le (h : s.Holds L) (a : Fin 3) : (L a).length ≤ s.size := by
  obtain ⟨q, hq, hL⟩ := h
  rw [hL, length_map, length_reverse]
  exact hq.length_le a

theorem resolve_none (h : s.Holds L) (hr : s.resolve name = none) (a : Fin 3) :
    name ∉ (L a).map (·.name) := by
  obtain ⟨q, hq, hL⟩ := h
  rw [hL]
  simp only [map_map, mem_map, mem_reverse, Function.comp_apply, not_exists,
    not_and]
  intro j hj
  exact hq.id_ne hr hj

theorem resolve_some (h : s.Holds L) (hr : s.resolve name = some i) :
    s.id i = name ∧ ∃ a, s.node i ∈ L a := by
  obtain ⟨q, hq, hL⟩ := h
  obtain ⟨⟨a, hi⟩, rfl⟩ := hq.resolve_eq_some.mp hr
  exact ⟨rfl, a, (mem_iff hL).mpr hi⟩

/-! ### The operations -/

theorem requeue (h : s.Holds L) (hi : s.node i ∈ L a) (b : Fin 3) :
    ((s.unlink i).pushFront b i).Holds (update
      (fun c => Tracked.without (s.id i) (L c)) b
      (Tracked.without (s.id i) (L b) ++ [s.node i])) := by
  obtain ⟨q, hq, hL⟩ := h
  have hrepr := hq.requeue ((mem_iff hL).mp hi) b
  rw [hq.erase_eq_filter ((mem_iff hL).mp hi)] at hrepr
  have hnode : ((s.unlink i).pushFront b i).node = s.node := by
    funext j
    simp [node]
  refine of_repr hrepr ?_
  intro c
  rw [hnode]
  have hc : ∀ c, Tracked.without (s.id i) (L c) =
      ((q c).filter (· ≠ i)).reverse.map s.node := by
    intro c
    rw [hL, map_node_without, filter_reverse]
  by_cases hcb : c = b
  · subst hcb
    simp only [update_self, hc, reverse_cons, map_append, map_cons,
      map_nil]
  · rw [update_of_ne hcb, update_of_ne hcb, hc]

theorem free (h : s.Holds L) (hi : s.node i ∈ L a) :
    ((s.unlink i).release i).2.Holds fun c => Tracked.without (s.id i) (L c) := by
  obtain ⟨q, hq, hL⟩ := h
  have hrepr := hq.free ((mem_iff hL).mp hi)
  rw [hq.erase_eq_filter ((mem_iff hL).mp hi)] at hrepr
  refine of_repr hrepr ?_
  intro c
  rw [hL, map_node_without, filter_reverse]
  refine map_congr_left ?_
  intro j hj
  have hne : j ≠ i := by simpa using (mem_filter.mp (mem_reverse.mp hj)).2
  simp [node, release_payload_of_ne hne, release_id_of_ne hne]

theorem allocFront (h : s.Holds L) (b : Fin 3) (p : P) (c : UInt64) :
    ((s.alloc p c).2.pushFront b (s.alloc p c).1).Holds (update L b
      (L b ++ [⟨((s.alloc p c).2.pushFront b (s.alloc p c).1).id (s.alloc p c).1, p, c⟩])) := by
  obtain ⟨q, hq, hL⟩ := h
  have hrepr := hq.allocFront (p := p) (c := c) b
  have hold : ∀ d, (q d).reverse.map s.node = (q d).reverse.map
      ((s.alloc p c).2.pushFront b (s.alloc p c).1).node := by
    intro d
    refine map_congr_left ?_
    intro j hj
    have hne : j ≠ (s.alloc p c).1 := hq.alloc_fresh (mem_reverse.mp hj)
    simp [node, alloc_payload_of_ne hne, alloc_costs_of_ne hne, alloc_id_of_ne hne]
  have hnew : ((s.alloc p c).2.pushFront b (s.alloc p c).1).node (s.alloc p c).1 =
      ⟨((s.alloc p c).2.pushFront b (s.alloc p c).1).id (s.alloc p c).1, p, c⟩ := by
    simp [node, alloc_payload_self, alloc_costs_self]
  refine of_repr hrepr ?_
  intro d
  by_cases hd : d = b
  · subst hd
    simp only [update_self, hL, hold, reverse_cons, map_append,
      map_cons, map_nil, hnew]
  · rw [update_of_ne hd, update_of_ne hd, hL, hold]

theorem node_setCost_mem (h : s.Holds L) (hi : s.node i ∈ L a) (c : UInt64) :
    (s.setCost i c).node i ∈ Tracked.setCost (s.id i) c (L a) := by
  refine mem_map.mpr ⟨s.node i, hi, ?_⟩
  rw [if_pos (show (s.node i).name = s.id i from rfl)]
  simp [node, setCost_eq (h.seg_eq hi), Slab.id]

theorem setCost (h : s.Holds L) (hi : s.node i ∈ L a) (c : UInt64) :
    (s.setCost i c).Holds fun b => Tracked.setCost (s.id i) c (L b) := by
  obtain ⟨q, hq, hL⟩ := h
  have hmem := (mem_iff hL).mp hi
  refine of_repr (hq.setCost hmem) ?_
  intro b
  rw [hL, Tracked.setCost, map_map]
  refine map_congr_left ?_
  intro j _
  by_cases hj : j = i
  · simp [hj, node, setCost_eq (hq.seg_eq hmem), Slab.id]
  · have hid : (s.node j).name ≠ s.id i := fun hid => hj (id_inj.mp hid)
    rw [Function.comp_apply, if_neg hid]
    simp [node, setCost_eq (hq.seg_eq hmem), Slab.id, hj]

theorem moveFront (h : s.Holds L) (hi : s.node i ∈ L a) :
    (s.moveFront a i).Holds (update L a (Tracked.refresh (s.id i) (L a))) := by
  have honly := h.only_eq hi
  obtain ⟨q, hq, hL⟩ := h
  have hmem := (mem_iff hL).mp hi
  have hrepr := hq.moveFront hmem a
  have hnode : (s.moveFront a i).node = s.node := by
    funext j
    simp [node]
  refine of_repr hrepr ?_
  intro b
  rw [hnode]
  by_cases hb : b = a
  · subst hb
    rw [update_self, update_self, Tracked.refresh, honly, hL,
      map_node_without, filter_reverse, reverse_cons, map_append,
      (hq.nodup b).erase_eq_filter]
    congr 3
    refine filter_congr ?_
    intro j _
    by_cases hj : j = i <;> simp [hj]
  · simp only [update_of_ne hb, hL]

end Holds

end Slab

end Fibre.Cache
