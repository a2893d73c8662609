import Fibre.Cache.Slab
import Fibre.Math.CostQueue
import Fibre.Math.Machine

/-!
# Runs of a slab

Nodes are allocated, linked, moved, priced, unlinked and freed in any order, with any number of them
out of the lists at a time, against three lists of slots.

The recorded cost of a list is a machine word, and a node id has 32 bits for the slot. The costs are
right and the ids apart while the costs of a list add up below `2 ^ 64` and no slot is `NIL`.
-/

namespace Fibre.Cache

open CostQueue Function List Option

/-- The number that a node id is. -/
def NodeId.join (n : NodeId) : ℕ := n.generation.toNat * 2 ^ 32 + n.slot % 2 ^ 32

variable {P : Type*}

/-- A slab, and the slots that are allocated and in no list. -/
structure SlabUse (P : Type*) where
  slab : Slab P
  out : Finset ℕ

/-- What is done with a slab. -/
inductive SlabAction (P : Type*)
  | alloc (p : P) (cost : UInt64)
  | link (a : Fin 3) (i : ℕ)
  | move (a : Fin 3) (i : ℕ)
  | setCost (i : ℕ) (cost : UInt64)
  | unlink (i : ℕ)
  | free (i : ℕ)

/-- What an action does to the lists. -/
def SlabAction.spec (q : Fin 3 → List ℕ) : SlabAction P → Fin 3 → List ℕ
  | .alloc _ _ | .setCost _ _ | .free _ => q
  | .link a i => update q a (i :: q a)
  | .move a i => update (fun b => (q b).erase i) a (i :: (q a).erase i)
  | .unlink i => fun b => (q b).erase i

namespace SlabUse

def init : SlabUse P := ⟨.new, ∅⟩

/-- The node is in a list. -/
def Linked (s : SlabUse P) (i : ℕ) : Prop := i < s.slab.size ∧ (s.slab.links i).seg ≠ none ∧ i ∉ s.out

instance (s : SlabUse P) (i : ℕ) : Decidable (s.Linked i) := inferInstanceAs (Decidable (_ ∧ _ ∧ _))

/-- A node in a list is moved, priced or unlinked; one that is out is linked or freed. -/
def Legal (s : SlabUse P) : SlabAction P → Prop
  | .alloc _ _ => True
  | .link _ i | .free i => i ∈ s.out
  | .move _ i | .setCost i _ | .unlink i => s.Linked i

instance (s : SlabUse P) : ∀ a, Decidable (s.Legal a)
  | .alloc _ _ => inferInstanceAs (Decidable True)
  | .link _ _ | .free _ => inferInstanceAs (Decidable (_ ∈ _))
  | .move _ _ | .setCost _ _ | .unlink _ => inferInstanceAs (Decidable (Linked _ _))

def exec (s : SlabUse P) : SlabAction P → SlabUse P
  | .alloc p cost => ⟨(s.slab.alloc p cost).2, insert (s.slab.alloc p cost).1 s.out⟩
  | .link a i => ⟨s.slab.pushFront a i, s.out.erase i⟩
  | .move a i => { s with slab := s.slab.moveFront a i }
  | .setCost i cost => { s with slab := s.slab.setCost i cost }
  | .unlink i => ⟨s.slab.unlink i, insert i s.out⟩
  | .free i => ⟨(s.slab.release i).2, s.out.erase i⟩

def step (s : SlabUse P) (a : SlabAction P) : Option (SlabUse P) :=
  if s.Legal a then some (s.exec a) else none

/-- The costs of the list that the action adds to are below `2 ^ 64`; a new slot is not `NIL`. -/
def Fits (s : SlabUse P) : SlabAction P → Prop
  | .alloc _ _ => s.slab.free ≠ [] ∨ s.slab.size + 1 < 2 ^ 32
  | .link a i => totalNat s.slab.costs (i :: s.slab.fromHead a) < 2 ^ 64
  | .move a i => totalNat s.slab.costs (i :: (s.slab.fromHead a).erase i) < 2 ^ 64
  | .setCost i cost => ∀ a, i ∈ s.slab.fromHead a →
      cost.toNat + totalNat s.slab.costs ((s.slab.fromHead a).erase i) < 2 ^ 64
  | .unlink _ | .free _ => True

instance (s : SlabUse P) : ∀ a, Decidable (s.Fits a)
  | .alloc _ _ => inferInstanceAs (Decidable (_ ∨ _))
  | .link _ _ | .move _ _ => inferInstanceAs (Decidable (_ < _))
  | .setCost _ _ => inferInstanceAs (Decidable (∀ _, _ → _))
  | .unlink _ | .free _ => inferInstanceAs (Decidable True)

/-- The nodes that are linked and those that are out are live. -/
structure Sound (s : SlabUse P) : Prop where
  linked : ∀ a, s.slab.fromTail a = (s.slab.fromHead a).reverse
  nodup : ∀ a, (s.slab.fromHead a).Nodup
  one : ∀ i, s.Linked i ↔ ∃ a, i ∈ s.slab.fromHead a
  unique : ∀ i a b, i ∈ s.slab.fromHead a → i ∈ s.slab.fromHead b → a = b
  free_nodup : s.slab.free.Nodup
  free : ∀ i, i ∈ s.slab.free ↔ i < s.slab.size ∧ ¬ s.Linked i ∧ i ∉ s.out
  cost : ∀ a, (s.slab.lists a).cost.toNat = totalNat s.slab.costs (s.slab.fromHead a)
  /-- what is taken from the cost of a list is in it -/
  covers : ∀ a, ∀ i ∈ s.slab.fromHead a, s.slab.costs i ≤ (s.slab.lists a).cost
  ids : ∀ i j, s.Linked i ∨ i ∈ s.out → s.Linked j ∨ j ∈ s.out →
    (s.slab.id i).join = (s.slab.id j).join → i = j

/-- The slab holds the lists `q`, which fit. -/
structure Holds (s : SlabUse P) (q : Fin 3 → List ℕ) : Prop where
  parts : s.slab.Parts q s.out
  totals : ∀ a, totalNat s.slab.costs (q a) < 2 ^ 64
  size : s.slab.size < 2 ^ 32

variable {s s' : SlabUse P} {q : Fin 3 → List ℕ} {a : SlabAction P} {b : Fin 3} {i j : ℕ}

theorem fromHead_eq (h : s.slab.Parts q s.out) : s.slab.fromHead = q := funext h.fromHead_eq

theorem linked_iff (h : s.slab.Parts q s.out) : s.Linked i ↔ ∃ b, i ∈ q b := by
  constructor
  · rintro ⟨hlt, hseg, hout⟩
    obtain ⟨b, hb⟩ := ne_none_iff_exists'.mp hseg
    exact ⟨b, (h.mem_iff b i).mpr ⟨hlt, hb, hout⟩⟩
  · rintro ⟨b, hb⟩
    exact ⟨h.lt_size hb, by simp [h.seg_eq hb], h.notMem_out hb⟩

theorem Holds.toSound (h : s.Holds q) : s.Sound := by
  have hq := fromHead_eq h.parts
  have hlt : ∀ i, s.Linked i ∨ i ∈ s.out → i < s.slab.size := by
    rintro i (hi | hi)
    · exact hi.1
    · exact h.parts.out_lt i hi
  have hcost : ∀ b, (s.slab.lists b).cost.toNat = totalNat s.slab.costs (q b) := by
    intro b
    rw [h.parts.cost b]
    exact toNat_total (h.totals b)
  refine ⟨?_, ?_, ?_, ?_, h.parts.free_nodup, ?_, ?_, ?_, ?_⟩
  · intro b
    rw [h.parts.fromTail_eq, hq]
  · rw [hq]
    exact h.parts.nodup
  · intro i
    rw [hq]
    exact linked_iff h.parts
  · rw [hq]
    exact fun i b c => h.parts.seg_unique
  · intro i
    rw [h.parts.free_iff, Linked]
    simp only [Finset.mem_coe]
    tauto
  · rw [hq]
    exact hcost
  · intro b i hi
    rw [hq] at hi
    rw [UInt64.le_iff_toNat_le, hcost]
    exact single_le_sum (by simp) _ (mem_map_of_mem hi)
  · intro i j hi hj hid
    have hi := hlt i hi
    have hj := hlt j hj
    have hsize := h.size
    -- live nodes have other slots, and a slot is the lower half of the id
    simp only [NodeId.join, Slab.id] at hid
    omega

theorem totalNat_congr {costs costs' : ℕ → UInt64} {l : List ℕ} (h : ∀ j ∈ l, costs' j = costs j) :
    totalNat costs' l = totalNat costs l := by
  unfold totalNat
  congr 1
  exact map_congr_left fun j hj => congrArg UInt64.toNat (h j hj)

theorem erase_eq (h : s.slab.Parts q s.out) (hi : i ∈ q b) :
    update q b ((q b).erase i) = fun c => (q c).erase i := by
  funext c
  by_cases hc : c = b
  · subst hc
    rw [update_self]
  · have hic : i ∉ q c := fun hic => hc (h.seg_unique hic hi)
    rw [update_of_ne hc, erase_of_not_mem hic]

/-- The lists stay what the specification says, and keep fitting. -/
theorem Holds.step (h : s.Holds q) (hfit : s.Fits a) (hs : s.step a = some s') :
    s'.Holds (a.spec q) := by
  simp only [SlabUse.step, ite_none_right_eq_some, Option.some.injEq] at hs
  obtain ⟨hlegal, rfl⟩ := hs
  have hq := fromHead_eq h.parts
  have herase : ∀ i c, totalNat s.slab.costs ((q c).erase i) < 2 ^ 64 := fun i c =>
    (totalNat_sublist_le erase_sublist).trans_lt (h.totals c)
  have hupdate : ∀ {q' : Fin 3 → List ℕ} {b : Fin 3} {l : List ℕ},
      (∀ c, totalNat s.slab.costs (q' c) < 2 ^ 64) → totalNat s.slab.costs l < 2 ^ 64 →
        ∀ c, totalNat s.slab.costs (update q' b l c) < 2 ^ 64 := by
    intro q' b l hq' hl c
    by_cases hc : c = b
    · subst hc
      rwa [update_self]
    · rw [update_of_ne hc]
      exact hq' c
  cases a with
  | alloc p cost =>
    refine ⟨by simpa [exec, SlabAction.spec] using h.parts.alloc, fun c => ?_, ?_⟩
    -- the node is in no list yet
    · rw [exec, SlabAction.spec, totalNat_congr fun j hj => Slab.alloc_costs_of_ne ?_]
      · exact h.totals c
      · rintro rfl
        exact (h.parts.alloc (p := p) (c := cost)).notMem_out hj (Set.mem_insert _ _)
    · rw [exec]
      cases hf : s.slab.free with
      | nil =>
        rw [Slab.alloc_of_nil hf]
        exact hfit.resolve_left (fun hne => hne hf)
      | cons i rest =>
        rw [Slab.alloc_of_cons hf]
        exact h.size
  | link b i =>
    rw [Fits, hq] at hfit
    refine ⟨?_, hupdate h.totals hfit, h.size⟩
    rw [exec, Finset.coe_erase]
    exact h.parts.pushFront hlegal b
  | move b i =>
    obtain ⟨c, hc⟩ := (linked_iff h.parts).mp hlegal
    rw [Fits, hq] at hfit
    have hmove := h.parts.moveFront hc b
    rw [erase_eq h.parts hc] at hmove
    refine ⟨hmove, ?_, by simpa [exec] using h.size⟩
    rw [exec, Slab.moveFront_costs]
    exact hupdate (herase i) hfit
  | setCost i cost =>
    obtain ⟨c, hc⟩ := (linked_iff h.parts).mp hlegal
    have hcosts : (s.exec (.setCost i cost)).slab.costs = update s.slab.costs i cost := by
      rw [exec, Slab.setCost_eq (h.parts.seg_eq hc)]
    refine ⟨h.parts.setCost hc, fun d => ?_, by simpa [exec] using h.size⟩
    rw [SlabAction.spec, hcosts]
    -- only the list of the node costs something else
    by_cases hd : i ∈ q d
    · have hother : ∀ j ∈ (q d).erase i, update s.slab.costs i cost j = s.slab.costs j := by
        intro j hj
        exact update_of_ne ((h.parts.nodup d).mem_erase_iff.mp hj).1 ..
      rw [totalNat_perm _ (perm_cons_erase hd), totalNat_cons, update_self,
        totalNat_congr hother, ← hq]
      exact hfit d (by rwa [hq])
    · rw [totalNat_congr fun j hj => update_of_ne (by rintro rfl; exact hd hj) ..]
      exact h.totals d
  | unlink i =>
    obtain ⟨c, hc⟩ := (linked_iff h.parts).mp hlegal
    have hunlink := h.parts.unlink hc
    rw [erase_eq h.parts hc] at hunlink
    refine ⟨by simpa [exec, SlabAction.spec] using hunlink, ?_, by simpa [exec] using h.size⟩
    rw [exec, Slab.unlink_costs]
    exact herase i
  | free i =>
    refine ⟨?_, h.totals, h.size⟩
    rw [exec, Finset.coe_erase]
    exact h.parts.release hlegal

theorem holds_init : (init : SlabUse P).Holds fun _ => [] where
  parts := by simpa [init] using Slab.repr_none_iff.mp Slab.repr_new
  totals _ := by simp
  size := by simp [init, Slab.new]

/-- While the actions fit, the slab is the lists of the specification. -/
theorem refines_of_fits : ∀ s : SlabUse P, Machine.Run step Fits init s → s.Sound ∧
    ∀ a s', s.Fits a → s.step a = some s' →
      s'.Sound ∧ s'.slab.fromHead = a.spec s.slab.fromHead := by
  intro s h
  obtain ⟨q, hq⟩ := h.invariant (I := fun s => ∃ q, s.Holds q) ⟨_, holds_init⟩
    fun t a u ⟨q, hq⟩ hfit hs => ⟨a.spec q, hq.step hfit hs⟩
  refine ⟨hq.toSound, fun a s' hfit hs => ?_⟩
  have hq' := hq.step hfit hs
  rw [fromHead_eq hq.parts, fromHead_eq hq'.parts]
  exact ⟨hq'.toSound, rfl⟩

theorem refines_of_fits_three : ∃ s : SlabUse ℕ, s.slab.fromHead 0 = [1, 0] ∧
    (s.Sound ∧ ∀ a s', s.Fits a → s.step a = some s' →
      s'.Sound ∧ s'.slab.fromHead = a.spec s.slab.fromHead) := by
  have hexec : (Machine.exec step (fun s a => decide (Fits s a)) (init (P := ℕ))
      [.alloc 7 5, .alloc 8 3, .link 0 0, .alloc 9 1, .link 1 1, .setCost 0 4, .move 0 1, .free 2]).map
        (fun s => s.slab.fromHead 0) = some [1, 0] := by
    rfl
  obtain ⟨s, hs, hlist⟩ := Option.map_eq_some_iff.mp hexec
  exact ⟨s, hlist, refines_of_fits s (Machine.run_of_exec (fun _ _ => of_decide_eq_true) hs)⟩

/-- Two halves of `2 ^ 64` are recorded as nothing. -/
theorem not_sound_wrapped : ¬ ∀ s : SlabUse ℕ, Machine.Reachable step init s → s.Sound := by
  intro h
  have hexec : (Machine.exec step (fun _ _ => true) (init (P := ℕ))
      [.alloc 7 (2 ^ 63), .alloc 8 (2 ^ 63), .link 0 0, .link 0 1]).map
        (fun s => ((s.slab.lists 0).cost, totalNat s.slab.costs (s.slab.fromHead 0))) =
          some (0, 2 ^ 64) := by
    decide +kernel
  obtain ⟨s, hs, hcosts⟩ := Option.map_eq_some_iff.mp hexec
  obtain ⟨hzero, htotal⟩ := Prod.ext_iff.mp hcosts
  have hcost := (h s (Machine.reachable_of_exec hs)).cost 0
  rw [show (s.slab.lists 0).cost = 0 from hzero, show totalNat _ _ = 2 ^ 64 from htotal] at hcost
  exact absurd hcost (by decide)

end SlabUse

end Fibre.Cache
