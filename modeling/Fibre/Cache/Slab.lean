import Mathlib.Algebra.BigOperators.Group.List.Basic
import Mathlib.Data.UInt
import Mathlib.Tactic.Abel
import Fibre.Math.DoublyLinked

/-!
# The policy slab

The built-in policies keep their queues as intrusive doubly linked lists over one
slab of slots: three lists, per-slot payload and cost, and a stack of free slots.
A live slot is named by a node id, its slot together with the generation the slot
was in when the node was handed out.

The slab's three parallel vectors are total maps together with their common length
`size`; `NIL` is `none` and so is the segment `FREE`. Costs and generations are machine
words, so the recorded cost of a list is the wrapping sum of its members' costs.
-/

namespace Fibre.Cache

open DoublyLinked Function List

/-- A node id, `generation << 32 | slot` in the source. -/
structure NodeId where
  generation : UInt32
  slot : ℕ
  deriving DecidableEq, Repr

/-- The links of one slot. A slot whose `seg` is `none` is free. -/
structure Link where
  prev : Option ℕ
  next : Option ℕ
  seg : Option (Fin 3)
  generation : UInt32
  deriving DecidableEq

/-- Head, tail and recorded cost of one of the slab's lists. -/
structure SegList where
  head : Option ℕ
  tail : Option ℕ
  cost : UInt64
  deriving DecidableEq

def SegList.empty : SegList := ⟨none, none, 0⟩

/-- Intrusive doubly linked lists over one slab. `P` is the per-node payload. -/
structure Slab (P : Type*) where
  links : ℕ → Link
  payload : ℕ → Option P
  costs : ℕ → UInt64
  size : ℕ
  free : List ℕ
  lists : Fin 3 → SegList

namespace Slab

variable {P : Type*}

/-- A slab with no slots. -/
def new : Slab P where
  links _ := ⟨none, none, none, 0⟩
  payload _ := none
  costs _ := 0
  size := 0
  free := []
  lists _ := .empty

/-- Takes a free slot, or a new one at the end, for the payload `p`. -/
def alloc (s : Slab P) (p : P) (cost : UInt64) : ℕ × Slab P :=
  match s.free with
  | i :: rest =>
    (i, { s with
      payload := update s.payload i (some p)
      costs := update s.costs i cost
      free := rest })
  | [] =>
    (s.size, { s with
      links := update s.links s.size ⟨none, none, none, 0⟩
      payload := update s.payload s.size (some p)
      costs := update s.costs s.size cost
      size := s.size + 1 })

/-- Frees the slot `i` and moves its generation on. The payload is `some` for a live
slot, so the source's `expect` does not fire (`Repr.payload_isSome`). -/
def release (s : Slab P) (i : ℕ) : Option P × Slab P :=
  (s.payload i, { s with
    links := update s.links i
      { s.links i with seg := none, generation := (s.links i).generation + 1 }
    payload := update s.payload i none
    free := i :: s.free })

/-- The live slot a node id names, if its generation is still current. -/
def resolve (s : Slab P) (node : NodeId) : Option ℕ :=
  if node.slot < s.size ∧ (s.links node.slot).seg ≠ none ∧
      (s.links node.slot).generation = node.generation then
    some node.slot
  else
    none

/-- The node id of the slot `i`. -/
def id (s : Slab P) (i : ℕ) : NodeId := ⟨(s.links i).generation, i⟩

/-- The links with the `prev` field of an optional slot set. -/
def setPrev (links : ℕ → Link) (at? : Option ℕ) (v : Option ℕ) : ℕ → Link :=
  match at? with
  | none => links
  | some j => update links j { links j with prev := v }

/-- The links with the `next` field of an optional slot set. -/
def setNext (links : ℕ → Link) (at? : Option ℕ) (v : Option ℕ) : ℕ → Link :=
  match at? with
  | none => links
  | some j => update links j { links j with next := v }

/-- Links the slot `i` in at the front of list `seg`. -/
def pushFront (s : Slab P) (seg : Fin 3) (i : ℕ) : Slab P :=
  let list := s.lists seg
  let links := update s.links i
    { s.links i with prev := none, next := list.head, seg := some seg }
  { s with
    lists := update s.lists seg
      { head := some i
        tail := if list.tail = none then some i else list.tail
        cost := list.cost + s.costs i }
    links := setPrev links list.head (some i) }

/-- Takes the slot `i` out of the list it is in. Its `seg` field stays as it was. -/
def unlink (s : Slab P) (i : ℕ) : Slab P :=
  let l := s.links i
  match l.seg with
  | none => s
  | some seg =>
    let list := s.lists seg
    { s with
      links := setPrev (setNext s.links l.prev l.next) l.next l.prev
      lists := update s.lists seg
        { head := if l.prev = none then l.next else list.head
          tail := if l.next = none then l.prev else list.tail
          cost := list.cost - s.costs i } }

/-- Moves the slot `i` to the front of list `seg` unless it is there already. -/
def moveFront (s : Slab P) (seg : Fin 3) (i : ℕ) : Slab P :=
  if (s.lists seg).head ≠ some i ∨ (s.links i).seg ≠ some seg then
    (s.unlink i).pushFront seg i
  else
    s

/-- Changes the cost of the slot `i`, and that of the list it is in. -/
def setCost (s : Slab P) (i : ℕ) (cost : UInt64) : Slab P :=
  match (s.links i).seg with
  | none => s
  | some seg =>
    { s with
      costs := update s.costs i cost
      lists := update s.lists seg
        { s.lists seg with cost := (s.lists seg).cost - s.costs i + cost } }

/-- The slots of a list, from its tail along `prev`. -/
def fromTail (s : Slab P) (seg : Fin 3) : List ℕ :=
  walk (fun i => (s.links i).prev) s.size (s.lists seg).tail

/-- The slots of a list, from its head along `next`. -/
def fromHead (s : Slab P) (seg : Fin 3) : List ℕ :=
  walk (fun i => (s.links i).next) s.size (s.lists seg).head

/-- Drops every slot, generations included. -/
def clear (_ : Slab P) : Slab P := new

/-! ### What the slab represents -/

/-- The slab holds the ordered lists `q` (front first) and the free stack, and no slot
is in two places. `det` is the slot an operation has taken out of its list, or just
allocated, and not yet put anywhere. -/
structure Repr (s : Slab P) (q : Fin 3 → List ℕ) (det : Option ℕ) : Prop where
  nodup : ∀ a, (q a).Nodup
  mem_iff : ∀ a i, i ∈ q a ↔ i < s.size ∧ (s.links i).seg = some a ∧ det ≠ some i
  linked : ∀ a, Linked (fun i => (s.links i).prev) (fun i => (s.links i).next) (q a)
  head : ∀ a, (s.lists a).head = (q a).head?
  tail : ∀ a, (s.lists a).tail = (q a).getLast?
  cost : ∀ a, (s.lists a).cost = ((q a).map s.costs).sum
  free_nodup : s.free.Nodup
  free_iff : ∀ i, i ∈ s.free ↔ i < s.size ∧ (s.links i).seg = none ∧ det ≠ some i
  det_lt : ∀ i, det = some i → i < s.size
  payload_isSome : ∀ i, (∃ a, i ∈ q a) ∨ det = some i → (s.payload i).isSome

/-- The same with any slots out of the lists, taken or just allocated. -/
structure Parts (s : Slab P) (q : Fin 3 → List ℕ) (out : Set ℕ) : Prop where
  nodup : ∀ a, (q a).Nodup
  mem_iff : ∀ a i, i ∈ q a ↔ i < s.size ∧ (s.links i).seg = some a ∧ i ∉ out
  linked : ∀ a, Linked (fun i => (s.links i).prev) (fun i => (s.links i).next) (q a)
  head : ∀ a, (s.lists a).head = (q a).head?
  tail : ∀ a, (s.lists a).tail = (q a).getLast?
  cost : ∀ a, (s.lists a).cost = ((q a).map s.costs).sum
  free_nodup : s.free.Nodup
  free_iff : ∀ i, i ∈ s.free ↔ i < s.size ∧ (s.links i).seg = none ∧ i ∉ out
  out_lt : ∀ i ∈ out, i < s.size
  payload_isSome : ∀ i, (∃ a, i ∈ q a) ∨ i ∈ out → (s.payload i).isSome

variable {s : Slab P} {q : Fin 3 → List ℕ} {det : Option ℕ} {out : Set ℕ} {a b : Fin 3} {i j : ℕ}
  {p : P} {c : UInt64}

theorem repr_iff_parts : s.Repr q det ↔ s.Parts q {i | det = some i} :=
  ⟨fun h => ⟨h.nodup, h.mem_iff, h.linked, h.head, h.tail, h.cost, h.free_nodup, h.free_iff, h.det_lt,
    h.payload_isSome⟩, fun h => ⟨h.nodup, h.mem_iff, h.linked, h.head, h.tail, h.cost, h.free_nodup,
    h.free_iff, h.out_lt, h.payload_isSome⟩⟩

theorem repr_none_iff : s.Repr q none ↔ s.Parts q ∅ := by
  rw [repr_iff_parts]
  simp

theorem repr_some_iff : s.Repr q (some i) ↔ s.Parts q {i} := by
  rw [repr_iff_parts]
  simp

theorem repr_new : (new : Slab P).Repr (fun _ => []) none where
  nodup _ := nodup_nil
  mem_iff _ _ := by simp [new]
  linked _ := linked_nil
  head _ := rfl
  tail _ := rfl
  cost _ := rfl
  free_nodup := nodup_nil
  free_iff _ := by simp [new]
  det_lt _ h := by simp at h
  payload_isSome _ h := by simp at h

theorem alloc_of_nil (hf : s.free = []) :
    s.alloc p c = (s.size, { s with
      links := update s.links s.size ⟨none, none, none, 0⟩
      payload := update s.payload s.size (some p)
      costs := update s.costs s.size c
      size := s.size + 1
      free := [] }) := by
  unfold alloc
  rw [hf]

theorem alloc_of_cons {rest : List ℕ} (hf : s.free = i :: rest) :
    s.alloc p c = (i, { s with
      payload := update s.payload i (some p)
      costs := update s.costs i c
      free := rest }) := by
  unfold alloc
  rw [hf]

theorem unlink_eq (hseg : (s.links i).seg = some a) :
    s.unlink i = { s with
      links := setPrev (setNext s.links (s.links i).prev (s.links i).next)
        (s.links i).next (s.links i).prev
      lists := update s.lists a
        { head := if (s.links i).prev = none then (s.links i).next else (s.lists a).head
          tail := if (s.links i).next = none then (s.links i).prev else (s.lists a).tail
          cost := (s.lists a).cost - s.costs i } } := by
  simp [unlink, hseg]

theorem setCost_eq (hseg : (s.links i).seg = some a) :
    s.setCost i c = { s with
      costs := update s.costs i c
      lists := update s.lists a
        { s.lists a with cost := (s.lists a).cost - s.costs i + c } } := by
  simp [setCost, hseg]

/-! ### Link updates, field by field -/

section SetLinks

variable {links : ℕ → Link} {at? v : Option ℕ}

@[simp] theorem setPrev_seg : (setPrev links at? v i).seg = (links i).seg := by
  cases at? with
  | none => rfl
  | some j => by_cases h : i = j <;> simp [setPrev, h]

@[simp] theorem setPrev_next : (setPrev links at? v i).next = (links i).next := by
  cases at? with
  | none => rfl
  | some j => by_cases h : i = j <;> simp [setPrev, h]

@[simp] theorem setPrev_generation :
    (setPrev links at? v i).generation = (links i).generation := by
  cases at? with
  | none => rfl
  | some j => by_cases h : i = j <;> simp [setPrev, h]

theorem setPrev_prev :
    (setPrev links at? v i).prev = if at? = some i then v else (links i).prev := by
  cases at? with
  | none => simp [setPrev]
  | some j =>
    by_cases h : i = j
    · simp [setPrev, h]
    · simp [setPrev, h, Ne.symm h]

@[simp] theorem setNext_seg : (setNext links at? v i).seg = (links i).seg := by
  cases at? with
  | none => rfl
  | some j => by_cases h : i = j <;> simp [setNext, h]

@[simp] theorem setNext_prev : (setNext links at? v i).prev = (links i).prev := by
  cases at? with
  | none => rfl
  | some j => by_cases h : i = j <;> simp [setNext, h]

@[simp] theorem setNext_generation :
    (setNext links at? v i).generation = (links i).generation := by
  cases at? with
  | none => rfl
  | some j => by_cases h : i = j <;> simp [setNext, h]

theorem setNext_next :
    (setNext links at? v i).next = if at? = some i then v else (links i).next := by
  cases at? with
  | none => simp [setNext]
  | some j =>
    by_cases h : i = j
    · simp [setNext, h]
    · simp [setNext, h, Ne.symm h]

end SetLinks

/-! ### Membership -/

namespace Parts

theorem lt_size (h : s.Parts q out) (hi : i ∈ q a) : i < s.size := ((h.mem_iff a i).mp hi).1

theorem seg_eq (h : s.Parts q out) (hi : i ∈ q a) : (s.links i).seg = some a :=
  ((h.mem_iff a i).mp hi).2.1

theorem notMem_out (h : s.Parts q out) (hi : i ∈ q a) : i ∉ out := ((h.mem_iff a i).mp hi).2.2

theorem seg_unique (h : s.Parts q out) (hi : i ∈ q a) (hj : i ∈ q b) : a = b :=
  Option.some.inj ((h.seg_eq hi).symm.trans (h.seg_eq hj))

theorem not_mem_free (h : s.Parts q out) (hi : i ∈ q a) : i ∉ s.free := by
  intro hf
  have := ((h.free_iff i).mp hf).2.1
  rw [h.seg_eq hi] at this
  simp at this

theorem length_le (h : s.Parts q out) (a : Fin 3) : (q a).length ≤ s.size := by
  have hsub : q a ⊆ List.range s.size := fun i hi => by simpa using h.lt_size hi
  simpa using (subperm_of_subset (h.nodup a) hsub).length_le

theorem fromTail_eq (h : s.Parts q out) (a : Fin 3) : s.fromTail a = (q a).reverse := by
  rw [fromTail, h.tail]
  exact (h.linked a).walk_prev (h.length_le a)

theorem fromHead_eq (h : s.Parts q out) (a : Fin 3) : s.fromHead a = q a := by
  rw [fromHead, h.head]
  exact (h.linked a).walk_next (h.length_le a)

/-! ### The operations on the lists -/

theorem alloc (h : s.Parts q out) : (s.alloc p c).2.Parts q (insert (s.alloc p c).1 out) := by
  cases hf : s.free with
  | nil =>
    rw [alloc_of_nil hf]
    -- a new slot at the end: no list mentions it
    have hne : ∀ a, ∀ j ∈ q a, j ≠ s.size := fun a j hj => (h.lt_size hj).ne
    refine ⟨h.nodup, ?_, ?_, h.head, h.tail, ?_, by simp, ?_, ?_, ?_⟩
    · intro a j
      rw [h.mem_iff]
      by_cases hj : j = s.size
      · simp [hj]
      · simp only [update_of_ne hj]
        grind
    · intro a
      refine (h.linked a).congr ?_ ?_ <;> intro j hj <;> simp [hne a j hj]
    · intro a
      rw [h.cost a]
      congr 1
      refine map_congr_left ?_
      intro j hj
      simp [hne a j hj]
    · intro j
      have hj' := h.free_iff j
      by_cases hj : j = s.size
      · simp [hj]
      · simp only [hf, not_mem_nil, false_iff] at hj' ⊢
        simp only [update_of_ne hj]
        grind
    · rintro j (rfl | hj)
      · exact Nat.lt_succ_self _
      · exact (h.out_lt j hj).trans (Nat.lt_succ_self _)
    · rintro j (⟨a, ha⟩ | rfl | hj)
      · simp only [update_of_ne (hne a j ha)]
        exact h.payload_isSome j (.inl ⟨a, ha⟩)
      · simp
      · simp only [update_of_ne (h.out_lt j hj).ne]
        exact h.payload_isSome j (.inr hj)
  | cons i rest =>
    rw [alloc_of_cons hf]
    have hi := (h.free_iff i).mp (by simp [hf])
    have hne : ∀ a, ∀ j ∈ q a, j ≠ i := by
      rintro a j hj rfl
      exact h.not_mem_free hj (by simp [hf])
    have hnd := h.free_nodup
    rw [hf] at hnd
    refine ⟨h.nodup, ?_, h.linked, h.head, h.tail, ?_, hnd.of_cons, ?_, ?_, ?_⟩
    · intro a j
      rw [h.mem_iff]
      by_cases hj : j = i
      · simp [hj, hi.2.1]
      · simp [hj]
    · intro a
      rw [h.cost a]
      congr 1
      refine map_congr_left ?_
      intro j hj
      simp [hne a j hj]
    · intro j
      have hj' := h.free_iff j
      rw [hf] at hj'
      by_cases hj : j = i
      · simp [hj, (nodup_cons.mp hnd).1]
      · simp only [mem_cons, hj, false_or] at hj'
        simp [hj', hj]
    · rintro j (rfl | hj)
      · exact hi.1
      · exact h.out_lt j hj
    · rintro j (⟨a, ha⟩ | rfl | hj)
      · simp only [update_of_ne (hne a j ha)]
        exact h.payload_isSome j (.inl ⟨a, ha⟩)
      · simp
      · have hji : j ≠ i := fun hji => hi.2.2 (hji ▸ hj)
        simp only [update_of_ne hji]
        exact h.payload_isSome j (.inr hj)

theorem pushFront (h : s.Parts q out) (hout : i ∈ out) (b : Fin 3) :
    (s.pushFront b i).Parts (update q b (i :: q b)) (out \ {i}) := by
  have hni : ∀ a, i ∉ q a := fun a hi => h.notMem_out hi hout
  have hhead : ∀ a, (q b).head? ≠ some i ∧ ∀ j ∈ q a, a ≠ b → (q b).head? ≠ some j := by
    intro a
    refine ⟨fun hh => hni b (mem_of_head? hh), ?_⟩
    intro j hj hab hh
    exact hab (h.seg_unique hj (mem_of_head? hh))
  unfold Slab.pushFront
  refine ⟨?_, ?_, ?_, ?_, ?_, ?_, h.free_nodup, ?_, fun j hj => h.out_lt j hj.1, ?_⟩
  · intro a
    by_cases hab : a = b
    · subst hab
      simpa using ⟨hni a, h.nodup a⟩
    · simpa [update_of_ne hab] using h.nodup a
  · intro a j
    simp only [setPrev_seg]
    by_cases hj : j = i
    · subst hj
      by_cases hab : a = b
      · subst hab
        simp [h.out_lt j hout]
      · simp [update_of_ne hab, hni a, Ne.symm hab]
    · rw [update_of_ne hj]
      by_cases hab : a = b
      · subst hab
        simp [hj, h.mem_iff]
      · simp [update_of_ne hab, h.mem_iff, hj]
  · intro a
    by_cases hab : a = b
    · subst hab
      rw [update_self]
      refine (h.linked a).cons (hni a) ?_ ?_ ?_ ?_ ?_
      · simp [setPrev_prev, h.head, (hhead a).1]
      · simp [h.head]
      · intro z hz
        simp [setPrev_prev, h.head, hz]
      · intro z hz hne
        have hzi : z ≠ i := by rintro rfl; exact hni a hz
        simp [setPrev_prev, h.head, hne, update_of_ne hzi]
      · intro z hz
        have hzi : z ≠ i := by rintro rfl; exact hni a hz
        simp [update_of_ne hzi]
    · rw [update_of_ne hab]
      refine (h.linked a).congr ?_ ?_ <;> intro z hz
      · have hzi : z ≠ i := by rintro rfl; exact hni a hz
        simp [setPrev_prev, h.head, (hhead a).2 z hz hab, update_of_ne hzi]
      · have hzi : z ≠ i := by rintro rfl; exact hni a hz
        simp [update_of_ne hzi]
  · intro a
    by_cases hab : a = b
    · subst hab; simp
    · simp [update_of_ne hab, h.head]
  · intro a
    by_cases hab : a = b
    · subst hab
      simp only [update_self, h.tail, List.getLast?_eq_none_iff]
      cases hq : q a with
      | nil => simp
      | cons x xs => simp [List.getLast?_cons_cons]
    · simp [update_of_ne hab, h.tail]
  · intro a
    by_cases hab : a = b
    · subst hab
      simp [h.cost a, add_comm]
    · simp [update_of_ne hab, h.cost]
  · intro j
    simp only [setPrev_seg]
    by_cases hj : j = i
    · subst hj
      simp [h.free_iff, hout]
    · simp [h.free_iff, hj]
  · rintro j (⟨a, ha⟩ | hj)
    · by_cases hji : j = i
      · exact h.payload_isSome j (.inr (hji ▸ hout))
      · refine h.payload_isSome j (.inl ⟨a, ?_⟩)
        by_cases hab : a = b
        · subst hab
          simpa [hji] using ha
        · simpa [update_of_ne hab] using ha
    · exact h.payload_isSome j (.inr hj.1)

theorem unlink (h : s.Parts q out) (hi : i ∈ q a) :
    (s.unlink i).Parts (update q a ((q a).erase i)) (insert i out) := by
  obtain ⟨l, r, hq⟩ := append_of_mem hi
  have hnd : (l ++ i :: r).Nodup := hq ▸ h.nodup a
  have hil : i ∉ l := fun hl => (nodup_append.mp hnd).2.2 i hl i (by simp) rfl
  have hir : i ∉ r := (nodup_cons.mp (nodup_append.mp hnd).2.1).1
  have herase : (q a).erase i = l ++ r := by
    rw [hq, erase_append_right _ hil, erase_cons_head]
  have hlink : Linked (fun i => (s.links i).prev) (fun i => (s.links i).next) (l ++ i :: r) :=
    hq ▸ h.linked a
  have hprev : (s.links i).prev = l.getLast? := hlink.prev_eq
  have hnext : (s.links i).next = r.head? := hlink.next_eq
  -- the neighbours are members of the same list, so the other lists keep their links
  have hother : ∀ b, b ≠ a → ∀ z ∈ q b, l.getLast? ≠ some z ∧ r.head? ≠ some z := by
    intro b hb z hz
    have hza : z ∉ q a := fun hza => hb (h.seg_unique hz hza)
    rw [hq] at hza
    exact ⟨fun hl => hza (by simp [mem_of_getLast? hl]),
      fun hr => hza (by simp [mem_of_head? hr])⟩
  rw [unlink_eq (h.seg_eq hi), hprev, hnext, herase]
  refine ⟨?_, ?_, ?_, ?_, ?_, ?_, h.free_nodup, ?_, ?_, ?_⟩
  · intro b
    by_cases hb : b = a
    · subst hb
      simpa using hnd.sublist (by simp)
    · simpa [update_of_ne hb] using h.nodup b
  · intro b j
    simp only [setPrev_seg, setNext_seg]
    by_cases hb : b = a
    · subst hb
      have hj := h.mem_iff b j
      rw [hq] at hj
      rw [update_self]
      grind
    · rw [update_of_ne hb, h.mem_iff]
      have hseg := h.seg_eq hi
      grind
  · intro b
    by_cases hb : b = a
    · subst hb
      rw [update_self]
      refine hlink.splice hnd ?_ ?_ ?_ ?_
      · intro z hz
        simp [setNext_next, hz]
      · intro z hz
        simp [setPrev_prev, hz]
      · intro z _ hz
        simp [setPrev_prev, hz]
      · intro z _ hz
        simp [setNext_next, hz]
    · rw [update_of_ne hb]
      refine (h.linked b).congr ?_ ?_ <;> intro z hz
      · simp [setPrev_prev, (hother b hb z hz).2]
      · simp [setNext_next, (hother b hb z hz).1]
  · intro b
    by_cases hb : b = a
    · subst hb
      cases l with
      | nil => simp
      | cons x l => simp [h.head, hq]
    · simp [update_of_ne hb, h.head]
  · intro b
    by_cases hb : b = a
    · subst hb
      cases r with
      | nil => simp
      | cons x r => simp [h.tail, hq, List.getLast?_append, List.getLast?_cons]
    · simp [update_of_ne hb, h.tail]
  · intro b
    by_cases hb : b = a
    · subst hb
      simp only [update_self, h.cost, hq, map_append, map_cons,
        sum_append, sum_cons]
      abel
    · simp [update_of_ne hb, h.cost]
  · intro j
    have hj := h.free_iff j
    simp only [setPrev_seg, setNext_seg]
    have hseg := h.seg_eq hi
    grind
  · rintro j (rfl | hj)
    · exact h.lt_size hi
    · exact h.out_lt j hj
  · rintro j (⟨b, hb⟩ | rfl | hj)
    · refine h.payload_isSome j (.inl ⟨b, ?_⟩)
      by_cases hba : b = a
      · subst hba
        rw [update_self] at hb
        rw [hq]
        grind
      · simpa [update_of_ne hba] using hb
    · exact h.payload_isSome j (.inl ⟨a, hi⟩)
    · exact h.payload_isSome j (.inr hj)

theorem release (h : s.Parts q out) (hout : i ∈ out) : (s.release i).2.Parts q (out \ {i}) := by
  have hne : ∀ a, ∀ j ∈ q a, j ≠ i := by
    rintro a j hj rfl
    exact h.notMem_out hj hout
  unfold Slab.release
  refine ⟨h.nodup, ?_, ?_, h.head, h.tail, h.cost, ?_, ?_, fun j hj => h.out_lt j hj.1, ?_⟩
  · intro a j
    rw [h.mem_iff]
    by_cases hj : j = i
    · simp [hj, hout]
    · simp [hj]
  · intro a
    refine (h.linked a).congr ?_ ?_ <;> intro j hj <;> simp [hne a j hj]
  · refine nodup_cons.mpr ⟨?_, h.free_nodup⟩
    simp [h.free_iff, hout]
  · intro j
    by_cases hj : j = i
    · subst hj
      simp [h.out_lt j hout]
    · simp [hj, h.free_iff]
  · rintro j (⟨a, ha⟩ | hj)
    · simp only [update_of_ne (hne a j ha)]
      exact h.payload_isSome j (.inl ⟨a, ha⟩)
    · simp only [update_of_ne hj.2]
      exact h.payload_isSome j (.inr hj.1)

theorem setCost (h : s.Parts q out) (hi : i ∈ q a) : (s.setCost i c).Parts q out := by
  rw [setCost_eq (h.seg_eq hi)]
  refine ⟨h.nodup, h.mem_iff, h.linked, ?_, ?_, ?_, h.free_nodup, h.free_iff, h.out_lt,
    h.payload_isSome⟩
  · intro b
    by_cases hb : b = a
    · subst hb; simp [h.head]
    · simp [update_of_ne hb, h.head]
  · intro b
    by_cases hb : b = a
    · subst hb; simp [h.tail]
    · simp [update_of_ne hb, h.tail]
  · intro b
    by_cases hb : b = a
    · subst hb
      obtain ⟨l, r, hq⟩ := append_of_mem hi
      have hnd : (l ++ i :: r).Nodup := hq ▸ h.nodup b
      have hil : i ∉ l := fun hl => (nodup_append.mp hnd).2.2 i hl i (by simp) rfl
      have hir : i ∉ r := (nodup_cons.mp (nodup_append.mp hnd).2.1).1
      have hmap : ∀ xs : List ℕ, i ∉ xs →
          xs.map (update s.costs i c) = xs.map s.costs := by
        intro xs hxs
        refine map_congr_left ?_
        intro j hj
        rw [update_of_ne (by rintro rfl; exact hxs hj)]
      simp only [update_self, h.cost, hq, map_append, map_cons,
        sum_append, sum_cons, hmap l hil, hmap r hir]
      abel
    · have hib : i ∉ q b := fun hib => hb (h.seg_unique hib hi)
      simp only [update_of_ne hb, h.cost]
      congr 1
      refine map_congr_left ?_
      intro j hj
      rw [update_of_ne (by rintro rfl; exact hib hj)]

theorem moveFront (h : s.Parts q out) (hi : i ∈ q a) (b : Fin 3) :
    (s.moveFront b i).Parts (update (update q a ((q a).erase i)) b
      (i :: (q b).erase i)) out := by
  unfold Slab.moveFront
  split_ifs with hc
  · have h' := (h.unlink hi).pushFront (Set.mem_insert i out) b
    rw [Set.insert_sdiff_self_of_notMem (h.notMem_out hi)] at h'
    convert h' using 3
    by_cases hab : b = a
    · subst hab; simp
    · have hib : i ∉ q b := fun hib => hab (h.seg_unique hib hi)
      simp [update_of_ne hab, erase_of_not_mem hib]
  · -- already at the front of the list it is in: the lists are unchanged
    push Not at hc
    obtain ⟨hhead, hseg⟩ := hc
    obtain rfl : a = b := Option.some.inj ((h.seg_eq hi).symm.trans hseg)
    rw [h.head] at hhead
    obtain ⟨xs, hxs⟩ := List.head?_eq_some_iff.mp hhead
    have heq : update (update q a ((q a).erase i)) a
        (i :: (q a).erase i) = q := by
      rw [update_idem]
      refine update_eq_self_iff.mpr ?_
      rw [hxs, erase_cons_head]
    rw [heq]
    exact h

end Parts

namespace Repr

theorem parts (h : s.Repr q none) : s.Parts q ∅ := repr_none_iff.mp h

theorem lt_size (h : s.Repr q none) (hi : i ∈ q a) : i < s.size := h.parts.lt_size hi

theorem seg_eq (h : s.Repr q none) (hi : i ∈ q a) : (s.links i).seg = some a := h.parts.seg_eq hi

theorem seg_unique (h : s.Repr q none) (hi : i ∈ q a) (hj : i ∈ q b) : a = b :=
  h.parts.seg_unique hi hj

theorem length_le (h : s.Repr q none) (a : Fin 3) : (q a).length ≤ s.size := h.parts.length_le a

theorem fromTail_eq (h : s.Repr q none) (a : Fin 3) : s.fromTail a = (q a).reverse :=
  h.parts.fromTail_eq a

theorem det_not_mem (h : s.Repr q (some i)) : i ∉ q a := fun hi =>
  (repr_some_iff.mp h).notMem_out hi rfl

/-- With nothing detached, a node id resolves exactly to the member it names. -/
theorem resolve_eq_some (h : s.Repr q none) {node : NodeId} :
    s.resolve node = some i ↔ (∃ a, i ∈ q a) ∧ node = s.id i := by
  unfold resolve id
  constructor
  · intro hr
    split_ifs at hr with hc
    obtain ⟨hlt, hseg, hgen⟩ := hc
    obtain rfl : node.slot = i := by simpa using hr
    obtain ⟨a, ha⟩ := Option.ne_none_iff_exists'.mp hseg
    exact ⟨⟨a, (h.mem_iff a _).mpr ⟨hlt, ha, by simp⟩⟩, by simp [hgen]⟩
  · rintro ⟨⟨a, ha⟩, rfl⟩
    have hlt := h.lt_size ha
    have hseg := h.seg_eq ha
    simp [hlt, hseg]

theorem resolve_id (h : s.Repr q none) (hi : i ∈ q a) : s.resolve (s.id i) = some i :=
  h.resolve_eq_some.mpr ⟨⟨a, hi⟩, rfl⟩

theorem alloc (h : s.Repr q none) : (s.alloc p c).2.Repr q (some (s.alloc p c).1) := by
  simpa [repr_some_iff] using h.parts.alloc (p := p) (c := c)

theorem pushFront (h : s.Repr q (some i)) (b : Fin 3) :
    (s.pushFront b i).Repr (update q b (i :: q b)) none := by
  simpa [repr_none_iff] using (repr_some_iff.mp h).pushFront rfl b

theorem unlink (h : s.Repr q none) (hi : i ∈ q a) :
    (s.unlink i).Repr (update q a ((q a).erase i)) (some i) := by
  simpa [repr_some_iff] using h.parts.unlink hi

theorem release (h : s.Repr q (some i)) : (s.release i).2.Repr q none := by
  simpa [repr_none_iff] using (repr_some_iff.mp h).release rfl

theorem setCost (h : s.Repr q none) (hi : i ∈ q a) : (s.setCost i c).Repr q none :=
  repr_none_iff.mpr (h.parts.setCost hi)

theorem moveFront (h : s.Repr q none) (hi : i ∈ q a) (b : Fin 3) :
    (s.moveFront b i).Repr (update (update q a ((q a).erase i)) b
      (i :: (q b).erase i)) none :=
  repr_none_iff.mpr (h.parts.moveFront hi b)

end Repr

/-! ### Requeueing and freeing -/

namespace Repr

theorem id_eq_iff (h : s.Repr q none) {node : NodeId} (hr : s.resolve node = some i) :
    s.id j = node ↔ j = i := by
  obtain ⟨-, rfl⟩ := h.resolve_eq_some.mp hr
  simp only [Slab.id, NodeId.mk.injEq]
  exact ⟨And.right, by rintro rfl; exact ⟨rfl, rfl⟩⟩

theorem id_ne (h : s.Repr q none) {node : NodeId} (hr : s.resolve node = none) (hj : j ∈ q a) :
    s.id j ≠ node := by
  rintro rfl
  simp [h.resolve_id hj] at hr

theorem filter_other (h : s.Repr q none) (hi : i ∈ q a) (hb : b ≠ a) :
    (q b).filter (· ≠ i) = q b := by
  refine filter_eq_self.mpr ?_
  intro j hj
  simp only [decide_not, Bool.not_eq_true', decide_eq_false_iff_not]
  rintro rfl
  exact hb (h.seg_unique hj hi)

/-- Taking a member out leaves the other members of every list in order. -/
theorem erase_eq_filter (h : s.Repr q none) (hi : i ∈ q a) :
    update q a ((q a).erase i) = fun b => (q b).filter (· ≠ i) := by
  funext b
  by_cases hb : b = a
  · subst hb
    rw [update_self, (h.nodup b).erase_eq_filter]
    refine filter_congr ?_
    intro j _
    by_cases hj : j = i <;> simp [hj]
  · rw [update_of_ne hb, h.filter_other hi hb]

theorem tail_split (h : s.Repr q none) (ht : (s.lists a).tail = some i) :
    i ∈ q a ∧ (q a).reverse = i :: ((q a).filter (· ≠ i)).reverse := by
  rw [h.tail] at ht
  obtain ⟨l, hl⟩ := List.getLast?_eq_some_iff.mp ht
  have hnd := h.nodup a
  rw [hl] at hnd
  have hil : ∀ j ∈ l, j ≠ i := by
    rintro j hj rfl
    exact (nodup_append.mp hnd).2.2 j hj j (by simp) rfl
  have hfilter : l.filter (· ≠ i) = l := filter_eq_self.mpr (by simpa using hil)
  rw [hl]
  refine ⟨by simp, ?_⟩
  rw [filter_append, hfilter]
  simp

theorem requeue (h : s.Repr q none) (hi : i ∈ q a) (b : Fin 3) :
    ((s.unlink i).pushFront b i).Repr (update (update q a ((q a).erase i)) b
      (i :: update q a ((q a).erase i) b)) none :=
  (h.unlink hi).pushFront b

theorem free (h : s.Repr q none) (hi : i ∈ q a) :
    ((s.unlink i).release i).2.Repr (update q a ((q a).erase i)) none :=
  (h.unlink hi).release

theorem allocFront (h : s.Repr q none) (b : Fin 3) :
    ((s.alloc p c).2.pushFront b (s.alloc p c).1).Repr
      (update q b ((s.alloc p c).1 :: q b)) none :=
  h.alloc.pushFront b

theorem alloc_fresh (h : s.Repr q none) (hi : i ∈ q a) : i ≠ (s.alloc p c).1 := by
  rintro rfl
  exact (h.alloc (p := p) (c := c)).det_not_mem hi

end Repr

/-! ### What the operations leave alone -/

section Frame

@[simp] theorem unlink_costs : (s.unlink i).costs = s.costs := by
  unfold unlink; cases h : (s.links i).seg <;> simp [h]

@[simp] theorem unlink_payload : (s.unlink i).payload = s.payload := by
  unfold unlink; cases h : (s.links i).seg <;> simp [h]

@[simp] theorem unlink_size : (s.unlink i).size = s.size := by
  unfold unlink; cases h : (s.links i).seg <;> simp [h]

theorem unlink_lists_of_ne (hseg : (s.links i).seg = some a) (h : b ≠ a) :
    (s.unlink i).lists b = s.lists b := by
  simp [unlink_eq hseg, h]

@[simp] theorem unlink_id : (s.unlink i).id j = s.id j := by
  unfold unlink id; cases h : (s.links i).seg <;> simp [h]

@[simp] theorem pushFront_costs : (s.pushFront b i).costs = s.costs := rfl

@[simp] theorem pushFront_payload : (s.pushFront b i).payload = s.payload := rfl

@[simp] theorem pushFront_size : (s.pushFront b i).size = s.size := rfl

@[simp] theorem pushFront_id : (s.pushFront b i).id j = s.id j := by
  unfold pushFront id
  by_cases h : j = i <;> simp [h]

@[simp] theorem release_costs : (s.release i).2.costs = s.costs := rfl

@[simp] theorem release_size : (s.release i).2.size = s.size := rfl

@[simp] theorem release_fst : (s.release i).1 = s.payload i := rfl

theorem release_payload_of_ne (h : j ≠ i) : (s.release i).2.payload j = s.payload j := by
  simp [release, h]

theorem release_id_of_ne (h : j ≠ i) : (s.release i).2.id j = s.id j := by
  simp [release, id, h]

@[simp] theorem setCost_size : (s.setCost i c).size = s.size := by
  unfold setCost; cases (s.links i).seg <;> simp

@[simp] theorem setCost_id : (s.setCost i c).id j = s.id j := by
  unfold setCost id; cases (s.links i).seg <;> simp

theorem alloc_payload_self : (s.alloc p c).2.payload (s.alloc p c).1 = some p := by
  cases hf : s.free with
  | nil => simp [alloc_of_nil hf]
  | cons i rest => simp [alloc_of_cons hf]

theorem alloc_costs_self : (s.alloc p c).2.costs (s.alloc p c).1 = c := by
  cases hf : s.free with
  | nil => simp [alloc_of_nil hf]
  | cons i rest => simp [alloc_of_cons hf]

theorem alloc_payload_of_ne (h : j ≠ (s.alloc p c).1) :
    (s.alloc p c).2.payload j = s.payload j := by
  cases hf : s.free with
  | nil => simp_all [alloc_of_nil hf]
  | cons i rest => simp_all [alloc_of_cons hf]

theorem alloc_costs_of_ne (h : j ≠ (s.alloc p c).1) :
    (s.alloc p c).2.costs j = s.costs j := by
  cases hf : s.free with
  | nil => simp_all [alloc_of_nil hf]
  | cons i rest => simp_all [alloc_of_cons hf]

theorem alloc_id_of_ne (h : j ≠ (s.alloc p c).1) : (s.alloc p c).2.id j = s.id j := by
  cases hf : s.free with
  | nil => simp_all [alloc_of_nil hf, id]
  | cons i rest => simp_all [alloc_of_cons hf, id]

@[simp] theorem moveFront_costs : (s.moveFront b i).costs = s.costs := by
  unfold moveFront; split_ifs <;> simp

@[simp] theorem moveFront_payload : (s.moveFront b i).payload = s.payload := by
  unfold moveFront; split_ifs <;> simp

@[simp] theorem moveFront_size : (s.moveFront b i).size = s.size := by
  unfold moveFront; split_ifs <;> simp

@[simp] theorem moveFront_id : (s.moveFront b i).id j = s.id j := by
  unfold moveFront; split_ifs <;> simp

end Frame

end Slab

end Fibre.Cache
