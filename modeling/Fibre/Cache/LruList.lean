import Mathlib.Data.List.AList
import Fibre.Math.DoublyLinked
import Fibre.Cache.TinyQueue

/-!
# LRU lists

The cost-based LRU list of the key policies: nodes in an arena, linked both ways, and a map
from each key to its node. The arena hands out an index that no live node has, so an index is
a counter here.
-/

namespace Fibre.Cache

open CostQueue DoublyLinked Word Function List

structure LruNode (K : Type*) where
  key : K
  cost : UInt64
  next : Option ℕ
  prev : Option ℕ

/-- A cost-based LRU list. The head is the most recently used node. -/
structure LruList (K : Type*) where
  nodes : ℕ → Option (LruNode K)
  nextIndex : ℕ
  lookup : AList fun _ : K => ℕ
  head : Option ℕ
  tail : Option ℕ
  currentCost : UInt64

namespace LruList

variable {K : Type*}

def new : LruList K where
  nodes _ := none
  nextIndex := 0
  lookup := ∅
  head := none
  tail := none
  currentCost := 0

/-- Changes a node of the arena. -/
def modify (l : LruList K) (i : ℕ) (f : LruNode K → LruNode K) : LruList K :=
  { l with nodes := update l.nodes i ((l.nodes i).map f) }

/-- Takes a node out of the chain; it stays in the arena and in the map. -/
def unlink (l : LruList K) (i : ℕ) : LruList K :=
  match l.nodes i with
  | none => l
  | some node =>
    let l := match node.prev with
      | some p => l.modify p fun n => { n with next := node.next }
      | none => { l with head := node.next }
    match node.next with
    | some x => l.modify x fun n => { n with prev := node.prev }
    | none => { l with tail := node.prev }

def pushFrontNode (l : LruList K) (i : ℕ) : LruList K :=
  let old := l.head
  let l := { l.modify i fun n => { n with next := old, prev := none } with head := some i }
  let l : LruList K := match old with
    | some h => l.modify h fun n => { n with prev := some i }
    | none => l
  { l with tail := if l.tail = none then some i else l.tail }

/-- Sets a node's cost and makes it the head. -/
def touchIndex (l : LruList K) (i : ℕ) (cost : UInt64) : LruList K :=
  match l.nodes i with
  | none => l
  | some node =>
    let l := { l with currentCost := satSub l.currentCost node.cost + cost }
    let l := l.modify i fun n => { n with cost := cost }
    if l.head ≠ some i then (l.unlink i).pushFrontNode i else l

/-- Forgets everything. The arena's counter is not reset, as no index is handed out twice. -/
def clear (l : LruList K) : LruList K :=
  { l with nodes := fun _ => none, lookup := ∅, head := none, tail := none, currentCost := 0 }

section Keys

variable [DecidableEq K]

def contains (l : LruList K) (key : K) : Bool := (l.lookup.lookup key).isSome

/-- Inserts a key that is not in the list at the front. -/
def pushNew (l : LruList K) (key : K) (cost : UInt64) : LruList K :=
  let i := l.nextIndex
  { l with
    nodes := update l.nodes i (some ⟨key, cost, none, none⟩)
    nextIndex := i + 1
    lookup := l.lookup.insert key i
    currentCost := l.currentCost + cost : LruList K }.pushFrontNode i

/-- Makes `key` the head, with `cost`, inserting it if need be. -/
def pushFront (l : LruList K) (key : K) (cost : UInt64) : LruList K :=
  match l.lookup.lookup key with
  | some i => l.touchIndex i cost
  | none => l.pushNew key cost

/-- Makes `key` the head, with the cost it has. -/
def moveToFront (l : LruList K) (key : K) : LruList K :=
  match l.lookup.lookup key with
  | none => l
  | some i => if l.head ≠ some i then (l.unlink i).pushFrontNode i else l

/-- Removes `key`; returns its cost if it was in the list. -/
def remove (l : LruList K) (key : K) : Option UInt64 × LruList K :=
  match l.lookup.lookup key with
  | none => (none, l)
  | some i =>
    let l := { l with lookup := l.lookup.erase key : LruList K }.unlink i
    match l.nodes i with
    -- the source expects the node to be in the arena
    | none => (none, l)
    | some node =>
      (some node.cost, { l with
        nodes := update l.nodes i none
        currentCost := satSub l.currentCost node.cost })

def popBack (l : LruList K) : Option ((K × UInt64) × LruList K) :=
  match l.tail.bind l.nodes with
  | none => none
  | some node => some ((node.key, node.cost), (l.remove node.key).2)

end Keys

/-- The keys and costs, from the tail along `prev`. -/
def fromTail (l : LruList K) : List (K × UInt64) :=
  (walk (fun i => (l.nodes i).bind (·.prev)) l.lookup.keys.length l.tail).filterMap fun i =>
    (l.nodes i).map fun n => (n.key, n.cost)

/-! ### The chain -/

def prevOf (l : LruList K) (i : ℕ) : Option ℕ := (l.nodes i).bind (·.prev)

def nextOf (l : LruList K) (i : ℕ) : Option ℕ := (l.nodes i).bind (·.next)

/-- A node without its links. -/
def content (l : LruList K) (i : ℕ) : Option (K × UInt64) := (l.nodes i).map fun n => (n.key, n.cost)

/-- The nodes `xs` are linked in this order, head first. -/
structure Chain (l : LruList K) (xs : List ℕ) : Prop where
  nodup : xs.Nodup
  isSome : ∀ i ∈ xs, (l.nodes i).isSome
  linked : Linked l.prevOf l.nextOf xs
  head : l.head = xs.head?
  tail : l.tail = xs.getLast?

variable {l : LruList K} {i j : ℕ} {xs a b : List ℕ}

theorem nodes_modify (l : LruList K) (i : ℕ) (f : LruNode K → LruNode K) (j : ℕ) :
    (l.modify i f).nodes j = if j = i then (l.nodes j).map f else l.nodes j := by
  unfold modify
  split_ifs with h
  · subst h
    exact update_self _ _ _
  · exact update_of_ne h _ _

theorem content_modify (l : LruList K) (i : ℕ) {f : LruNode K → LruNode K}
    (hf : ∀ n, (f n).key = n.key ∧ (f n).cost = n.cost) (j : ℕ) :
    (l.modify i f).content j = l.content j := by
  rw [content, content, nodes_modify]
  split_ifs
  · rw [Option.map_map]
    exact Option.map_congr fun n _ => by simp [hf n]
  · rfl

theorem setPrev_spec (l : LruList K) (i : ℕ) (v : Option ℕ) :
    (∀ j, (l.modify i fun n => { n with prev := v }).content j = l.content j) ∧
      (∀ j, (l.modify i fun n => { n with prev := v }).nextOf j = l.nextOf j) ∧
      ∀ j, (l.nodes j).isSome → (l.modify i fun n => { n with prev := v }).prevOf j =
        if j = i then v else l.prevOf j := by
  refine ⟨l.content_modify i fun _ => ⟨rfl, rfl⟩, fun j => ?_, fun j hj => ?_⟩
  · rw [nextOf, nextOf, nodes_modify]
    split_ifs
    · cases l.nodes j <;> rfl
    · rfl
  · obtain ⟨n, hn⟩ := Option.isSome_iff_exists.mp hj
    rw [prevOf, prevOf, nodes_modify, hn]
    split_ifs <;> rfl

theorem setNext_spec (l : LruList K) (i : ℕ) (v : Option ℕ) :
    (∀ j, (l.modify i fun n => { n with next := v }).content j = l.content j) ∧
      (∀ j, (l.modify i fun n => { n with next := v }).prevOf j = l.prevOf j) ∧
      ∀ j, (l.nodes j).isSome → (l.modify i fun n => { n with next := v }).nextOf j =
        if j = i then v else l.nextOf j := by
  refine ⟨l.content_modify i fun _ => ⟨rfl, rfl⟩, fun j => ?_, fun j hj => ?_⟩
  · rw [prevOf, prevOf, nodes_modify]
    split_ifs
    · cases l.nodes j <;> rfl
    · rfl
  · obtain ⟨n, hn⟩ := Option.isSome_iff_exists.mp hj
    rw [nextOf, nextOf, nodes_modify, hn]
    split_ifs <;> rfl

theorem isSome_of_content {l' : LruList K} (h : l'.content j = l.content j) :
    (l'.nodes j).isSome = (l.nodes j).isSome := by
  have := congrArg Option.isSome h
  simpa [content] using this

theorem unlink_spec {node : LruNode K} (hn : l.nodes i = some node) :
    (∀ j, (l.unlink i).content j = l.content j) ∧
      (∀ j, (l.nodes j).isSome → (l.unlink i).nextOf j =
        if node.prev = some j then node.next else l.nextOf j) ∧
      (∀ j, (l.nodes j).isSome → (l.unlink i).prevOf j =
        if node.next = some j then node.prev else l.prevOf j) ∧
      (l.unlink i).head = (if node.prev = none then node.next else l.head) ∧
      (l.unlink i).tail = (if node.next = none then node.prev else l.tail) := by
  unfold unlink
  rw [hn]
  simp only
  cases hp : node.prev with
  | none =>
    cases hx : node.next with
    | none =>
      refine ⟨fun j => rfl, fun j _ => ?_, fun j _ => ?_, ?_, ?_⟩ <;> simp [nextOf, prevOf]
    | some x =>
      obtain ⟨hc, hnext, hprev⟩ := setPrev_spec { l with head := some x } x none
      refine ⟨hc, fun j _ => ?_, fun j hj => ?_, ?_, ?_⟩
      · rw [if_neg (by simp)]
        exact hnext j
      · rw [hprev j hj]
        simp [eq_comm, prevOf]
      · simp [modify]
      · simp [modify]
  | some p =>
    obtain ⟨hc, hprev, hnext⟩ := setNext_spec l p node.next
    cases hx : node.next with
    | none =>
      rw [hx] at hc hprev hnext
      refine ⟨hc, fun j hj => ?_, fun j _ => ?_, ?_, ?_⟩
      · have := hnext j hj
        simp only [nextOf, eq_comm, Option.some.injEq] at this ⊢
        exact this
      · rw [if_neg (by simp)]
        exact hprev j
      · simp [modify]
      · simp
    | some x =>
      rw [hx] at hc hprev hnext
      obtain ⟨hc', hnext', hprev'⟩ :=
        setPrev_spec (l.modify p fun n => { n with next := some x }) x (some p)
      refine ⟨fun j => (hc' j).trans (hc j), fun j hj => ?_, fun j hj => ?_, ?_, ?_⟩
      · rw [hnext' j, hnext j hj]
        simp [eq_comm]
      · rw [hprev' j ((isSome_of_content (hc j)).trans hj), hprev j]
        simp [eq_comm]
      · simp [modify]
      · simp [modify]

theorem pushFrontNode_spec (l : LruList K) (i : ℕ) (hi : l.head ≠ some i) :
    (∀ j, (l.pushFrontNode i).content j = l.content j) ∧
      (∀ j, (l.nodes j).isSome → (l.pushFrontNode i).nextOf j =
        if j = i then l.head else l.nextOf j) ∧
      (∀ j, (l.nodes j).isSome → (l.pushFrontNode i).prevOf j =
        if j = i then none else if l.head = some j then some i else l.prevOf j) ∧
      (l.pushFrontNode i).head = some i ∧
      (l.pushFrontNode i).tail = if l.tail = none then some i else l.tail := by
  have hcontent : ∀ j, (l.modify i fun n => { n with next := l.head, prev := none }).content j =
      l.content j := l.content_modify i fun _ => ⟨rfl, rfl⟩
  have hlinks : ∀ j, (l.nodes j).isSome →
      (l.modify i fun n => { n with next := l.head, prev := none }).nextOf j =
          (if j = i then l.head else l.nextOf j) ∧
        (l.modify i fun n => { n with next := l.head, prev := none }).prevOf j =
          if j = i then none else l.prevOf j := by
    intro j hj
    obtain ⟨n, hn⟩ := Option.isSome_iff_exists.mp hj
    rw [nextOf, nextOf, prevOf, prevOf, nodes_modify, hn]
    split_ifs <;> exact ⟨rfl, rfl⟩
  unfold pushFrontNode
  cases hh : l.head with
  | none =>
    rw [hh] at hcontent hlinks
    refine ⟨hcontent, fun j hj => (hlinks j hj).1, fun j hj => ?_, rfl, rfl⟩
    refine (hlinks j hj).2.trans ?_
    simp
  | some h =>
    rw [hh] at hcontent hlinks hi
    obtain ⟨hc, hnext, hprev⟩ := setPrev_spec
      { l.modify i fun n => { n with next := some h, prev := none } with head := some i } h (some i)
    refine ⟨fun j => (hc j).trans (hcontent j), fun j hj => (hnext j).trans (hlinks j hj).1,
      fun j hj => ?_, rfl, rfl⟩
    refine (hprev j ((isSome_of_content (hcontent j)).trans hj)).trans ?_
    have hold := (hlinks j hj).2
    by_cases hji : j = i
    · subst hji
      rw [if_neg (by simpa [eq_comm] using hi), if_pos rfl]
      exact hold.trans (if_pos rfl)
    · rw [if_neg hji] at hold ⊢
      by_cases hjh : j = h
      · rw [if_pos hjh, if_pos (by rw [hjh])]
      · rw [if_neg hjh, if_neg (by simpa [eq_comm] using hjh)]
        exact hold

namespace Chain

theorem unlink (h : l.Chain (a ++ i :: b)) : (l.unlink i).Chain (a ++ b) := by
  obtain ⟨node, hn⟩ := Option.isSome_iff_exists.mp (h.isSome i (by simp))
  have hp : node.prev = a.getLast? := by
    have := h.linked.prev_eq
    simpa [prevOf, hn] using this
  have hx : node.next = b.head? := by
    have := h.linked.next_eq
    simpa [nextOf, hn] using this
  obtain ⟨hc, hnext, hprev, hhead, htail⟩ := unlink_spec hn
  have hsome : ∀ j ∈ a ++ b, (l.nodes j).isSome := by
    intro j hj
    refine h.isSome j ?_
    rcases mem_append.mp hj with hj | hj <;> simp [hj]
  have hnd : (a ++ b).Nodup := h.nodup.sublist ((sublist_cons_self i b).append_left a)
  refine ⟨hnd, ?_, h.linked.splice h.nodup ?_ ?_ ?_ ?_, ?_, ?_⟩
  · intro j hj
    rw [isSome_of_content (hc j)]
    exact hsome j hj
  · intro z hz
    rw [hnext z (hsome z (by simp [mem_of_getLast? hz])), if_pos (hp.trans hz), hx]
  · intro z hz
    rw [hprev z (hsome z (by simp [mem_of_head? hz])), if_pos (hx.trans hz), hp]
  · intro z hz hne
    rw [hprev z (hsome z hz), if_neg (by rwa [hx])]
  · intro z hz hne
    rw [hnext z (hsome z hz), if_neg (by rwa [hp])]
  · rw [hhead, hp, hx, h.head]
    cases a with
    | nil => simp
    | cons x a => simp
  · rw [htail, hp, hx, h.tail]
    cases b with
    | nil => simp
    | cons x b => simp [List.getLast?_append, List.getLast?_cons]

theorem pushFrontNode (h : l.Chain xs) (hi : i ∉ xs) (hsome : (l.nodes i).isSome) :
    (l.pushFrontNode i).Chain (i :: xs) := by
  have hhead : l.head ≠ some i := by
    intro heq
    rw [h.head] at heq
    exact hi (mem_of_head? heq)
  obtain ⟨hc, hnext, hprev, hh, ht⟩ := pushFrontNode_spec l i hhead
  refine ⟨nodup_cons.mpr ⟨hi, h.nodup⟩, ?_, h.linked.cons hi ?_ ?_ ?_ ?_ ?_, hh, ?_⟩
  · intro j hj
    rw [isSome_of_content (hc j)]
    rcases mem_cons.mp hj with rfl | hj
    · exact hsome
    · exact h.isSome j hj
  · rw [hprev i hsome, if_pos rfl]
  · rw [hnext i hsome, if_pos rfl, h.head]
  · intro z hz
    have hmem := mem_of_head? hz
    have hne : z ≠ i := fun heq => hi (heq ▸ hmem)
    rw [hprev z (h.isSome z hmem), if_neg hne, if_pos (h.head.trans hz)]
  · intro z hz hne
    have hzi : z ≠ i := fun heq => hi (heq ▸ hz)
    rw [hprev z (h.isSome z hz), if_neg hzi, if_neg (by rwa [h.head])]
  · intro z hz
    have hzi : z ≠ i := fun heq => hi (heq ▸ hz)
    rw [hnext z (h.isSome z hz), if_neg hzi]
  · rw [ht, h.tail]
    cases xs with
    | nil => simp
    | cons x xs => simp [List.getLast?_cons]

end Chain

/-! ### The entries -/

theorem unlink_frame (l : LruList K) (i : ℕ) :
    (l.unlink i).lookup = l.lookup ∧ (l.unlink i).nextIndex = l.nextIndex ∧
      (l.unlink i).currentCost = l.currentCost := by
  unfold unlink
  cases l.nodes i with
  | none => exact ⟨rfl, rfl, rfl⟩
  | some node =>
    simp only
    cases node.prev <;> cases node.next <;> exact ⟨rfl, rfl, rfl⟩

theorem pushFrontNode_frame (l : LruList K) (i : ℕ) :
    (l.pushFrontNode i).lookup = l.lookup ∧ (l.pushFrontNode i).nextIndex = l.nextIndex ∧
      (l.pushFrontNode i).currentCost = l.currentCost := by
  unfold pushFrontNode
  cases l.head <;> exact ⟨rfl, rfl, rfl⟩

theorem Chain.congr {l' : LruList K} (h : l.Chain xs) (hn : ∀ i ∈ xs, l'.nodes i = l.nodes i)
    (hh : l'.head = l.head) (ht : l'.tail = l.tail) : l'.Chain xs := by
  refine ⟨h.nodup, ?_, h.linked.congr ?_ ?_, hh.trans h.head, ht.trans h.tail⟩
  · intro i hi
    rw [hn i hi]
    exact h.isSome i hi
  · intro i hi
    rw [prevOf, prevOf, hn i hi]
  · intro i hi
    rw [nextOf, nextOf, hn i hi]

theorem Chain.toHead (h : l.Chain (a ++ i :: b)) {l' : LruList K}
    (hl' : l' = if l.head ≠ some i then (l.unlink i).pushFrontNode i else l) :
    l'.Chain (i :: (a ++ b)) ∧ (∀ j, l'.content j = l.content j) ∧ l'.lookup = l.lookup ∧
      l'.nextIndex = l.nextIndex ∧ l'.currentCost = l.currentCost := by
  have hnotin : i ∉ a ++ b := by
    have hnd := h.nodup
    rw [nodup_middle] at hnd
    exact (nodup_cons.mp hnd).1
  by_cases hhead : l.head = some i
  · rw [if_neg (not_not.mpr hhead)] at hl'
    subst hl'
    -- already the head, so nothing is before it
    have hnil : a = [] := by
      have hh := h.head
      rw [hhead] at hh
      cases a with
      | nil => rfl
      | cons x a =>
        obtain rfl : i = x := by simpa using hh
        simp at hnotin
    subst hnil
    exact ⟨h, fun _ => rfl, rfl, rfl, rfl⟩
  · rw [if_pos hhead] at hl'
    subst hl'
    obtain ⟨node, hn⟩ := Option.isSome_iff_exists.mp (h.isSome i (by simp))
    obtain ⟨hc₁, -⟩ := unlink_spec hn
    have hchain₁ := h.unlink
    have hhead₁ : (l.unlink i).head ≠ some i := by
      intro heq
      exact hnotin (mem_of_head? (hchain₁.head.symm.trans heq))
    obtain ⟨hc₂, -⟩ := pushFrontNode_spec (l.unlink i) i hhead₁
    obtain ⟨hlk₁, hni₁, hcc₁⟩ := unlink_frame l i
    obtain ⟨hlk₂, hni₂, hcc₂⟩ := pushFrontNode_frame (l.unlink i) i
    have hsome : ((l.unlink i).nodes i).isSome := by
      rw [isSome_of_content (hc₁ i), hn]
      rfl
    exact ⟨hchain₁.pushFrontNode hnotin hsome, fun j => (hc₂ j).trans (hc₁ j), hlk₂.trans hlk₁,
      hni₂.trans hni₁, hcc₂.trans hcc₁⟩

theorem Chain.setCost (h : l.Chain xs) (i : ℕ) (recorded cost : UInt64) :
    ({ l with currentCost := recorded : LruList K }.modify
      i fun n => { n with cost := cost }).Chain xs := by
  set l₀ : LruList K := { l with currentCost := recorded : LruList K }.modify
    i fun n => { n with cost := cost }
  have hnodes : ∀ j, l₀.nodes j = if j = i then (l.nodes j).map fun n => { n with cost := cost }
      else l.nodes j := fun j => nodes_modify _ i _ j
  refine ⟨h.nodup, ?_, h.linked.congr ?_ ?_, h.head, h.tail⟩
  · intro j hj
    rw [hnodes]
    split_ifs
    · simpa using h.isSome j hj
    · exact h.isSome j hj
  · intro j _
    rw [prevOf, prevOf, hnodes]
    split_ifs
    · cases l.nodes j <;> rfl
    · rfl
  · intro j _
    rw [nextOf, nextOf, hnodes]
    split_ifs
    · cases l.nodes j <;> rfl
    · rfl

section Entries

variable [DecidableEq K]

/-- The chain `xs` has the entries `L`, the tail first; arena and map have its nodes only. -/
structure ListsAt (l : LruList K) (xs : List ℕ) (L : List (Tracked K K)) : Prop where
  chain : l.Chain xs
  content : xs.reverse.map l.content = L.map fun e => some (e.name, e.cost)
  tag : ∀ e ∈ L, e.tag = e.name
  live : ∀ i, (l.nodes i).isSome → i ∈ xs
  lookup : ∀ k i, l.lookup.lookup k = some i ↔ ∃ c, l.content i = some (k, c)
  fresh : ∀ i ∈ xs, i < l.nextIndex

/-- The list has the entries `L`, least recently used first. -/
def Lists (l : LruList K) (L : List (Tracked K K)) : Prop := ∃ xs, l.ListsAt xs L

theorem lists_empty {l : LruList K} (hn : ∀ i, l.nodes i = none) (hl : l.lookup = ∅)
    (hh : l.head = none) (ht : l.tail = none) : l.Lists [] := by
  refine ⟨[], ⟨nodup_nil, by simp, linked_nil, hh, ht⟩, rfl, by simp, ?_, ?_, by simp⟩
  · intro i hi
    simp [hn] at hi
  · intro k i
    simp [hl, LruList.content, hn]

theorem lists_new : (new : LruList K).Lists [] := lists_empty (fun _ => rfl) rfl rfl rfl

theorem lists_clear (l : LruList K) : l.clear.Lists [] := lists_empty (fun _ => rfl) rfl rfl rfl

variable {L : List (Tracked K K)} {key : K} {cost : UInt64}

namespace ListsAt

theorem nodup_names (h : l.ListsAt xs L) : (L.map (·.name)).Nodup := by
  have hmap : L.map (fun e => some e.name) =
      xs.reverse.map fun i => (l.content i).map (·.1) := by
    have := congrArg (List.map fun o : Option (K × UInt64) => o.map (·.1)) h.content
    rw [map_map, map_map] at this
    exact this.symm
  have hnd : (L.map fun e => some e.name).Nodup := by
    rw [hmap]
    refine Nodup.map_on ?_ (nodup_reverse.mpr h.chain.nodup)
    -- two nodes with one key would both be its node in the map
    intro i hi j hj heq
    obtain ⟨n, hn⟩ := Option.isSome_iff_exists.mp (h.chain.isSome i (by simpa using hi))
    obtain ⟨m, hm⟩ := Option.isSome_iff_exists.mp (h.chain.isSome j (by simpa using hj))
    have hkey : n.key = m.key := by simpa [LruList.content, hn, hm] using heq
    have h₁ := (h.lookup n.key i).mpr ⟨n.cost, by simp [LruList.content, hn]⟩
    have h₂ := (h.lookup n.key j).mpr ⟨m.cost, by simp [LruList.content, hm, hkey]⟩
    exact Option.some.inj (h₁.symm.trans h₂)
  have hmap' : L.map (fun e => some e.name) = (L.map (·.name)).map some := by
    rw [map_map]
    rfl
  rw [hmap'] at hnd
  exact hnd.of_map some

theorem split (h : l.ListsAt xs L) (hl : l.lookup.lookup key = some i) :
    ∃ a b La Lb e, xs = a ++ i :: b ∧ L = Lb ++ e :: La ∧ e.name = key ∧
      l.content i = some (key, e.cost) ∧
      b.reverse.map l.content = Lb.map (fun e => some (e.name, e.cost)) ∧
      a.reverse.map l.content = La.map fun e => some (e.name, e.cost) := by
  obtain ⟨c, hc⟩ := (h.lookup key i).mp hl
  have hmem : i ∈ xs := h.live i (by
    have : (l.content i).isSome := by simp [hc]
    simpa [LruList.content] using this)
  obtain ⟨a, b, rfl⟩ := append_of_mem hmem
  have hcontent := h.content
  rw [reverse_append, reverse_cons, map_append, map_append,
    append_assoc, eq_comm, map_eq_append_iff] at hcontent
  obtain ⟨Lb, Lr, rfl, hb, hr⟩ := hcontent
  rw [map_cons, map_nil, singleton_append, map_eq_cons_iff] at hr
  obtain ⟨e, La, rfl, he, ha⟩ := hr
  rw [hc] at he
  obtain ⟨hname, hcost⟩ : e.name = key ∧ e.cost = c := by simpa using he
  exact ⟨a, b, La, Lb, e, rfl, rfl, hname, by rw [hc, hcost], hb.symm, ha.symm⟩

end ListsAt

theorem Lists.nodup_names (h : l.Lists L) : (L.map (·.name)).Nodup :=
  h.elim fun _ h => h.nodup_names

theorem Lists.lookup_isSome (h : l.Lists L) :
    (l.lookup.lookup key).isSome ↔ key ∈ L.map (·.name) := by
  obtain ⟨xs, h⟩ := h
  constructor
  · intro hs
    obtain ⟨i, hi⟩ := Option.isSome_iff_exists.mp hs
    obtain ⟨a, b, La, Lb, e, -, rfl, rfl, -⟩ := h.split hi
    simp
  · intro hmem
    obtain ⟨e, he, rfl⟩ := mem_map.mp hmem
    have hc : some (e.name, e.cost) ∈ xs.reverse.map l.content := by
      rw [h.content]
      exact mem_map_of_mem he
    obtain ⟨i, -, hi⟩ := mem_map.mp hc
    rw [(h.lookup e.name i).mpr ⟨e.cost, hi⟩]
    rfl

theorem Lists.contains_iff (h : l.Lists L) : l.contains key ↔ key ∈ L.map (·.name) :=
  h.lookup_isSome

theorem Lists.tag (h : l.Lists L) {e : Tracked K K} (he : e ∈ L) : e.tag = e.name :=
  h.elim fun _ h => h.tag e he

theorem Lists.eta (h : l.Lists L) {e : Tracked K K} (he : e ∈ L) :
    (⟨e.name, e.name, e.cost⟩ : Tracked K K) = e := by
  have htag := h.tag he
  cases e
  simp_all

theorem Lists.split_mem (h : l.Lists L) {e : Tracked K K} (he : e ∈ L) :
    ∃ xs i a b La Lb, l.lookup.lookup e.name = some i ∧ l.ListsAt xs L ∧ xs = a ++ i :: b ∧
      L = Lb ++ e :: La ∧ l.content i = some (e.name, e.cost) ∧
      b.reverse.map l.content = Lb.map (fun e => some (e.name, e.cost)) ∧
      a.reverse.map l.content = La.map fun e => some (e.name, e.cost) := by
  have hs : (l.lookup.lookup e.name).isSome := h.lookup_isSome.mpr (mem_map_of_mem he)
  obtain ⟨i, hi⟩ := Option.isSome_iff_exists.mp hs
  obtain ⟨xs, h⟩ := h
  obtain ⟨a, b, La, Lb, e', hxs, rfl, hname, hrest⟩ := h.split hi
  obtain rfl : e' = e := inj_on_of_nodup_map h.nodup_names (by simp) he hname
  exact ⟨xs, i, a, b, La, Lb, hi, h, hxs, rfl, hrest⟩

/-- A new key becomes the most recently used. -/
theorem Lists.pushNew (h : l.Lists L) (hk : key ∉ L.map (·.name)) (cost : UInt64) :
    (l.pushNew key cost).Lists (L ++ [⟨key, key, cost⟩]) := by
  have hnone : l.lookup.lookup key = none := by
    simpa using h.lookup_isSome.not.mpr hk
  obtain ⟨xs, h⟩ := h
  have hnew : l.nextIndex ∉ xs := fun hmem => Nat.lt_irrefl _ (h.fresh _ hmem)
  have hdead : l.nodes l.nextIndex = none := by
    by_contra hne
    exact hnew (h.live _ (Option.isSome_iff_ne_none.mpr hne))
  -- the node in the arena, not yet linked
  set l₀ : LruList K := { l with
    nodes := update l.nodes l.nextIndex (some ⟨key, cost, none, none⟩)
    nextIndex := l.nextIndex + 1
    lookup := l.lookup.insert key l.nextIndex
    currentCost := l.currentCost + cost } with hl₀
  have hpush : l.pushNew key cost = l₀.pushFrontNode l.nextIndex := rfl
  rw [hpush]
  have hother : ∀ i, i ≠ l.nextIndex → l₀.nodes i = l.nodes i := by
    intro i hi
    rw [hl₀]
    exact update_of_ne hi _ _
  have hself : l₀.nodes l.nextIndex = some ⟨key, cost, none, none⟩ := by
    rw [hl₀]
    exact update_self _ _ _
  have hchain₀ : l₀.Chain xs :=
    h.chain.congr (fun i hi => hother i fun heq => hnew (heq ▸ hi)) rfl rfl
  have hchain := hchain₀.pushFrontNode hnew (by rw [hself]; rfl)
  have hhead : l₀.head ≠ some l.nextIndex := by
    intro heq
    exact hnew (mem_of_head? (hchain₀.head.symm.trans heq))
  obtain ⟨hc, -⟩ := pushFrontNode_spec l₀ l.nextIndex hhead
  obtain ⟨hlk, hni, -⟩ := pushFrontNode_frame l₀ l.nextIndex
  have hcself : (l₀.pushFrontNode l.nextIndex).content l.nextIndex = some (key, cost) := by
    rw [hc, LruList.content, hself]
    rfl
  have hcother : ∀ i, i ≠ l.nextIndex → (l₀.pushFrontNode l.nextIndex).content i = l.content i := by
    intro i hi
    rw [hc, LruList.content, LruList.content, hother i hi]
  refine ⟨l.nextIndex :: xs, hchain, ?_, ?_, ?_, ?_, ?_⟩
  · rw [reverse_cons, map_append, map_append, ← h.content]
    congr 1
    · refine map_congr_left ?_
      intro i hi
      exact hcother i fun heq => hnew (by simpa [heq] using hi)
    · simp [hcself]
  · intro e he
    rcases mem_append.mp he with he | he
    · exact h.tag e he
    · obtain rfl := mem_singleton.mp he
      rfl
  · intro i hi
    by_cases hin : i = l.nextIndex
    · simp [hin]
    · refine mem_cons_of_mem _ (h.live i ?_)
      rwa [isSome_of_content (hc i), hother i hin] at hi
  · intro k i
    rw [hlk]
    change (l.lookup.insert key l.nextIndex).lookup k = some i ↔ _
    by_cases hk : k = key
    · subst hk
      rw [AList.lookup_insert]
      constructor
      · intro heq
        obtain rfl := Option.some.inj heq
        exact ⟨cost, hcself⟩
      · rintro ⟨c, hci⟩
        by_contra hne
        rw [hcother i fun heq => hne (by rw [heq])] at hci
        rw [(h.lookup k i).mpr ⟨c, hci⟩] at hnone
        simp at hnone
    · rw [AList.lookup_insert_ne hk, h.lookup]
      constructor
      · rintro ⟨c, hci⟩
        refine ⟨c, ?_⟩
        rw [hcother i]
        · exact hci
        · rintro rfl
          simp [LruList.content, hdead] at hci
      · rintro ⟨c, hci⟩
        by_cases hin : i = l.nextIndex
        · subst hin
          rw [hcself] at hci
          exact absurd (by simpa using (congrArg (Option.map Prod.fst) hci).symm) hk
        · exact ⟨c, hcother i hin ▸ hci⟩
  · intro i hi
    rw [hni]
    rcases mem_cons.mp hi with rfl | hi
    · exact Nat.lt_succ_self _
    · exact (h.fresh i hi).trans (Nat.lt_succ_self _)

theorem pushNew_currentCost (l : LruList K) (key : K) (cost : UInt64) :
    (l.pushNew key cost).currentCost = l.currentCost + cost :=
  (pushFrontNode_frame _ _).2.2

theorem without_split {La Lb : List (Tracked K K)} {e : Tracked K K}
    (hnd : ((Lb ++ e :: La).map (·.name)).Nodup) :
    Tracked.without e.name (Lb ++ e :: La) = Lb ++ La := by
  rw [map_append, map_cons, nodup_append, nodup_cons] at hnd
  have hb : e.name ∉ Lb.map (·.name) := fun hmem => hnd.2.2 _ hmem e.name (by simp) rfl
  have hwb := Tracked.without_of_not_mem hb
  have hwa := Tracked.without_of_not_mem hnd.2.1.1
  unfold Tracked.without at hwa hwb ⊢
  rw [filter_append, filter_cons_of_neg (by simp), hwa, hwb]

theorem Lists.remove (h : l.Lists L) {e : Tracked K K} (he : e ∈ L) :
    (l.remove e.name).1 = some e.cost ∧
      (l.remove e.name).2.Lists (Tracked.without e.name L) ∧
      (l.remove e.name).2.currentCost = satSub l.currentCost e.cost := by
  obtain ⟨xs, i, a, b, La, Lb, hi, h, rfl, rfl, hci, hcb, hca⟩ := h.split_mem he
  obtain ⟨node, hn⟩ := Option.isSome_iff_exists.mp (h.chain.isSome i (by simp))
  have hnode : node.key = e.name ∧ node.cost = e.cost := by
    simpa [LruList.content, hn] using hci
  -- the list once the node is unlinked
  set l₁ : LruList K := { l with lookup := l.lookup.erase e.name : LruList K }.unlink i with hl₁
  have hn₀ : ({ l with lookup := l.lookup.erase e.name } : LruList K).nodes i = some node := hn
  have hchain₀ : ({ l with lookup := l.lookup.erase e.name } : LruList K).Chain (a ++ i :: b) :=
    h.chain.congr (fun _ _ => rfl) rfl rfl
  obtain ⟨hc, -⟩ := unlink_spec hn₀
  obtain ⟨hlk, hni, hcc⟩ : l₁.lookup = l.lookup.erase e.name ∧ l₁.nextIndex = l.nextIndex ∧
      l₁.currentCost = l.currentCost := unlink_frame _ i
  have hchain₁ : l₁.Chain (a ++ b) := hchain₀.unlink
  have hn₁ : ∃ node₁, l₁.nodes i = some node₁ ∧ node₁.cost = e.cost := by
    have hc₁ : l₁.content i = some (e.name, e.cost) := (hc i).trans hci
    obtain ⟨node₁, hnode₁, heq⟩ := Option.map_eq_some_iff.mp hc₁
    exact ⟨node₁, hnode₁, (Prod.ext_iff.mp heq).2⟩
  obtain ⟨node₁, hnode₁, hcost₁⟩ := hn₁
  have hrem : l.remove e.name = (some e.cost, { l₁ with
      nodes := update l₁.nodes i none
      currentCost := satSub l₁.currentCost e.cost }) := by
    simp only [LruList.remove, hi]
    rw [← hl₁, hnode₁]
    simp [hcost₁]
  have hnotin : i ∉ a ++ b := by
    have := h.chain.nodup
    rw [nodup_middle] at this
    exact (nodup_cons.mp this).1
  rw [hrem]
  -- the nodes once it has left the arena too
  have hother : ∀ j, j ≠ i → update l₁.nodes i none j = l₁.nodes j :=
    fun j hj => update_of_ne hj _ _
  have hcother : ∀ j, j ≠ i →
      (update l₁.nodes i none j).map (fun n => (n.key, n.cost)) = l.content j := by
    intro j hj
    rw [hother j hj]
    exact hc j
  have hcmap : ∀ ys : List ℕ, i ∉ ys → ys.map (fun j =>
      (update l₁.nodes i none j).map fun n => (n.key, n.cost)) = ys.map l.content := by
    intro ys hys
    refine map_congr_left ?_
    intro j hj
    exact hcother j (ne_of_mem_of_not_mem hj hys)
  refine ⟨rfl, ⟨a ++ b, ?_, ?_, ?_, ?_, ?_, ?_⟩, by simp only [hcc]⟩
  · exact hchain₁.congr (fun j hj => hother j (ne_of_mem_of_not_mem hj hnotin)) rfl rfl
  · rw [without_split h.nodup_names, reverse_append, map_append, map_append, ← hcb,
      ← hca]
    congr 1
    · exact hcmap _ (by simpa using fun hmem => hnotin (mem_append_right _ hmem))
    · exact hcmap _ (by simpa using fun hmem => hnotin (mem_append_left _ hmem))
  · intro e he
    exact h.tag e (mem_of_mem_filter he)
  · intro j hj
    have hji : j ≠ i := by
      rintro rfl
      simp at hj
    simp only [hother j hji] at hj
    rw [isSome_of_content (hc j)] at hj
    have hmem := h.live j hj
    simp only [mem_append, mem_cons] at hmem ⊢
    tauto
  · intro k j
    simp only [hlk, LruList.content]
    by_cases hk : k = e.name
    · subst hk
      rw [AList.lookup_erase]
      constructor
      · intro hj
        simp at hj
      · -- the key's only node was `i`
        rintro ⟨c, hcj⟩
        by_cases hji : j = i
        · subst hji
          simp at hcj
        · rw [hcother j hji] at hcj
          have := (h.lookup _ j).mpr ⟨c, hcj⟩
          rw [hi] at this
          exact absurd (Option.some.inj this).symm hji
    · rw [AList.lookup_erase_ne hk, h.lookup]
      by_cases hji : j = i
      · subst hji
        rw [hci]
        simp [Ne.symm hk]
      · rw [hcother j hji]
  · intro j hj
    simp only [hni]
    refine h.fresh j ?_
    simp only [mem_append, mem_cons] at hj ⊢
    tauto

theorem Lists.popBack_cons {e : Tracked K K} {rest : List (Tracked K K)}
    (h : l.Lists (e :: rest)) :
    ∃ l', l.popBack = some ((e.name, e.cost), l') ∧ l'.Lists rest ∧
      l'.currentCost = satSub l.currentCost e.cost := by
  have hrem := (h.remove mem_cons_self).2
  have hwithout : Tracked.without e.name ([] ++ e :: rest) = [] ++ rest :=
    without_split h.nodup_names
  rw [nil_append, nil_append] at hwithout
  rw [hwithout] at hrem
  obtain ⟨xs, h⟩ := h
  have hlast : ∃ t, xs.getLast? = some t ∧ l.content t = some (e.name, e.cost) := by
    have hcontent := h.content
    rw [map_cons, map_eq_cons_iff] at hcontent
    obtain ⟨t, ys, hys, ht, -⟩ := hcontent
    refine ⟨t, ?_, ht⟩
    rw [← List.head?_reverse, hys]
    rfl
  obtain ⟨t, ht, hct⟩ := hlast
  obtain ⟨node, hnode, heq⟩ := Option.map_eq_some_iff.mp hct
  obtain ⟨hkey, hcost⟩ := Prod.ext_iff.mp heq
  refine ⟨(l.remove e.name).2, ?_, hrem⟩
  unfold popBack
  rw [h.chain.tail, ht, Option.bind_some, hnode]
  simp only at hkey hcost ⊢
  rw [hkey, hcost]

theorem Lists.popBack_nil (h : l.Lists []) : l.popBack = none := by
  obtain ⟨xs, h⟩ := h
  have hnil : xs = [] := by simpa using h.content
  unfold popBack
  rw [h.chain.tail, hnil]
  rfl

theorem ListsAt.toFront {l' : LruList K} {La Lb : List (Tracked K K)} {e : Tracked K K}
    (h : l.ListsAt (a ++ i :: b) (Lb ++ e :: La))
    (hcb : b.reverse.map l.content = Lb.map fun e => some (e.name, e.cost))
    (hca : a.reverse.map l.content = La.map fun e => some (e.name, e.cost))
    (hci : l.content i = some (e.name, e.cost)) (hchain : l'.Chain (i :: (a ++ b)))
    (hci' : l'.content i = some (e.name, cost)) (hother : ∀ j, j ≠ i → l'.content j = l.content j)
    (hlk : l'.lookup = l.lookup) (hni : l'.nextIndex = l.nextIndex) :
    l'.Lists (Tracked.without e.name (Lb ++ e :: La) ++ [⟨e.name, e.name, cost⟩]) := by
  have hnotin := (nodup_cons.mp hchain.nodup).1
  have hmap : ∀ ys : List ℕ, i ∉ ys → ys.map l'.content = ys.map l.content := by
    intro ys hys
    refine map_congr_left ?_
    intro j hj
    exact hother j (ne_of_mem_of_not_mem hj hys)
  have hmem : ∀ j, j ∈ i :: (a ++ b) ↔ j ∈ a ++ i :: b := by
    intro j
    simp only [mem_append, mem_cons]
    tauto
  refine ⟨i :: (a ++ b), hchain, ?_, ?_, ?_, ?_, ?_⟩
  · rw [without_split h.nodup_names, reverse_cons, reverse_append, map_append,
      map_append, map_append, map_append, ← hcb, ← hca,
      hmap b.reverse (by simpa using fun hmem => hnotin (mem_append_right _ hmem)),
      hmap a.reverse (by simpa using fun hmem => hnotin (mem_append_left _ hmem))]
    simp [hci']
  · intro e' he'
    rcases mem_append.mp he' with he' | he'
    · exact h.tag e' (mem_of_mem_filter he')
    · obtain rfl := mem_singleton.mp he'
      rfl
  · intro j hj
    rw [hmem]
    by_cases hji : j = i
    · simp [hji]
    · rw [isSome_of_content (hother j hji)] at hj
      exact h.live j hj
  · intro k j
    rw [hlk, h.lookup]
    by_cases hji : j = i
    · subst hji
      rw [hci, hci']
      simp
    · rw [hother j hji]
  · intro j hj
    rw [hni]
    exact h.fresh j ((hmem j).mp hj)

/-- A key of the list becomes the most recently used, with a new cost. -/
theorem Lists.touchIndex (h : l.Lists L) (hl : l.lookup.lookup key = some i) (cost : UInt64) :
    (l.touchIndex i cost).Lists (Tracked.without key L ++ [⟨key, key, cost⟩]) ∧
      ∃ e ∈ L, e.name = key ∧
        (l.touchIndex i cost).currentCost = satSub l.currentCost e.cost + cost := by
  obtain ⟨xs, h⟩ := h
  obtain ⟨a, b, La, Lb, e, rfl, rfl, rfl, hci, hcb, hca⟩ := h.split hl
  obtain ⟨node, hn, heq⟩ := Option.map_eq_some_iff.mp hci
  obtain ⟨hkey, hcost⟩ := Prod.ext_iff.mp heq
  simp only at hkey hcost
  -- the list with the costs changed, every link as before
  set l₀ : LruList K := { l with currentCost := satSub l.currentCost e.cost + cost : LruList K }.modify
    i fun n => { n with cost := cost } with hl₀
  have hnodes : ∀ j, l₀.nodes j = if j = i then (l.nodes j).map fun n => { n with cost := cost }
      else l.nodes j := fun j => nodes_modify _ i _ j
  have hchain₀ : l₀.Chain (a ++ i :: b) := h.chain.setCost i _ cost
  have hci₀ : l₀.content i = some (e.name, cost) := by
    rw [LruList.content, hnodes, if_pos rfl, hn]
    simp [hkey]
  have hother₀ : ∀ j, j ≠ i → l₀.content j = l.content j := by
    intro j hj
    rw [LruList.content, LruList.content, hnodes, if_neg hj]
  have htouch : l.touchIndex i cost =
      if l₀.head ≠ some i then (l₀.unlink i).pushFrontNode i else l₀ := by
    unfold LruList.touchIndex
    rw [hn]
    simp only [hcost]
    rfl
  obtain ⟨hchain, hc, hlk, hni, hcc⟩ := hchain₀.toHead htouch
  constructor
  · apply h.toFront hcb hca hci hchain ((hc i).trans hci₀) _ hlk hni
    intro j hj
    exact (hc j).trans (hother₀ j hj)
  · exact ⟨e, by simp, rfl, hcc⟩

/-- A key of the list becomes the most recently used, with the cost it has. -/
theorem Lists.moveToFront (h : l.Lists L) {e : Tracked K K} (he : e ∈ L) :
    (l.moveToFront e.name).Lists (Tracked.without e.name L ++ [e]) := by
  have heta := h.elim fun _ h => h.tag e he
  obtain ⟨xs, i, a, b, La, Lb, hi, h, rfl, rfl, hci, hcb, hca⟩ := h.split_mem he
  have hmove : l.moveToFront e.name =
      if l.head ≠ some i then (l.unlink i).pushFrontNode i else l := by
    unfold LruList.moveToFront
    rw [hi]
  obtain ⟨hchain, hc, hlk, hni, -⟩ := h.chain.toHead hmove
  have hfront := h.toFront hcb hca hci hchain ((hc i).trans hci) (fun j _ => hc j) hlk hni
  rwa [show (⟨e.name, e.name, e.cost⟩ : Tracked K K) = e by cases e; simp_all] at hfront

theorem moveToFront_currentCost (l : LruList K) (key : K) :
    (l.moveToFront key).currentCost = l.currentCost := by
  unfold LruList.moveToFront
  split
  · rfl
  · split_ifs
    · exact (pushFrontNode_frame _ _).2.2.trans (unlink_frame _ _).2.2
    · rfl

theorem Lists.moveToFront_none (h : l.Lists L) (hk : key ∉ L.map (·.name)) :
    l.moveToFront key = l := by
  have hnone : l.lookup.lookup key = none := by
    simpa using h.lookup_isSome.not.mpr hk
  simp [LruList.moveToFront, hnone]

theorem Lists.length_le (h : l.Lists L) : L.length ≤ l.lookup.keys.length := by
  have hsub : L.map (·.name) ⊆ l.lookup.keys := by
    intro k hk
    rw [← AList.mem_keys, ← AList.lookup_isSome]
    exact h.lookup_isSome.mpr hk
  simpa using (subperm_of_subset h.nodup_names hsub).length_le

theorem Lists.fromTail (h : l.Lists L) : l.fromTail = L.map fun e => (e.name, e.cost) := by
  have hlen := h.length_le
  obtain ⟨xs, h⟩ := h
  have hxs : xs.length ≤ l.lookup.keys.length := by
    have hmap := congrArg List.length h.content
    simp only [length_map, length_reverse] at hmap
    rwa [hmap]
  have hwalk : walk l.prevOf l.lookup.keys.length l.tail = xs.reverse := by
    rw [h.chain.tail]
    exact h.chain.linked.walk_prev hxs
  have hmap := congrArg (List.filterMap id) h.content
  rw [filterMap_map, filterMap_map] at hmap
  calc l.fromTail = xs.reverse.filterMap l.content := by rw [← hwalk]; rfl
    _ = L.map fun e => (e.name, e.cost) := by simpa [Function.comp_def] using hmap

theorem Lists.remove_none (h : l.Lists L) (hk : key ∉ L.map (·.name)) : l.remove key = (none, l) := by
  have hnone : l.lookup.lookup key = none := by
    simpa using h.lookup_isSome.not.mpr hk
  simp [LruList.remove, hnone]

theorem Lists.tail_key (h : l.Lists L) :
    (l.tail.bind l.nodes).map (·.key) = L.head?.map (·.name) := by
  obtain ⟨xs, h⟩ := h
  have hhead := congrArg List.head? h.content
  rw [List.head?_map, List.head?_map, List.head?_reverse, ← h.chain.tail] at hhead
  cases ht : l.tail with
  | none =>
    rw [ht] at hhead
    cases hL : L.head? with
    | none => rfl
    | some e => simp [hL] at hhead
  | some i =>
    rw [ht] at hhead
    cases hL : L.head? with
    | none => simp [hL] at hhead
    | some e =>
      rw [hL] at hhead
      simp only [Option.map_some, Option.some.injEq] at hhead
      obtain ⟨node, hn, heq⟩ := Option.map_eq_some_iff.mp hhead
      have hkey : node.key = e.name := (Prod.ext_iff.mp heq).1
      simp [hn, hkey]

end Entries

theorem satSub_total {La Lb : List (Tracked K K)} {e : Tracked K K}
    (hlt : totalNat Tracked.cost (Lb ++ e :: La) < 2 ^ 64) :
    satSub (total Tracked.cost (Lb ++ e :: La)) e.cost = total Tracked.cost (Lb ++ La) := by
  rw [satSub_eq_sub]
  · simp only [total_append, total_cons]
    abel
  · rw [UInt64.le_iff_toNat_le, toNat_total hlt, totalNat_append, totalNat_cons]
    omega

section Holds

variable [DecidableEq K]

/-- The chain `xs` holds the entries `L`, the tail first; arena and map have its nodes only. -/
structure HoldsAt (l : LruList K) (xs : List ℕ) (L : List (Tracked K K)) : Prop where
  chain : l.Chain xs
  content : xs.reverse.map l.content = L.map fun e => some (e.name, e.cost)
  tag : ∀ e ∈ L, e.tag = e.name
  live : ∀ i, (l.nodes i).isSome → i ∈ xs
  lookup : ∀ k i, l.lookup.lookup k = some i ↔ ∃ c, l.content i = some (k, c)
  fresh : ∀ i ∈ xs, i < l.nextIndex
  cost : l.currentCost = total Tracked.cost L

/-- The list holds the entries `L`, least recently used first. -/
def Holds (l : LruList K) (L : List (Tracked K K)) : Prop := ∃ xs, l.HoldsAt xs L

variable {L : List (Tracked K K)} {key : K} {cost : UInt64}

theorem holds_iff : l.Holds L ↔ l.Lists L ∧ l.currentCost = total Tracked.cost L := by
  constructor
  · rintro ⟨xs, h⟩
    exact ⟨⟨xs, h.chain, h.content, h.tag, h.live, h.lookup, h.fresh⟩, h.cost⟩
  · rintro ⟨⟨xs, h⟩, hcost⟩
    exact ⟨xs, h.chain, h.content, h.tag, h.live, h.lookup, h.fresh, hcost⟩

theorem Holds.lists (h : l.Holds L) : l.Lists L := (holds_iff.mp h).1

theorem Holds.currentCost (h : l.Holds L) : l.currentCost = total Tracked.cost L :=
  (holds_iff.mp h).2

theorem Lists.holds (h : l.Lists L) (hcost : l.currentCost = total Tracked.cost L) : l.Holds L :=
  holds_iff.mpr ⟨h, hcost⟩

theorem holds_new : (new : LruList K).Holds [] := lists_new.holds rfl

theorem holds_clear (l : LruList K) : l.clear.Holds [] := (lists_clear l).holds rfl

theorem Holds.nodup_names (h : l.Holds L) : (L.map (·.name)).Nodup := h.lists.nodup_names

theorem Holds.lookup_isSome (h : l.Holds L) :
    (l.lookup.lookup key).isSome ↔ key ∈ L.map (·.name) :=
  h.lists.lookup_isSome

theorem Holds.contains_iff (h : l.Holds L) : l.contains key ↔ key ∈ L.map (·.name) :=
  h.lists.contains_iff

theorem Holds.tag (h : l.Holds L) {e : Tracked K K} (he : e ∈ L) : e.tag = e.name := h.lists.tag he

theorem Holds.eta (h : l.Holds L) {e : Tracked K K} (he : e ∈ L) :
    (⟨e.name, e.name, e.cost⟩ : Tracked K K) = e :=
  h.lists.eta he

theorem Holds.pushNew (h : l.Holds L) (hk : key ∉ L.map (·.name)) (cost : UInt64) :
    (l.pushNew key cost).Holds (L ++ [⟨key, key, cost⟩]) := by
  apply (h.lists.pushNew hk cost).holds
  rw [pushNew_currentCost, h.currentCost]
  simp

theorem satSub_without (hnd : (L.map (·.name)).Nodup) (hlt : totalNat Tracked.cost L < 2 ^ 64)
    {e : Tracked K K} (he : e ∈ L) :
    satSub (total Tracked.cost L) e.cost = total Tracked.cost (Tracked.without e.name L) := by
  obtain ⟨Lb, La, rfl⟩ := append_of_mem he
  rw [satSub_total hlt, without_split hnd]

theorem Holds.remove (h : l.Holds L) (hlt : totalNat Tracked.cost L < 2 ^ 64) {e : Tracked K K}
    (he : e ∈ L) : (l.remove e.name).1 = some e.cost ∧
      (l.remove e.name).2.Holds (Tracked.without e.name L) := by
  obtain ⟨hfst, hlists, hcost⟩ := h.lists.remove he
  refine ⟨hfst, hlists.holds ?_⟩
  rw [hcost, h.currentCost, satSub_without h.nodup_names hlt he]

theorem Holds.popBack_cons {e : Tracked K K} {rest : List (Tracked K K)} (h : l.Holds (e :: rest))
    (hlt : totalNat Tracked.cost (e :: rest) < 2 ^ 64) :
    ∃ l', l.popBack = some ((e.name, e.cost), l') ∧ l'.Holds rest := by
  obtain ⟨l', hpop, hlists, hcost⟩ := h.lists.popBack_cons
  refine ⟨l', hpop, hlists.holds ?_⟩
  rw [hcost, h.currentCost]
  have hsub : satSub (total Tracked.cost ([] ++ e :: rest)) e.cost =
      total Tracked.cost ([] ++ rest) := satSub_total hlt
  exact hsub

theorem Holds.popBack_nil (h : l.Holds []) : l.popBack = none := h.lists.popBack_nil

theorem Holds.touchIndex (h : l.Holds L) (hlt : totalNat Tracked.cost L < 2 ^ 64)
    (hl : l.lookup.lookup key = some i) (cost : UInt64) :
    (l.touchIndex i cost).Holds (Tracked.without key L ++ [⟨key, key, cost⟩]) := by
  obtain ⟨hlists, e, he, rfl, hcost⟩ := h.lists.touchIndex hl cost
  apply hlists.holds
  rw [hcost, h.currentCost, satSub_without h.nodup_names hlt he, total_append]
  simp

theorem Holds.length_le (h : l.Holds L) : L.length ≤ l.lookup.keys.length := h.lists.length_le

theorem Holds.fromTail (h : l.Holds L) : l.fromTail = L.map fun e => (e.name, e.cost) :=
  h.lists.fromTail

theorem Holds.remove_none (h : l.Holds L) (hk : key ∉ L.map (·.name)) : l.remove key = (none, l) :=
  h.lists.remove_none hk

theorem Holds.remove_any (h : l.Holds L) (hlt : totalNat Tracked.cost L < 2 ^ 64) (key : K) :
    ((l.remove key).1.isSome ↔ key ∈ L.map (·.name)) ∧
      (l.remove key).2.Holds (Tracked.without key L) := by
  by_cases hk : key ∈ L.map (·.name)
  · obtain ⟨e, he, rfl⟩ := mem_map.mp hk
    obtain ⟨hcost, hrem⟩ := h.remove hlt he
    simp [hcost, hrem, hk]
  · rw [h.remove_none hk, Tracked.without_of_not_mem hk]
    simp [h, hk]

theorem Holds.tail_key (h : l.Holds L) :
    (l.tail.bind l.nodes).map (·.key) = L.head?.map (·.name) :=
  h.lists.tail_key

end Holds

end LruList

end Fibre.Cache
