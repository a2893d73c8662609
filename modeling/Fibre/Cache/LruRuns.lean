import Fibre.Cache.Segments
import Fibre.Math.Machine

/-!
# Runs of an LRU list

The operations of an LRU list with their indexed accesses, each of which panics at an index the arena
does not have, against an ordered list of keys with costs, the front first.

The recorded cost is a machine word. It wraps around when the costs sum to `2 ^ 64` or more.
-/

namespace Fibre.Cache

open CostQueue DoublyLinked Word Function List Option

variable {K : Type*}

namespace LruList

/-! ### Accesses that panic -/

namespace Checked

/-- `nodes[i]`, to change it. -/
def modify (l : LruList K) (i : ℕ) (f : LruNode K → LruNode K) : Option (LruList K) :=
  if (l.nodes i).isSome then some (l.modify i f) else none

def unlink (l : LruList K) (i : ℕ) : Option (LruList K) := do
  let node ← l.nodes i
  let l ← match node.prev with
    | some p => modify l p fun n => { n with next := node.next }
    | none => some { l with head := node.next }
  match node.next with
  | some x => modify l x fun n => { n with prev := node.prev }
  | none => some { l with tail := node.prev }

def pushFrontNode (l : LruList K) (i : ℕ) : Option (LruList K) := do
  let old := l.head
  let l ← modify l i fun n => { n with next := old, prev := none }
  let l := { l with head := some i }
  let l ← match old with
    | some h => modify l h fun n => { n with prev := some i }
    | none => some l
  some { l with tail := if l.tail = none then some i else l.tail }

def toFront (l : LruList K) (i : ℕ) : Option (LruList K) :=
  if l.head ≠ some i then (unlink l i).bind (pushFrontNode · i) else some l

def touchIndex (l : LruList K) (i : ℕ) (cost : UInt64) : Option (LruList K) := do
  let node ← l.nodes i
  let l := { l with currentCost := satSub l.currentCost node.cost + cost }
  let l ← modify l i fun n => { n with cost := cost }
  toFront l i

variable [DecidableEq K]

def pushNew (l : LruList K) (key : K) (cost : UInt64) : Option (LruList K) :=
  let i := l.nextIndex
  pushFrontNode { l with
    nodes := update l.nodes i (some ⟨key, cost, none, none⟩)
    nextIndex := i + 1
    lookup := l.lookup.insert key i
    currentCost := l.currentCost + cost } i

def pushFront (l : LruList K) (key : K) (cost : UInt64) : Option (LruList K) :=
  match l.lookup.lookup key with
  | some i => touchIndex l i cost
  | none => pushNew l key cost

def moveToFront (l : LruList K) (key : K) : Option (LruList K) :=
  match l.lookup.lookup key with
  | none => some l
  | some i => toFront l i

def remove (l : LruList K) (key : K) : Option (Option UInt64 × LruList K) :=
  match l.lookup.lookup key with
  | none => some (none, l)
  | some i => do
    let l ← unlink { l with lookup := l.lookup.erase key } i
    let node ← l.nodes i
    some (some node.cost, { l with
      nodes := update l.nodes i none
      currentCost := satSub l.currentCost node.cost })

def popBack (l : LruList K) : Option (Option (K × UInt64) × LruList K) :=
  match l.tail with
  | none => some (none, l)
  | some t => do
    let node ← l.nodes t
    let r ← remove l node.key
    some (some (node.key, node.cost), r.2)

end Checked

variable {l : LruList K} {i : ℕ} {xs a b : List ℕ}

theorem checked_modify (h : (l.nodes i).isSome) (f : LruNode K → LruNode K) :
    Checked.modify l i f = some (l.modify i f) := if_pos h

theorem isSome_modify (l : LruList K) (i : ℕ) (f : LruNode K → LruNode K) (j : ℕ) :
    ((l.modify i f).nodes j).isSome = (l.nodes j).isSome := by
  rw [nodes_modify]
  split_ifs <;> simp

theorem Chain.checked_unlink (h : l.Chain (a ++ i :: b)) : Checked.unlink l i = some (l.unlink i) := by
  obtain ⟨node, hn⟩ := isSome_iff_exists.mp (h.isSome i (by simp))
  have hp : ∀ p ∈ node.prev, (l.nodes p).isSome := by
    have hprev := h.linked.prev_eq
    simp only [prevOf, hn, bind_some] at hprev
    intro p hp
    rw [hprev] at hp
    exact h.isSome p (by simp [mem_of_getLast? hp])
  have hx : ∀ x ∈ node.next, (l.nodes x).isSome := by
    have hnext := h.linked.next_eq
    simp only [nextOf, hn, bind_some] at hnext
    intro x hx
    rw [hnext] at hx
    exact h.isSome x (by simp [mem_of_head? hx])
  simp only [Checked.unlink, LruList.unlink, hn, bind_eq_bind, bind_some]
  cases hprev : node.prev with
  | none =>
    cases hnext : node.next with
    | none => rfl
    | some x => simp [Checked.modify, hx x hnext, LruList.modify]
  | some p =>
    cases hnext : node.next with
    | none => simp [Checked.modify, hp p hprev]
    | some x => simp [Checked.modify, hp p hprev, isSome_modify, hx x hnext]

theorem Chain.checked_pushFrontNode (h : l.Chain xs) (hi : (l.nodes i).isSome) :
    Checked.pushFrontNode l i = some (l.pushFrontNode i) := by
  simp only [Checked.pushFrontNode, LruList.pushFrontNode, checked_modify hi, bind_eq_bind,
    bind_some]
  cases hhead : l.head with
  | none => rfl
  | some o =>
    have ho : (l.nodes o).isSome := h.isSome o (mem_of_head? (h.head.symm.trans hhead))
    have hlive := (isSome_modify l i (fun n => { n with next := some o, prev := none }) o).trans ho
    simp only [Checked.modify, hlive, if_true, bind_some]

theorem Chain.isSome_unlink (h : l.Chain (a ++ i :: b)) : ((l.unlink i).nodes i).isSome := by
  obtain ⟨node, hn⟩ := isSome_iff_exists.mp (h.isSome i (by simp))
  rw [isSome_of_content ((unlink_spec hn).1 i), hn]
  rfl

theorem Chain.checked_toFront (h : l.Chain (a ++ i :: b)) : Checked.toFront l i =
    some (if l.head ≠ some i then (l.unlink i).pushFrontNode i else l) := by
  unfold Checked.toFront
  split_ifs
  · rw [h.checked_unlink, bind_some, h.unlink.checked_pushFrontNode h.isSome_unlink]
  · rfl

section Ops

variable [DecidableEq K] {q : List (K × UInt64)} {L : List (Tracked K K)} {key : K}

theorem ListsAt.checked_touchIndex (h : l.ListsAt xs L) (hl : l.lookup.lookup key = some i)
    (cost : UInt64) : Checked.touchIndex l i cost = some (l.touchIndex i cost) := by
  obtain ⟨a, b, -, -, -, rfl, -⟩ := h.split hl
  obtain ⟨node, hn⟩ := isSome_iff_exists.mp (h.chain.isSome i (by simp))
  have hchain := h.chain.setCost i (satSub l.currentCost node.cost + cost) cost
  simp only [Checked.touchIndex, LruList.touchIndex, hn, bind_eq_bind, bind_some]
  rw [checked_modify (by simp [hn]), bind_some, hchain.checked_toFront]

theorem ListsAt.checked_pushNew (h : l.ListsAt xs L) (key : K) (cost : UInt64) :
    Checked.pushNew l key cost = some (l.pushNew key cost) := by
  have hne : ∀ i ∈ xs, i ≠ l.nextIndex := fun i hi => (h.fresh i hi).ne
  have hchain : ({ l with
      nodes := update l.nodes l.nextIndex (some ⟨key, cost, none, none⟩)
      nextIndex := l.nextIndex + 1
      lookup := l.lookup.insert key l.nextIndex
      currentCost := l.currentCost + cost } : LruList K).Chain xs :=
    h.chain.congr (fun i hi => update_of_ne (hne i hi) _ _) rfl rfl
  exact hchain.checked_pushFrontNode (by simp)

theorem ListsAt.checked_remove (h : l.ListsAt xs L) (key : K) :
    Checked.remove l key = some (l.remove key) := by
  unfold Checked.remove LruList.remove
  cases hl : l.lookup.lookup key with
  | none => rfl
  | some i =>
    obtain ⟨a, b, -, -, -, rfl, -⟩ := h.split hl
    have hchain : ({ l with lookup := l.lookup.erase key } : LruList K).Chain (a ++ i :: b) :=
      h.chain.congr (fun _ _ => rfl) rfl rfl
    obtain ⟨node, hn⟩ := isSome_iff_exists.mp hchain.isSome_unlink
    simp only [hchain.checked_unlink, hn, bind_eq_bind, bind_some]

theorem ListsAt.checked_moveToFront (h : l.ListsAt xs L) (key : K) :
    Checked.moveToFront l key = some (l.moveToFront key) := by
  unfold Checked.moveToFront LruList.moveToFront
  cases hl : l.lookup.lookup key with
  | none => rfl
  | some i =>
    obtain ⟨a, b, -, -, -, rfl, -⟩ := h.split hl
    exact h.chain.checked_toFront

theorem ListsAt.checked_popBack (h : l.ListsAt xs L) : Checked.popBack l =
    some (match l.popBack with | none => (none, l) | some (e, l') => (some e, l')) := by
  unfold Checked.popBack LruList.popBack
  cases ht : l.tail with
  | none => rfl
  | some t =>
    have hmem : t ∈ xs := mem_of_getLast? (h.chain.tail.symm.trans ht)
    obtain ⟨node, hn⟩ := isSome_iff_exists.mp (h.chain.isSome t hmem)
    simp only [hn, h.checked_remove, bind_eq_bind, bind_some]

/-- The keys and costs, from the head along `next`: at most `n` of them. -/
def fromHead (l : LruList K) (n : ℕ) : List (K × UInt64) :=
  (walk l.nextOf n l.head).filterMap l.content

theorem ListsAt.fromHead (h : l.ListsAt xs L) {n : ℕ} (hn : L.length ≤ n) :
    l.fromHead n = (L.map fun e => (e.name, e.cost)).reverse := by
  have hlen := congrArg List.length h.content
  simp only [length_map, length_reverse] at hlen
  have hmap := congrArg (List.filterMap id) h.content
  rw [filterMap_map, filterMap_map, filterMap_reverse] at hmap
  rw [LruList.fromHead, h.chain.head, h.chain.linked.walk_next (hlen.trans_le hn),
    ← reverse_inj, reverse_reverse]
  simpa [Function.comp_def] using hmap

/-! ### The ordered list -/

/-- Links and map show the keys with their costs in this order, the front first. -/
structure Ordered (l : LruList K) (L : List (K × UInt64)) : Prop where
  nodup : (L.map Prod.fst).Nodup
  forward : ∀ n, L.length ≤ n → l.fromHead n = L
  backward : l.fromTail = L.reverse
  lookup : ∀ k i, l.lookup.lookup k = some i ↔ ∃ c, l.content i = some (k, c)
  costAt : ∀ k, l.costAt k = costOf L k

def Exact (l : LruList K) (L : List (K × UInt64)) : Prop :=
  l.currentCost.toNat = totalNat Prod.snd L

theorem Stores.listsAt (h : l.Stores q) :
    ∃ xs L, l.ListsAt xs L ∧ q = L.map fun e => (e.name, e.cost) := by
  obtain ⟨c, ⟨⟨xs, hxs⟩, -⟩, rfl⟩ := h
  exact ⟨xs, c.tracked, hxs, rfl⟩

theorem Stores.ordered {L : List (K × UInt64)} (h : l.Stores L.reverse) : l.Ordered L := by
  have hnodup : (L.map Prod.fst).Nodup := by simpa using h.nodup
  obtain ⟨xs, L', hxs, hq⟩ := h.listsAt
  refine ⟨hnodup, fun n hn => ?_, h.fromTail, hxs.lookup, fun k => ?_⟩
  · have hlen := congrArg List.length hq
    simp only [length_reverse, length_map] at hlen
    rw [hxs.fromHead (hlen ▸ hn), ← hq, reverse_reverse]
  · exact (h.costAt k).trans (costOf_perm hnodup L.reverse_perm k)

theorem exact_iff {L : List (K × UInt64)} (h : l.Stores L.reverse) : l.Exact L ↔ l.Tallied := by
  rw [Exact, Tallied, h.fromTail, totalNat_perm Prod.snd L.reverse_perm]

end Ops

end LruList

/-! ### Operations -/

/-- An operation; `touch` looks its key up and touches the node it finds. -/
inductive LruAction (K : Type*)
  | pushFront (key : K) (cost : UInt64)
  | pushNew (key : K) (cost : UInt64)
  | touch (key : K) (cost : UInt64)
  | moveToFront (key : K)
  | popBack
  | remove (key : K)
  | clear

namespace LruAction

variable [DecidableEq K]

/-- The operation on the linked list, and what it returns. -/
def exec (l : LruList K) : LruAction K → Option (Option (K × UInt64) × LruList K)
  | pushFront key cost => (LruList.Checked.pushFront l key cost).map (none, ·)
  | pushNew key cost => (LruList.Checked.pushNew l key cost).map (none, ·)
  | touch key cost =>
    match l.lookup.lookup key with
    | some i => (LruList.Checked.touchIndex l i cost).map (none, ·)
    | none => some (none, l)
  | moveToFront key => (LruList.Checked.moveToFront l key).map (none, ·)
  | popBack => LruList.Checked.popBack l
  | remove key => (LruList.Checked.remove l key).map fun r => (r.1.map (key, ·), r.2)
  | clear => some (none, l.clear)

/-- The operation on the ordered list. -/
def spec (L : List (K × UInt64)) : LruAction K → Option (K × UInt64) × List (K × UInt64)
  | pushFront key cost | pushNew key cost => (none, (key, cost) :: dropKey key L)
  | touch key cost =>
    (none, if key ∈ L.map Prod.fst then (key, cost) :: dropKey key L else L)
  | moveToFront key =>
    (none, match costOf L key with | some cost => (key, cost) :: dropKey key L | none => L)
  | popBack => (L.getLast?, L.dropLast)
  | remove key => ((costOf L key).map (key, ·), dropKey key L)
  | clear => (none, [])

/-- A key that is inserted as new is new: the caller guarantees it. -/
def Legal (l : LruList K) : LruAction K → Prop
  | pushNew key _ => l.contains key = false
  | _ => True

instance (l : LruList K) : DecidablePred (Legal l) := fun a => by
  cases a <;> unfold Legal <;> infer_instance

/-- The linked list, and the ordered list it stands for. -/
def step (s : LruList K × List (K × UInt64)) (a : LruAction K) :
    Option (LruList K × List (K × UInt64)) :=
  if a.Legal s.1 then (a.exec s.1).map fun r => (r.2, (a.spec s.2).2) else none

def init : LruList K × List (K × UInt64) := (.new, [])

/-- The costs after the operation sum to a word. -/
def Fits (s : LruList K × List (K × UInt64)) (a : LruAction K) : Prop :=
  totalNat Prod.snd (a.spec s.2).2 < 2 ^ 64

/-- What an operation does to a list that stores `L`. -/
structure Follows (l : LruList K) (L : List (K × UInt64)) (a : LruAction K) (l' : LruList K) :
    Prop where
  exec : a.exec l = some ((a.spec L).1, l')
  stores : l'.Stores (a.spec L).2.reverse
  tallied : l.Tallied → Fits (l, L) a → l'.Tallied

variable {l : LruList K} {L : List (K × UInt64)} {key : K} {i : ℕ}

theorem dropKey_reverse (key : K) (q : List (K × UInt64)) :
    dropKey key q.reverse = (dropKey key q).reverse := filter_reverse

theorem costOf_reverse (h : l.Stores L.reverse) (key : K) : costOf L.reverse key = costOf L key :=
  costOf_perm h.ordered.nodup L.reverse_perm key

theorem push_new (h : l.Stores L.reverse) (hk : key ∉ L.map Prod.fst) (cost : UInt64) :
    Follows l L (.pushNew key cost) (l.pushNew key cost) := by
  obtain ⟨xs, L', hxs, -⟩ := h.listsAt
  have hk' := (L.reverse_perm.map Prod.fst).mem_iff.not.mpr hk
  have hdrop := dropKey_of_notMem hk
  refine ⟨by simp [exec, spec, hxs.checked_pushNew], ?_, fun ht hfit => ht.pushNew h hk' ?_⟩
  · simpa [spec, hdrop] using h.pushNew hk' cost
  · simp only [Fits, spec, hdrop, totalNat_cons] at hfit
    rw [((LruList.exact_iff h).mpr ht : _ = _)]
    omega

theorem touch_index (h : l.Stores L.reverse) (hl : l.lookup.lookup key = some i) (cost : UInt64) :
    Follows l L (.touch key cost) (l.touchIndex i cost) := by
  obtain ⟨xs, L', hxs, -⟩ := h.listsAt
  have hmem : key ∈ L.map Prod.fst := by
    rw [← (L.reverse_perm.map Prod.fst).mem_iff, ← h.lookup_isSome, hl]
    rfl
  refine ⟨by simp [exec, spec, hl, hxs.checked_touchIndex hl], ?_, fun ht hfit => ?_⟩
  · simpa [spec, hmem, dropKey_reverse] using h.touchIndex hl cost
  · refine ht.touchIndex h hl fun old hold => ?_
    have hcost : costOf L key = some old := by
      rw [← costOf_reverse h, ← h.costAt]
      exact hold
    have hsum := totalNat_dropKey h.ordered.nodup hcost
    have hexact : _ = _ := (LruList.exact_iff h).mpr ht
    simp only [Fits, spec, hmem, if_true, totalNat_cons] at hfit
    rw [toNat_satSub, hexact]
    omega

theorem lookup_eq_none (h : l.Stores L.reverse) :
    l.lookup.lookup key = none ↔ key ∉ L.map Prod.fst := by
  rw [← (L.reverse_perm.map Prod.fst).mem_iff, ← h.lookup_isSome, Bool.not_eq_true,
    isSome_eq_false_iff, isNone_iff_eq_none]

theorem push_front (h : l.Stores L.reverse) (key : K) (cost : UInt64) :
    Follows l L (.pushFront key cost) (l.pushFront key cost) := by
  unfold LruList.pushFront
  cases hl : l.lookup.lookup key with
  | none =>
    have hnew := push_new h ((lookup_eq_none h).mp hl) cost
    refine ⟨?_, hnew.stores, hnew.tallied⟩
    simpa only [exec, LruList.Checked.pushFront, hl, spec] using hnew.exec
  | some i =>
    have hmem : key ∈ L.map Prod.fst := by
      by_contra hout
      rw [(lookup_eq_none h).mpr hout] at hl
      cases hl
    have htouch := touch_index h hl cost
    have hspec : (touch key cost).spec L = (pushFront key cost).spec L := by simp [spec, hmem]
    refine ⟨?_, hspec ▸ htouch.stores, fun ht hfit => htouch.tallied ht ?_⟩
    · simpa only [exec, LruList.Checked.pushFront, hl, spec] using htouch.exec
    · rwa [Fits, hspec]

theorem touch_any (h : l.Stores L.reverse) (key : K) (cost : UInt64) :
    ∃ l', Follows l L (.touch key cost) l' := by
  cases hl : l.lookup.lookup key with
  | none =>
    have hout := (lookup_eq_none h).mp hl
    exact ⟨l, by simp [exec, spec, hl], by simpa [spec, hout] using h, fun ht _ => ht⟩
  | some i => exact ⟨_, touch_index h hl cost⟩

theorem move_to_front (h : l.Stores L.reverse) (key : K) :
    Follows l L (.moveToFront key) (l.moveToFront key) := by
  obtain ⟨xs, L', hxs, hq⟩ := h.listsAt
  have hexec : (moveToFront key).exec l = some (none, l.moveToFront key) := by
    simp [exec, hxs.checked_moveToFront]
  cases hc : costOf L key with
  | none =>
    have hnone := (lookup_eq_none h).mpr (costOf_eq_none.mp hc)
    have hmove : l.moveToFront key = l := by simp [LruList.moveToFront, hnone]
    rw [hmove] at hexec ⊢
    exact ⟨by simpa [spec] using hexec, by simpa [spec, hc] using h, fun ht _ => ht⟩
  | some cost =>
    have hc' : costOf L.reverse key = some cost := (costOf_reverse h key).trans hc
    obtain ⟨L', hlists, hq, e, he, rfl, rfl⟩ := h.exists_tracked hc'
    have hstores : (l.moveToFront e.name).Stores (dropKey e.name L.reverse ++ [(e.name, e.cost)]) := by
      refine ⟨⟨_, _⟩, ⟨hlists.moveToFront he, rfl⟩, ?_⟩
      rw [hq, ← PlainList.entries_without]
      exact map_append
    refine ⟨by simpa [spec] using hexec, by simpa [spec, hc, dropKey_reverse] using hstores, ?_⟩
    intro ht _
    have hsum := totalNat_dropKey h.nodup hc'
    rw [LruList.Tallied, h.fromTail] at ht
    rw [LruList.Tallied, hstores.fromTail, LruList.moveToFront_currentCost, ht, totalNat_append,
      totalNat_cons, totalNat_nil]
    simp only
    omega

theorem remove_fst (h : l.Stores L.reverse) (key : K) : (l.remove key).1 = costOf L key := by
  cases hc : costOf L key with
  | none =>
    have hnone := (lookup_eq_none h).mpr (costOf_eq_none.mp hc)
    simp [LruList.remove, hnone]
  | some cost =>
    obtain ⟨L', hlists, -, e, he, rfl, rfl⟩ := h.exists_tracked ((costOf_reverse h key).trans hc)
    exact (hlists.remove he).1

theorem remove_any (h : l.Stores L.reverse) (key : K) :
    Follows l L (.remove key) (l.remove key).2 := by
  obtain ⟨xs, L', hxs, -⟩ := h.listsAt
  refine ⟨by simp [exec, spec, hxs.checked_remove, remove_fst h], ?_, fun ht _ => ht.remove h key⟩
  simpa [spec, dropKey_reverse] using (h.remove key).2

theorem pop_back (h : l.Stores L.reverse) : ∃ l', Follows l L .popBack l' := by
  obtain ⟨xs, L', hxs, -⟩ := h.listsAt
  rcases L.eq_nil_or_concat with rfl | ⟨q, e, rfl⟩
  · exact ⟨l, by simp [exec, spec, hxs.checked_popBack, h.popBack_nil], h, fun ht _ => ht⟩
  · rw [concat_eq_append] at h ⊢
    rw [reverse_append, reverse_singleton, singleton_append] at h
    obtain ⟨l', hpop, h'⟩ := h.popBack_cons
    refine ⟨l', by simp [exec, spec, hxs.checked_popBack, hpop], by simpa [spec] using h', ?_⟩
    intro ht _
    have hremove : l' = _ := LruList.popBack_eq_remove hpop
    rw [hremove]
    exact ht.remove h e.1

theorem clears (l : LruList K) (L : List (K × UInt64)) : Follows l L .clear l.clear :=
  ⟨rfl, .clear l, fun _ _ => .clear l⟩

/-- An operation that the caller may call does what it does on the ordered list. -/
theorem exists_follows (h : l.Stores L.reverse) {a : LruAction K} (ha : a.Legal l) :
    ∃ l', Follows l L a l' := by
  cases a with
  | pushFront key cost => exact ⟨_, push_front h key cost⟩
  | pushNew key cost =>
    have hout : key ∉ L.map Prod.fst := by
      rw [← lookup_eq_none h]
      simpa [Legal, LruList.contains] using ha
    exact ⟨_, push_new h hout cost⟩
  | touch key cost => exact touch_any h key cost
  | moveToFront key => exact ⟨_, move_to_front h key⟩
  | popBack => exact pop_back h
  | remove key => exact ⟨_, remove_any h key⟩
  | clear => exact ⟨_, clears l L⟩

variable {s : LruList K × List (K × UInt64)}

theorem Follows.step_eq {a : LruAction K} {l' : LruList K} (h : Follows s.1 s.2 a l')
    (ha : a.Legal s.1) : step s a = some (l', (a.spec s.2).2) := by
  rw [step, if_pos ha, h.exec]
  rfl

theorem follows_of_step {t : LruList K × List (K × UInt64)} {a : LruAction K}
    (h : s.1.Stores s.2.reverse) (hstep : step s a = some t) :
    Follows s.1 s.2 a t.1 ∧ t.2 = (a.spec s.2).2 := by
  have ha : a.Legal s.1 := by
    by_contra hnot
    simp [step, hnot] at hstep
  obtain ⟨l', h'⟩ := exists_follows h ha
  obtain rfl := Option.some.inj ((h'.step_eq ha).symm.trans hstep)
  exact ⟨h', rfl⟩

theorem stores_step {t : LruList K × List (K × UInt64)} {a : LruAction K}
    (h : s.1.Stores s.2.reverse) (hstep : step s a = some t) : t.1.Stores t.2.reverse := by
  obtain ⟨h', ht⟩ := follows_of_step h hstep
  exact ht ▸ h'.stores

theorem stores_of_reachable (h : Machine.Reachable (step (K := K)) init s) :
    s.1.Stores s.2.reverse := by
  refine h.invariant ?_ fun _ _ _ ht _ hstep => stores_step ht hstep
  exact LruList.Stores.new

/-- In every run no access panics and the linked list is the ordered one; the recorded cost is exact
as long as the costs sum to a word, and wrong when they do not. -/
theorem exact_of_fits :
    (∀ s : LruList K × List (K × UInt64), Machine.Reachable step init s →
      s.1.Ordered s.2 ∧ ∀ a : LruAction K, a.Legal s.1 →
        ∃ l', a.exec s.1 = some ((a.spec s.2).1, l') ∧ l'.Ordered (a.spec s.2).2) ∧
    ∀ s : LruList K × List (K × UInt64), Machine.Run step Fits init s →
      s.1.Exact s.2 ∧ ∀ a t, step s a = some t → (t.1.Exact t.2 ↔ Fits s a) := by
  constructor
  · intro s h
    have hs := stores_of_reachable h
    refine ⟨hs.ordered, fun a ha => ?_⟩
    obtain ⟨l', h'⟩ := exists_follows hs ha
    exact ⟨l', h'.exec, h'.stores.ordered⟩
  · intro s h
    have hs := stores_of_reachable h.reachable
    have ht : s.1.Tallied := by
      have hinit : (init : LruList K × List (K × UInt64)).1.Tallied := LruList.Tallied.clear .new
      have hboth := h.invariant (I := fun s => s.1.Stores s.2.reverse ∧ s.1.Tallied)
        ⟨LruList.Stores.new, hinit⟩ fun t a u hI hfit hstep =>
          ⟨stores_step hI.1 hstep, (follows_of_step hI.1 hstep).1.tallied hI.2 hfit⟩
      exact hboth.2
    refine ⟨(LruList.exact_iff hs).mpr ht, fun a t hstep => ?_⟩
    obtain ⟨h', ht2⟩ := follows_of_step hs hstep
    constructor
    · intro hexact
      rw [Fits, ← ht2, ← hexact]
      exact t.1.currentCost.toNat_lt
    · intro hfit
      rw [ht2, LruList.exact_iff h'.stores]
      exact h'.tallied ht hfit

instance (s : LruList K × List (K × UInt64)) (a : LruAction K) : Decidable (Fits s a) :=
  Nat.decLt _ _

theorem exact_of_fits_two : ∃ s : LruList ℕ × List (ℕ × UInt64), s.2 = [(1, 5), (0, 3)] ∧
    s.1.Exact s.2 ∧ ∀ a t, step s a = some t → (t.1.Exact t.2 ↔ Fits s a) := by
  have hexec : (Machine.exec step (fun s a => decide (Fits s a)) (init (K := ℕ))
      [.pushFront 0 2, .pushNew 1 5, .touch 0 3, .moveToFront 1]).map Prod.snd =
        some [(1, 5), (0, 3)] := by
    rfl
  obtain ⟨s, hs, hlist⟩ := Option.map_eq_some_iff.mp hexec
  exact ⟨s, hlist,
    exact_of_fits.2 s (Machine.run_of_exec (fun _ _ => of_decide_eq_true) hs)⟩

/-- Two halves of `2 ^ 64` are recorded as nothing. -/
theorem not_exact_wrapped : ¬ ∀ s : LruList ℕ × List (ℕ × UInt64),
    Machine.Reachable step init s → s.1.Ordered s.2 ∧ s.1.Exact s.2 := by
  intro h
  have hexec : (Machine.exec step (fun _ _ => true) (init (K := ℕ))
      [.pushFront 0 (2 ^ 63), .pushFront 1 (2 ^ 63)]).map
        (fun s => (s.1.currentCost, totalNat Prod.snd s.2)) = some (0, 2 ^ 64) := by
    decide +kernel
  obtain ⟨s, hs, hcosts⟩ := Option.map_eq_some_iff.mp hexec
  obtain ⟨hzero, htotal⟩ := Prod.ext_iff.mp hcosts
  have hexact : _ = _ := (h s (Machine.reachable_of_exec hs)).2
  rw [show s.1.currentCost = 0 from hzero, show totalNat Prod.snd s.2 = 2 ^ 64 from htotal] at hexact
  exact absurd hexact (by decide)

end LruAction

end Fibre.Cache
