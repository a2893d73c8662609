import Mathlib.Data.Multiset.Range
import Fibre.Math.Chain
import Fibre.Math.Crew
import Fibre.Math.Machine

/-!
# The free list of the oneshot pool

A tagged Treiber stack over out-of-line links: the head packs a tag and an index, and the tag is
bumped by every CAS that succeeds. Any number of `pop`, `pop_chain` and `push` calls are
interleaved, each access to the head or to a link being a step of its own. A caller pushes only an
index it was handed out.

The tag has 32 bits. An operation is *fresh* if fewer than `2 ^ 32` operations succeeded between
its load of the head and its CAS.
-/

namespace Fibre.Channels.Oneshot

open Function Links Crew Machine List

def NIL : ℕ := 2 ^ 32 - 1

/-- The head of the free list. -/
structure Head where
  tag : ℕ
  idx : ℕ
  deriving DecidableEq

namespace Head

/-- The head as it is stored: `(tag << 32) | index`. -/
def word (h : Head) : ℕ := h.tag * 2 ^ 32 + h.idx

/-- The head an operation installs: the next tag, and its index. -/
def bump (h : Head) (idx : ℕ) : Head := ⟨(h.tag + 1) % 2 ^ 32, idx⟩

theorem word_fields {h : Head} (hidx : h.idx < 2 ^ 32) :
    h.word % 2 ^ 32 = h.idx ∧ h.word / 2 ^ 32 = h.tag := by
  unfold word
  omega

theorem word_bump {h : Head} (hidx : h.idx < 2 ^ 32) (idx : ℕ) :
    (h.bump idx).word = (h.word / 2 ^ 32 + 1) % 2 ^ 64 * 2 ^ 32 % 2 ^ 64 + idx := by
  rw [(word_fields hidx).2]
  simp only [bump, word]
  omega

end Head

namespace FreeList

/-- Where a call is: the access it makes next. `stamp` is the number of operations that had
succeeded when the head was loaded. -/
inductive Op
  /-- `pop`: `head.load()` -/
  | popLoad
  /-- `next[idx].load()` -/
  | popNext (head : Head) (stamp : ℕ)
  | popCas (head : Head) (stamp next : ℕ)
  | popped (idx : Option ℕ)
  /-- `pop_chain`: `head.load()` -/
  | chainLoad (n : ℕ)
  /-- the walk has `out`, and is at `idx`: the next link, or the CAS -/
  | chainWalk (n : ℕ) (head : Head) (stamp : ℕ) (out : List ℕ) (idx : ℕ)
  /-- the walk came to the end: `head.load() == head` -/
  | chainRecheck (n : ℕ) (head : Head)
  | chained (n : ℕ) (out : Option (List ℕ))
  /-- `push`: `head.load()` -/
  | pushLoad (idx : ℕ)
  /-- `next[idx].store()` -/
  | pushStore (idx : ℕ) (head : Head) (stamp : ℕ)
  | pushCas (idx : ℕ) (head : Head) (stamp : ℕ)
  | pushed
  deriving DecidableEq

namespace Op

/-- What the call returned. -/
def result : Op → List ℕ
  | popped (some idx) => [idx]
  | chained _ (some out) => out
  | _ => []

/-- The index the call is pushing. -/
def pushing : Op → Multiset ℕ
  | pushLoad idx | pushStore idx _ _ | pushCas idx _ _ => {idx}
  | _ => 0

def link : Op → Option ℕ
  | popNext head _ => some head.idx
  | chainWalk n _ _ out idx => if out.length < n ∧ idx ≠ NIL then some idx else none
  | pushStore idx _ _ => some idx
  | _ => none

/-- The stamp of the head the call compares with, if its next access is a CAS. -/
def cas : Op → Option ℕ
  | popCas _ stamp _ | pushCas _ _ stamp => some stamp
  | chainWalk n _ stamp out _ => if out.length < n then none else some stamp
  | _ => none

end Op

/-- What a call did to the list, when its CAS succeeded. -/
inductive Event
  | handedOut (call idx : ℕ)
  | takenBack (idx : ℕ)
  deriving DecidableEq

/-- The free list with its calls; `out` are the indices the callers hold, `succeeded` counts the
successful operations, and `history` has them, the last first. -/
structure System where
  capacity : ℕ
  head : Head
  next : ℕ → ℕ
  ops : List Op
  out : Multiset ℕ
  succeeded : ℕ
  history : List Event

/-- A step of the machine. -/
inductive Action
  | pop
  | popChain (n : ℕ)
  /-- a caller pushes an index it holds -/
  | push (idx : ℕ)
  /-- the next access of a call; a weak CAS may fail spuriously -/
  | advance (i : ℕ) (spurious : Bool)

namespace System

/-- `Freelist::new`: every index is free; `none` where the assertion fails. -/
def new (capacity : ℕ) : Option System :=
  if capacity < NIL then
    some {
      capacity := capacity
      head := ⟨0, if capacity = 0 then NIL else 0⟩
      next := fun i => if i + 1 < capacity then i + 1 else NIL
      ops := []
      out := 0
      succeeded := 0
      history := [] }
  else none

def install (s : System) (head : Head) : System :=
  { s with head := head, succeeded := s.succeeded + 1 }

def handOut (s : System) (i : ℕ) (idxs : List ℕ) : System :=
  { s with out := idxs + s.out, history := idxs.map (.handedOut i) ++ s.history }

/-- The index is pushed. -/
def takeBack (s : System) (idx : ℕ) : System :=
  { s with history := .takenBack idx :: s.history }

/-- The next access of call `i`, and where it leads. -/
def access (s : System) (i : ℕ) (spurious : Bool) : Op → Op × System
  | .popLoad =>
    (if s.head.idx = NIL then .popped none else .popNext s.head s.succeeded, s)
  | .popNext head stamp => (.popCas head stamp (s.next head.idx), s)
  | .popCas head _ next =>
    if s.head = head ∧ ¬ spurious then
      (.popped (some head.idx), (s.install (head.bump next)).handOut i [head.idx])
    else (.popLoad, s)
  | .popped idx => (.popped idx, s)
  | .chainLoad n => (.chainWalk n s.head s.succeeded [] s.head.idx, s)
  | .chainWalk n head stamp out idx =>
    if out.length < n then
      if idx = NIL then (.chainRecheck n head, s)
      else (.chainWalk n head stamp (out ++ [idx]) (s.next idx), s)
    else if s.head = head then
      (.chained n (some out), (s.install (head.bump idx)).handOut i out)
    else (.chainLoad n, s)
  | .chainRecheck n head => (if s.head = head then .chained n none else .chainLoad n, s)
  | .chained n out => (.chained n out, s)
  | .pushLoad idx => (.pushStore idx s.head s.succeeded, s)
  | .pushStore idx head stamp =>
    (.pushCas idx head stamp, { s with next := update s.next idx head.idx })
  | .pushCas idx head _ =>
    if s.head = head ∧ ¬ spurious then
      (.pushed, (s.install (head.bump idx)).takeBack idx)
    else (.pushLoad idx, s)
  | .pushed => (.pushed, s)

/-- Call `i` is now at `op`. -/
def move (s : System) (i : ℕ) (op : Op) : System := { s with ops := s.ops.set i op }

/-- A call begins. -/
def start (s : System) (op : Op) : System := { s with ops := s.ops ++ [op] }

/-- The system after an action; `none` when it is not possible. -/
def step (s : System) : Action → Option System
  | .pop => some (s.start .popLoad)
  | .popChain n => some (s.start (if n = 0 then .chained 0 (some []) else .chainLoad n))
  | .push idx =>
    if idx ∈ s.out then some ({ s with out := s.out.erase idx }.start (.pushLoad idx)) else none
  | .advance i spurious => s.ops[i]?.map fun op =>
      let r := s.access i spurious op
      r.2.move i r.1

/-- Fewer than `2 ^ 32` operations succeeded since the load, if the step is a CAS. -/
def Fresh (s : System) : Action → Prop
  | .advance i _ => ∀ op stamp, s.ops[i]? = some op → op.cas = some stamp →
      s.succeeded < stamp + 2 ^ 32
  | _ => True

/-- The indices that are not free: those the callers hold, and those on the way back. -/
def outstanding (s : System) : Multiset ℕ := s.out + gather Op.pushing s.ops

def handed (s : System) (i : ℕ) : List ℕ :=
  s.history.filterMap fun
    | .handedOut call idx => if call = i then some idx else none
    | .takenBack _ => none

/-- What the free list promises. -/
structure Partitioned (s : System) : Prop where
  /-- the free and the outstanding indices are the indices, each once -/
  partition : ∃ free : List ℕ, Chain s.next NIL s.head.idx free ∧
    (free : Multiset ℕ) + s.outstanding = Multiset.range s.capacity
  /-- an index is taken back between two times it is handed out -/
  once : ∀ idx call call' after between before,
    s.history = after ++ .handedOut call idx :: (between ++ .handedOut call' idx :: before) →
      .takenBack idx ∈ between
  /-- what was handed out to a call is what it returned -/
  handed : ∀ (i : ℕ) (op : Op), s.ops[i]? = some op → s.handed i = op.result
  /-- `pop_chain` returns all it was asked for, or nothing -/
  chained : ∀ (i n : ℕ) (out : List ℕ), s.ops[i]? = some (Op.chained n (some out)) → out.length = n
  /-- no access to the links is out of bounds -/
  inBounds : ∀ (i : ℕ) (op : Op) (idx : ℕ), s.ops[i]? = some op → op.link = some idx → idx < s.capacity

end System

/-! ### The history -/

/-- The last thing that happened to the index is that it was handed out. -/
def Lent (idx : ℕ) : List Event → Prop
  | [] => False
  | .handedOut _ idx' :: history => idx' = idx ∨ Lent idx history
  | .takenBack idx' :: history => idx' ≠ idx ∧ Lent idx history

/-- An index is handed out only while it is not lent. -/
def Alternates : List Event → Prop
  | [] => True
  | .handedOut _ idx :: history => ¬ Lent idx history ∧ Alternates history
  | .takenBack _ :: history => Alternates history

variable {history between before after : List Event} {idx call call' : ℕ} {idxs : List ℕ}

theorem lent_of_notMem (h : .takenBack idx ∉ between) :
    Lent idx (between ++ .handedOut call idx :: before) := by
  induction between with
  | nil => exact .inl rfl
  | cons e between ih =>
    obtain ⟨hne, hrest⟩ := not_or.mp (fun hor => h (mem_cons.mpr hor))
    cases e with
    | handedOut _ _ => exact .inr (ih hrest)
    | takenBack idx' => exact ⟨fun heq => hne (by rw [heq]), ih hrest⟩

theorem Alternates.of_append (h : Alternates (after ++ history)) : Alternates history := by
  induction after with
  | nil => exact h
  | cons e after ih =>
    cases e with
    | handedOut _ _ => exact ih h.2
    | takenBack _ => exact ih h

theorem Alternates.takenBack_mem
    (h : Alternates (after ++ .handedOut call idx :: (between ++ .handedOut call' idx :: before))) :
    .takenBack idx ∈ between := by
  by_contra hnot
  exact h.of_append.1 (lent_of_notMem hnot)

theorem lent_handedOut_iff :
    Lent idx (idxs.map (.handedOut call) ++ history) ↔ idx ∈ idxs ∨ Lent idx history := by
  induction idxs with
  | nil => simp
  | cons idx' idxs ih =>
    simp only [map_cons, cons_append, Lent, ih, mem_cons, eq_comm (a := idx), or_assoc]

theorem Alternates.handedOut (h : Alternates history) (hnodup : idxs.Nodup)
    (hlent : ∀ idx ∈ idxs, ¬ Lent idx history) :
    Alternates (idxs.map (.handedOut call) ++ history) := by
  induction idxs with
  | nil => exact h
  | cons idx idxs ih =>
    obtain ⟨hnot, hnodup⟩ := nodup_cons.mp hnodup
    refine ⟨fun hl => ?_, ih hnodup fun i hi => hlent i (mem_cons_of_mem _ hi)⟩
    rcases lent_handedOut_iff.mp hl with hmem | hl
    · exact hnot hmem
    · exact hlent idx mem_cons_self hl

/-! ### The invariant -/

namespace System

variable {s t : System} {free : List ℕ} {op op' : Op} {i : ℕ}

/-- A link, or the index of a head. -/
def Valid (s : System) (idx : ℕ) : Prop := idx = NIL ∨ idx < s.capacity

/-- A head that was loaded after `stamp` operations: it is the head, unless another operation
succeeded since. -/
def Loaded (s : System) (head : Head) (stamp : ℕ) : Prop :=
  stamp ≤ s.succeeded ∧ head.tag = stamp % 2 ^ 32 ∧ s.Valid head.idx ∧
    (stamp = s.succeeded → head = s.head)

/-- What a call has seen of the list is true of it, until another operation succeeds. -/
def Fits (s : System) (free : List ℕ) : Op → Prop
  | .popNext head stamp => s.Loaded head stamp ∧ head.idx ≠ NIL
  | .popCas head stamp next =>
    s.Loaded head stamp ∧ head.idx ≠ NIL ∧ (stamp = s.succeeded → next = s.next head.idx)
  | .chainWalk n head stamp out idx =>
    s.Loaded head stamp ∧ s.Valid idx ∧ out.length ≤ n ∧
      (stamp = s.succeeded → ∃ rest, free = out ++ rest ∧ Chain s.next NIL idx rest)
  | .chained n (some out) => out.length = n
  | .pushStore _ head stamp => s.Loaded head stamp
  | .pushCas idx head stamp => s.Loaded head stamp ∧ s.next idx = head.idx
  | _ => True

/-- The invariant: `free` are the free indices, in the order of the links. -/
structure Inv (s : System) (free : List ℕ) : Prop where
  small : s.capacity < NIL
  chain : Chain s.next NIL s.head.idx free
  tag : s.head.tag = s.succeeded % 2 ^ 32
  parts : (free : Multiset ℕ) + s.outstanding = Multiset.range s.capacity
  links : ∀ idx < s.capacity, s.Valid (s.next idx)
  fits : ∀ (i : ℕ) (op : Op), s.ops[i]? = some op → s.Fits free op
  handed : ∀ (i : ℕ) (op : Op), s.ops[i]? = some op → s.handed i = op.result
  later : ∀ i, s.ops.length ≤ i → s.handed i = []
  lent : ∀ idx, Lent idx s.history ↔ idx ∈ s.outstanding
  alternates : Alternates s.history

theorem Inv.nodup (h : s.Inv free) :
    free.Nodup ∧ s.outstanding.Nodup ∧ Disjoint (free : Multiset ℕ) s.outstanding := by
  have hnodup : ((free : Multiset ℕ) + s.outstanding).Nodup := h.parts ▸ Multiset.nodup_range _
  simpa using Multiset.nodup_add.mp hnodup

theorem Inv.lt_of_mem (h : s.Inv free) {idx : ℕ} (hidx : idx ∈ free ∨ idx ∈ s.outstanding) :
    idx < s.capacity := by
  have hmem : idx ∈ (free : Multiset ℕ) + s.outstanding := by simpa using hidx
  rw [h.parts] at hmem
  exact Multiset.mem_range.mp hmem

theorem Inv.not_free (h : s.Inv free) {idx : ℕ} (hidx : idx ∈ s.outstanding) : idx ∉ free :=
  fun hmem => Multiset.disjoint_left.mp h.nodup.2.2 hmem hidx

theorem Inv.valid_head (h : s.Inv free) : s.Valid s.head.idx := by
  rcases eq_or_ne s.head.idx NIL with hnil | hne
  · exact .inl hnil
  · obtain ⟨rest, rfl, _⟩ := h.chain.of_ne hne
    exact .inr (h.lt_of_mem (.inl mem_cons_self))

theorem Inv.loaded (h : s.Inv free) : s.Loaded s.head s.succeeded :=
  ⟨le_rfl, h.tag, h.valid_head, fun _ => rfl⟩

theorem Inv.valid_next (h : s.Inv free) {idx : ℕ} (hidx : s.Valid idx) (hne : idx ≠ NIL) :
    s.Valid (s.next idx) :=
  h.links idx (hidx.resolve_left hne)

theorem mem_outstanding (hi : s.ops[i]? = some op) {idx : ℕ} (hidx : idx ∈ op.pushing) :
    idx ∈ s.outstanding :=
  Multiset.mem_add.mpr (.inr (mem_gather hi hidx))

/-! #### What the calls have seen -/

theorem Loaded.later {head : Head} {stamp : ℕ} (h : s.Loaded head stamp)
    (hcapacity : t.capacity = s.capacity) (hlater : t.succeeded = s.succeeded + 1) :
    t.Loaded head stamp := by
  obtain ⟨hle, htag, hvalid, _⟩ := h
  refine ⟨by omega, htag, ?_, by omega⟩
  rw [Valid, hcapacity]
  exact hvalid

theorem Fits.later {free' : List ℕ} (h : s.Fits free op) (hcapacity : t.capacity = s.capacity)
    (hlater : t.succeeded = s.succeeded + 1)
    (hnext : ∀ idx ∈ op.pushing, t.next idx = s.next idx) : t.Fits free' op := by
  cases op with
  | popNext head stamp => exact ⟨h.1.later hcapacity hlater, h.2⟩
  | popCas head stamp next =>
    refine ⟨h.1.later hcapacity hlater, h.2.1, fun hstamp => ?_⟩
    have := h.1.1
    omega
  | chainWalk n head stamp out idx =>
    refine ⟨h.1.later hcapacity hlater, ?_, h.2.2.1, fun hstamp => ?_⟩
    · rw [Valid, hcapacity]
      exact h.2.1
    · have := h.1.1
      omega
  | pushStore idx head stamp => exact Loaded.later h hcapacity hlater
  | pushCas idx head stamp =>
    refine ⟨h.1.later hcapacity hlater, ?_⟩
    rw [hnext idx (Multiset.mem_singleton_self idx)]
    exact h.2
  | chained n out =>
    cases out with
    | none => trivial
    | some out => exact h
  | _ => trivial

theorem Fits.store (h : s.Fits free op) (hchain : Chain s.next NIL s.head.idx free) {idx link : ℕ}
    (hfree : idx ∉ free) (hpush : idx ∉ op.pushing) :
    ({ s with next := update s.next idx link } : System).Fits free op := by
  cases op with
  | popCas head stamp next =>
    obtain ⟨hloaded, hne, hnext⟩ := h
    refine ⟨hloaded, hne, fun hstamp => ?_⟩
    have hhead : head.idx ≠ idx := by
      rintro rfl
      obtain rfl := hloaded.2.2.2 hstamp
      obtain ⟨rest, rfl, _⟩ := hchain.of_ne hne
      exact hfree mem_cons_self
    rw [hnext hstamp]
    exact (update_of_ne hhead _ _).symm
  | chainWalk n head stamp out idx' =>
    obtain ⟨hloaded, hvalid, hlen, hrest⟩ := h
    refine ⟨hloaded, hvalid, hlen, fun hstamp => ?_⟩
    obtain ⟨rest, rfl, hwalk⟩ := hrest hstamp
    exact ⟨rest, rfl, hwalk.update (fun hmem => hfree (mem_append_right _ hmem)) _⟩
  | pushCas idx' head stamp =>
    obtain ⟨hloaded, hlink⟩ := h
    refine ⟨hloaded, ?_⟩
    have hne : idx' ≠ idx := by
      rintro rfl
      exact hpush (Multiset.mem_singleton_self idx')
    rw [← hlink]
    exact update_of_ne hne _ _
  | chained n out => cases out <;> exact h
  | _ => exact h

/-! #### What a step does -/

theorem forall_set {P : ℕ → Op → Prop} {ops : List Op} (hop : P i op')
    (hothers : ∀ j o, ops[j]? = some o → j ≠ i → P j o) :
    ∀ j o, (ops.set i op')[j]? = some o → P j o := by
  intro j o hj
  rw [List.getElem?_set] at hj
  split_ifs at hj with hij hlt
  · obtain rfl := hij
    obtain rfl := Option.some.inj hj
    exact hop
  · exact hothers j o hj (Ne.symm hij)

theorem gather_move (hi : s.ops[i]? = some op) (hpush : op'.pushing = op.pushing) :
    gather Op.pushing (s.ops.set i op') = gather Op.pushing s.ops := by
  have hg := gather_set Op.pushing hi op'
  rwa [hpush, add_left_inj] at hg

theorem Inv.quiet (h : s.Inv free) (hi : s.ops[i]? = some op) (hfits : s.Fits free op')
    (hresult : op'.result = op.result) (hpush : op'.pushing = op.pushing) :
    (s.move i op').Inv free := by
  have hout : (s.move i op').outstanding = s.outstanding :=
    congrArg (s.out + ·) (gather_move hi hpush)
  exact {
    small := h.small
    chain := h.chain
    tag := h.tag
    parts := by
      rw [hout]
      exact h.parts
    links := h.links
    fits := forall_set (P := fun _ o => s.Fits free o) hfits fun j o hj _ => h.fits j o hj
    handed := forall_set (P := fun j o => s.handed j = o.result)
      (hresult ▸ h.handed i op hi) fun j o hj _ => h.handed j o hj
    later := fun j hj => h.later j (by simpa [move] using hj)
    lent := by
      rw [hout]
      exact h.lent
    alternates := h.alternates }

theorem handed_handOut (s : System) (i j : ℕ) (idxs : List ℕ) :
    (s.handOut i idxs).handed j = (if i = j then idxs else []) ++ s.handed j := by
  simp only [System.handed, handOut, filterMap_append, filterMap_map]
  congr 1
  split_ifs with hij
  · simp [hij]
  · simp [hij]

theorem Inv.take {idxs rest : List ℕ} {next : ℕ} (h : s.Inv free) (hi : s.ops[i]? = some op)
    (hpush : op.pushing = 0) (hresult : op.result = []) (hfree : free = idxs ++ rest)
    (hchain : Chain s.next NIL next rest) (hfits : ∀ t : System, t.Fits rest op')
    (hpush' : op'.pushing = 0) (hresult' : op'.result = idxs) :
    (((s.install (s.head.bump next)).handOut i idxs).move i op').Inv rest := by
  have hout : (((s.install (s.head.bump next)).handOut i idxs).move i op').outstanding =
      idxs + s.outstanding := by
    have hg := gather_move hi (hpush'.trans hpush.symm)
    simp only [outstanding, move, handOut, install, hg, add_assoc]
  have hhanded : ∀ j, (((s.install (s.head.bump next)).handOut i idxs).move i op').handed j =
      (if i = j then idxs else []) ++ s.handed j := fun j => handed_handOut s i j idxs
  obtain ⟨hnodup, -, hdisjoint⟩ := h.nodup
  exact {
    small := h.small
    chain := hchain
    tag := by
      have htag := h.tag
      simp only [move, handOut, install, Head.bump]
      omega
    parts := by
      have hparts := h.parts
      rw [hfree, ← Multiset.coe_add, add_comm (idxs : Multiset ℕ), add_assoc] at hparts
      rw [hout]
      exact hparts
    links := h.links
    fits := forall_set (P := fun _ o => System.Fits _ rest o) (hfits _) fun j o hj _ =>
      (h.fits j o hj).later rfl rfl fun _ _ => rfl
    handed := by
      refine forall_set (P := fun j o => System.handed _ j = o.result) ?_ fun j o hj hne => ?_
      · rw [hhanded, if_pos rfl, h.handed i op hi, hresult, append_nil, hresult']
      · rw [hhanded, if_neg (Ne.symm hne), nil_append, h.handed j o hj]
    later := by
      intro j hj
      have hlt : i < s.ops.length := (List.getElem?_eq_some_iff.mp hi).1
      simp only [move, handOut, install, length_set] at hj
      rw [hhanded, if_neg (by omega), nil_append, h.later j hj]
    lent := by
      intro idx
      rw [hout, Multiset.mem_add, Multiset.mem_coe]
      exact lent_handedOut_iff.trans (or_congr_right (h.lent idx))
    alternates := by
      refine h.alternates.handedOut (Nodup.of_append_left (hfree ▸ hnodup)) fun idx hidx hl => ?_
      have hmem : idx ∈ free := hfree ▸ mem_append_left rest hidx
      exact Multiset.disjoint_left.mp hdisjoint hmem ((h.lent idx).mp hl) }

theorem Inv.store {idx stamp : ℕ} {head : Head} (h : s.Inv free)
    (hi : s.ops[i]? = some (.pushStore idx head stamp)) :
    (({ s with next := update s.next idx head.idx } : System).move i
      (.pushCas idx head stamp)).Inv free := by
  have hloaded : s.Loaded head stamp := h.fits i _ hi
  have hmem : idx ∈ s.outstanding := mem_outstanding hi (Multiset.mem_singleton_self idx)
  have hfree : idx ∉ free := h.not_free hmem
  have hout : (({ s with next := update s.next idx head.idx } : System).move i
      (.pushCas idx head stamp)).outstanding = s.outstanding :=
    congrArg (s.out + ·) (gather_move hi rfl)
  exact {
    small := h.small
    chain := h.chain.update hfree _
    tag := h.tag
    parts := by
      rw [hout]
      exact h.parts
    links := by
      intro idx' hidx'
      simp only [move, update_apply]
      split_ifs
      · exact hloaded.2.2.1
      · exact h.links idx' hidx'
    fits := by
      refine forall_set (P := fun _ o => System.Fits _ free o)
        ⟨hloaded, by simp [move]⟩ fun j o hj hne => ?_
      refine (h.fits j o hj).store h.chain hfree fun hpush => hne ?_
      have hpushing := (Multiset.nodup_add.mp h.nodup.2.1).2.1
      exact unique_of_nodup_gather hpushing hj hi hpush (Multiset.mem_singleton_self idx)
    handed := forall_set (P := fun j o => s.handed j = o.result)
      (h.handed i _ hi :) fun j o hj _ => h.handed j o hj
    later := fun j hj => h.later j (by simpa [move] using hj)
    lent := by
      rw [hout]
      exact h.lent
    alternates := h.alternates }

/-- The CAS of a `push` succeeds. -/
theorem Inv.push {idx stamp : ℕ} (h : s.Inv free)
    (hi : s.ops[i]? = some (.pushCas idx s.head stamp)) :
    (((s.install (s.head.bump idx)).takeBack idx).move i .pushed).Inv (idx :: free) := by
  obtain ⟨-, hlink⟩ : s.Loaded s.head stamp ∧ s.next idx = s.head.idx := h.fits i _ hi
  have hmem : idx ∈ s.outstanding := mem_outstanding hi (Multiset.mem_singleton_self idx)
  have hlt := h.lt_of_mem (.inr hmem)
  have hsmall := h.small
  have hout : s.outstanding =
      {idx} + (((s.install (s.head.bump idx)).takeBack idx).move i .pushed).outstanding := by
    have hg := gather_set Op.pushing hi .pushed
    simp only [outstanding, move, takeBack, install, Op.pushing, add_zero] at hg ⊢
    rw [← hg]
    ac_rfl
  have hnodup := h.nodup.2.1
  rw [hout, Multiset.singleton_add, Multiset.nodup_cons] at hnodup
  exact {
    small := h.small
    chain := .cons (by change idx ≠ NIL; omega) (hlink ▸ h.chain)
    tag := by
      have htag := h.tag
      simp only [move, takeBack, install, Head.bump]
      omega
    parts := by
      have hparts := h.parts
      rw [hout, add_left_comm, Multiset.singleton_add, ← Multiset.cons_add,
        Multiset.cons_coe] at hparts
      exact hparts
    links := h.links
    fits := forall_set (P := fun _ o => System.Fits _ (idx :: free) o) trivial fun j o hj _ =>
      (h.fits j o hj).later rfl rfl fun _ _ => rfl
    handed := forall_set (P := fun j o => s.handed j = o.result)
      (h.handed i _ hi :) fun j o hj _ => h.handed j o hj
    later := fun j hj => h.later j (by simpa [move, takeBack, install] using hj)
    lent := by
      intro idx'
      have hlent := h.lent idx'
      rw [hout, Multiset.mem_add, Multiset.mem_singleton] at hlent
      constructor
      · rintro ⟨hne, hl⟩
        exact (hlent.mp hl).resolve_left (Ne.symm hne)
      · intro hidx'
        refine ⟨?_, hlent.mpr (.inr hidx')⟩
        rintro rfl
        exact hnodup.1 hidx'
    alternates := h.alternates }

theorem Inv.begin (h : s.Inv free) (out : Multiset ℕ) (hfits : s.Fits free op)
    (hresult : op.result = []) (hpush : out + op.pushing = s.out) :
    ({ s with out := out }.start op).Inv free := by
  have hout : ({ s with out := out }.start op).outstanding = s.outstanding := by
    simp only [outstanding, start, gather_append_singleton, ← hpush]
    ac_rfl
  exact {
    small := h.small
    chain := h.chain
    tag := h.tag
    parts := by
      rw [hout]
      exact h.parts
    links := h.links
    fits := by
      intro j o hj
      rcases mem_append.mp (mem_of_getElem? hj) with hmem | hmem
      · obtain ⟨j, hj⟩ := mem_iff_getElem?.mp hmem
        exact h.fits j o hj
      · obtain rfl := mem_singleton.mp hmem
        exact hfits
    handed := by
      intro j o hj
      simp only [start, List.getElem?_append] at hj
      split_ifs at hj with hlt
      · exact h.handed j o hj
      · obtain rfl : op = o := by
          cases hk : j - s.ops.length with
          | zero => simpa [hk] using hj
          | succ k => simp [hk] at hj
        rw [hresult]
        exact h.later j (by omega)
    later := fun j hj => h.later j (by simp [start] at hj; omega)
    lent := by
      rw [hout]
      exact h.lent
    alternates := h.alternates }

theorem Loaded.stamp_eq {head : Head} {stamp : ℕ} (h : s.Loaded head stamp) (hinv : s.Inv free)
    (hfresh : s.succeeded < stamp + 2 ^ 32) (hcas : s.head = head) : stamp = s.succeeded := by
  obtain ⟨hle, htag, -, -⟩ := h
  have hcurrent := hinv.tag
  rw [hcas] at hcurrent
  omega

theorem Inv.access {spurious : Bool} (h : s.Inv free) (hi : s.ops[i]? = some op)
    (hfresh : ∀ stamp, op.cas = some stamp → s.succeeded < stamp + 2 ^ 32) :
    ∃ free', ((s.access i spurious op).2.move i (s.access i spurious op).1).Inv free' := by
  have hfits := h.fits i op hi
  cases op with
  | popLoad =>
    refine ⟨free, ?_⟩
    simp only [System.access]
    split_ifs with hnil
    · exact h.quiet hi trivial rfl rfl
    · exact h.quiet hi ⟨h.loaded, hnil⟩ rfl rfl
  | popNext head stamp =>
    obtain ⟨hloaded, hne⟩ := hfits
    exact ⟨free, h.quiet hi ⟨hloaded, hne, fun _ => rfl⟩ rfl rfl⟩
  | popCas head stamp next =>
    obtain ⟨hloaded, hne, hnext⟩ := hfits
    simp only [System.access]
    split_ifs with hcas
    · obtain ⟨rfl, -⟩ := hcas
      have hstamp := hloaded.stamp_eq h (hfresh stamp rfl) rfl
      obtain ⟨rest, hfree, hrest⟩ := h.chain.of_ne hne
      exact ⟨rest, h.take hi rfl rfl hfree (hnext hstamp ▸ hrest) (fun _ => trivial) rfl rfl⟩
    · exact ⟨free, h.quiet hi trivial rfl rfl⟩
  | chainLoad n =>
    exact ⟨free, h.quiet hi ⟨h.loaded, h.valid_head, Nat.zero_le n,
      fun _ => ⟨free, rfl, h.chain⟩⟩ rfl rfl⟩
  | chainWalk n head stamp out idx =>
    obtain ⟨hloaded, hvalid, hlen, hwalk⟩ := hfits
    simp only [System.access]
    split_ifs with hlt hnil hcas
    · exact ⟨free, h.quiet hi trivial rfl rfl⟩
    · refine ⟨free, h.quiet hi ⟨hloaded, h.valid_next hvalid hnil, ?_, fun hstamp => ?_⟩ rfl rfl⟩
      · simpa [Nat.succ_le_iff] using hlt
      · obtain ⟨rest, rfl, hrest⟩ := hwalk hstamp
        obtain ⟨rest', rfl, hrest'⟩ := hrest.of_ne hnil
        exact ⟨rest', by simp, hrest'⟩
    · -- the tag stands for the whole walk: nothing was pushed or popped since it began
      subst hcas
      have hstamp := hloaded.stamp_eq h (hfresh stamp (if_neg hlt)) rfl
      obtain ⟨rest, hfree, hrest⟩ := hwalk hstamp
      exact ⟨rest, h.take hi rfl rfl hfree hrest (fun _ => by simp only [Fits]; omega) rfl rfl⟩
    · exact ⟨free, h.quiet hi trivial rfl rfl⟩
  | chainRecheck n head =>
    refine ⟨free, ?_⟩
    simp only [System.access]
    split_ifs
    · exact h.quiet hi trivial rfl rfl
    · exact h.quiet hi trivial rfl rfl
  | pushLoad idx => exact ⟨free, h.quiet hi h.loaded rfl rfl⟩
  | pushStore idx head stamp => exact ⟨free, h.store hi⟩
  | pushCas idx head stamp =>
    simp only [System.access]
    split_ifs with hcas
    · obtain ⟨rfl, -⟩ := hcas
      exact ⟨idx :: free, h.push hi⟩
    · exact ⟨free, h.quiet hi trivial rfl rfl⟩
  | popped idx => exact ⟨free, h.quiet hi hfits rfl rfl⟩
  | chained n out => exact ⟨free, h.quiet hi hfits rfl rfl⟩
  | pushed => exact ⟨free, h.quiet hi hfits rfl rfl⟩

theorem Inv.step {a : Action} (h : s.Inv free) (hfresh : s.Fresh a) (hstep : s.step a = some t) :
    ∃ free', t.Inv free' := by
  cases a with
  | pop =>
    obtain rfl := Option.some.inj hstep
    exact ⟨free, h.begin s.out trivial rfl (add_zero _)⟩
  | popChain n =>
    obtain rfl := Option.some.inj hstep
    refine ⟨free, ?_⟩
    split_ifs
    · exact h.begin s.out rfl rfl (add_zero _)
    · exact h.begin s.out trivial rfl (add_zero _)
  | push idx =>
    simp only [System.step] at hstep
    split_ifs at hstep with hmem
    obtain rfl := Option.some.inj hstep
    refine ⟨free, h.begin _ trivial rfl ?_⟩
    rw [Op.pushing, add_comm, Multiset.singleton_add, Multiset.cons_erase hmem]
  | advance i spurious =>
    obtain ⟨op, hi, rfl⟩ := Option.map_eq_some_iff.mp hstep
    exact h.access hi fun stamp => hfresh op stamp hi

theorem chain_new {capacity : ℕ} (hsmall : capacity < NIL) (n idx : ℕ)
    (hcapacity : idx + n + 1 = capacity) :
    Chain (fun i => if i + 1 < capacity then i + 1 else NIL) NIL idx (List.range' idx (n + 1)) := by
  induction n generalizing idx with
  | zero =>
    refine .cons (by omega) ?_
    rw [if_neg (by omega)]
    exact .nil
  | succ n ih =>
    refine .cons (by omega) ?_
    rw [if_pos (by omega)]
    exact ih (idx + 1) (by omega)

theorem inv_new {capacity : ℕ} (h : new capacity = some s) : s.Inv (List.range capacity) := by
  by_cases hsmall : capacity < NIL
  swap
  · simp [new, hsmall] at h
  rw [new, if_pos hsmall] at h
  obtain rfl := Option.some.inj h
  exact {
    small := hsmall
    chain := by
      cases capacity with
      | zero => exact .nil
      | succ n =>
        rw [range_eq_range']
        exact chain_new hsmall n 0 (by omega)
    tag := rfl
    parts := by
      rw [outstanding, gather_nil, add_zero, add_zero]
      rfl
    links := by
      intro idx _
      simp only [Valid]
      split_ifs with hlt
      · exact .inr hlt
      · exact .inl rfl
    fits := fun i op hi => by simp at hi
    handed := fun i op hi => by simp at hi
    later := fun _ _ => rfl
    lent := fun idx => by simp [Lent, outstanding]
    alternates := trivial }

/-- In every interleaving of pushes, pops and chain pops whose CASes are fresh, the free and the
outstanding indices partition the slots, an index is handed out again only after it was taken
back, and a chain pop gets all the indices it asked for or none. -/
theorem partitioned {capacity : ℕ} {s₀ : System} (hnew : new capacity = some s₀)
    (h : Run step Fresh s₀ s) : s.Partitioned := by
  obtain ⟨free, hinv⟩ : ∃ free, s.Inv free := by
    refine h.invariant (I := fun t => ∃ free, t.Inv free) ⟨_, inv_new hnew⟩
      fun t a u ht hfresh hstep => ?_
    obtain ⟨_, ht⟩ := ht
    exact ht.step hfresh hstep
  refine ⟨⟨free, hinv.chain, hinv.parts⟩, fun idx call call' after between before heq => ?_,
    hinv.handed, fun i n out hi => hinv.fits i _ hi, fun i op idx hi hlink => ?_⟩
  · exact (heq ▸ hinv.alternates).takenBack_mem
  · have hfits := hinv.fits i op hi
    cases op with
    | popNext head stamp =>
      obtain rfl := Option.some.inj hlink
      exact hfits.1.2.2.1.resolve_left hfits.2
    | chainWalk n head stamp out idx' =>
      simp only [Op.link] at hlink
      split_ifs at hlink with hwalk
      obtain rfl := Option.some.inj hlink
      exact hfits.2.1.resolve_left hwalk.2
    | pushStore idx' head stamp =>
      obtain rfl := Option.some.inj hlink
      exact hinv.lt_of_mem (.inr (mem_outstanding hi (Multiset.mem_singleton_self _)))
    | _ => simp [Op.link] at hlink

/-- A pop loads its link, sleeps through a chain pop and a push of its index, and tries again. -/
theorem partitioned_aba : ∃ s₀ s, new 3 = some s₀ ∧ Run step Fresh s₀ s ∧ s.Partitioned ∧
    s.history = [.handedOut 0 0, .takenBack 0, .handedOut 1 0, .handedOut 1 1] := by
  have hexec : ((new 3).bind fun s₀ =>
      exec step (fun s _ => decide (s.succeeded < 2 ^ 32)) s₀
        (Action.pop :: List.replicate 2 (Action.advance 0 false) ++ Action.popChain 2 ::
          List.replicate 4 (Action.advance 1 false) ++ Action.push 0 ::
          List.replicate 3 (Action.advance 2 false) ++
          List.replicate 4 (Action.advance 0 false))).map System.history =
      some [.handedOut 0 0, .takenBack 0, .handedOut 1 0, .handedOut 1 1] := by
    rfl
  obtain ⟨s, hs, hhistory⟩ := Option.map_eq_some_iff.mp hexec
  obtain ⟨s₀, hnew, hs⟩ := Option.bind_eq_some_iff.mp hs
  have hrun : Run step Fresh s₀ s := by
    refine run_of_exec (fun s a hsmall => ?_) hs
    have hlt : s.succeeded < 2 ^ 32 := by simpa using hsmall
    cases a with
    | advance i spurious => exact fun op stamp _ _ => by omega
    | _ => trivial
  exact ⟨s₀, s, hnew, hrun, partitioned hnew hrun, hhistory⟩

end System

end FreeList

end Fibre.Channels.Oneshot
