import Fibre.Math.DoublyLinked

/-!
# The wait list

An intrusive first-in-first-out list of waiters. The nodes belong to their waiters, a slot of the
stack or a heap allocation, and the list only holds pointers to them. A node is known here by the
number of its owner. All of it is guarded by the list's spinlock, but for `state`, which the owner
reads without it.

A node is taken out in place, by its owner or by the thread that wakes it. To wake a node is to
take its handle and to mark it; the handle is called later.
-/

namespace Fibre.Channels.Sync

open DoublyLinked Function List

/-- `WAITING` and `WOKEN` -/
inductive NodeState
  | waiting
  | woken
  deriving DecidableEq

/-- A handle to wake its owner by, a thread or a waker; `round` tells apart those that the owner
has registered one after another. -/
structure Waiter where
  owner : ℕ
  round : ℕ
  deriving DecidableEq

structure WaiterNode where
  prev : Option ℕ
  next : Option ℕ
  isWriter : Bool
  linked : Bool
  waiter : Option Waiter
  state : NodeState

structure WaitList where
  nodes : ℕ → WaiterNode
  head : Option ℕ
  tail : Option ℕ
  /-- the queued writers -/
  writers : ℕ
  len : ℕ

/-- A node that was not linked yet. -/
def WaiterNode.new (isWriter : Bool) (w : Waiter) : WaiterNode :=
  ⟨none, none, isWriter, false, some w, .waiting⟩

namespace WaitList

def new : WaitList := ⟨fun i => .new false ⟨i, 0⟩, none, none, 0, 0⟩

def modify (l : WaitList) (i : ℕ) (f : WaiterNode → WaiterNode) : WaitList :=
  { l with nodes := update l.nodes i (f (l.nodes i)) }

/-- A node is created, with its owner's first handle. -/
def create (l : WaitList) (i : ℕ) (isWriter : Bool) (w : Waiter) : WaitList :=
  l.modify i fun _ => .new isWriter w

def isEmpty (l : WaitList) : Bool := l.len = 0

def linkBack (l : WaitList) (i : ℕ) : WaitList :=
  let tail := l.tail
  let l := l.modify i fun n => { n with prev := tail, next := none, linked := true }
  let l := match tail with
    | none => { l with head := some i }
    | some t => l.modify t fun n => { n with next := some i }
  { l with
    tail := some i
    writers := if (l.nodes i).isWriter then l.writers + 1 else l.writers
    len := l.len + 1 }

def unlink (l : WaitList) (i : ℕ) : Bool × WaitList :=
  if !(l.nodes i).linked then (false, l)
  else
    let prev := (l.nodes i).prev
    let next := (l.nodes i).next
    let l := match prev with
      | none => { l with head := next }
      | some p => l.modify p fun n => { n with next := next }
    let l := match next with
      | none => { l with tail := prev }
      | some s => l.modify s fun n => { n with prev := prev }
    let l := l.modify i fun n => { n with prev := none, next := none, linked := false }
    (true, { l with
      writers := if (l.nodes i).isWriter then l.writers - 1 else l.writers
      len := l.len - 1 })

/-- A fresh handle, for another round of waiting. -/
def rearm (l : WaitList) (i : ℕ) (w : Waiter) : WaitList :=
  l.modify i fun n => { n with waiter := some w, state := .waiting }

/-- Takes the handle, which may have been taken before, and marks the node. -/
def takeAndMarkWoken (l : WaitList) (i : ℕ) : Option Waiter × WaitList :=
  ((l.nodes i).waiter, l.modify i fun n => { n with waiter := none, state := .woken })

/-- Unlinks a node and wakes it. -/
def pop (l : WaitList) (i : ℕ) : Option Waiter × WaitList := (l.unlink i).2.takeAndMarkWoken i

/-- The loop of `firstWriter`: from `cur` on, over at most `n` nodes. -/
def firstWriterFrom (l : WaitList) : ℕ → Option ℕ → Option ℕ
  | 0, _ => none
  | _ + 1, none => none
  | n + 1, some cur =>
    if (l.nodes cur).isWriter then some cur else firstWriterFrom l n (l.nodes cur).next

/-- The first writer of the list; the loop meets no more nodes than there are. -/
def firstWriter (l : WaitList) : Option ℕ := l.firstWriterFrom l.len l.head

def waiters (l : WaitList) : List ℕ := walk (fun i => (l.nodes i).next) l.len l.head

/-! ### What the operations do to the list -/

variable {l : WaitList} {xs ys : List ℕ} {i : ℕ}

/-- The list consists of the nodes `xs`. -/
structure Holds (l : WaitList) (xs : List ℕ) : Prop where
  links : Linked (fun i => (l.nodes i).prev) (fun i => (l.nodes i).next) xs
  nodup : xs.Nodup
  head : l.head = xs.head?
  tail : l.tail = xs.getLast?
  linked : ∀ i, (l.nodes i).linked = true ↔ i ∈ xs
  writers : l.writers = xs.countP fun i => (l.nodes i).isWriter
  len : l.len = xs.length

@[simp] theorem modify_nodes (l : WaitList) (i : ℕ) (f : WaiterNode → WaiterNode) (j : ℕ) :
    (l.modify i f).nodes j = if j = i then f (l.nodes i) else l.nodes j := by
  simp [modify, update_apply]

theorem holds_new : Holds new [] :=
  ⟨linked_nil, nodup_nil, rfl, rfl, by simp [new, WaiterNode.new], rfl, rfl⟩

namespace Holds

theorem waiters (h : Holds l xs) : l.waiters = xs := by
  rw [WaitList.waiters, h.head, h.len]
  exact h.links.walk_next (Nat.le_refl _)

theorem modify (h : Holds l xs) {f : WaiterNode → WaiterNode}
    (hf : ∀ n, (f n).prev = n.prev ∧ (f n).next = n.next ∧ (f n).isWriter = n.isWriter ∧
      (f n).linked = n.linked) : Holds (l.modify i f) xs := by
  have hnode : ∀ j, ((l.modify i f).nodes j).prev = (l.nodes j).prev ∧
      ((l.modify i f).nodes j).next = (l.nodes j).next ∧
      ((l.modify i f).nodes j).isWriter = (l.nodes j).isWriter ∧
      ((l.modify i f).nodes j).linked = (l.nodes j).linked := by
    intro j
    rw [modify_nodes]
    split_ifs with hj
    · subst hj
      exact hf _
    · exact ⟨rfl, rfl, rfl, rfl⟩
  refine ⟨h.links.congr (fun j _ => (hnode j).1) (fun j _ => (hnode j).2.1), h.nodup, h.head,
    h.tail, fun j => ?_, ?_, h.len⟩
  · rw [(hnode j).2.2.2]
    exact h.linked j
  · simp only [(hnode _).2.2.1]
    exact h.writers

theorem create (h : Holds l xs) (hi : i ∉ xs) (isWriter : Bool) (w : Waiter) :
    Holds (l.create i isWriter w) xs := by
  have hnode : ∀ j ∈ xs, (l.create i isWriter w).nodes j = l.nodes j := by
    intro j hj
    have hne : j ≠ i := fun he => hi (he ▸ hj)
    simp [WaitList.create, hne]
  refine ⟨h.links.congr (fun j hj => by rw [hnode j hj]) (fun j hj => by rw [hnode j hj]),
    h.nodup, h.head, h.tail, fun j => ?_, ?_, h.len⟩
  · by_cases hj : j = i
    · subst hj
      simp [WaitList.create, WaiterNode.new, hi]
    · simpa [WaitList.create, hj] using h.linked j
  · refine h.writers.trans (countP_congr fun j hj => ?_)
    rw [hnode j hj]

theorem linkBack_nodes (l : WaitList) (i j : ℕ) (htail : l.tail ≠ some i) :
    (l.linkBack i).nodes j =
      if j = i then { l.nodes i with prev := l.tail, next := none, linked := true }
      else if l.tail = some j then { l.nodes j with next := some i } else l.nodes j := by
  unfold WaitList.linkBack
  dsimp only
  cases ht : l.tail with
  | none => simp
  | some t =>
    have hne : t ≠ i := fun he => htail (ht.trans (congrArg some he))
    simp only [modify_nodes, Option.some.injEq]
    by_cases hji : j = i
    · subst hji
      simp [hne.symm]
    · by_cases hjt : j = t
      · subst hjt
        simp [hji]
      · simp [hji, hjt, Ne.symm hjt]

/-- A node that is not linked is appended. -/
theorem linkBack (h : Holds l xs) (hi : i ∉ xs) : Holds (l.linkBack i) (xs ++ [i]) := by
  have htail : l.tail ≠ some i := by
    rw [h.tail]
    exact fun he => hi (mem_of_getLast? he)
  have hnodes := fun j => linkBack_nodes l i j htail
  have hne : ∀ j ∈ xs, j ≠ i := fun j hj he => hi (he ▸ hj)
  have hwriter : ∀ j, ((l.linkBack i).nodes j).isWriter = (l.nodes j).isWriter := by
    intro j
    rw [hnodes]
    split_ifs with hji
    · rw [hji]
    · rfl
    · rfl
  refine ⟨?_, ?_, ?_, ?_, ?_, ?_, ?_⟩
  · refine h.links.snoc hi ?_ ?_ ?_ ?_ ?_
    · simp [hnodes, h.tail]
    · simp [hnodes]
    · intro z hz
      have hzx := mem_of_getLast? hz
      simp [hnodes, hne z hzx, h.tail, hz]
    · intro z hz
      simp only [hnodes, if_neg (hne z hz)]
      split_ifs <;> rfl
    · intro z hz hlast
      simp [hnodes, hne z hz, h.tail, hlast]
  · rw [nodup_append]
    exact ⟨h.nodup, nodup_singleton i, fun a ha b hb =>
      (mem_singleton.mp hb) ▸ hne a ha⟩
  · unfold WaitList.linkBack
    dsimp only
    rw [h.tail]
    cases xs with
    | nil => rfl
    | cons x xs =>
      rw [List.getLast?_eq_getLast_of_ne_nil (cons_ne_nil x xs)]
      simpa [WaitList.modify] using h.head
  · unfold WaitList.linkBack
    simp
  · intro j
    rw [hnodes]
    split_ifs with hji hjt
    · simp [hji]
    · simpa [hji] using h.linked j
    · simpa [hji] using h.linked j
  · have hcount : (l.linkBack i).writers =
        if (l.nodes i).isWriter then l.writers + 1 else l.writers := by
      have hi' := hwriter i
      unfold WaitList.linkBack at hi' ⊢
      dsimp only at hi' ⊢
      rw [hi']
      cases l.tail <;> rfl
    rw [hcount, h.writers, countP_append]
    simp only [hwriter, countP_singleton]
    split_ifs <;> rfl
  · have hlen : (l.linkBack i).len = l.len + 1 := by
      unfold WaitList.linkBack
      dsimp only
      cases l.tail <;> rfl
    rw [hlen, h.len, length_append, length_singleton]

theorem linkBack_node (h : Holds l xs) (hi : i ∉ xs) (j : ℕ) :
    ((l.linkBack i).nodes j).isWriter = (l.nodes j).isWriter ∧
      ((l.linkBack i).nodes j).state = (l.nodes j).state ∧
      ((l.linkBack i).nodes j).waiter = (l.nodes j).waiter := by
  rw [linkBack_nodes l i j (by rw [h.tail]; exact fun he => hi (mem_of_getLast? he))]
  split_ifs with hji
  · rw [hji]
    exact ⟨rfl, rfl, rfl⟩
  all_goals exact ⟨rfl, rfl, rfl⟩

theorem rearm (h : Holds l xs) (i : ℕ) (w : Waiter) : Holds (l.rearm i w) xs := by
  apply h.modify
  intro n
  exact ⟨rfl, rfl, rfl, rfl⟩

theorem takeAndMarkWoken (h : Holds l xs) (i : ℕ) : Holds (l.takeAndMarkWoken i).2 xs := by
  unfold WaitList.takeAndMarkWoken
  dsimp only
  apply h.modify
  intro n
  exact ⟨rfl, rfl, rfl, rfl⟩

theorem unlink_of_notMem (h : Holds l xs) (hi : i ∉ xs) : l.unlink i = (false, l) := by
  have hlinked : (l.nodes i).linked = false := by
    by_contra hlinked
    exact hi ((h.linked i).mp (by simpa using hlinked))
  simp [WaitList.unlink, hlinked]

theorem unlink_nodes (l : WaitList) (i j : ℕ) (hlinked : (l.nodes i).linked = true)
    (hprev : (l.nodes i).prev ≠ some i) (hnext : (l.nodes i).next ≠ some i)
    (hne : ∀ k, (l.nodes i).prev = some k → (l.nodes i).next ≠ some k) :
    (l.unlink i).2.nodes j =
      if j = i then { l.nodes i with prev := none, next := none, linked := false }
      else if (l.nodes i).prev = some j then { l.nodes j with next := (l.nodes i).next }
      else if (l.nodes i).next = some j then { l.nodes j with prev := (l.nodes i).prev }
      else l.nodes j := by
  unfold WaitList.unlink
  simp only [hlinked, Bool.not_true, Bool.false_eq_true, if_false]
  cases hp : (l.nodes i).prev with
  | none =>
    cases hn : (l.nodes i).next with
    | none =>
      by_cases hji : j = i
      · simp [hji]
      · simp [hji]
    | some s =>
      have hsi : s ≠ i := fun he => hnext (hn.trans (congrArg some he))
      by_cases hji : j = i
      · simp [hji, hsi.symm]
      · by_cases hjs : j = s
        · simp [hjs, hsi]
        · simp [hji, hjs, Ne.symm hjs]
  | some p =>
    have hpi : p ≠ i := fun he => hprev (hp.trans (congrArg some he))
    cases hn : (l.nodes i).next with
    | none =>
      by_cases hji : j = i
      · simp [hji, hpi.symm]
      · by_cases hjp : j = p
        · simp [hjp, hpi]
        · simp [hji, hjp, Ne.symm hjp]
    | some s =>
      have hsi : s ≠ i := fun he => hnext (hn.trans (congrArg some he))
      have hps : p ≠ s := fun he => hne p hp (hn.trans (congrArg some he.symm))
      by_cases hji : j = i
      · simp [hji, hpi.symm, hsi.symm]
      · by_cases hjp : j = p
        · simp [hjp, hpi, hps]
        · by_cases hjs : j = s
          · simp [hjs, hsi, hps, Ne.symm hps]
          · simp [hji, hjp, hjs, Ne.symm hjp, Ne.symm hjs]

theorem unlink_ends (l : WaitList) (i : ℕ) (hlinked : (l.nodes i).linked = true) :
    (l.unlink i).2.head = ((l.nodes i).prev.elim (l.nodes i).next fun _ => l.head) ∧
      (l.unlink i).2.tail = ((l.nodes i).next.elim (l.nodes i).prev fun _ => l.tail) ∧
      (l.unlink i).2.len = l.len - 1 := by
  unfold WaitList.unlink
  simp only [hlinked, Bool.not_true, Bool.false_eq_true, if_false]
  cases (l.nodes i).prev <;> cases (l.nodes i).next <;> exact ⟨rfl, rfl, rfl⟩

theorem nodes_of_unlink (h : Holds l xs) {a b : List ℕ} (hxs : xs = a ++ i :: b) (j : ℕ) :
    (l.unlink i).2.nodes j =
      if j = i then { l.nodes i with prev := none, next := none, linked := false }
      else if a.getLast? = some j then { l.nodes j with next := b.head? }
      else if b.head? = some j then { l.nodes j with prev := a.getLast? }
      else l.nodes j := by
  subst hxs
  have hlinked := (h.linked i).mpr (by simp)
  have hprev : (l.nodes i).prev = a.getLast? := h.links.prev_eq
  have hnext : (l.nodes i).next = b.head? := h.links.next_eq
  obtain ⟨-, hib, hdisj⟩ := nodup_append.mp h.nodup
  have hnodes := unlink_nodes l i j hlinked ?_ ?_ ?_
  · rw [hnodes, hprev, hnext]
  · rw [hprev]
    exact fun he => hdisj i (mem_of_getLast? he) i (by simp) rfl
  · rw [hnext]
    exact fun he => (nodup_cons.mp hib).1 (mem_of_head? he)
  · intro k hk hk'
    rw [hprev] at hk
    rw [hnext] at hk'
    exact hdisj k (mem_of_getLast? hk) k
      (mem_cons_of_mem i (mem_of_head? hk')) rfl

theorem unlink_node (h : Holds l xs) (i j : ℕ) :
    ((l.unlink i).2.nodes j).isWriter = (l.nodes j).isWriter ∧
      ((l.unlink i).2.nodes j).state = (l.nodes j).state ∧
      ((l.unlink i).2.nodes j).waiter = (l.nodes j).waiter := by
  by_cases hi : i ∈ xs
  · obtain ⟨a, b, hxs, -⟩ := eq_append_cons_of_mem hi
    rw [h.nodes_of_unlink hxs]
    split_ifs with hji
    · rw [hji]
      exact ⟨rfl, rfl, rfl⟩
    all_goals exact ⟨rfl, rfl, rfl⟩
  · rw [h.unlink_of_notMem hi]
    exact ⟨rfl, rfl, rfl⟩

theorem unlink (h : Holds l xs) (hi : i ∈ xs) :
    (l.unlink i).1 = true ∧ Holds (l.unlink i).2 (xs.erase i) := by
  obtain ⟨a, b, hxs, ha⟩ := eq_append_cons_of_mem hi
  have hnodes := h.nodes_of_unlink hxs
  have hwriter := fun j => (h.unlink_node i j).1
  subst hxs
  have hlinked := (h.linked i).mpr hi
  have hprev : (l.nodes i).prev = a.getLast? := h.links.prev_eq
  have hnext : (l.nodes i).next = b.head? := h.links.next_eq
  obtain ⟨hhead, htail, hlen⟩ := unlink_ends l i hlinked
  obtain ⟨hna, hnib, hdisj⟩ := nodup_append.mp h.nodup
  obtain ⟨hib, hnb⟩ := nodup_cons.mp hnib
  have hab : ∀ k ∈ a, k ∉ b := fun k hka hkb => hdisj k hka k (mem_cons_of_mem i hkb) rfl
  have herase : (a ++ i :: b).erase i = a ++ b := by
    rw [erase_append_right _ ha, erase_cons_head]
  have hne : ∀ j ∈ a ++ b, j ≠ i := by
    rintro j hj rfl
    rcases mem_append.mp hj with hj | hj
    · exact ha hj
    · exact hib hj
  refine ⟨by simp [WaitList.unlink, hlinked], ?_⟩
  rw [herase]
  refine ⟨?_, ?_, ?_, ?_, ?_, ?_, ?_⟩
  · refine h.links.splice h.nodup ?_ ?_ ?_ ?_
    · intro z hz
      have hzi := hne z (mem_append_left _ (mem_of_getLast? hz))
      simp [hnodes, hzi, hz]
    · intro z hz
      have hzb := mem_of_head? hz
      have hzi := hne z (mem_append_right _ hzb)
      have hza : a.getLast? ≠ some z := fun he => hab z (mem_of_getLast? he) hzb
      simp [hnodes, hzi, hza, hz]
    · intro z hz hhead
      simp only [hnodes, if_neg (hne z hz), if_neg hhead]
      split_ifs <;> rfl
    · intro z hz hlast
      simp only [hnodes, if_neg (hne z hz), if_neg hlast]
      split_ifs <;> rfl
  · exact nodup_append.mpr ⟨hna, hnb, fun k hk k' hk' =>
      hdisj k hk k' (mem_cons_of_mem i hk')⟩
  · rw [hhead, hprev, hnext, h.head]
    cases ha' : a.getLast? with
    | none => simp [List.getLast?_eq_none_iff.mp ha']
    | some x =>
      cases a with
      | nil => cases ha'
      | cons y a => rfl
  · rw [htail, hprev, hnext, h.tail]
    cases b with
    | nil => simp
    | cons y b => simp [List.getLast?_append, List.getLast?_cons]
  · intro j
    rw [hnodes]
    have hj := h.linked j
    split_ifs with hji
    · simp [hji, ha, hib]
    all_goals simpa [hji] using hj
  · have hcount : (l.unlink i).2.writers =
        if (l.nodes i).isWriter then l.writers - 1 else l.writers := by
      have hi' := hwriter i
      unfold WaitList.unlink at hi' ⊢
      simp only [hlinked, Bool.not_true, Bool.false_eq_true, if_false] at hi' ⊢
      rw [hi']
      cases (l.nodes i).prev <;> cases (l.nodes i).next <;> rfl
    rw [hcount, h.writers, countP_append, countP_append, countP_cons]
    simp only [hwriter]
    split_ifs <;> omega
  · rw [hlen, h.len, length_append, length_append, length_cons]
    omega

theorem unlink_erase (h : Holds l xs) (i : ℕ) : Holds (l.unlink i).2 (xs.erase i) := by
  by_cases hi : i ∈ xs
  · exact (h.unlink hi).2
  · rw [h.unlink_of_notMem hi, erase_of_not_mem hi]
    exact h

theorem takeAndMarkWoken_node (l : WaitList) (i j : ℕ) :
    ((l.takeAndMarkWoken i).2.nodes j).isWriter = (l.nodes j).isWriter ∧
      ((l.takeAndMarkWoken i).2.nodes j).state = (if j = i then .woken else (l.nodes j).state) ∧
      ((l.takeAndMarkWoken i).2.nodes j).waiter = (if j = i then none else (l.nodes j).waiter) := by
  unfold WaitList.takeAndMarkWoken
  dsimp only
  rw [modify_nodes]
  split_ifs with hji
  · rw [hji]
    exact ⟨rfl, rfl, rfl⟩
  · exact ⟨rfl, rfl, rfl⟩

theorem pop_node (h : Holds l xs) (i j : ℕ) :
    ((l.pop i).2.nodes j).isWriter = (l.nodes j).isWriter ∧
      ((l.pop i).2.nodes j).state = (if j = i then .woken else (l.nodes j).state) ∧
      ((l.pop i).2.nodes j).waiter = (if j = i then none else (l.nodes j).waiter) := by
  obtain ⟨hw, hs, hh⟩ := takeAndMarkWoken_node (l.unlink i).2 i j
  obtain ⟨hw', hs', hh'⟩ := h.unlink_node i j
  rw [hs'] at hs
  rw [hh'] at hh
  exact ⟨hw.trans hw', hs, hh⟩

theorem writers_ne_zero (h : Holds l xs) :
    l.writers ≠ 0 ↔ ∃ j ∈ xs, (l.nodes j).isWriter = true := by
  rw [h.writers, ← Nat.pos_iff_ne_zero]
  exact countP_pos_iff

theorem firstWriter (h : Holds l xs) :
    l.firstWriter = xs.find? fun i => (l.nodes i).isWriter := by
  have hfrom : ∀ (a b : List ℕ), xs = a ++ b → ∀ n, b.length ≤ n →
      l.firstWriterFrom n b.head? = b.find? fun i => (l.nodes i).isWriter := by
    intro a b
    induction b generalizing a with
    | nil =>
      intro _ n _
      cases n <;> rfl
    | cons x b ih =>
      intro hxs n hn
      cases n with
      | zero => simp at hn
      | succ n =>
        have hnext : (l.nodes x).next = b.head? := (h.links a x b hxs).2
        rw [List.head?_cons, firstWriterFrom, hnext, List.find?_cons]
        cases hwriter : (l.nodes x).isWriter with
        | true => rfl
        | false =>
          simp only [Bool.false_eq_true, if_false]
          exact ih (a ++ [x]) (by simpa using hxs) n (Nat.le_of_succ_le_succ hn)
  rw [WaitList.firstWriter, h.head, h.len]
  exact hfrom [] xs rfl _ (Nat.le_refl _)

end Holds

end WaitList

end Fibre.Channels.Sync
