import Mathlib.Algebra.Group.Nat.Defs
import Mathlib.Data.Finset.Card
import Mathlib.Data.List.Chain
import Fibre.Math.Machine

/-!
# The slabs of a chain

Producers hand out the nodes of their slabs, in runs that may span several of them, and whoever
retires a node counts it off its slab. The count starts at one for each node and one for the producer,
who takes off its own, and those of the nodes it did not use, when it seals the slab. Who brings the
count to zero releases the slab into the pool.
-/

namespace Fibre.Channels

/-- `SLAB_NODES` -/
def slabNodes : ℕ := 128

/-- `SLAB_POOL_CAP` -/
def slabPoolCap : ℕ := 8

abbrev SlabNode := ℕ × ℕ

/-- A producer handle: its slab and how many of its nodes are used, the items of the `bump_batch` it
is in, and the nodes it has for the first of them. A `bump` is a batch of one. -/
structure ProducerSlab (T : Type*) where
  slab : Option ℕ
  pos : ℕ
  items : List T
  run : List SlabNode

/-- The slabs, by the order in which they were allocated, and the producers. -/
structure SlabChain (T : Type*) where
  remaining : ℕ → ℕ
  next : SlabNode → Option SlabNode
  val : SlabNode → Option T
  made : ℕ
  pool : List ℕ
  producers : ℕ → ProducerSlab T
  /-- the calls of `release_slab` that are under way, and the slabs that were freed, by slab -/
  releasing : ℕ → ℕ
  freed : ℕ → ℕ
  /-- the nodes that are handed out and not retired, and those of them in runs that were returned -/
  handed : Finset SlabNode
  given : Finset SlabNode
  /-- how often the slab was acquired, and released -/
  acquired : ℕ → ℕ
  released : ℕ → ℕ
  /-- what `bump_batch` has returned, the last first -/
  runs : List (List SlabNode × List T)

inductive SlabAction (T : Type*)
  | start (p : ℕ) (items : List T)
  | step (p : ℕ)
  /-- `seal`, at the close or the drop of a handle -/
  | close (p : ℕ)
  | retire (n : SlabNode)
  | release (i : ℕ)
  /-- who has been given the node links it to the next run, or takes its value -/
  | write (n : SlabNode) (next : Option SlabNode) (val : Option T)

namespace SlabChain

open Function Machine List Option

variable {T : Type*}

def init : SlabChain T where
  remaining _ := 0
  next _ := none
  val _ := none
  made := 0
  pool := []
  producers _ := ⟨none, 0, [], []⟩
  releasing _ := 0
  freed _ := 0
  handed := ∅
  given := ∅
  acquired _ := 0
  released _ := 0
  runs := []

/-- `fetch_sub` on the count of a slab; who brings it to zero releases the slab. -/
def fetchSub (s : SlabChain T) (i k : ℕ) : SlabChain T :=
  { s with
    remaining := update s.remaining i ((s.remaining i + (2 ^ 32 - k)) % 2 ^ 32)
    releasing := if s.remaining i = k then update s.releasing i (s.releasing i + 1) else s.releasing }

def sealSlab (s : SlabChain T) (i used : ℕ) : SlabChain T := s.fetchSub i (slabNodes - used + 1)

def setProducer (s : SlabChain T) (p : ℕ) (h : ProducerSlab T) : SlabChain T :=
  { s with producers := update s.producers p h }

/-- The slab is armed for its next producer, who alone has it. -/
def arm (s : SlabChain T) (p i : ℕ) : SlabChain T :=
  { s with
    remaining := update s.remaining i (slabNodes + 1)
    next := fun n => if n.1 = i then none else s.next n
    val := fun n => if n.1 = i then none else s.val n
    acquired := update s.acquired i (s.acquired i + 1)
    producers := update s.producers p { s.producers p with slab := some i, pos := 0 } }

/-- `acquire`: the newest slab of the pool, or a new one. -/
def acquire (s : SlabChain T) (p : ℕ) : SlabChain T :=
  match s.pool with
  | i :: pool => { s with pool := pool }.arm p i
  | [] => { s with made := s.made + 1 }.arm p s.made

/-- The next node of the slab gets the item, and the node before it is linked to it. -/
def handOut (s : SlabChain T) (p i : ℕ) (item : T) : SlabChain T :=
  let h := s.producers p
  let node : SlabNode := (i, h.pos)
  let run := h.run ++ [node]
  let s : SlabChain T := { s with
    val := update s.val node (some item)
    next := match h.run.getLast? with
      | some prev => update s.next prev (some node)
      | none => s.next
    handed := insert node s.handed }
  if run.length = h.items.length then {
    s.setProducer p ⟨h.slab, h.pos + 1, [], []⟩ with
      given := s.given ∪ run.toFinset
      runs := (run, h.items) :: s.runs }
  else s.setProducer p { h with pos := h.pos + 1, run := run }

def step (s : SlabChain T) : SlabAction T → Option (SlabChain T)
  | .start p items =>
    if (s.producers p).items = [] ∧ items ≠ [] then
      some (s.setProducer p { s.producers p with items := items })
    else none
  | .step p =>
    (s.producers p).items[(s.producers p).run.length]?.map fun item =>
      match (s.producers p).slab with
      | none => s.acquire p
      | some i =>
        if (s.producers p).pos = slabNodes then
          (s.sealSlab i slabNodes).setProducer p { s.producers p with slab := none, pos := 0 }
        else s.handOut p i item
  | .close p =>
    if (s.producers p).items = [] then
      (s.producers p).slab.map fun i => (s.sealSlab i (s.producers p).pos).setProducer p
        { s.producers p with slab := none, pos := 0 }
    else none
  | .retire n =>
    if n ∈ s.given then some {
      s.fetchSub n.1 1 with
        handed := s.handed.erase n
        given := s.given.erase n }
    else none
  | .release i =>
    if s.releasing i = 0 then none
    else
      let s : SlabChain T := { s with
        releasing := update s.releasing i (s.releasing i - 1)
        released := update s.released i (s.released i + 1) }
      if s.pool.length < slabPoolCap then some { s with pool := i :: s.pool }
      else some { s with freed := update s.freed i (s.freed i + 1) }
  | .write n next val =>
    if n ∈ s.given then some { s with next := update s.next n next, val := update s.val n val }
    else none

/-! ### The count of a slab -/

/-- What concerns one slab; it owes the nodes that are not retired. -/
structure View where
  remaining : ℕ
  owed : ℕ
  releasing : ℕ
  pooled : ℕ
  freed : ℕ
  acquired : ℕ
  released : ℕ
  made : Bool

namespace View

/-- What the count is while a producer holds the slab at a place, or no one does. -/
def Fits (v : View) : Option ℕ → Prop
  | some pos => v.made = true ∧ pos ≤ slabNodes ∧ v.owed ≤ pos ∧
      v.remaining = v.owed + 1 + (slabNodes - pos) ∧ v.releasing + v.pooled + v.freed = 0 ∧
      v.acquired = v.released + 1
  | none => v.remaining = v.owed ∧ v.owed ≤ slabNodes ∧ (v.made = false → v.owed = 0) ∧
      v.releasing + v.pooled + v.freed = (if v.made ∧ v.owed = 0 then 1 else 0) ∧
      v.acquired + v.pooled + v.freed = v.released + if v.made then 1 else 0

/-- `fetch_sub` -/
def fetchSub (v : View) (k : ℕ) : View :=
  { v with
    remaining := (v.remaining + (2 ^ 32 - k)) % 2 ^ 32
    releasing := if v.remaining = k then v.releasing + 1 else v.releasing }

variable {v : View} {o : Option ℕ} {pos : ℕ}

theorem Fits.seal (h : v.Fits (some pos)) : (v.fetchSub (slabNodes - pos + 1)).Fits none := by
  obtain ⟨remaining, owed, releasing, pooled, freed, acquired, released, made⟩ := v
  obtain ⟨rfl, hpos, howed, hrem, hidle, hacq⟩ := h
  simp only [slabNodes] at *
  have hlast : remaining = 128 - pos + 1 ↔ owed = 0 := by omega
  simp only [Fits, fetchSub, slabNodes, eq_self, true_and, if_true, hlast]
  refine ⟨by omega, by omega, nofun, ?_, ?_⟩
  · split_ifs <;> omega
  · omega

theorem Fits.handOut (h : v.Fits (some pos)) (hlt : pos < slabNodes) :
    { v with owed := v.owed + 1 }.Fits (some (pos + 1)) := by
  obtain ⟨hm, hpos, howed, hrem, hidle, hacq⟩ := h
  simp only [slabNodes] at *
  refine ⟨hm, ?_, ?_, ?_, hidle, hacq⟩ <;> simp only [slabNodes] <;> omega

theorem Fits.retire (h : v.Fits o) (howed : 0 < v.owed) :
    { v.fetchSub 1 with owed := v.owed - 1 }.Fits o := by
  obtain ⟨remaining, owed, releasing, pooled, freed, acquired, released, made⟩ := v
  cases o with
  | some pos =>
    obtain ⟨rfl, hpos, howed, hrem, hidle, hacq⟩ := h
    simp only [Fits, fetchSub, slabNodes, eq_self, true_and] at *
    split_ifs <;> omega
  | none =>
    cases made <;> simp only [Fits, fetchSub, slabNodes, eq_self, reduceCtorEq, false_and, true_and,
      forall_const, if_false, if_true, IsEmpty.forall_iff] at *
    · omega
    · split_ifs at * <;> omega

theorem Fits.recycle (h : v.Fits none) (hp : 0 < v.pooled) :
    { v with remaining := slabNodes + 1, pooled := v.pooled - 1, acquired := v.acquired + 1 }.Fits
      (some 0) := by
  obtain ⟨remaining, owed, releasing, pooled, freed, acquired, released, made⟩ := v
  cases made <;> simp only [Fits, slabNodes, eq_self, reduceCtorEq, false_and, true_and,
    forall_const, if_false, if_true, IsEmpty.forall_iff] at *
  · omega
  · split_ifs at h <;> omega

theorem Fits.allocate (h : v.Fits none) (hm : v.made = false) :
    { v with remaining := slabNodes + 1, acquired := v.acquired + 1, made := true }.Fits
      (some 0) := by
  simp only [Fits, slabNodes, hm, eq_self, reduceCtorEq, false_and, true_and, if_false, forall_const] at *
  omega

theorem Fits.release (h : v.Fits o) (hr : 0 < v.releasing) :
    { v with releasing := v.releasing - 1, pooled := v.pooled + 1, released := v.released + 1 }.Fits o ∧
      { v with releasing := v.releasing - 1, freed := v.freed + 1, released := v.released + 1 }.Fits
        o := by
  cases o <;> simp only [Fits] at *
  · split_ifs at * <;> omega
  · omega

end View

def view (s : SlabChain T) (i : ℕ) : View where
  remaining := s.remaining i
  owed := (s.handed.filter fun n => n.1 = i).card
  releasing := s.releasing i
  pooled := s.pool.count i
  freed := s.freed i
  acquired := s.acquired i
  released := s.released i
  made := i < s.made

def HeldAt (s : SlabChain T) (i pos : ℕ) : Prop :=
  ∃ p, (s.producers p).slab = some i ∧ (s.producers p).pos = pos

structure Counted (s : SlabChain T) : Prop where
  apart : ∀ p q i, (s.producers p).slab = some i → (s.producers q).slab = some i → p = q
  fits : ∀ i, ∃ o, (∀ pos, s.HeldAt i pos ↔ o = some pos) ∧ (s.view i).Fits o
  /-- the nodes of a slab are handed out in order -/
  below : ∀ i pos, s.HeldAt i pos → ∀ n ∈ s.handed, n.1 = i → n.2 < pos

/-- The nodes are linked in order, and have the first items. -/
structure RunOk (next : SlabNode → Option SlabNode) (val : SlabNode → Option T) (items : List T)
    (run : List SlabNode) : Prop where
  nodup : run.Nodup
  linked : run.IsChain fun a b => next a = some b
  last : ∀ n ∈ run.getLast?, next n = none
  vals : run.map val = (items.take run.length).map some

structure Linked (s : SlabChain T) : Prop where
  given : s.given ⊆ s.handed
  mem : ∀ p, ∀ n ∈ (s.producers p).run, n ∈ s.handed ∧ n ∉ s.given
  ok : ∀ p, RunOk s.next s.val (s.producers p).items (s.producers p).run
  disjoint : ∀ p q n, n ∈ (s.producers p).run → n ∈ (s.producers q).run → p = q
  /-- the nodes that a slab has left -/
  fresh : ∀ p i, (s.producers p).slab = some i → ∀ j ≥ (s.producers p).pos, s.next (i, j) = none

variable {s s' : SlabChain T} {p i k pos : ℕ} {h : ProducerSlab T} {item : T}

/-- One producer moves on, which holds the one slab at most that changes. -/
theorem Counted.of (hs : s.Counted) (hset : s'.producers = update s.producers p h)
    (hold : ∀ j ≠ i, (s.producers p).slab ≠ some j) (hnew : ∀ j ≠ i, h.slab ≠ some j)
    (hq : ∀ q ≠ p, (s.producers q).slab ≠ some i) (hview : ∀ j ≠ i, s'.view j = s.view j)
    (hfits : (s'.view i).Fits (h.slab.map fun _ => h.pos))
    (hbelow : h.slab = some i → ∀ n ∈ s.handed, n.1 = i → n.2 < h.pos)
    (hhanded : ∀ n ∈ s'.handed, n ∈ s.handed ∨ n.1 = i ∧ n.2 < h.pos) : s'.Counted := by
  have hself : s'.producers p = h := by rw [hset, update_self]
  have hothers : ∀ q ≠ p, s'.producers q = s.producers q := fun q hne => by
    rw [hset, update_of_ne hne]
  have hheld : ∀ j ≠ i, ∀ pos, s'.HeldAt j pos ↔ s.HeldAt j pos := by
    intro j hj pos
    refine exists_congr fun q => ?_
    by_cases hqp : q = p
    · rw [hqp, hself]
      simp [hold j hj, hnew j hj]
    · rw [hothers q hqp]
  have hat : ∀ pos, s'.HeldAt i pos ↔ (h.slab.map fun _ => h.pos) = some pos := by
    intro pos
    constructor
    · rintro ⟨q, hslab, rfl⟩
      by_cases hqp : q = p
      · rw [hqp, hself] at hslab ⊢
        rw [hslab]
        rfl
      · rw [hothers q hqp] at hslab
        exact absurd hslab (hq q hqp)
    · intro hmap
      obtain ⟨j, hj, rfl⟩ := map_eq_some_iff.mp hmap
      have hji : j = i := by
        by_contra hne
        exact hnew j hne hj
      exact ⟨p, by rw [hself, hj, hji], by rw [hself]⟩
  constructor
  · intro q r j hqj hrj
    by_cases hqp : q = p <;> by_cases hrp : r = p
    · rw [hqp, hrp]
    · rw [hqp, hself] at hqj
      rw [hothers r hrp] at hrj
      by_cases hj : j = i
      · exact absurd (hj ▸ hrj) (hq r hrp)
      · exact absurd hqj (hnew j hj)
    · rw [hrp, hself] at hrj
      rw [hothers q hqp] at hqj
      by_cases hj : j = i
      · exact absurd (hj ▸ hqj) (hq q hqp)
      · exact absurd hrj (hnew j hj)
    · rw [hothers q hqp] at hqj
      rw [hothers r hrp] at hrj
      exact hs.apart q r j hqj hrj
  · intro j
    by_cases hj : j = i
    · exact ⟨_, hj ▸ hat, hj ▸ hfits⟩
    · obtain ⟨o, ho, hfit⟩ := hs.fits j
      exact ⟨o, fun pos => (hheld j hj pos).trans (ho pos), hview j hj ▸ hfit⟩
  · intro j pos hpos n hn hnj
    by_cases hj : j = i
    · subst hj
      obtain ⟨j', hj', rfl⟩ := map_eq_some_iff.mp ((hat pos).mp hpos)
      have hsome : h.slab = some j := by
        by_cases hne : j' = j
        · rw [hj', hne]
        · exact absurd hj' (hnew j' hne)
      rcases hhanded n hn with hn | ⟨-, hlt⟩
      · exact hbelow hsome n hn hnj
      · exact hlt
    · rcases hhanded n hn with hn | ⟨hni, -⟩
      · exact hs.below j pos ((hheld j hj pos).mp hpos) n hn hnj
      · exact absurd (hnj.symm.trans hni) hj

theorem Counted.same (hs : s.Counted)
    (hset : ∀ q, (s'.producers q).slab = (s.producers q).slab ∧
      (s'.producers q).pos = (s.producers q).pos)
    (hfits : ∀ j o, (s.view j).Fits o → (s'.view j).Fits o) (hhanded : s'.handed ⊆ s.handed) :
    s'.Counted := by
  have hheld : ∀ j pos, s'.HeldAt j pos ↔ s.HeldAt j pos := fun j pos =>
    exists_congr fun q => by rw [(hset q).1, (hset q).2]
  refine ⟨fun q r j => ?_, fun j => ?_, fun j pos hpos n hn => ?_⟩
  · rw [(hset q).1, (hset r).1]
    exact hs.apart q r j
  · obtain ⟨o, ho, hfit⟩ := hs.fits j
    exact ⟨o, fun pos => (hheld j pos).trans (ho pos), hfits j o hfit⟩
  · exact hs.below j pos ((hheld j pos).mp hpos) n (hhanded hn)

theorem view_fetchSub (s : SlabChain T) (i k j : ℕ) :
    (s.fetchSub i k).view j = if j = i then (s.view j).fetchSub k else s.view j := by
  unfold fetchSub view View.fetchSub
  by_cases hj : j = i
  · subst hj
    by_cases hk : s.remaining j = k <;> simp [hk]
  · by_cases hk : s.remaining i = k <;> simp [hj, hk]

theorem card_erase (s : SlabChain T) {n : SlabNode} (hn : n ∈ s.handed) (j : ℕ) :
    0 < (s.handed.filter fun m => m.1 = n.1).card ∧
      ((s.handed.erase n).filter fun m => m.1 = j).card =
        (s.handed.filter fun m => m.1 = j).card - if j = n.1 then 1 else 0 := by
  have hmem : n ∈ s.handed.filter fun m => m.1 = n.1 := by simp [hn]
  refine ⟨Finset.card_pos.mpr ⟨n, hmem⟩, ?_⟩
  rw [Finset.filter_erase]
  split_ifs with hj
  · rw [hj, Finset.card_erase_of_mem hmem]
  · rw [Finset.erase_eq_of_notMem (by simp [Ne.symm hj]), Nat.sub_zero]

namespace Counted

theorem fits_some (hs : s.Counted) (hp : (s.producers p).slab = some i) :
    (s.view i).Fits (some (s.producers p).pos) := by
  obtain ⟨o, ho, hfit⟩ := hs.fits i
  rwa [(ho _).mp ⟨p, hp, rfl⟩] at hfit

theorem sealSlab (hs : s.Counted) (hp : (s.producers p).slab = some i) :
    ((s.sealSlab i (s.producers p).pos).setProducer p
      { s.producers p with slab := none, pos := 0 }).Counted := by
  refine hs.of (i := i) rfl ?_ nofun (fun q hq hslab => hq (hs.apart q p i hslab hp)) ?_ ?_ nofun
    fun n hn => .inl hn
  · rw [hp]
    exact fun j hj heq => hj (Option.some.inj heq).symm
  · intro j hj
    exact (view_fetchSub s i _ j).trans (if_neg hj)
  · have hview := (view_fetchSub s i (slabNodes - (s.producers p).pos + 1) i).trans (if_pos rfl)
    exact hview ▸ (hs.fits_some hp).seal

theorem retire (hs : s.Counted) {n : SlabNode} (hn : n ∈ s.handed) (given : Finset SlabNode) :
    Counted { s.fetchSub n.1 1 with handed := s.handed.erase n, given := given } := by
  refine hs.same (fun q => ⟨rfl, rfl⟩) (fun j o hfit => ?_) (Finset.erase_subset n s.handed)
  obtain ⟨hpos, hcard⟩ := s.card_erase hn j
  have hview : (⟨_, _, _, _, _, _, _, _⟩ : View) = _ := view_fetchSub s n.1 1 j
  by_cases hj : j = n.1
  · have hretire := hfit.retire (hj ▸ hpos)
    rw [if_pos hj] at hcard hview
    rw [← hview] at hretire
    rwa [view, hcard]
  · rw [if_neg hj, Nat.sub_zero] at hcard
    rw [if_neg hj] at hview
    rw [view, hcard]
    exact hview ▸ hfit

theorem release (hs : s.Counted) (hi : s.releasing i ≠ 0) (ht : s.step (.release i) = some s') :
    s'.Counted := by
  have hpos : 0 < (s.view i).releasing := Nat.pos_of_ne_zero hi
  simp only [step, if_neg hi] at ht
  split_ifs at ht <;> cases ht <;> refine hs.same (fun q => ⟨rfl, rfl⟩) (fun j o hfit => ?_) subset_rfl
  all_goals
    by_cases hj : j = i
    · subst hj
      first
        | simpa [view] using (hfit.release hpos).1
        | simpa [view] using (hfit.release hpos).2
    · simpa [view, hj, Ne.symm hj] using hfit

theorem handOut (hs : s.Counted) (hp : (s.producers p).slab = some i)
    (hlt : (s.producers p).pos ≠ slabNodes) (item : T) : (s.handOut p i item).Counted := by
  have hfits := hs.fits_some hp
  have hlt' : (s.producers p).pos < slabNodes := lt_of_le_of_ne hfits.2.1 hlt
  have hnew : (i, (s.producers p).pos) ∉ s.handed := fun hmem =>
    lt_irrefl _ (hs.below i _ ⟨p, hp, rfl⟩ _ hmem rfl)
  have hcard : ∀ j, ((insert (i, (s.producers p).pos) s.handed).filter fun m => m.1 = j).card =
      (s.handed.filter fun m => m.1 = j).card + if j = i then 1 else 0 := by
    intro j
    rw [Finset.filter_insert]
    by_cases hj : j = i
    · rw [if_pos hj.symm, if_pos hj, Finset.card_insert_of_notMem (by simp [hnew])]
    · rw [if_neg (Ne.symm hj), if_neg hj, Nat.add_zero]
  have hother : ∀ j ≠ i, (s.producers p).slab ≠ some j := by
    rw [hp]
    exact fun j hj heq => hj (Option.some.inj heq).symm
  have hq : ∀ q ≠ p, (s.producers q).slab ≠ some i := fun q hq hslab => hq (hs.apart q p i hslab hp)
  unfold SlabChain.handOut
  simp only
  split_ifs
  all_goals
    refine hs.of (i := i) rfl hother hother hq ?_ ?_ ?_ ?_
    · intro j hj
      have hsame := hcard j
      rw [if_neg hj, Nat.add_zero] at hsame
      simp only [view, setProducer, hsame]
      rfl
    · have hmore := hcard i
      rw [if_pos rfl] at hmore
      simp only [view, setProducer, hmore, hp]
      exact hfits.handOut hlt'
    · intro _ n hn hni
      exact Nat.lt_succ_of_lt (hs.below i _ ⟨p, hp, rfl⟩ n hn hni)
    · intro n hn
      rcases Finset.mem_insert.mp hn with rfl | hn
      · exact .inr ⟨rfl, Nat.lt_succ_self _⟩
      · exact .inl hn

theorem free (hs : s.Counted) (hi : (s.view i).made = false ∨ 0 < (s.view i).pooled) :
    (s.view i).Fits none ∧ (∀ q, (s.producers q).slab ≠ some i) ∧ ∀ n ∈ s.handed, n.1 ≠ i := by
  obtain ⟨o, ho, hfit⟩ := hs.fits i
  cases o with
  | some pos =>
    obtain ⟨hm, -, -, -, hidle, -⟩ := hfit
    rw [hm] at hi
    simp at hi
    omega
  | none =>
    refine ⟨hfit, fun q hq => by simpa using (ho _).mp ⟨q, hq, rfl⟩, fun n hn hni => ?_⟩
    have howed : 0 < (s.view i).owed := hni ▸ (s.card_erase hn 0).1
    simp only [View.Fits] at hfit
    rcases hi with hi | hi
    · exact howed.ne' (hfit.2.2.1 hi)
    · rw [if_neg fun h => howed.ne' h.2] at hfit
      omega

theorem acquire (hs : s.Counted) (hp : (s.producers p).slab = none) : (s.acquire p).Counted := by
  unfold SlabChain.acquire
  split
  · next i pool hpool =>
    have hpooled : 0 < (s.view i).pooled := by simp [view, hpool]
    obtain ⟨hfit, hq, hnone⟩ := hs.free (.inr hpooled)
    refine hs.of (p := p) (i := i) rfl (by simp [hp]) (by simpa using fun j => Ne.symm)
      (fun q _ => hq q) (fun j hj => ?_) ?_ (fun _ n hn hni => absurd hni (hnone n hn)) fun n => .inl
    · simp [view, arm, hpool, hj, Ne.symm hj]
    · simpa [view, arm, hpool] using hfit.recycle hpooled
  · have hm : (s.view s.made).made = false := by simp [view]
    obtain ⟨hfit, hq, hnone⟩ := hs.free (.inl hm)
    refine hs.of (p := p) (i := s.made) rfl (by simp [hp]) (by simpa using fun j => Ne.symm)
      (fun q _ => hq q) (fun j hj => ?_) ?_ (fun _ n hn hni => absurd hni (hnone n hn)) fun n => .inl
    · have hlt : j < s.made + 1 ↔ j < s.made := by omega
      simp [view, arm, hj, hlt]
    · simpa [view, arm] using hfit.allocate hm

end Counted

/-! ### The runs -/

theorem RunOk.congr {next next' : SlabNode → Option SlabNode} {val val' : SlabNode → Option T}
    {items : List T} {run : List SlabNode} (hr : RunOk next val items run)
    (hnodes : ∀ n ∈ run, next' n = next n ∧ val' n = val n) : RunOk next' val' items run where
  nodup := hr.nodup
  linked := hr.linked.imp_of_mem_imp fun a _ ha _ hab => (hnodes a ha).1.trans hab
  last n hn := (hnodes n (mem_of_getLast? hn)).1.trans (hr.last n hn)
  vals := (map_congr_left fun n hn => (hnodes n hn).2).trans hr.vals

theorem update_run (s : SlabChain T) (p : ℕ) (slab : Option ℕ) (pos q : ℕ) :
    (update s.producers p { s.producers p with slab := slab, pos := pos } q).run =
        (s.producers q).run ∧
      (update s.producers p { s.producers p with slab := slab, pos := pos } q).items =
        (s.producers q).items := by
  by_cases hq : q = p <;> simp [hq]

theorem Linked.sealSlab (hl : s.Linked) (i used : ℕ) : ((s.sealSlab i used).setProducer p
    { s.producers p with slab := none, pos := 0 }).Linked := by
  have hrun := s.update_run p none 0
  refine ⟨hl.given, fun q n hn => hl.mem q n ((hrun q).1 ▸ hn), fun q => ?_,
    fun q r n hn hn' => ?_, fun q j hq k hk => ?_⟩
  · have hok := hl.ok q
    rw [← (hrun q).1, ← (hrun q).2] at hok
    exact hok
  · exact hl.disjoint q r n ((hrun q).1 ▸ hn) ((hrun r).1 ▸ hn')
  · by_cases hqp : q = p
    · simp [setProducer, hqp] at hq
    · simp only [setProducer, update_of_ne hqp] at hq hk
      exact hl.fresh q j hq k hk

/-- The producers stay where they are, and so do the nodes of their runs and of their slabs. -/
theorem Linked.same (hl : s.Linked) (hs : s.Counted) (hprod : s'.producers = s.producers)
    (hgiven : s'.given ⊆ s'.handed) (hnodes : ∀ n, n ∉ s.given → s'.next n = s.next n ∧
      s'.val n = s.val n ∧ (n ∈ s.handed → n ∈ s'.handed) ∧ n ∉ s'.given) : s'.Linked := by
  refine ⟨hgiven, fun q n hn => ?_, fun q => ?_, hprod ▸ hl.disjoint, fun q j hq k hk => ?_⟩
  · obtain ⟨hhanded, hnot⟩ := hl.mem q n (hprod ▸ hn)
    exact ⟨(hnodes n hnot).2.2.1 hhanded, (hnodes n hnot).2.2.2⟩
  · rw [hprod]
    refine (hl.ok q).congr fun n hn => ?_
    obtain ⟨hnext, hval, -⟩ := hnodes n (hl.mem q n hn).2
    exact ⟨hnext, hval⟩
  · rw [hprod] at hq hk
    have hnot : (j, k) ∉ s.given := fun hmem =>
      (hs.below j _ ⟨q, hq, rfl⟩ _ (hl.given hmem) rfl).not_ge hk
    rw [(hnodes _ hnot).1]
    exact hl.fresh q j hq k hk

theorem Linked.arm (hl : s.Linked) (hnone : ∀ n ∈ s.handed, n.1 ≠ i)
    (hq : ∀ q, (s.producers q).slab ≠ some i) : (s.arm p i).Linked := by
  have hrun := s.update_run p (some i) 0
  refine ⟨hl.given, fun q n hn => hl.mem q n ((hrun q).1 ▸ hn), fun q => ?_,
    fun q r n hn hn' => ?_, fun q j hqj k hk => ?_⟩
  · have hok : RunOk (s.arm p i).next (s.arm p i).val (s.producers q).items (s.producers q).run :=
      (hl.ok q).congr fun n hn => by simp [SlabChain.arm, hnone n (hl.mem q n hn).1]
    rw [← (hrun q).1, ← (hrun q).2] at hok
    exact hok
  · exact hl.disjoint q r n ((hrun q).1 ▸ hn) ((hrun r).1 ▸ hn')
  · by_cases hqp : q = p
    · have hji : i = j := by simpa [SlabChain.arm, hqp] using hqj
      simp [SlabChain.arm, hji]
    · simp only [SlabChain.arm, update_of_ne hqp] at hqj hk
      have hne : j ≠ i := fun hji => hq q (hji ▸ hqj)
      simpa [SlabChain.arm, hne] using hl.fresh q j hqj k hk

theorem Linked.acquire (hl : s.Linked) (hs : s.Counted) : (s.acquire p).Linked := by
  unfold SlabChain.acquire
  split
  · next i pool hpool =>
    obtain ⟨-, hq, hnone⟩ := hs.free (i := i) (.inr (by simp [view, hpool]))
    exact Linked.arm ⟨hl.given, hl.mem, hl.ok, hl.disjoint, hl.fresh⟩ hnone hq
  · obtain ⟨-, hq, hnone⟩ := hs.free (i := s.made) (.inl (by simp [view]))
    exact Linked.arm ⟨hl.given, hl.mem, hl.ok, hl.disjoint, hl.fresh⟩ hnone hq

/-- Handing out touches the new node, and the link of the last node of the run. -/
theorem handOut_eq (s : SlabChain T) (p i : ℕ) (item : T) :
    (s.handOut p i item).val = update s.val (i, (s.producers p).pos) (some item) ∧
    (∀ n, (s.handOut p i item).next n =
      if (s.producers p).run.getLast? = some n then some (i, (s.producers p).pos) else s.next n) ∧
    (s.handOut p i item).handed = insert (i, (s.producers p).pos) s.handed ∧
    ∃ items run, (s.handOut p i item).producers =
        update s.producers p ⟨(s.producers p).slab, (s.producers p).pos + 1, items, run⟩ ∧
      (items = [] ∧ run = [] ∧ (s.handOut p i item).given =
          s.given ∪ ((s.producers p).run ++ [(i, (s.producers p).pos)]).toFinset ∨
        items = (s.producers p).items ∧ run = (s.producers p).run ++ [(i, (s.producers p).pos)] ∧
          (s.handOut p i item).given = s.given) := by
  have hmatch : ∀ (last : Option SlabNode) (x n : SlabNode), (match last with
      | some prev => update s.next prev (some x)
      | none => s.next) n = if last = some n then some x else s.next n := by
    intro last x n
    cases last with
    | none => rfl
    | some prev => by_cases hn : prev = n <;> simp [update_apply, hn, eq_comm]
  unfold handOut
  dsimp only
  split_ifs
  · exact ⟨rfl, fun n => hmatch _ _ n, rfl, [], [], rfl, .inl ⟨rfl, rfl, rfl⟩⟩
  · exact ⟨rfl, fun n => hmatch _ _ n, rfl, (s.producers p).items, _, rfl,
      .inr ⟨rfl, rfl, rfl⟩⟩

theorem RunOk.handOut (hl : s.Linked) (hs : s.Counted) (hp : (s.producers p).slab = some i)
    (hitem : (s.producers p).items[(s.producers p).run.length]? = some item) :
    RunOk (s.handOut p i item).next (s.handOut p i item).val (s.producers p).items
      ((s.producers p).run ++ [(i, (s.producers p).pos)]) := by
  obtain ⟨hval, hnext, -, -⟩ := s.handOut_eq p i item
  have hnew : (i, (s.producers p).pos) ∉ s.handed := fun hmem =>
    lt_irrefl _ (hs.below i _ ⟨p, hp, rfl⟩ _ hmem rfl)
  have hout : (i, (s.producers p).pos) ∉ (s.producers p).run := fun hmem =>
    hnew (hl.mem p _ hmem).1
  obtain ⟨hnodup, hlinked, hlast, hvals⟩ := hl.ok p
  constructor
  · exact nodup_append.mpr ⟨hnodup, nodup_singleton _, by
      rintro a ha b hb rfl
      exact hout (mem_singleton.mp hb ▸ ha)⟩
  · refine List.IsChain.append (hlinked.imp fun a b hab => ?_) (List.IsChain.singleton _) ?_
    · rw [hnext, if_neg, hab]
      intro heq
      rw [hlast a heq] at hab
      cases hab
    · intro a ha b hb
      obtain rfl : _ = b := by simpa using hb
      rw [hnext]
      exact if_pos ha
  · intro n hn
    obtain rfl : _ = n := by simpa using hn
    rw [hnext, if_neg fun heq => hout (mem_of_getLast? heq)]
    exact hl.fresh p i hp _ le_rfl
  · have hsame : (s.producers p).run.map (s.handOut p i item).val = (s.producers p).run.map s.val :=
      map_congr_left fun n hn => by
        have hne : n ≠ (i, (s.producers p).pos) := fun heq => hout (heq ▸ hn)
        rw [hval, update_of_ne hne]
    rw [map_append, hsame, hvals, length_append, length_singleton,
      take_add_one, hitem, hval]
    simp

theorem Linked.handOut (hl : s.Linked) (hs : s.Counted) (hp : (s.producers p).slab = some i)
    (hitem : (s.producers p).items[(s.producers p).run.length]? = some item) :
    (s.handOut p i item).Linked := by
  have hok := RunOk.handOut hl hs hp hitem
  obtain ⟨hval, hnext, hhanded, items, run, hprod, hcases⟩ := s.handOut_eq p i item
  set x : SlabNode := (i, (s.producers p).pos) with hx
  have hnew : x ∉ s.handed := fun hmem => lt_irrefl _ (hs.below i _ ⟨p, hp, rfl⟩ _ hmem rfl)
  have hsub : ∀ n ∈ (s.producers p).run ++ [x], n ∈ insert x s.handed ∧ n ∉ s.given := by
    intro n hn
    rcases mem_append.mp hn with hn | hn
    · exact ⟨Finset.mem_insert_of_mem (hl.mem p n hn).1, (hl.mem p n hn).2⟩
    · rw [mem_singleton.mp hn]
      exact ⟨Finset.mem_insert_self _ _, fun hmem => hnew (hl.given hmem)⟩
  have hfree : ∀ q ≠ p, ∀ n ∈ (s.producers q).run, n ∉ (s.producers p).run ++ [x] := by
    intro q hq n hn hmem
    rcases mem_append.mp hmem with hmem | hmem
    · exact hq (hl.disjoint q p n hn hmem)
    · exact hnew (mem_singleton.mp hmem ▸ (hl.mem q n hn).1)
  have hrun : ∀ n ∈ run, n ∈ (s.producers p).run ++ [x] ∧ n ∉ (s.handOut p i item).given := by
    rcases hcases with ⟨-, rfl, -⟩ | ⟨-, rfl, hgiven⟩
    · simp
    · exact fun n hn => ⟨hn, hgiven ▸ (hsub n hn).2⟩
  have hself : (s.handOut p i item).producers p =
      ⟨(s.producers p).slab, (s.producers p).pos + 1, items, run⟩ := by rw [hprod, update_self]
  have hothers : ∀ q ≠ p, (s.handOut p i item).producers q = s.producers q := fun q hq => by
    rw [hprod, update_of_ne hq]
  have hfresh : ∀ q j k, (s.producers q).slab = some j → (s.producers q).pos ≤ k →
      (s.handOut p i item).next (j, k) = none := by
    intro q j k hq hk
    rw [hnext, if_neg, hl.fresh q j hq k hk]
    intro heq
    have hmem := (hl.mem p _ (mem_of_getLast? heq)).1
    exact (hs.below j _ ⟨q, hq, rfl⟩ _ hmem rfl).not_ge hk
  refine ⟨?_, fun q n hn => ?_, fun q => ?_, fun q r n hn hn' => ?_, fun q j hq k hk => ?_⟩
  · have hold : s.given ⊆ insert x s.handed := hl.given.trans (Finset.subset_insert _ _)
    rw [hhanded]
    rcases hcases with ⟨-, -, hgiven⟩ | ⟨-, -, hgiven⟩ <;> rw [hgiven]
    · exact Finset.union_subset hold fun n hn => (hsub n (mem_toFinset.mp hn)).1
    · exact hold
  · rw [hhanded]
    by_cases hq : q = p
    · rw [hq, hself] at hn
      exact ⟨(hsub n (hrun n hn).1).1, (hrun n hn).2⟩
    · rw [hothers q hq] at hn
      obtain ⟨hmem, hnot⟩ := hl.mem q n hn
      refine ⟨Finset.mem_insert_of_mem hmem, ?_⟩
      rcases hcases with ⟨-, -, hgiven⟩ | ⟨-, -, hgiven⟩ <;> rw [hgiven]
      · simpa only [Finset.mem_union, List.mem_toFinset, not_or] using ⟨hnot, hfree q hq n hn⟩
      · exact hnot
  · by_cases hq : q = p
    · rw [hq, hself]
      rcases hcases with ⟨rfl, rfl, -⟩ | ⟨rfl, rfl, -⟩
      · exact ⟨nodup_nil, .nil, nofun, rfl⟩
      · exact hok
    · rw [hothers q hq]
      refine (hl.ok q).congr fun n hn => ⟨?_, ?_⟩
      · rw [hnext, if_neg]
        exact fun heq => hfree q hq n hn (mem_append_left _ (mem_of_getLast? heq))
      · have hne : n ≠ x := fun heq => hfree q hq n hn (by simp [heq])
        rw [hval, update_of_ne hne]
  · by_cases hq : q = p <;> by_cases hr : r = p
    · rw [hq, hr]
    · rw [hq, hself] at hn
      exact absurd (hrun n hn).1 (hfree r hr n (hothers r hr ▸ hn'))
    · rw [hr, hself] at hn'
      exact absurd (hrun n hn').1 (hfree q hq n (hothers q hq ▸ hn))
    · exact hl.disjoint q r n (hothers q hq ▸ hn) (hothers r hr ▸ hn')
  · by_cases hqp : q = p
    · rw [hqp, hself] at hq hk
      exact hfresh p j k hq (Nat.le_of_succ_le hk)
    · rw [hothers q hqp] at hq hk
      exact hfresh q j k hq hk

theorem Linked.start (hl : s.Linked) (hnil : (s.producers p).items = []) (items : List T) :
    (s.setProducer p { s.producers p with items := items }).Linked := by
  have hrun : (s.producers p).run = [] := by simpa [hnil] using (hl.ok p).vals
  have hsame : ∀ q, ((s.setProducer p { s.producers p with items := items }).producers q).run =
      (s.producers q).run := fun q => by by_cases hq : q = p <;> simp [setProducer, hq]
  refine ⟨hl.given, fun q n hn => hl.mem q n (hsame q ▸ hn), fun q => ?_,
    fun q r n hn hn' => hl.disjoint q r n (hsame q ▸ hn) (hsame r ▸ hn'), fun q j hq k hk => ?_⟩
  · rw [hsame q]
    by_cases hq : q = p
    · rw [hq, hrun]
      exact ⟨nodup_nil, .nil, nofun, rfl⟩
    · simpa [setProducer, hq] using hl.ok q
  · refine hl.fresh q j ?_ k ?_
    · by_cases hqp : q = p <;> simpa [setProducer, hqp] using hq
    · by_cases hqp : q = p <;> simpa [setProducer, hqp] using hk

/-! ### Runs of the machine -/

theorem step_inv {a : SlabAction T} (hs : s.Counted) (hl : s.Linked) (ht : s.step a = some s') :
    s'.Counted ∧ s'.Linked := by
  cases a with
  | start p items =>
    simp only [step] at ht
    split_ifs at ht with hstart
    cases ht
    exact ⟨hs.same (fun q => by by_cases hq : q = p <;> simp [setProducer, hq]) (fun j o => id)
      subset_rfl, hl.start hstart.1 items⟩
  | step p =>
    obtain ⟨item, hitem, ht⟩ := map_eq_some_iff.mp ht
    cases hp : (s.producers p).slab with
    | none =>
      simp only [hp] at ht
      exact ht ▸ ⟨hs.acquire hp, hl.acquire hs⟩
    | some i =>
      simp only [hp] at ht
      split_ifs at ht with hpos
      · rw [← hpos] at ht
        exact ht ▸ ⟨hs.sealSlab hp, hl.sealSlab i _⟩
      · exact ht ▸ ⟨hs.handOut hp hpos item, hl.handOut hs hp hitem⟩
  | close p =>
    simp only [step] at ht
    split_ifs at ht
    obtain ⟨i, hp, rfl⟩ := map_eq_some_iff.mp ht
    exact ⟨hs.sealSlab hp, hl.sealSlab i _⟩
  | retire n =>
    simp only [step] at ht
    split_ifs at ht with hn
    cases ht
    refine ⟨hs.retire (hl.given hn) _, hl.same hs rfl ?_ fun m hm => ⟨rfl, rfl, ?_, ?_⟩⟩
    · exact Finset.erase_subset_erase n hl.given
    · exact Finset.mem_erase_of_ne_of_mem fun heq => hm (heq ▸ hn)
    · exact fun hmem => hm (Finset.mem_of_mem_erase hmem)
  | release i =>
    have hi : s.releasing i ≠ 0 := fun hi => by simp [step, hi] at ht
    refine ⟨hs.release hi ht, ?_⟩
    simp only [step, if_neg hi] at ht
    split_ifs at ht <;> cases ht <;>
      exact hl.same hs rfl hl.given fun m hm => ⟨rfl, rfl, id, hm⟩
  | write n next val =>
    simp only [step] at ht
    split_ifs at ht with hn
    cases ht
    refine ⟨hs.same (fun q => ⟨rfl, rfl⟩) (fun j o => id) subset_rfl, hl.same hs rfl hl.given ?_⟩
    intro m hm
    have hne : m ≠ n := fun heq => hm (heq ▸ hn)
    exact ⟨update_of_ne hne _ _, update_of_ne hne _ _, id, hm⟩

theorem inv_of_reachable (h : Reachable step (init : SlabChain T) s) : s.Counted ∧ s.Linked := by
  refine h.invariant ?_ fun t a u ht _ hstep => step_inv ht.1 ht.2 hstep
  refine ⟨⟨nofun, fun i => ⟨none, fun pos => ?_, ?_⟩, nofun⟩, subset_rfl, nofun, fun p => ?_, nofun,
    nofun⟩
  · exact iff_of_false (fun ⟨p, hp, _⟩ => by cases hp) nofun
  · simp [View.Fits, view, init]
  · exact ⟨nodup_nil, .nil, nofun, rfl⟩

/-- The slab is sealed, and its nodes are retired. -/
def Done (s : SlabChain T) (i : ℕ) : Prop :=
  i < s.made ∧ (∀ p, (s.producers p).slab ≠ some i) ∧ ∀ n ∈ s.handed, n.1 ≠ i

/-- A slab is released, or about to be, exactly when it is sealed and its nodes are retired; it is in
one place then, and it has been released as often as it was acquired, but for the one time that it is in
use or about to be released. A `bump_batch` returns nodes that are linked in order, each with its item,
and none is missing. -/
theorem released_once (h : Reachable step (init : SlabChain T) s) :
    (∀ i, (s.Done i → s.releasing i + s.pool.count i + s.freed i = 1) ∧
      (¬ s.Done i → s.releasing i + s.pool.count i + s.freed i = 0) ∧
      s.acquired i + s.pool.count i + s.freed i = s.released i + if i < s.made then 1 else 0) ∧
    ∀ p s' nodes items, s.step (.step p) = some s' → s'.runs = (nodes, items) :: s.runs →
      items = (s.producers p).items ∧ nodes.length = items.length ∧ RunOk s'.next s'.val items nodes := by
  obtain ⟨hs, hl⟩ := inv_of_reachable h
  constructor
  · intro i
    obtain ⟨o, ho, hfit⟩ := hs.fits i
    have howed : (∀ n ∈ s.handed, n.1 ≠ i) ↔ (s.view i).owed = 0 := by
      rw [view, Finset.card_eq_zero, Finset.filter_eq_empty_iff]
    have hmade : (s.view i).made = true ↔ i < s.made := decide_eq_true_iff
    cases o with
    | some pos =>
      obtain ⟨p, hp, -⟩ := (ho pos).mpr rfl
      have hnot : ¬ s.Done i := fun h => h.2.1 p hp
      obtain ⟨hm, -, -, -, hidle, hacq⟩ := hfit
      refine ⟨fun h => absurd h hnot, fun _ => hidle, ?_⟩
      rw [if_pos (hmade.mp hm)]
      simp only [view] at hidle hacq
      omega
    | none =>
      have hfree : ∀ p, (s.producers p).slab ≠ some i := fun p hp => by
        simpa using (ho _).mp ⟨p, hp, rfl⟩
      have hdone : s.Done i ↔ (s.view i).made = true ∧ (s.view i).owed = 0 := by
        rw [Done, howed, hmade]
        simp [hfree]
      obtain ⟨-, -, -, hidle, hacq⟩ := hfit
      rw [hdone]
      refine ⟨fun h => hidle.trans (if_pos h), fun h => hidle.trans (if_neg h), ?_⟩
      simp only [hmade] at hacq
      exact hacq
  · intro p s' nodes items ht hruns
    obtain ⟨item, hitem, ht⟩ := Option.map_eq_some_iff.mp ht
    have hsame : s'.runs ≠ s.runs := fun heq => by
      rw [hruns] at heq
      exact absurd (congrArg List.length heq) (by simp)
    cases hp : (s.producers p).slab with
    | none =>
      simp only [hp] at ht
      subst ht
      unfold acquire at hsame
      split at hsame <;> exact absurd rfl hsame
    | some i =>
      simp only [hp] at ht
      split_ifs at ht with hpos
      · subst ht
        exact absurd rfl hsame
      · have hok := RunOk.handOut hl hs hp hitem
        subst ht
        by_cases hend : ((s.producers p).run ++ [(i, (s.producers p).pos)]).length =
            (s.producers p).items.length
        · have hout : (s.handOut p i item).runs =
              ((s.producers p).run ++ [(i, (s.producers p).pos)], (s.producers p).items) :: s.runs := by
            simp only [handOut, if_pos hend]
          obtain ⟨rfl, rfl⟩ := Prod.ext_iff.mp (List.cons.inj (hruns.symm.trans hout)).1
          exact ⟨rfl, hend, hok⟩
        · simp only [handOut, if_neg hend] at hsame
          exact absurd rfl hsame

/-- Two nodes are handed out, the slab is sealed, and the nodes are retired. -/
theorem released_once_two : ∃ s : SlabChain ℕ, s.runs = [([(0, 0), (0, 1)], [7, 8])] ∧
    s.releasing 0 + s.pool.count 0 + s.freed 0 = 1 ∧
    s.acquired 0 + s.pool.count 0 + s.freed 0 = s.released 0 + if 0 < s.made then 1 else 0 := by
  have hexec : (exec step (fun _ _ => true) (init : SlabChain ℕ)
      [.start 0 [7, 8], .step 0, .step 0, .step 0, .close 0, .retire (0, 0), .retire (0, 1),
        .release 0]).map (fun s => (s.runs, s.releasing 0 + s.pool.count 0 + s.freed 0)) =
      some ([([(0, 0), (0, 1)], [7, 8])], 1) := by
    rfl
  obtain ⟨s, hs, heq⟩ := Option.map_eq_some_iff.mp hexec
  obtain ⟨hruns, hidle⟩ := Prod.ext_iff.mp heq
  exact ⟨s, hruns, hidle, ((released_once (reachable_of_exec hs)).1 0).2.2⟩

end SlabChain

end Fibre.Channels
