import Fibre.Cache.ListPolicies

/-!
# The segments of SLRU and TinyLFU

The two policies keep each key on one of a few LRU lists and move it between them. Here a call
is the changes it makes to the lists, one by one, in the order in which it makes them: a key is
pushed on a list, moved to the front of its list with a new cost, or taken off a list. So what a
call does before a `push_new` can be told from what it does after.

A list adds a cost to the one it has recorded in a machine word. While no such addition wraps,
each list has recorded the sum of the costs of its members.
-/

namespace Fibre.Cache

open CostQueue Word Function List Option

variable {K : Type*}

/-! ### What a list has recorded -/

namespace LruList

variable [DecidableEq K] {l : LruList K} {q : List (K × UInt64)} {key : K} {i : ℕ} {old : UInt64}

/-- The list has recorded the sum of its members' costs. -/
def Tallied (l : LruList K) : Prop := l.currentCost.toNat = totalNat Prod.snd l.fromTail

theorem currentCost_touchIndex (hl : l.lookup.lookup key = some i) (hc : l.costAt key = some old)
    (cost : UInt64) : (l.touchIndex i cost).currentCost = satSub l.currentCost old + cost := by
  unfold costAt at hc
  rw [hl, bind_some] at hc
  obtain ⟨node, hnode, rfl⟩ := map_eq_some_iff.mp hc
  simp only [touchIndex, hnode]
  split_ifs
  · rw [(pushFrontNode_frame _ i).2.2, (unlink_frame _ i).2.2]
    rfl
  · rfl

theorem Stores.exists_tracked (h : l.Stores q) (hc : costOf q key = some old) :
    ∃ L : List (Tracked K K), l.Lists L ∧ q = L.map (fun e => (e.name, e.cost)) ∧
      ∃ e ∈ L, e.name = key ∧ e.cost = old := by
  obtain ⟨c, hshows, rfl⟩ := h
  have hmem : key ∈ c.names := by
    rw [← PlainList.map_fst_entries, ← costOf_isSome, hc]
    rfl
  obtain ⟨e, he, rfl⟩ := mem_map.mp hmem
  have hnodup : ((CostList.entries c).map Prod.fst).Nodup := by
    rw [PlainList.map_fst_entries]
    exact hshows.1.nodup_names
  have hentry : (e.name, e.cost) ∈ CostList.entries c := mem_map.mpr ⟨e, he, rfl⟩
  have hcost : costOf (CostList.entries c) e.name = some e.cost := costOf_of_mem hnodup hentry
  exact ⟨c.tracked, hshows.1, rfl, e, he, rfl, Option.some.inj (hcost.symm.trans hc)⟩

theorem Stores.currentCost_remove (h : l.Stores q) (hc : costOf q key = some old) :
    (l.remove key).2.currentCost = satSub l.currentCost old := by
  obtain ⟨L, hlists, -, e, he, rfl, rfl⟩ := h.exists_tracked hc
  exact (hlists.remove he).2.2

theorem Tallied.pushNew (ht : l.Tallied) (h : l.Stores q) (hk : key ∉ q.map Prod.fst)
    {cost : UInt64} (hfit : l.currentCost.toNat + cost.toNat < 2 ^ 64) :
    (l.pushNew key cost).Tallied := by
  unfold Tallied at ht ⊢
  rw [h.fromTail] at ht
  rw [(h.pushNew hk cost).fromTail, pushNew_currentCost, UInt64.toNat_add,
    Nat.mod_eq_of_lt hfit, ht, totalNat_append, totalNat_cons, totalNat_nil]
  rfl

theorem Tallied.touchIndex (ht : l.Tallied) (h : l.Stores q) (hl : l.lookup.lookup key = some i)
    {cost : UInt64} (hfit : ∀ old ∈ l.costAt key,
      (satSub l.currentCost old).toNat + cost.toNat < 2 ^ 64) :
    (l.touchIndex i cost).Tallied := by
  have hmem : (costOf q key).isSome := by
    rw [costOf_isSome, ← h.lookup_isSome, hl]
    rfl
  obtain ⟨old, hold⟩ := isSome_iff_exists.mp hmem
  have hat : l.costAt key = some old := (h.costAt key).trans hold
  have hsum := totalNat_dropKey h.nodup hold
  unfold Tallied at ht ⊢
  rw [h.fromTail] at ht
  rw [(h.touchIndex hl cost).fromTail, currentCost_touchIndex hl hat, UInt64.toNat_add,
    Nat.mod_eq_of_lt (hfit old hat), toNat_satSub, ht, totalNat_append, totalNat_cons,
    totalNat_nil]
  simp only
  omega

theorem Tallied.remove (ht : l.Tallied) (h : l.Stores q) (key : K) : (l.remove key).2.Tallied := by
  cases hold : costOf q key with
  | none =>
    have hout : key ∉ q.map Prod.fst := costOf_eq_none.mp hold
    have hnone : l.lookup.lookup key = none := by simpa using h.lookup_isSome.not.mpr hout
    unfold LruList.remove
    rw [hnone]
    exact ht
  | some old =>
    have hsum := totalNat_dropKey h.nodup hold
    unfold Tallied at ht ⊢
    rw [h.fromTail] at ht
    rw [(h.remove key).2.fromTail, h.currentCost_remove hold, toNat_satSub, ht]
    omega

theorem Tallied.clear (l : LruList K) : l.clear.Tallied := by
  unfold Tallied
  rw [(Stores.clear l).fromTail]
  rfl

theorem Tallied.eq_zero (ht : l.Tallied) (h : l.Stores []) : l.currentCost = 0 := by
  unfold Tallied at ht
  rw [h.fromTail, totalNat_nil] at ht
  exact UInt64.toNat_inj.mp ht

theorem popBack_eq_remove {r : (K × UInt64) × LruList K} (h : l.popBack = some r) :
    r.2 = (l.remove r.1.1).2 := by
  unfold popBack at h
  cases hn : l.tail.bind l.nodes with
  | none => simp [hn] at h
  | some node =>
    rw [hn] at h
    obtain rfl := Option.some.inj h
    rfl

theorem Stores.contains_iff (h : l.Stores q) : l.contains key = true ↔ key ∈ q.map Prod.fst :=
  h.lookup_isSome

theorem Stores.popBack (h : l.Stores q) {r : (K × UInt64) × LruList K} (hr : l.popBack = some r) :
    ∃ q', q = r.1 :: q' ∧ r.2.Stores q' := by
  cases q with
  | nil =>
    rw [h.popBack_nil] at hr
    cases hr
  | cons e q =>
    obtain ⟨l', hpop, h'⟩ := h.popBack_cons
    obtain rfl := Option.some.inj (hpop.symm.trans hr)
    exact ⟨q, rfl, h'⟩

end LruList

/-! ### Changes of the lists -/

/-- Where a policy keeps a key. -/
inductive Segment
  | window
  | probation
  | protectedSeg
  deriving DecidableEq

abbrev Segments (K : Type*) := Segment → LruList K

/-- A change of one list. -/
inductive SegmentMove (K : Type*)
  /-- `push_new` -/
  | push (a : Segment) (key : K) (cost : UInt64)
  /-- `touch_index` at the key's node -/
  | touch (a : Segment) (key : K) (cost : UInt64)
  /-- `remove`, or `pop_back` when the key is at the tail -/
  | drop (a : Segment) (key : K)
  | clear (a : Segment)

/-- The list that a change is about. -/
def SegmentMove.segment : SegmentMove K → Segment
  | push a _ _ => a
  | touch a _ _ => a
  | drop a _ => a
  | clear a => a

variable [DecidableEq K]

def SegmentMove.change (l : LruList K) : SegmentMove K → LruList K
  | push _ key cost => l.pushNew key cost
  | touch _ key cost => (l.lookup.lookup key).elim l fun i => l.touchIndex i cost
  | drop _ key => (l.remove key).2
  | clear _ => l.clear

/-- The lists after a change. -/
def SegmentMove.apply (S : Segments K) (m : SegmentMove K) : Segments K :=
  update S m.segment (m.change (S m.segment))

def SegmentMove.Fresh (S : Segments K) : SegmentMove K → Prop
  | push _ key _ => ∀ b, (S b).contains key = false
  | _ => True

/-- A cost that is added to a recorded one does not wrap. -/
def SegmentMove.Fits (S : Segments K) : SegmentMove K → Prop
  | push a _ cost => (S a).currentCost.toNat + cost.toNat < 2 ^ 64
  | touch a key cost =>
    ∀ old ∈ (S a).costAt key, (satSub (S a).currentCost old).toNat + cost.toNat < 2 ^ 64
  | _ => True

instance (S : Segments K) : DecidablePred (SegmentMove.Fits S)
  | .push a _ cost => inferInstanceAs (Decidable ((S a).currentCost.toNat + cost.toNat < 2 ^ 64))
  | .touch a key cost => inferInstanceAs (Decidable (∀ old ∈ (S a).costAt key,
      (satSub (S a).currentCost old).toNat + cost.toNat < 2 ^ 64))
  | .drop _ _ => inferInstanceAs (Decidable True)
  | .clear _ => inferInstanceAs (Decidable True)

namespace Segments

/-- The lists after some changes. -/
def follow (S : Segments K) (ms : List (SegmentMove K)) : Segments K :=
  ms.foldl SegmentMove.apply S

/-- Each change meets `P` on the lists that it finds. -/
def Along (P : Segments K → SegmentMove K → Prop) : Segments K → List (SegmentMove K) → Prop
  | _, [] => True
  | S, m :: ms => P S m ∧ Along P (m.apply S) ms

instance Along.decidable (P : Segments K → SegmentMove K → Prop) [∀ S, DecidablePred (P S)] :
    ∀ S ms, Decidable (Along P S ms)
  | _, [] => inferInstanceAs (Decidable True)
  | S, m :: ms =>
    have := Along.decidable P (m.apply S) ms
    inferInstanceAs (Decidable (P S m ∧ Along P (m.apply S) ms))

theorem follow_append (S : Segments K) (ms ms' : List (SegmentMove K)) :
    S.follow (ms ++ ms') = (S.follow ms).follow ms' := foldl_append

theorem along_append {P : Segments K → SegmentMove K → Prop} {S : Segments K}
    {ms ms' : List (SegmentMove K)} :
    Along P S (ms ++ ms') ↔ Along P S ms ∧ Along P (S.follow ms) ms' := by
  induction ms generalizing S with
  | nil => simp [Along, follow]
  | cons m ms ih =>
    rw [cons_append, Along, Along, ih, and_assoc]
    rfl

/-- Each list is well formed, and no key is on two. -/
structure Apart (S : Segments K) : Prop where
  stores : ∀ a, (S a).Stores (S a).fromTail
  unique : ∀ a b key, (S a).contains key = true → (S b).contains key = true → a = b

variable {S : Segments K} {key : K} {a : Segment} {m : SegmentMove K}

theorem Apart.notMem (h : S.Apart) (hm : m.Fresh S) (a : Segment) (key : K) (cost : UInt64)
    (heq : m = .push a key cost) : key ∉ (S m.segment).fromTail.map Prod.fst := by
  subst heq
  rw [← (h.stores _).contains_iff, hm]
  simp

theorem stores_change {l : LruList K} {q : List (K × UInt64)} (h : l.Stores q)
    (hm : ∀ a key cost, m = .push a key cost → key ∉ q.map Prod.fst) :
    ∃ q', (m.change l).Stores q' ∧ ∀ k ∈ q'.map Prod.fst,
      k ∈ q.map Prod.fst ∧ (∀ a, m ≠ .drop a k) ∨ ∃ a cost, m = .push a k cost := by
  cases m with
  | push a key cost =>
    refine ⟨_, h.pushNew (hm a key cost rfl) cost, ?_⟩
    intro k hk
    rw [map_append, mem_append] at hk
    rcases hk with hk | hk
    · exact .inl ⟨hk, by simp⟩
    · obtain rfl : k = key := by simpa using hk
      exact .inr ⟨a, cost, rfl⟩
  | touch a key cost =>
    simp only [SegmentMove.change]
    cases hl : l.lookup.lookup key with
    | none => exact ⟨q, h, fun k hk => .inl ⟨hk, by simp⟩⟩
    | some i =>
      have hmem : key ∈ q.map Prod.fst := by
        rw [← h.lookup_isSome, hl]
        rfl
      refine ⟨_, h.touchIndex hl cost, ?_⟩
      intro k hk
      refine .inl ⟨?_, by simp⟩
      rw [map_append, mem_append, map_fst_dropKey] at hk
      rcases hk with hk | hk
      · exact mem_of_mem_filter hk
      · obtain rfl : k = key := by simpa using hk
        exact hmem
  | drop a key =>
    refine ⟨_, (h.remove key).2, ?_⟩
    intro k hk
    rw [map_fst_dropKey, mem_filter] at hk
    refine .inl ⟨hk.1, ?_⟩
    rintro b heq
    obtain ⟨-, rfl⟩ := SegmentMove.drop.inj heq
    simp at hk
  | clear a => exact ⟨[], LruList.Stores.clear l, by simp⟩

/-- A key on a list after a change was there before, and is not the one taken off it, or it is
pushed there. -/
theorem Apart.contains_of_apply (h : S.Apart) (hm : m.Fresh S) {b : Segment} {k : K}
    (hk : (m.apply S b).contains k = true) :
    (S b).contains k = true ∧ m ≠ .drop b k ∨ ∃ cost, m = .push b k cost := by
  unfold SegmentMove.apply at hk
  by_cases hb : b = m.segment
  · subst hb
    rw [update_self] at hk
    obtain ⟨q', hq', hkeys⟩ := stores_change (h.stores m.segment) (h.notMem hm)
    rcases hkeys k (hq'.contains_iff.mp hk) with ⟨hmem, hne⟩ | ⟨a, cost, heq⟩
    · exact .inl ⟨(h.stores _).contains_iff.mpr hmem, hne _⟩
    · refine .inr ⟨cost, ?_⟩
      rw [heq]
      rfl
  · rw [update_of_ne hb] at hk
    refine .inl ⟨hk, ?_⟩
    rintro rfl
    exact hb rfl

theorem Apart.apply (h : S.Apart) (hm : m.Fresh S) : (m.apply S).Apart := by
  constructor
  · intro b
    unfold SegmentMove.apply
    by_cases hb : b = m.segment
    · subst hb
      rw [update_self]
      obtain ⟨q', hq', -⟩ := stores_change (h.stores m.segment) (h.notMem hm)
      exact hq'.self
    · rw [update_of_ne hb]
      exact h.stores b
  · intro a b k ha hb
    rcases h.contains_of_apply hm ha with ⟨holdA, -⟩ | ⟨cost, heq⟩
    · rcases h.contains_of_apply hm hb with ⟨holdB, -⟩ | ⟨cost, rfl⟩
      · exact h.unique a b k holdA holdB
      · rw [hm a] at holdA
        cases holdA
    · rcases h.contains_of_apply hm hb with ⟨holdB, -⟩ | ⟨cost', heq'⟩
      · subst heq
        rw [hm b] at holdB
        cases holdB
      · rw [heq] at heq'
        exact (SegmentMove.push.inj heq').1

theorem Apart.fresh_drop (h : S.Apart) (hk : (S a).contains key = true) (b : Segment) :
    ((SegmentMove.drop a key).apply S b).contains key = false := by
  by_contra hin
  rw [Bool.not_eq_false] at hin
  rcases h.contains_of_apply (m := .drop a key) trivial hin with ⟨hb, hne⟩ | ⟨cost, heq⟩
  · obtain rfl := h.unique a b key hk hb
    exact hne rfl
  · cases heq

theorem Apart.follow {ms : List (SegmentMove K)} (h : S.Apart) (hms : Along SegmentMove.Fresh S ms) :
    (S.follow ms).Apart := by
  induction ms generalizing S with
  | nil => exact h
  | cons m ms ih => exact ih (h.apply hms.1) hms.2

/-- Each list has recorded the sum of its members' costs. -/
def Tallied (S : Segments K) : Prop := ∀ a, (S a).Tallied

theorem Tallied.apply (ht : S.Tallied) (h : S.Apart) (hm : m.Fresh S) (hfit : m.Fits S) :
    (m.apply S).Tallied := by
  intro b
  unfold SegmentMove.apply
  by_cases hb : b = m.segment
  · subst hb
    rw [update_self]
    cases m with
    | push a key cost => exact (ht a).pushNew (h.stores a) (h.notMem hm a key cost rfl) hfit
    | touch a key cost =>
      simp only [SegmentMove.change, SegmentMove.segment]
      cases hl : (S a).lookup.lookup key with
      | none => exact ht a
      | some i => exact (ht a).touchIndex (h.stores a) hl hfit
    | drop a key => exact (ht a).remove (h.stores a) key
    | clear a => exact .clear _
  · rw [update_of_ne hb]
    exact ht b

theorem Tallied.follow {ms : List (SegmentMove K)} (ht : S.Tallied) (h : S.Apart)
    (hms : Along SegmentMove.Fresh S ms) (hfit : Along SegmentMove.Fits S ms) : (S.follow ms).Tallied := by
  induction ms generalizing S with
  | nil => exact ht
  | cons m ms ih => exact ih (ht.apply h hms.1 hfit.1) (h.apply hms.1) hms.2 hfit.2

/-- The changes lead from the lists `S` to `S'`, and every key pushed is on no list. -/
structure Traced (S : Segments K) (ms : List (SegmentMove K)) (S' : Segments K) : Prop where
  follow : S.follow ms = S'
  fresh : Along SegmentMove.Fresh S ms

namespace Traced

variable {S' S'' : Segments K} {ms ms' : List (SegmentMove K)}

theorem nil (S : Segments K) : S.Traced [] S := ⟨rfl, trivial⟩

theorem cons (hm : m.Fresh S) (h : (m.apply S).Traced ms S') : S.Traced (m :: ms) S' :=
  ⟨h.follow, hm, h.fresh⟩

theorem append (h : S.Traced ms S') (h' : S'.Traced ms' S'') : S.Traced (ms ++ ms') S'' := by
  obtain ⟨rfl, hfresh⟩ := h
  exact ⟨(S.follow_append ms ms').trans h'.follow, along_append.mpr ⟨hfresh, h'.fresh⟩⟩

theorem apart (h : S.Traced ms S') (hS : S.Apart) : S'.Apart := by
  rw [← h.follow]
  exact hS.follow h.fresh

end Traced

theorem Apart.traced_move (h : S.Apart) (hk : (S a).contains key = true) (b : Segment)
    (cost : UInt64) : S.Traced [.drop a key, .push b key cost]
      ((SegmentMove.push b key cost).apply ((SegmentMove.drop a key).apply S)) :=
  ⟨rfl, trivial, h.fresh_drop hk, trivial⟩

end Segments

/-! ### The changes of the main segments -/

namespace SlruState

/-- The lists of a policy with the window `w`. -/
def segments (w : LruList K) (s : SlruState K) : Segments K
  | .window => w
  | .probation => s.probationary
  | .protectedSeg => s.protectedList

/-- What `push_front` changes. -/
def pushFrontMoves (a : Segment) (l : LruList K) (key : K) (cost : UInt64) :
    List (SegmentMove K) :=
  match l.lookup.lookup key with
  | some _ => [.touch a key cost]
  | none => [.push a key cost]

/-- What the demotion loop changes. -/
def maintainMoves (protCapacity : UInt64) : ℕ → SlruState K → List (SegmentMove K)
  | 0, _ => []
  | fuel + 1, s =>
    if s.protectedList.currentCost > protCapacity then
      match s.protectedList.popBack with
      | none => []
      | some r => .drop .protectedSeg r.1.1 :: .push .probation r.1.1 r.1.2 ::
          maintainMoves protCapacity fuel ⟨s.probationary.pushNew r.1.1 r.1.2, r.2⟩
    else
      []

/-- What `admit_internal` changes. -/
def admitMoves (s : SlruState K) (key : K) (cost : UInt64) : List (SegmentMove K) :=
  if s.protectedList.contains key then []
  else pushFrontMoves .probation s.probationary key cost

/-- What `touch` changes. -/
def touchMoves (s : SlruState K) (key : K) (cost protCapacity : UInt64) : List (SegmentMove K) :=
  match s.protectedList.lookup.lookup key with
  | some _ => [.touch .protectedSeg key cost]
  | none =>
    let r := s.probationary.remove key
    if r.1.isSome then
      let s : SlruState K := ⟨r.2, s.protectedList.pushNew key cost⟩
      .drop .probation key :: .push .protectedSeg key cost ::
        maintainMoves protCapacity s.protectedLen s
    else
      []

def popMoves (a : Segment) : ℕ → UInt64 → LruList K → List (SegmentMove K)
  | 0, _, _ => []
  | fuel + 1, c, l =>
    if c > 0 then
      match l.popBack with
      | none => []
      | some r => .drop a r.1.1 :: popMoves a fuel (satSub c r.1.2) r.2
    else
      []

/-- What an eviction changes. -/
def evictMoves (s : SlruState K) (costToFree protCapacity : UInt64) : List (SegmentMove K) :=
  let s' := s.maintainCapacities protCapacity
  let p := evictList s'.probationary.lookup.keys.length costToFree 0 s'.probationary
  maintainMoves protCapacity s.protectedLen s ++
    (popMoves .probation s'.probationary.lookup.keys.length costToFree s'.probationary ++
      popMoves .protectedSeg s'.protectedLen p.1.1 s'.protectedList)

variable {w : LruList K} {s : SlruState K} {S : Segments K} {key : K}

open Segments

theorem traced_pushFront {a : Segment} (key : K) (cost : UInt64)
    (hout : (S a).lookup.lookup key = none → ∀ b, (S b).contains key = false) :
    S.Traced (pushFrontMoves a (S a) key cost)
      (update S a ((S a).pushFront key cost)) := by
  unfold pushFrontMoves LruList.pushFront
  cases hl : (S a).lookup.lookup key with
  | some i =>
    refine ⟨?_, trivial, trivial⟩
    simp only [follow, foldl_cons, foldl_nil, SegmentMove.apply, SegmentMove.change,
      SegmentMove.segment, hl, elim_some]
  | none => exact ⟨rfl, hout hl, trivial⟩

theorem traced_maintain (h : (s.segments w).Apart) (cap : UInt64) (fuel : ℕ) :
    (s.segments w).Traced (maintainMoves cap fuel s) ((maintainLoop cap fuel s).segments w) := by
  induction fuel generalizing s with
  | zero => exact .nil _
  | succ fuel ih =>
    unfold maintainMoves maintainLoop
    split_ifs
    · cases hpop : s.protectedList.popBack with
      | none => exact .nil _
      | some r =>
        obtain ⟨q, hq, -⟩ := (h.stores .protectedSeg).popBack hpop
        have hin : (s.segments w .protectedSeg).contains r.1.1 = true := by
          rw [(h.stores .protectedSeg).contains_iff, hq]
          exact mem_cons_self
        have hmove := h.traced_move hin .probation r.1.2
        have hnext : (SegmentMove.push .probation r.1.1 r.1.2).apply
            ((SegmentMove.drop .protectedSeg r.1.1).apply (s.segments w)) =
              segments w ⟨s.probationary.pushNew r.1.1 r.1.2, r.2⟩ := by
          rw [LruList.popBack_eq_remove hpop]
          funext b
          cases b <;> rfl
        rw [hnext] at hmove
        exact hmove.append (ih (hmove.apart h))
    · exact .nil _

theorem touch_fst (h : (s.segments w).Apart) (cost cap : UInt64) :
    (s.touch key cost cap).1 = true ↔
      s.probationary.contains key = true ∨ s.protectedList.contains key = true := by
  unfold touch LruList.contains
  cases s.protectedList.lookup.lookup key with
  | some i => simp
  | none =>
    have hmem := ((h.stores .probation).remove key).1
    rw [← (h.stores .probation).lookup_isSome] at hmem
    simp only [segments] at hmem ⊢
    split_ifs with hsome
    · simpa using hmem.mp hsome
    · simpa [hsome] using hmem

theorem traced_touch (h : (s.segments w).Apart) (key : K) (cost cap : UInt64) :
    (s.segments w).Traced (s.touchMoves key cost cap)
      ((s.touch key cost cap).2.segments w) := by
  unfold touchMoves touch
  cases hl : s.protectedList.lookup.lookup key with
  | some i =>
    refine ⟨?_, trivial, trivial⟩
    funext b
    cases b with
    | protectedSeg =>
      show ((s.protectedList.lookup.lookup key).elim _ _) = _
      rw [hl]
      rfl
    | window => rfl
    | probation => rfl
  | none =>
    simp only
    split_ifs with hsome
    · have hin : (s.segments w .probation).contains key = true := by
        rw [(h.stores .probation).contains_iff]
        exact ((h.stores .probation).remove key).1.mp hsome
      have hmove := h.traced_move hin .protectedSeg cost
      have hnext : (SegmentMove.push .protectedSeg key cost).apply
          ((SegmentMove.drop .probation key).apply (s.segments w)) =
            segments w ⟨(s.probationary.remove key).2, s.protectedList.pushNew key cost⟩ := by
        funext b
        cases b <;> rfl
      rw [hnext] at hmove
      exact hmove.append (traced_maintain (hmove.apart h) cap _)
    · exact .nil _

theorem traced_admit (hout : ∀ b, (s.segments w b).contains key = false) (cost : UInt64) :
    (s.segments w).Traced (s.admitMoves key cost) ((s.admitInternal key cost).segments w) := by
  unfold admitMoves admitInternal
  split_ifs
  · exact .nil _
  · have hpush := traced_pushFront (S := s.segments w) (a := .probation) key cost fun _ => hout
    have hend : segments w { s with probationary := s.probationary.pushFront key cost } =
        update (s.segments w) .probation (s.probationary.pushFront key cost) := by
      funext b
      cases b <;> rfl
    rw [hend]
    exact hpush

theorem traced_pops (a : Segment) (fuel : ℕ) (c freed : UInt64) (S : Segments K) :
    S.Traced (popMoves a fuel c (S a))
      (update S a (evictList fuel c freed (S a)).2) := by
  induction fuel generalizing S c freed with
  | zero =>
    unfold popMoves evictList
    rw [update_eq_self]
    exact .nil _
  | succ fuel ih =>
    unfold popMoves evictList
    split_ifs
    · cases hpop : (S a).popBack with
      | none =>
        rw [update_eq_self]
        exact .nil _
      | some r =>
        have hdrop : (SegmentMove.drop a r.1.1).apply S = update S a r.2 := by
          rw [LruList.popBack_eq_remove hpop]
          rfl
        have hrest := ih (satSub c r.1.2) (freed + r.1.2) (update S a r.2)
        rw [update_self, update_idem] at hrest
        refine .cons trivial ?_
        rw [hdrop]
        exact hrest
    · rw [update_eq_self]
      exact .nil _

theorem traced_evict (h : (s.segments w).Apart) (c cap : UInt64) :
    (s.segments w).Traced (s.evictMoves c cap) ((s.evictItems c cap).2.segments w) := by
  refine (traced_maintain h cap s.protectedLen).append ?_
  set s' := s.maintainCapacities cap with hs'
  set p := evictList s'.probationary.lookup.keys.length c 0 s'.probationary with hp
  refine (traced_pops .probation s'.probationary.lookup.keys.length c 0 (s'.segments w)).append ?_
  have hpops := traced_pops .protectedSeg s'.protectedLen p.1.1 p.1.2.2
    (update (s'.segments w) .probation p.2)
  have hend : (s.evictItems c cap).2.segments w =
      update (update (s'.segments w) .probation p.2) .protectedSeg
        (evictList s'.protectedLen p.1.1 p.1.2.2 s'.protectedList).2 := by
    funext b
    cases b <;> rfl
  rw [hend]
  exact hpops

end SlruState

/-! ### The changes of a call -/

open SlruState Segments

namespace Slru

/-- The lists of the policy, which has no window. -/
def segments (s : Slru K) : Segments K := s.state.segments .new

def moves (s : Slru K) : PolicyCall K → List (SegmentMove K)
  | .onAccess key cost => s.state.touchMoves key cost s.protCapacity
  | .onAdmit key cost =>
    if !s.state.protectedList.contains key && !s.state.probationary.contains key then
      pushFrontMoves .probation s.state.probationary key cost
    else
      []
  | .onRemove key =>
    if (s.state.probationary.remove key).1.isSome then [.drop .probation key]
    else [.drop .probation key, .drop .protectedSeg key]
  | .evict costToFree => s.state.evictMoves costToFree s.protCapacity
  | .clear => [.clear .probation, .clear .protectedSeg]

theorem traced {s : Slru K} (h : s.segments.Apart) (call : PolicyCall K) :
    s.segments.Traced (s.moves call) (CachePolicy.step s call).segments := by
  cases call with
  | onAccess key cost => exact traced_touch h key cost s.protCapacity
  | onAdmit key cost =>
    change s.segments.Traced _ (s.onAdmit key cost).segments
    simp only [moves, Slru.onAdmit]
    split_ifs with hout
    · have hpush := traced_pushFront (S := s.segments) (a := .probation) key cost ?_
      · have hend : update s.segments .probation
            (s.state.probationary.pushFront key cost) =
              segments { s with state :=
                { s.state with probationary := s.state.probationary.pushFront key cost } } := by
          funext b
          cases b <;> rfl
        rw [← hend]
        exact hpush
      · rintro - b
        simp only [Bool.and_eq_true, Bool.not_eq_true'] at hout
        cases b with
        | window => rfl
        | probation => exact hout.2
        | protectedSeg => exact hout.1
    · exact .nil _
  | onRemove key =>
    change s.segments.Traced _ (s.onRemove key).segments
    simp only [moves, Slru.onRemove]
    split_ifs
    · refine ⟨?_, trivial, trivial⟩
      funext b
      cases b <;> rfl
    · refine ⟨?_, trivial, trivial, trivial⟩
      funext b
      cases b <;> rfl
  | evict c => exact traced_evict h c s.protCapacity
  | clear =>
    refine ⟨?_, trivial, trivial, trivial⟩
    funext b
    cases b <;> rfl

end Slru

namespace TinyLfu

/-- The lists of the policy. -/
def segments (p : TinyLfu K) : Segments K := p.main.segments p.window

/-- What the overflow loop of the window changes. -/
def windowMoves : ℕ → TinyLfu K → List (SegmentMove K)
  | 0, _ => []
  | fuel + 1, p =>
    if p.window.currentCost > p.windowTargetCost then
      match p.window.popBack with
      | none => []
      | some r =>
        let p := { p with window := r.2 }
        .drop .window r.1.1 ::
          if p.admits r.1.1 r.1.2 then
            p.main.admitMoves r.1.1 r.1.2 ++
              windowMoves fuel { p with main := p.main.admitInternal r.1.1 r.1.2 }
          else
            windowMoves fuel p
    else
      []

def moves (p : TinyLfu K) : PolicyCall K → List (SegmentMove K)
  | .onAccess key cost =>
    match p.window.lookup.lookup key with
    | some _ => [.touch .window key cost]
    | none => p.main.touchMoves key cost p.mainProtCapacity
  | .onAdmit key cost =>
    let t := p.main.touch key cost p.mainProtCapacity
    if t.1 then p.main.touchMoves key cost p.mainProtCapacity
    else
      let window := p.window.pushFront key cost
      pushFrontMoves .window p.window key cost ++
        windowMoves window.lookup.keys.length { p.count key with window := window }
  | .onRemove key =>
    if (p.window.remove key).1.isSome then [.drop .window key]
    else if (p.main.probationary.remove key).1.isSome then [.drop .probation key]
    else [.drop .protectedSeg key]
  | .evict costToFree =>
    if costToFree = 0 then [] else p.main.evictMoves costToFree p.mainProtCapacity
  | .clear => [.clear .window, .clear .probation, .clear .protectedSeg]

variable {p : TinyLfu K}

theorem traced_window (h : p.segments.Apart) (fuel : ℕ) :
    p.segments.Traced (windowMoves fuel p) (windowLoop fuel p).2.segments := by
  induction fuel generalizing p with
  | zero => exact .nil _
  | succ fuel ih =>
    unfold windowMoves windowLoop
    split_ifs
    · cases hpop : p.window.popBack with
      | none => exact .nil _
      | some r =>
        obtain ⟨q, hq, -⟩ := (h.stores .window).popBack hpop
        have hin : (p.segments .window).contains r.1.1 = true := by
          rw [(h.stores .window).contains_iff, hq]
          exact mem_cons_self
        have hdrop : (SegmentMove.drop .window r.1.1).apply p.segments =
            segments { p with window := r.2 } := by
          rw [LruList.popBack_eq_remove hpop]
          funext b
          cases b <;> rfl
        have hfresh := h.fresh_drop hin
        have happly := h.apply (m := .drop .window r.1.1) trivial
        rw [hdrop] at hfresh happly
        refine .cons trivial ?_
        rw [hdrop]
        simp only
        split_ifs
        · have henter := traced_admit hfresh r.1.2
          exact henter.append (ih (p := { p with
            window := r.2
            main := p.main.admitInternal r.1.1 r.1.2 }) (henter.apart happly))
        · exact ih happly
    · exact .nil _

theorem onAdmit_of_touch {key : K} {cost : UInt64}
    (h : (p.main.touch key cost p.mainProtCapacity).1 = true) : (p.onAdmit key cost).2 =
      { p.count key with main := (p.main.touch key cost p.mainProtCapacity).2 } := by
  simp only [TinyLfu.onAdmit]
  rw [if_pos]
  · rfl
  · exact h

theorem onAdmit_of_not_touch {key : K} {cost : UInt64}
    (h : ¬ (p.main.touch key cost p.mainProtCapacity).1 = true) : (p.onAdmit key cost).2 =
      (windowLoop (p.window.pushFront key cost).lookup.keys.length
        { p.count key with window := p.window.pushFront key cost }).2 := by
  simp only [TinyLfu.onAdmit]
  rw [if_neg]
  · rfl
  · exact h

theorem traced_windowPush (h : p.segments.Apart) {key : K} {cost : UInt64}
    (hmain : ¬ (p.main.touch key cost p.mainProtCapacity).1 = true) :
    p.segments.Traced (pushFrontMoves .window p.window key cost)
      (segments { p.count key with window := p.window.pushFront key cost }) := by
  rw [touch_fst h, not_or] at hmain
  have hout : p.window.lookup.lookup key = none → ∀ b, (p.segments b).contains key = false := by
    intro hnone b
    cases b with
    | window =>
      show (p.window.lookup.lookup key).isSome = false
      rw [hnone]
      rfl
    | probation => exact Bool.eq_false_of_not_eq_true hmain.1
    | protectedSeg => exact Bool.eq_false_of_not_eq_true hmain.2
  have hend : segments { p.count key with window := p.window.pushFront key cost } =
      update p.segments .window (p.window.pushFront key cost) := by
    funext b
    cases b <;> rfl
  rw [hend]
  exact traced_pushFront (S := p.segments) (a := .window) key cost hout

theorem traced (h : p.segments.Apart) (call : PolicyCall K) :
    p.segments.Traced (p.moves call) (CachePolicy.step p call).segments := by
  cases call with
  | onAccess key cost =>
    change p.segments.Traced _ (p.onAccess key cost).segments
    simp only [moves, TinyLfu.onAccess, count]
    cases hl : p.window.lookup.lookup key with
    | some i =>
      refine ⟨?_, trivial, trivial⟩
      funext b
      cases b with
      | window =>
        show ((p.window.lookup.lookup key).elim _ _) = _
        rw [hl]
        rfl
      | probation => rfl
      | protectedSeg => rfl
    | none => exact traced_touch h key cost p.mainProtCapacity
  | onAdmit key cost =>
    change p.segments.Traced _ (p.onAdmit key cost).2.segments
    simp only [moves]
    split_ifs with hmain
    · rw [onAdmit_of_touch hmain]
      exact traced_touch h key cost p.mainProtCapacity
    · rw [onAdmit_of_not_touch hmain]
      have hpush := traced_windowPush h hmain
      exact hpush.append (traced_window (hpush.apart h) _)
  | onRemove key =>
    change p.segments.Traced _ (p.onRemove key).segments
    simp only [moves, TinyLfu.onRemove]
    split_ifs
    all_goals
      refine ⟨?_, trivial, trivial⟩
      funext b
      cases b <;> rfl
  | evict c =>
    change p.segments.Traced _ (p.evict c).2.segments
    simp only [moves, TinyLfu.evict]
    split_ifs
    · exact .nil _
    · exact traced_evict h c p.mainProtCapacity
  | clear =>
    refine ⟨?_, trivial, trivial, trivial, trivial⟩
    funext b
    cases b <;> rfl

theorem windowLoop_le {q : List (K × UInt64)} (hq : p.window.Stores q) (ht : p.window.Tallied)
    {fuel : ℕ} (hfuel : q.length ≤ fuel) :
    (windowLoop fuel p).2.window.currentCost ≤ p.windowTargetCost := by
  have hempty : ∀ l : LruList K, l.Tallied → l.Stores [] → l.currentCost ≤ p.windowTargetCost := by
    intro l ht hl
    rw [ht.eq_zero hl, UInt64.le_iff_toNat_le]
    exact Nat.zero_le _
  induction fuel generalizing p q with
  | zero =>
    rw [length_eq_zero_iff.mp (Nat.le_zero.mp hfuel)] at hq
    exact hempty p.window ht hq
  | succ fuel ih =>
    unfold windowLoop
    split_ifs with hover
    · cases hpop : p.window.popBack with
      | none =>
        cases q with
        | nil => exact hempty p.window ht hq
        | cons e q =>
          obtain ⟨l', hsome, -⟩ := hq.popBack_cons
          rw [hpop] at hsome
          cases hsome
      | some r =>
        obtain ⟨q', rfl, hq'⟩ := hq.popBack hpop
        have ht' : r.2.Tallied := by
          rw [LruList.popBack_eq_remove hpop]
          exact ht.remove hq r.1.1
        have hfuel' : q'.length ≤ fuel := Nat.le_of_succ_le_succ hfuel
        simp only
        split_ifs
        · exact ih (p := { p with
            window := r.2
            main := p.main.admitInternal r.1.1 r.1.2 }) hq' ht' hfuel' hempty
        · exact ih (p := { p with window := r.2 }) hq' ht' hfuel' hempty
    · exact UInt64.not_lt.mp hover

/-- No addition to a recorded cost wraps, and a key of the main lists is not admitted while the
window is over its target. -/
def Fits (p : TinyLfu K) (call : PolicyCall K) : Prop :=
  Along SegmentMove.Fits p.segments (p.moves call) ∧
    ∀ key cost, call = .onAdmit key cost →
      p.main.probationary.contains key = true ∨ p.main.protectedList.contains key = true →
        p.window.currentCost ≤ p.windowTargetCost

/-- An admission leaves the window within its target. -/
theorem window_le (h : p.segments.Apart) (ht : p.segments.Tallied) {key : K} {cost : UInt64}
    (hfits : p.Fits (.onAdmit key cost)) :
    (p.onAdmit key cost).2.window.currentCost ≤ p.windowTargetCost := by
  obtain ⟨hfit, hmain⟩ := hfits
  by_cases htouch : (p.main.touch key cost p.mainProtCapacity).1 = true
  · rw [onAdmit_of_touch htouch]
    exact hmain key cost rfl ((touch_fst h cost _).mp htouch)
  · rw [onAdmit_of_not_touch htouch]
    have hpush := traced_windowPush h htouch
    simp only [moves] at hfit
    rw [if_neg htouch, along_append] at hfit
    have hpushed := ht.follow h hpush.fresh hfit.1
    rw [hpush.follow] at hpushed
    have hstores := (hpush.apart h).stores .window
    exact windowLoop_le (p := { p.count key with window := p.window.pushFront key cost })
      hstores (hpushed .window) hstores.length_le

end TinyLfu

/-- No addition to a recorded cost wraps. -/
def Slru.Fits (s : Slru K) (call : PolicyCall K) : Prop :=
  Along SegmentMove.Fits s.segments (s.moves call)

/-! ### Runs -/

omit [DecidableEq K] in
/-- The states that calls in `C` lead to. -/
inductive CachePolicy.Reaches {π : Type*} [CachePolicy π K] (C : π → PolicyCall K → Prop) (p₀ : π) :
    π → Prop
  | start : Reaches C p₀ p₀
  | step {p} (call : PolicyCall K) : Reaches C p₀ p → C p call →
      Reaches C p₀ (CachePolicy.step p call)

namespace Segments

/-- No key is on two lists, and each list has recorded the sum of its members' costs. -/
structure Sound (S : Segments K) : Prop where
  apart : S.Apart
  tallied : S.Tallied

theorem sound_empty {S : Segments K} (h : ∀ a, S a = .new) : S.Sound := by
  have hstores : ∀ a, (S a).Stores [] := by
    intro a
    rw [h a]
    exact .new
  refine ⟨⟨fun a => (hstores a).self, ?_⟩, ?_⟩
  · intro a b key ha
    rw [(hstores a).contains_iff] at ha
    cases ha
  · intro a
    rw [h a]
    unfold LruList.Tallied
    rw [LruList.Stores.new.fromTail]
    rfl

theorem Sound.traced {S S' : Segments K} {ms : List (SegmentMove K)} (h : S.Sound)
    (hms : S.Traced ms S') (hfit : Along SegmentMove.Fits S ms) : S'.Sound := by
  refine ⟨hms.apart h.apart, ?_⟩
  rw [← hms.follow]
  exact h.tallied.follow h.apart hms.fresh hfit

/-- In every run of either policy in which no addition to a recorded cost wraps, and TinyLFU
admits no key of its main lists while its window is over the target: no key is on two lists, each
list has recorded the sum of its members' costs, a call makes its changes one by one and every key
that it pushes is on no list, and an admission leaves the window of TinyLFU within its target. -/
theorem discipline (capacity : UInt64) (sketchHasher : K → UInt64) :
    (∀ s : Slru K, CachePolicy.Reaches Slru.Fits (.new capacity) s →
      s.segments.Sound ∧
        ∀ call, s.segments.Traced (s.moves call) (CachePolicy.step s call).segments) ∧
    (∀ p : TinyLfu K,
      CachePolicy.Reaches TinyLfu.Fits (.withSketchHasher capacity sketchHasher) p →
      p.segments.Sound ∧
        (∀ call, p.segments.Traced (p.moves call) (CachePolicy.step p call).segments) ∧
        ∀ key cost, p.Fits (.onAdmit key cost) →
          (p.onAdmit key cost).2.window.currentCost ≤ p.windowTargetCost) := by
  constructor
  · intro s h
    have hsound : s.segments.Sound := by
      induction h with
      | start => exact sound_empty fun a => by cases a <;> rfl
      | step call _ hfit ih => exact ih.traced (Slru.traced ih.apart call) hfit
    exact ⟨hsound, Slru.traced hsound.apart⟩
  · intro p h
    have hsound : p.segments.Sound := by
      induction h with
      | start => exact sound_empty fun a => by cases a <;> rfl
      | step call _ hfit ih => exact ih.traced (TinyLfu.traced ih.apart call) hfit.1
    exact ⟨hsound, TinyLfu.traced hsound.apart,
      fun key cost => TinyLfu.window_le hsound.apart hsound.tallied⟩

theorem discipline_one :
    Sound (Slru.segments (CachePolicy.step (Slru.new 10 : Slru ℕ) (.onAdmit 0 4))) ∧
      Sound (TinyLfu.segments (CachePolicy.step
        (TinyLfu.withSketchHasher 10 fun _ => 0 : TinyLfu ℕ) (.onAdmit 0 4))) := by
  obtain ⟨hslru, htiny⟩ := discipline (K := ℕ) 10 fun _ => 0
  constructor
  · have hfits : Slru.Fits (.new 10) (.onAdmit 0 4) := by
      unfold Slru.Fits
      decide
    exact (hslru _ (.step _ .start hfits)).1
  · have hfits : TinyLfu.Fits (.withSketchHasher 10 fun _ => 0) (.onAdmit 0 4) := by
      refine ⟨by decide +kernel, ?_⟩
      rintro key cost - hin
      rcases hin with hin | hin <;> cases hin
    exact (htiny _ (.step _ .start hfits)).1

/-- Two keys of half the range wrap what their list has recorded. A use of a key on the window of
TinyLFU with a larger cost takes it over its target, and the admission of a key of the main lists
leaves it there. -/
theorem undisciplined :
    ¬ (∀ s : Slru ℕ, CachePolicy.Reaches (fun _ (_ : PolicyCall ℕ) => True) (.new 10) s →
        s.segments.Sound) ∧
      ¬ (∀ p : TinyLfu ℕ, CachePolicy.Reaches (fun _ (_ : PolicyCall ℕ) => True)
          (.withSketchHasher 10 fun _ => 0) p →
        ∀ key cost, (p.onAdmit key cost).2.window.currentCost ≤ p.windowTargetCost) := by
  constructor
  · intro h
    have hrun := h _ ((CachePolicy.Reaches.start.step (.onAdmit 0 0x8000000000000000) trivial).step
      (.onAdmit 1 0x8000000000000000) trivial)
    have htally := hrun.tallied .probation
    revert htally
    unfold LruList.Tallied
    decide
  · intro h
    have hle := h _ (((CachePolicy.Reaches.start.step (.onAdmit 0 1) trivial).step
      (.onAdmit 1 1) trivial).step (.onAccess 1 5) trivial) 0 1
    revert hle
    decide +kernel

end Segments

end Fibre.Cache
