import Fibre.Cache.LruList
import Fibre.Cache.Policy
import Fibre.Cache.Sketch
import Fibre.Cache.Targets

/-!
# W-TinyLFU on keys

The policy a factory makes: a window in one LRU list, and the probationary and the protected
segment of a segmented LRU, which the SLRU policy uses too, in two more.
-/

namespace Fibre.Cache

open CostQueue Word List Option

/-- The two segments of a segmented LRU. -/
structure SlruState (K : Type*) where
  probationary : LruList K
  protectedList : LruList K

namespace SlruState

variable {K : Type*}

def new : SlruState K := ⟨.new, .new⟩

/-- The nodes of the protected segment. -/
def protectedLen (s : SlruState K) : ℕ := s.protectedList.lookup.keys.length

variable [DecidableEq K]

/-- The demotion loop, for at most `fuel` turns. -/
def maintainLoop (protCapacity : UInt64) : ℕ → SlruState K → SlruState K
  | 0, s => s
  | fuel + 1, s =>
    if s.protectedList.currentCost > protCapacity then
      match s.protectedList.popBack with
      | none => s
      | some r => maintainLoop protCapacity fuel
          ⟨s.probationary.pushNew r.1.1 r.1.2, r.2⟩
    else
      s

/-- Demotes from the protected segment until it is within its capacity. -/
def maintainCapacities (s : SlruState K) (protCapacity : UInt64) : SlruState K :=
  maintainLoop protCapacity s.protectedLen s

omit [DecidableEq K] in
/-- The next victim. -/
def peekLru (s : SlruState K) : Option K :=
  match s.probationary.tail.bind s.probationary.nodes with
  | some node => some node.key
  | none => (s.protectedList.tail.bind s.protectedList.nodes).map (·.key)

/-- A key from outside enters the probationary segment. -/
def admitInternal (s : SlruState K) (key : K) (cost : UInt64) : SlruState K :=
  if s.protectedList.contains key then s
  else { s with probationary := s.probationary.pushFront key cost }

/-- Applies an access to `key` and returns whether it was in either segment. -/
def touch (s : SlruState K) (key : K) (cost protCapacity : UInt64) : Bool × SlruState K :=
  match s.protectedList.lookup.lookup key with
  | some i => (true, { s with protectedList := s.protectedList.touchIndex i cost })
  | none =>
    let r := s.probationary.remove key
    if r.1.isSome then
      (true, maintainCapacities ⟨r.2, s.protectedList.pushNew key cost⟩ protCapacity)
    else
      (false, s)

/-- Pops a list until `c` is freed, for at most `fuel` turns. Returns what is still to free, the
victims and the cost freed so far. -/
def evictList : ℕ → UInt64 → UInt64 → LruList K → (UInt64 × List K × UInt64) × LruList K
  | 0, c, freed, l => ((c, [], freed), l)
  | fuel + 1, c, freed, l =>
    if c > 0 then
      match l.popBack with
      | none => ((c, [], freed), l)
      | some r =>
        let q := evictList fuel (satSub c r.1.2) (freed + r.1.2) r.2
        ((q.1.1, r.1.1 :: q.1.2.1, q.1.2.2), q.2)
    else
      ((c, [], freed), l)

/-- Evicts from the probationary, then from the protected segment, until `costToFree` is
released. Returns the victims and the cost released. -/
def evictItems (s : SlruState K) (costToFree protCapacity : UInt64) :
    (List K × UInt64) × SlruState K :=
  let s := s.maintainCapacities protCapacity
  let p := evictList s.probationary.lookup.keys.length costToFree 0 s.probationary
  let q := evictList s.protectedLen p.1.1 p.1.2.2 s.protectedList
  ((p.1.2.1 ++ q.1.2.1, q.1.2.2), ⟨p.2, q.2⟩)

/-! ### The segments it stores -/

/-- The segments are `P` and `Q`, least recently used first. -/
structure Holds (s : SlruState K) (P Q : List (Tracked K K)) : Prop where
  probationary : s.probationary.Holds P
  protectedList : s.protectedList.Holds Q

namespace Holds

variable {s : SlruState K} {P Q : List (Tracked K K)} {key : K} {cost : UInt64}

theorem maintainLoop (h : s.Holds P Q) (hs : Tracked.Sound (P ++ Q)) (cap : UInt64) {fuel : ℕ}
    (hfuel : Q.length ≤ fuel) :
    (maintainLoop cap fuel s).Holds (P ++ (spill Tracked.cost cap Q).1)
      (spill Tracked.cost cap Q).2 := by
  induction fuel generalizing s P Q with
  | zero =>
    have hnil : Q = [] := length_eq_zero_iff.mp (Nat.le_zero.mp hfuel)
    subst hnil
    simpa [spill, SlruState.maintainLoop] using h
  | succ fuel ih =>
    have hcost := h.protectedList.currentCost
    unfold SlruState.maintainLoop
    split_ifs with hover
    · rw [hcost] at hover
      cases Q with
      | nil => simp at hover
      | cons e rest =>
        obtain ⟨l', hpop, hl'⟩ := h.protectedList.popBack_cons hs.right.cost_lt
        rw [hpop]
        simp only
        have hstep : SlruState.Holds ⟨s.probationary.pushNew e.name e.cost, l'⟩
            (P ++ [e]) rest := by
          refine ⟨?_, hl'⟩
          rw [← h.protectedList.eta (mem_cons_self)]
          exact h.probationary.pushNew (hs.not_mem_left (by simp)) e.cost
        -- the demoted entry is the newest of the probationary segment
        have hrest := ih hstep (by simpa using hs) (Nat.le_of_succ_le_succ hfuel)
        rw [spill, if_pos hover]
        simpa using hrest
    · rw [hcost] at hover
      rw [spill_of_le (by simpa using hover)]
      simpa using h

theorem maintainCapacities (h : s.Holds P Q) (hs : Tracked.Sound (P ++ Q)) (cap : UInt64) :
    (s.maintainCapacities cap).Holds (P ++ (spill Tracked.cost cap Q).1)
      (spill Tracked.cost cap Q).2 :=
  h.maintainLoop hs cap h.protectedList.length_le

theorem touch_protected (h : s.Holds P Q) (hs : Tracked.Sound (P ++ Q)) {e : Tracked K K}
    (he : e ∈ Q) (cap : UInt64) : (s.touch e.name e.cost cap).1 = true ∧
      (s.touch e.name e.cost cap).2.Holds P (Tracked.refresh e.name Q) := by
  have hsome := h.protectedList.lookup_isSome.mpr (mem_map_of_mem he)
  obtain ⟨i, hi⟩ := isSome_iff_exists.mp hsome
  have ht := h.protectedList.touchIndex hs.right.cost_lt hi e.cost
  rw [h.protectedList.eta he, ← Tracked.refresh_eq hs.right.nodup he] at ht
  simp only [touch, hi]
  exact ⟨trivial, h.probationary, ht⟩

theorem touch_probationary (h : s.Holds P Q) (hs : Tracked.Sound (P ++ Q)) {e : Tracked K K}
    (he : e ∈ P) (cap : UInt64) : (s.touch e.name e.cost cap).1 = true ∧
      (s.touch e.name e.cost cap).2.Holds
        (Tracked.without e.name P ++ (spill Tracked.cost cap (Q ++ Tracked.only e.name P)).1)
        (spill Tracked.cost cap (Q ++ Tracked.only e.name P)).2 := by
  have hnot : e.name ∉ Q.map (·.name) := fun hQ =>
    hs.not_mem_left hQ (mem_map_of_mem he)
  have hnone : s.protectedList.lookup.lookup e.name = none := by
    simpa using h.protectedList.lookup_isSome.not.mpr hnot
  obtain ⟨hcost, hrem⟩ := h.probationary.remove hs.left.cost_lt he
  have hpush := h.protectedList.pushNew hnot e.cost
  rw [h.probationary.eta he] at hpush
  have hone := Tracked.only_eq hs.left.nodup he
  simp only [touch, hnone, hcost, isSome_some, if_true]
  refine ⟨trivial, ?_⟩
  rw [hone]
  refine maintainCapacities ⟨hrem, hpush⟩ ?_ cap
  refine hs.of_perm ?_
  rw [← hone, ← append_assoc]
  calc (Tracked.without e.name P ++ Q ++ Tracked.only e.name P).Perm
        (Tracked.without e.name P ++ Tracked.only e.name P ++ Q) := by
        rw [append_assoc, append_assoc]
        exact perm_append_comm.append_left _
    Perm _ (P ++ Q) := (Tracked.without_append_only_perm e.name P).append_right Q

theorem touch_none (h : s.Holds P Q) (hk : key ∉ (P ++ Q).map (·.name)) (cost cap : UInt64) :
    s.touch key cost cap = (false, s) := by
  simp only [map_append, mem_append, not_or] at hk
  have hnone : s.protectedList.lookup.lookup key = none := by
    simpa using h.protectedList.lookup_isSome.not.mpr hk.2
  simp [touch, hnone, h.probationary.remove_none hk.1]

theorem peekLru (h : s.Holds P Q) : s.peekLru = (P.head?.or Q.head?).map (·.name) := by
  have hP := h.probationary.tail_key
  have hQ := h.protectedList.tail_key
  unfold SlruState.peekLru
  cases hn : s.probationary.tail.bind s.probationary.nodes with
  | some node =>
    rw [hn] at hP
    cases hhead : P.head? with
    | none => simp [hhead] at hP
    | some e => simpa [hhead] using hP
  | none =>
    rw [hn] at hP
    cases hhead : P.head? with
    | none => simpa [hhead] using hQ
    | some e => simp [hhead] at hP

theorem admitInternal (h : s.Holds P Q) {e : Tracked K K} (he : e.tag = e.name)
    (hk : e.name ∉ (P ++ Q).map (·.name)) :
    (s.admitInternal e.name e.cost).Holds (P ++ [e]) Q := by
  simp only [map_append, mem_append, not_or] at hk
  have hnone : s.probationary.lookup.lookup e.name = none := by
    simpa using h.probationary.lookup_isSome.not.mpr hk.1
  have hout : ¬ s.protectedList.contains e.name := h.protectedList.contains_iff.not.mpr hk.2
  have hpush := h.probationary.pushNew hk.1 e.cost
  have heta : (⟨e.name, e.name, e.cost⟩ : Tracked K K) = e := by
    cases e
    simp_all
  rw [heta] at hpush
  simp only [SlruState.admitInternal, hout, LruList.pushFront, hnone]
  exact ⟨hpush, h.protectedList⟩

omit s P Q in
/-- Popping a list is taking from its front until enough is freed. -/
theorem evictList {l : LruList K} {L : List (Tracked K K)} (h : l.Holds L)
    (hlt : totalNat Tracked.cost L < 2 ^ 64) {fuel : ℕ} (hfuel : L.length ≤ fuel)
    (c freed : UInt64) :
    (evictList fuel c freed l).1.1 = (popUntil Tracked.cost c L).1 ∧
      (evictList fuel c freed l).1.2.1 = (popUntil Tracked.cost c L).2.1.map (·.name) ∧
      (evictList fuel c freed l).2.Holds (popUntil Tracked.cost c L).2.2 := by
  induction fuel generalizing c freed l L with
  | zero =>
    have hnil : L = [] := length_eq_zero_iff.mp (Nat.le_zero.mp hfuel)
    subst hnil
    exact ⟨rfl, rfl, h⟩
  | succ fuel ih =>
    unfold SlruState.evictList
    cases L with
    | nil =>
      split_ifs
      · rw [h.popBack_nil]
        exact ⟨rfl, rfl, h⟩
      · exact ⟨rfl, rfl, h⟩
    | cons e rest =>
      by_cases hc : 0 < c
      · obtain ⟨l', hpop, hl'⟩ := h.popBack_cons hlt
        obtain ⟨hleft, hnames, hrest⟩ := ih hl' (by rw [totalNat_cons] at hlt; omega)
          (Nat.le_of_succ_le_succ hfuel) (satSub c e.cost) (freed + e.cost)
        rw [popUntil, if_pos hc, if_pos hc, hpop]
        exact ⟨hleft, by simpa using hnames, hrest⟩
      · rw [popUntil, if_neg hc, if_neg hc]
        exact ⟨rfl, rfl, h⟩

theorem evictItems (h : s.Holds P Q) (hs : Tracked.Sound (P ++ Q)) {cap : UInt64}
    (hcap : total Tracked.cost Q ≤ cap) (c : UInt64) :
    (s.evictItems c cap).1.1 = ((popUntil Tracked.cost c P).2.1 ++
        (popUntil Tracked.cost (popUntil Tracked.cost c P).1 Q).2.1).map (·.name) ∧
      (s.evictItems c cap).2.Holds (popUntil Tracked.cost c P).2.2
        (popUntil Tracked.cost (popUntil Tracked.cost c P).1 Q).2.2 := by
  have hm := h.maintainCapacities hs cap
  rw [spill_of_le hcap, append_nil] at hm
  obtain ⟨hleft, hnames, hP⟩ := evictList hm.probationary hs.left.cost_lt hm.probationary.length_le c 0
  obtain ⟨-, hnames', hQ⟩ := evictList hm.protectedList hs.right.cost_lt hm.protectedList.length_le
    (SlruState.evictList (s.maintainCapacities cap).probationary.lookup.keys.length c 0
      (s.maintainCapacities cap).probationary).1.1
    (SlruState.evictList (s.maintainCapacities cap).probationary.lookup.keys.length c 0
      (s.maintainCapacities cap).probationary).1.2.2
  rw [hleft] at hnames' hQ
  refine ⟨?_, ?_, ?_⟩
  · rw [map_append, ← hnames, ← hnames', ← hleft]
    rfl
  · exact hP
  · rw [← hleft] at hQ ⊢
    exact hQ

end Holds

end SlruState

/-- W-TinyLFU on keys. -/
structure TinyLfu (K : Type*) where
  window : LruList K
  main : SlruState K
  sketch : CountMinSketch K
  windowTargetCost : UInt64
  mainCacheCost : UInt64
  mainProtCapacity : UInt64

namespace TinyLfu

variable {K : Type*}

/-- An empty policy for `capacity` cost units, its sketch hashing keys with `sketchHasher`. -/
def withSketchHasher (capacity : UInt64) (sketchHasher : K → UInt64) : TinyLfu K where
  window := .new
  main := .new
  sketch := .new (max (capacity * 10) 100) sketchHasher
  windowTargetCost := windowTarget capacity
  mainCacheCost := satSub capacity (windowTarget capacity)
  mainProtCapacity := protCapacity (satSub capacity (windowTarget capacity))

/-- Forgets everything. -/
def clear (p : TinyLfu K) : TinyLfu K :=
  { p with
    window := p.window.clear
    main := ⟨p.main.probationary.clear, p.main.protectedList.clear⟩
    sketch := p.sketch.clear }

/-- Counts a use of `key`. -/
def count (p : TinyLfu K) (key : K) : TinyLfu K := { p with sketch := p.sketch.increment key }

variable [DecidableEq K]

/-- A read of `key`, counted whether it is tracked or not. -/
def onAccess (p : TinyLfu K) (key : K) (cost : UInt64) : TinyLfu K :=
  let p := p.count key
  match p.window.lookup.lookup key with
  | some i => { p with window := p.window.touchIndex i cost }
  | none => { p with main := (p.main.touch key cost p.mainProtCapacity).2 }

omit [DecidableEq K] in
/-- Whether a candidate may enter the main segments: they have room, or it is used at least as
often as their next victim. -/
def admits (p : TinyLfu K) (key : K) (cost : UInt64) : Bool :=
  let mainCost := p.main.probationary.currentCost + p.main.protectedList.currentCost
  mainCost + cost ≤ p.mainCacheCost ||
    match p.main.peekLru with
    | none => true
    | some victim => p.sketch.estimate key ≥ p.sketch.estimate victim

/-- The window's overflow loop, for at most `fuel` turns. Returns the rejected candidates. -/
def windowLoop : ℕ → TinyLfu K → List K × TinyLfu K
  | 0, p => ([], p)
  | fuel + 1, p =>
    if p.window.currentCost > p.windowTargetCost then
      match p.window.popBack with
      | none => ([], p)
      | some r =>
        let p := { p with window := r.2 }
        if p.admits r.1.1 r.1.2 then
          windowLoop fuel { p with main := p.main.admitInternal r.1.1 r.1.2 }
        else
          let q := windowLoop fuel p
          (r.1.1 :: q.1, q.2)
    else
      ([], p)

/-- A key of the main segments is used; any other enters the window, which is then brought
within its target. -/
def onAdmit (p : TinyLfu K) (key : K) (cost : UInt64) : AdmissionDecision K × TinyLfu K :=
  let p := p.count key
  let t := p.main.touch key cost p.mainProtCapacity
  if t.1 then (.admitted, { p with main := t.2 })
  else
    let window := p.window.pushFront key cost
    let r := windowLoop window.lookup.keys.length { p with window := window }
    (if r.1 = [] then .admitted else .admitAndEvict r.1, r.2)

/-- Forgets `key`. -/
def onRemove (p : TinyLfu K) (key : K) : TinyLfu K :=
  let w := p.window.remove key
  if w.1.isSome then { p with window := w.2 }
  else
    let b := p.main.probationary.remove key
    if b.1.isSome then { p with main := { p.main with probationary := b.2 } }
    else { p with main := { p.main with protectedList := (p.main.protectedList.remove key).2 } }

/-- Evicts until `costToFree` is released or the main segments are empty. -/
def evict (p : TinyLfu K) (costToFree : UInt64) : (List K × UInt64) × TinyLfu K :=
  if costToFree = 0 then (([], 0), p)
  else
    let r := p.main.evictItems costToFree p.mainProtCapacity
    (r.1, { p with main := r.2 })

instance : CachePolicy (TinyLfu K) K where
  onAccess := onAccess
  onAdmit := onAdmit
  onRemove := onRemove
  evict := evict
  clear := clear

/-! ### The segments it stores -/

/-- The policy stores the segments of `A`, entries named and tagged by key, the protected one
within its capacity, and the true costs add up to less than `2 ^ 64`. -/
structure Refines (p : TinyLfu K) (A : TinyQueue K K (CountMinSketch K)) : Prop where
  window : p.window.Holds A.window
  main : p.main.Holds A.probation A.protectedSeg
  sound : Tracked.Sound A.entries
  protected_le : total Tracked.cost A.protectedSeg ≤ A.protCapacity
  sketch : p.sketch = A.sketch
  windowTarget : p.windowTargetCost = A.windowTarget
  mainCapacity : p.mainCacheCost = A.mainCapacity
  protCapacity : p.mainProtCapacity = A.protCapacity

omit [DecidableEq K] in
/-- The segments of an empty policy. -/
def emptyQueue (capacity : UInt64) (sketchHasher : K → UInt64) :
    TinyQueue K K (CountMinSketch K) where
  window := []
  probation := []
  protectedSeg := []
  sketch := .new (max (capacity * 10) 100) sketchHasher
  windowTarget := windowTarget capacity
  mainCapacity := satSub capacity (windowTarget capacity)
  protCapacity := protCapacity (satSub capacity (windowTarget capacity))

theorem refines_new (capacity : UInt64) (sketchHasher : K → UInt64) :
    (withSketchHasher capacity sketchHasher).Refines (emptyQueue capacity sketchHasher) where
  window := LruList.holds_new
  main := ⟨LruList.holds_new, LruList.holds_new⟩
  sound := ⟨nodup_nil, Nat.two_pow_pos 64⟩
  protected_le := by simp [emptyQueue]
  sketch := rfl
  windowTarget := rfl
  mainCapacity := rfl
  protCapacity := rfl

namespace Refines

variable {p : TinyLfu K} {A : TinyQueue K K (CountMinSketch K)} {key : K}

theorem clear (h : p.Refines A) : p.clear.Refines { A with
    window := [], probation := [], protectedSeg := [], sketch := A.sketch.clear } where
  window := LruList.holds_clear _
  main := ⟨LruList.holds_clear _, LruList.holds_clear _⟩
  sound := ⟨nodup_nil, Nat.two_pow_pos 64⟩
  protected_le := by simp
  sketch := by simp [TinyLfu.clear, h.sketch]
  windowTarget := h.windowTarget
  mainCapacity := h.mainCapacity
  protCapacity := h.protCapacity

theorem count (h : p.Refines A) (key : K) : (p.count key).Refines (A.count key) :=
  { h with sketch := by simp [TinyLfu.count, TinyQueue.count, h.sketch, FrequencySketch.increment] }

theorem sound_window (h : p.Refines A) : Tracked.Sound A.window := by
  have hs := h.sound
  rw [TinyQueue.entries, append_assoc] at hs
  exact hs.left

theorem sound_main (h : p.Refines A) : Tracked.Sound (A.probation ++ A.protectedSeg) := by
  have hs := h.sound
  rw [TinyQueue.entries, append_assoc] at hs
  exact hs.right

theorem mem_cases (h : p.Refines A) {e : Tracked K K} (he : e ∈ A.entries) :
    (e ∈ A.window ∧ e.name ∉ (A.probation ++ A.protectedSeg).map (·.name)) ∨
      (e ∈ A.probation ∧ e.name ∉ A.window.map (·.name)) ∨
      (e ∈ A.protectedSeg ∧ e.name ∉ A.window.map (·.name) ∧
        e.name ∉ A.probation.map (·.name)) := by
  have hs := h.sound
  rw [TinyQueue.entries, append_assoc] at hs
  rw [TinyQueue.entries, append_assoc, mem_append, mem_append] at he
  rcases he with he | he | he
  · exact .inl ⟨he, fun hm => hs.not_mem_left hm (mem_map_of_mem he)⟩
  · refine .inr (.inl ⟨he, hs.not_mem_left ?_⟩)
    exact mem_map_of_mem (mem_append_left _ he)
  · refine .inr (.inr ⟨he, hs.not_mem_left ?_, hs.right.not_mem_left (mem_map_of_mem he)⟩)
    exact mem_map_of_mem (mem_append_right _ he)

theorem touch_window (h : p.Refines A) {e : Tracked K K} (he : e ∈ A.window) {i : ℕ}
    (hi : p.window.lookup.lookup e.name = some i) :
    Refines { p with window := p.window.touchIndex i e.cost } (A.touch e.name) := by
  have hw := h.window.touchIndex h.sound_window.cost_lt hi e.cost
  rw [h.window.eta he, ← Tracked.refresh_eq h.sound_window.nodup he] at hw
  have hs := h.sound.of_perm (A.touch_perm e.name)
  have htouch : A.touch e.name = { A with window := Tracked.refresh e.name A.window } := by
    rw [TinyQueue.touch, if_pos (mem_map_of_mem he)]
  rw [htouch] at hs ⊢
  exact { h with window := hw, sound := hs }

theorem touch_main (h : p.Refines A) {e : Tracked K K} (he : e ∈ A.entries)
    (hw : e.name ∉ A.window.map (·.name)) :
    (p.main.touch e.name e.cost p.mainProtCapacity).1 = true ∧
      Refines { p with main := (p.main.touch e.name e.cost p.mainProtCapacity).2 }
        (A.touch e.name) := by
  have hs := h.sound.of_perm (A.touch_perm e.name)
  rcases h.mem_cases he with ⟨he, -⟩ | ⟨he, -⟩ | ⟨he, -, hp⟩
  · exact absurd (mem_map_of_mem he) hw
  · obtain ⟨htrue, hmain⟩ := h.main.touch_probationary h.sound_main he p.mainProtCapacity
    rw [TinyQueue.touch, if_neg hw, if_pos (mem_map_of_mem he)] at hs ⊢
    refine ⟨htrue, { h with main := ?_, sound := hs, protected_le := ?_ }⟩
    · rw [h.protCapacity] at hmain ⊢
      exact hmain
    · exact TinyQueue.protectedSeg_maintain_le _
  · obtain ⟨htrue, hmain⟩ := h.main.touch_protected h.sound_main he p.mainProtCapacity
    rw [TinyQueue.touch, if_neg hw, if_neg hp] at hs ⊢
    refine ⟨htrue, { h with main := hmain, sound := hs, protected_le := ?_ }⟩
    rw [total_perm _ (Tracked.refresh_perm e.name A.protectedSeg)]
    exact h.protected_le

theorem onAccess (h : p.Refines A) {e : Tracked K K} (he : e ∈ A.entries) :
    (p.onAccess e.name e.cost).Refines ((A.count e.name).touch e.name) := by
  have hc := h.count e.name
  unfold TinyLfu.onAccess
  simp only
  cases hi : (p.count e.name).window.lookup.lookup e.name with
  | some i =>
    have hw : e.name ∈ A.window.map (·.name) := by
      refine hc.window.lookup_isSome.mp ?_
      rw [hi]
      rfl
    -- names are distinct, so the window's entry is the one meant
    obtain ⟨e', he', hname⟩ := mem_map.mp hw
    have hee : e' = e := inj_on_of_nodup_map h.sound.nodup
      (by simp [TinyQueue.entries, he']) he hname
    subst hee
    exact hc.touch_window he' hi
  | none =>
    have hw : e.name ∉ A.window.map (·.name) := by
      refine hc.window.lookup_isSome.not.mp ?_
      rw [hi]
      simp
    exact (hc.touch_main he hw).2

theorem admits (h : p.Refines A) {e : Tracked K K} (he : e.tag = e.name) :
    p.admits e.name e.cost = A.admits e := by
  unfold TinyLfu.admits TinyQueue.admits
  simp only [h.main.peekLru, h.main.probationary.currentCost, h.main.protectedList.currentCost,
    h.mainCapacity, TinyQueue.mainCost]
  congr 1
  cases hv : A.probation.head?.or A.protectedSeg.head? with
  | none => rfl
  | some v =>
    have htag : v.tag = v.name := by
      rcases or_eq_some_iff.mp hv with hv | ⟨-, hv⟩
      · exact h.main.probationary.tag (mem_of_mem_head? hv)
      · exact h.main.protectedList.tag (mem_of_mem_head? hv)
    simp only [map_some, h.sketch, he, htag]
    rfl

theorem windowLoop (h : p.Refines A) {fuel : ℕ} (hfuel : A.window.length ≤ fuel) :
    (windowLoop fuel p).1 = (A.settle A.window).1.map (·.name) ∧
      (windowLoop fuel p).2.Refines (A.settle A.window).2 := by
  induction fuel generalizing p A with
  | zero =>
    have hnil : A.window = [] := length_eq_zero_iff.mp (Nat.le_zero.mp hfuel)
    rw [TinyQueue.settle_of_le (by simp [hnil])]
    exact ⟨rfl, h⟩
  | succ fuel ih =>
    have hcost := h.window.currentCost
    unfold TinyLfu.windowLoop
    split_ifs with hover
    · rw [hcost, h.windowTarget] at hover
      cases hwin : A.window with
      | nil => simp [hwin] at hover
      | cons e rest =>
        have hw := h.window
        have hsw := h.sound_window
        rw [hwin] at hw hsw hover hfuel
        obtain ⟨l', hpop, hl'⟩ := hw.popBack_cons hsw.cost_lt
        have htag := hw.tag (mem_cons_self)
        have hsound : Tracked.Sound (e :: rest ++ A.probation ++ A.protectedSeg) := by
          rw [← hwin]
          exact h.sound
        -- the candidate is out of the window
        have hout : Refines { p with window := l' } { A with window := rest } :=
          { h with window := hl', sound := hsound.of_subperm (sublist_cons_self _ _).subperm }
        have hadm : TinyLfu.admits { p with window := l' } e.name e.cost = A.admits e :=
          hout.admits htag
        have hlen : rest.length ≤ fuel := Nat.le_of_succ_le_succ hfuel
        rw [hpop]
        simp only [hadm]
        split_ifs with hin
        · rw [TinyQueue.settle_cons_admits hover hin]
          refine ih (A := { A with window := rest, probation := A.probation ++ [e] }) ?_ hlen
          have hnot : e.name ∉ (A.probation ++ A.protectedSeg).map (·.name) := by
            intro hmem
            rw [append_assoc] at hsound
            exact hsound.not_mem_left hmem (by simp)
          refine { hout with main := h.main.admitInternal htag hnot, sound := hsound.of_perm ?_ }
          have hmid : (rest ++ A.probation ++ e :: A.protectedSeg).Perm
            (e :: (rest ++ A.probation ++ A.protectedSeg)) := perm_middle
          simpa [TinyQueue.entries] using hmid
        · obtain ⟨hnames, href⟩ := ih hout hlen
          rw [TinyQueue.settle_cons_reject hover hin]
          exact ⟨by simpa using hnames, href⟩
    · rw [hcost, h.windowTarget] at hover
      rw [TinyQueue.settle_of_le (by simpa using hover)]
      exact ⟨rfl, h⟩

/-- A new key enters the window; the rejected candidates are those on plain lists. -/
theorem onAdmit_fresh (h : p.Refines A) (hk : key ∉ A.entries.map (·.name)) {cost : UInt64}
    (hlt : totalNat Tracked.cost A.entries + cost.toNat < 2 ^ 64) :
    (p.onAdmit key cost).1 = (if (A.admitEntry key key cost).1 = [] then .admitted
        else .admitAndEvict ((A.admitEntry key key cost).1.map (·.name))) ∧
      (p.onAdmit key cost).2.Refines (A.admitEntry key key cost).2 := by
  have hc := h.count key
  have hkw : key ∉ A.window.map (·.name) := by
    intro hmem
    exact hk (by simp [TinyQueue.entries, map_append, hmem])
  have hkm : key ∉ (A.probation ++ A.protectedSeg).map (·.name) := by
    intro hmem
    rw [TinyQueue.entries, append_assoc, map_append, mem_append, not_or] at hk
    exact hk.2 hmem
  have hnone : (p.count key).window.lookup.lookup key = none := by
    simpa using hc.window.lookup_isSome.not.mpr hkw
  have htouch := hc.main.touch_none hkm cost (p.count key).mainProtCapacity
  -- the policy with the new key in its window
  have hin : Refines { p.count key with window := p.window.pushNew key cost }
      { A.count key with window := A.window ++ [⟨key, key, cost⟩] } := by
    refine { hc with window := h.window.pushNew hkw cost, sound := ?_ }
    have hperm : (A.window ++ (⟨key, key, cost⟩ : Tracked K K) ::
        (A.probation ++ A.protectedSeg)).Perm (⟨key, key, cost⟩ :: A.entries) := by
      rw [TinyQueue.entries, append_assoc]
      exact perm_middle
    have hcons : Tracked.Sound ((⟨key, key, cost⟩ : Tracked K K) :: A.entries) := by
      refine ⟨nodup_cons.mpr ⟨hk, h.sound.nodup⟩, ?_⟩
      rw [totalNat_cons, Nat.add_comm]
      exact hlt
    simpa [TinyQueue.entries, TinyQueue.count] using hcons.of_perm hperm
  have hloop := hin.windowLoop hin.window.length_le
  have hpush : (p.count key).window.pushFront key cost = p.window.pushNew key cost := by
    rw [LruList.pushFront, hnone]
    rfl
  have hsettle : TinyQueue.settle { A.count key with window := A.window ++ [⟨key, key, cost⟩] }
      (A.window ++ [⟨key, key, cost⟩]) = A.admitEntry key key cost :=
    TinyQueue.settle_window _ _ _
  rw [hsettle] at hloop
  unfold TinyLfu.onAdmit
  simp only [htouch, hpush, Bool.false_eq_true, if_false, hloop.1, map_eq_nil_iff]
  exact ⟨trivial, hloop.2⟩

/-- A tracked key is admitted again at its cost, the window within its target: a use of it. -/
theorem onAdmit_resident (h : p.Refines A) {e : Tracked K K} (he : e ∈ A.entries)
    (hle : total Tracked.cost A.window ≤ A.windowTarget) :
    (p.onAdmit e.name e.cost).1 = .admitted ∧
      (p.onAdmit e.name e.cost).2.Refines ((A.count e.name).touch e.name) := by
  have hc := h.count e.name
  unfold TinyLfu.onAdmit
  by_cases hw : e.name ∈ A.window.map (·.name)
  · obtain ⟨e', he', hname⟩ := mem_map.mp hw
    obtain rfl : e' = e := inj_on_of_nodup_map h.sound.nodup
      (by simp [TinyQueue.entries, he']) he hname
    have hnot : e'.name ∉ (A.probation ++ A.protectedSeg).map (·.name) := by
      intro hmem
      have hs := h.sound
      rw [TinyQueue.entries, append_assoc] at hs
      exact hs.not_mem_left hmem hw
    have htouch := hc.main.touch_none hnot e'.cost (p.count e'.name).mainProtCapacity
    obtain ⟨i, hi⟩ := isSome_iff_exists.mp (hc.window.lookup_isSome.mpr hw)
    have hpush : (p.count e'.name).window.pushFront e'.name e'.cost =
        (p.count e'.name).window.touchIndex i e'.cost := by
      rw [LruList.pushFront, hi]
    have hr := hc.touch_window he' hi
    -- a use does not change the window's cost, so nothing leaves it
    have hfits : total Tracked.cost ((A.count e'.name).touch e'.name).window ≤
        ((A.count e'.name).touch e'.name).windowTarget := by
      rw [total_perm _ (TinyQueue.touch_window_perm _ _), TinyQueue.touch_windowTarget]
      exact hle
    obtain ⟨hnames, href⟩ := hr.windowLoop hr.window.length_le
    rw [TinyQueue.settle_of_le hfits] at hnames href
    simp only [htouch, hpush, Bool.false_eq_true, if_false, hnames, map_nil, if_true]
    exact ⟨trivial, href⟩
  · obtain ⟨htrue, hr⟩ := hc.touch_main he hw
    simp only [htrue, if_true]
    exact ⟨trivial, hr⟩

theorem onRemove (h : p.Refines A) (key : K) : (p.onRemove key).Refines (A.remove key) := by
  have hsound : Tracked.Sound (A.remove key).entries := by
    rw [TinyQueue.remove_entries]
    exact h.sound.of_subperm filter_sublist.subperm
  have hs := h.sound
  rw [TinyQueue.entries, append_assoc] at hs
  obtain ⟨hwin, hw⟩ := h.window.remove_any h.sound_window.cost_lt key
  obtain ⟨hprob, hp⟩ := h.main.probationary.remove_any h.sound_main.left.cost_lt key
  obtain ⟨-, hq⟩ := h.main.protectedList.remove_any h.sound_main.right.cost_lt key
  -- no segment grows, and a key is in at most one
  have hprot : total Tracked.cost (Tracked.without key A.protectedSeg) ≤ A.protCapacity := by
    refine UInt64.le_trans ?_ h.protected_le
    exact total_le_of_sublist h.sound_main.right.cost_lt filter_sublist
  unfold TinyLfu.onRemove
  by_cases hkw : key ∈ A.window.map (·.name)
  · have hnot : key ∉ (A.probation ++ A.protectedSeg).map (·.name) :=
      fun hmem => hs.not_mem_left hmem hkw
    simp only [map_append, mem_append, not_or] at hnot
    simp only [hwin.mpr hkw, if_true]
    refine { h with window := hw, main := ⟨?_, ?_⟩, sound := hsound, protected_le := hprot }
    · rw [TinyQueue.remove, Tracked.without_of_not_mem hnot.1]
      exact h.main.probationary
    · rw [TinyQueue.remove, Tracked.without_of_not_mem hnot.2]
      exact h.main.protectedList
  · have hout : ¬ (p.window.remove key).1.isSome := hwin.not.mpr hkw
    simp only [hout]
    by_cases hkp : key ∈ A.probation.map (·.name)
    · have hnot : key ∉ A.protectedSeg.map (·.name) := fun hmem => hs.right.not_mem_left hmem hkp
      simp only [hprob.mpr hkp, if_true]
      refine { h with window := ?_, main := ⟨hp, ?_⟩, sound := hsound, protected_le := hprot }
      · rw [TinyQueue.remove, Tracked.without_of_not_mem hkw]
        exact h.window
      · rw [TinyQueue.remove, Tracked.without_of_not_mem hnot]
        exact h.main.protectedList
    · have hout' : ¬ (p.main.probationary.remove key).1.isSome := hprob.not.mpr hkp
      simp only [hout']
      refine { h with window := ?_, main := ⟨?_, hq⟩, sound := hsound, protected_le := hprot }
      · rw [TinyQueue.remove, Tracked.without_of_not_mem hkw]
        exact h.window
      · rw [TinyQueue.remove, Tracked.without_of_not_mem hkp]
        exact h.main.probationary

theorem evict (h : p.Refines A) (c : UInt64) :
    (p.evict c).1.1 = (A.evict c).1.map (·.name) ∧ (p.evict c).2.Refines (A.evict c).2 := by
  have hsound : Tracked.Sound (A.evict c).2.entries :=
    h.sound.of_subperm ((sublist_append_right _ _).subperm.trans (A.evict_perm c).symm.subperm)
  have hmaintain := TinyQueue.maintain_of_le h.protected_le
  unfold TinyLfu.evict
  split_ifs with hc
  · have hevict : A.evict 0 = ([], A) := by
      rw [TinyQueue.evict, hmaintain]
      simp [popUntil_zero]
    rw [hc, hevict]
    exact ⟨rfl, h⟩
  · obtain ⟨hnames, hmain⟩ := h.main.evictItems h.sound_main h.protected_le c
    rw [← h.protCapacity] at hnames hmain
    rw [TinyQueue.evict, hmaintain] at hsound ⊢
    refine ⟨hnames, { h with main := hmain, sound := hsound, protected_le := ?_ }⟩
    refine UInt64.le_trans ?_ h.protected_le
    exact total_le_of_sublist h.sound_main.right.cost_lt (popUntil_sublist _ _ _)

end Refines

end TinyLfu

end Fibre.Cache
