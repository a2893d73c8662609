import Fibre.Cache.QueuedPolicy

/-!
# The SIEVE policy

The keys in the order of their admission, and a hand that goes from the oldest to the newest. It
passes over a key that was used, and takes one that was not. When it has passed them all, the
oldest key goes, whether it was used since or not, and the hand starts again.
-/

namespace Fibre.Cache

open CostQueue Word List Function

/-- What the policy knows of a key. -/
structure SieveEntry where
  cost : UInt64
  visited : Bool
  deriving DecidableEq

/-- The tracked keys, newest first, with their entries, and the hand, counted from the oldest
key. -/
structure Sieve (K : Type*) where
  order : List K
  items : K → Option SieveEntry
  hand : ℕ

namespace Sieve

variable {K : Type*} [DecidableEq K]

/-- An empty policy. -/
def new : Sieve K := ⟨[], fun _ => none, 0⟩

def onAccess (s : Sieve K) (key : K) : Sieve K :=
  match s.items key with
  | none => s
  | some e => { s with items := Function.update s.items key (some { e with visited := true }) }

/-- A key goes to the front with the cost given, from where it is if it is tracked. -/
def onAdmit (s : Sieve K) (key : K) (cost : UInt64) : Sieve K :=
  let order := if (s.items key).isSome then s.order.filter (· ≠ key) else s.order
  { s with
    items := Function.update s.items key (some ⟨cost, false⟩)
    order := key :: order }

def onRemove (s : Sieve K) (key : K) : Sieve K :=
  let order := s.order.filter (· ≠ key)
  { items := Function.update s.items key none
    order := order
    hand := if order.length ≤ s.hand then 0 else s.hand }

/-- The hand goes on until it takes a key or has passed the newest one, for at most `turns`
keys. -/
def sweep : ℕ → Sieve K → Option (K × UInt64) × Sieve K
  | 0, s => (none, s)
  | turns + 1, s =>
    if s.hand < s.order.length then
      let index := s.order.length - 1 - s.hand
      match s.order[index]? with
      -- not reached: the index is within the list
      | none => (none, s)
      | some key =>
        match s.items key with
        -- not reached: a key of the list is tracked
        | none => (none, s)
        | some e =>
          if !e.visited then
            (some (key, e.cost),
              { s with
                order := s.order.eraseIdx index
                items := Function.update s.items key none })
          else
            sweep turns
              { s with
                items := Function.update s.items key (some { e with visited := false })
                hand := s.hand + 1 }
    else (none, s)

def takeOldest (s : Sieve K) : Option (K × UInt64) × Sieve K :=
  match s.order[s.order.length - 1]? with
  | none => (none, s)
  | some key =>
    match s.items key with
    -- not reached: a key of the list is tracked
    | none => (none, s)
    | some e =>
      (some (key, e.cost),
        { order := s.order.eraseIdx (s.order.length - 1)
          items := Function.update s.items key none
          hand := 0 })

/-- One turn of the eviction loop: a sweep, and the oldest key if the sweep took none. -/
def evictTurn (turns : ℕ) (s : Sieve K) : Option (K × UInt64) × Sieve K :=
  match s.sweep turns with
  | (some e, s) => (some e, s)
  | (none, s) => takeOldest { s with hand := 0 }

/-- The eviction loop, for at most `fuel` turns, and for `fuel` keys in each sweep. -/
def evictLoop (fuel : ℕ) (costToFree : UInt64) (s : Sieve K) : (List K × UInt64) × Sieve K :=
  payLoop order (evictTurn fuel) fuel costToFree 0 s

/-- Evicts until `costToFree` is released or nothing is left. Returns the victims and the cost
released. -/
def evict (s : Sieve K) (costToFree : UInt64) : (List K × UInt64) × Sieve K :=
  evictLoop s.order.length costToFree s

/-- Forgets everything. -/
def clear (_ : Sieve K) : Sieve K := new

instance : CachePolicy (Sieve K) K where
  onAccess s key _ := s.onAccess key
  onAdmit s key cost := (.admitted, s.onAdmit key cost)
  onRemove := onRemove
  evict := evict
  clear := clear

/-! ### What holds of every state -/

/-- The keys of the list are those that are tracked, each once. -/
structure Tidy (s : Sieve K) : Prop where
  nodup : s.order.Nodup
  mem_iff : ∀ k, k ∈ s.order ↔ (s.items k).isSome = true

variable {s : Sieve K} {key k : K} {cost : UInt64}

namespace Tidy

omit [DecidableEq K] in
theorem new : Tidy (new : Sieve K) := ⟨nodup_nil, fun k => by simp [Sieve.new]⟩

theorem update (h : s.Tidy) (hk : (s.items key).isSome = true) (e : SieveEntry) (hand : ℕ) :
    Tidy ⟨s.order, Function.update s.items key (some e), hand⟩ := by
  refine ⟨h.nodup, fun k => ?_⟩
  rw [h.mem_iff k]
  rcases eq_or_ne k key with rfl | hne
  · simpa using hk
  · simp [update_of_ne hne]

theorem onAccess (h : s.Tidy) (key : K) : (s.onAccess key).Tidy := by
  unfold Sieve.onAccess
  split
  · exact h
  · next e he => exact h.update (by rw [he]; rfl) _ s.hand

theorem onAdmit_order (h : s.Tidy) (key : K) (cost : UInt64) :
    (s.onAdmit key cost).order = key :: s.order.filter (· ≠ key) := by
  have horder : (if (s.items key).isSome then s.order.filter (· ≠ key) else s.order) =
      s.order.filter (· ≠ key) := by
    split_ifs with hsome
    · rfl
    · symm
      apply filter_eq_self.mpr
      intro k hk
      have hne : k ≠ key := by
        rintro rfl
        exact hsome ((h.mem_iff k).mp hk)
      simpa using hne
  rw [Sieve.onAdmit, horder]

theorem onAdmit (h : s.Tidy) (key : K) (cost : UInt64) : (s.onAdmit key cost).Tidy := by
  have horder := h.onAdmit_order key cost
  constructor
  · rw [horder]
    exact nodup_cons.mpr ⟨by simp, h.nodup.filter _⟩
  · intro k
    have hk := h.mem_iff k
    rw [horder, Sieve.onAdmit]
    rcases eq_or_ne k key with rfl | hne
    · simp
    · simpa [update_of_ne hne, hne] using hk

theorem erase (h : s.Tidy) (key : K) (hand : ℕ) :
    Tidy ⟨s.order.filter (· ≠ key), Function.update s.items key none, hand⟩ := by
  refine ⟨h.nodup.filter _, fun k => ?_⟩
  have hk := h.mem_iff k
  rcases eq_or_ne k key with rfl | hne
  · simp
  · simpa [update_of_ne hne, hne] using hk

theorem onRemove (h : s.Tidy) (key : K) : (s.onRemove key).Tidy := h.erase key _

end Tidy

/-! ### One turn of the hand -/

/-- The keys that the hand has passed, and those before it, oldest first. -/
def passed (s : Sieve K) : List (K × SieveEntry) := listed s.items (s.order.reverse.take s.hand)

def ahead (s : Sieve K) : List (K × SieveEntry) := listed s.items (s.order.reverse.drop s.hand)

omit [DecidableEq K] in
theorem passed_eq {A B : List K} (ho : s.order.reverse = A ++ B) (hhand : s.hand = A.length) :
    s.passed = listed s.items A ∧ s.ahead = listed s.items B := by
  rw [passed, ahead, ho, hhand]
  simp

omit [DecidableEq K] in
theorem Tidy.split (h : s.Tidy) {e : SieveEntry} {rest : List (K × SieveEntry)}
    (hahead : s.ahead = (k, e) :: rest) :
    ∃ A B, s.order.reverse = A ++ k :: B ∧ s.hand = A.length ∧ s.items k = some e ∧
      rest = listed s.items B := by
  have hlt : s.hand < s.order.reverse.length := by
    by_contra hle
    rw [ahead, drop_eq_nil_of_le (not_lt.mp hle)] at hahead
    cases hahead
  have hdrop := drop_eq_getElem_cons hlt
  have hmem : s.order.reverse[s.hand] ∈ s.order :=
    mem_reverse.mp (getElem_mem hlt)
  obtain ⟨d, hd⟩ := Option.isSome_iff_exists.mp ((h.mem_iff _).mp hmem)
  rw [ahead, hdrop, listed_cons hd] at hahead
  obtain ⟨hfst, rfl⟩ := List.cons.inj hahead
  obtain ⟨rfl, rfl⟩ := Prod.mk.inj hfst
  refine ⟨s.order.reverse.take s.hand, s.order.reverse.drop (s.hand + 1), ?_, ?_, hd, rfl⟩
  · rw [← hdrop, take_append_drop]
  · rw [length_take_of_le hlt.le]

omit [DecidableEq K] in
theorem get_index {A B : List K} (ho : s.order.reverse = A ++ k :: B) :
    A.length < s.order.length ∧ s.order[s.order.length - 1 - A.length]? = some k := by
  have hlen := congrArg List.length ho
  rw [length_reverse, length_append, length_cons] at hlen
  have hlt : A.length < s.order.length := by omega
  refine ⟨hlt, ?_⟩
  rw [← List.getElem?_reverse hlt, ho]
  simp

omit [DecidableEq K] in
theorem Tidy.notMem_of_order {A B : List K} (h : s.Tidy) (ho : s.order.reverse = A ++ k :: B) :
    k ∉ A ∧ k ∉ B := by
  have hnodup := nodup_reverse.mpr h.nodup
  rw [ho, nodup_middle] at hnodup
  have hout := (nodup_cons.mp hnodup).1
  exact ⟨fun hA => hout (mem_append_left B hA), fun hB => hout (mem_append_right A hB)⟩

theorem eraseIdx_index {A B : List K} (h : s.Tidy) (ho : s.order.reverse = A ++ k :: B) :
    s.order.eraseIdx (s.order.length - 1 - A.length) = s.order.filter (· ≠ k) ∧
      (s.order.filter (· ≠ k)).reverse = A ++ B := by
  have horder : s.order = B.reverse ++ k :: A.reverse := by
    rw [← reverse_reverse s.order, ho]
    simp
  obtain ⟨hA, hB⟩ := h.notMem_of_order ho
  have hfilter : s.order.filter (· ≠ k) = B.reverse ++ A.reverse := by
    rw [horder, filter_append, filter_cons_of_neg (by simp), ← filter_append]
    apply filter_eq_self.mpr
    intro j hj
    have hne : j ≠ k := by
      rintro rfl
      simp [hA, hB] at hj
    simpa using hne
  have hindex : s.order.length - 1 - A.length = B.reverse.length := by
    rw [horder]
    simp only [length_append, length_reverse, length_cons]
    omega
  refine ⟨?_, ?_⟩
  · rw [hindex, hfilter, horder, eraseIdx_append_of_length_le le_rfl]
    simp
  · rw [hfilter]
    simp

/-- The entry once the hand has passed it. -/
def clearVisited (e : K × SieveEntry) : K × SieveEntry := (e.1, { e.2 with visited := false })

theorem Tidy.sweep_visited (h : s.Tidy) {e : SieveEntry} {rest : List (K × SieveEntry)}
    (hahead : s.ahead = (k, e) :: rest) (he : e.visited = true) :
    ∃ s' : Sieve K, s'.Tidy ∧ s'.passed = s.passed ++ [clearVisited (k, e)] ∧ s'.ahead = rest ∧
      ∀ turns, s.sweep (turns + 1) = s'.sweep turns := by
  obtain ⟨A, B, ho, hhand, hitem, rfl⟩ := h.split hahead
  obtain ⟨hA, hB⟩ := h.notMem_of_order ho
  have htidy := h.update (by rw [hitem]; rfl) { e with visited := false } (A.length + 1)
  obtain ⟨hpassed, hahead'⟩ := passed_eq (A := A ++ [k]) (B := B)
    (s := ⟨s.order, Function.update s.items k (some { e with visited := false }), A.length + 1⟩)
    (by simpa using ho) (by simp)
  refine ⟨_, htidy, ?_, ?_, ?_⟩
  · rw [hpassed, (passed_eq ho hhand).1, listed_append, listed_update hA,
      listed_cons (update_self k _ _), listed_nil]
    rfl
  · rw [hahead', listed_update hB]
  · intro turns
    obtain ⟨hlt, hget⟩ := get_index ho
    rw [sweep, hhand, if_pos hlt]
    simp only [hget, hitem, he]
    rfl

theorem Tidy.sweep_taken (h : s.Tidy) {e : SieveEntry} {rest : List (K × SieveEntry)}
    (hahead : s.ahead = (k, e) :: rest) (he : e.visited = false) :
    ∃ s' : Sieve K, s'.Tidy ∧ s'.passed = s.passed ∧ s'.ahead = rest ∧
      ∀ turns, s.sweep (turns + 1) = (some (k, e.cost), s') := by
  obtain ⟨A, B, ho, hhand, hitem, rfl⟩ := h.split hahead
  obtain ⟨hA, hB⟩ := h.notMem_of_order ho
  obtain ⟨hidx, hrev⟩ := eraseIdx_index h ho
  obtain ⟨hpassed, hahead'⟩ := passed_eq (A := A) (B := B)
    (s := ⟨s.order.filter (· ≠ k), Function.update s.items k none, A.length⟩) hrev rfl
  refine ⟨_, h.erase k A.length, ?_, ?_, ?_⟩
  · rw [hpassed, (passed_eq ho hhand).1, listed_update hA]
  · rw [hahead', listed_update hB]
  · intro turns
    obtain ⟨hlt, hget⟩ := get_index ho
    rw [sweep, hhand, if_pos hlt]
    simp only [hget, hitem, he, hidx]
    rfl

/-! ### The order of eviction -/

/-- The order of eviction when the hand has passed all keys: the oldest one goes, and then those
that were not used, before the others. -/
def fromOldest : List (K × SieveEntry) → List (K × SieveEntry)
  | [] => []
  | e :: rest => e :: (rest.filter (!·.2.visited) ++ rest.filter (·.2.visited))

/-- The order of eviction: first those before the hand that were not used. -/
def turns (passed ahead : List (K × SieveEntry)) : List (K × SieveEntry) :=
  ahead.filter (!·.2.visited) ++
    fromOldest (passed ++ (ahead.filter (·.2.visited)).map clearVisited)

/-- The keys with their costs, in the order in which they are evicted. -/
def queue (s : Sieve K) : List (K × UInt64) :=
  (turns s.passed s.ahead).map fun e => (e.1, e.2.cost)

def costs (s : Sieve K) (key : K) : Option UInt64 := (s.items key).map (·.cost)

omit [DecidableEq K] in
theorem fromOldest_perm (l : List (K × SieveEntry)) : (fromOldest l).Perm l := by
  cases l with
  | nil => exact .refl _
  | cons e rest =>
    have hsplit := filter_append_perm (fun e : K × SieveEntry => e.2.visited) rest
    exact (perm_append_comm.trans hsplit).cons e

omit [DecidableEq K] in
theorem map_clearVisited (l : List (K × SieveEntry)) :
    (l.map clearVisited).map (fun e => (e.1, e.2.cost)) = l.map fun e => (e.1, e.2.cost) := by
  rw [map_map]
  rfl

omit [DecidableEq K] in
theorem queue_perm (s : Sieve K) : s.queue.Perm (listed s.costs s.order) := by
  set price : K × SieveEntry → K × UInt64 := fun e => (e.1, e.2.cost)
  have hsplit := filter_append_perm (fun e : K × SieveEntry => e.2.visited) s.ahead
  have hall : (s.passed ++ s.ahead).map price = listed s.costs s.order.reverse := by
    rw [passed, ahead, ← listed_append, take_append_drop]
    exact listed_map SieveEntry.cost s.order.reverse
  have hqueue : s.queue = (s.ahead.filter (!·.2.visited)).map price ++
      (fromOldest (s.passed ++ (s.ahead.filter (·.2.visited)).map clearVisited)).map price :=
    map_append
  calc s.queue.Perm _ := .of_eq hqueue
    Perm _ ((s.ahead.filter (!·.2.visited)).map price ++
        (s.passed ++ (s.ahead.filter (·.2.visited)).map clearVisited).map price) :=
      ((fromOldest_perm _).map price).append_left _
    Perm _ ((s.passed ++ s.ahead).map price) := by
      rw [map_append, map_clearVisited, ← map_append, ← map_append]
      apply Perm.map
      refine perm_append_comm.trans ?_
      rw [append_assoc]
      exact hsplit.append_left s.passed
    Perm _ (listed s.costs s.order) := by
      rw [hall]
      exact listed_perm s.costs s.order.reverse_perm

theorem Tidy.costOf_queue (h : s.Tidy) :
    (s.queue.map Prod.fst).Perm s.order ∧ ∀ k, s.costs k = costOf s.queue k := by
  apply costOf_of_perm h.nodup _ s.queue_perm
  intro k
  rw [h.mem_iff k, costs, Option.isSome_map]

theorem Tidy.length_queue (h : s.Tidy) : s.queue.length = s.order.length := by
  have hlen := h.costOf_queue.1.length_eq
  rwa [length_map] at hlen

omit [DecidableEq K] in
theorem Tidy.length_le (h : s.Tidy) (hahead : s.ahead = []) : s.order.length ≤ s.hand := by
  have hkeys : s.order.reverse.drop s.hand = [] := by
    have hitems : ∀ k ∈ s.order.reverse.drop s.hand, (s.items k).isSome = true :=
      fun k hk => (h.mem_iff k).mp (mem_reverse.mp (mem_of_mem_drop hk))
    rw [← map_fst_listed hitems]
    show s.ahead.map Prod.fst = []
    rw [hahead]
    rfl
  rw [drop_eq_nil_iff, length_reverse] at hkeys
  exact hkeys

theorem Tidy.sweep_eq (h : s.Tidy) {turns : ℕ} (hturns : s.ahead.length ≤ turns) :
    ∃ s' : Sieve K, s'.Tidy ∧
      ((∃ e, s.queue = e :: s'.queue ∧ s.sweep turns = (some e, s')) ∨
        (s'.queue = s.queue ∧ s'.ahead = [] ∧ s.sweep turns = (none, s'))) := by
  induction turns generalizing s with
  | zero =>
    have hnil := length_eq_zero_iff.mp (Nat.le_zero.mp hturns)
    exact ⟨s, h, .inr ⟨rfl, hnil, rfl⟩⟩
  | succ turns ih =>
    cases hahead : s.ahead with
    | nil =>
      have hend := not_lt.mpr (h.length_le hahead)
      exact ⟨s, h, .inr ⟨rfl, hahead, by rw [sweep, if_neg hend]⟩⟩
    | cons d rest =>
      obtain ⟨k, d⟩ := d
      rw [hahead, length_cons] at hturns
      cases hd : d.visited with
      | true =>
        obtain ⟨s₁, h₁, hpassed, hrest, hsweep⟩ := h.sweep_visited hahead hd
        have hqueue : s₁.queue = s.queue := by
          rw [queue, queue, hpassed, hrest, hahead]
          simp [Sieve.turns, hd]
        obtain ⟨s', h', hcase⟩ := ih h₁ (by rw [hrest]; omega)
        rw [← hsweep turns, hqueue] at hcase
        exact ⟨s', h', hcase⟩
      | false =>
        obtain ⟨s', h', hpassed, hrest, hsweep⟩ := h.sweep_taken hahead hd
        refine ⟨s', h', .inl ⟨(k, d.cost), ?_, hsweep turns⟩⟩
        rw [queue, queue, hpassed, hrest, hahead]
        simp [Sieve.turns, hd]

omit [DecidableEq K] in
theorem fromOldest_clearVisited (l : List (K × SieveEntry)) :
    fromOldest (l.map clearVisited) = l.map clearVisited := by
  cases l with
  | nil => rfl
  | cons e l =>
    have hno : ∀ d ∈ l.map clearVisited, d.2.visited = false := by
      intro d hd
      obtain ⟨c, -, rfl⟩ := mem_map.mp hd
      rfl
    rw [map_cons, fromOldest, filter_eq_self.mpr fun d hd => by rw [hno d hd]; rfl,
      filter_eq_nil_iff.mpr fun d hd => by simp [hno d hd], append_nil]

omit [DecidableEq K] in
theorem turns_nil (e : K × SieveEntry) (l : List (K × SieveEntry)) :
    turns (e :: l) [] = e :: (l.filter (!·.2.visited) ++ l.filter (·.2.visited)) := by
  simp [turns, fromOldest]

theorem Tidy.takeOldest_eq (h : s.Tidy) (hahead : s.ahead = []) {e : K × UInt64}
    {rest : List (K × UInt64)} (hqueue : s.queue = e :: rest) :
    ∃ s' : Sieve K, s'.Tidy ∧ s'.queue = rest ∧
      takeOldest { s with hand := 0 } = (some e, s') := by
  have hpassed : s.passed = listed s.items s.order.reverse := by
    rw [passed, take_of_length_le]
    rw [length_reverse]
    exact h.length_le hahead
  cases ho : s.order.reverse with
  | nil =>
    rw [queue, hahead, hpassed, ho] at hqueue
    cases hqueue
  | cons k B =>
    have hmem : k ∈ s.order := by
      rw [← mem_reverse, ho]
      exact mem_cons_self
    obtain ⟨d, hd⟩ := Option.isSome_iff_exists.mp ((h.mem_iff k).mp hmem)
    obtain ⟨-, hget⟩ := get_index (A := []) ho
    obtain ⟨hidx, hrev⟩ := eraseIdx_index (A := []) h ho
    rw [length_nil, Nat.sub_zero] at hget hidx
    have hout : k ∉ B := by
      have hnodup := nodup_reverse.mpr h.nodup
      rw [ho] at hnodup
      exact (nodup_cons.mp hnodup).1
    rw [queue, hahead, hpassed, ho, listed_cons hd, turns_nil] at hqueue
    obtain ⟨rfl, rfl⟩ := List.cons.inj hqueue
    refine ⟨⟨s.order.filter (· ≠ k), Function.update s.items k none, 0⟩, h.erase k 0, ?_, ?_⟩
    · obtain ⟨hpassed', hahead'⟩ := passed_eq (A := []) (B := B)
        (s := ⟨s.order.filter (· ≠ k), Function.update s.items k none, 0⟩) hrev rfl
      rw [queue, hpassed', hahead', listed_update hout, turns, listed_nil, nil_append,
        fromOldest_clearVisited, map_append, map_clearVisited, map_append]
    · rw [takeOldest]
      simp only [hget, hd, hidx]

theorem Tidy.evictTurn_eq (h : s.Tidy) {turns : ℕ} (hturns : s.order.length ≤ turns)
    {e : K × UInt64} {rest : List (K × UInt64)} (hqueue : s.queue = e :: rest) :
    ∃ s' : Sieve K, s'.Tidy ∧ s'.queue = rest ∧ s.evictTurn turns = (some e, s') := by
  have hahead : s.ahead.length ≤ turns := by
    have hle := length_filterMap_le (fun k => (s.items k).map (k, ·))
      (s.order.reverse.drop s.hand)
    rw [length_drop, length_reverse] at hle
    exact (hle.trans (Nat.sub_le _ _)).trans hturns
  obtain ⟨s₁, h₁, hcase⟩ := h.sweep_eq hahead
  rcases hcase with ⟨d, hfirst, hsweep⟩ | ⟨hsame, hnone, hsweep⟩
  · rw [hqueue] at hfirst
    obtain ⟨rfl, hrest⟩ := List.cons.inj hfirst
    exact ⟨s₁, h₁, hrest.symm, by rw [evictTurn, hsweep]⟩
  · obtain ⟨s', h', hrest, hold⟩ := h₁.takeOldest_eq hnone (hsame.trans hqueue)
    exact ⟨s', h', hrest, by rw [evictTurn, hsweep]; exact hold⟩

theorem sweep_succ {turns : ℕ} (s : Sieve K) (hturns : s.order.length ≤ s.hand + turns) :
    s.sweep (turns + 1) = s.sweep turns := by
  induction turns generalizing s with
  | zero =>
    have hend : ¬ s.hand < s.order.length := by omega
    simp only [sweep, if_neg hend]
  | succ turns ih =>
    -- the hand has passed one more key
    have hnext : ∀ key e, sweep (turns + 1) ⟨s.order, Function.update s.items key e, s.hand + 1⟩ =
        sweep turns ⟨s.order, Function.update s.items key e, s.hand + 1⟩ := by
      intro key e
      apply ih
      show s.order.length ≤ s.hand + 1 + turns
      omega
    conv_lhs => rw [sweep]
    conv_rhs => rw [sweep]
    simp only [hnext]

theorem sweep_steady (s : Sieve K) {turns : ℕ} (hturns : s.order.length ≤ turns) :
    s.sweep turns = s.sweep s.order.length := by
  induction turns, hturns using Nat.le_induction with
  | base => rfl
  | succ turns hle ih => rw [sweep_succ s (by omega), ih]

theorem Tidy.evictLoop_eq (h : s.Tidy) (costToFree : UInt64) :
    ∃ s' : Sieve K, s'.Tidy ∧ s'.queue = (popUntil Prod.snd costToFree s.queue).2.2 ∧
      evictLoop s.order.length costToFree s =
        (((popUntil Prod.snd costToFree s.queue).2.1.map Prod.fst,
          total Prod.snd (popUntil Prod.snd costToFree s.queue).2.1), s') := by
  have hlength : ∀ t : Sieve K, (t.Tidy ∧ t.order.length ≤ s.order.length) →
      t.queue.length = t.order.length := fun _ ht => ht.1.length_queue
  obtain ⟨s', ⟨h', -⟩, hqueue, hloop⟩ := payLoop_eq hlength
    (fun t e rest ht hqueue => by
      obtain ⟨t', ht', hrest, hturn⟩ := Tidy.evictTurn_eq ht.1 ht.2 hqueue
      refine ⟨t', ⟨ht', ?_⟩, hrest, hturn⟩
      have hlen := ht.1.length_queue
      have hlen' := ht'.length_queue
      rw [hqueue, length_cons] at hlen
      rw [hrest] at hlen'
      have hle := ht.2
      omega) ⟨h, le_rfl⟩ le_rfl costToFree 0
  rw [UInt64.zero_add] at hloop
  exact ⟨s', h', hqueue, hloop⟩

theorem Tidy.evictLoop_steady (h : s.Tidy) {fuel : ℕ} (hfuel : s.order.length ≤ fuel)
    (costToFree : UInt64) :
    evictLoop fuel costToFree s = evictLoop s.order.length costToFree s :=
  payLoop_steady (fun _ ht => Tidy.length_queue ht)
    (fun _ _ _ ht hle hqueue => Tidy.evictTurn_eq ht hle hqueue)
    (fun t _ hle => by
      rw [evictTurn, evictTurn, sweep_steady t hle, sweep_steady t (hle.trans hfuel)])
    h le_rfl le_rfl hfuel costToFree 0

/-! ### What each call records -/

theorem costs_update (items : K → Option SieveEntry) (key k : K) (o : Option SieveEntry) :
    (Function.update items key o k).map SieveEntry.cost =
      if k = key then o.map SieveEntry.cost else (items k).map SieveEntry.cost := by
  split_ifs with heq
  · rw [heq, update_self]
  · rw [update_of_ne heq]

theorem costs_onAccess (s : Sieve K) (key k : K) : (s.onAccess key).costs k = s.costs k := by
  unfold onAccess
  split
  · rfl
  · next e he =>
    rw [costs, costs_update, costs]
    split_ifs with heq
    · rw [heq, he]
      rfl
    · rfl

instance : QueuedPolicy (Sieve K) K where
  Tidy := Tidy
  costs := costs
  queue := queue
  updatesCost := true
  recordsReads := false
  evictLoops := evictLoop
  turns s := s.order.length
  nodup h := h.costOf_queue.1.nodup_iff.mpr h.nodup
  costs_eq h := h.costOf_queue.2
  onAccess {s} key _ h := ⟨h.onAccess key, fun k => .inl (costs_onAccess s key k)⟩
  onAdmit key cost h := ⟨rfl, h.onAdmit key cost, .inl fun k => costs_update _ key k _⟩
  onRemove key h := ⟨h.onRemove key, fun k => costs_update _ key k none⟩
  clear _ := ⟨Tidy.new, fun _ => rfl⟩
  evict_eq _ _ := rfl
  steady c h hfuel := h.evictLoop_steady hfuel c
  evict {s} c h := by
    obtain ⟨s', h', hrest, hloop⟩ := h.evictLoop_eq c
    exact ⟨_, s', h', by rw [hrest, popUntil_append], hloop, fun _ => rfl⟩

/-! ### The key under the hand -/

/-- The keys that the hand has passed, oldest first. -/
def behind (s : Sieve K) : List K := s.order.reverse.take s.hand

/-- The key under the hand, unless the hand has passed them all. -/
def underHand (s : Sieve K) : Option K := s.order.reverse[s.hand]?

/-- The hand stays where it is while `key` changes its place: on the same key, and what it had
passed is what it has passed. -/
structure Kept (s s' : Sieve K) (key : K) : Prop where
  under : s'.underHand = s.underHand
  passed : s'.behind = s.behind.filter (· ≠ key)

omit [DecidableEq K] in
theorem underHand_eq {A B : List K} (ho : s.order.reverse = A ++ B) (hhand : s.hand = A.length) :
    s.underHand = B.head? ∧ s.behind = A := by
  rw [underHand, behind, ho, hhand]
  simp [List.head?_eq_getElem?, List.getElem?_append_right]

omit [DecidableEq K] in
theorem split_underHand {j : K} (hj : s.underHand = some j) :
    ∃ B, s.order.reverse = s.behind ++ j :: B ∧ s.hand = s.behind.length := by
  obtain ⟨hlt, hget⟩ := List.getElem?_eq_some_iff.mp hj
  refine ⟨s.order.reverse.drop (s.hand + 1), ?_, ?_⟩
  · rw [behind, ← hget, ← drop_eq_getElem_cons hlt, take_append_drop]
  · rw [behind, length_take_of_le hlt.le]

theorem reverse_filter {A B : List K} {j : K} (ho : s.order.reverse = A ++ j :: B) (hne : k ≠ j) :
    (s.order.filter (· ≠ k)).reverse = A.filter (· ≠ k) ++ j :: B.filter (· ≠ k) := by
  rw [← filter_reverse, ho, filter_append, filter_cons_of_pos (by simpa using hne.symm)]

theorem filter_ne_of_notMem {A : List K} (hk : k ∉ A) : A.filter (· ≠ k) = A := by
  apply filter_eq_self.mpr
  intro a ha
  have hne : a ≠ k := fun heq => hk (heq ▸ ha)
  simpa using hne

theorem length_filter_ne {A : List K} (hnodup : A.Nodup) (hk : k ∈ A) :
    (A.filter (· ≠ k)).length + 1 = A.length := by
  have herase := length_erase_of_mem hk
  have hpos := length_pos_of_mem hk
  rw [hnodup.erase_eq_filter] at herase
  have hsame : A.filter (· ≠ k) = A.filter (· != k) := filter_congr fun a _ => by
    rw [bne, decide_not]
    rfl
  rw [hsame]
  omega

/-- A removal keeps the hand when the key is not behind it. If it is, the hand slips on to the
next key, or back to the oldest one, which is the same key if no other is left. -/
theorem Tidy.kept_onRemove_iff (h : s.Tidy) {j : K} (hj : s.underHand = some j) (hne : k ≠ j) :
    Kept s (s.onRemove k) k ↔ k ∉ s.behind ∨ s.order.length = 2 := by
  obtain ⟨B, ho, hhand⟩ := split_underHand hj
  have hnodup := nodup_reverse.mpr h.nodup
  rw [ho] at hnodup
  have hlen := congrArg List.length ho
  rw [length_reverse, length_append, length_cons] at hlen
  have ho' := reverse_filter ho hne
  have hlen' := congrArg List.length ho'
  rw [length_reverse, length_append, length_cons] at hlen'
  by_cases hk : k ∈ s.behind
  · have hB : k ∉ B := fun hmem =>
      (nodup_append.mp hnodup).2.2 k hk k (mem_cons_of_mem j hmem) rfl
    have hbehind := length_filter_ne (nodup_append.mp hnodup).1 hk
    rw [filter_ne_of_notMem hB] at ho' hlen'
    cases B with
    | nil =>
      -- the hand would have passed them all, and starts again
      have hback : (s.onRemove k).hand = 0 := if_pos (by rw [hlen', length_nil]; omega)
      cases hA : s.behind.filter (· ≠ k) with
      | nil =>
        rw [hA] at ho' hbehind
        obtain ⟨hunder, hpassed⟩ := underHand_eq (s := s.onRemove k) (A := []) ho' hback
        refine iff_of_true ⟨hunder.trans hj.symm, hpassed.trans hA.symm⟩ (.inr ?_)
        rw [hlen, ← hbehind]
        rfl
      | cons a A =>
        rw [hA] at ho' hbehind
        obtain ⟨hunder, -⟩ := underHand_eq (s := s.onRemove k) (A := []) ho' hback
        have ha : a ∈ s.behind := mem_of_mem_filter (hA ▸ mem_cons_self)
        refine iff_of_false (fun hkept => ?_) ?_
        · have heq : some a = some j := hunder.symm.trans (hkept.under.trans hj)
          exact (nodup_append.mp hnodup).2.2 a ha j mem_cons_self (Option.some.inj heq)
        · rw [length_cons] at hbehind
          rw [length_nil] at hlen
          push Not
          exact ⟨hk, by omega⟩
    | cons b B =>
      rw [length_cons] at hlen hlen'
      have hstay : (s.onRemove k).hand = s.hand := if_neg (by rw [hlen']; omega)
      obtain ⟨hunder, -⟩ := underHand_eq (s := s.onRemove k)
        (A := s.behind.filter (· ≠ k) ++ [j]) (B := b :: B)
        (by rw [append_assoc]; exact ho')
        (by rw [hstay, hhand, ← hbehind, length_append, length_singleton])
      refine iff_of_false (fun hkept => ?_) ?_
      · have heq : some b = some j := hunder.symm.trans (hkept.under.trans hj)
        have hbj := (nodup_cons.mp (nodup_append.mp hnodup).2.1).1
        exact hbj (Option.some.inj heq ▸ mem_cons_self)
      · push Not
        exact ⟨hk, by omega⟩
  · rw [filter_ne_of_notMem hk] at ho' hlen'
    have hstay : (s.onRemove k).hand = s.hand := if_neg (by rw [hlen']; omega)
    obtain ⟨hunder, hpassed⟩ := underHand_eq (s := s.onRemove k) ho' (hstay.trans hhand)
    refine iff_of_true ⟨hunder.trans hj.symm, ?_⟩ (.inl hk)
    rw [hpassed, filter_ne_of_notMem hk]

theorem Tidy.kept_onAdmit_iff (h : s.Tidy) {j : K} (hj : s.underHand = some j) (hne : k ≠ j)
    (cost : UInt64) : Kept s (s.onAdmit k cost) k ↔ k ∉ s.behind := by
  obtain ⟨B, ho, hhand⟩ := split_underHand hj
  have hnodup := nodup_reverse.mpr h.nodup
  rw [ho] at hnodup
  have ho' : (s.onAdmit k cost).order.reverse =
      s.behind.filter (· ≠ k) ++ j :: (B.filter (· ≠ k) ++ [k]) := by
    have hrev := reverse_filter ho hne
    rw [h.onAdmit_order k cost, reverse_cons, hrev, append_assoc, cons_append]
  by_cases hk : k ∈ s.behind
  · have hbehind := length_filter_ne (nodup_append.mp hnodup).1 hk
    obtain ⟨hunder, -⟩ := underHand_eq (s := s.onAdmit k cost)
      (A := s.behind.filter (· ≠ k) ++ [j]) (B := B.filter (· ≠ k) ++ [k])
      (by rw [append_assoc]; exact ho')
      (by
        show s.hand = _
        rw [hhand, ← hbehind, length_append, length_singleton])
    refine iff_of_false (fun hkept => ?_) (not_not_intro hk)
    have hhead : (B.filter (· ≠ k) ++ [k]).head? = some j :=
      hunder.symm.trans (hkept.under.trans hj)
    rcases mem_append.mp (mem_of_head? hhead) with hmem | hmem
    · exact (nodup_cons.mp (nodup_append.mp hnodup).2.1).1 (mem_of_mem_filter hmem)
    · exact hne (mem_singleton.mp hmem).symm
  · rw [filter_ne_of_notMem hk] at ho'
    obtain ⟨hunder, hpassed⟩ := underHand_eq (s := s.onAdmit k cost) ho' hhand
    refine iff_of_true ⟨hunder.trans hj.symm, ?_⟩ hk
    rw [hpassed, filter_ne_of_notMem hk]

/-- Removing a key, and admitting one, leaves the hand on the key under it, exactly when the hand
has not passed the key that is removed or admitted again; a removal also when only it is left. -/
theorem hand_kept_iff (calls : List (PolicyCall K)) (j k : K) :
    let s := CachePolicy.run (Sieve.new : Sieve K) calls
    s.underHand = some j → k ≠ j →
      (Kept s (s.onRemove k) k ↔ k ∉ s.behind ∨ s.order.length = 2) ∧
        ∀ cost, (Kept s (s.onAdmit k cost) k ↔ k ∉ s.behind) := by
  intro s hj hne
  have h : s.Tidy := QueuedPolicy.run_tidy (s := (Sieve.new : Sieve K)) Tidy.new calls
  exact ⟨h.kept_onRemove_iff hj hne, h.kept_onAdmit_iff hj hne⟩

theorem hand_kept_third :
    let s := CachePolicy.run (Sieve.new : Sieve ℕ) [.onAdmit 1 1, .onAdmit 2 1, .onAdmit 3 1]
    (Kept s (s.onRemove 3) 3 ↔ 3 ∉ s.behind ∨ s.order.length = 2) ∧
      ∀ cost, (Kept s (s.onAdmit 3 cost) 3 ↔ 3 ∉ s.behind) :=
  hand_kept_iff [.onAdmit 1 1, .onAdmit 2 1, .onAdmit 3 1] 1 3 (by decide) (by decide)

/-- The hand is at 3, having passed 1, and 4 is new. With 1 removed the hand is at 4, and 3 is
behind it. -/
theorem hand_slips :
    let s := CachePolicy.run (Sieve.new : Sieve ℕ)
      [.onAdmit 1 1, .onAdmit 2 1, .onAdmit 3 1, .onAccess 1 1, .evict 1, .onAdmit 4 1]
    s.underHand = some 3 ∧ (s.onRemove 1).underHand = some 4 ∧
      ¬ Kept s (s.onRemove 1) 1 ∧ ¬ Kept s (s.onAdmit 1 1) 1 := by
  refine ⟨by decide, by decide, fun hkept => ?_, fun hkept => ?_⟩
  · exact absurd hkept.under (by decide)
  · exact absurd hkept.under (by decide)

end Sieve

end Fibre.Cache
