import Fibre.Cache.QueuedPolicy

/-!
# The Clock policy

The keys in the order of their admission, and a hand that goes round them. It passes over a key
that was used since it last came by, and takes one that was not. The state is under one lock, so
an operation is a function of it.
-/

namespace Fibre.Cache

open CostQueue Word Function List Option

/-- What the policy knows of a key. -/
structure ClockEntry where
  cost : UInt64
  referenced : Bool
  deriving DecidableEq

/-- The tracked keys with their entries, in the order of their admission, and the hand. -/
structure Clock (K : Type*) where
  items : K → Option ClockEntry
  order : List K
  hand : ℕ

namespace Clock

variable {K : Type*} [DecidableEq K]

/-- An empty policy. -/
def new : Clock K := ⟨fun _ => none, [], 0⟩

def onAccess (s : Clock K) (key : K) : Clock K :=
  match s.items key with
  | none => s
  | some e => { s with items := update s.items key (some { e with referenced := true }) }

/-- A key that is tracked stays as it is, another one goes to the end. -/
def onAdmit (s : Clock K) (key : K) (cost : UInt64) : Clock K :=
  if (s.items key).isSome then s
  else
    { s with
      items := update s.items key (some ⟨cost, false⟩)
      order := s.order ++ [key] }

def onRemove (s : Clock K) (key : K) : Clock K :=
  if (s.items key).isSome then
    let s := { s with items := update s.items key none }
    if key ∈ s.order then
      let pos := s.order.idxOf key
      { s with
        order := s.order.eraseIdx pos
        hand := if pos ≤ s.hand ∧ 0 < s.hand then s.hand - 1 else s.hand }
    else s
  else s

/-- The hand at the start of a turn: past the end it goes back to the first key. -/
def start (s : Clock K) : ℕ := if s.order.length ≤ s.hand then 0 else s.hand

/-- The hand goes on until it takes a key, for at most `turns` keys. -/
def sweep : ℕ → Clock K → Option (K × UInt64) × Clock K
  | 0, s => (none, s)
  | turns + 1, s =>
    match s.order[s.start]? with
    -- not reached: the list is not empty
    | none => (none, s)
    | some key =>
      match s.items key with
      -- not reached: a key of the list is tracked
      | none => (none, s)
      | some e =>
        if e.referenced then
          sweep turns
            { s with
              items := update s.items key (some { e with referenced := false })
              hand := s.start + 1 }
        else
          (some (key, e.cost),
            { items := update s.items key none
              order := s.order.eraseIdx s.start
              hand := s.start })

/-- The eviction loop, for at most `fuel` sweeps. -/
def evictLoop (fuel : ℕ) (costToFree : UInt64) (s : Clock K) : (List K × UInt64) × Clock K :=
  payLoop order (fun s => s.sweep (s.order.length * 2)) fuel costToFree 0 s

/-- Evicts until `costToFree` is released or nothing is left. Returns the victims and the cost
released. -/
def evict (s : Clock K) (costToFree : UInt64) : (List K × UInt64) × Clock K :=
  evictLoop s.order.length costToFree s

/-- Forgets everything. -/
def clear (_ : Clock K) : Clock K := new

instance : CachePolicy (Clock K) K where
  onAccess s key _ := s.onAccess key
  onAdmit s key cost := (.admitted, s.onAdmit key cost)
  onRemove := onRemove
  evict := evict
  clear := clear

/-! ### The order of the hand -/

/-- The keys in the order in which the hand comes to them. -/
def visits (s : Clock K) : List K := s.order.drop s.start ++ s.order.take s.start

/-- The keys of the list are those that are tracked, each once, and the hand is on the list or
just past it. -/
structure Tidy (s : Clock K) : Prop where
  nodup : s.order.Nodup
  mem_iff : ∀ k, k ∈ s.order ↔ (s.items k).isSome = true
  hand_le : s.hand ≤ s.order.length

variable {s : Clock K} {key k : K} {cost : UInt64}

omit [DecidableEq K] in
theorem visits_perm (s : Clock K) : s.visits.Perm s.order := by
  have hsplit := take_append_drop s.start s.order
  exact perm_append_comm.trans (.of_eq hsplit)

omit [DecidableEq K] in

/-! ### What holds of every state -/

namespace Tidy

omit [DecidableEq K] in
theorem new : Tidy (new : Clock K) := ⟨nodup_nil, fun k => by simp [Clock.new], le_rfl⟩

theorem isSome_update {items : K → Option ClockEntry} {e : ClockEntry}
    (h : (items key).isSome = true) (k : K) :
    (update items key (some e) k).isSome = (items k).isSome := by
  rcases eq_or_ne k key with rfl | hne
  · simp [h]
  · rw [update_of_ne hne]

theorem onAccess (h : s.Tidy) (key : K) : (s.onAccess key).Tidy := by
  unfold Clock.onAccess
  split
  · exact h
  · rename_i e he
    refine ⟨h.nodup, fun k => ?_, h.hand_le⟩
    rw [isSome_update (by rw [he]; rfl)]
    exact h.mem_iff k

theorem onAdmit (h : s.Tidy) (key : K) (cost : UInt64) : (s.onAdmit key cost).Tidy := by
  unfold Clock.onAdmit
  split_ifs with hsome
  · exact h
  · have hnew : key ∉ s.order := fun hmem => hsome ((h.mem_iff key).mp hmem)
    constructor
    · exact h.nodup.append (nodup_singleton key) (by simpa using hnew)
    · intro k
      have hk := h.mem_iff k
      rcases eq_or_ne k key with rfl | hne
      · simp
      · simpa [update_of_ne hne, hne] using hk
    · have hle := h.hand_le
      rw [length_append]
      exact hle.trans (Nat.le_add_right _ _)

theorem erase (h : s.Tidy) (hmem : key ∈ s.order) {hand : ℕ}
    (hhand : hand + 1 ≤ s.order.length) :
    Tidy ⟨update s.items key none, s.order.erase key, hand⟩ := by
  constructor
  · exact h.nodup.erase key
  · intro k
    have hk := h.mem_iff k
    show k ∈ s.order.erase key ↔ _
    rw [h.nodup.mem_erase_iff]
    rcases eq_or_ne k key with rfl | hne
    · simp
    · simpa [update_of_ne hne, hne] using hk
  · show hand ≤ (s.order.erase key).length
    rw [length_erase_of_mem hmem]
    omega

theorem onRemove (h : s.Tidy) (key : K) : (s.onRemove key).Tidy := by
  unfold Clock.onRemove
  split_ifs with hsome
  · have hmem := (h.mem_iff key).mpr hsome
    have hlen := length_pos_of_mem hmem
    have hle := h.hand_le
    simp only [hmem, if_true]
    rw [eraseIdx_idxOf_eq_erase]
    refine h.erase hmem ?_
    have hpos := idxOf_lt_length_of_mem hmem
    split_ifs <;> omega
  · exact h

theorem pass (h : s.Tidy) {A B : List K} (ho : s.order = A ++ k :: B) (e : ClockEntry) :
    Tidy ⟨update s.items k (some e), s.order, A.length + 1⟩ := by
  have hmem : k ∈ s.order := ho ▸ mem_append_right A mem_cons_self
  refine ⟨h.nodup, fun j => ?_, ?_⟩
  · rw [isSome_update ((h.mem_iff k).mp hmem)]
    exact h.mem_iff j
  · show A.length + 1 ≤ s.order.length
    rw [ho, length_append, length_cons]
    omega

end Tidy

omit [DecidableEq K] in
theorem visits_eq {A B : List K} (ho : s.order = A ++ B)
    (hhand : s.hand = A.length) : s.visits = B ++ A := by
  unfold visits start
  rw [ho, hhand, length_append]
  split_ifs with hend
  · -- past the end, with all keys before the hand
    have hnil : B = [] := length_eq_zero_iff.mp (by omega)
    simp [hnil]
  · simp

omit [DecidableEq K] in
theorem Tidy.split (h : s.Tidy) : ∃ A B, s.order = A ++ B ∧ s.hand = A.length :=
  ⟨s.order.take s.hand, s.order.drop s.hand, (take_append_drop _ _).symm,
    (length_take_of_le h.hand_le).symm⟩

/-! ### One turn of the hand -/

/-- The keys with what is known of them, in the order in which the hand comes to them. -/
def lineup (s : Clock K) : List (K × ClockEntry) := listed s.items s.visits

omit [DecidableEq K] in
theorem lineup_eq {V : List K} (h : s.visits = V) : s.lineup = listed s.items V := by
  rw [lineup, h]

omit [DecidableEq K] in
theorem Tidy.start_split (h : s.Tidy) {e : ClockEntry} {rest : List (K × ClockEntry)}
    (hline : s.lineup = (k, e) :: rest) :
    ∃ A B, s.order = A ++ k :: B ∧ s.start = A.length ∧ s.items k = some e ∧
      rest = listed s.items (B ++ A) := by
  have hne : s.order ≠ [] := by
    intro hnil
    simp [lineup, visits, hnil] at hline
  have hlt : s.start < s.order.length := by
    have hpos := length_pos_of_ne_nil hne
    unfold start
    split_ifs <;> omega
  have hdrop := drop_eq_getElem_cons hlt
  have hmem : s.order[s.start] ∈ s.order := getElem_mem hlt
  obtain ⟨d, hd⟩ := isSome_iff_exists.mp ((h.mem_iff _).mp hmem)
  rw [lineup, visits, hdrop, cons_append, listed_cons hd] at hline
  obtain ⟨hfst, rfl⟩ := List.cons.inj hline
  obtain ⟨rfl, rfl⟩ := Prod.mk.inj hfst
  refine ⟨s.order.take s.start, s.order.drop (s.start + 1), ?_, ?_, hd, rfl⟩
  · rw [← hdrop, take_append_drop]
  · rw [length_take_of_le hlt.le]

theorem Tidy.sweep_referenced (h : s.Tidy) {e : ClockEntry} {rest : List (K × ClockEntry)}
    (hline : s.lineup = (k, e) :: rest) (he : e.referenced = true) :
    ∃ s' : Clock K, s'.Tidy ∧ s'.lineup = rest ++ [(k, { e with referenced := false })] ∧
      ∀ turns, s.sweep (turns + 1) = s'.sweep turns := by
  obtain ⟨A, B, ho, hstart, hitem, rfl⟩ := h.start_split hline
  have hout : k ∉ B ++ A := by
    have hnodup := h.nodup
    rw [ho, nodup_middle] at hnodup
    have hnot := (nodup_cons.mp hnodup).1
    simpa [or_comm] using hnot
  have htidy := h.pass ho { e with referenced := false }
  refine ⟨_, htidy, ?_, ?_⟩
  · have hvisits := visits_eq (A := A ++ [k]) (B := B)
      (s := ⟨update s.items k (some { e with referenced := false }), s.order, A.length + 1⟩)
      (by simpa using ho) (by simp)
    rw [lineup_eq hvisits, ← append_assoc, listed_append, listed_update hout,
      listed_cons (update_self k _ _), listed_nil]
  · intro turns
    have hget : s.order[s.start]? = some k := by
      rw [ho, hstart]
      simp
    rw [sweep, hget]
    simp only [hitem, he, if_true, hstart]

theorem Tidy.sweep_taken (h : s.Tidy) {e : ClockEntry} {rest : List (K × ClockEntry)}
    (hline : s.lineup = (k, e) :: rest) (he : e.referenced = false) :
    ∃ s' : Clock K, s'.Tidy ∧ s'.lineup = rest ∧
      ∀ turns, s.sweep (turns + 1) = (some (k, e.cost), s') := by
  obtain ⟨A, B, ho, hstart, hitem, rfl⟩ := h.start_split hline
  have hnodup := h.nodup
  rw [ho, nodup_middle] at hnodup
  have hout := (nodup_cons.mp hnodup).1
  have herase : s.order.erase k = A ++ B := by
    have hA : k ∉ A := fun hA => hout (mem_append_left B hA)
    rw [ho, erase_append_right _ hA, erase_cons_head]
  have htidy : Tidy ⟨update s.items k none, s.order.erase k, A.length⟩ := by
    refine h.erase (ho ▸ mem_append_right A mem_cons_self) ?_
    rw [ho, length_append, length_cons]
    omega
  refine ⟨_, htidy, ?_, ?_⟩
  · have hvisits := visits_eq (A := A) (B := B)
      (s := ⟨update s.items k none, s.order.erase k, A.length⟩) herase rfl
    rw [lineup_eq hvisits, listed_update (by simpa [or_comm] using hout)]
  · intro turns
    have hget : s.order[s.start]? = some k := by
      rw [ho, hstart]
      simp
    have hidx : s.order.eraseIdx A.length = s.order.erase k := by
      rw [herase, ho, eraseIdx_append_of_length_le le_rfl]
      simp
    rw [sweep, hget]
    simp only [hitem, he, hstart, hidx]
    rfl

/-! ### The order of eviction -/

/-- The keys with their costs, in the order in which they are evicted: those that were not used
since the hand last came by, and then the others, which are passed over once. -/
def queueOf (line : List (K × ClockEntry)) : List (K × UInt64) :=
  (line.filter (!·.2.referenced) ++ line.filter (·.2.referenced)).map fun e => (e.1, e.2.cost)

def queue (s : Clock K) : List (K × UInt64) := queueOf s.lineup

def costs (s : Clock K) (key : K) : Option UInt64 := (s.items key).map (·.cost)

omit [DecidableEq K] in
theorem queue_perm (s : Clock K) : s.queue.Perm (listed s.costs s.order) := by
  have hparts : (s.lineup.filter (!·.2.referenced) ++ s.lineup.filter (·.2.referenced)).Perm
      s.lineup := by
    have hsplit := filter_append_perm (fun e : K × ClockEntry => e.2.referenced) s.lineup
    exact perm_append_comm.trans hsplit
  have hline := hparts.map fun e => (e.1, e.2.cost)
  rw [lineup, listed_map ClockEntry.cost] at hline
  exact hline.trans (listed_perm s.costs (visits_perm s))

theorem Tidy.costOf_queue (h : s.Tidy) :
    (s.queue.map Prod.fst).Perm s.order ∧ ∀ k, s.costs k = costOf s.queue k := by
  apply costOf_of_perm h.nodup _ s.queue_perm
  intro k
  rw [h.mem_iff k, costs, isSome_map]

theorem Tidy.length_queue (h : s.Tidy) : s.queue.length = s.order.length := by
  have hlen := h.costOf_queue.1.length_eq
  rwa [length_map] at hlen

/-- The hand takes the first of the queue. Each key that it passes over is one fewer to be passed
over. -/
theorem Tidy.sweep_eq (h : s.Tidy) {e : K × UInt64} {rest : List (K × UInt64)}
    (hqueue : s.queue = e :: rest) {turns : ℕ}
    (hturns : s.lineup.countP (·.2.referenced) < turns) :
    ∃ s' : Clock K, s'.Tidy ∧ s'.queue = rest ∧ s.sweep turns = (some e, s') := by
  induction turns generalizing s with
  | zero => exact absurd hturns (Nat.not_lt_zero _)
  | succ turns ih =>
    cases hline : s.lineup with
    | nil => simp [queue, queueOf, hline] at hqueue
    | cons d line =>
      obtain ⟨k, d⟩ := d
      rw [queue, hline] at hqueue
      cases hd : d.referenced with
      | true =>
        obtain ⟨s₁, h₁, hline₁, hsweep⟩ := h.sweep_referenced hline hd
        have hqueue₁ : s₁.queue = e :: rest := by
          rw [queue, hline₁, ← hqueue]
          simp [queueOf, hd]
        have hcount : s₁.lineup.countP (·.2.referenced) < turns := by
          rw [hline] at hturns
          rw [hline₁]
          simp only [countP_cons, hd, if_true, countP_append, countP_nil] at hturns ⊢
          simp only [Bool.false_eq_true, if_false]
          omega
        obtain ⟨s', h', hqueue', hsweep'⟩ := ih h₁ hqueue₁ hcount
        exact ⟨s', h', hqueue', by rw [hsweep, hsweep']⟩
      | false =>
        obtain ⟨s', h', hline', hsweep⟩ := h.sweep_taken hline hd
        have hcons : (k, d.cost) :: queueOf line = e :: rest := by
          rw [← hqueue]
          simp [queueOf, hd]
        obtain ⟨rfl, hrest⟩ := List.cons.inj hcons
        exact ⟨s', h', by rw [queue, hline', hrest], hsweep turns⟩

theorem Tidy.turn_eq (h : s.Tidy) {e : K × UInt64} {rest : List (K × UInt64)}
    (hqueue : s.queue = e :: rest) :
    ∃ s' : Clock K, s'.Tidy ∧ s'.queue = rest ∧ s.sweep (s.order.length * 2) = (some e, s') := by
  apply h.sweep_eq hqueue
  have hle := countP_le_length (p := fun e : K × ClockEntry => e.2.referenced)
    (l := s.lineup)
  have hline : s.lineup.length = s.queue.length := by
    have hsplit := filter_append_perm (fun e : K × ClockEntry => e.2.referenced) s.lineup
    rw [queue, queueOf, length_map, ← hsplit.length_eq, length_append,
      length_append, Nat.add_comm]
  have hlen := h.length_queue
  have hpos : 0 < s.queue.length := by
    rw [hqueue]
    exact Nat.succ_pos _
  omega

theorem Tidy.evictLoop_eq (h : s.Tidy) (costToFree : UInt64) :
    ∃ s' : Clock K, s'.Tidy ∧ s'.queue = (popUntil Prod.snd costToFree s.queue).2.2 ∧
      evictLoop s.order.length costToFree s =
        (((popUntil Prod.snd costToFree s.queue).2.1.map Prod.fst,
          total Prod.snd (popUntil Prod.snd costToFree s.queue).2.1), s') := by
  obtain ⟨s', h', hqueue, hloop⟩ := payLoop_eq (fun _ h => Tidy.length_queue h)
    (fun _ _ _ h hqueue => Tidy.turn_eq h hqueue) h le_rfl costToFree 0
  rw [UInt64.zero_add] at hloop
  exact ⟨s', h', hqueue, hloop⟩

theorem Tidy.evictLoop_steady (h : s.Tidy) {fuel : ℕ} (hfuel : s.order.length ≤ fuel)
    (costToFree : UInt64) :
    evictLoop fuel costToFree s = evictLoop s.order.length costToFree s :=
  payLoop_steady (fun _ ht => Tidy.length_queue ht)
    (fun _ _ _ ht _ hqueue => Tidy.turn_eq ht hqueue) (fun _ _ _ => rfl) h le_rfl le_rfl hfuel
    costToFree 0

/-! ### What each call records -/

theorem costs_onAccess (s : Clock K) (key k : K) : (s.onAccess key).costs k = s.costs k := by
  unfold onAccess
  split
  · rfl
  · next e he =>
    unfold costs
    rcases eq_or_ne k key with rfl | hne
    · simp [he]
    · simp [update_of_ne hne]

theorem costs_onAdmit (s : Clock K) (key : K) (cost : UInt64) :
    (∀ k, (s.onAdmit key cost).costs k = if k = key then some cost else s.costs k) ∨
      (s.costs key).isSome = true ∧ ∀ k, (s.onAdmit key cost).costs k = s.costs k := by
  unfold onAdmit
  split_ifs with hsome
  · refine .inr ⟨?_, fun _ => rfl⟩
    rw [costs, isSome_map, hsome]
  · left
    intro k
    unfold costs
    split_ifs with heq
    · simp [heq]
    · simp [update_of_ne heq]

theorem costs_onRemove (s : Clock K) (key k : K) :
    (s.onRemove key).costs k = if k = key then none else s.costs k := by
  have hitems : (update s.items key none k).map ClockEntry.cost =
      if k = key then none else s.costs k := by
    rcases eq_or_ne k key with rfl | hne
    · simp
    · rw [update_of_ne hne, if_neg hne]
      rfl
  by_cases hsome : (s.items key).isSome
  · rw [onRemove, if_pos hsome, ← hitems]
    simp only
    split_ifs <;> rfl
  · rw [onRemove, if_neg hsome, ← hitems]
    have hnone : s.items key = none := by simpa using hsome
    rcases eq_or_ne k key with rfl | hne
    · simp [costs, hnone]
    · rw [update_of_ne hne]
      rfl

instance : QueuedPolicy (Clock K) K where
  Tidy := Tidy
  costs := costs
  queue := queue
  updatesCost := false
  recordsReads := false
  evictLoops := evictLoop
  turns s := s.order.length
  nodup h := h.costOf_queue.1.nodup_iff.mpr h.nodup
  costs_eq h := h.costOf_queue.2
  onAccess {s} key _ h := ⟨h.onAccess key, fun k => .inl (costs_onAccess s key k)⟩
  onAdmit {s} key cost h :=
    ⟨rfl, h.onAdmit key cost, (costs_onAdmit s key cost).imp_right fun hkept => ⟨rfl, hkept⟩⟩
  onRemove {s} key h := ⟨h.onRemove key, costs_onRemove s key⟩
  clear _ := ⟨Tidy.new, fun _ => rfl⟩
  evict_eq _ _ := rfl
  steady c h hfuel := h.evictLoop_steady hfuel c
  evict {s} c h := by
    obtain ⟨s', h', hrest, hloop⟩ := h.evictLoop_eq c
    exact ⟨_, s', h', by rw [hrest, popUntil_append], hloop, fun _ => rfl⟩

/-! ### The removal of a key -/

/-- The place of a key is the hand's, which is not the first, and two more keys are there. -/
def Skips (s : Clock K) (key : K) : Prop :=
  s.order.idxOf key = s.hand ∧ 0 < s.hand ∧ 3 ≤ s.order.length

instance (s : Clock K) (key : K) : Decidable (s.Skips key) :=
  inferInstanceAs (Decidable (_ ∧ _ ∧ _))

theorem Tidy.onRemove_eq (h : s.Tidy) (hk : (s.items k).isSome = true) :
    (s.onRemove k).order = s.order.erase k ∧ (s.onRemove k).hand =
      if s.order.idxOf k ≤ s.hand ∧ 0 < s.hand then s.hand - 1 else s.hand := by
  have hmem := (h.mem_iff k).mpr hk
  rw [Clock.onRemove, if_pos hk]
  simp only [hmem, if_true, eraseIdx_idxOf_eq_erase]
  exact ⟨trivial, trivial⟩

omit [DecidableEq K] in
/-- What goes from the front to the end is seen, unless it is alone. -/
theorem cons_eq_concat_iff {p : K} {l : List K} (hp : p ∉ l) : p :: l = l ++ [p] ↔ l = [] := by
  constructor
  · intro heq
    cases l with
    | nil => rfl
    | cons a l =>
      obtain ⟨rfl, -⟩ := List.cons.inj heq
      exact absurd mem_cons_self hp
  · rintro rfl
    rfl

/-- A removal leaves the others in the order in which the hand would come to them, unless the
hand is at the key and has others behind it. It then goes back to the one just passed. -/
theorem visits_onRemove_iff (calls : List (PolicyCall K)) (k : K) :
    let s := CachePolicy.run (Clock.new : Clock K) calls
    (s.items k).isSome = true → ((s.onRemove k).visits = s.visits.erase k ↔ ¬ s.Skips k) := by
  intro s hk
  have h : s.Tidy := QueuedPolicy.run_tidy (s := (Clock.new : Clock K)) Tidy.new calls
  obtain ⟨horder, hhand⟩ := h.onRemove_eq hk
  obtain ⟨A, B, ho, hA⟩ := h.split
  have hnodup := h.nodup
  have hmem := (h.mem_iff k).mpr hk
  rw [ho] at hnodup hmem
  obtain ⟨-, -, hdisj⟩ := List.nodup_append.mp hnodup
  rw [visits_eq ho hA]
  by_cases hin : k ∈ A
  · -- before the hand, which goes back with the keys
    have hout : k ∉ B := fun hB => hdisj k hin k hB rfl
    have hidx : s.order.idxOf k < s.hand := by
      rw [ho, hA, List.idxOf_append_of_mem hin]
      exact List.idxOf_lt_length_of_mem hin
    have hlen := List.length_erase_of_mem hin
    rw [ho, List.erase_append_left _ hin] at horder
    rw [if_pos ⟨hidx.le, by omega⟩] at hhand
    rw [visits_eq horder (by omega), List.erase_append_right _ hout]
    simp only [true_iff]
    intro hskip
    exact absurd hskip.1 hidx.ne
  · have hinB : k ∈ B := (List.mem_append.mp hmem).resolve_left hin
    rw [ho, List.erase_append_right _ hin] at horder
    cases B with
    | nil => cases hinB
    | cons b B =>
      have hidx : s.order.idxOf k = s.hand + (b :: B).idxOf k := by
        rw [ho, hA, List.idxOf_append_of_notMem hin]
      by_cases hb : b = k
      · -- under the hand
        subst hb
        have hat : s.order.idxOf b = s.hand := by
          rw [hidx, List.idxOf_cons_self, Nat.add_zero]
        rw [List.erase_cons_head] at horder
        rw [List.cons_append, List.erase_cons_head]
        rcases A.eq_nil_or_concat with rfl | ⟨A, p, rfl⟩
        · rw [if_neg fun hcond => by simp [hA] at hcond] at hhand
          rw [visits_eq horder (hhand.trans hA)]
          simp [Skips, hA]
        · rw [List.concat_eq_append] at *
          have hpos : 0 < s.hand := by simp [hA]
          rw [if_pos ⟨hat.le, hpos⟩] at hhand
          have hback : (s.onRemove b).hand = A.length := by
            rw [hhand, hA, List.length_append, List.length_singleton, Nat.add_sub_cancel]
          have hp : p ∉ B ++ A := by
            have hndA := hnodup.of_append_left
            rw [List.nodup_append] at hndA
            intro hmem
            rcases List.mem_append.mp hmem with hB | hA
            · exact hdisj p (by simp) p (List.mem_cons_of_mem b hB) rfl
            · exact hndA.2.2 p hA p (List.mem_singleton.mpr rfl) rfl
          have hthree : 3 ≤ s.order.length ↔ B ++ A ≠ [] := by
            rw [ho, ← List.length_pos_iff]
            simp only [List.length_append, List.length_cons, List.length_nil]
            omega
          rw [visits_eq (by simpa using horder) hback, Skips, hthree, List.cons_append,
            ← List.append_assoc, cons_eq_concat_iff hp]
          simp [hat, hpos]
      · -- after the hand
        have hinB' : k ∈ B := (List.mem_cons.mp hinB).resolve_left (Ne.symm hb)
        have hlt : s.hand < s.order.idxOf k := by
          rw [hidx, List.idxOf_cons_ne _ hb]
          omega
        rw [if_neg fun hcond => absurd hcond.1 (by omega)] at hhand
        rw [visits_eq horder (hhand.trans hA), List.erase_append_left _ hinB]
        simp only [true_iff]
        intro hskip
        exact absurd hskip.1 hlt.ne'

theorem visits_onRemove_first :
    let s := CachePolicy.run (Clock.new : Clock ℕ) [.onAdmit 1 1, .onAdmit 2 1, .onAdmit 3 1]
    (s.onRemove 1).visits = s.visits.erase 1 ↔ ¬ s.Skips 1 :=
  visits_onRemove_iff [.onAdmit 1 1, .onAdmit 2 1, .onAdmit 3 1] 1 (by decide)

/-- Of 1, 3 and 4 the hand is at 3, having passed 1. With 3 removed it comes to 1 again, before
4. -/
theorem visits_onRemove_skips :
    let s := CachePolicy.run (Clock.new : Clock ℕ)
      [.onAdmit 1 1, .onAdmit 2 1, .onAdmit 3 1, .onAccess 1 1, .evict 1, .onAdmit 4 1]
    (s.items 3).isSome = true ∧ s.visits.erase 3 = [4, 1] ∧ (s.onRemove 3).visits = [1, 4] := by
  decide

end Clock

end Fibre.Cache
