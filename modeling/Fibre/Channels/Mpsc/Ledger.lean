import Fibre.Channels.Mpsc.Table

/-!
# What was accepted, and what was received

A value is accepted when the ticket it is for was found to be in the window. The ledger lists the
accepted values, with their tickets and the producers that sent them, in the order they were
accepted in.

The invariant ties the parties to the table: the tickets that are claimed and not resolved are each
held by one producer, which has their values, and the consumer has what was accepted for the tickets
it has drained.
-/

namespace Fibre.Channels.Mpsc

open Machine Function List

variable {T : Type*} {shape : Shape}

/-- A value that was accepted. -/
structure Entry (T : Type*) where
  producer : ℕ
  ticket : ℕ
  item : T

def valueIn (accepted : List (Entry T)) (t : ℕ) : Option T :=
  (accepted.find? fun e => e.ticket = t).map Entry.item

/-- The values among what goes into the slots. -/
def entriesOf (p : ℕ) (todo : List (ℕ × Option T)) : List (Entry T) :=
  todo.filterMap fun w => w.2.map fun v => ⟨p, w.1, v⟩

/-- The tickets of a claim that have no filled slot yet. -/
def Producer.holds (pc : Producer T) (t : ℕ) : Prop :=
  match pc with
  | .credit _ _ t₀ k => t₀ ≤ t ∧ t < t₀ + k
  | .resident w | .retired w _ | .install w _ | .write w => t ∈ w.todo.map Prod.fst
  | _ => False

/-- The tickets that are claimed and not resolved. -/
def System.held (s : System T) : Set ℕ := {t | ∃ p, (s.producer p).holds t}

/-- The channel, and what was accepted. -/
structure Ledger (T : Type*) where
  system : System T
  accepted : List (Entry T)

/-- What the producer `p` accepts in its next access. -/
def System.accepts (shape : Shape) (s : System T) (p : ℕ) : List (Entry T) :=
  match s.producer p with
  | .credit m c t k =>
    entriesOf p (c.writes t k (Shared.valid shape c t k (s.shared.counter m)))
  | _ => []

namespace Ledger

/-- A new channel. -/
def init (shape : Shape) (publishChunk : ℕ) : Ledger T := ⟨.init shape publishChunk, []⟩

def step (shape : Shape) (l : Ledger T) (a : Action T) : Option (Ledger T) :=
  (l.system.step shape a).map fun t => {
    system := t
    accepted := l.accepted ++
      match a with
      | .producer p => l.system.accepts shape p
      | _ => [] }

end Ledger

/-! ### Values of tickets -/

theorem valueIn_append (a b : List (Entry T)) (t : ℕ) :
    valueIn (a ++ b) t = (valueIn a t).or (valueIn b t) := by
  simp only [valueIn, List.find?_append]
  cases a.find? fun e => e.ticket = t <;> rfl

theorem exists_of_valueIn {accepted : List (Entry T)} {t : ℕ} {v : T}
    (h : valueIn accepted t = some v) : ∃ e ∈ accepted, e.ticket = t ∧ e.item = v := by
  obtain ⟨e, he, rfl⟩ := Option.map_eq_some_iff.mp h
  exact ⟨e, mem_of_find?_eq_some he, by simpa using List.find?_some he, rfl⟩

theorem valueIn_eq_none {accepted : List (Entry T)} {t : ℕ} :
    valueIn accepted t = none ↔ ∀ e ∈ accepted, e.ticket ≠ t := by
  simp [valueIn]

theorem valueIn_of_mem {accepted : List (Entry T)} (h : (accepted.map Entry.ticket).Nodup)
    {e : Entry T} (he : e ∈ accepted) : valueIn accepted e.ticket = some e.item := by
  cases hv : valueIn accepted e.ticket with
  | none =>
    rw [valueIn_eq_none] at hv
    exact absurd rfl (hv e he)
  | some v =>
    obtain ⟨e', he', hticket, rfl⟩ := exists_of_valueIn hv
    rw [inj_on_of_nodup_map h he' he hticket]

theorem map_fst_writes (c : Call T) (t k valid : ℕ) :
    (c.writes t k valid).map Prod.fst = (List.range k).map (t + ·) := by
  simp [Call.writes]

theorem mem_map_fst_writes {c : Call T} {t k valid u : ℕ} :
    u ∈ (c.writes t k valid).map Prod.fst ↔ t ≤ u ∧ u < t + k := by
  rw [map_fst_writes, mem_map]
  constructor
  · rintro ⟨j, hj, rfl⟩
    rw [mem_range] at hj
    omega
  · rintro ⟨hle, hlt⟩
    exact ⟨u - t, mem_range.mpr (by omega), by omega⟩

theorem pairwise_writes (c : Call T) (t k valid : ℕ) :
    ((c.writes t k valid).map Prod.fst).Pairwise (· < ·) := by
  rw [map_fst_writes, pairwise_map]
  exact pairwise_lt_range.imp fun h => Nat.add_lt_add_left h t

theorem lt_of_mem_writes {c : Call T} {t k valid u : ℕ} {v : T}
    (h : (u, some v) ∈ c.writes t k valid) : u < t + valid := by
  obtain ⟨j, -, hj⟩ := mem_map.mp h
  obtain ⟨rfl, hv⟩ := Prod.mk.inj hj
  split at hv
  · omega
  · cases hv

section Entries

variable {p : ℕ} {todo : List (ℕ × Option T)}

theorem mem_entriesOf {e : Entry T} :
    e ∈ entriesOf p todo ↔ e.producer = p ∧ (e.ticket, some e.item) ∈ todo := by
  simp only [entriesOf, mem_filterMap, Option.map_eq_some_iff]
  constructor
  · rintro ⟨⟨t, v⟩, hw, v', rfl, rfl⟩
    exact ⟨rfl, hw⟩
  · rintro ⟨rfl, hw⟩
    exact ⟨_, hw, _, rfl, rfl⟩

theorem sublist_entriesOf (p : ℕ) (todo : List (ℕ × Option T)) :
    ((entriesOf p todo).map Entry.ticket).Sublist (todo.map Prod.fst) := by
  induction todo with
  | nil => exact Sublist.slnil
  | cons w ws ih =>
    obtain ⟨t, v⟩ := w
    cases v with
    | none => exact ih.cons t
    | some v => exact ih.cons_cons t

theorem valueIn_entriesOf (h : (todo.map Prod.fst).Nodup) {w : ℕ × Option T} (hw : w ∈ todo) :
    valueIn (entriesOf p todo) w.1 = w.2 := by
  have hnodup := (sublist_entriesOf p todo).nodup h
  cases hv : w.2 with
  | none =>
    rw [valueIn_eq_none]
    intro e he hticket
    obtain ⟨-, hmem⟩ := mem_entriesOf.mp he
    have heq := inj_on_of_nodup_map h hmem hw hticket
    rw [← heq] at hv
    cases hv
  | some v =>
    have hmem : (⟨p, w.1, v⟩ : Entry T) ∈ entriesOf p todo :=
      mem_entriesOf.mpr ⟨rfl, by rw [← hv]; exact hw⟩
    exact valueIn_of_mem hnodup hmem

theorem valueIn_entriesOf_of_notMem {t : ℕ} (h : t ∉ todo.map Prod.fst) :
    valueIn (entriesOf p todo) t = none := by
  rw [valueIn_eq_none]
  rintro e he rfl
  exact h (mem_map_of_mem (f := Prod.fst) (mem_entriesOf.mp he).2)

end Entries

/-! ### What the parties know -/

/-- The values of the tickets that are to be resolved. -/
structure Writes.Knows (w : Writes T) (accepted : List (Entry T)) : Prop where
  values : ∀ e ∈ w.todo, valueIn accepted e.1 = e.2
  nodup : (w.todo.map Prod.fst).Nodup

def Producer.Knows (shape : Shape) (s : Shared T) (accepted : List (Entry T)) (p : ℕ) :
    Producer T → Prop
  | .publish _ d => d ≤ s.head.pos
  | .runCap _ c => c.batch
  -- a single item gets one ticket
  | .gate _ c r | .window _ c r _ => c.batch = false → r ≤ 1
  | .claim _ c k => c.batch = false → k ≤ 1
  | .credit _ c t k => (c.batch = false → k ≤ 1) ∧
      (∀ e ∈ accepted, e.producer = p → e.ticket < t) ∧
      ∀ u, t ≤ u → u < t + k → valueIn accepted u = none
  | .resident w | .retired w _ => w.Knows accepted
  | .install w cur => w.Knows accepted ∧ cur < s.consumerRetired
  -- it has the chunk for the tickets of the segment
  | .write w => w.Knows accepted ∧ 0 < w.segment ∧
      ∀ e ∈ w.todo.take w.segment, s.Resident shape e.1
  | _ => True

def Consumer.Knows (shape : Shape) (s : Shared T) : Consumer T → Prop
  | .load _ => s.id (shape.place s.head.cid) = s.head.cid ∧ s.head.idx < shape.chunkCap
  | .drain _ => (s.id (shape.place s.head.cid) = s.head.cid ∧ s.head.idx < shape.chunkCap) ∧
      s.front shape ≠ .empty
  | .retire _ => s.head.idx = shape.chunkCap
  | _ => True

/-- What holds in every state. -/
structure Ledger.Inv (shape : Shape) (l : Ledger T) : Prop where
  table : l.system.shared.Table shape l.system.held (valueIn l.accepted)
  /-- a ticket is held by one producer -/
  alone : ∀ p q t, (l.system.producer p).holds t → (l.system.producer q).holds t → p = q
  knows : ∀ p, (l.system.producer p).Knows shape l.system.shared l.accepted p
  consumer : l.system.consumer.Knows shape l.system.shared
  progress_le : l.system.shared.progress ≤ l.system.shared.head.pos
  drained_le : l.system.shared.drained ≤ l.system.shared.head.pos
  nodup : (l.accepted.map Entry.ticket).Nodup
  /-- the tickets of one producer are in the order of its sends -/
  ordered : ∀ p, ((l.accepted.filter fun e => e.producer = p).map Entry.ticket).Pairwise (· < ·)
  received : l.system.received =
    (List.range l.system.shared.head.pos).filterMap (valueIn l.accepted)
  within : l.system.shared.gTail < 2 ^ 64 → ∀ e ∈ l.accepted,
    e.ticket < l.system.shared.head.pos + shape.cap

/-! ### One producer moves -/

namespace Producer

variable {s u : Shared T} {accepted accepted' : List (Entry T)} {p : ℕ} {pc : Producer T}

theorem Knows.mono (h : pc.Knows shape s accepted p) (hpos : s.head.pos ≤ u.head.pos)
    (hretired : s.consumerRetired ≤ u.consumerRetired)
    (hres : ∀ t, pc.holds t → s.Resident shape t → u.Resident shape t)
    (hvalue : ∀ t, pc.holds t → valueIn accepted' t = valueIn accepted t)
    (hown : ∀ e ∈ accepted', e.producer = p → e ∈ accepted) :
    pc.Knows shape u accepted' p := by
  have hwrites : ∀ w : Writes T, (∀ t, t ∈ w.todo.map Prod.fst →
      valueIn accepted' t = valueIn accepted t) → w.Knows accepted → w.Knows accepted' :=
    fun w hw hk => ⟨fun e he => (hw e.1 (mem_map_of_mem he)).trans (hk.values e he), hk.nodup⟩
  cases pc with
  | publish c d => exact le_trans (show d ≤ s.head.pos from h) hpos
  | credit m c t k =>
    refine ⟨h.1, fun e he hep => h.2.1 e (hown e he hep) hep, fun v hle hlt => ?_⟩
    rw [hvalue v ⟨hle, hlt⟩]
    exact h.2.2 v hle hlt
  | resident w => exact hwrites w hvalue h
  | retired w cur => exact hwrites w hvalue h
  | install w cur => exact ⟨hwrites w hvalue h.1, lt_of_lt_of_le h.2 hretired⟩
  | write w =>
    refine ⟨hwrites w hvalue h.1, h.2.1, fun e he => hres e.1 ?_ (h.2.2 e he)⟩
    exact mem_map_of_mem (mem_of_mem_take he)
  | runCap m c | gate m c r | window m c r g | claim m c k => exact h
  | _ => trivial

end Producer

theorem Consumer.Knows.congr {s u : Shared T} {k : Consumer T} (h : k.Knows shape s)
    (hid : u.id = s.id) (hslots : u.slots = s.slots) (hhead : u.head = s.head) :
    k.Knows shape u := by
  cases k with
  | load d =>
    rw [Consumer.Knows, hid, hhead]
    exact h
  | drain d =>
    rw [Consumer.Knows, Shared.front, hid, hslots, hhead]
    exact h
  | retire d =>
    rw [Consumer.Knows, hhead]
    exact h
  | _ => trivial

namespace System

variable {s : System T} {p : ℕ} {pc : Producer T} {u : Shared T}

def moved (s : System T) (p : ℕ) (pc : Producer T) (u : Shared T) : System T :=
  { s.setProducer p pc with shared := u }

theorem producer_moved_self : (s.moved p pc u).producer p = pc := by
  simp [moved, setProducer]

theorem producer_moved_of_ne {q : ℕ} (h : q ≠ p) :
    (s.moved p pc u).producer q = s.producer q := by
  simp [moved, setProducer, h]

theorem mem_held_moved {t : ℕ} : t ∈ (s.moved p pc u).held ↔
    pc.holds t ∨ ∃ q, q ≠ p ∧ (s.producer q).holds t := by
  constructor
  · rintro ⟨q, hq⟩
    by_cases hqp : q = p
    · subst hqp
      rw [producer_moved_self] at hq
      exact Or.inl hq
    · rw [producer_moved_of_ne hqp] at hq
      exact Or.inr ⟨q, hqp, hq⟩
  · rintro (hp | ⟨q, hqp, hq⟩)
    · refine ⟨p, ?_⟩
      rwa [producer_moved_self]
    · refine ⟨q, ?_⟩
      rwa [producer_moved_of_ne hqp]

theorem held_moved (h : ∀ t, pc.holds t ↔ (s.producer p).holds t) :
    (s.moved p pc u).held = s.held := by
  ext t
  rw [mem_held_moved, h]
  constructor
  · rintro (hp | ⟨q, -, hq⟩)
    · exact ⟨p, hp⟩
    · exact ⟨q, hq⟩
  · rintro ⟨q, hq⟩
    by_cases hqp : q = p
    · exact Or.inl (hqp ▸ hq)
    · exact Or.inr ⟨q, hqp, hq⟩

end System

namespace Ledger

variable {l l' : Ledger T} {p : ℕ} {pc : Producer T} {u : Shared T}

namespace Inv

theorem alone_moved (h : l.Inv shape)
    (hholds : ∀ t, pc.holds t → (l.system.producer p).holds t ∨ l.system.shared.gTail ≤ t) :
    ∀ q r t, ((l.system.moved p pc u).producer q).holds t →
      ((l.system.moved p pc u).producer r).holds t → q = r := by
  have hother : ∀ q t, q ≠ p → (l.system.producer q).holds t → ¬ pc.holds t := by
    intro q t hqp hq hpc
    rcases hholds t hpc with hp | hge
    · exact hqp (h.alone q p t hq hp)
    · exact absurd (h.table.held_lt t ⟨q, hq⟩) (not_lt.mpr hge)
  intro q r t hq hr
  by_cases hqp : q = p <;> by_cases hrp : r = p
  · rw [hqp, hrp]
  · rw [hqp, System.producer_moved_self] at hq
    rw [System.producer_moved_of_ne hrp] at hr
    exact absurd hq (hother r t hrp hr)
  · rw [hrp, System.producer_moved_self] at hr
    rw [System.producer_moved_of_ne hqp] at hq
    exact absurd hr (hother q t hqp hq)
  · rw [System.producer_moved_of_ne hqp] at hq
    rw [System.producer_moved_of_ne hrp] at hr
    exact h.alone q r t hq hr

theorem knows_moved {accepted : List (Entry T)} (hpc : pc.Knows shape u accepted p)
    (hother : ∀ q, q ≠ p → (l.system.producer q).Knows shape u accepted q) :
    ∀ q, ((l.system.moved p pc u).producer q).Knows shape u accepted q := by
  intro q
  by_cases hqp : q = p
  · rw [hqp, System.producer_moved_self]
    exact hpc
  · rw [System.producer_moved_of_ne hqp]
    exact hother q hqp

theorem quiet (h : l.Inv shape) {x : ℕ} (hx : x ≤ l.system.shared.head.pos)
    (hholds : ∀ t, pc.holds t ↔ (l.system.producer p).holds t)
    (hpc : pc.Knows shape l.system.shared l.accepted p) :
    Inv shape ⟨l.system.moved p pc { l.system.shared with progress := x }, l.accepted⟩ where
  table := by
    rw [System.held_moved hholds]
    exact h.table.congr ⟨rfl, rfl, rfl, rfl, rfl, rfl, rfl⟩
  alone := h.alone_moved fun t ht => Or.inl ((hholds t).mp ht)
  knows := by
    refine knows_moved ?_ fun q _ => ?_
    · exact hpc.mono le_rfl le_rfl (fun _ _ hres => hres) (fun _ _ => rfl) fun _ he _ => he
    · exact (h.knows q).mono le_rfl le_rfl (fun _ _ hres => hres) (fun _ _ => rfl) fun _ he _ => he
  consumer := h.consumer.congr rfl rfl rfl
  progress_le := hx
  drained_le := h.drained_le
  nodup := h.nodup
  ordered := h.ordered
  received := h.received
  within := h.within

/-- A producer claims `k` tickets. -/
theorem claim (h : l.Inv shape) {m : Mode} {c : Call T} {k : ℕ}
    (hp : ∀ t, ¬ (l.system.producer p).holds t) (hk : c.batch = false → k ≤ 1) :
    Inv shape ⟨l.system.moved p (.credit m c l.system.shared.gTail k)
      { l.system.shared with gTail := l.system.shared.gTail + k }, l.accepted⟩ where
  table := by
    have hheld : (l.system.moved p (.credit m c l.system.shared.gTail k)
        { l.system.shared with gTail := l.system.shared.gTail + k }).held =
        l.system.held ∪ Set.Ico l.system.shared.gTail (l.system.shared.gTail + k) := by
      ext t
      rw [System.mem_held_moved]
      constructor
      · rintro (hnew | ⟨q, -, hq⟩)
        · exact Or.inr hnew
        · exact Or.inl ⟨q, hq⟩
      · rintro (⟨q, hq⟩ | hnew)
        · refine Or.inr ⟨q, ?_, hq⟩
          rintro rfl
          exact hp t hq
        · exact Or.inl hnew
    rw [hheld]
    exact h.table.claim k
  alone := h.alone_moved fun t ht => Or.inr ht.1
  knows := by
    refine knows_moved ⟨hk, fun e he _ => ?_, fun t hle _ => ?_⟩ fun q _ => ?_
    · exact h.table.value_lt _ _ (valueIn_of_mem h.nodup he)
    · cases hv : valueIn l.accepted t with
      | none => rfl
      | some v => exact absurd (h.table.value_lt t v hv) (not_lt.mpr hle)
    · exact (h.knows q).mono le_rfl le_rfl (fun _ _ hres => hres) (fun _ _ => rfl) fun _ he _ => he
  consumer := h.consumer.congr rfl rfl rfl
  progress_le := h.progress_le
  drained_le := h.drained_le
  nodup := h.nodup
  ordered := h.ordered
  received := h.received
  within hlt := h.within ((Nat.le_add_right _ _).trans_lt hlt)

theorem credit (h : l.Inv shape) {m : Mode} {c : Call T} {t k valid : ℕ} {w : Writes T}
    (hp : l.system.producer p = .credit m c t k) (hw : w.todo = c.writes t k valid)
    (hvalid : l.system.shared.gTail < 2 ^ 64 →
      ∀ v, v < valid → v < k → t + v < l.system.shared.head.pos + shape.cap) :
    Inv shape ⟨l.system.moved p (.resident w) l.system.shared,
      l.accepted ++ entriesOf p (c.writes t k valid)⟩ := by
  have hknows := h.knows p
  rw [hp] at hknows
  obtain ⟨-, hlatest, hnone⟩ := hknows
  have hholds : ∀ u, (Producer.resident w).holds u ↔ (l.system.producer p).holds u := by
    intro u
    rw [hp]
    show u ∈ w.todo.map Prod.fst ↔ _
    rw [hw, mem_map_fst_writes]
    rfl
  have hheld : ∀ u, (l.system.producer p).holds u ↔ u ∈ (c.writes t k valid).map Prod.fst := by
    intro u
    rw [← hholds, ← hw]
    rfl
  have hnodup : ((c.writes t k valid).map Prod.fst).Nodup :=
    (pairwise_writes c t k valid).imp ne_of_lt
  have hout : ∀ u, u ∉ (c.writes t k valid).map Prod.fst →
      valueIn (l.accepted ++ entriesOf p (c.writes t k valid)) u = valueIn l.accepted u := by
    intro u hu
    rw [valueIn_append, valueIn_entriesOf_of_notMem hu, Option.or_none]
  have hin : ∀ e ∈ c.writes t k valid,
      valueIn (l.accepted ++ entriesOf p (c.writes t k valid)) e.1 = e.2 := by
    intro e he
    obtain ⟨hle, hlt⟩ := mem_map_fst_writes.mp (mem_map_of_mem (f := Prod.fst) he)
    rw [valueIn_append, hnone e.1 hle hlt, Option.none_or, valueIn_entriesOf hnodup he]
  have hnew : ∀ e ∈ entriesOf p (c.writes t k valid),
      e.producer = p ∧ t ≤ e.ticket ∧ e.ticket < t + k ∧ e.ticket < t + valid := by
    intro e he
    obtain ⟨hep, hmem⟩ := mem_entriesOf.mp he
    obtain ⟨hle, hlt⟩ := mem_map_fst_writes.mp (mem_map_of_mem (f := Prod.fst) hmem)
    exact ⟨hep, hle, hlt, lt_of_mem_writes hmem⟩
  exact {
    table := by
      rw [System.held_moved hholds]
      refine h.table.credit fun u hu => hout u fun hmem => hu ⟨p, (hheld u).mpr hmem⟩
    alone := h.alone_moved fun u hu => Or.inl ((hholds u).mp hu)
    knows := by
      refine knows_moved ?_ fun q hqp => ?_
      · exact ⟨fun e he => hin e (hw ▸ he), hw ▸ hnodup⟩
      · refine (h.knows q).mono le_rfl le_rfl (fun _ _ hres => hres) (fun u hu => ?_) ?_
        · exact hout u fun hmem => hqp (h.alone q p u hu ((hheld u).mpr hmem))
        · intro e he heq
          rcases mem_append.mp he with hold | hmem
          · exact hold
          · exact absurd (heq.symm.trans (hnew e hmem).1) hqp
    consumer := h.consumer
    progress_le := h.progress_le
    drained_le := h.drained_le
    nodup := by
      rw [map_append, nodup_append']
      refine ⟨h.nodup, (sublist_entriesOf p _).nodup hnodup, ?_⟩
      rw [disjoint_left]
      intro u hold hmem
      obtain ⟨e, he, rfl⟩ := mem_map.mp hold
      obtain ⟨e', he', heq⟩ := mem_map.mp hmem
      obtain ⟨-, hle, hlt, -⟩ := hnew e' he'
      have hzero := hnone e.ticket (heq ▸ hle) (heq ▸ hlt)
      rw [valueIn_of_mem h.nodup he] at hzero
      cases hzero
    ordered := by
      intro q
      rw [filter_append, map_append, pairwise_append]
      refine ⟨h.ordered q, ?_, ?_⟩
      · refine Pairwise.sublist (Sublist.trans ?_ (sublist_entriesOf p _))
          (pairwise_writes c t k valid)
        exact filter_sublist.map _
      · intro u hu v hv
        obtain ⟨e, he, rfl⟩ := mem_map.mp hu
        obtain ⟨e', he', rfl⟩ := mem_map.mp hv
        obtain ⟨hold, heq⟩ := mem_filter.mp he
        obtain ⟨hmem, heq'⟩ := mem_filter.mp he'
        simp only [decide_eq_true_eq] at heq heq'
        obtain ⟨hep, hle, -⟩ := hnew e' hmem
        exact (hlatest e hold (heq.trans (heq'.symm.trans hep))).trans_le hle
    received := by
      refine h.received.trans (filterMap_congr fun u hu => (hout u fun hmem => ?_).symm)
      have hge := h.table.held_ge u ⟨p, (hheld u).mpr hmem⟩
      exact absurd (mem_range.mp hu) (not_lt.mpr hge)
    within := by
      intro hlt e he
      rcases mem_append.mp he with hold | hmem
      · exact h.within hlt e hold
      · obtain ⟨-, hle, hk, hv⟩ := hnew e hmem
        have := hvalid hlt (e.ticket - t) (by omega) (by omega)
        show e.ticket < l.system.shared.head.pos + shape.cap
        omega }

theorem install (h : l.Inv shape) {w : Writes T} {cur : ℕ} {e : ℕ × Option T}
    (hp : l.system.producer p = .install w cur)
    (hid : l.system.shared.id (shape.place (shape.chunk e.1)) = cur) {w' : Writes T}
    (hw' : w'.todo = w.todo) (hpos : 0 < w'.segment)
    (hsegment : ∀ f ∈ w.todo.take w'.segment, shape.chunk f.1 = shape.chunk e.1) :
    Inv shape ⟨l.system.moved p (.write w') { l.system.shared with
      id := update l.system.shared.id (shape.place (shape.chunk e.1))
        (shape.chunk e.1) }, l.accepted⟩ := by
  have hknows := h.knows p
  rw [hp] at hknows
  obtain ⟨hvalues, hcur⟩ := hknows
  have hholds : ∀ t, (Producer.write w').holds t ↔ (l.system.producer p).holds t := by
    intro t
    rw [hp]
    show t ∈ w'.todo.map Prod.fst ↔ t ∈ w.todo.map Prod.fst
    rw [hw']
  -- a chunk with a ticket that is not drained is not the one that is replaced
  have hres : ∀ i, i ≠ shape.place (shape.chunk e.1) ∨ ¬ l.system.shared.id i = cur →
      update l.system.shared.id (shape.place (shape.chunk e.1)) (shape.chunk e.1) i =
        l.system.shared.id i := by
    intro i hi
    have hne : i ≠ shape.place (shape.chunk e.1) := by
      rintro rfl
      rcases hi with hi | hi
      · exact hi rfl
      · exact hi hid
    exact update_of_ne hne _ _
  exact {
    table := by
      rw [System.held_moved hholds]
      exact h.table.install hcur hid
    alone := h.alone_moved fun t ht => Or.inl ((hholds t).mp ht)
    knows := by
      refine knows_moved ⟨⟨?_, ?_⟩, hpos, fun f hf => ?_⟩ fun q _ => ?_
      · rw [hw']
        exact hvalues.values
      · rw [hw']
        exact hvalues.nodup
      · rw [hw'] at hf
        show update l.system.shared.id _ _ _ = _
        rw [hsegment f hf, update_self]
      · refine (h.knows q).mono le_rfl le_rfl (fun t ht hold => ?_) (fun _ _ => rfl)
          fun _ he _ => he
        show update l.system.shared.id _ _ _ = _
        rw [hres _ (Or.inr ?_)]
        · exact hold
        · intro heq
          have hle := h.table.retired_le_chunk (h.table.held_ge t ⟨q, ht⟩)
          rw [show l.system.shared.id _ = shape.chunk t from hold] at heq
          omega
    consumer := by
      have hk := h.consumer
      have hplace : l.system.shared.id (shape.place l.system.shared.head.cid) =
            l.system.shared.head.cid →
          update l.system.shared.id (shape.place (shape.chunk e.1)) (shape.chunk e.1)
            (shape.place l.system.shared.head.cid) = l.system.shared.head.cid := by
        intro heq
        rw [hres _ (Or.inr ?_)]
        · exact heq
        · rw [heq, ← h.table.retired]
          omega
      show l.system.consumer.Knows shape _
      cases hc : l.system.consumer with
      | load d =>
        rw [hc] at hk
        exact ⟨hplace hk.1, hk.2⟩
      | drain d =>
        rw [hc] at hk
        exact ⟨⟨hplace hk.1.1, hk.1.2⟩, hk.2⟩
      | retire d =>
        rw [hc] at hk
        exact hk
      | _ => trivial
    progress_le := h.progress_le
    drained_le := h.drained_le
    nodup := h.nodup
    ordered := h.ordered
    received := h.received
    within := h.within }

theorem fill (h : l.Inv shape) {w w' : Writes T} {e : ℕ × Option T}
    {rest : List (ℕ × Option T)} (hp : l.system.producer p = .write w) (hw : w.todo = e :: rest)
    (hw' : w'.todo = rest)
    (hpc : pc = .resident w' ∨ pc = .write w' ∧ 0 < w'.segment ∧ w'.segment < w.segment) :
    Inv shape ⟨l.system.moved p pc (l.system.shared.setSlot (shape.place (shape.chunk e.1))
      (shape.idx e.1) (slotOf e.2)), l.accepted⟩ := by
  have hknows := h.knows p
  rw [hp] at hknows
  obtain ⟨hvalues, hpos, hsegment⟩ := hknows
  rw [hw] at hsegment
  have hnodup := hvalues.nodup
  rw [hw, map_cons, nodup_cons] at hnodup
  have hold : ∀ t, (l.system.producer p).holds t ↔ t = e.1 ∨ t ∈ rest.map Prod.fst := by
    intro t
    rw [hp]
    show t ∈ w.todo.map Prod.fst ↔ _
    rw [hw, map_cons, mem_cons]
  have hnew : ∀ t, pc.holds t ↔ t ∈ rest.map Prod.fst := by
    intro t
    rw [← hw']
    rcases hpc with rfl | ⟨rfl, -⟩ <;> rfl
  have hresident : l.system.shared.Resident shape e.1 :=
    hsegment e (by
      obtain ⟨n, hn⟩ := Nat.exists_eq_add_one_of_ne_zero hpos.ne'
      rw [hn]
      exact mem_cons_self)
  have hmem : e.1 ∈ l.system.held := ⟨p, (hold e.1).mpr (Or.inl rfl)⟩
  have hvalue : valueIn l.accepted e.1 = e.2 := hvalues.values e (hw ▸ mem_cons_self)
  have hwrites : w'.Knows l.accepted := by
    refine ⟨fun f hf => hvalues.values f ?_, ?_⟩
    · rw [hw]
      exact mem_cons_of_mem e (hw' ▸ hf)
    · rw [hw']
      exact hnodup.2
  exact {
    table := by
      have hheld : (l.system.moved p pc (l.system.shared.setSlot (shape.place (shape.chunk e.1))
          (shape.idx e.1) (slotOf e.2))).held = l.system.held \ {e.1} := by
        ext t
        rw [System.mem_held_moved, hnew]
        constructor
        · rintro (hrest | ⟨q, hqp, hq⟩)
          · refine ⟨⟨p, (hold t).mpr (Or.inr hrest)⟩, ?_⟩
            rintro rfl
            exact hnodup.1 hrest
          · refine ⟨⟨q, hq⟩, ?_⟩
            rintro rfl
            exact hqp (h.alone q p _ hq ((hold _).mpr (Or.inl rfl)))
        · rintro ⟨⟨q, hq⟩, hne⟩
          by_cases hqp : q = p
          · subst hqp
            exact Or.inl (((hold t).mp hq).resolve_left hne)
          · exact Or.inr ⟨q, hqp, hq⟩
      rw [hheld, ← hvalue]
      exact h.table.fill hmem hresident
    alone := h.alone_moved fun t ht => Or.inl ((hold t).mpr (Or.inr ((hnew t).mp ht)))
    knows := by
      refine knows_moved ?_ fun q _ => ?_
      · rcases hpc with rfl | ⟨rfl, hpos', hlt⟩
        · exact hwrites
        · refine ⟨hwrites, hpos', fun f hf => hsegment f ?_⟩
          obtain ⟨n, hn⟩ := Nat.exists_eq_add_one_of_ne_zero hpos.ne'
          rw [hn, take_succ_cons]
          rw [hw'] at hf
          exact mem_cons_of_mem e ((take_prefix_take_left (by omega)).mem hf)
      · exact (h.knows q).mono le_rfl le_rfl (fun _ _ hres => hres) (fun _ _ => rfl)
          fun _ he _ => he
    consumer := by
      have hk := h.consumer
      show l.system.consumer.Knows shape _
      cases hc : l.system.consumer with
      | drain d =>
        rw [hc] at hk
        exact ⟨hk.1, Shared.front_setSlot_ne_empty hk.2⟩
      | load d =>
        rw [hc] at hk
        exact hk
      | retire d =>
        rw [hc] at hk
        exact hk
      | _ => trivial
    progress_le := h.progress_le
    drained_le := h.drained_le
    nodup := h.nodup
    ordered := h.ordered
    received := h.received
    within := h.within }

/-! ### The consumer moves -/

theorem still (h : l.Inv shape) {t : System T} (hproducer : t.producer = l.system.producer)
    (hreceived : t.received = l.system.received)
    (hsame : Shared.SameTable l.system.shared t.shared)
    (hconsumer : t.consumer.Knows shape t.shared)
    (hprogress : t.shared.progress ≤ t.shared.head.pos)
    (hdrained : t.shared.drained ≤ t.shared.head.pos) : Inv shape ⟨t, l.accepted⟩ where
  table := by
    have hheld : t.held = l.system.held := by
      unfold System.held
      rw [hproducer]
    rw [hheld]
    exact h.table.congr hsame
  alone := by
    rw [hproducer]
    exact h.alone
  knows q := by
    dsimp only
    rw [hproducer]
    refine (h.knows q).mono hsame.pos.ge hsame.retired.ge (fun u _ hu => ?_) (fun _ _ => rfl)
      fun _ he _ => he
    rw [Shared.Resident, hsame.id]
    exact hu
  consumer := hconsumer
  progress_le := hprogress
  drained_le := hdrained
  nodup := h.nodup
  ordered := h.ordered
  received := by
    dsimp only
    rw [hreceived, hsame.pos]
    exact h.received
  within := by
    dsimp only
    rw [hsame.gTail, hsame.pos]
    exact h.within

theorem drain (h : l.Inv shape) {d : Deq T} (hc : l.system.consumer = .drain d) {k : Consumer T}
    (hk : k.Knows shape (l.system.shared.take shape)) :
    Inv shape ⟨{ l.system with
      shared := l.system.shared.take shape
      consumer := k
      received := l.system.received ++ (l.system.shared.front shape).item.toList }, l.accepted⟩ := by
  have hknows := h.consumer
  rw [hc] at hknows
  obtain ⟨⟨hres, hidx⟩, hne⟩ := hknows
  obtain ⟨-, -, hfront⟩ := h.table.front_filled hidx hres hne
  exact {
    table := h.table.take hidx hres hne
    alone := h.alone
    knows := fun q => (h.knows q).mono (Nat.le_succ _) le_rfl (fun _ _ hu => hu) (fun _ _ => rfl)
      fun _ he _ => he
    consumer := hk
    progress_le := h.progress_le.trans (Nat.le_succ _)
    drained_le := h.drained_le.trans (Nat.le_succ _)
    nodup := h.nodup
    ordered := h.ordered
    received := by
      show l.system.received ++ _ = (List.range (l.system.shared.head.pos + 1)).filterMap _
      rw [h.received, range_succ, filterMap_append, hfront, item_slotOf]
      cases hv : valueIn l.accepted l.system.shared.head.pos <;> simp [hv]
    within := fun hlt e he => (h.within hlt e he).trans_le
      (Nat.add_le_add_right (Nat.le_succ _) _) }

theorem retire (h : l.Inv shape) {d : Deq T} (hc : l.system.consumer = .retire d) {k : Consumer T}
    (hk : ∀ u : Shared T, k.Knows shape u) :
    Inv shape ⟨{ l.system with
      shared := { l.system.shared with
        consumerRetired := l.system.shared.head.cid + 1
        head := { l.system.shared.head with cid := l.system.shared.head.cid + 1, idx := 0 } }
      consumer := k }, l.accepted⟩ := by
  have hknows := h.consumer
  rw [hc] at hknows
  exact {
    table := h.table.retire hknows
    alone := h.alone
    knows := fun q => (h.knows q).mono le_rfl (by
      show l.system.shared.consumerRetired ≤ l.system.shared.head.cid + 1
      rw [h.table.retired]
      exact Nat.le_succ _) (fun _ _ hu => hu) (fun _ _ => rfl) fun _ he _ => he
    consumer := hk _
    progress_le := h.progress_le
    drained_le := h.drained_le
    nodup := h.nodup
    ordered := h.ordered
    received := h.received
    within := h.within }

theorem consume (h : l.Inv shape) {waits : Bool} {k : Consumer T} {item : Option T}
    (hs : l.system.shared.advanceConsumer shape waits l.system.consumer = some (u, k, item)) :
    Inv shape ⟨{ l.system with
      shared := u, consumer := k, received := l.system.received ++ item.toList }, l.accepted⟩ := by
  have hnext : ∀ (d : Deq T) (v : Shared T), d.next.Knows shape v := by
    intro d v
    unfold Deq.next
    split <;> trivial
  have hsame : Shared.SameTable l.system.shared l.system.shared :=
    ⟨rfl, rfl, rfl, rfl, rfl, rfl, rfl⟩
  have hnil : l.system.received ++ (none : Option T).toList = l.system.received :=
    append_nil _
  cases hc : l.system.consumer with
  | idle => simp [hc, Shared.advanceConsumer] at hs
  | look d =>
    simp only [hc, Shared.advanceConsumer] at hs
    split at hs
    · cases hs
      exact h.still rfl hnil hsame trivial h.progress_le h.drained_le
    · next hid =>
      split at hs
      · next hidx =>
        cases hs
        exact h.still rfl hnil hsame hidx h.progress_le h.drained_le
      · next hidx =>
        cases hs
        refine h.still rfl hnil hsame ?_ h.progress_le h.drained_le
        exact ⟨not_not.mp hid, lt_of_le_of_ne h.table.idx_le hidx⟩
  | retire d =>
    rw [hc] at hs
    cases hs
    rw [hnil]
    exact h.retire hc fun _ => trivial
  | load d =>
    have hknows := h.consumer
    rw [hc] at hknows
    simp only [hc, Shared.advanceConsumer] at hs
    split at hs
    · cases hs
      exact h.still rfl hnil hsame trivial h.progress_le h.drained_le
    · next hne =>
      cases hs
      exact h.still rfl hnil hsame ⟨hknows, hne⟩ h.progress_le h.drained_le
  | drain d =>
    simp only [hc, Shared.advanceConsumer, Option.some.injEq, Prod.mk.injEq] at hs
    obtain ⟨rfl, rfl, rfl⟩ := hs
    refine h.drain hc ?_
    split
    · trivial
    · exact hnext _ _
  | count d =>
    simp only [hc, Shared.advanceConsumer, Option.some.injEq, Prod.mk.injEq] at hs
    obtain ⟨rfl, rfl, rfl⟩ := hs
    refine h.still rfl hnil hsame ?_ h.progress_le h.drained_le
    split
    · trivial
    · exact hnext _ _
  | publishDrained d =>
    rw [hc] at hs
    cases hs
    exact h.still rfl hnil ⟨rfl, rfl, rfl, rfl, rfl, rfl, rfl⟩ trivial h.progress_le le_rfl
  | publishProgress d =>
    rw [hc] at hs
    cases hs
    refine h.still rfl hnil ⟨rfl, rfl, rfl, rfl, rfl, rfl, rfl⟩ ?_ le_rfl h.drained_le
    cases d with
    | none => trivial
    | some d => exact hnext d _
  | store d =>
    rw [hc] at hs
    cases hs
    refine h.still rfl hnil ⟨rfl, rfl, rfl, rfl, rfl, rfl, rfl⟩ ?_ h.progress_le le_rfl
    dsimp only
    split <;> trivial
  | tail =>
    rw [hc] at hs
    cases hs
    exact h.still rfl hnil hsame trivial h.progress_le h.drained_le
  | runCap r =>
    rw [hc] at hs
    cases hs
    exact h.still rfl hnil ⟨rfl, rfl, rfl, rfl, rfl, rfl, rfl⟩ trivial h.progress_le h.drained_le

end Inv

end Ledger

end Fibre.Channels.Mpsc
