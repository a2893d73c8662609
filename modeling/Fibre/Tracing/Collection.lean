import Fibre.Math.Machine
import Fibre.Tracing.Layer

/-!
# Spans and their traces

The layer under any number of threads. The registry calls it when a span is opened, when fields
are recorded and when a span closes, and each call is a few steps under one lock each, between
which other calls take theirs. A span is opened with an id that no open span has, under a span that
is open, and it closes after its children; the id of a closed span may be used again.

Spans are numbered in the order they are opened, so that a span keeps its number when its id is
used anew. A number stands for no span from the count on.
-/

namespace Fibre.Tracing

open Function List Option

/-- How far the call about a span has come: what its next step needs. -/
inductive Phase
  /-- `on_new_span` found the root -/
  | joining (root : UInt64)
  /-- `on_new_span` has added the span to its trace -/
  | linking (root : UInt64)
  /-- the span is open and no call that opens or closes it is under way -/
  | live
  /-- `on_close` has taken the span out of the table of roots -/
  | closing (root : UInt64)
  /-- `on_close` has taken the trace out -/
  | sweeping (held : Open)
  /-- `on_close` has taken the ids of the trace out of the table of roots -/
  | offering (held : Open)
  /-- `on_close` has called the listeners -/
  | pushing (trace : Trace)
  | closed

namespace Phase

/-- Whether the id of the span is free. -/
def isClosed : Phase → Bool
  | closed => true
  | _ => false

def isLive : Phase → Bool
  | live => true
  | _ => false

/-- Whether the span is still being opened. -/
def isOpening : Phase → Bool
  | joining _ => true
  | linking _ => true
  | _ => false

@[simp]
theorem isClosed_iff {phase : Phase} : phase.isClosed = true ↔ phase = .closed := by
  cases phase <;> simp [isClosed]

@[simp]
theorem isLive_iff {phase : Phase} : phase.isLive = true ↔ phase = .live := by
  cases phase <;> simp [isLive]

end Phase

/-- A span as the registry opened it. `parent` is the number of its parent. -/
structure Opening where
  id : UInt64
  parent : Option ℕ
  attrs : Attributes
  /-- The nearest span that is marked as a root, from this one up. -/
  root : Option ℕ

instance : Inhabited Opening := ⟨⟨0, none, ⟨"", "", .trace, []⟩, none⟩⟩

/-- A call of `on_record` that has found the root. -/
structure Recording where
  span : ℕ
  root : UInt64
  values : Fields

/-- The layer, and the spans by their numbers. `fields` are those that a span was opened with and
that were recorded for it, `offered` the traces that the listeners were called with, with the root
each is of, and `pushed` those that went to the ring. -/
structure System where
  inner : Inner
  count : ℕ
  opening : ℕ → Opening
  phase : ℕ → Phase
  fields : ℕ → Fields
  records : List Recording
  offered : List (ℕ × Trace)
  pushed : List (ℕ × Trace)

/-- One step of a call. -/
inductive Action
  | enter (id : UInt64) (parent : Option ℕ) (attrs : Attributes)
  | join (s : ℕ) (clock : Clock)
  | link (s : ℕ)
  | record (s : ℕ) (values : List (String × Value))
  | extendFields (i : ℕ)
  | close (s : ℕ)
  | closeSpan (s now : ℕ)
  | sweep (s : ℕ)
  | offer (s now : ℕ)
  | push (s : ℕ)

namespace System

/-- A layer that has seen no span. -/
def init (ring : ℕ) : System where
  inner := withRing ring
  count := 0
  opening _ := default
  phase _ := .closed
  fields _ := ∅
  records := []
  offered := []
  pushed := []

section

variable (σ : System)

def id (s : ℕ) : UInt64 := (σ.opening s).id

def parent (s : ℕ) : Option ℕ := (σ.opening s).parent

/-- The nearest root from a span up. -/
def root (s : ℕ) : Option ℕ := (σ.opening s).root

/-- Whether a span is marked as a root. -/
def isRoot (s : ℕ) : Bool := (σ.opening s).attrs.isRoot

def parentId (s : ℕ) : Option UInt64 := (σ.parent s).map σ.id

/-- A call about a span has taken a step. -/
def setPhase (s : ℕ) (phase : Phase) : System :=
  { σ with phase := update σ.phase s phase }

/-- The registry may open a span with this id under this parent. -/
def MayEnter (id : UInt64) (parent : Option ℕ) : Prop :=
  (∀ s < σ.count, σ.id s = id → (σ.phase s).isClosed = true) ∧
    ∀ p ∈ parent, (σ.phase p).isLive = true

instance (id : UInt64) (parent : Option ℕ) : Decidable (σ.MayEnter id parent) :=
  inferInstanceAs (Decidable (_ ∧ _))

/-- The registry may close a span: its children are closed, and no call records for it. -/
def MayClose (s : ℕ) : Prop :=
  (∀ t < σ.count, σ.parent t = some s → (σ.phase t).isClosed = true) ∧
    ∀ e ∈ σ.records, e.span ≠ s

instance (s : ℕ) : Decidable (σ.MayClose s) :=
  inferInstanceAs (Decidable (_ ∧ _))

/-- The registry opens a span, and `on_new_span` finds its root. A span under no root is not
collected. -/
def enter (id : UInt64) (parent : Option ℕ) (attrs : Attributes) : System :=
  let s := σ.count
  let found := σ.inner.newRoot attrs id (parent.map σ.id)
  { σ with
    count := σ.count + 1
    opening := update σ.opening s
      ⟨id, parent, attrs, if attrs.isRoot then some s else parent.bind σ.root⟩
    phase := update σ.phase s (found.elim .live .joining)
    fields := update σ.fields s (Tracing.record attrs.values) }

end

/-- One step; `none` when it cannot be taken. -/
def step (fresh : UInt64 → List UInt8) (σ : System) : Action → Option System
  | .enter id parent attrs => if σ.MayEnter id parent then some (σ.enter id parent attrs) else none
  | .join s clock =>
    match σ.phase s with
    | .joining root =>
      let r := σ.inner.join fresh (σ.opening s).attrs (σ.id s) root (σ.parentId s) clock
      some { σ.setPhase s (if r.1 then .linking root else .live) with inner := r.2 }
    | _ => none
  | .link s =>
    match σ.phase s with
    | .linking root => some { σ.setPhase s .live with inner := σ.inner.link (σ.id s) root }
    | _ => none
  | .record s values =>
    if (σ.phase s).isLive then
      match σ.inner.rootOf (σ.id s) with
      | some root => some { σ with records := σ.records ++ [⟨s, root, Tracing.record values⟩] }
      | none => some { σ with
          fields := update σ.fields s (Tracing.record values ∪ σ.fields s) }
    else none
  | .extendFields i =>
    match σ.records[i]? with
    | none => none
    | some e => some { σ with
        inner := σ.inner.extendFields (σ.id e.span) e.root e.values
        fields := update σ.fields e.span (e.values ∪ σ.fields e.span)
        records := σ.records.eraseIdx i }
  | .close s =>
    if (σ.phase s).isLive ∧ σ.MayClose s then
      some { σ.setPhase s ((σ.inner.rootOf (σ.id s)).elim .closed .closing) with
        inner := σ.inner.unlink (σ.id s) }
    else none
  | .closeSpan s now =>
    match σ.phase s with
    | .closing root =>
      let r := σ.inner.closeSpan (σ.id s) root now
      some { σ.setPhase s (r.1.elim .closed .sweeping) with inner := r.2 }
    | _ => none
  | .sweep s =>
    match σ.phase s with
    | .sweeping held =>
      some { σ.setPhase s (.offering held) with inner := σ.inner.sweep held.ids }
    | _ => none
  | .offer s now =>
    match σ.phase s with
    | .offering held =>
      some { σ.setPhase s (.pushing (held.finish now)) with
        offered := σ.offered ++ [(s, held.finish now)] }
    | _ => none
  | .push s =>
    match σ.phase s with
    | .pushing trace =>
      some { σ.setPhase s .closed with
        inner := σ.inner.push trace
        pushed := σ.pushed ++ [(s, trace)] }
    | _ => none

end System

/-! ### What a trace shows -/

/-- The entry of a trace at `i` shows the span `s`: with what it was opened with and the fields
recorded for it, at the top if it is the root, else under its parent, which comes before. -/
structure Shows (σ : System) (R : ℕ) (members : List ℕ) (spans : List Span) (i s : ℕ)
    (span : Span) : Prop where
  name : span.name = (σ.opening s).attrs.name
  target : span.target = (σ.opening s).attrs.target
  level : span.level = (σ.opening s).attrs.level
  fields : span.fields = σ.fields s
  place : s = R ∧ span.parent = none ∧ span.depth = 0 ∨
    s ≠ R ∧ ∃ p j above, σ.parent s = some p ∧ j < i ∧ members[j]? = some p ∧
      spans[j]? = some above ∧ span.parent = some j ∧ span.depth = above.depth + 1

/-- The entries show the spans `members`, each once and the root first. -/
structure TraceOf (σ : System) (R : ℕ) (members : List ℕ) (spans : List Span) : Prop where
  head : members.head? = some R
  nodup : members.Nodup
  length : spans.length = members.length
  shows : ∀ i s span, members[i]? = some s → spans[i]? = some span →
    Shows σ R members spans i s span

namespace TraceOf

variable {σ σ' : System} {R : ℕ} {members : List ℕ} {spans : List Span}

theorem modify (h : TraceOf σ R members spans) (i : ℕ) {f : Span → Span}
    (hopening : ∀ s ∈ members, σ'.opening s = σ.opening s)
    (hf : ∀ span, (f span).name = span.name ∧ (f span).target = span.target ∧
      (f span).level = span.level ∧ (f span).parent = span.parent ∧ (f span).depth = span.depth)
    (hfields : ∀ j s span, members[j]? = some s → spans[j]? = some span →
      (if i = j then f span else span).fields = σ'.fields s) :
    TraceOf σ' R members (spans.modify i f) := by
  refine ⟨h.head, h.nodup, by rw [length_modify, h.length], ?_⟩
  intro j s span' hs hspan'
  obtain ⟨span, hspan, hspan'⟩ : ∃ span, spans[j]? = some span ∧
      span' = if i = j then f span else span := by
    rw [List.getElem?_modify] at hspan'
    obtain ⟨span, hspan, heq⟩ := map_eq_some_iff.mp hspan'
    exact ⟨span, hspan, heq.symm⟩
  have hsame : span'.name = span.name ∧ span'.target = span.target ∧ span'.level = span.level ∧
      span'.parent = span.parent ∧ span'.depth = span.depth := by
    rw [hspan']
    split
    · exact hf span
    · exact ⟨rfl, rfl, rfl, rfl, rfl⟩
  obtain ⟨hname, htarget, hlevel, hparent, hdepth⟩ := hsame
  have hshows := h.shows j s span hs hspan
  have hop := hopening s (mem_of_getElem? hs)
  refine ⟨by rw [hname, hshows.name, hop], by rw [htarget, hshows.target, hop],
    by rw [hlevel, hshows.level, hop], hspan' ▸ hfields j s span hs hspan, ?_⟩
  rw [hparent, hdepth]
  rcases hshows.place with hroot | ⟨hne, p, k, above, hp, hk, hmem, habove, hpar, hdep⟩
  · exact .inl hroot
  · refine .inr ⟨hne, p, k, if i = k then f above else above, ?_, hk, hmem, ?_, hpar, ?_⟩
    · rw [System.parent, hop]
      exact hp
    · rw [List.getElem?_modify, habove]
      split <;> rfl
    · rw [hdep]
      split
      · rw [(hf above).2.2.2.2]
      · rfl

theorem congr (h : TraceOf σ R members spans)
    (hsame : ∀ s ∈ members, σ'.opening s = σ.opening s ∧ σ'.fields s = σ.fields s) :
    TraceOf σ' R members spans := by
  have hmodify : TraceOf σ' R members (spans.modify 0 id) := by
    refine h.modify 0 (fun s hs => (hsame s hs).1) (fun _ => ⟨rfl, rfl, rfl, rfl, rfl⟩) ?_
    intro j s span hs hspan
    rw [id, ite_self, (hsame s (mem_of_getElem? hs)).2]
    exact (h.shows j s span hs hspan).fields
  rwa [modify_id] at hmodify

end TraceOf

/-! ### The forest of the spans -/

namespace System

/-- A step about one span: the spans are as they were, but for its phase. -/
structure Moves (σ σ' : System) (s : ℕ) (phase : Phase) : Prop where
  count : σ'.count = σ.count
  opening : σ'.opening = σ.opening
  fields : σ'.fields = σ.fields
  phase : σ'.phase = update σ.phase s phase

namespace Moves

variable {σ σ' : System} {s t : ℕ} {phase : Phase}

theorem id (h : Moves σ σ' s phase) : σ'.id = σ.id := by
  funext t
  rw [System.id, h.opening]
  rfl

theorem parent (h : Moves σ σ' s phase) : σ'.parent = σ.parent := by
  funext t
  rw [System.parent, h.opening]
  rfl

theorem root (h : Moves σ σ' s phase) : σ'.root = σ.root := by
  funext t
  rw [System.root, h.opening]
  rfl

theorem isRoot (h : Moves σ σ' s phase) : σ'.isRoot = σ.isRoot := by
  funext t
  rw [System.isRoot, h.opening]
  rfl

theorem phase_self (h : Moves σ σ' s phase) : σ'.phase s = phase := by
  rw [h.phase, update_self]

theorem phase_of_ne (h : Moves σ σ' s phase) (hne : t ≠ s) : σ'.phase t = σ.phase t := by
  rw [h.phase, update_of_ne hne]

theorem open_of_open (h : Moves σ σ' s phase) (hs : σ.phase s ≠ .closed)
    (ht : σ'.phase t ≠ .closed) : σ.phase t ≠ .closed := by
  by_cases heq : t = s
  · exact heq ▸ hs
  · rwa [h.phase_of_ne heq] at ht

end Moves

section

variable {σ : System} {k : UInt64} {parent : Option ℕ} {attrs : Attributes} {t : ℕ}

theorem opening_enter_self : (σ.enter k parent attrs).opening σ.count =
    ⟨k, parent, attrs, if attrs.isRoot then some σ.count else parent.bind σ.root⟩ :=
  update_self ..

theorem opening_enter_of_ne (h : t ≠ σ.count) :
    (σ.enter k parent attrs).opening t = σ.opening t :=
  update_of_ne h ..

theorem phase_enter_of_ne (h : t ≠ σ.count) : (σ.enter k parent attrs).phase t = σ.phase t :=
  update_of_ne h ..

theorem fields_enter_of_ne (h : t ≠ σ.count) : (σ.enter k parent attrs).fields t = σ.fields t :=
  update_of_ne h ..

end

/-- The spans are a forest: a parent was open when its child was opened, and is while its child is;
a span's root is the nearest span from it up that is marked as one; open spans have distinct ids. -/
structure Forest (σ : System) : Prop where
  fresh : ∀ s, σ.count ≤ s → σ.opening s = default ∧ σ.phase s = .closed
  parent_lt : ∀ s p, σ.parent s = some p → p < s
  root_eq : ∀ s, σ.root s = if σ.isRoot s then some s else (σ.parent s).bind σ.root
  parent_opened : ∀ s p, σ.parent s = some p → (σ.phase p).isOpening = false
  parent_live : ∀ s p, σ.parent s = some p → σ.phase s ≠ .closed → σ.phase p = .live
  unique : ∀ s t, σ.phase s ≠ .closed → σ.phase t ≠ .closed → σ.id s = σ.id t → s = t

namespace Forest

variable {σ : System} {s t R : ℕ}

theorem init (ring : ℕ) : (init ring).Forest where
  fresh _ _ := ⟨rfl, rfl⟩
  parent_lt _ _ h := nomatch h
  root_eq _ := rfl
  parent_opened _ _ h := nomatch h
  parent_live _ _ h := nomatch h
  unique _ _ h := absurd rfl h

theorem lt_count (h : σ.Forest) (hs : σ.phase s ≠ .closed) : s < σ.count := by
  by_contra hle
  exact hs (h.fresh s (Nat.le_of_not_lt hle)).2

theorem root_lt_count (h : σ.Forest) (hs : σ.root s = some R) : s < σ.count := by
  by_contra hle
  have hnone : σ.root s = none := by
    rw [root, (h.fresh s (Nat.le_of_not_lt hle)).1]
    rfl
  rw [hnone] at hs
  nomatch hs

theorem isRoot_root (h : σ.Forest) (hs : σ.root s = some R) : σ.isRoot R = true := by
  induction s using Nat.strongRecOn with
  | ind s ih =>
    rw [h.root_eq] at hs
    split at hs
    next hroot => exact Option.some.inj hs ▸ hroot
    next =>
      obtain ⟨p, hp, hR⟩ := bind_eq_some_iff.mp hs
      exact ih p (h.parent_lt s p hp) hR

theorem root_root (h : σ.Forest) (hs : σ.root s = some R) : σ.root R = some R := by
  rw [h.root_eq, if_pos (h.isRoot_root hs)]

theorem isRoot_iff (h : σ.Forest) : σ.isRoot s = true ↔ σ.root s = some s := by
  constructor
  · intro hroot
    rw [h.root_eq, if_pos hroot]
  · exact h.isRoot_root

theorem parent_of_ne (h : σ.Forest) (hs : σ.root s = some R) (hne : s ≠ R) :
    ∃ p, σ.parent s = some p ∧ σ.root p = some R := by
  rw [h.root_eq] at hs
  split at hs
  · exact absurd (Option.some.inj hs) hne
  · exact bind_eq_some_iff.mp hs

/-- While a span is open, so is its root: the spans between are, one after the other. -/
theorem live_above (h : σ.Forest) (hs : σ.root s = some R) (hopen : σ.phase s ≠ .closed)
    (hne : s ≠ R) : σ.phase R = .live := by
  induction s using Nat.strongRecOn with
  | ind s ih =>
    obtain ⟨p, hp, hR⟩ := h.parent_of_ne hs hne
    have hlive := h.parent_live s p hp hopen
    by_cases hpR : p = R
    · exact hpR ▸ hlive
    · exact ih p (h.parent_lt s p hp) hR (by simp [hlive]) hpR

theorem eq_of_root (h : σ.Forest) (hR : (σ.phase R).isOpening = true) (hs : σ.root s = some R) :
    s = R := by
  induction s using Nat.strongRecOn with
  | ind s ih =>
    by_contra hne
    obtain ⟨p, hp, hroot⟩ := h.parent_of_ne hs hne
    have hpR := ih p (h.parent_lt s p hp) hroot
    have hopened := h.parent_opened s p hp
    rw [hpR, hR] at hopened
    nomatch hopened

theorem children_closed (h : σ.Forest) (hs : σ.phase s ≠ .live) :
    ∀ t, σ.parent t = some s → σ.phase t = .closed := by
  intro t ht
  by_contra hopen
  exact hs (h.parent_live t s ht hopen)

theorem moves {σ' : System} {phase : Phase} (h : σ.Forest) (hm : Moves σ σ' s phase)
    (hs : σ.phase s ≠ .closed) (hchildren : ∀ t, σ.parent t = some s → σ.phase t = .closed)
    (hopening : phase.isOpening = true → (σ.phase s).isOpening = true) : σ'.Forest where
  fresh t ht := by
    rw [hm.count] at ht
    have hne : t ≠ s := fun heq => hs (heq ▸ (h.fresh t ht).2)
    rw [hm.opening, hm.phase_of_ne hne]
    exact h.fresh t ht
  parent_lt t p ht := h.parent_lt t p (hm.parent ▸ ht)
  root_eq t := by
    rw [hm.root, hm.isRoot, hm.parent]
    exact h.root_eq t
  parent_opened t p ht := by
    rw [hm.parent] at ht
    have hopened := h.parent_opened t p ht
    by_cases heq : p = s
    · subst heq
      rw [hm.phase_self]
      cases hphase : phase.isOpening with
      | false => rfl
      | true => rw [← hopened, hopening hphase]
    · rwa [hm.phase_of_ne heq]
  parent_live t p ht hopen := by
    rw [hm.parent] at ht
    have hopen' := hm.open_of_open hs hopen
    have hne : p ≠ s := fun heq => hopen' (hchildren t (heq ▸ ht))
    rw [hm.phase_of_ne hne]
    exact h.parent_live t p ht hopen'
  unique t u ht hu hid := by
    rw [hm.id] at hid
    exact h.unique t u (hm.open_of_open hs ht) (hm.open_of_open hs hu) hid

/-- A span that the registry opens joins the forest. -/
theorem enter {k : UInt64} {parent : Option ℕ} (h : σ.Forest) (hmay : σ.MayEnter k parent)
    (attrs : Attributes) : (σ.enter k parent attrs).Forest := by
  have hlive : ∀ p ∈ parent, σ.phase p = .live := fun p hp => Phase.isLive_iff.mp (hmay.2 p hp)
  have hlt : ∀ p ∈ parent, p < σ.count := fun p hp => h.lt_count (by simp [hlive p hp])
  have hbelow : ∀ t p, σ.parent t = some p → p ≠ σ.count := by
    intro t p ht heq
    have hgt := h.parent_lt t p ht
    rw [System.parent, (h.fresh t (by omega)).1] at ht
    nomatch ht
  have hused : ∀ t ≠ σ.count, (σ.enter k parent attrs).phase t ≠ .closed →
      (σ.enter k parent attrs).id t ≠ k := by
    intro t hne hopen hid
    rw [phase_enter_of_ne hne] at hopen
    rw [System.id, opening_enter_of_ne hne] at hid
    exact hopen (Phase.isClosed_iff.mp (hmay.1 t (h.lt_count hopen) hid))
  constructor
  case fresh =>
    intro t ht
    have ht : σ.count + 1 ≤ t := ht
    have hne : t ≠ σ.count := by omega
    rw [opening_enter_of_ne hne, phase_enter_of_ne hne]
    exact h.fresh t (by omega)
  case parent_lt =>
    intro t p ht
    by_cases heq : t = σ.count
    · subst heq
      rw [System.parent, opening_enter_self] at ht
      exact hlt p ht
    · rw [System.parent, opening_enter_of_ne heq] at ht
      exact h.parent_lt t p ht
  case root_eq =>
    intro t
    have hroot : ∀ p ≠ σ.count, (σ.enter k parent attrs).root p = σ.root p := by
      intro p hne
      rw [System.root, opening_enter_of_ne hne]
      rfl
    by_cases heq : t = σ.count
    · subst heq
      rw [System.root, System.isRoot, System.parent, opening_enter_self]
      have hbind : parent.bind (σ.enter k parent attrs).root = parent.bind σ.root := by
        cases parent with
        | none => rfl
        | some p => exact hroot p (Nat.ne_of_lt (hlt p rfl))
      simp only [hbind]
    · rw [hroot t heq, System.isRoot, System.parent, opening_enter_of_ne heq, h.root_eq t]
      have hbind : (σ.parent t).bind (σ.enter k parent attrs).root = (σ.parent t).bind σ.root := by
        cases hp : σ.parent t with
        | none => rfl
        | some p => exact hroot p (hbelow t p hp)
      rw [← hbind]
      rfl
  case parent_opened =>
    intro t p ht
    by_cases heq : t = σ.count
    · subst heq
      rw [System.parent, opening_enter_self] at ht
      rw [phase_enter_of_ne (Nat.ne_of_lt (hlt p ht)), hlive p ht]
      rfl
    · rw [System.parent, opening_enter_of_ne heq] at ht
      rw [phase_enter_of_ne (hbelow t p ht)]
      exact h.parent_opened t p ht
  case parent_live =>
    intro t p ht hopen
    by_cases heq : t = σ.count
    · subst heq
      rw [System.parent, opening_enter_self] at ht
      rw [phase_enter_of_ne (Nat.ne_of_lt (hlt p ht))]
      exact hlive p ht
    · rw [System.parent, opening_enter_of_ne heq] at ht
      rw [phase_enter_of_ne heq] at hopen
      rw [phase_enter_of_ne (hbelow t p ht)]
      exact h.parent_live t p ht hopen
  case unique =>
    intro t u ht hu hid
    have hself : (σ.enter k parent attrs).id σ.count = k := by rw [System.id, opening_enter_self]
    by_cases heq : t = σ.count
    · by_contra hne
      have hne' : u ≠ σ.count := fun h => hne (heq.trans h.symm)
      exact hused u hne' hu (by rw [← hid, heq, hself])
    · by_cases heq' : u = σ.count
      · exact absurd (by rw [hid, heq', hself]) (hused t heq ht)
      · rw [phase_enter_of_ne heq] at ht
        rw [phase_enter_of_ne heq'] at hu
        rw [System.id, System.id, opening_enter_of_ne heq, opening_enter_of_ne heq'] at hid
        exact h.unique t u ht hu hid

end Forest

end System

end Fibre.Tracing
