import Fibre.Tracing.Collection

/-!
# Completeness of the traces

A root's close takes every id of its trace out of the table of roots. The spans of the trace have
left that table when they closed, so an id that is still found there belongs to a span of another
trace, which was given the id anew. That span is then lost to its trace; if it is a root, its trace
is never finished.

In a run in which that does not happen, every closed root has one finished trace, which shows the
spans that were opened under it, and the layer keeps nothing of spans that are closed.
-/

namespace Fibre.Tracing

open Machine Function List Option

/-- The traces that are of the root `R`. -/
def tracesOf (l : List (ℕ × Trace)) (R : ℕ) : List Trace :=
  (l.filter fun e => e.1 = R).map Prod.snd

theorem tracesOf_append_self (l : List (ℕ × Trace)) (R : ℕ) (trace : Trace) :
    tracesOf (l ++ [(R, trace)]) R = tracesOf l R ++ [trace] := by
  simp [tracesOf]

theorem tracesOf_append_of_ne (l : List (ℕ × Trace)) {R S : ℕ} (h : R ≠ S) (trace : Trace) :
    tracesOf (l ++ [(S, trace)]) R = tracesOf l R := by
  simp [tracesOf, h.symm]

theorem tracesOf_eq_nil_iff {l : List (ℕ × Trace)} {R : ℕ} :
    tracesOf l R = [] ↔ ∀ e ∈ l, e.1 ≠ R := by
  simp [tracesOf]

theorem eq_empty_of_lookup {β : Type*} {table : AList fun _ : UInt64 => β}
    (h : ∀ k, table.lookup k = none) : table = ∅ := by
  apply AList.ext
  apply eq_nil_iff_forall_not_mem.mpr
  intro e he
  exact AList.lookup_eq_none.mp (h e.1) (mem_map_of_mem he)

/-- Whether the trace of a root is among those that are open. -/
def Phase.builds : Phase → Bool
  | linking _ => true
  | live => true
  | closing _ => true
  | _ => false

theorem Phase.builds_ne_closed {phase : Phase} (h : phase.builds = true) : phase ≠ .closed := by
  rintro rfl
  nomatch h

namespace TraceOf

variable {σ : System} {R s : ℕ} {members : List ℕ} {spans : List Span} {span : Span}

theorem setDuration {held : Open} (h : TraceOf σ R members held.spans) (this : UInt64) (now : ℕ) :
    TraceOf σ R members (held.setDuration this now).spans := by
  unfold Open.setDuration
  split
  · exact h
  · refine h.modify _ (fun _ _ => rfl) ?_ ?_
    · exact fun _ => ⟨rfl, rfl, rfl, rfl, rfl⟩
    · intro j s span hs hspan
      rw [← (h.shows j s span hs hspan).fields]
      split <;> rfl

theorem extendFields {σ' : System} {held : Open} {i : ℕ} (h : TraceOf σ R members held.spans)
    (values : Fields) (hs : members[i]? = some s)
    (hopening : ∀ u ∈ members, σ'.opening u = σ.opening u)
    (hfields : σ'.fields = update σ.fields s (values ∪ σ.fields s)) :
    TraceOf σ' R members (held.extendFields i values).spans := by
  refine h.modify i hopening ?_ ?_
  · exact fun _ => ⟨rfl, rfl, rfl, rfl, rfl⟩
  · intro j u span hu hspan
    have hshown := (h.shows j u span hu hspan).fields
    split
    next heq =>
      subst heq
      obtain rfl : s = u := Option.some.inj (hs.symm.trans hu)
      rw [hfields, update_self, ← hshown]
    next hne =>
      have hus : u ≠ s := by
        rintro rfl
        have hlt := (List.getElem?_eq_some_iff.mp hs).1
        exact hne ((List.getElem?_inj hlt h.nodup).mp (hs.trans hu.symm))
      rw [hfields, update_of_ne hus, hshown]

theorem single (h : Shows σ R [R] [span] 0 R span) : TraceOf σ R [R] [span] where
  head := rfl
  nodup := nodup_singleton R
  length := rfl
  shows i s span' hs hspan := by
    obtain rfl : i = 0 := by
      have hlt := (List.getElem?_eq_some_iff.mp hs).1
      simpa using hlt
    obtain rfl : R = s := Option.some.inj hs
    obtain rfl : span = span' := Option.some.inj hspan
    exact h

theorem snoc (h : TraceOf σ R members spans) (hs : s ∉ members)
    (hshows : Shows σ R (members ++ [s]) (spans ++ [span]) members.length s span) :
    TraceOf σ R (members ++ [s]) (spans ++ [span]) where
  head := by rw [List.head?_append, h.head]; rfl
  nodup := by
    rw [nodup_append]
    exact ⟨h.nodup, nodup_singleton s, fun a ha b hb heq =>
      hs (mem_singleton.mp hb ▸ heq ▸ ha)⟩
  length := by rw [length_append, length_append, h.length]; rfl
  shows i u span' hu hspan := by
    rcases Nat.lt_or_ge i members.length with hi | hi
    · have hi' : i < spans.length := h.length.symm ▸ hi
      rw [List.getElem?_append_left hi] at hu
      rw [List.getElem?_append_left hi'] at hspan
      have hold := h.shows i u span' hu hspan
      refine { hold with place := hold.place.imp_right ?_ }
      rintro ⟨hne, p, j, above, hp, hj, hmem, habove, hrest⟩
      refine ⟨hne, p, j, above, hp, hj, ?_, ?_, hrest⟩
      · rw [List.getElem?_append_left (by omega), hmem]
      · rw [List.getElem?_append_left (by omega), habove]
    · obtain rfl : i = members.length := by
        have hlt := (List.getElem?_eq_some_iff.mp hu).1
        rw [length_append, length_singleton] at hlt
        omega
      rw [List.getElem?_concat_length] at hu
      rw [← h.length, List.getElem?_concat_length] at hspan
      obtain rfl := Option.some.inj hu
      obtain rfl := Option.some.inj hspan
      exact hshows

end TraceOf

namespace System

/-- Every root that is closed has one trace, which the listeners were called with once and which
went to the ring once; it shows the spans whose nearest root it is. There are no other traces, and
the ring has the last of them. When all spans are closed the tables are empty. -/
structure Complete (σ : System) : Prop where
  finished : ∀ R, σ.root R = some R → σ.phase R = .closed → ∃ trace members,
    tracesOf σ.offered R = [trace] ∧ tracesOf σ.pushed R = [trace] ∧
      TraceOf σ R members trace.spans ∧ ∀ s, s ∈ members ↔ σ.root s = some R
  only : ∀ e, e ∈ σ.offered ∨ e ∈ σ.pushed → σ.root e.1 = some e.1
  ring : σ.inner.finished = (σ.pushed.map Prod.snd).drop (σ.pushed.length - σ.inner.ring)
  empty : (∀ s, σ.phase s = .closed) → σ.inner.openTraces = ∅ ∧ σ.inner.belongs = ∅

/-- The ids that a step takes out of the table of roots for a finished trace. -/
def swept (σ : System) : Action → List UInt64
  | .sweep s =>
    match σ.phase s with
    | .sweeping held => held.ids
    | _ => []
  | _ => []

/-- A root's close finds none of the ids that its trace took in the table of roots. -/
def Unused (σ : System) (a : Action) : Prop := ∀ k ∈ σ.swept a, σ.inner.rootOf k = none

instance (σ : System) (a : Action) : Decidable (σ.Unused a) := List.decidableBAll ..

/-! ### The trace of a root -/

/-- The call that opens the span has added it to its trace. -/
def Joined (σ : System) (s : ℕ) : Prop := ∀ root, σ.phase s ≠ .joining root

/-- The span was added to the trace of the root `R`. -/
def Member (σ : System) (R s : ℕ) : Prop := σ.root s = some R ∧ σ.Joined s

/-- The entries show the spans that were added to the trace of `R`. -/
def Gathered (σ : System) (R : ℕ) (spans : List Span) : Prop :=
  ∃ members, TraceOf σ R members spans ∧ ∀ s, s ∈ members ↔ σ.Member R s

/-- The trace of `R` is open as `held`, and shows `members`. -/
structure BuildsWith (σ : System) (R : ℕ) (held : Open) (members : List ℕ) : Prop where
  root : held.root = σ.id R
  trace : TraceOf σ R members held.spans
  mem : ∀ s, s ∈ members ↔ σ.Member R s
  index : ∀ i s, members[i]? = some s → σ.phase s ≠ .closed →
    held.index.lookup (σ.id s) = some i

/-- The trace of `R` is open. -/
def Builds (σ : System) (R : ℕ) : Prop :=
  ∃ held members, σ.inner.openTraces.lookup (σ.id R) = some held ∧ σ.BuildsWith R held members

/-- No trace of the span is finished. -/
def Silent (σ : System) (s : ℕ) : Prop := tracesOf σ.offered s = [] ∧ tracesOf σ.pushed s = []

/-- What is known of a span from how far the call about it has come. -/
def Stage (σ : System) (s : ℕ) : Phase → Prop
  | .joining root =>
    (σ.root s).map σ.id = some root ∧ σ.Silent s ∧ σ.fields s = record (σ.opening s).attrs.values
  | .linking root =>
    (σ.root s).map σ.id = some root ∧ σ.Silent s ∧ (σ.root s = some s → σ.Builds s)
  | .live =>
    σ.inner.rootOf (σ.id s) = (σ.root s).map σ.id ∧ σ.Silent s ∧
      (σ.root s = some s → σ.Builds s)
  | .closing root =>
    (σ.root s).map σ.id = some root ∧ σ.Silent s ∧ (σ.root s = some s → σ.Builds s)
  | .sweeping held => σ.root s = some s ∧ σ.Silent s ∧ σ.Gathered s held.spans
  | .offering held => σ.root s = some s ∧ σ.Silent s ∧ σ.Gathered s held.spans
  | .pushing trace =>
    σ.root s = some s ∧ tracesOf σ.offered s = [trace] ∧ tracesOf σ.pushed s = [] ∧
      σ.Gathered s trace.spans
  | .closed =>
    if σ.root s = some s then
      ∃ trace, tracesOf σ.offered s = [trace] ∧ tracesOf σ.pushed s = [trace] ∧
        σ.Gathered s trace.spans
    else σ.Silent s

/-- What the tables say of the spans. -/
structure Inv (σ : System) : Prop where
  forest : σ.Forest
  stage : ∀ s, σ.Stage s (σ.phase s)
  open_of : ∀ k held, σ.inner.openTraces.lookup k = some held →
    ∃ R, σ.id R = k ∧ σ.root R = some R ∧ (σ.phase R).builds = true
  belongs_of : ∀ k root, σ.inner.rootOf k = some root → ∃ s, σ.phase s = .live ∧ σ.id s = k
  records : ∀ e ∈ σ.records, σ.phase e.span = .live ∧ (σ.root e.span).map σ.id = some e.root
  ring : σ.inner.finished = (σ.pushed.map Prod.snd).drop (σ.pushed.length - σ.inner.ring)

/-! ### What a step leaves alone -/

/-- What is said of a span `t` and of its trace is as it was. -/
structure Frame (σ σ' : System) (t : ℕ) : Prop where
  opening : σ'.opening t = σ.opening t
  openings : ∀ u ≠ σ.count, σ'.opening u = σ.opening u
  member : ∀ u, σ'.Member t u ↔ σ.Member t u
  fields : ∀ u, σ.Member t u → σ'.fields u = σ.fields u
  own : σ.phase t ≠ .live → σ'.fields t = σ.fields t
  closed : ∀ u, σ.Member t u → σ.phase u = .closed → σ'.phase u = .closed

namespace Frame

variable {σ σ' : System} {t : ℕ} {spans : List Span}

theorem id_eq (hf : Frame σ σ' t) : σ'.id t = σ.id t := congrArg Opening.id hf.opening

theorem root_eq (hf : Frame σ σ' t) : σ'.root t = σ.root t := congrArg Opening.root hf.opening

theorem rootId_eq (hf : Frame σ σ' t) (h : σ.Forest) :
    (σ'.root t).map σ'.id = (σ.root t).map σ.id := by
  rw [hf.root_eq]
  cases hR : σ.root t with
  | none => rfl
  | some R =>
    have hne : R ≠ σ.count := Nat.ne_of_lt (h.root_lt_count (h.root_root hR))
    simp only [map_some]
    exact congrArg some (congrArg Opening.id (hf.openings R hne))

theorem trace {members : List ℕ} (hf : Frame σ σ' t) (h : σ.Forest)
    (hmem : ∀ s, s ∈ members ↔ σ.Member t s) (ht : TraceOf σ t members spans) :
    TraceOf σ' t members spans := by
  apply ht.congr
  intro s hs
  have hmember := (hmem s).mp hs
  exact ⟨hf.openings s (Nat.ne_of_lt (h.root_lt_count hmember.1)), hf.fields s hmember⟩

theorem gathered (hf : Frame σ σ' t) (h : σ.Forest) (hg : σ.Gathered t spans) :
    σ'.Gathered t spans := by
  obtain ⟨members, htrace, hmem⟩ := hg
  exact ⟨members, hf.trace h hmem htrace, fun s => (hmem s).trans (hf.member s).symm⟩

theorem buildsWith {held : Open} {members : List ℕ} (hf : Frame σ σ' t) (h : σ.Forest)
    (hb : σ.BuildsWith t held members) : σ'.BuildsWith t held members where
  root := by rw [hb.root, hf.id_eq]
  trace := hf.trace h hb.mem hb.trace
  mem s := (hb.mem s).trans (hf.member s).symm
  index i s hs hopen := by
    have hmember := (hb.mem s).mp (mem_of_getElem? hs)
    have hne := Nat.ne_of_lt (h.root_lt_count hmember.1)
    rw [System.id, hf.openings s hne]
    exact hb.index i s hs fun hclosed => hopen (hf.closed s hmember hclosed)

theorem builds (hf : Frame σ σ' t) (h : σ.Forest)
    (hopen : σ'.inner.openTraces.lookup (σ.id t) = σ.inner.openTraces.lookup (σ.id t))
    (hb : σ.Builds t) : σ'.Builds t := by
  obtain ⟨held, members, hlookup, hb⟩ := hb
  exact ⟨held, members, by rw [hf.id_eq, hopen, hlookup], hf.buildsWith h hb⟩

theorem stage (hf : Frame σ σ' t) (h : σ.Forest)
    (hopen : (σ.phase t).builds = true → σ.root t = some t → σ.Builds t → σ'.Builds t)
    (hbelongs : σ.phase t = .live → σ'.inner.rootOf (σ.id t) = σ.inner.rootOf (σ.id t))
    (hoffered : tracesOf σ'.offered t = tracesOf σ.offered t)
    (hpushed : tracesOf σ'.pushed t = tracesOf σ.pushed t)
    (hs : σ.Stage t (σ.phase t)) : σ'.Stage t (σ.phase t) := by
  have hsilent : σ.Silent t → σ'.Silent t := fun hsilent =>
    ⟨hoffered.trans hsilent.1, hpushed.trans hsilent.2⟩
  have hbuilds : (σ.phase t).builds = true → (σ.root t = some t → σ.Builds t) →
      (σ'.root t = some t → σ'.Builds t) := by
    intro hphase hb hroot
    rw [hf.root_eq] at hroot
    exact hopen hphase hroot (hb hroot)
  cases hphase : σ.phase t with
  | joining root =>
    rw [hphase] at hs
    refine ⟨(hf.rootId_eq h).trans hs.1, hsilent hs.2.1, ?_⟩
    rw [hf.own (by simp [hphase]), hs.2.2, hf.opening]
  | linking root =>
    rw [hphase] at hs hbuilds
    exact ⟨(hf.rootId_eq h).trans hs.1, hsilent hs.2.1, hbuilds rfl hs.2.2⟩
  | live =>
    rw [hphase] at hs hbuilds
    refine ⟨?_, hsilent hs.2.1, hbuilds rfl hs.2.2⟩
    rw [hf.id_eq, hbelongs hphase, hs.1, hf.rootId_eq h]
  | closing root =>
    rw [hphase] at hs hbuilds
    exact ⟨(hf.rootId_eq h).trans hs.1, hsilent hs.2.1, hbuilds rfl hs.2.2⟩
  | sweeping held =>
    rw [hphase] at hs
    exact ⟨hf.root_eq.trans hs.1, hsilent hs.2.1, hf.gathered h hs.2.2⟩
  | offering held =>
    rw [hphase] at hs
    exact ⟨hf.root_eq.trans hs.1, hsilent hs.2.1, hf.gathered h hs.2.2⟩
  | pushing trace =>
    rw [hphase] at hs
    exact ⟨hf.root_eq.trans hs.1, hoffered.trans hs.2.1, hpushed.trans hs.2.2.1,
      hf.gathered h hs.2.2.2⟩
  | closed =>
    rw [hphase] at hs
    simp only [Stage, hf.root_eq] at hs ⊢
    split at hs
    next hroot =>
      obtain ⟨trace, hoff, hpush, hg⟩ := hs
      rw [if_pos hroot]
      exact ⟨trace, hoffered.trans hoff, hpushed.trans hpush, hf.gathered h hg⟩
    next hroot =>
      rw [if_neg hroot]
      exact hsilent hs

end Frame

namespace Moves

variable {σ σ' : System} {s t : ℕ} {phase : Phase}

theorem frame_of_ne (h : Moves σ σ' s phase) (hs : σ.root s ≠ some t)
    (hopen : σ.phase s ≠ .closed) : Frame σ σ' t where
  opening := by rw [h.opening]
  openings u _ := by rw [h.opening]
  fields u _ := by rw [h.fields]
  own _ := by rw [h.fields]
  closed u _ hclosed := by
    have hne : u ≠ s := fun heq => hopen (heq ▸ hclosed)
    rw [h.phase_of_ne hne, hclosed]
  member u := by
    rw [Member, Member, h.root]
    by_cases heq : u = s
    · subst heq
      exact ⟨fun hu => absurd hu.1 hs, fun hu => absurd hu.1 hs⟩
    · simp only [Joined, h.phase_of_ne heq]

theorem frame (h : Moves σ σ' s phase) (hs : σ.Joined s) (hphase : ∀ root, phase ≠ .joining root)
    (hopen : σ.phase s ≠ .closed) (t : ℕ) : Frame σ σ' t where
  opening := by rw [h.opening]
  openings u _ := by rw [h.opening]
  fields u _ := by rw [h.fields]
  own _ := by rw [h.fields]
  closed u _ hclosed := by
    have hne : u ≠ s := fun heq => hopen (heq ▸ hclosed)
    rw [h.phase_of_ne hne, hclosed]
  member u := by
    rw [Member, Member, h.root]
    by_cases heq : u = s
    · subst heq
      have hjoined : σ'.Joined u := fun root => by
        rw [h.phase_self]
        exact hphase root
      simp only [hs, hjoined]
    · simp only [Joined, h.phase_of_ne heq]

end Moves

/-! ### The invariant is kept -/

namespace Inv

variable {σ σ' : System} {s t R : ℕ} {phase : Phase}

theorem init (ring : ℕ) : (init ring).Inv where
  forest := .init ring
  stage _ := ⟨rfl, rfl⟩
  open_of k _ h := by
    have hnone : (System.init ring).inner.openTraces.lookup k = none := AList.lookup_empty k
    rw [hnone] at h
    nomatch h
  belongs_of k _ h := by
    have hnone : (System.init ring).inner.rootOf k = none := AList.lookup_empty k
    rw [hnone] at h
    nomatch h
  records _ h := nomatch h
  ring := drop_nil.symm

theorem id_ne (h : σ.Inv) (hs : σ.phase s ≠ .closed) (ht : σ.phase t ≠ .closed) (hne : t ≠ s) :
    σ.id t ≠ σ.id s :=
  fun hid => hne (h.forest.unique t s ht hs hid)

theorem builds (h : σ.Inv) (hphase : (σ.phase R).builds = true) (hR : σ.root R = some R) :
    σ.Builds R := by
  have hs := h.stage R
  cases hp : σ.phase R with
  | linking root => exact (by simpa only [hp] using hs : σ.Stage R (.linking root)).2.2 hR
  | live => exact (by simpa only [hp] using hs : σ.Stage R .live).2.2 hR
  | closing root => exact (by simpa only [hp] using hs : σ.Stage R (.closing root)).2.2 hR
  | joining root => simp [hp, Phase.builds] at hphase
  | sweeping held => simp [hp, Phase.builds] at hphase
  | offering held => simp [hp, Phase.builds] at hphase
  | pushing trace => simp [hp, Phase.builds] at hphase
  | closed => simp [hp, Phase.builds] at hphase

theorem id_ne_of_open {k : UInt64} {held : Open} (h : σ.Inv)
    (hk : σ.inner.openTraces.lookup k = some held) (hs : σ.phase s ≠ .closed)
    (hbuilds : (σ.phase s).builds = false) : k ≠ σ.id s := by
  obtain ⟨R, rfl, -, hR⟩ := h.open_of k held hk
  apply h.id_ne hs (Phase.builds_ne_closed hR)
  rintro rfl
  rw [hR] at hbuilds
  nomatch hbuilds

theorem id_ne_of_belongs {k root : UInt64} (h : σ.Inv) (hk : σ.inner.rootOf k = some root)
    (hs : σ.phase s ≠ .closed) (hlive : σ.phase s ≠ .live) : k ≠ σ.id s := by
  obtain ⟨t, ht, rfl⟩ := h.belongs_of k root hk
  apply h.id_ne hs (by simp [ht])
  rintro rfl
  exact hlive ht

theorem stage_moves (h : σ.Inv) (hm : Moves σ σ' s phase) (hframe : ∀ t ≠ s, Frame σ σ' t)
    (hopen : ∀ t ≠ s, (σ.phase t).builds = true → σ.root t = some t → σ.Builds t → σ'.Builds t)
    (hbelongs : ∀ t ≠ s, σ.phase t = .live → σ'.inner.rootOf (σ.id t) = σ.inner.rootOf (σ.id t))
    (hoffered : ∀ t ≠ s, tracesOf σ'.offered t = tracesOf σ.offered t)
    (hpushed : ∀ t ≠ s, tracesOf σ'.pushed t = tracesOf σ.pushed t) (hs : σ'.Stage s phase) :
    ∀ t, σ'.Stage t (σ'.phase t) := by
  intro t
  by_cases heq : t = s
  · rw [heq, hm.phase_self]
    exact hs
  · rw [hm.phase_of_ne heq]
    exact (hframe t heq).stage h.forest (hopen t heq) (hbelongs t heq) (hoffered t heq)
      (hpushed t heq) (h.stage t)

theorem span_ne (h : σ.Inv) (hs : σ.phase s ≠ .live) : ∀ e ∈ σ.records, e.span ≠ s := by
  intro e he heq
  exact hs (heq ▸ (h.records e he).1)

theorem moves (h : σ.Inv) (hm : Moves σ σ' s phase) (hjoined : σ.Joined s)
    (hphase : ∀ root, phase ≠ .joining root) (hactive : σ.phase s ≠ .closed)
    (hchildren : ∀ t, σ.parent t = some s → σ.phase t = .closed)
    (hopening : phase.isOpening = false)
    (hspan : ∀ e ∈ σ.records, e.span ≠ s) (hrecords : σ'.records = σ.records)
    (hopen : ∀ t ≠ s, (σ.phase t).builds = true → σ.root t = some t → σ.Builds t → σ'.Builds t)
    (hbelongs : ∀ t ≠ s, σ.phase t = .live → σ'.inner.rootOf (σ.id t) = σ.inner.rootOf (σ.id t))
    (hoffered : ∀ t ≠ s, tracesOf σ'.offered t = tracesOf σ.offered t)
    (hpushed : ∀ t ≠ s, tracesOf σ'.pushed t = tracesOf σ.pushed t) (hs : σ'.Stage s phase)
    (hopenOf : ∀ k held, σ'.inner.openTraces.lookup k = some held →
      (∃ held, σ.inner.openTraces.lookup k = some held) ∧
        (σ.root s = some s → k = σ.id s → phase.builds = true))
    (hbelongsOf : ∀ k root, σ'.inner.rootOf k = some root →
      (k ≠ σ.id s ∧ ∃ root, σ.inner.rootOf k = some root) ∨ k = σ.id s ∧ phase = .live)
    (hring : σ'.inner.finished =
      (σ'.pushed.map Prod.snd).drop (σ'.pushed.length - σ'.inner.ring)) :
    σ'.Inv where
  forest := h.forest.moves hm hactive hchildren fun h => by simp [hopening] at h
  stage := h.stage_moves hm (fun t _ => hm.frame hjoined hphase hactive t) hopen hbelongs hoffered
    hpushed hs
  open_of k held hheld := by
    obtain ⟨⟨held', hheld'⟩, hself⟩ := hopenOf k held hheld
    obtain ⟨R, hid, hR, hbuilds⟩ := h.open_of k held' hheld'
    refine ⟨R, by rw [hm.id, hid], by rw [hm.root, hR], ?_⟩
    by_cases heq : R = s
    · subst heq
      rw [hm.phase_self]
      exact hself hR hid.symm
    · rwa [hm.phase_of_ne heq]
  belongs_of k root hk := by
    rcases hbelongsOf k root hk with ⟨hne, root', hk'⟩ | ⟨rfl, hlive⟩
    · obtain ⟨t, hlive, hid⟩ := h.belongs_of k root' hk'
      refine ⟨t, ?_, by rw [hm.id, hid]⟩
      rw [hm.phase_of_ne, hlive]
      rintro rfl
      exact hne hid.symm
    · exact ⟨s, by rw [hm.phase_self, hlive], by rw [hm.id]⟩
  records e he := by
    rw [hrecords] at he
    rw [hm.phase_of_ne (hspan e he), hm.root, hm.id]
    exact h.records e he
  ring := hring

theorem newRoot_eq {k : UInt64} {parent : Option ℕ} (h : σ.Inv) (hmay : σ.MayEnter k parent)
    (attrs : Attributes) :
    σ.inner.newRoot attrs k (parent.map σ.id) =
      ((σ.enter k parent attrs).root σ.count).map (σ.enter k parent attrs).id := by
  have hself : (σ.enter k parent attrs).id σ.count = k := by rw [System.id, opening_enter_self]
  rw [System.root, opening_enter_self, Inner.newRoot]
  split
  · rw [map_some, hself]
  · cases parent with
    | none => rfl
    | some p =>
      have hlive := Phase.isLive_iff.mp (hmay.2 p rfl)
      obtain ⟨hroot, -, -⟩ : σ.Stage p .live := hlive ▸ h.stage p
      show σ.inner.rootOf (σ.id p) = (σ.root p).map _
      rw [hroot]
      cases hR : σ.root p with
      | none => rfl
      | some R =>
        have hne : R ≠ σ.count :=
          Nat.ne_of_lt (h.forest.root_lt_count (h.forest.root_root hR))
        simp only [map_some, System.id, opening_enter_of_ne hne]

theorem enter {k : UInt64} {parent : Option ℕ} (h : σ.Inv) (hmay : σ.MayEnter k parent)
    (attrs : Attributes) : (σ.enter k parent attrs).Inv := by
  set σ' : System := σ.enter k parent attrs with hσ'
  have hroot : σ.root σ.count = none := by
    rw [System.root, (h.forest.fresh σ.count (Nat.le_refl _)).1]
    rfl
  have hlt : ∀ t, σ.phase t ≠ .closed → t ≠ σ.count := fun t ht =>
    Nat.ne_of_lt (h.forest.lt_count ht)
  have hphase : ∀ t, σ.phase t ≠ .closed → σ'.phase t = σ.phase t := fun t ht =>
    phase_enter_of_ne (hlt t ht)
  -- the new span joins a trace if there is a root from it up
  have hnew : σ'.phase σ.count =
      ((σ'.root σ.count).map σ'.id).elim .live .joining := by
    rw [← h.newRoot_eq hmay attrs]
    exact update_self ..
  have hunused : ∀ root, σ.inner.rootOf k ≠ some root := by
    intro root hk
    obtain ⟨t, hlive, hid⟩ := h.belongs_of k root hk
    have hopen : σ.phase t ≠ .closed := by simp [hlive]
    exact hopen (Phase.isClosed_iff.mp (hmay.1 t (h.forest.lt_count hopen) hid))
  have hframe : ∀ t ≠ σ.count, Frame σ σ' t := by
    intro t hne
    constructor
    case opening => exact opening_enter_of_ne hne
    case openings => exact fun u hu => opening_enter_of_ne hu
    case fields =>
      exact fun u hu => fields_enter_of_ne (Nat.ne_of_lt (h.forest.root_lt_count hu.1))
    case own => exact fun _ => fields_enter_of_ne hne
    case closed =>
      intro u hu hclosed
      rw [phase_enter_of_ne (Nat.ne_of_lt (h.forest.root_lt_count hu.1)), hclosed]
    case member =>
      intro u
      by_cases heq : u = σ.count
      · subst heq
        constructor
        · rintro ⟨hR, hjoined⟩
          rw [hR] at hnew
          exact absurd hnew (hjoined _)
        · rintro ⟨hR, -⟩
          rw [hroot] at hR
          cases hR
      · rw [Member, Member, Joined, Joined, phase_enter_of_ne heq, System.root,
          opening_enter_of_ne heq]
        rfl
  have hid : ∀ t ≠ σ.count, σ'.id t = σ.id t := fun t hne => (hframe t hne).id_eq
  have hrootOf : ∀ t ≠ σ.count, σ'.root t = σ.root t := fun t hne => (hframe t hne).root_eq
  have hsilent : σ'.Silent σ.count := by
    have hstage := h.stage σ.count
    rw [(h.forest.fresh σ.count (Nat.le_refl _)).2, Stage, if_neg (by simp [hroot])] at hstage
    exact hstage
  constructor
  case forest => exact h.forest.enter hmay attrs
  case stage =>
    intro t
    by_cases heq : t = σ.count
    · subst heq
      rw [hnew]
      cases hR : σ'.root σ.count with
      | none =>
        refine ⟨?_, hsilent, fun hself => ?_⟩
        · rw [hR, System.id, hσ', opening_enter_self]
          exact eq_none_iff_forall_ne_some.mpr hunused
        · rw [hR] at hself
          cases hself
      | some R =>
        refine ⟨by rw [hR]; rfl, hsilent, ?_⟩
        rw [hσ', opening_enter_self]
        exact update_self ..
    · rw [hσ', phase_enter_of_ne heq]
      have hf := hframe t heq
      exact hf.stage h.forest (fun _ _ => hf.builds h.forest rfl) (fun _ => rfl) rfl rfl
        (h.stage t)
  case open_of =>
    intro key held hheld
    obtain ⟨R, hkey, hR, hbuilds⟩ := h.open_of key held hheld
    have hopen := Phase.builds_ne_closed hbuilds
    exact ⟨R, by rw [hid R (hlt R hopen), hkey], by rw [hrootOf R (hlt R hopen), hR],
      by rw [hphase R hopen, hbuilds]⟩
  case belongs_of =>
    intro key root hkey
    obtain ⟨t, hlive, heq⟩ := h.belongs_of key root hkey
    have hopen : σ.phase t ≠ .closed := by simp [hlive]
    exact ⟨t, by rw [hphase t hopen, hlive], by rw [hid t (hlt t hopen), heq]⟩
  case records =>
    intro e he
    obtain ⟨hlive, hroot⟩ := h.records e he
    have hopen : σ.phase e.span ≠ .closed := by simp [hlive]
    exact ⟨by rw [hphase _ hopen, hlive], ((hframe _ (hlt _ hopen)).rootId_eq h.forest).trans hroot⟩
  case ring => exact h.ring

theorem joined {n : UInt64} {held : Open} (members : List ℕ) (h : σ.Inv)
    (hs : σ.phase s = .joining (σ.id R)) (hR : σ.root s = some R)
    (hσ' : σ' = { σ.setPhase s (.linking (σ.id R)) with
      inner := { σ.inner with
        nextId := n
        openTraces := σ.inner.openTraces.insert (σ.id R) held } })
    (hbuilt : σ'.BuildsWith R held members) : σ'.Inv := by
  have hm : Moves σ σ' s (.linking (σ.id R)) := by
    rw [hσ']
    exact ⟨rfl, rfl, rfl, rfl⟩
  have hopenTraces : σ'.inner.openTraces = σ.inner.openTraces.insert (σ.id R) held := by rw [hσ']
  have hrootOf : σ'.inner.rootOf = σ.inner.rootOf := by rw [hσ']; rfl
  have hoffered : σ'.offered = σ.offered := by rw [hσ']; rfl
  have hpushed : σ'.pushed = σ.pushed := by rw [hσ']; rfl
  have hactive : σ.phase s ≠ .closed := by simp [hs]
  have hnotLive : σ.phase s ≠ .live := by simp [hs]
  have hopenR : σ.phase R ≠ .closed := by
    by_cases hne : s = R
    · exact hne ▸ hactive
    · simp [h.forest.live_above hR hactive hne]
  have hbuilds : σ'.Builds R :=
    ⟨held, members, by rw [hopenTraces, hm.id, AList.lookup_insert], hbuilt⟩
  obtain ⟨hroot, hsilent', -⟩ : σ.Stage s (.joining (σ.id R)) := hs ▸ h.stage s
  have hsilent : ∀ t, σ.Silent t → σ'.Silent t := by
    intro t ht
    rwa [Silent, hoffered, hpushed]
  -- only the trace of `R` has one more span
  have hframe : ∀ t ≠ R, Frame σ σ' t := by
    intro t hne
    apply hm.frame_of_ne (fun heq => hne (Option.some.inj (heq.symm.trans hR))) hactive
  have hstage : ∀ t ≠ s, σ'.Stage t (σ'.phase t) := by
    intro t hts
    rw [hm.phase_of_ne hts]
    by_cases htR : t = R
    · subst htR
      have hlive := h.forest.live_above hR hactive hts.symm
      obtain ⟨hrootR, hsilentR, -⟩ : σ.Stage t .live := hlive ▸ h.stage t
      rw [hlive]
      exact ⟨by rw [hrootOf, hm.root, hm.id, hrootR], hsilent t hsilentR, fun _ => hbuilds⟩
    · have hf := hframe t htR
      apply hf.stage h.forest _ (fun _ => by rw [hrootOf]) (by rw [hoffered]) (by rw [hpushed])
        (h.stage t)
      intro hphase _ hb
      have hid := h.id_ne hopenR (Phase.builds_ne_closed hphase) htR
      exact hf.builds h.forest (by rw [hopenTraces, AList.lookup_insert_ne hid]) hb
  constructor
  case forest =>
    exact h.forest.moves hm hactive (h.forest.children_closed hnotLive) fun _ => by
      rw [hs]
      rfl
  case stage =>
    intro t
    by_cases hts : t = s
    · subst hts
      rw [hm.phase_self]
      refine ⟨by rw [hm.root, hm.id, hroot], hsilent t hsilent', fun hself => ?_⟩
      rw [hm.root, hR] at hself
      exact Option.some.inj hself ▸ hbuilds
    · exact hstage t hts
  case open_of =>
    intro k held' hheld'
    rw [hopenTraces] at hheld'
    by_cases hk : k = σ.id R
    · refine ⟨R, by rw [hm.id, hk], by rw [hm.root, h.forest.root_root hR], ?_⟩
      by_cases hne : R = s
      · rw [hne, hm.phase_self]
        rfl
      · rw [hm.phase_of_ne hne, h.forest.live_above hR hactive (Ne.symm hne)]
        rfl
    · rw [AList.lookup_insert_ne hk] at hheld'
      obtain ⟨T, hid, hT, hbuildsT⟩ := h.open_of k held' hheld'
      refine ⟨T, by rw [hm.id, hid], by rw [hm.root, hT], ?_⟩
      rw [hm.phase_of_ne, hbuildsT]
      rintro rfl
      rw [hs] at hbuildsT
      nomatch hbuildsT
  case belongs_of =>
    intro k root hk
    rw [hrootOf] at hk
    obtain ⟨t, hlive, hid⟩ := h.belongs_of k root hk
    refine ⟨t, ?_, by rw [hm.id, hid]⟩
    rw [hm.phase_of_ne, hlive]
    rintro rfl
    exact hnotLive hlive
  case records =>
    intro e he
    have he : e ∈ σ.records := by rwa [hσ'] at he
    rw [hm.phase_of_ne (h.span_ne hnotLive e he), hm.root, hm.id]
    exact h.records e he
  case ring =>
    rw [hpushed]
    have hinner : σ'.inner.finished = σ.inner.finished ∧ σ'.inner.ring = σ.inner.ring := by
      rw [hσ']
      exact ⟨rfl, rfl⟩
    rw [hinner.1, hinner.2]
    exact h.ring

theorem joinRoot (fresh : UInt64 → List UInt8) (h : σ.Inv) (hs : σ.phase s = .joining (σ.id s))
    (hR : σ.root s = some s) (clock : Clock) :
    let r := σ.inner.join fresh (σ.opening s).attrs (σ.id s) (σ.id s) (σ.parentId s) clock
    Inv { σ.setPhase s (if r.1 then .linking (σ.id s) else .live) with inner := r.2 } := by
  rw [Inner.join_of_isRoot _ _ _ _ _ (h.forest.isRoot_iff.mpr hR)]
  obtain ⟨-, -, hfields⟩ : σ.Stage s (.joining (σ.id s)) := hs ▸ h.stage s
  set held := σ.inner.newOpen fresh (σ.opening s).attrs (σ.id s) clock
  apply joined [s] h hs hR rfl
  constructor
  case root => rfl
  case trace =>
    have hparent : (held.newSpan (σ.opening s).attrs (σ.parentId s) clock.now).parent = none := by
      show (σ.parentId s).bind (fun p => AList.lookup p ∅) = none
      cases σ.parentId s with
      | none => rfl
      | some p => exact AList.lookup_empty p
    refine TraceOf.single ⟨rfl, rfl, rfl, hfields.symm, .inl ⟨rfl, hparent, ?_⟩⟩
    rw [Open.newSpan_depth, hparent]
    rfl
  case mem =>
    intro u
    rw [mem_singleton]
    constructor
    · rintro rfl
      refine ⟨hR, fun root => ?_⟩
      show update σ.phase u _ u ≠ _
      rw [update_self]
      nofun
    · rintro ⟨hu, -⟩
      exact h.forest.eq_of_root (by rw [hs]; rfl) hu
  case index =>
    intro i u hu _
    obtain ⟨rfl, rfl⟩ : i = 0 ∧ s = u := by
      have hlt := (List.getElem?_eq_some_iff.mp hu).1
      obtain rfl : i = 0 := by simpa using hlt
      exact ⟨rfl, Option.some.inj hu⟩
    exact AList.lookup_insert _

theorem joinChild (fresh : UInt64 → List UInt8) (h : σ.Inv) (hs : σ.phase s = .joining (σ.id R))
    (hR : σ.root s = some R) (hne : s ≠ R) (clock : Clock) :
    let r := σ.inner.join fresh (σ.opening s).attrs (σ.id s) (σ.id R) (σ.parentId s) clock
    Inv { σ.setPhase s (if r.1 then .linking (σ.id R) else .live) with inner := r.2 } := by
  have hactive : σ.phase s ≠ .closed := by simp [hs]
  have hlive : σ.phase R = .live := h.forest.live_above hR hactive hne
  obtain ⟨held, members, hheld, hbuilt⟩ :=
    h.builds (by simp [hlive, Phase.builds]) (h.forest.root_root hR)
  have hnotRoot : (σ.opening s).attrs.isRoot = false := by
    rw [Bool.eq_false_iff]
    intro hroot
    exact hne (Option.some.inj ((h.forest.isRoot_iff.mp hroot).symm.trans hR))
  rw [Inner.join_of_not_isRoot _ _ _ _ hnotRoot hheld]
  obtain ⟨-, -, hfields⟩ : σ.Stage s (.joining (σ.id R)) := hs ▸ h.stage s
  -- the parent is open, so the index has its place
  obtain ⟨p, hp, hroot⟩ := h.forest.parent_of_ne hR hne
  have hplive := h.forest.parent_live s p hp hactive
  obtain ⟨j, hj⟩ := mem_iff_getElem?.mp ((hbuilt.mem p).mpr ⟨hroot, by simp [Joined, hplive]⟩)
  have hindex := hbuilt.index j p hj (by simp [hplive])
  have hjlt := (List.getElem?_eq_some_iff.mp hj).1
  obtain ⟨above, habove⟩ : ∃ above, held.spans[j]? = some above :=
    ⟨_, List.getElem?_eq_getElem (hbuilt.trace.length.symm ▸ hjlt)⟩
  have hnotMem : s ∉ members := by
    intro hmem
    exact ((hbuilt.mem s).mp hmem).2 _ hs
  apply joined (members ++ [s]) h hs hR rfl
  constructor
  case root => exact hbuilt.root
  case trace =>
    have hparent :
        (held.newSpan (σ.opening s).attrs (σ.parentId s) clock.now).parent = some j := by
      show (σ.parentId s).bind (fun p => held.index.lookup p) = some j
      rw [parentId, hp]
      exact hindex
    apply TraceOf.snoc _ hnotMem
    · refine ⟨rfl, rfl, rfl, hfields.symm, .inr ⟨hne, p, j, above, hp, hjlt, ?_, ?_, hparent, ?_⟩⟩
      · rw [List.getElem?_append_left hjlt, hj]
      · rw [List.getElem?_append_left (hbuilt.trace.length.symm ▸ hjlt), habove]
      · rw [Open.newSpan_depth, hparent, elim_some, habove]
        rfl
    · exact hbuilt.trace.congr fun _ _ => ⟨rfl, rfl⟩
  case mem =>
    intro u
    rw [mem_append, mem_singleton]
    by_cases heq : u = s
    · subst heq
      refine iff_of_true (.inr rfl) ⟨hR, fun root => ?_⟩
      show update σ.phase u _ u ≠ _
      rw [update_self]
      nofun
    · rw [or_iff_left heq, hbuilt.mem u]
      show σ.root u = some R ∧ (∀ root, σ.phase u ≠ _) ↔
        σ.root u = some R ∧ ∀ root, update σ.phase s _ u ≠ _
      rw [update_of_ne heq]
  case index =>
    intro i u hu hopen
    show (held.index.insert (σ.id s) held.spans.length).lookup (σ.id u) = some i
    rcases Nat.lt_or_ge i members.length with hi | hi
    · rw [List.getElem?_append_left hi] at hu
      have heq : u ≠ s := fun heq => hnotMem (heq ▸ mem_of_getElem? hu)
      have hopen : update σ.phase s _ u ≠ .closed := hopen
      rw [update_of_ne heq] at hopen
      rw [AList.lookup_insert_ne (h.id_ne hactive hopen heq)]
      exact hbuilt.index i u hu hopen
    · obtain rfl : i = members.length := by
        have hlt := (List.getElem?_eq_some_iff.mp hu).1
        rw [length_append, length_singleton] at hlt
        omega
      rw [List.getElem?_concat_length] at hu
      obtain rfl := Option.some.inj hu
      rw [AList.lookup_insert, hbuilt.trace.length]

theorem join (fresh : UInt64 → List UInt8) {root : UInt64} (h : σ.Inv)
    (hs : σ.phase s = .joining root) (clock : Clock) :
    let r := σ.inner.join fresh (σ.opening s).attrs (σ.id s) root (σ.parentId s) clock
    Inv { σ.setPhase s (if r.1 then .linking root else .live) with inner := r.2 } := by
  obtain ⟨hroot, -, -⟩ : σ.Stage s (.joining root) := hs ▸ h.stage s
  obtain ⟨R, hR, rfl⟩ := map_eq_some_iff.mp hroot
  by_cases hne : s = R
  · subst hne
    exact h.joinRoot fresh hs hR clock
  · exact h.joinChild fresh hs hR hne clock

theorem link {root : UInt64} (h : σ.Inv) (hs : σ.phase s = .linking root) :
    Inv { σ.setPhase s .live with inner := σ.inner.link (σ.id s) root } := by
  set σ' : System := { σ.setPhase s .live with inner := σ.inner.link (σ.id s) root }
  have hm : Moves σ σ' s .live := ⟨rfl, rfl, rfl, rfl⟩
  have hjoined : σ.Joined s := by simp [Joined, hs]
  have hactive : σ.phase s ≠ .closed := by simp [hs]
  have hnotLive : σ.phase s ≠ .live := by simp [hs]
  have hframe := hm.frame hjoined (by simp) hactive
  obtain ⟨hroot, hsilent, hbuilds⟩ : σ.Stage s (.linking root) := hs ▸ h.stage s
  apply h.moves hm hjoined (by simp) hactive (h.forest.children_closed hnotLive) rfl
    (h.span_ne hnotLive) rfl
  case hopen => exact fun t _ _ _ => (hframe t).builds h.forest rfl
  case hbelongs =>
    intro t hne hlive
    exact AList.lookup_insert_ne (h.id_ne hactive (by simp [hlive]) hne)
  case hoffered => exact fun _ _ => rfl
  case hpushed => exact fun _ _ => rfl
  case hs =>
    refine ⟨?_, hsilent, fun hR => (hframe s).builds h.forest rfl (hbuilds hR)⟩
    exact (AList.lookup_insert _).trans hroot.symm
  case hopenOf => exact fun k held hheld => ⟨⟨held, hheld⟩, fun _ _ => rfl⟩
  case hbelongsOf =>
    intro k root' hk
    by_cases heq : k = σ.id s
    · exact .inr ⟨heq, rfl⟩
    · exact .inl ⟨heq, root', (AList.lookup_insert_ne heq).symm.trans hk⟩
  case hring => exact h.ring

theorem close (h : σ.Inv) (hs : σ.phase s = .live) (hmay : σ.MayClose s) :
    Inv { σ.setPhase s ((σ.inner.rootOf (σ.id s)).elim .closed .closing) with
      inner := σ.inner.unlink (σ.id s) } := by
  set phase : Phase := (σ.inner.rootOf (σ.id s)).elim .closed .closing with hphase
  set σ' : System := { σ.setPhase s phase with inner := σ.inner.unlink (σ.id s) }
  have hm : Moves σ σ' s phase := ⟨rfl, rfl, rfl, rfl⟩
  have hjoined : σ.Joined s := by simp [Joined, hs]
  have hactive : σ.phase s ≠ .closed := by simp [hs]
  obtain ⟨hroot, hsilent, hbuilds⟩ : σ.Stage s .live := hs ▸ h.stage s
  have hcases : σ.root s = none ∧ phase = .closed ∨
      ∃ root, (σ.root s).map σ.id = some root ∧ phase = .closing root := by
    rw [hphase, hroot]
    cases σ.root s with
    | none => exact .inl ⟨rfl, rfl⟩
    | some R => exact .inr ⟨σ.id R, rfl, rfl⟩
  have hjoining : ∀ root, phase ≠ .joining root := by
    intro root
    rcases hcases with ⟨-, hp⟩ | ⟨_, -, hp⟩ <;> simp [hp]
  have hframe := hm.frame hjoined hjoining hactive
  have hchildren : ∀ t, σ.parent t = some s → σ.phase t = .closed := by
    intro t ht
    by_contra hopen
    exact hopen (Phase.isClosed_iff.mp (hmay.1 t (h.forest.lt_count hopen) ht))
  have hopening : phase.isOpening = false := by
    rcases hcases with ⟨-, hp⟩ | ⟨_, -, hp⟩ <;> simp [hp, Phase.isOpening]
  apply h.moves hm hjoined hjoining hactive hchildren hopening hmay.2 rfl
  case hopen => exact fun t _ _ _ => (hframe t).builds h.forest rfl
  case hbelongs =>
    intro t hne hlive
    exact AList.lookup_erase_ne (h.id_ne hactive (by simp [hlive]) hne)
  case hoffered => exact fun _ _ => rfl
  case hpushed => exact fun _ _ => rfl
  case hs =>
    rcases hcases with ⟨hnone, hp⟩ | ⟨root, hsome, hp⟩
    · rw [hp, Stage, if_neg]
      · exact hsilent
      · rw [hm.root, hnone]
        nofun
    · rw [hp]
      exact ⟨hsome, hsilent, fun hR => (hframe s).builds h.forest rfl (hbuilds hR)⟩
  case hopenOf =>
    intro k held hheld
    refine ⟨⟨held, hheld⟩, fun hR _ => ?_⟩
    rcases hcases with ⟨hnone, -⟩ | ⟨root, -, hp⟩
    · rw [hR] at hnone
      nomatch hnone
    · rw [hp]
      rfl
  case hbelongsOf =>
    intro k root hk
    have hne : k ≠ σ.id s := by
      rintro rfl
      have hnone : σ'.inner.rootOf (σ.id s) = none := AList.lookup_erase ..
      rw [hnone] at hk
      nomatch hk
    exact .inl ⟨hne, root, (AList.lookup_erase_ne hne).symm.trans hk⟩
  case hring => exact h.ring

theorem closeRoot (h : σ.Inv) (hs : σ.phase s = .closing (σ.id s)) (hR : σ.root s = some s)
    (now : ℕ) :
    let r := σ.inner.closeSpan (σ.id s) (σ.id s) now
    Inv { σ.setPhase s (r.1.elim .closed .sweeping) with inner := r.2 } := by
  have hactive : σ.phase s ≠ .closed := by simp [hs]
  have hnotLive : σ.phase s ≠ .live := by simp [hs]
  obtain ⟨-, hsilent, hbuilds⟩ : σ.Stage s (.closing (σ.id s)) := hs ▸ h.stage s
  obtain ⟨held, members, hheld, hbuilt⟩ := hbuilds hR
  rw [Inner.closeSpan_of_eq now hheld hbuilt.root]
  show Inv { σ.setPhase s (.sweeping (held.setDuration (σ.id s) now)) with
    inner := { σ.inner with openTraces := σ.inner.openTraces.erase (σ.id s) } }
  set σ' : System := { σ.setPhase s (.sweeping (held.setDuration (σ.id s) now)) with
    inner := { σ.inner with openTraces := σ.inner.openTraces.erase (σ.id s) } }
  have hm : Moves σ σ' s (.sweeping (held.setDuration (σ.id s) now)) := ⟨rfl, rfl, rfl, rfl⟩
  have hjoined : σ.Joined s := by simp [Joined, hs]
  have hframe := hm.frame hjoined (by simp) hactive
  apply h.moves hm hjoined (by simp) hactive (h.forest.children_closed hnotLive) rfl
    (h.span_ne hnotLive) rfl
  case hopen =>
    intro t hne hphase _ hb
    have hid := h.id_ne hactive (Phase.builds_ne_closed hphase) hne
    exact (hframe t).builds h.forest (AList.lookup_erase_ne hid) hb
  case hbelongs => exact fun _ _ _ => rfl
  case hoffered => exact fun _ _ => rfl
  case hpushed => exact fun _ _ => rfl
  case hs =>
    refine ⟨hR, hsilent, (hframe s).gathered h.forest ?_⟩
    exact ⟨members, hbuilt.trace.setDuration _ now, hbuilt.mem⟩
  case hopenOf =>
    intro k held' hheld'
    have hne : k ≠ σ.id s := by
      rintro rfl
      rw [AList.lookup_erase] at hheld'
      nomatch hheld'
    exact ⟨⟨held', (AList.lookup_erase_ne hne).symm.trans hheld'⟩, fun _ hk => absurd hk hne⟩
  case hbelongsOf => exact fun k root hk => .inl ⟨h.id_ne_of_belongs hk hactive hnotLive, root, hk⟩
  case hring => exact h.ring

theorem closeChild (h : σ.Inv) (hs : σ.phase s = .closing (σ.id R)) (hR : σ.root s = some R)
    (hne : s ≠ R) (now : ℕ) :
    let r := σ.inner.closeSpan (σ.id s) (σ.id R) now
    Inv { σ.setPhase s (r.1.elim .closed .sweeping) with inner := r.2 } := by
  have hactive : σ.phase s ≠ .closed := by simp [hs]
  have hnotLive : σ.phase s ≠ .live := by simp [hs]
  obtain ⟨-, hsilent, -⟩ : σ.Stage s (.closing (σ.id R)) := hs ▸ h.stage s
  have hlive : σ.phase R = .live := h.forest.live_above hR hactive hne
  have hopenR : σ.phase R ≠ .closed := by simp [hlive]
  obtain ⟨held, members, hheld, hbuilt⟩ :=
    h.builds (by simp [hlive, Phase.builds]) (h.forest.root_root hR)
  rw [Inner.closeSpan_of_ne now hheld (hbuilt.root ▸ h.id_ne hactive hopenR hne.symm)]
  show Inv { σ.setPhase s .closed with
    inner := { σ.inner with
      openTraces := σ.inner.openTraces.insert (σ.id R) (held.setDuration (σ.id s) now) } }
  set σ' : System := { σ.setPhase s .closed with
    inner := { σ.inner with
      openTraces := σ.inner.openTraces.insert (σ.id R) (held.setDuration (σ.id s) now) } }
  have hm : Moves σ σ' s .closed := ⟨rfl, rfl, rfl, rfl⟩
  have hjoined : σ.Joined s := by simp [Joined, hs]
  have hframe := hm.frame hjoined (by simp) hactive
  apply h.moves hm hjoined (by simp) hactive (h.forest.children_closed hnotLive) rfl
    (h.span_ne hnotLive) rfl
  case hopen =>
    intro t _ hphase hroot hb
    by_cases heq : t = R
    · subst heq
      refine ⟨held.setDuration (σ.id s) now, members, AList.lookup_insert _, ?_⟩
      apply (hframe t).buildsWith h.forest
      constructor
      case root => rw [Open.setDuration_root, hbuilt.root]
      case trace => exact hbuilt.trace.setDuration _ now
      case mem => exact hbuilt.mem
      case index => rw [Open.setDuration_index]; exact hbuilt.index
    · have hid := h.id_ne hopenR (Phase.builds_ne_closed hphase) heq
      exact (hframe t).builds h.forest (AList.lookup_insert_ne hid) hb
  case hbelongs => exact fun _ _ _ => rfl
  case hoffered => exact fun _ _ => rfl
  case hpushed => exact fun _ _ => rfl
  case hs =>
    rw [Stage, if_neg]
    · exact hsilent
    · rw [hm.root, hR]
      exact fun heq => hne (Option.some.inj heq).symm
  case hopenOf =>
    intro k held' hheld'
    refine ⟨?_, fun hself _ => absurd (Option.some.inj (hR.symm.trans hself)) hne.symm⟩
    by_cases hk : k = σ.id R
    · exact ⟨held, hk ▸ hheld⟩
    · exact ⟨held', (AList.lookup_insert_ne hk).symm.trans hheld'⟩
  case hbelongsOf => exact fun k root hk => .inl ⟨h.id_ne_of_belongs hk hactive hnotLive, root, hk⟩
  case hring => exact h.ring

theorem closeSpan {root : UInt64} (h : σ.Inv) (hs : σ.phase s = .closing root) (now : ℕ) :
    let r := σ.inner.closeSpan (σ.id s) root now
    Inv { σ.setPhase s (r.1.elim .closed .sweeping) with inner := r.2 } := by
  obtain ⟨hroot, -, -⟩ : σ.Stage s (.closing root) := hs ▸ h.stage s
  obtain ⟨R, hR, rfl⟩ := map_eq_some_iff.mp hroot
  by_cases hne : s = R
  · subst hne
    exact h.closeRoot hs hR now
  · exact h.closeChild hs hR hne now

/-- The close of a root has taken its trace, and what is left of it concerns no other span. -/
theorem finishes (h : σ.Inv) (hm : Moves σ σ' s phase)
    (hends : σ.Joined s ∧ σ.phase s ≠ .closed ∧ σ.phase s ≠ .live ∧ (σ.phase s).builds = false)
    (hphase : ∀ root, phase ≠ .joining root) (hopening : phase.isOpening = false)
    (hrecords : σ'.records = σ.records) (htraces : σ'.inner.openTraces = σ.inner.openTraces)
    (hroot : ∀ k, σ'.inner.rootOf k = σ.inner.rootOf k)
    (hoffered : ∀ t ≠ s, tracesOf σ'.offered t = tracesOf σ.offered t)
    (hpushed : ∀ t ≠ s, tracesOf σ'.pushed t = tracesOf σ.pushed t) (hs : σ'.Stage s phase)
    (hring : σ'.inner.finished =
      (σ'.pushed.map Prod.snd).drop (σ'.pushed.length - σ'.inner.ring)) : σ'.Inv := by
  obtain ⟨hjoined, hactive, hnotLive, hbuilds⟩ := hends
  refine h.moves hm hjoined hphase hactive (h.forest.children_closed hnotLive) hopening
    (h.span_ne hnotLive) hrecords (fun t _ _ _ => ?_) (fun t _ _ => hroot _) hoffered hpushed hs
    (fun k held hheld => ?_) (fun k root hk => ?_) hring
  · exact (hm.frame hjoined hphase hactive t).builds h.forest (by rw [htraces])
  · rw [htraces] at hheld
    exact ⟨⟨held, hheld⟩, fun _ hk => absurd hk (h.id_ne_of_open hheld hactive hbuilds)⟩
  · rw [hroot] at hk
    exact .inl ⟨h.id_ne_of_belongs hk hactive hnotLive, root, hk⟩

theorem sweep {held : Open} (h : σ.Inv) (hs : σ.phase s = .sweeping held)
    (hunused : ∀ k ∈ held.ids, σ.inner.rootOf k = none) :
    Inv { σ.setPhase s (.offering held) with inner := σ.inner.sweep held.ids } := by
  set σ' : System := { σ.setPhase s (.offering held) with inner := σ.inner.sweep held.ids }
  have hm : Moves σ σ' s (.offering held) := ⟨rfl, rfl, rfl, rfl⟩
  have hjoined : σ.Joined s := by simp [Joined, hs]
  have hframe := hm.frame hjoined (by simp) (by simp [hs])
  obtain ⟨hR, hsilent, hg⟩ : σ.Stage s (.sweeping held) := hs ▸ h.stage s
  exact h.finishes hm ⟨hjoined, by simp [hs, Phase.builds]⟩ (by simp) rfl rfl rfl
    (Inner.rootOf_sweep hunused) (fun _ _ => rfl) (fun _ _ => rfl)
    ⟨hR, hsilent, (hframe s).gathered h.forest hg⟩ h.ring

theorem offer {held : Open} (h : σ.Inv) (hs : σ.phase s = .offering held) (now : ℕ) :
    Inv { σ.setPhase s (.pushing (held.finish now)) with
      offered := σ.offered ++ [(s, held.finish now)] } := by
  set σ' : System := { σ.setPhase s (.pushing (held.finish now)) with
    offered := σ.offered ++ [(s, held.finish now)] }
  have hm : Moves σ σ' s (.pushing (held.finish now)) := ⟨rfl, rfl, rfl, rfl⟩
  have hjoined : σ.Joined s := by simp [Joined, hs]
  have hframe := hm.frame hjoined (by simp) (by simp [hs])
  obtain ⟨hR, hsilent, hg⟩ : σ.Stage s (.offering held) := hs ▸ h.stage s
  refine h.finishes hm ⟨hjoined, by simp [hs, Phase.builds]⟩ (by simp) rfl rfl rfl (fun _ => rfl)
    (fun t hne => tracesOf_append_of_ne _ hne _) (fun _ _ => rfl)
    ⟨hR, ?_, hsilent.2, (hframe s).gathered h.forest hg⟩ h.ring
  rw [tracesOf_append_self, hsilent.1]
  rfl

theorem push {trace : Trace} (h : σ.Inv) (hs : σ.phase s = .pushing trace) :
    Inv { σ.setPhase s .closed with
      inner := σ.inner.push trace
      pushed := σ.pushed ++ [(s, trace)] } := by
  set σ' : System := { σ.setPhase s .closed with
    inner := σ.inner.push trace
    pushed := σ.pushed ++ [(s, trace)] }
  have hm : Moves σ σ' s .closed := ⟨rfl, rfl, rfl, rfl⟩
  have hjoined : σ.Joined s := by simp [Joined, hs]
  have hframe := hm.frame hjoined (by simp) (by simp [hs])
  obtain ⟨hR, hoffered, hpushed, hg⟩ : σ.Stage s (.pushing trace) := hs ▸ h.stage s
  refine h.finishes hm ⟨hjoined, by simp [hs, Phase.builds]⟩ (by simp) rfl rfl
    (Inner.push_openTraces ..) (fun k => congrArg (AList.lookup k) (Inner.push_belongs ..))
    (fun _ _ => rfl) (fun t hne => tracesOf_append_of_ne _ hne _) ?_ ?_
  · rw [Stage, if_pos (by rw [hm.root, hR])]
    refine ⟨trace, hoffered, ?_, (hframe s).gathered h.forest hg⟩
    rw [tracesOf_append_self, hpushed]
    rfl
  · have hring : σ.inner.finished = (σ.pushed.map Prod.snd).drop
        ((σ.pushed.map Prod.snd).length - σ.inner.ring) := by
      rw [length_map]
      exact h.ring
    show (σ.inner.push trace).finished = ((σ.pushed ++ [(s, trace)]).map Prod.snd).drop
      ((σ.pushed ++ [(s, trace)]).length - (σ.inner.push trace).ring)
    rw [Inner.finished_push hring, Inner.push_ring, map_append]
    simp

/-- A call finds the root of the span that it records for; a span under no root is not
collected. -/
theorem record (h : σ.Inv) (hs : σ.phase s = .live) (values : Fields) :
    Inv (match σ.inner.rootOf (σ.id s) with
      | some root => { σ with records := σ.records ++ [⟨s, root, values⟩] }
      | none => { σ with fields := update σ.fields s (values ∪ σ.fields s) }) := by
  obtain ⟨hroot, -, -⟩ : σ.Stage s .live := hs ▸ h.stage s
  rw [hroot]
  cases hR : σ.root s with
  | some R =>
    show Inv { σ with records := σ.records ++ [⟨s, σ.id R, values⟩] }
    set σ' : System := { σ with records := σ.records ++ [⟨s, σ.id R, values⟩] }
    have hframe : ∀ t, Frame σ σ' t := fun t =>
      ⟨rfl, fun _ _ => rfl, fun _ => .rfl, fun _ _ => rfl, fun _ => rfl, fun _ _ h => h⟩
    constructor
    case forest => exact { h.forest with }
    case stage =>
      intro t
      have hf := hframe t
      exact hf.stage h.forest (fun _ _ => hf.builds h.forest rfl) (fun _ => rfl) rfl rfl
        (h.stage t)
    case open_of => exact h.open_of
    case belongs_of => exact h.belongs_of
    case records =>
      intro e he
      rcases mem_append.mp he with he | he
      · exact h.records e he
      · obtain rfl := mem_singleton.mp he
        refine ⟨hs, ?_⟩
        show (σ.root s).map σ.id = some (σ.id R)
        rw [hR]
        rfl
    case ring => exact h.ring
  | none =>
    show Inv { σ with fields := update σ.fields s (values ∪ σ.fields s) }
    set σ' : System := { σ with fields := update σ.fields s (values ∪ σ.fields s) }
    have hframe : ∀ t, Frame σ σ' t := by
      refine fun t => ⟨rfl, fun _ _ => rfl, fun _ => .rfl, fun u hu => ?_, fun ht => ?_,
        fun _ _ h => h⟩
      · apply update_of_ne
        rintro rfl
        rw [hu.1] at hR
        nomatch hR
      · apply update_of_ne
        rintro rfl
        exact ht hs
    constructor
    case forest => exact { h.forest with }
    case stage =>
      intro t
      have hf := hframe t
      exact hf.stage h.forest (fun _ _ => hf.builds h.forest rfl) (fun _ => rfl) rfl rfl
        (h.stage t)
    case open_of => exact h.open_of
    case belongs_of => exact h.belongs_of
    case records => exact h.records
    case ring => exact h.ring

theorem extendFields {i : ℕ} {e : Recording} (h : σ.Inv) (he : σ.records[i]? = some e) :
    Inv { σ with
      inner := σ.inner.extendFields (σ.id e.span) e.root e.values
      fields := update σ.fields e.span (e.values ∪ σ.fields e.span)
      records := σ.records.eraseIdx i } := by
  obtain ⟨hlive, hroot⟩ := h.records e (mem_of_getElem? he)
  obtain ⟨R, hR, hroot⟩ := map_eq_some_iff.mp hroot
  have hliveR : σ.phase R = .live := by
    by_cases hne : e.span = R
    · exact hne ▸ hlive
    · exact h.forest.live_above hR (by simp [hlive]) hne
  have hopenR : σ.phase R ≠ .closed := by simp [hliveR]
  obtain ⟨held, members, hheld, hbuilt⟩ :=
    h.builds (by simp [hliveR, Phase.builds]) (h.forest.root_root hR)
  obtain ⟨at', hat⟩ := mem_iff_getElem?.mp
    ((hbuilt.mem e.span).mpr ⟨hR, by simp [Joined, hlive]⟩)
  have hindex := hbuilt.index at' e.span hat (by simp [hlive])
  rw [← hroot, Inner.extendFields_of_lookup e.values hheld hindex]
  set σ' : System := { σ with
    inner := { σ.inner with
      openTraces := σ.inner.openTraces.insert (σ.id R) (held.extendFields at' e.values) }
    fields := update σ.fields e.span (e.values ∪ σ.fields e.span)
    records := σ.records.eraseIdx i }
  have hframe : ∀ t ≠ R, Frame σ σ' t := by
    refine fun t hne => ⟨rfl, fun _ _ => rfl, fun _ => .rfl, fun u hu => ?_, fun ht => ?_,
      fun _ _ h => h⟩
    · apply update_of_ne
      rintro rfl
      exact hne (Option.some.inj (hu.1.symm.trans hR))
    · apply update_of_ne
      rintro rfl
      exact ht hlive
  constructor
  case forest => exact { h.forest with }
  case stage =>
    intro t
    by_cases heq : t = R
    · subst heq
      obtain ⟨hrootR, hsilent, -⟩ : σ.Stage t .live := hliveR ▸ h.stage t
      show σ'.Stage t (σ.phase t)
      rw [hliveR]
      refine ⟨hrootR, hsilent, fun _ => ⟨_, members, AList.lookup_insert _, ?_⟩⟩
      exact ⟨hbuilt.root, hbuilt.trace.extendFields e.values hat (fun _ _ => rfl) rfl, hbuilt.mem,
        hbuilt.index⟩
    · have hf := hframe t heq
      apply hf.stage h.forest _ (fun _ => rfl) rfl rfl (h.stage t)
      intro hphase _ hb
      have hid := h.id_ne hopenR (Phase.builds_ne_closed hphase) heq
      exact hf.builds h.forest (AList.lookup_insert_ne hid) hb
  case open_of =>
    intro k held' hheld'
    by_cases hk : k = σ.id R
    · exact h.open_of k held (hk ▸ hheld)
    · exact h.open_of k held' ((AList.lookup_insert_ne hk).symm.trans hheld')
  case belongs_of => exact h.belongs_of
  case records => exact fun e' he' => h.records e' (mem_of_mem_eraseIdx he')
  case ring => exact h.ring

/-- Every step keeps the invariant, as long as no root's close finds a used id. -/
theorem step {fresh : UInt64 → List UInt8} {a : Action} (h : σ.Inv) (hunused : σ.Unused a)
    (hstep : σ.step fresh a = some σ') : σ'.Inv := by
  cases a with
  | enter k parent attrs =>
    rw [System.step, ite_none_right_eq_some] at hstep
    obtain ⟨hmay, hstep⟩ := hstep
    exact Option.some.inj hstep ▸ h.enter hmay attrs
  | join s clock =>
    rw [System.step] at hstep
    split at hstep
    next hs => exact Option.some.inj hstep ▸ h.join fresh hs clock
    next => nomatch hstep
  | link s =>
    rw [System.step] at hstep
    split at hstep
    next hs => exact Option.some.inj hstep ▸ h.link hs
    next => nomatch hstep
  | record s values =>
    rw [System.step, ite_none_right_eq_some] at hstep
    obtain ⟨hs, hstep⟩ := hstep
    have hrecord := h.record (Phase.isLive_iff.mp hs) (Tracing.record values)
    split at hstep
    next root hroot =>
      rw [hroot] at hrecord
      exact Option.some.inj hstep ▸ hrecord
    next hroot =>
      rw [hroot] at hrecord
      exact Option.some.inj hstep ▸ hrecord
  | extendFields i =>
    rw [System.step] at hstep
    split at hstep
    next => nomatch hstep
    next e he => exact Option.some.inj hstep ▸ h.extendFields he
  | close s =>
    rw [System.step, ite_none_right_eq_some] at hstep
    obtain ⟨⟨hs, hmay⟩, hstep⟩ := hstep
    exact Option.some.inj hstep ▸ h.close (Phase.isLive_iff.mp hs) hmay
  | closeSpan s now =>
    rw [System.step] at hstep
    split at hstep
    next hs => exact Option.some.inj hstep ▸ h.closeSpan hs now
    next => nomatch hstep
  | sweep s =>
    rw [System.step] at hstep
    split at hstep
    next held hs =>
      rw [Unused, swept, hs] at hunused
      exact Option.some.inj hstep ▸ h.sweep hs hunused
    next => nomatch hstep
  | offer s now =>
    rw [System.step] at hstep
    split at hstep
    next hs => exact Option.some.inj hstep ▸ h.offer hs now
    next => nomatch hstep
  | push s =>
    rw [System.step] at hstep
    split at hstep
    next hs => exact Option.some.inj hstep ▸ h.push hs
    next => nomatch hstep

theorem complete (h : σ.Inv) : σ.Complete where
  finished R hR hclosed := by
    have hstage : σ.Stage R .closed := hclosed ▸ h.stage R
    rw [Stage, if_pos hR] at hstage
    obtain ⟨trace, hoffered, hpushed, members, htrace, hmem⟩ := hstage
    refine ⟨trace, members, hoffered, hpushed, htrace, fun s => (hmem s).trans ?_⟩
    refine and_iff_left_of_imp fun hs root hjoining => ?_
    have hne : s ≠ R := by
      rintro rfl
      rw [hclosed] at hjoining
      nomatch hjoining
    have hlive := h.forest.live_above hs (by simp [hjoining]) hne
    rw [hclosed] at hlive
    nomatch hlive
  only e he := by
    by_contra hne
    have hsilent : σ.Silent e.1 := by
      have hstage := h.stage e.1
      cases hphase : σ.phase e.1 with
      | joining root => exact (hphase ▸ hstage : σ.Stage e.1 (.joining root)).2.1
      | linking root => exact (hphase ▸ hstage : σ.Stage e.1 (.linking root)).2.1
      | live => exact (hphase ▸ hstage : σ.Stage e.1 .live).2.1
      | closing root => exact (hphase ▸ hstage : σ.Stage e.1 (.closing root)).2.1
      | sweeping held => exact (hphase ▸ hstage : σ.Stage e.1 (.sweeping held)).2.1
      | offering held => exact (hphase ▸ hstage : σ.Stage e.1 (.offering held)).2.1
      | pushing trace => exact absurd (hphase ▸ hstage : σ.Stage e.1 (.pushing trace)).1 hne
      | closed =>
        rw [hphase, Stage, if_neg hne] at hstage
        exact hstage
    rcases he with he | he
    · exact tracesOf_eq_nil_iff.mp hsilent.1 e he rfl
    · exact tracesOf_eq_nil_iff.mp hsilent.2 e he rfl
  ring := h.ring
  empty hclosed := by
    constructor
    · apply eq_empty_of_lookup
      intro k
      cases hk : σ.inner.openTraces.lookup k with
      | none => rfl
      | some held =>
        obtain ⟨R, -, -, hR⟩ := h.open_of k held hk
        exact absurd (hclosed R) (Phase.builds_ne_closed hR)
    · apply eq_empty_of_lookup
      intro k
      cases hk : σ.inner.belongs.lookup k with
      | none => rfl
      | some root =>
        obtain ⟨s, hs, -⟩ := h.belongs_of k root hk
        rw [hclosed] at hs
        nomatch hs

end Inv

/-- In every run in which no root's close finds an id of its trace in the table of roots, every
closed root has one finished trace, which shows the spans whose nearest root it is, and once all
spans are closed the tables are empty. -/
theorem collection_complete {fresh : UInt64 → List UInt8} {ring : ℕ} {σ : System}
    (h : Run (step fresh) Unused (init ring) σ) : σ.Complete := by
  have hinv : σ.Inv :=
    h.invariant (Inv.init ring) fun _ _ _ hinv hunused hstep => Inv.step hinv hunused hstep
  exact hinv.complete

/-- A root with a child for which a field is recorded, and the trace of the two. -/
theorem collection_complete_two : ∃ σ, Run (step fun _ => []) Unused (init 1) σ ∧ σ.Complete ∧
    σ.inner.finished.map (fun trace => trace.spans.map fun span => (span.name, span.parent)) =
      [[("job", none), ("step", some 0)]] := by
  have hexec : (exec (step fun _ => []) (fun σ a => decide (σ.Unused a)) (init 1)
      [.enter 1 none ⟨"job", "app", .info, [(ROOT_FIELD, .bool true)]⟩, .join 0 ⟨0, 0, 0⟩, .link 0,
        .enter 2 (some 0) ⟨"step", "app", .info, []⟩, .join 1 ⟨1, 1, 1⟩, .link 1,
        .record 1 [("rows", .uint 5)], .extendFields 0, .close 1, .closeSpan 1 2, .close 0,
        .closeSpan 0 3, .sweep 0, .offer 0 4, .push 0]).map
      (fun σ => σ.inner.finished.map fun trace =>
        trace.spans.map fun span => (span.name, span.parent)) =
      some [[("job", none), ("step", some 0)]] := by
    rfl
  obtain ⟨σ, hσ, hfinished⟩ := Option.map_eq_some_iff.mp hexec
  have hrun := run_of_exec (fun _ _ h => of_decide_eq_true h) hσ
  exact ⟨σ, hrun, collection_complete hrun, hfinished⟩

/-- A root whose id was that of a closed span of another trace. The close of that trace takes the
id out of the table of roots, so that the root is closed without a trace, and stays among the open
ones. -/
theorem reused_id_lost : ∃ σ, Reachable (step fun _ => []) (init DEFAULT_RING) σ ∧
    σ.phase 2 = .closed ∧ σ.root 2 = some 2 ∧ tracesOf σ.offered 2 = [] ∧
    2 ∈ σ.inner.openTraces ∧ ¬ σ.Complete := by
  have hexec : (exec (step fun _ => []) (fun _ _ => true) (init DEFAULT_RING)
      [.enter 1 none ⟨"job", "app", .info, [(ROOT_FIELD, .bool true)]⟩, .join 0 ⟨0, 0, 0⟩, .link 0,
        .enter 2 (some 0) ⟨"step", "app", .info, []⟩, .join 1 ⟨1, 1, 1⟩, .link 1, .close 1,
        .closeSpan 1 2, .enter 2 none ⟨"job", "app", .info, [(ROOT_FIELD, .bool true)]⟩,
        .join 2 ⟨3, 3, 3⟩, .link 2, .close 0, .closeSpan 0 4, .sweep 0, .offer 0 5, .push 0,
        .close 2]).map
      (fun σ => ((σ.phase 2).isClosed, σ.root 2, (tracesOf σ.offered 2).length,
        σ.inner.openTraces.keys)) =
      some (true, some 2, 0, [2]) := by
    rfl
  obtain ⟨σ, hσ, heq⟩ := Option.map_eq_some_iff.mp hexec
  obtain ⟨hclosed, hroot, hoffered, hopen⟩ : (σ.phase 2).isClosed = true ∧ σ.root 2 = some 2 ∧
      (tracesOf σ.offered 2).length = 0 ∧ σ.inner.openTraces.keys = [2] := by
    simpa only [Prod.mk.injEq] using heq
  have hclosed := Phase.isClosed_iff.mp hclosed
  have hnone : tracesOf σ.offered 2 = [] := List.length_eq_zero_iff.mp hoffered
  refine ⟨σ, reachable_of_exec hσ, hclosed, hroot, hnone, ?_, fun hcomplete => ?_⟩
  · rw [AList.mem_keys, hopen]
    exact List.mem_singleton_self 2
  · obtain ⟨trace, members, hone, -⟩ := hcomplete.finished 2 hroot hclosed
    rw [hnone] at hone
    nomatch hone

end System

end Fibre.Tracing
