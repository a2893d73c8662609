import Fibre.Cache.HS3Fifo
import Fibre.Cache.S3Order

/-!
# The ghost list of S3-FIFO

Both S3-FIFO policies remember what they evict from the small queue: a set of ghosts, by which
an admission goes to the main queue, and their order, by which the oldest ages out. An admission
takes the key from the set and leaves its place in the order stale. To say which places are
live, a run carries a mark for each: the place is live until its key is admitted again.

When the order is full the key at its front leaves the set, also when that place is stale and
the key has a live one further on. Such a ghost is lost before it ages out.
-/

namespace Fibre.Cache

open List Nat

/-- A ghost list: the ghosts, and the order they came in. -/
structure Ghosts (γ : Type*) where
  cap : ℕ
  set : Finset γ
  order : List γ

/-- What a turn of a policy does to its ghost list. -/
inductive GhostMove (γ : Type*)
  /-- The key is evicted from the small queue. -/
  | remember (key : γ)
  /-- The key is admitted. -/
  | take (key : γ)
  /-- The policy is cleared. -/
  | clear

/-- The places of a ghost order, each with whether it is live. -/
abbrev Marks (γ : Type*) := List (γ × Bool)

namespace Ghosts

variable {γ : Type*} [DecidableEq γ]

/-- The ghost list without its oldest place, when the order is full. -/
def aged (G : Ghosts γ) : Ghosts γ :=
  if G.cap ≤ G.order.length then
    match G.order with
    | old :: rest => { G with set := G.set.erase old, order := rest }
    | [] => G
  else G

def move (G : Ghosts γ) : GhostMove γ → Ghosts γ
  | .remember key =>
    let kept := rememberGhost G.cap G.set G.order key
    { G with set := kept.1, order := kept.2 }
  | .take key => { G with set := G.set.erase key }
  | .clear => { G with set := ∅, order := [] }

def agedMarks (G : Ghosts γ) (marks : Marks γ) : Marks γ :=
  if G.cap ≤ G.order.length then marks.tail else marks

/-- The marks after a move: a place taken at the end is live, and those of an admitted key are
stale. -/
def mark (G : Ghosts γ) (marks : Marks γ) : GhostMove γ → Marks γ
  | .remember key =>
    -- a ghost keeps its place
    if key ∈ G.aged.set then G.agedMarks marks else G.agedMarks marks ++ [(key, true)]
  | .take key => marks.map fun e => if e.1 = key then (key, false) else e
  | .clear => []

/-- The move drops no live place but the oldest: the key at the front of a full order is no
ghost with another place in the order, unless it is the key remembered. -/
def Keeps (G : Ghosts γ) : GhostMove γ → Prop
  | .remember key => ∀ old ∈ G.order.head?, G.cap ≤ G.order.length →
      old ∈ G.set → old ∈ G.order.tail → old = key
  | _ => True

instance (G : Ghosts γ) : DecidablePred G.Keeps
  | .remember key => inferInstanceAs (Decidable (∀ old ∈ G.order.head?, G.cap ≤ G.order.length →
      old ∈ G.set → old ∈ G.order.tail → old = key))
  | .take _ => inferInstanceAs (Decidable True)
  | .clear => inferInstanceAs (Decidable True)

/-- The order has at most `cap` places, and every ghost has a live one. -/
structure Held (G : Ghosts γ) (marks : Marks γ) : Prop where
  pos : 0 < G.cap
  bounded : G.order.length ≤ G.cap
  places : marks.map (·.1) = G.order
  live : ∀ key ∈ G.set, (key, true) ∈ marks

/-- Every key with a live place is a ghost. -/
def Kept (G : Ghosts γ) (marks : Marks γ) : Prop := ∀ key, (key, true) ∈ marks → key ∈ G.set

variable {G : Ghosts γ} {marks : Marks γ} {key : γ}

theorem aged_of_full {old : γ} {rest : List γ} (h : G.order = old :: rest)
    (hfull : G.cap ≤ G.order.length) :
    G.aged = { G with set := G.set.erase old, order := rest } := by
  unfold aged
  rw [if_pos hfull]
  split
  · next old' rest' heq =>
    obtain ⟨rfl, rfl⟩ := List.cons.inj (heq.symm.trans h)
    rfl
  · next heq => simp [heq] at h

theorem aged_of_lt (h : G.order.length < G.cap) : G.aged = G := if_neg (not_le.mpr h)

/-- Remembering a key is aging, and then a place at the end unless the key has one. -/
theorem move_remember (G : Ghosts γ) (key : γ) : G.move (.remember key) =
    if key ∈ G.aged.set then G.aged
    else { G.aged with set := insert key G.aged.set, order := G.aged.order ++ [key] } := by
  have hkept : rememberGhost G.cap G.set G.order key =
      if key ∈ G.aged.set then (G.aged.set, G.aged.order)
      else (insert key G.aged.set, G.aged.order ++ [key]) := by
    obtain ⟨cap, set, order⟩ := G
    unfold rememberGhost aged
    cases order <;> split_ifs <;> simp_all
  have hcap : G.aged.cap = G.cap := by
    unfold aged
    split_ifs
    · split <;> rfl
    · rfl
  unfold move
  simp only [hkept]
  split_ifs <;> simp [← hcap]

theorem mem_move_remember (G : Ghosts γ) (key : γ) : key ∈ (G.move (.remember key)).set := by
  rw [move_remember]
  split_ifs with hmem
  · exact hmem
  · exact Finset.mem_insert_self _ _

theorem mem_of_mem_move {m : GhostMove γ} (h : key ∈ (G.move m).set) :
    m = .remember key ∨ key ∈ G.set ∧ m ≠ .take key := by
  have haged : ∀ k, k ∈ G.aged.set → k ∈ G.set := by
    intro k hk
    unfold aged at hk
    split_ifs at hk
    · split at hk
      · exact Finset.mem_of_mem_erase hk
      · exact hk
    · exact hk
  cases m with
  | remember k =>
    rw [move_remember] at h
    split_ifs at h
    · exact .inr ⟨haged key h, by simp⟩
    · rcases Finset.mem_insert.mp h with rfl | h
      · exact .inl rfl
      · exact .inr ⟨haged key h, by simp⟩
  | take k =>
    obtain ⟨hne, h⟩ := Finset.mem_erase.mp h
    exact .inr ⟨h, fun heq => hne (GhostMove.take.inj heq).symm⟩
  | clear => simp [move] at h

theorem Held.aged (h : G.Held marks) :
    G.aged.Held (G.agedMarks marks) ∧ G.aged.order.length < G.aged.cap := by
  have hpos := h.pos
  unfold agedMarks
  by_cases hfull : G.cap ≤ G.order.length
  · rw [if_pos hfull]
    cases ho : G.order with
    | nil =>
      rw [ho] at hfull
      exact absurd hpos (not_lt.mpr hfull)
    | cons old rest =>
      have hb := h.bounded
      have hp := h.places
      rw [ho] at hb hp
      obtain ⟨⟨k, b⟩, marks', rfl⟩ : ∃ e marks', marks = e :: marks' := by
        cases marks with
        | nil => simp at hp
        | cons e marks' => exact ⟨e, marks', rfl⟩
      simp only [map_cons, List.cons.injEq] at hp
      obtain ⟨rfl, hp⟩ := hp
      rw [aged_of_full ho hfull]
      refine ⟨⟨hpos, ?_, hp, ?_⟩, ?_⟩
      · exact (le_succ _).trans hb
      · intro key hkey
        obtain ⟨hne, hkey⟩ := Finset.mem_erase.mp hkey
        rcases mem_cons.mp (h.live key hkey) with heq | hmem
        · exact absurd (congrArg Prod.fst heq) hne
        · exact hmem
      · exact hb
  · rw [if_neg hfull, aged_of_lt (not_le.mp hfull)]
    exact ⟨h, not_le.mp hfull⟩

/-- A move keeps the order bounded and a live place for every ghost. -/
theorem Held.move (h : G.Held marks) (m : GhostMove γ) : (G.move m).Held (G.mark marks m) := by
  cases m with
  | remember key =>
    obtain ⟨haged, hroom⟩ := h.aged
    rw [move_remember, mark]
    split_ifs with hmem
    · exact haged
    · refine ⟨haged.pos, ?_, ?_, ?_⟩
      · rw [length_append]
        exact hroom
      · rw [map_append, haged.places]
        rfl
      · intro k hk
        rcases Finset.mem_insert.mp hk with rfl | hk
        · simp
        · exact mem_append_left _ (haged.live k hk)
  | take key =>
    refine ⟨h.pos, h.bounded, ?_, ?_⟩
    · change _ = G.order
      rw [← h.places, mark, map_map]
      refine map_congr_left ?_
      intro e _
      simp only [Function.comp_apply]
      split_ifs with he
      · exact he.symm
      · rfl
    · intro k hk
      obtain ⟨hne, hk⟩ := Finset.mem_erase.mp hk
      exact mem_map.mpr ⟨(k, true), h.live k hk, if_neg hne⟩
  | clear => exact ⟨h.pos, zero_le _, rfl, by simp [Ghosts.move]⟩

/-- A move that drops no live place but the oldest keeps every key with a live place a ghost. -/
theorem Kept.move (h : G.Kept marks) (hheld : G.Held marks) {m : GhostMove γ} (hm : G.Keeps m) :
    (G.move m).Kept (G.mark marks m) := by
  cases m with
  | remember key =>
    -- a live place that is left is the key's own or that of a ghost not dropped
    have haged : ∀ k, (k, true) ∈ G.agedMarks marks → k ∈ G.aged.set ∨ k = key := by
      intro k hk
      unfold agedMarks at hk
      split_ifs at hk with hfull
      · cases ho : G.order with
        | nil =>
          have hp := hheld.places
          rw [ho, map_eq_nil_iff] at hp
          simp [hp] at hk
        | cons old rest =>
          rw [aged_of_full ho hfull]
          have hset := h k (mem_of_mem_tail hk)
          by_cases hold : k = old
          · right
            subst hold
            refine hm k (by simp [ho]) hfull hset ?_
            rw [← hheld.places, ← map_tail]
            exact mem_map_of_mem hk
          · exact .inl (Finset.mem_erase.mpr ⟨hold, hset⟩)
      · rw [aged_of_lt (not_le.mp hfull)]
        exact .inl (h k hk)
    intro k hk
    rw [move_remember]
    rw [mark] at hk
    split_ifs at hk ⊢ with hmem
    · rcases haged k hk with hset | rfl
      · exact hset
      · exact hmem
    · rcases mem_append.mp hk with hk | hk
      · rcases haged k hk with hset | rfl
        · exact Finset.mem_insert_of_mem hset
        · exact Finset.mem_insert_self _ _
      · obtain rfl : k = key := by simpa using hk
        exact Finset.mem_insert_self _ _
  | take key =>
    intro k hk
    obtain ⟨e, he, heq⟩ := mem_map.mp hk
    split_ifs at heq with hkey
    · simp at heq
    · subst heq
      exact Finset.mem_erase.mpr ⟨hkey, h k he⟩
  | clear =>
    intro k hk
    simp [mark] at hk

end Ghosts

/-! ### Policies by their turns -/

/-- A policy by its turns: each changes its ghost list by at most one move. -/
structure GhostPolicy (σ τ γ : Type*) [DecidableEq γ] where
  turn : σ → τ → σ
  ghosts : σ → Ghosts γ
  move : σ → τ → Option (GhostMove γ)
  ghosts_turn : ∀ s t, ghosts (turn s t) = (move s t).elim (ghosts s) (ghosts s).move

namespace GhostPolicy

variable {σ τ γ : Type*} [DecidableEq γ] (P : GhostPolicy σ τ γ)

/-- The states that turns with moves in `C` lead to from `s₀`, each with the marks of its ghost
order. -/
inductive Run (C : Ghosts γ → GhostMove γ → Prop) (s₀ : σ) : σ → Marks γ → Prop
  | start : Run C s₀ s₀ []
  | turn {s marks} (t : τ) : Run C s₀ s marks → (∀ m ∈ P.move s t, C (P.ghosts s) m) →
      Run C s₀ (P.turn s t) ((P.move s t).elim marks ((P.ghosts s).mark marks))

/-- The state and the marks after some turns. -/
def follow (s₀ : σ) (ts : List τ) : σ × Marks γ :=
  ts.foldl (fun e t => (P.turn e.1 t, (P.move e.1 t).elim e.2 ((P.ghosts e.1).mark e.2))) (s₀, [])

variable {P} {C : Ghosts γ → GhostMove γ → Prop} {s₀ s : σ} {marks : Marks γ}

theorem run_follow (ts : List τ) :
    P.Run (fun _ _ => True) s₀ (P.follow s₀ ts).1 (P.follow s₀ ts).2 := by
  unfold follow
  induction ts using List.reverseRecOn with
  | nil => exact .start
  | append_singleton ts t ih =>
    rw [foldl_append]
    exact ih.turn t fun _ _ => trivial

/-- In every run the order stays bounded and every ghost keeps a live place. -/
theorem Run.held (h : P.Run C s₀ s marks) (h₀ : (P.ghosts s₀).Held []) :
    (P.ghosts s).Held marks := by
  induction h with
  | start => exact h₀
  | @turn s marks t _ _ ih =>
    rw [P.ghosts_turn]
    cases P.move s t with
    | none => exact ih
    | some m => exact ih.move m

/-- In a run whose turns keep the live places, every key with a live place is a ghost. -/
theorem Run.kept (h : P.Run Ghosts.Keeps s₀ s marks) (h₀ : (P.ghosts s₀).Held []) :
    (P.ghosts s).Kept marks := by
  induction h with
  | start =>
    intro k hk
    simp at hk
  | @turn s marks t hrun hm ih =>
    rw [P.ghosts_turn]
    cases hmove : P.move s t with
    | none => exact ih
    | some m => exact ih.move (hrun.held h₀) (hm m hmove)

end GhostPolicy

/-! ### The policy on node handles -/

namespace HS3Fifo

/-- The turns of the node policy. -/
inductive Turn
  | admitKey (hash cost : UInt64)
  | update (node : NodeId) (cost : UInt64)
  | remove (node : NodeId)
  | touch (node : NodeId)
  | evictSmall
  | evictMain
  | clear

/-- The policy after a turn. -/
def turn (p : HS3Fifo) : Turn → HS3Fifo
  | .admitKey hash cost => (p.admitKey hash cost).2
  | .update node cost => p.update node cost
  | .remove node => p.remove node
  | .touch node => p.touch node
  | .evictSmall => (p.evictSmall []).2.1
  | .evictMain => (p.evictMain []).2.1
  | .clear => p.clear

def ghosts (p : HS3Fifo) : Ghosts UInt64 := ⟨p.ghostCap, p.ghost, p.ghostOrder⟩

/-- An admission takes its hash from the ghosts, and a victim of the small queue is remembered. -/
def ghostMove (p : HS3Fifo) : Turn → Option (GhostMove UInt64)
  | .admitKey hash _ => some (.take hash)
  | .evictSmall => (p.evictSmall []).2.2.head?.map fun victim => .remember victim.1
  | .clear => some .clear
  | _ => none

theorem ghosts_turn (p : HS3Fifo) (t : Turn) :
    (p.turn t).ghosts = (p.ghostMove t).elim p.ghosts p.ghosts.move := by
  cases t with
  | admitKey hash cost =>
    simp only [turn, admitKey, ghosts, ghostMove, Option.elim, Ghosts.move]
    split_ifs <;> rfl
  | update node cost =>
    simp only [turn, update]
    cases p.slab.resolve node <;> rfl
  | remove node =>
    simp only [turn, remove]
    cases p.slab.resolve node <;> rfl
  | touch node =>
    simp only [turn, touch]
    cases p.slab.resolve node with
    | none => rfl
    | some i =>
      change (p.bump i).ghosts = _
      rw [bump_eq]
      rfl
  | evictSmall =>
    simp only [turn, ghostMove, evictSmall]
    cases (p.slab.lists SMALL).tail with
    | none => rfl
    | some i =>
      simp only
      split_ifs
      · rfl
      · simp [dropNode, remember, ghosts, Ghosts.move, hashOf]
  | evictMain =>
    simp only [turn, ghostMove, evictMain]
    cases (p.slab.lists MAIN).tail with
    | none => rfl
    | some i =>
      simp only
      split_ifs <;> rfl
  | clear => rfl

def ghostPolicy : GhostPolicy HS3Fifo Turn UInt64 where
  turn := turn
  ghosts := ghosts
  move := ghostMove
  ghosts_turn := ghosts_turn

/-- The discipline of the ghost list: the order is bounded and every ghost has a live place in it,
a hash just evicted from the small queue is a ghost, and while its place is live an admission
puts it at the end of the main queue. -/
structure Remembers (p : HS3Fifo) (marks : Marks UInt64) : Prop where
  held : p.ghosts.Held marks
  evicted : ∀ victim ∈ (p.evictSmall []).2.2, victim.1 ∈ (p.evictSmall []).2.1.ghost
  readmitted : ∀ hash cost, (hash, true) ∈ marks →
    (p.admitKey hash cost).2.debugState.2.1 = p.debugState.2.1 ++ [(hash, 0)]

theorem Refines.turn {p : HS3Fifo} {A : S3Queue NodeId UInt64} (h : p.Refines A) (t : Turn) :
    ∃ A', (p.turn t).Refines A' := by
  cases t with
  | admitKey hash cost => exact ⟨_, h.admitKey hash cost⟩
  | update node cost => exact ⟨_, h.update node cost⟩
  | remove node => exact ⟨_, h.remove node⟩
  | touch node => exact ⟨_, h.touch node⟩
  | evictSmall =>
    obtain ⟨q, hq⟩ := h
    cases hs : A.evictSmall with
    | some r => exact ⟨r.2, (hq.evictSmall hs []).1⟩
    | none =>
      refine ⟨A, q, ?_⟩
      have hnil : A.small = [] := by
        cases hsmall : A.small with
        | nil => rfl
        | cons e rest =>
          unfold S3Queue.evictSmall at hs
          rw [hsmall] at hs
          simp only at hs
          split_ifs at hs
      simp only [HS3Fifo.turn, HS3Fifo.evictSmall, hq.small_eq_nil.mp hnil]
      exact hq
  | evictMain =>
    obtain ⟨q, hq⟩ := h
    cases hm : A.evictMain with
    | some r => exact ⟨r.2, (hq.evictMain hm []).1⟩
    | none =>
      refine ⟨A, q, ?_⟩
      have hnil : A.main = [] := by
        cases hmain : A.main with
        | nil => rfl
        | cons e rest =>
          unfold S3Queue.evictMain at hm
          rw [hmain] at hm
          simp only at hm
          split_ifs at hm
      simp only [HS3Fifo.turn, HS3Fifo.evictMain, hq.main_eq_nil.mp hnil]
      exact hq
  | clear => exact ⟨_, refines_clear h⟩

theorem refines_of_run {C : Ghosts UInt64 → GhostMove UInt64 → Prop} {capacity : UInt64}
    {p : HS3Fifo} {marks : Marks UInt64} (h : ghostPolicy.Run C (new capacity) p marks) :
    ∃ A, p.Refines A := by
  induction h with
  | start => exact ⟨_, refines_new capacity⟩
  | turn t _ _ ih =>
    obtain ⟨A, hA⟩ := ih
    exact hA.turn t

theorem evicted {p : HS3Fifo} {victim : Victim} (h : victim ∈ (p.evictSmall []).2.2) :
    victim.1 ∈ (p.evictSmall []).2.1.ghost := by
  have hone : (p.evictSmall []).2.2 = [victim] := by
    unfold evictSmall at h ⊢
    cases ht : (p.slab.lists SMALL).tail with
    | none => simp [ht] at h
    | some i =>
      simp only [ht] at h ⊢
      split_ifs at h ⊢
      · simp at h
      · simp only [dropNode, nil_append, mem_singleton] at h ⊢
        rw [h]
  have hturn := p.ghosts_turn .evictSmall
  simp only [ghostMove, hone, List.head?_cons, Option.map_some, Option.elim_some] at hturn
  have hset : (p.evictSmall []).2.1.ghost = _ := congrArg Ghosts.set hturn
  rw [hset]
  exact Ghosts.mem_move_remember _ _

theorem Refines.readmitted {p : HS3Fifo} {A : S3Queue NodeId UInt64} (h : p.Refines A)
    {hash : UInt64} (hmem : hash ∈ p.ghost) (cost : UInt64) :
    (p.admitKey hash cost).2.debugState.2.1 = p.debugState.2.1 ++ [(hash, 0)] := by
  have hghost : hash ∈ A.ghost := by
    obtain ⟨q, hq⟩ := h
    exact hq.ghost ▸ hmem
  rw [(h.admitKey hash cost).debugState, h.debugState, S3Queue.admitEntry, if_pos hghost,
    map_append]
  rfl

theorem evictLoop_eq_turns (fuel : ℕ) (c freed : UInt64) (p : HS3Fifo) (out : List Victim) :
    ∃ ts : List Turn, (evictLoop fuel c freed p out).2.1 = ts.foldl turn p := by
  have hsmall : ∀ (p : HS3Fifo) out, (p.evictSmall out).2.1 = p.turn .evictSmall := by
    intro p out
    simp only [turn, evictSmall]
    split
    · rfl
    · split_ifs <;> rfl
  have hmain : ∀ (p : HS3Fifo) out, (p.evictMain out).2.1 = p.turn .evictMain := by
    intro p out
    simp only [turn, evictMain]
    split
    · rfl
    · split_ifs <;> rfl
  induction fuel generalizing freed p out with
  | zero => exact ⟨[], rfl⟩
  | succ fuel ih =>
    simp only [evictLoop]
    split_ifs
    · rw [hsmall]
      obtain ⟨ts, hts⟩ := ih (freed + (p.evictSmall out).1) (p.turn .evictSmall)
        (p.evictSmall out).2.2
      exact ⟨.evictSmall :: ts, hts⟩
    · rw [hmain]
      obtain ⟨ts, hts⟩ := ih (freed + (p.evictMain out).1) (p.turn .evictMain)
        (p.evictMain out).2.2
      exact ⟨.evictMain :: ts, hts⟩
    · exact ⟨[], rfl⟩
    · exact ⟨[], rfl⟩

end HS3Fifo

/-! ### The policy on keys -/

namespace S3Fifo

variable {K : Type*} [DecidableEq K]

inductive Turn (K : Type*)
  | onAccess (key : K)
  | onAdmit (key : K) (cost : UInt64)
  | onRemove (key : K)
  | evict
  | clear

/-- The policy after a turn. -/
def turn (s : S3Fifo K) : Turn K → S3Fifo K
  | .onAccess key => s.onAccess key
  | .onAdmit key cost => s.onAdmit key cost
  | .onRemove key => s.onRemove key
  | .evict => s.evictTurn.elim s (·.2)
  | .clear => s.clear

/-- The ghosts and their order. -/
def ghosts (s : S3Fifo K) : Ghosts K := ⟨s.ghostCap, s.ghostSet, s.ghost⟩

/-- The admission of a key that is not tracked takes it from the ghosts, and a victim of the
small queue is remembered. -/
def ghostMove (s : S3Fifo K) : Turn K → Option (GhostMove K)
  | .onAdmit key _ => if (s.metas.lookup key).isSome then none else some (.take key)
  | .evict =>
    match s.turnQueue, s.evictTurn with
    | .small, some (some (key, _), _) => some (.remember key)
    | _, _ => none
  | .clear => some .clear
  | _ => none

theorem ghosts_push (s : S3Fifo K) (key : K) (q : S3Kind) : (s.push key q).ghosts = s.ghosts := by
  obtain ⟨hset, horder, -, hcap⟩ := push_frame s key q
  simp only [ghosts, hset, horder, hcap]

theorem ghosts_compact (s : S3Fifo K) : s.compact.ghosts = s.ghosts := by
  unfold compact
  split_ifs <;> rfl

theorem ghosts_turn (s : S3Fifo K) (t : Turn K) :
    (s.turn t).ghosts = (s.ghostMove t).elim s.ghosts s.ghosts.move := by
  cases t with
  | onAccess key =>
    simp only [turn, onAccess]
    cases s.metas.lookup key <;> rfl
  | onAdmit key cost =>
    simp only [turn, onAdmit, ghostMove]
    cases s.metas.lookup key with
    | none =>
      simp only [ghosts_compact, ghosts_push]
      rfl
    | some m => rfl
  | onRemove key =>
    simp only [turn, onRemove]
    cases s.metas.lookup key <;> rfl
  | evict =>
    simp only [turn, ghostMove, evictTurn]
    cases hd : s.deque s.turnQueue with
    | nil => cases s.turnQueue <;> rfl
    | cons e rest =>
      simp only
      generalize s.turnQueue = q
      cases hlive : liveMeta s.metas q e with
      | none => cases q <;> rfl
      | some m =>
        cases q with
        | small =>
          simp only
          split_ifs
          · simp only [Option.elim_some, ghosts_push]
            rfl
          · rfl
        | main =>
          simp only
          split_ifs
          · simp only [Option.elim_some, ghosts_push]
            rfl
          · rfl
  | clear => rfl

def ghostPolicy : GhostPolicy (S3Fifo K) (Turn K) K where
  turn := turn
  ghosts := ghosts
  move := ghostMove
  ghosts_turn := ghosts_turn

/-- The discipline of the ghost list: the order is bounded and every ghost has a live place in it,
a key just evicted from the small queue is a ghost, and while its place is live an admission
puts it in the main queue. -/
structure Remembers (s : S3Fifo K) (marks : Marks K) : Prop where
  held : s.ghosts.Held marks
  evicted : ∀ key cost s', s.turnQueue = .small → s.evictTurn = some (some (key, cost), s') →
    key ∈ s'.ghostSet
  readmitted : ∀ key cost, (key, true) ∈ marks →
    ∃ m, (s.onAdmit key cost).metas.lookup key = some m ∧ m.queue = .main ∧
      (key, m.stamp) ∈ (s.onAdmit key cost).main

variable {s : S3Fifo K} {marks : Marks K}

theorem Tidy.turnOf (h : s.Tidy) (t : Turn K) : (s.turn t).Tidy := by
  cases t with
  | onAccess key => exact h.onAccess key
  | onAdmit key cost => exact h.onAdmit key cost
  | onRemove key => exact h.onRemove key
  | evict =>
    change (s.evictTurn.elim s (·.2)).Tidy
    cases ht : s.evictTurn with
    | none => exact h
    | some r => exact h.turn ht
  | clear => exact Tidy.clear s

/-- No ghost is tracked. -/
def Departed (s : S3Fifo K) : Prop := ∀ key ∈ s.ghostSet, s.costs key = none

/-- A ghost after a turn was one before, unless the turn evicts it from the small queue. -/
theorem mem_ghostSet_turn {t : Turn K} {key : K} (h : key ∈ (s.turn t).ghostSet) :
    s.ghostMove t = some (.remember key) ∨ key ∈ s.ghostSet ∧ s.ghostMove t ≠ some (.take key) := by
  have hset : (s.turn t).ghostSet = _ := congrArg Ghosts.set (s.ghosts_turn t)
  rw [hset] at h
  cases hm : s.ghostMove t with
  | none =>
    rw [hm] at h
    exact .inr ⟨h, by simp⟩
  | some m =>
    rw [hm] at h
    rcases Ghosts.mem_of_mem_move h with rfl | ⟨hmem, hne⟩
    · exact .inl rfl
    · exact .inr ⟨hmem, fun heq => hne (Option.some.inj heq)⟩

theorem Departed.turn (h : s.Departed) (t : Turn K) : (s.turn t).Departed := by
  intro key hkey
  have hmem := mem_ghostSet_turn hkey
  cases t with
  | onAccess k =>
    rcases hmem with hmove | ⟨hmem, -⟩
    · cases hmove
    · exact (costs_onAccess s k key).trans (h key hmem)
  | onAdmit k cost =>
    refine (costs_onAdmit s k cost key).trans ?_
    simp only [ghostMove] at hmem
    by_cases heq : key = k
    · -- a tracked key is no ghost, and one that is not is taken from the ghosts
      subst heq
      split_ifs at hmem with htracked
      · rcases hmem with hmove | ⟨hmem, -⟩
        · cases hmove
        · have hnone := h key hmem
          rw [costs, Option.map_eq_none_iff] at hnone
          simp [hnone] at htracked
      · rcases hmem with hmove | ⟨-, hne⟩
        · cases hmove
        · exact absurd rfl hne
    · rw [if_neg heq]
      refine h key ?_
      split_ifs at hmem
      · simpa using hmem
      · simpa using hmem.imp_right And.left
  | onRemove k =>
    rcases hmem with hmove | ⟨hmem, -⟩
    · cases hmove
    · refine (costs_onRemove s k key).trans ?_
      rw [h key hmem]
      split_ifs <;> rfl
  | evict =>
    change (s.evictTurn.elim s (·.2)).costs key = none
    simp only [ghostMove] at hmem
    cases ht : s.evictTurn with
    | none =>
      rw [ht] at hmem
      refine h key ?_
      generalize s.turnQueue = q at hmem
      cases q <;> simpa using hmem
    | some r =>
      obtain ⟨taken, s'⟩ := r
      rw [ht] at hmem
      generalize s.turnQueue = q at hmem
      cases taken with
      | none =>
        refine (costs_turn_none ht key).trans (h key ?_)
        cases q <;> simpa using hmem
      | some kc =>
        refine ((costs_turn_some ht).2 key).trans ?_
        split_ifs with heq
        · rfl
        · refine h key ?_
          cases q with
          | small =>
            rcases hmem with hmove | ⟨hmem, -⟩
            · exact absurd (GhostMove.remember.inj (Option.some.inj hmove)).symm heq
            · exact hmem
          | main => simpa using hmem
  | clear =>
    rcases hmem with hmove | ⟨hmem, -⟩
    · cases hmove
    · simp [S3Fifo.turn, clear] at hkey

theorem tidy_departed_of_run {C : Ghosts K → GhostMove K → Prop} {capacity : UInt64}
    (h : ghostPolicy.Run C (new capacity) s marks) : s.Tidy ∧ s.Departed := by
  induction h with
  | start => exact ⟨Tidy.new capacity, fun key hkey => absurd hkey (Finset.notMem_empty key)⟩
  | turn t _ _ ih => exact ⟨ih.1.turnOf t, ih.2.turn t⟩

theorem evicted {key : K} {cost : UInt64} {s' : S3Fifo K} (hq : s.turnQueue = .small)
    (ht : s.evictTurn = some (some (key, cost), s')) : key ∈ s'.ghostSet := by
  have hturn := s.ghosts_turn .evict
  have hmove : s.ghostMove .evict = some (.remember key) := by simp only [ghostMove, hq, ht]
  rw [hmove] at hturn
  have hset : (s.evictTurn.elim s (·.2)).ghostSet = _ := congrArg Ghosts.set hturn
  rw [ht] at hset
  exact hset ▸ Ghosts.mem_move_remember _ _

theorem Tidy.readmitted (h : s.Tidy) (hs : s.Departed) {key : K} (hmem : key ∈ s.ghostSet)
    (cost : UInt64) :
    ∃ m, (s.onAdmit key cost).metas.lookup key = some m ∧ m.queue = .main ∧
      (key, m.stamp) ∈ (s.onAdmit key cost).main := by
  obtain ⟨m, hl, hq⟩ : ∃ m, (s.onAdmit key cost).metas.lookup key = some m ∧ m.queue = .main := by
    have hnone := hs key hmem
    rw [costs, Option.map_eq_none_iff] at hnone
    simp only [S3Fifo.onAdmit, hnone, hmem, if_true, metas_compact]
    rw [metas_push (AList.lookup_insert _), AList.lookup_insert]
    exact ⟨_, rfl, rfl⟩
  have hqueued := (h.onAdmit key cost).queued key m hl
  rw [hq] at hqueued
  exact ⟨m, hl, hq, hqueued⟩

theorem evictLoop_eq_turns (fuel : ℕ) (c freed : UInt64) (s : S3Fifo K) :
    ∃ n, (evictLoop fuel c freed s).2 = (List.replicate n Turn.evict).foldl turn s := by
  induction fuel generalizing freed s with
  | zero => exact ⟨0, rfl⟩
  | succ fuel ih =>
    unfold evictLoop
    split_ifs
    · cases ht : s.evictTurn with
      | none => exact ⟨0, rfl⟩
      | some r =>
        obtain ⟨taken, s'⟩ := r
        have hturn : s.turn .evict = s' := by
          change s.evictTurn.elim s (·.2) = s'
          rw [ht]
          rfl
        cases taken with
        | none =>
          obtain ⟨n, hn⟩ := ih freed s'
          exact ⟨n + 1, by rw [replicate_succ, foldl_cons, hturn]; exact hn⟩
        | some kc =>
          obtain ⟨n, hn⟩ := ih (freed + kc.2) s'
          exact ⟨n + 1, by rw [replicate_succ, foldl_cons, hturn]; exact hn⟩
    · exact ⟨0, rfl⟩

end S3Fifo

/-! ### The discipline -/

namespace GhostPolicy

theorem held_new (capacity : UInt64) {γ : Type*} :
    (⟨(max capacity 1).toNat, ∅, []⟩ : Ghosts γ).Held [] := by
  refine ⟨?_, zero_le _, rfl, by simp⟩
  change 0 < (max capacity 1).toNat
  rw [Word.toNat_max]
  exact lt_max_of_lt_right one_pos

variable {K : Type*} [DecidableEq K]

/-- Both policies keep the discipline in every run in which no key remembered finds at the front
of a full order another key that is a ghost and has a second place in the order. -/
theorem remembers (capacity : UInt64) :
    (∀ p marks, HS3Fifo.ghostPolicy.Run Ghosts.Keeps (.new capacity) p marks →
      p.Remembers marks) ∧
    (∀ (s : S3Fifo K) marks, S3Fifo.ghostPolicy.Run Ghosts.Keeps (.new capacity) s marks →
      s.Remembers marks) := by
  constructor
  · intro p marks h
    obtain ⟨A, hA⟩ := HS3Fifo.refines_of_run h
    have hkept := h.kept (held_new capacity)
    exact ⟨h.held (held_new capacity), fun victim hv => HS3Fifo.evicted hv,
      fun hash cost hmark => hA.readmitted (hkept hash hmark) cost⟩
  · intro s marks h
    obtain ⟨htidy, hdeparted⟩ := S3Fifo.tidy_departed_of_run h
    have hkept := h.kept (held_new capacity)
    exact ⟨h.held (held_new capacity), fun key cost s' hq ht => S3Fifo.evicted hq ht,
      fun key cost hmark => htidy.readmitted hdeparted (hkept key hmark) cost⟩

theorem remembers_one :
    HS3Fifo.Remembers (((HS3Fifo.new 2).turn (.admitKey 7 1)).turn .evictSmall) [(7, true)] ∧
      S3Fifo.Remembers ((S3Fifo.new 2 : S3Fifo ℕ).turn (.onAdmit 7 1) |>.turn .evict)
        [(7, true)] := by
  obtain ⟨hnodes, hkeys⟩ := remembers (K := ℕ) 2
  constructor
  · apply hnodes
    exact (Run.start.turn (HS3Fifo.Turn.admitKey 7 1) (by decide)).turn HS3Fifo.Turn.evictSmall
      (by decide)
  · apply hkeys
    exact (Run.start.turn (S3Fifo.Turn.onAdmit 7 1) (by decide)).turn S3Fifo.Turn.evict (by decide)

/-- A key is evicted, admitted again, removed, admitted and evicted once more: its stale place
comes before its live one. When another key is evicted the stale place is dropped, and with it the
ghost, though its live place is still there: the next admission goes to the small queue. -/
theorem stale_place_drops_ghost :
    ¬ (∀ p marks, HS3Fifo.ghostPolicy.Run (fun _ _ => True) (.new 2) p marks →
        p.Remembers marks) ∧
      ¬ (∀ (s : S3Fifo ℕ) marks, S3Fifo.ghostPolicy.Run (fun _ _ => True) (.new 2) s marks →
        s.Remembers marks) := by
  constructor
  · intro h
    have hrun := h _ _ (run_follow [.admitKey 0 1, .evictSmall, .admitKey 0 1,
      .remove ⟨1, 0⟩, .admitKey 0 1, .evictSmall, .admitKey 1 1, .evictSmall])
    have hmain := hrun.readmitted 0 1 (by decide)
    revert hmain
    decide
  · intro h
    have hrun := h _ _ (run_follow [.onAdmit 0 1, .evict, .onAdmit 0 1, .onRemove 0,
      .onAdmit 0 1, .evict, .evict, .onAdmit 1 1, .evict])
    obtain ⟨m, hl, hq, -⟩ := hrun.readmitted 0 1 (by decide)
    have hsmall := congrArg (Option.map S3Meta.queue) hl
    rw [Option.map_some, hq] at hsmall
    revert hsmall
    decide

end GhostPolicy

end Fibre.Cache
