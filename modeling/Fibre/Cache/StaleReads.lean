import Fibre.Cache.NodeTable
import Fibre.Cache.Deferred

/-!
# Stale node ids

A read in the ring names its entry by node id, and is applied at the shard's next write. By then
the entry may be gone: removed with its generation moved on, or cleared together with all
generations, so that its id can be given out again. The ring is drained before a write admits
anything, so no read meets an entry admitted after it.

To say so, each resident node carries the call it was admitted in, and each read in the ring the
entry it was a read of.
-/

namespace Fibre.Cache

/-- A read in the ring: the key and the node that were read, and the call it was. -/
structure LoggedRead (K : Type*) where
  key : K
  node : NodeId
  time : ℕ

namespace ShardMap

variable {K V π : Type*} {hash : K → UInt64} {s s' : ShardMap K V π} {b : Builtin}

/-- The calls of the read path. -/
def Op.IsRead : Op K V → Prop
  | .touchRead _ | .pushRing _ | .pushLog _ _ => True
  | _ => False

/-- A restore that puts entries in. Each of them is new, also where it gets a node id that was
in use. -/
def Op.Restores : Op K V → Prop
  | .replaceAll _ (_ :: _) => True
  | _ => False

instance (op : Op K V) : Decidable op.Restores := by
  unfold Op.Restores
  split <;> infer_instance

/-! ### A call drains the ring, or admits nothing -/

section Drain

variable [CachePolicy π K]

theorem Drained.removeExpiredLoop (h : s.Drained) (hh now : UInt64) (fuel : ℕ)
    (out : List (K × CacheEntry V × ExpiredBy)) :
    (ShardMap.removeExpiredLoop hash hh now fuel s out).1.Drained := by
  induction fuel generalizing s out with
  | zero => exact h
  | succ fuel ih =>
    unfold ShardMap.removeExpiredLoop
    split
    · exact h
    · next key e s₁ ht =>
      apply ih
      apply Drained.forget
      exact (h.takeEntry ht).congr rfl rfl

theorem Drained.foldl_removeExpired (h : s.Drained) (now : UInt64)
    (f : ShardMap K V π → UInt64 → ShardMap K V π)
    (hf : ∀ (s : ShardMap K V π) (hh : UInt64), s.Drained → (f s hh).Drained)
    (hashes : List UInt64) (out : List (K × CacheEntry V × ExpiredBy)) :
    (hashes.foldl (fun (r : ShardMap K V π × List (K × CacheEntry V × ExpiredBy)) hh =>
      (f (ShardMap.removeExpired hash r.1 hh now r.2).1 hh,
        (ShardMap.removeExpired hash r.1 hh now r.2).2)) (s, out)).1.Drained := by
  induction hashes generalizing s out with
  | nil => exact h
  | cons hh hashes ih => exact ih (hf _ hh (h.removeExpiredLoop hh now _ out)) _

/-- Applying the reads of a shard drains its ring, and its log is empty. -/
def Settles (s : ShardMap K V π) : Prop := s.applyReads.Drained

theorem Drained.settles (h : s.Drained) : s.Settles := by
  rw [Settles, h.applyReads]
  exact h

theorem Settles.congr (h : s.Settles) (hb : s.builtin = some b) {b' : Builtin}
    (hb' : s'.builtin = some b') (hreads : s'.reads = s.reads)
    (hring : (b'.applyReads s'.ring).2 = (b.applyReads s.ring).2) : s'.Settles := by
  rw [Settles, applyReads_of_some hb] at h
  rw [Settles, applyReads_of_some hb']
  exact ⟨hreads.trans h.reads, hring.trans h.ring⟩

theorem Settles.clear (h : s.Settles) (hb : s.builtin = some b) : s.clear.Settles := by
  have hclear : s.clear.builtin = some b.clear := by simp only [ShardMap.clear, hb]
  apply h.congr hb hclear
  · simp only [ShardMap.clear, hb]
  · simp only [ShardMap.clear, hb]
    cases b <;> rfl

variable [DecidableEq K]

theorem Drained.insertAll (h : s.Drained) (clock : UInt64) (entries : List (K × CacheEntry V)) :
    (s.insertAll hash clock entries).Drained := by
  induction entries generalizing s with
  | nil => exact h
  | cons ke entries ih => exact ih (h.insertInner clock ke.1 ke.2 false)

variable (hash) in
/-- After a call the ring is drained, or it is as it was and no entry is new. -/
theorem step_settles (h : s.Settles) (hb : s.builtin = some b) (op : Op K V)
    (hop : ¬ op.IsRead) :
    (s.step hash op).Settles ∧ ((s.step hash op).ring = [] ∨
      ((s.step hash op).ring = s.ring ∧ ¬ op.Restores ∧ ∀ ke' ∈ (s.step hash op).table,
        ∃ ke ∈ s.table, ke.1 = ke'.1 ∧ ke.2.node = ke'.2.node)) := by
  have hdrained : ∀ {s' : ShardMap K V π}, s'.Drained → s'.Settles ∧ (s'.ring = [] ∨
      (s'.ring = s.ring ∧ ¬ op.Restores ∧ ∀ ke' ∈ s'.table, ∃ ke ∈ s.table,
        ke.1 = ke'.1 ∧ ke.2.node = ke'.2.node)) := fun h => ⟨h.settles, .inl h.ring⟩
  have hclear : s.clear.ring = s.ring ∧ s.clear.table = [] := by
    simp only [ShardMap.clear, hb, and_self]
  have hsweep : ∀ hashes now, (s.removeExpiredHashes hash hashes now).2.Drained := fun hashes now =>
    Drained.foldl_removeExpired h now (fun s _ => s) (fun _ _ hs => hs) hashes []
  cases op with
  | insert clock key entry =>
    apply hdrained
    rw [step, insert, ← insertInner_applyReads]
    exact Drained.insertInner h clock key entry true
  | remove key =>
    apply hdrained
    rw [step, ← remove_applyReads]
    exact Drained.remove h key
  | expireDue clock now =>
    have hwheel : ∀ w, ShardMap.Settles { s with wheel := w } := fun w => h.congr hb hb rfl rfl
    simp only [step, expireDue]
    split_ifs
    · exact ⟨hwheel _, .inr ⟨rfl, id, fun ke hke => ⟨ke, hke, rfl, rfl⟩⟩⟩
    · apply hdrained
      apply Drained.foldl_removeExpired (hwheel _) now (fun s hh => s.rearm hash clock hh)
      intro s hh hs
      rw [rearm_eq]
      exact hs.congr rfl rfl
  | expireAll now => exact hdrained (hsweep _ now)
  | removeExpiredHashes hashes now => exact hdrained (hsweep hashes now)
  | clear =>
    refine ⟨h.clear hb, .inr ⟨hclear.1, id, ?_⟩⟩
    rw [step, hclear.2]
    simp
  | replaceAll clock entries =>
    cases entries with
    | nil =>
      refine ⟨h.clear hb, .inr ⟨hclear.1, id, ?_⟩⟩
      rw [step, replaceAll, insertAll, List.foldl_nil, hclear.2]
      simp
    | cons ke entries =>
      apply hdrained
      rw [step, replaceAll, insertAll, List.foldl_cons, ← insertInner_applyReads]
      -- the first insert drains, and the others find nothing to apply
      exact (Drained.insertInner (h.clear hb) clock ke.1 ke.2 false).insertAll clock entries
  | applyReads => exact hdrained h
  | applyDeferred read =>
    apply hdrained
    cases read with
    | key k c => exact Drained.congr h rfl rfl
    | node n => exact Drained.congr h rfl rfl
  | touchRead node => exact absurd trivial hop
  | pushRing node => exact absurd trivial hop
  | pushLog key cost => exact absurd trivial hop
  | modifyEntry key value lastAccessed =>
    refine ⟨h.congr hb hb rfl rfl, .inr ⟨rfl, id, fun ke' hke' => ?_⟩⟩
    obtain ⟨ke, hke, rfl⟩ := List.mem_map.mp hke'
    refine ⟨ke, hke, ?_⟩
    split_ifs <;> exact ⟨rfl, rfl⟩

end Drain

end ShardMap

/-! ### What the policy does not track -/

namespace Builtin

variable {b : Builtin} {E : List (Tracked NodeId UInt64)} {node : NodeId}

theorem Tracks.resolve_eq_none (h : b.Tracks E) (hnode : node ∉ E.map (·.name)) :
    b.slab.resolve node = none := by
  by_contra hresolve
  obtain ⟨i, hi⟩ := Option.ne_none_iff_exists'.mp hresolve
  rw [Slab.resolve] at hi
  split_ifs at hi with hlive
  apply hnode
  rw [h.liveNodes.mem_iff]
  refine List.mem_map.mpr ⟨node.slot, List.mem_filter.mpr ⟨List.mem_range.mpr hlive.1, ?_⟩, ?_⟩
  · exact Option.isSome_iff_ne_none.mpr hlive.2.1
  · rw [Slab.id, hlive.2.2]

theorem Tracks.applyReads_filter (h : b.Tracks E) (ring : List NodeId) :
    (b.applyReads ring).1 = (b.applyReads (ring.filter (· ∈ E.map (·.name)))).1 := by
  cases b with
  | s3Fifo p => rfl
  | tinyLfu p =>
    simp only [Builtin.applyReads, HTinyLfu.applyReads, tinyLfu.injEq]
    induction ring generalizing p with
    | nil => rfl
    | cons node ring ih =>
      by_cases hnode : node ∈ E.map (·.name)
      · rw [List.filter_cons_of_pos (by simpa using hnode), List.foldl_cons, List.foldl_cons]
        exact ih _ (h.applyRead node)
      · have hsame : p.touchNode node = p := by
          rw [HTinyLfu.touchNode, show p.slab.resolve node = none from h.resolve_eq_none hnode]
        rw [List.filter_cons_of_neg (by simpa using hnode), List.foldl_cons, hsame]
        exact ih _ h

end Builtin

/-! ### The reads in the ring -/

/-- A shard with its history: the number of calls so far, the call each resident node was admitted
in, and the reads in its ring. -/
structure Watched (K V π : Type*) where
  shard : ShardMap K V π
  now : ℕ
  born : NodeId → ℕ
  log : List (LoggedRead K)

namespace Watched

open ShardMap

variable {K V π : Type*}

/-- A call: a hit on a key, or any call that is not part of the read path, a read applied by the
hit that could not record it included. -/
inductive Call (K V : Type*)
  | hit (key : K)
  | other (op : { op : Op K V // ¬ op.IsRead })

/-- A shard nothing was called on. -/
def new (s : ShardMap K V π) : Watched K V π := ⟨s, 0, fun _ => 0, []⟩

variable [DecidableEq K]

/-- A hit records its read where the policy has a ring, and touches the node where it has none. -/
def hit (w : Watched K V π) (key : K) : Watched K V π :=
  match w.shard.get key with
  | none => w
  | some e =>
    match w.shard.builtinReads with
    | .ring =>
      let r := w.shard.pushRing e.node
      { w with
        shard := r.2
        log := if r.1 ∧ e.node ≠ NO_NODE then w.log ++ [⟨key, e.node, w.now⟩] else w.log }
    | .freq => { w with shard := w.shard.touchRead e.node }
    | .none => w

variable [CachePolicy π K] (hash : K → UInt64)

/-- The shard and its history after a call. -/
def step (w : Watched K V π) : Call K V → Watched K V π
  | .hit key => { w.hit key with now := w.now + 1 }
  | .other op =>
    let s := w.shard.step hash op
    { shard := s
      now := w.now + 1
      born := fun node =>
        if op.val.Restores ∨ node ∉ w.shard.table.map (·.2.node) then w.now else w.born node
      log := if s.ring = [] then [] else w.log }

/-- The shard and its history after a sequence of calls. -/
def run (w : Watched K V π) (calls : List (Call K V)) : Watched K V π := calls.foldl (step hash) w

/-- The entry that was read is still there. -/
def Present (w : Watched K V π) (r : LoggedRead K) : Prop :=
  ∃ ke ∈ w.shard.table, ke.1 = r.key ∧ ke.2.node = r.node ∧ w.born r.node < r.time

instance (w : Watched K V π) (r : LoggedRead K) : Decidable (w.Present r) :=
  inferInstanceAs (Decidable (∃ ke ∈ w.shard.table, _))

/-- The log is what the ring holds, and what a read in it names is the entry that was read. -/
structure Inv (w : Watched K V π) : Prop where
  consistent : ∃ b, w.shard.Consistent hash b
  settles : w.shard.Settles
  ring : w.log.map (·.node) = w.shard.ring
  born : ∀ ke ∈ w.shard.table, w.born ke.2.node < w.now
  log : ∀ r ∈ w.log, ∀ ke ∈ w.shard.table, ke.2.node = r.node →
    ke.1 = r.key ∧ w.born r.node < r.time

variable {hash} {w : Watched K V π}

omit [DecidableEq K] in
theorem Inv.tick (h : w.Inv hash) : Inv hash { w with now := w.now + 1 } :=
  ⟨h.consistent, h.settles, h.ring, fun ke hke => Nat.lt_succ_of_lt (h.born ke hke), h.log⟩

theorem Inv.eq_of_node (h : w.Inv hash) {key : K} {e : CacheEntry V}
    (hget : w.shard.get key = some e) {ke : K × CacheEntry V} (hke : ke ∈ w.shard.table) (hnode : ke.2.node = e.node) :
    ke.1 = key := by
  obtain ⟨b, hc⟩ := h.consistent
  obtain ⟨l, r, htable, -⟩ := get_eq_some hc.keys hget
  have hmem : (key, e) ∈ w.shard.table := by
    rw [htable]
    simp
  exact congrArg Prod.fst (eq_of_track_name hc.tracks.nodup_names hmem hke hnode)

theorem Inv.pushRing (h : w.Inv hash) {key : K} {e : CacheEntry V}
    (hget : w.shard.get key = some e) {p : HTinyLfu}
    (hb : w.shard.builtin = some (.tinyLfu p)) :
    Inv hash { w with
      shard := (w.shard.pushRing e.node).2
      log := if (w.shard.pushRing e.node).1 ∧ e.node ≠ NO_NODE then
        w.log ++ [⟨key, e.node, w.now⟩] else w.log } := by
  by_cases hnode : e.node = NO_NODE
  · simp only [ShardMap.pushRing, hnode, if_true, ne_eq, not_true, and_false, if_false]
    exact h
  by_cases hroom : w.shard.ring.length < readSlots
  · simp only [ShardMap.pushRing, hnode, hroom, if_true, if_false, ne_eq, not_false_eq_true,
      and_self]
    obtain ⟨b, hc⟩ := h.consistent
    refine ⟨⟨b, hc.congr rfl rfl rfl⟩, h.settles.congr hb hb rfl rfl, ?_, h.born, ?_⟩
    · rw [List.map_append, h.ring]
      rfl
    · intro r hr ke hke hnode
      rcases List.mem_append.mp hr with hr | hr
      · exact h.log r hr ke hke hnode
      · obtain rfl := List.mem_singleton.mp hr
        refine ⟨h.eq_of_node hget hke hnode, ?_⟩
        rw [← hnode]
        exact h.born ke hke
  · simp only [ShardMap.pushRing, hnode, hroom, if_false, Bool.false_eq_true, false_and]
    exact h

theorem Inv.hit (h : w.Inv hash) (key : K) : (w.hit key).Inv hash := by
  unfold Watched.hit
  cases hget : w.shard.get key with
  | none => exact h
  | some e =>
    obtain ⟨b, hc⟩ := h.consistent
    dsimp only
    cases b with
    | tinyLfu p =>
      simp only [builtinReads, hc.builtin]
      exact h.pushRing hget hc.builtin
    | s3Fifo p =>
      simp only [builtinReads, hc.builtin]
      have htouch : (w.shard.touchRead e.node).builtin = some (.s3Fifo (p.touch e.node)) := by
        simp only [touchRead, hc.builtin, Option.map_some, Builtin.touch]
      exact ⟨⟨_, (hc.touchRead e.node).consistent⟩, h.settles.congr hc.builtin htouch rfl rfl,
        h.ring, h.born, h.log⟩

theorem Inv.other (h : w.Inv hash) (op : { op : Op K V // ¬ op.IsRead }) :
    (w.step hash (.other op)).Inv hash := by
  obtain ⟨b, hc⟩ := h.consistent
  obtain ⟨hsettles, hring⟩ := step_settles hash h.settles hc.builtin op.val op.property
  refine ⟨hc.step op.val, hsettles, ?_, fun ke hke => ?_, fun r hr ke' hke' hnode => ?_⟩
  · simp only [step]
    split_ifs with hnil
    · exact hnil.symm
    · rcases hring with hring | hring
      · exact absurd hring hnil
      · rw [hring.1, h.ring]
  · simp only [step]
    split_ifs with hnew
    · exact Nat.lt_succ_self _
    · obtain ⟨ke', hke', heq⟩ := List.mem_map.mp (not_not.mp (not_or.mp hnew).2)
      rw [← heq]
      exact Nat.lt_succ_of_lt (h.born ke' hke')
  · simp only [step] at hr hke' ⊢
    split_ifs at hr with hnil
    · simp at hr
    · -- nothing was drained, so the entry was there before the call
      rcases hring with hring | ⟨-, hrestores, hold⟩
      · exact absurd hring hnil
      · obtain ⟨ke, hke, hkey, hnode'⟩ := hold ke' hke'
        obtain ⟨hkey', hborn⟩ := h.log r hr ke hke (hnode'.trans hnode)
        have hmem : r.node ∈ w.shard.table.map (·.2.node) :=
          List.mem_map.mpr ⟨ke, hke, hnode'.trans hnode⟩
        rw [if_neg (by simp only [hrestores, hmem, not_true, or_self, not_false_eq_true])]
        exact ⟨hkey.symm.trans hkey', hborn⟩

theorem Inv.step (h : w.Inv hash) (call : Call K V) : (w.step hash call).Inv hash := by
  cases call with
  | hit key =>
    have hnow : (w.hit key).now = w.now := by
      unfold Watched.hit
      split
      · rfl
      · split <;> rfl
    rw [Watched.step, ← hnow]
    exact (h.hit key).tick
  | other op => exact h.other op

theorem Inv.run (h : w.Inv hash) (calls : List (Call K V)) : (w.run hash calls).Inv hash := by
  induction calls generalizing w with
  | nil => exact h
  | cons call calls ih => exact ih (h.step call)

omit [DecidableEq K] in
/-- A read in the ring names an entry of the table exactly if the entry it was a read of is still
there. -/
theorem Inv.present_iff (h : w.Inv hash) {r : LoggedRead K} (hr : r ∈ w.log) :
    w.Present r ↔ r.node ∈ w.shard.table.map (·.2.node) := by
  rw [List.mem_map]
  constructor
  · rintro ⟨ke, hke, -, hnode, -⟩
    exact ⟨ke, hke, hnode⟩
  · rintro ⟨ke, hke, hnode⟩
    obtain ⟨hkey, hborn⟩ := h.log r hr ke hke hnode
    exact ⟨ke, hke, hkey, hnode, hborn⟩

variable (hash) in
/-- Over every run of a shard with a built-in policy, clears and restores included: no entry
admitted after a read in the ring has the node of that read, and applying the ring is applying the
reads whose entries are still there. So a read of an entry that was removed, evicted or cleared
changes nothing. -/
theorem stale_reads_inert (capacity shards : UInt64) (policy : π) (choice : BuiltinChoice)
    (wheel : TimerWheel) (graceNs ttiNs : UInt64) (calls : List (Call K V)) :
    let w := run hash (new (newBuiltin capacity shards policy choice wheel graceNs ttiNs)) calls
    w.log.map (·.node) = w.shard.ring ∧
    (∀ r ∈ w.log, ∀ ke ∈ w.shard.table, r.time ≤ w.born ke.2.node → ke.2.node ≠ r.node) ∧
    ∃ b, w.shard.builtin = some b ∧ (b.applyReads w.shard.ring).1 =
      (b.applyReads ((w.log.filter fun r => w.Present r).map (·.node))).1 := by
  intro w
  have hnew : Inv hash (new (newBuiltin capacity shards policy choice wheel graceNs ttiNs) :
      Watched K V π) := by
    refine ⟨⟨_, consistent_newBuiltin hash capacity shards policy choice wheel graceNs ttiNs⟩,
      Drained.settles ⟨rfl, rfl⟩, rfl, ?_, ?_⟩
    · intro ke hke
      exact absurd hke List.not_mem_nil
    · intro r hr
      exact absurd hr List.not_mem_nil
  have h : w.Inv hash := hnew.run calls
  obtain ⟨b, hc⟩ := h.consistent
  refine ⟨h.ring, fun r hr ke hke hlate hnode => ?_, b, hc.builtin, ?_⟩
  · have hborn := (h.log r hr ke hke hnode).2
    rw [hnode] at hlate
    omega
  · have hnames : (w.shard.table.map (track hash)).map (·.name) = w.shard.table.map (·.2.node) := by
      rw [List.map_map]
      rfl
    rw [hc.tracks.applyReads_filter, hnames, ← h.ring, List.filter_map]
    congr 3
    apply List.filter_congr
    intro r hr
    simp only [Function.comp_apply, decide_eq_decide]
    exact (h.present_iff hr).symm

end Watched

end Fibre.Cache
