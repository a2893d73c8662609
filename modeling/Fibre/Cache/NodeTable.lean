import Fibre.Cache.Consistency

/-!
# One node for each entry

The table and the policy's slab name each other: an entry by its node id, a node by its key's
hash. In every state a shard can reach, the live nodes of the slab are exactly those of the
entries, with their hashes and costs, and whatever an eviction names is in the table.
-/

namespace Fibre.Cache

open CostQueue List

namespace Slab

variable {P : Type*}

def lookup (s : Slab P) (node : NodeId) : Option (P × UInt64) :=
  (s.resolve node).bind fun i => (s.payload i).map (·, s.costs i)

/-- The ids of the slots in use. -/
def liveNodes (s : Slab P) : List NodeId :=
  ((List.range s.size).filter fun i => (s.links i).seg.isSome).map s.id

variable [Inhabited P] {s : Slab P} {L : Fin 3 → List (Tracked NodeId P)}

/-- The entry of a list is what its name stands for. -/
theorem Holds.lookup (h : s.Holds L) {a : Fin 3} {e : Tracked NodeId P} (he : e ∈ L a) :
    s.lookup e.name = some (e.tag, e.cost) := by
  obtain ⟨q, hq, hL⟩ := h
  rw [hL] at he
  obtain ⟨i, hi, rfl⟩ := mem_map.mp he
  have hmem : i ∈ q a := mem_reverse.mp hi
  obtain ⟨p, hp⟩ := Option.isSome_iff_exists.mp (hq.payload_isSome i (.inl ⟨a, hmem⟩))
  have hresolve : s.resolve (s.node i).name = some i := hq.resolve_id hmem
  rw [Slab.lookup, hresolve]
  simp [node, hp]

theorem Holds.liveNodes (h : s.Holds L) :
    ((L 0 ++ L 1 ++ L 2).map (·.name)).Perm s.liveNodes := by
  obtain ⟨q, hq, hL⟩ := h
  have hslots : (q 0 ++ q 1 ++ q 2).Perm
      ((List.range s.size).filter fun i => (s.links i).seg.isSome) := by
    have hnd : (q 0 ++ q 1 ++ q 2).Nodup := by
      have hdisj : ∀ a b : Fin 3, a ≠ b → (q a).Disjoint (q b) :=
        fun a b hab i hi hj => hab (hq.seg_unique hi hj)
      refine ((hq.nodup 0).append (hq.nodup 1) (hdisj 0 1 (by decide))).append (hq.nodup 2) ?_
      exact disjoint_append_left.mpr ⟨hdisj 0 2 (by decide), hdisj 1 2 (by decide)⟩
    apply (perm_ext_iff_of_nodup hnd (nodup_range.filter _)).mpr
    intro i
    rw [mem_filter, mem_range, Option.isSome_iff_exists]
    constructor
    · intro hi
      have hin : ∃ a, i ∈ q a := by
        simp only [mem_append] at hi
        rcases hi with (hi | hi) | hi
        · exact ⟨0, hi⟩
        · exact ⟨1, hi⟩
        · exact ⟨2, hi⟩
      obtain ⟨a, hi⟩ := hin
      exact ⟨hq.lt_size hi, a, hq.seg_eq hi⟩
    · rintro ⟨hlt, a, hseg⟩
      have hi : i ∈ q a := (hq.mem_iff a i).mpr ⟨hlt, hseg, by simp⟩
      simp only [mem_append]
      fin_cases a
      · exact .inl (.inl hi)
      · exact .inl (.inr hi)
      · exact .inr hi
  have hname : ∀ a, (L a).map (·.name) = (q a).reverse.map s.id := by
    intro a
    rw [hL, map_map]
    rfl
  rw [map_append, map_append, hname, hname, hname, ← map_append,
    ← map_append, Slab.liveNodes]
  apply Perm.map
  apply Perm.trans _ hslots
  exact ((reverse_perm _).append (reverse_perm _)).append (reverse_perm _)

end Slab

namespace Builtin

/-- The slab the policy keeps its nodes in. -/
def slab : Builtin → Slab UInt64
  | tinyLfu p => p.slab
  | s3Fifo p => p.slab

variable {b : Builtin} {E : List (Tracked NodeId UInt64)}

theorem Tracks.holds (h : b.Tracks E) :
    ∃ L, b.slab.Holds L ∧ (L 0 ++ L 1 ++ L 2).Perm E := by
  cases b with
  | tinyLfu p =>
    obtain ⟨A, hA, hE⟩ := h
    exact ⟨A.lists, hA.holds, hE⟩
  | s3Fifo p =>
    obtain ⟨A, ⟨q, hA⟩, hE⟩ := h
    -- an S3-FIFO entry, its read count left out, is the node at its slot
    have hnode : ∀ a, ((q a).reverse.map p.entryOf).map S3Entry.toTracked =
        (q a).reverse.map p.slab.node := by
      intro a
      rw [map_map]
      rfl
    refine ⟨fun a => (q a).reverse.map p.slab.node, ⟨q, hA.repr, fun _ => rfl⟩, ?_⟩
    rw [S3Queue.tracked, S3Queue.entries, map_append, hA.small, hA.main, hnode, hnode] at hE
    simpa [hA.unused] using hE

theorem Tracks.liveNodes (h : b.Tracks E) : (E.map (·.name)).Perm b.slab.liveNodes := by
  obtain ⟨L, hL, hE⟩ := h.holds
  exact (hE.map _).symm.trans hL.liveNodes

theorem Tracks.lookup (h : b.Tracks E) {e : Tracked NodeId UInt64} (he : e ∈ E) :
    b.slab.lookup e.name = some (e.tag, e.cost) := by
  obtain ⟨L, hL, hE⟩ := h.holds
  have hmem := hE.mem_iff.mpr he
  simp only [mem_append] at hmem
  rcases hmem with (hmem | hmem) | hmem
  · exact hL.lookup hmem
  · exact hL.lookup hmem
  · exact hL.lookup hmem

end Builtin

namespace ShardMap

variable {K V π : Type*} (hash : K → UInt64)

/-- Evicting the victims finds each of them in the table, under its hash, and leaves none. -/
structure Evicts (s : ShardMap K V π) (victims : List Victim) : Prop where
  found : ∀ v ∈ victims, ∃ ke ∈ s.table, hash ke.1 = v.1 ∧ ke.2.node = v.2
  count : (s.evictVictims hash victims).1 = victims.length
  gone : ∀ v ∈ victims, ∀ ke ∈ (s.evictVictims hash victims).2.table, ke.2.node ≠ v.2

variable {hash} {s : ShardMap K V π} {b : Builtin}

theorem evicts_of_tracked {victims E : List (Tracked NodeId UInt64)}
    (hnd : ((s.table.map (track hash)).map (·.name)).Nodup)
    (hp : (s.table.map (track hash)).Perm (victims ++ E)) (hk : (s.table.map (·.1)).Nodup)
    (hcost : s.cost = total entryCost s.table) :
    Evicts hash s (victims.map fun e => (e.tag, e.name)) := by
  obtain ⟨hperm, -, -, -, -, hcount⟩ := evictVictims_spec hnd hp hk hcost
  refine ⟨fun v hv => ?_, hcount.trans (length_map _).symm, fun v hv ke hke hnode => ?_⟩
  · obtain ⟨e, he, rfl⟩ := mem_map.mp hv
    have hmem := hp.mem_iff.mpr (mem_append_left _ he)
    obtain ⟨ke, hke, rfl⟩ := mem_map.mp hmem
    exact ⟨ke, hke, rfl, rfl⟩
  · obtain ⟨e, he, rfl⟩ := mem_map.mp hv
    -- the entry left would share its node id with the victim
    have hleft : track hash ke ∈ E := hperm.mem_iff.mp (mem_map_of_mem hke)
    have hnames := (hp.map (·.name)).nodup_iff.mp hnd
    rw [map_append] at hnames
    exact (nodup_append.mp hnames).2.2 _ (mem_map_of_mem he) _
      (mem_map_of_mem hleft) hnode.symm

theorem Consistent.evicts (hc : s.Consistent hash b) (costToFree : UInt64) :
    Evicts hash { s with builtin := some (b.evict costToFree []).1 } (b.evict costToFree []).2 := by
  obtain ⟨victims, E, -, hperm, hout⟩ := hc.tracks.evict costToFree
  rw [hout]
  exact evicts_of_tracked hc.tracks.nodup_names hperm hc.keys hc.cost

section Insert

variable [DecidableEq K]

/-- The victims of an insert: those named while admitting, then those named to get back within
the budget, whatever the amount. -/
theorem Consistent.evicts_write (hc : s.Consistent hash b) (key : K) (entry : CacheEntry V) :
    let w := s.writeBuiltin b key entry (hash key)
    Evicts hash w.2.1 w.2.2 ∧
      ∃ b', (w.2.1.evictVictims hash w.2.2).2.Consistent hash b' := by
  obtain ⟨rejected, E, b', hb', htr, hout, hw⟩ := hc.writeBuiltin key entry
  have hev := consistent_evictVictims hb' htr hw.perm hw.names hw.keys hw.cost
  rw [← hout] at hev
  refine ⟨?_, b', hev.1⟩
  rw [hout]
  exact evicts_of_tracked hw.names hw.perm hw.keys hw.cost

variable [CachePolicy π K]

theorem Consistent.insertInner (hc : s.Consistent hash b) (clock : UInt64) (key : K)
    (entry : CacheEntry V) (count : Bool) :
    ∃ b', (s.insertInner hash clock key entry count).2.Consistent hash b' := by
  obtain ⟨w, t, w', n, heq⟩ := insertInner_eq hc.builtin clock key entry count
  have hwheel : ({ s with wheel := w } : ShardMap K V π).Consistent hash b :=
    hc.congr rfl rfl rfl
  obtain ⟨⟨b', hb'⟩, -⟩ := hwheel.insertBuiltin key
    { entry with keyHash := hash key, ttlTimerHandle := t }
  rw [heq]
  exact ⟨b', hb'.congr rfl rfl rfl⟩

theorem Consistent.insertAll (hc : s.Consistent hash b) (clock : UInt64)
    (entries : List (K × CacheEntry V)) :
    ∃ b', (s.insertAll hash clock entries).Consistent hash b' := by
  induction entries generalizing s b with
  | nil => exact ⟨b, hc⟩
  | cons ke entries ih =>
    obtain ⟨b', hb'⟩ := hc.insertInner clock ke.1 ke.2 false
    exact ih hb'

theorem Consistent.step (hc : s.Consistent hash b) (op : Op K V) :
    ∃ b', (s.step hash op).Consistent hash b' := by
  by_cases hins : ∃ clock key entry, op = .insert clock key entry
  · obtain ⟨clock, key, entry, rfl⟩ := hins
    exact hc.insertInner clock key entry true
  by_cases hrep : ∃ clock entries, op = .replaceAll clock entries
  · obtain ⟨clock, entries, rfl⟩ := hrep
    exact hc.clear.consistent.insertAll clock entries
  · obtain ⟨b', hq⟩ := hc.quiet_step op
      (fun clock key entry heq => hins ⟨clock, key, entry, heq⟩)
      (fun clock entries heq => hrep ⟨clock, entries, heq⟩)
    exact ⟨b', hq.consistent⟩

theorem Consistent.run (hc : s.Consistent hash b) (ops : List (Op K V)) :
    ∃ b', (s.run hash ops).Consistent hash b' := by
  induction ops generalizing s b with
  | nil => exact ⟨b, hc⟩
  | cons op ops ih =>
    obtain ⟨b', hb'⟩ := hc.step op
    exact ih hb'

omit [DecidableEq K] [CachePolicy π K] in
variable (hash) in
theorem consistent_newBuiltin (capacity shards : UInt64) (policy : π) (choice : BuiltinChoice)
    (wheel : TimerWheel) (graceNs ttiNs : UInt64) :
    (newBuiltin capacity shards policy choice wheel graceNs ttiNs :
      ShardMap K V π).Consistent hash (.new choice (builtinCapacity capacity shards)) :=
  ⟨rfl, Builtin.tracks_new choice _, nodup_nil, rfl⟩

variable (hash) in
/-- After every sequence of calls, the live nodes of the policy and the entries of the table
correspond one to one, each node with its entry's key hash and cost; and in the insert that
comes next, every victim the policy names, while admitting or for whatever cost to free after
that, is found in the table and removed. -/
theorem nodes_match_entries (capacity shards : UInt64) (policy : π) (choice : BuiltinChoice)
    (wheel : TimerWheel) (graceNs ttiNs : UInt64) (ops : List (Op K V)) :
    let s := run hash (newBuiltin capacity shards policy choice wheel graceNs ttiNs) ops
    ∃ b, s.builtin = some b ∧
      (s.table.map (·.1)).Nodup ∧
      (s.table.map (·.2.node)).Nodup ∧
      (s.table.map (·.2.node)).Perm b.slab.liveNodes ∧
      (∀ ke ∈ s.table, b.slab.lookup ke.2.node = some (hash ke.1, ke.2.cost)) ∧
      ∀ (clock : UInt64) (key : K) (entry : CacheEntry V),
        let a := s.arm clock (hash key) entry
        let w := a.2.writeBuiltin b key a.1 (hash key)
        let r := (w.2.1.evictVictims hash w.2.2).2
        Evicts hash w.2.1 w.2.2 ∧ ∃ b', r.builtin = some b' ∧ ∀ costToFree,
          Evicts hash { r with builtin := some (b'.evict costToFree []).1 }
            (b'.evict costToFree []).2 := by
  intro s
  obtain ⟨b, hc⟩ := (consistent_newBuiltin hash capacity shards policy choice wheel
    graceNs ttiNs).run ops
  have hnames : (s.table.map (track hash)).map (·.name) = s.table.map (·.2.node) := by
    rw [List.map_map]
    rfl
  refine ⟨b, hc.builtin, hc.keys, hnames ▸ hc.tracks.nodup_names, hnames ▸ hc.tracks.liveNodes,
    fun ke hke => hc.tracks.lookup (List.mem_map_of_mem (f := track hash) hke), ?_⟩
  intro clock key entry a w r
  obtain ⟨w₀, t, harm⟩ := arm_eq s clock (hash key) entry
  have harmed : a.2.Consistent hash b := by
    rw [show a = _ from harm]
    exact hc.congr rfl rfl rfl
  obtain ⟨hfirst, b', hb'⟩ := harmed.evicts_write key a.1
  exact ⟨hfirst, b', hb'.builtin, fun c => hb'.evicts c⟩

end Insert

end ShardMap

end Fibre.Cache
