import Fibre.Cache.ShardMap

/-!
# The table and the built-in policy

A shard keeps its entries in the table and, separately, what its policy knows of them. With
a built-in policy the two always agree: the policy tracks one node for each entry, with the
hash of the entry's key and the entry's cost, and the shard's cost is the sum of the costs.
-/

namespace List

variable {α : Type*} {p : α → Bool} {l : List α} {a : α}

theorem perm_cons_eraseP_of_find? (h : l.find? p = some a) : l.Perm (a :: l.eraseP p) := by
  induction l with
  | nil => simp at h
  | cons b l ih =>
    by_cases hb : p b
    · obtain rfl : b = a := by simpa [hb] using h
      simp [eraseP_cons_of_pos hb]
    · rw [List.find?_cons_of_neg hb] at h
      rw [eraseP_cons_of_neg hb]
      exact ((ih h).cons b).trans (Perm.swap _ _ _)

end List

namespace Fibre.Cache.ShardMap

open CostQueue List

variable {K V π : Type*} (hash : K → UInt64)

/-- What the policy knows of an entry. -/
def track (ke : K × CacheEntry V) : Tracked NodeId UInt64 := ⟨ke.2.node, hash ke.1, ke.2.cost⟩

def entryCost (ke : K × CacheEntry V) : UInt64 := ke.2.cost

def residentCost (s : ShardMap K V π) : ℕ := totalNat entryCost s.table

/-- The policy `b` tracks the entries of the table, and the shard's cost is theirs. -/
structure Consistent (s : ShardMap K V π) (b : Builtin) : Prop where
  builtin : s.builtin = some b
  tracks : b.Tracks (s.table.map (track hash))
  keys : (s.table.map (·.1)).Nodup
  cost : s.cost = total entryCost s.table

/-- What a call that writes no entry does: table and policy stay together, entries only
leave, and the policy stays the same one with no more in its window. The last holds while
the costs add up to less than `2 ^ 64`. -/
structure Quiet (s : ShardMap K V π) (b : Builtin) (s' : ShardMap K V π) (b' : Builtin) : Prop where
  consistent : s'.Consistent hash b'
  cost_le : s'.residentCost ≤ s.residentCost
  budget : s'.budget = s.budget
  kept : s.residentCost < 2 ^ 64 → b.Kept b'

variable {hash} {s s' : ShardMap K V π} {b b' : Builtin} {ke : K × CacheEntry V}

theorem Quiet.refl (hc : s.Consistent hash b) : Quiet hash s b s b :=
  ⟨hc, le_rfl, rfl, fun _ => .refl b⟩

theorem Quiet.trans {s'' : ShardMap K V π} {b'' : Builtin} (h : Quiet hash s b s' b')
    (h' : Quiet hash s' b' s'' b'') : Quiet hash s b s'' b'' :=
  ⟨h'.consistent, h'.cost_le.trans h.cost_le, h'.budget.trans h.budget,
    fun hlt => (h.kept hlt).trans (h'.kept (h.cost_le.trans_lt hlt))⟩

theorem total_map_track (hash : K → UInt64) (l : List (K × CacheEntry V)) :
    total Tracked.cost (l.map (track hash)) = total entryCost l := by
  rw [total, map_map]
  rfl

theorem totalNat_map_track (hash : K → UInt64) (l : List (K × CacheEntry V)) :
    totalNat Tracked.cost (l.map (track hash)) = totalNat entryCost l := totalNat_map _ l

/-! ### Disarming and arming leave all but the wheel alone -/

section Frame

variable {e : CacheEntry V} {clock h : UInt64}

theorem disarm_eq (s : ShardMap K V π) (e : CacheEntry V) : ∃ w, s.disarm e = { s with wheel := w } := by
  unfold disarm
  split
  · exact ⟨s.wheel, rfl⟩
  · exact ⟨_, rfl⟩

theorem arm_eq (s : ShardMap K V π) (clock h : UInt64) (e : CacheEntry V) :
    ∃ w t, s.arm clock h e =
      ({ e with keyHash := h, ttlTimerHandle := t }, { s with wheel := w }) := by
  simp only [arm]
  split_ifs
  · exact ⟨_, _, rfl⟩
  · exact ⟨s.wheel, e.ttlTimerHandle, rfl⟩

end Frame

/-! ### Taking entries out of the table -/

theorem takeEntry_eq_some {p : K × CacheEntry V → Bool} (h : s.takeEntry p = some (ke, s')) :
    p ke ∧ s.table.Perm (ke :: s'.table) ∧ s'.cost = s.cost ∧ s'.budget = s.budget ∧
      s'.builtin = s.builtin := by
  unfold takeEntry at h
  split at h
  · simp at h
  · next ke' hfind =>
    obtain ⟨w, hw⟩ := disarm_eq { s with table := s.table.eraseP p } ke'.2
    rw [hw] at h
    obtain ⟨rfl, rfl⟩ : ke' = ke ∧ _ = s' := by simpa using h
    exact ⟨List.find?_some hfind, List.perm_cons_eraseP_of_find? hfind, rfl, rfl, rfl⟩

theorem keys_nodup_of_perm (hk : (s.table.map (·.1)).Nodup) (h : s.table.Perm (ke :: s'.table)) :
    (s'.table.map (·.1)).Nodup := by
  have := (h.map (·.1)).nodup_iff.mp hk
  exact (nodup_cons.mp this).2

theorem eq_of_track_name {ke' : K × CacheEntry V}
    (hnd : ((s.table.map (track hash)).map (·.name)).Nodup) (h : ke ∈ s.table) (h' : ke' ∈ s.table)
    (hname : ke'.2.node = ke.2.node) : ke' = ke := by
  rw [map_map] at hnd
  exact inj_on_of_nodup_map hnd h' h hname

theorem evictVictims_spec {victims E : List (Tracked NodeId UInt64)}
    (hnd : ((s.table.map (track hash)).map (·.name)).Nodup)
    (hp : (s.table.map (track hash)).Perm (victims ++ E)) (hk : (s.table.map (·.1)).Nodup)
    (hcost : s.cost = total entryCost s.table) :
    let s' := (s.evictVictims hash (victims.map fun e => (e.tag, e.name))).2
    (s'.table.map (track hash)).Perm E ∧ (s'.table.map (·.1)).Nodup ∧
      s'.cost = total entryCost s'.table ∧ s'.budget = s.budget ∧ s'.builtin = s.builtin ∧
      (s.evictVictims hash (victims.map fun e => (e.tag, e.name))).1 = victims.length := by
  induction victims generalizing s with
  | nil => exact ⟨hp, hk, hcost, rfl, rfl, rfl⟩
  | cons v vs ih =>
    have hmem : v ∈ s.table.map (track hash) := hp.mem_iff.mpr (by simp)
    obtain ⟨ke, hke, rfl⟩ := mem_map.mp hmem
    simp only [map_cons, evictVictims]
    cases ht : s.takeVictim hash ((track hash ke).tag, (track hash ke).name) with
    | none =>
      -- the victim is in the table, so it is found
      exfalso
      unfold takeVictim takeEntry at ht
      split at ht
      · next hfind => exact absurd (List.find?_eq_none.mp hfind ke hke) (by simp [track])
      · simp at ht
    | some r =>
      obtain ⟨ke', s1⟩ := r
      obtain ⟨hpred, hperm, hc1, hb1, hbu1⟩ := takeEntry_eq_some ht
      have hke' : ke' ∈ s.table := hperm.mem_iff.mpr (by simp)
      obtain rfl : ke' = ke := by
        have hpred' : hash ke'.1 = (track hash ke).tag ∧ ke'.2.node = (track hash ke).name := by
          simpa using hpred
        exact eq_of_track_name hnd hke hke' hpred'.2
      have hperm' := hperm.map (track hash)
      have hrest : (s1.table.map (track hash)).Perm (vs ++ E) :=
        (perm_cons _).mp (hperm'.symm.trans hp)
      have hnd' : ((s1.table.map (track hash)).map (·.name)).Nodup := by
        have := (hperm'.map (·.name)).nodup_iff.mp hnd
        exact (nodup_cons.mp this).2
      have hcost' : (s1.accountEviction ke'.2).cost = total entryCost s1.table := by
        simp only [accountEviction, hc1, hcost, total_perm _ hperm, total_cons, entryCost]
        simp
      have := ih (s := s1.accountEviction ke'.2) hnd' hrest (keys_nodup_of_perm hk hperm) hcost'
      exact ⟨this.1, this.2.1, this.2.2.1, this.2.2.2.1.trans hb1, this.2.2.2.2.1.trans hbu1,
        congrArg (· + 1) this.2.2.2.2.2⟩

/-! ### Writing an entry -/

section Write

variable [DecidableEq K] {key : K} {entry old : CacheEntry V}

theorem get_eq_some (hk : (s.table.map (·.1)).Nodup) (h : s.get key = some old) :
    ∃ l r, s.table = l ++ (key, old) :: r ∧ (∀ ke ∈ l, ke.1 ≠ key) ∧ ∀ ke ∈ r, ke.1 ≠ key := by
  simp only [get, Option.map_eq_some_iff] at h
  obtain ⟨⟨k, e⟩, hfind, rfl⟩ := h
  obtain rfl : k = key := by simpa using List.find?_some hfind
  obtain ⟨l, r, htable⟩ := append_of_mem (mem_of_find?_eq_some hfind)
  rw [htable] at hk
  simp only [map_append, map_cons, nodup_append, nodup_cons] at hk
  refine ⟨l, r, htable, ?_, ?_⟩
  · intro ke hke heq
    exact hk.2.2 ke.1 (mem_map_of_mem hke) k (by simp) heq
  · intro ke hke heq
    exact hk.2.1.1 (heq ▸ mem_map_of_mem hke)

theorem get_eq_none (h : s.get key = none) : key ∉ s.table.map (·.1) := by
  simp only [get, Option.map_eq_none_iff, List.find?_eq_none] at h
  intro hmem
  obtain ⟨ke, hke, rfl⟩ := mem_map.mp hmem
  simpa using h ke hke

theorem putEntry_table_of_some {l r : List (K × CacheEntry V)} (hget : s.get key = some old)
    (htable : s.table = l ++ (key, old) :: r) (hl : ∀ ke ∈ l, ke.1 ≠ key)
    (hr : ∀ ke ∈ r, ke.1 ≠ key) : (s.putEntry key entry).table = l ++ (key, entry) :: r := by
  have hmap : ∀ xs : List (K × CacheEntry V), (∀ ke ∈ xs, ke.1 ≠ key) →
      xs.map (fun ke => if ke.1 = key then (ke.1, entry) else ke) = xs := by
    intro xs hxs
    conv_rhs => rw [← map_id xs]
    refine map_congr_left ?_
    intro ke hke
    rw [if_neg (hxs ke hke)]
    rfl
  simp only [putEntry, hget, htable, map_append, map_cons, if_true, hmap l hl,
    hmap r hr]

theorem putEntry_table_of_none (h : s.get key = none) :
    (s.putEntry key entry).table = s.table ++ [(key, entry)] := by
  simp [putEntry, h]

theorem putEntry_eq (s : ShardMap K V π) (key : K) (entry : CacheEntry V) :
    s.putEntry key entry = { s with table := (s.putEntry key entry).table } := by
  unfold putEntry
  split <;> rfl

variable (hash) in
/-- What a write leaves before anything is evicted: the policy tracks the table less the
entries it rejected, and the cost counts the new entry in place of the old. -/
structure Written (s w : ShardMap K V π) (key : K) (entry : CacheEntry V)
    (rejected : List (Tracked NodeId UInt64)) (E : List (Tracked NodeId UInt64)) : Prop where
  perm : (w.table.map (track hash)).Perm (rejected ++ E)
  names : ((w.table.map (track hash)).map (·.name)).Nodup
  keys : (w.table.map (·.1)).Nodup
  cost : w.cost = total entryCost w.table
  budget : w.budget = s.budget
  resident : w.residentCost + ((s.get key).map fun e => e.cost.toNat).getD 0 =
    s.residentCost + entry.cost.toNat

theorem Consistent.write_some (hc : s.Consistent hash b) {r : Builtin}
    (hr : r.Tracks (s.table.map (track hash))) (hget : s.get key = some old) :
    let w := s.putEntry key { entry with node := old.node }
    (r.update old.node entry.cost).Tracks (w.table.map (track hash)) ∧
      Written hash s { w with cost := w.cost - old.cost + entry.cost } key entry []
        (w.table.map (track hash)) := by
  obtain ⟨l, t, htable, hl, ht⟩ := get_eq_some hc.keys hget
  have hput : (s.putEntry key { entry with node := old.node }).table =
      l ++ (key, { entry with node := old.node }) :: t := putEntry_table_of_some hget htable hl ht
  have hnames := hr.nodup_names
  have htrack : (s.putEntry key { entry with node := old.node }).table.map (track hash) =
      Tracked.setCost old.node entry.cost (s.table.map (track hash)) := by
    have hself : ∀ xs : List (K × CacheEntry V), old.node ∉ (xs.map (track hash)).map (·.name) →
        Tracked.setCost old.node entry.cost (xs.map (track hash)) = xs.map (track hash) :=
      fun xs hxs => Tracked.setCost_of_not_mem hxs
    rw [htable] at hnames
    simp only [map_append, map_cons, nodup_append, nodup_cons] at hnames
    have hnl : old.node ∉ (l.map (track hash)).map (·.name) :=
      fun hmem => hnames.2.2 _ hmem old.node (by simp [track]) rfl
    have hnt : old.node ∉ (t.map (track hash)).map (·.name) := hnames.2.1.1
    rw [hput, htable]
    simp only [map_append, map_cons]
    rw [Tracked.setCost, map_append, map_cons]
    have h1 := hself l hnl
    have h2 := hself t hnt
    simp only [Tracked.setCost] at h1 h2
    rw [h1, h2]
    simp [track]
  have hcost := hc.cost
  have hbud := congrArg ShardMap.budget
    (putEntry_eq s key { entry with node := old.node })
  have hcst := congrArg ShardMap.cost
    (putEntry_eq s key { entry with node := old.node })
  simp only at hbud hcst
  have htr : (r.update old.node entry.cost).Tracks
      ((s.putEntry key { entry with node := old.node }).table.map (track hash)) := by
    rw [htrack]
    exact hr.update old.node entry.cost
  refine ⟨htr, by simp, htr.nodup_names, ?_, ?_, hbud, ?_⟩
  · simp only [hput]
    have hk := hc.keys
    rw [htable] at hk
    simpa using hk
  · simp only [hcst, hput, hcost, htable, total_append, total_cons, entryCost]
    abel
  · simp only [residentCost, hput, htable, totalNat_append, totalNat_cons, entryCost, hget,
      Option.map_some, Option.getD_some]
    omega

theorem Consistent.write_none (hc : s.Consistent hash b) {r : Builtin}
    (hr : r.Tracks (s.table.map (track hash))) (hget : s.get key = none) :
    let a := r.admitEntry (hash key) entry.cost []
    let w := s.putEntry key { entry with node := a.1 }
    ∃ rejected E, a.2.1.Tracks E ∧ a.2.2 = rejected.map (fun e => (e.tag, e.name)) ∧
      Written hash s { w with cost := w.cost + entry.cost } key entry rejected E := by
  obtain ⟨rejected, E, htr, hperm, hout⟩ := hr.admitEntry (hash key) entry.cost
  have hfresh := hr.admitEntry_fresh (hash key) entry.cost
  have hput : (s.putEntry key { entry with node := (r.admitEntry (hash key) entry.cost []).1 }).table =
      s.table ++ [(key, { entry with node := (r.admitEntry (hash key) entry.cost []).1 })] :=
    putEntry_table_of_none hget
  have hpe := putEntry_eq s key { entry with node := (r.admitEntry (hash key) entry.cost []).1 }
  have hbud := congrArg ShardMap.budget hpe
  have hcst := congrArg ShardMap.cost hpe
  simp only at hbud hcst
  have hnew : ((s.putEntry key { entry with
      node := (r.admitEntry (hash key) entry.cost []).1 }).table.map (track hash)).Perm
        (⟨(r.admitEntry (hash key) entry.cost []).1, hash key, entry.cost⟩ ::
          s.table.map (track hash)) := by
    rw [hput]
    simp only [map_append, map_cons, map_nil]
    exact perm_append_singleton _ _
  refine ⟨rejected, E, htr, hout, hnew.trans hperm, ?_, ?_, ?_, hbud, ?_⟩
  · refine (hnew.map _).nodup_iff.mpr ?_
    exact nodup_cons.mpr ⟨hfresh, hr.nodup_names⟩
  · simp only [hput, map_append, map_cons, map_nil]
    refine nodup_append.mpr ⟨hc.keys, by simp, ?_⟩
    rintro k hk k' hk' rfl
    obtain rfl : k = key := by simpa using hk'
    exact get_eq_none hget hk
  · simp only [hcst, hput, hc.cost, total_append, total_cons, total_nil, entryCost, add_zero]
  · simp only [residentCost, hput, totalNat_append, totalNat_cons, totalNat_nil, entryCost, hget,
      Option.map_none, Option.getD_none]
    omega

theorem Consistent.writeBuiltin (hc : s.Consistent hash b) (key : K) (entry : CacheEntry V) :
    let w := s.writeBuiltin b key entry (hash key)
    ∃ rejected E b', w.2.1.builtin = some b' ∧ b'.Tracks E ∧
      w.2.2 = rejected.map (fun e => (e.tag, e.name)) ∧
      Written hash s w.2.1 key entry rejected E := by
  have hr := hc.tracks.applyReads s.ring
  have hring : ∀ ring, Consistent hash { s with ring := ring } b := fun ring =>
    ⟨hc.builtin, hc.tracks, hc.keys, hc.cost⟩
  unfold ShardMap.writeBuiltin
  cases hget : s.get key with
  | some old =>
    have hget' : ShardMap.get { s with ring := (b.applyReads s.ring).2 } key = some old := hget
    obtain ⟨htr, hw⟩ := (hring (b.applyReads s.ring).2).write_some hr hget'
    simp only [hget']
    exact ⟨[], _, _, rfl, htr, rfl, hw.perm, hw.names, hw.keys, hw.cost, hw.budget, hw.resident⟩
  | none =>
    have hget' : ShardMap.get { s with ring := (b.applyReads s.ring).2 } key = none := hget
    obtain ⟨rejected, E, htr, hout, hw⟩ :=
      (hring (b.applyReads s.ring).2).write_none hr hget'
    simp only [hget']
    exact ⟨rejected, E, _, rfl, htr, hout, hw.perm, hw.names, hw.keys, hw.cost, hw.budget,
      hw.resident⟩

end Write

/-! ### Evicting -/

theorem consistent_evictVictims {victims E : List (Tracked NodeId UInt64)}
    (hb : s.builtin = some b) (htr : b.Tracks E)
    (hp : (s.table.map (track hash)).Perm (victims ++ E))
    (hnd : ((s.table.map (track hash)).map (·.name)).Nodup) (hk : (s.table.map (·.1)).Nodup)
    (hcost : s.cost = total entryCost s.table) :
    let s' := (s.evictVictims hash (victims.map fun e => (e.tag, e.name))).2
    s'.Consistent hash b ∧ s'.budget = s.budget ∧
      s'.residentCost + totalNat Tracked.cost victims = s.residentCost := by
  obtain ⟨hperm, hkeys, hc, hbud, hbu, -⟩ := evictVictims_spec hnd hp hk hcost
  refine ⟨⟨hbu.trans hb, htr.perm hperm.symm, hkeys, hc⟩, hbud, ?_⟩
  have h1 := totalNat_perm Tracked.cost hp
  have h2 := totalNat_perm Tracked.cost hperm
  rw [totalNat_map_track, totalNat_append] at h1
  rw [totalNat_map_track] at h2
  unfold residentCost
  omega

theorem Consistent.evictOver (hc : s.Consistent hash b) :
    (∃ b', (s.evictOver hash).2.Consistent hash b') ∧ (s.evictOver hash).2.budget = s.budget := by
  unfold ShardMap.evictOver
  simp only [hc.builtin]
  split_ifs
  · obtain ⟨victims, E, htr, hperm, hout⟩ := hc.tracks.evict (s.cost - s.budget)
    have := consistent_evictVictims (s := { s with builtin := some (b.evict _ []).1 }) rfl htr hperm
      hc.tracks.nodup_names hc.keys hc.cost
    rw [hout]
    exact ⟨⟨_, this.1⟩, this.2.1⟩
  · exact ⟨⟨b, hc⟩, rfl⟩

/-! ### The operations -/

section Operations

theorem Consistent.congr (hc : s.Consistent hash b) (ht : s'.table = s.table)
    (hcost : s'.cost = s.cost) (hb : s'.builtin = s.builtin) : s'.Consistent hash b :=
  ⟨hb.trans hc.builtin, ht ▸ hc.tracks, ht ▸ hc.keys, by rw [hcost, ht]; exact hc.cost⟩

theorem Consistent.quiet_congr (hc : s.Consistent hash b) (ht : s'.table = s.table)
    (hcost : s'.cost = s.cost) (hb : s'.builtin = s.builtin) (hbud : s'.budget = s.budget) :
    Quiet hash s b s' b :=
  ⟨hc.congr ht hcost hb, by rw [residentCost, ht]; exact le_rfl, hbud, fun _ => .refl b⟩

theorem Consistent.quiet_policy (hc : s.Consistent hash b)
    (htr : b'.Tracks (s.table.map (track hash))) (hk : b.Kept b') (ring : List NodeId) :
    Quiet hash s b { s with builtin := some b', ring := ring } b' :=
  ⟨⟨rfl, htr, hc.keys, hc.cost⟩, le_rfl, rfl, fun _ => hk⟩

theorem Consistent.quiet_forget [CachePolicy π K] (hc : s.Consistent hash b)
    (hp : s.table.Perm (ke :: s'.table)) (hcost : s'.cost = s.cost) (hbud : s'.budget = s.budget)
    (hb : s'.builtin = s.builtin) :
    Quiet hash s b
      ({ s' with cost := s'.cost - ke.2.cost : ShardMap K V π }.forget ke.1 ke.2)
      (b.remove ke.2.node) := by
  have hbuiltin : s'.builtin = some b := hb.trans hc.builtin
  have hforget : { s' with cost := s'.cost - ke.2.cost : ShardMap K V π }.forget ke.1 ke.2 =
      { s' with cost := s'.cost - ke.2.cost, builtin := some (b.remove ke.2.node) } := by
    simp [ShardMap.forget, hbuiltin]
  have hperm := hp.map (track hash)
  have hnames := (hperm.map (·.name)).nodup_iff.mp hc.tracks.nodup_names
  have hwithout : Tracked.without ke.2.node ((ke :: s'.table).map (track hash)) =
      s'.table.map (track hash) := by
    have hrest := Tracked.without_of_not_mem (nodup_cons.mp hnames).1
    rw [map_cons, Tracked.without, filter_cons_of_neg (by simp [track])]
    exact hrest
  have htr := (hc.tracks.perm hperm).remove ke.2.node
  rw [hwithout] at htr
  rw [hforget]
  refine ⟨⟨rfl, htr, keys_nodup_of_perm hc.keys hp, ?_⟩, ?_, hbud, ?_⟩
  · simp only [hcost, hc.cost, total_perm _ hp, total_cons, entryCost]
    simp
  · have := totalNat_perm entryCost hp
    rw [totalNat_cons] at this
    simp only [residentCost]
    omega
  · intro hlt
    refine hc.tracks.kept_remove ?_ ke.2.node
    rw [totalNat_map_track]
    exact hlt

theorem Consistent.quiet_table (hc : s.Consistent hash b) {w : TimerWheel}
    {table : List (K × CacheEntry V)}
    (ht : table.map (fun ke => (ke.1, ke.2.node, ke.2.cost)) =
      s.table.map fun ke => (ke.1, ke.2.node, ke.2.cost)) :
    Quiet hash s b { s with wheel := w, table := table } b := by
  have hkeys : table.map (·.1) = s.table.map (·.1) := by
    have := congrArg (List.map fun x => x.1) ht
    rwa [map_map, map_map] at this
  have htrack : table.map (track hash) = s.table.map (track hash) := by
    have := congrArg (List.map fun x => (⟨x.2.1, hash x.1, x.2.2⟩ : Tracked NodeId UInt64)) ht
    rwa [map_map, map_map] at this
  have htotal : total entryCost table = total entryCost s.table := by
    rw [← total_map_track hash, htrack, total_map_track]
  have hnat : totalNat entryCost table = totalNat entryCost s.table := by
    rw [← totalNat_map_track hash, htrack, totalNat_map_track]
  exact ⟨⟨hc.builtin, htrack ▸ hc.tracks, hkeys ▸ hc.keys, htotal ▸ hc.cost⟩, hnat.le, rfl,
    fun _ => .refl b⟩

theorem rearm_eq (s : ShardMap K V π) (clock h : UInt64) :
    s.rearm hash clock h =
      { s with
        wheel := (s.rearm hash clock h).wheel
        table := (s.rearm hash clock h).table } := by
  simp only [ShardMap.rearm]
  split
  · rfl
  · split <;> rfl

theorem map_rearm {β : Type*} {f : K × CacheEntry V → β}
    (hf : ∀ k e t, f (k, { e with ttlTimerHandle := t }) = f (k, e)) (s : ShardMap K V π)
    (clock h : UInt64) : (s.rearm hash clock h).table.map f = s.table.map f := by
  simp only [ShardMap.rearm]
  split
  · rfl
  · next i hi =>
    split
    · rfl
    · next ke hke =>
      apply ext_getElem?
      intro j
      simp only [List.getElem?_map, List.getElem?_set]
      split_ifs with hij hlt
      · subst hij
        simp [hke, hf]
      · subst hij
        rw [List.getElem?_eq_none (by omega)] at hke
        simp at hke
      · rfl

/-- What an entry says besides its value and its access time is the same after a change of
those. -/
theorem map_modifyEntry [DecidableEq K] {β : Type*} {f : K × CacheEntry V → β}
    (hf : ∀ k e v t, f (k, { e with value := v, lastAccessed := t }) = f (k, e))
    (s : ShardMap K V π) (k : K) (value : V → V) (lastAccessed : UInt64 → UInt64) :
    (s.modifyEntry k value lastAccessed).table.map f = s.table.map f := by
  simp only [ShardMap.modifyEntry, map_map]
  apply map_congr_left
  intro ke _
  simp only [Function.comp_apply]
  split_ifs
  · exact hf _ _ _ _
  · rfl

theorem Consistent.rearm (hc : s.Consistent hash b) (clock h : UInt64) :
    Quiet hash s b (s.rearm hash clock h) b := by
  rw [rearm_eq]
  apply hc.quiet_table
  exact map_rearm (fun _ _ _ => rfl) s clock h

theorem Consistent.touchRead (hc : s.Consistent hash b) (node : NodeId) :
    Quiet hash s b (s.touchRead node) (b.touch node) := by
  simp only [ShardMap.touchRead, hc.builtin, Option.map_some]
  exact hc.quiet_policy (hc.tracks.touch node) (hc.tracks.kept_touch node) _

theorem Consistent.pushRing (hc : s.Consistent hash b) (node : NodeId) :
    Quiet hash s b (s.pushRing node).2 b := by
  unfold ShardMap.pushRing
  split_ifs
  · exact .refl hc
  · exact hc.quiet_congr rfl rfl rfl rfl
  · exact .refl hc

theorem Consistent.pushLog (hc : s.Consistent hash b) (key : K) (cost : UInt64) :
    Quiet hash s b (s.pushLog key cost).2 b := by
  unfold ShardMap.pushLog
  split_ifs
  · exact hc.quiet_congr rfl rfl rfl rfl
  · exact .refl hc

theorem Consistent.modifyEntry [DecidableEq K] (hc : s.Consistent hash b) (k : K) (value : V → V)
    (lastAccessed : UInt64 → UInt64) :
    Quiet hash s b (s.modifyEntry k value lastAccessed) b := by
  apply hc.quiet_table
  exact map_modifyEntry (fun _ _ _ _ => rfl) s k value lastAccessed

section Policy

variable [CachePolicy π K]

theorem Consistent.applyReads (hc : s.Consistent hash b) :
    Quiet hash s b s.applyReads (b.applyReads s.ring).1 := by
  unfold ShardMap.applyReads
  simp only [hc.builtin]
  exact hc.quiet_policy (hc.tracks.applyReads s.ring) (hc.tracks.kept_applyReads s.ring) _

theorem Consistent.applyDeferred (hc : s.Consistent hash b) (read : DeferredRead K) :
    ∃ b', Quiet hash s b (s.applyDeferred read) b' := by
  have hr := hc.applyReads
  cases read with
  | key k c => exact ⟨_, hr.trans (hr.consistent.quiet_congr rfl rfl rfl rfl)⟩
  | node n =>
    refine ⟨(b.applyReads s.ring).1.applyRead n, hr.trans ?_⟩
    simp only [ShardMap.applyDeferred, hr.consistent.builtin, Option.map_some]
    exact hr.consistent.quiet_policy (hr.consistent.tracks.applyRead n)
      (hr.consistent.tracks.kept_applyRead n) _

theorem Consistent.remove [DecidableEq K] (hc : s.Consistent hash b) (k : K) :
    ∃ b', Quiet hash s b (s.remove k).2 b' := by
  have hr := hc.applyReads
  simp only [ShardMap.remove]
  split
  · exact ⟨_, hr⟩
  · next key e s1 ht =>
    obtain ⟨-, hp, hcost, hbud, hb⟩ := takeEntry_eq_some ht
    exact ⟨_, hr.trans (hr.consistent.quiet_forget hp hcost hbud hb)⟩

theorem Consistent.removeExpiredLoop (hc : s.Consistent hash b) (h now : UInt64) (fuel : ℕ)
    (out : List (K × CacheEntry V × ExpiredBy)) :
    ∃ b', Quiet hash s b (removeExpiredLoop hash h now fuel s out).1 b' := by
  induction fuel generalizing s b out with
  | zero => exact ⟨b, .refl hc⟩
  | succ fuel ih =>
    unfold ShardMap.removeExpiredLoop
    split
    · exact ⟨b, .refl hc⟩
    · next key e s1 ht =>
      obtain ⟨-, hp, hcost, hbud, hb⟩ := takeEntry_eq_some ht
      have hq := hc.quiet_forget hp hcost hbud hb
      obtain ⟨b', hq'⟩ := ih hq.consistent
        (out ++ ((e.expiredBy now s.graceNs s.ttiNs).map fun limit => (key, e, limit)).toList)
      exact ⟨b', hq.trans hq'⟩

theorem Consistent.removeExpired (hc : s.Consistent hash b) (h now : UInt64)
    (out : List (K × CacheEntry V × ExpiredBy)) :
    ∃ b', Quiet hash s b (removeExpired hash s h now out).1 b' :=
  hc.removeExpiredLoop h now _ out

theorem Consistent.foldl_removeExpired (hc : s.Consistent hash b) (now : UInt64)
    (f : ShardMap K V π → UInt64 → ShardMap K V π)
    (hf : ∀ (s : ShardMap K V π) b h, s.Consistent hash b → Quiet hash s b (f s h) b)
    (hashes : List UInt64) (out : List (K × CacheEntry V × ExpiredBy)) :
    ∃ b', Quiet hash s b (hashes.foldl
      (fun (r : ShardMap K V π × List (K × CacheEntry V × ExpiredBy)) h =>
        (f (ShardMap.removeExpired hash r.1 h now r.2).1 h,
          (ShardMap.removeExpired hash r.1 h now r.2).2)) (s, out)).1 b' := by
  induction hashes generalizing s b out with
  | nil => exact ⟨b, .refl hc⟩
  | cons h hashes ih =>
    obtain ⟨b', hq⟩ := hc.removeExpired h now out
    have hq' := hq.trans (hf _ _ h hq.consistent)
    obtain ⟨b'', hq''⟩ := ih hq'.consistent (ShardMap.removeExpired hash s h now out).2
    exact ⟨b'', hq'.trans hq''⟩

theorem Consistent.expireDue (hc : s.Consistent hash b) (clock now : UInt64) :
    ∃ b', Quiet hash s b (s.expireDue hash clock now).2 b' := by
  have hw : Quiet hash s b { s with wheel := (s.wheel.advance now).2 } b :=
    hc.quiet_congr rfl rfl rfl rfl
  simp only [ShardMap.expireDue]
  split_ifs
  · exact ⟨b, hw⟩
  · have hr := hw.trans hw.consistent.applyReads
    obtain ⟨b', hq⟩ := hr.consistent.foldl_removeExpired now (fun s h => s.rearm hash clock h)
      (fun s b h hc => hc.rearm clock h) (s.wheel.advance now).1 []
    exact ⟨b', hr.trans hq⟩

theorem Consistent.removeExpiredHashes (hc : s.Consistent hash b) (hashes : List UInt64)
    (now : UInt64) : ∃ b', Quiet hash s b (s.removeExpiredHashes hash hashes now).2 b' := by
  have hr := hc.applyReads
  obtain ⟨b', hq⟩ := hr.consistent.foldl_removeExpired now (fun s _ => s)
    (fun s b _ hc => .refl hc) hashes []
  exact ⟨b', hr.trans hq⟩

theorem Consistent.clear (hc : s.Consistent hash b) : Quiet hash s b s.clear b.clear := by
  unfold ShardMap.clear
  simp only [hc.builtin]
  exact ⟨⟨rfl, hc.tracks.clear, nodup_nil, rfl⟩, Nat.zero_le _, rfl,
    fun _ => hc.tracks.kept_clear⟩

theorem Consistent.quiet_step [DecidableEq K] (hc : s.Consistent hash b) (op : Op K V)
    (hins : ∀ clock key entry, op ≠ .insert clock key entry)
    (hrep : ∀ clock entries, op ≠ .replaceAll clock entries) :
    ∃ b', Quiet hash s b (s.step hash op) b' := by
  cases op with
  | insert clock key entry => exact absurd rfl (hins clock key entry)
  | replaceAll clock entries => exact absurd rfl (hrep clock entries)
  | remove key => exact hc.remove key
  | expireDue clock now => exact hc.expireDue clock now
  | expireAll now => exact hc.removeExpiredHashes _ now
  | removeExpiredHashes hashes now => exact hc.removeExpiredHashes hashes now
  | clear => exact ⟨_, hc.clear⟩
  | applyReads => exact ⟨_, hc.applyReads⟩
  | applyDeferred read => exact hc.applyDeferred read
  | touchRead node => exact ⟨_, hc.touchRead node⟩
  | pushRing node => exact ⟨_, hc.pushRing node⟩
  | pushLog key cost => exact ⟨_, hc.pushLog key cost⟩
  | modifyEntry key value lastAccessed => exact ⟨_, hc.modifyEntry key value lastAccessed⟩

end Policy

variable [DecidableEq K]

theorem Consistent.insertBuiltin (hc : s.Consistent hash b) (key : K) (entry : CacheEntry V) :
    (∃ b', (s.insertBuiltin hash b key entry (hash key)).2.Consistent hash b') ∧
      (s.insertBuiltin hash b key entry (hash key)).2.budget = s.budget := by
  obtain ⟨rejected, E, b', hb', htr, hout, hw⟩ := hc.writeBuiltin key entry
  have hev := consistent_evictVictims hb' htr hw.perm hw.names hw.keys hw.cost
  rw [← hout] at hev
  obtain ⟨⟨b'', hc''⟩, hbud⟩ := hev.1.evictOver
  unfold ShardMap.insertBuiltin
  exact ⟨⟨b'', hc''.congr rfl rfl rfl⟩, hbud.trans (hev.2.1.trans hw.budget)⟩

theorem insertInner_eq [CachePolicy π K] (hb : s.builtin = some b) (clock : UInt64) (key : K)
    (entry : CacheEntry V) (count : Bool) :
    ∃ w t w' n, (s.insertInner hash clock key entry count).2 =
      { ({ s with wheel := w } : ShardMap K V π).insertBuiltin hash b key
          { entry with keyHash := hash key, ttlTimerHandle := t } (hash key) |>.2 with
        wheel := w', counters := n } := by
  obtain ⟨w, t, harm⟩ := arm_eq s clock (hash key) entry
  refine ⟨w, t, ?_⟩
  simp only [insertInner, harm, hb]
  generalize ShardMap.insertBuiltin hash _ b key _ (hash key) = r
  obtain ⟨old, r⟩ := r
  cases old with
  | none =>
    cases count
    · exact ⟨_, _, rfl⟩
    · exact ⟨_, _, rfl⟩
  | some old =>
    obtain ⟨w', hw'⟩ := disarm_eq r old
    cases count
    · simp only [hw']
      exact ⟨_, _, rfl⟩
    · simp only [hw', if_true]
      exact ⟨_, _, rfl⟩

end Operations

end Fibre.Cache.ShardMap
