import Fibre.Cache.Consistency

/-!
# What a call keeps

The calls on a shard reach their entries in few ways: an entry is taken out of the table
together with its cost, or written in place of another. A property of the table, the cost and
the wheel that survives an entry leaving therefore survives whatever a policy, built in or
from a factory, names to be evicted, and whatever expires.
-/

namespace Fibre.Cache.ShardMap

open CostQueue List

variable {K V π : Type*}

/-- The property depends on the table, the cost, the wheel and the counted change of the cost,
and survives an entry leaving. -/
structure Stable (P : ShardMap K V π → Prop) : Prop where
  congr : ∀ {s s'}, P s → s'.table = s.table → s'.cost = s.cost → s'.wheel = s.wheel →
    s'.counters.costDelta = s.counters.costDelta → P s'
  taken : ∀ {s s' p ke}, P s → s.takeEntry p = some (ke, s') →
    P { s' with cost := s'.cost - ke.2.cost }

variable {hash : K → UInt64} {P : ShardMap K V π → Prop} {s s' : ShardMap K V π}

/-! ### The rules -/

section Rules

variable (hP : Stable P)
include hP

theorem Stable.evictVictims (h : P s) (vs : List Victim) : P (s.evictVictims hash vs).2 := by
  induction vs generalizing s with
  | nil => exact h
  | cons v vs ih =>
    unfold ShardMap.evictVictims
    split
    · exact ih h
    · next r hr => exact ih (hP.taken h hr)

theorem Stable.evictOver (h : P s) : P (s.evictOver hash).2 := by
  unfold ShardMap.evictOver
  split
  · exact h
  · next b _ =>
    split_ifs
    · have hsame : P { s with builtin := some (b.evict (s.cost - s.budget) []).1 } :=
        hP.congr h rfl rfl rfl rfl
      exact hP.evictVictims hsame _
    · exact h

variable [CachePolicy π K]

theorem Stable.forget (h : P s) (key : K) (e : CacheEntry V) : P (s.forget key e) := by
  unfold ShardMap.forget
  split <;> exact hP.congr h rfl rfl rfl rfl

theorem Stable.applyReads (h : P s) : P s.applyReads := by
  unfold ShardMap.applyReads
  split <;> exact hP.congr h rfl rfl rfl rfl

theorem Stable.removeExpiredLoop (h : P s) (hh now : UInt64) (fuel : ℕ)
    (out : List (K × CacheEntry V × ExpiredBy)) :
    P (ShardMap.removeExpiredLoop hash hh now fuel s out).1 := by
  induction fuel generalizing s out with
  | zero => exact h
  | succ fuel ih =>
    unfold ShardMap.removeExpiredLoop
    split
    · exact h
    · next key e s₁ ht => exact ih (hP.forget (hP.taken h ht) key e) _

theorem Stable.removeExpired (h : P s) (hh now : UInt64)
    (out : List (K × CacheEntry V × ExpiredBy)) :
    P (ShardMap.removeExpired hash s hh now out).1 :=
  hP.removeExpiredLoop h hh now _ out

theorem Stable.removeExpiredHashes (h : P s) (hashes : List UInt64) (now : UInt64) :
    P (s.removeExpiredHashes hash hashes now).2 := by
  have hfold : ∀ (hashes : List UInt64) (s : ShardMap K V π)
      (out : List (K × CacheEntry V × ExpiredBy)), P s →
      P (hashes.foldl (fun (r : ShardMap K V π × List (K × CacheEntry V × ExpiredBy)) h =>
        ShardMap.removeExpired hash r.1 h now r.2) (s, out)).1 := by
    intro hashes
    induction hashes with
    | nil => exact fun s out h => h
    | cons hh hashes ih =>
      intro s out h
      exact ih _ _ (hP.removeExpired h hh now out)
  exact hfold hashes _ [] (hP.applyReads h)

variable [DecidableEq K]

theorem Stable.evictKeys (h : P s) (tell : Bool) (ks : List K) : P (s.evictKeys tell ks).2 := by
  induction ks generalizing s with
  | nil => exact h
  | cons k ks ih =>
    unfold ShardMap.evictKeys
    split
    · exact ih h
    · next r hr =>
      have htaken := hP.taken h hr
      cases tell
      · exact ih htaken
      · exact ih (hP.congr htaken rfl rfl rfl rfl)

theorem Stable.evictPolicy (h : P s) :
    P (if s.cost > s.budget then
      ShardMap.evictKeys false
        { s with policy := (CachePolicy.evict (K := K) s.policy (s.cost - s.budget)).2 }
        (CachePolicy.evict (K := K) s.policy (s.cost - s.budget)).1.1
      else (0, s)).2 := by
  split_ifs
  · have hsame : P { s with policy :=
        (CachePolicy.evict (K := K) s.policy (s.cost - s.budget)).2 } := hP.congr h rfl rfl rfl rfl
    exact hP.evictKeys hsame false _
  · exact h

end Rules

/-! ### Writing an entry -/

section Write

variable [DecidableEq K] {key : K} {entry : CacheEntry V}

@[simp] theorem putEntry_cost (s : ShardMap K V π) (key : K) (entry : CacheEntry V) :
    (s.putEntry key entry).cost = s.cost := by rw [putEntry_eq]

@[simp] theorem putEntry_counters (s : ShardMap K V π) (key : K) (entry : CacheEntry V) :
    (s.putEntry key entry).counters = s.counters := by rw [putEntry_eq]

@[simp] theorem putEntry_wheel (s : ShardMap K V π) (key : K) (entry : CacheEntry V) :
    (s.putEntry key entry).wheel = s.wheel := by rw [putEntry_eq]

theorem putEntry_perm (hk : (s.table.map (·.1)).Nodup) (key : K) (entry : CacheEntry V) :
    ∃ rest, s.table.Perm (((s.get key).map (key, ·)).toList ++ rest) ∧
      (s.putEntry key entry).table.Perm ((key, entry) :: rest) ∧ key ∉ rest.map (·.1) := by
  cases hget : s.get key with
  | none =>
    refine ⟨s.table, by simp, ?_, get_eq_none hget⟩
    rw [putEntry_table_of_none hget]
    exact perm_append_singleton _ _
  | some old =>
    obtain ⟨l, r, htable, hl, hr⟩ := get_eq_some hk hget
    refine ⟨l ++ r, ?_, ?_, ?_⟩
    · rw [htable]
      exact perm_middle
    · rw [putEntry_table_of_some hget htable hl hr]
      exact perm_middle
    · simp only [map_append, mem_append, mem_map, not_or, not_exists, not_and]
      exact ⟨hl, hr⟩

/-- The shard `s'` is `s` with the entry of the key written, at some node, and its cost
counted in place of the old one. -/
structure Wrote (s : ShardMap K V π) (key : K) (entry : CacheEntry V) (s' : ShardMap K V π) :
    Prop where
  table : ∃ node, s'.table = (s.putEntry key { entry with node := node }).table
  cost : s'.cost = s.cost - ((s.get key).map CacheEntry.cost).getD 0 + entry.cost
  wheel : s'.wheel = s.wheel
  costDelta : s'.counters.costDelta = s.counters.costDelta

theorem putEntry_table_congr (s s' : ShardMap K V π) (ht : s'.table = s.table) (key : K)
    (entry : CacheEntry V) :
    (s'.putEntry key entry).table = (s.putEntry key entry).table := by
  have hget : s'.get key = s.get key := by rw [get, get, ht]
  cases hold : s.get key with
  | none => rw [putEntry_table_of_none hold, putEntry_table_of_none (hget.trans hold), ht]
  | some old => simp only [putEntry, hget, hold, ht]

theorem wrote_writeBuiltin (s : ShardMap K V π) (b : Builtin) (key : K) (entry : CacheEntry V)
    (h : UInt64) :
    Wrote s key entry (s.writeBuiltin b key entry h).2.1 ∧
      (s.writeBuiltin b key entry h).1 = s.get key := by
  unfold ShardMap.writeBuiltin
  have hget : ShardMap.get { s with ring := (b.applyReads s.ring).2 } key = s.get key := rfl
  have htable : ∀ node, (({ s with ring := (b.applyReads s.ring).2 } : ShardMap K V π).putEntry key
      { entry with node := node }).table = (s.putEntry key { entry with node := node }).table :=
    fun _ => putEntry_table_congr s { s with ring := (b.applyReads s.ring).2 } rfl key _
  cases hold : s.get key with
  | none =>
    simp only [hget, hold]
    exact ⟨⟨⟨_, htable _⟩, by simp [hold], by simp, by simp⟩, trivial⟩
  | some old =>
    simp only [hget, hold]
    exact ⟨⟨⟨_, htable _⟩, by simp [hold], by simp, by simp⟩, trivial⟩

variable (hP : Stable P)
include hP

theorem Stable.insertBuiltin (hwrite : ∀ s', Wrote s key entry s' → P s') (b : Builtin)
    (h : UInt64) :
    P (s.insertBuiltin hash b key entry h).2 ∧
      (s.insertBuiltin hash b key entry h).1 = s.get key := by
  obtain ⟨hw, hold⟩ := wrote_writeBuiltin s b key entry h
  have hfirst : P ((s.writeBuiltin b key entry h).2.1.evictVictims hash
      (s.writeBuiltin b key entry h).2.2).2 := hP.evictVictims (hwrite _ hw) _
  have hsecond : P (((s.writeBuiltin b key entry h).2.1.evictVictims hash
      (s.writeBuiltin b key entry h).2.2).2.evictOver hash).2 := hP.evictOver hfirst
  exact ⟨hP.congr hsecond rfl rfl rfl rfl, hold⟩

theorem Stable.insertPolicy [CachePolicy π K] (hwrite : ∀ s', Wrote s key entry s' → P s') :
    P (s.insertPolicy key entry).2 ∧ (s.insertPolicy key entry).1 = s.get key := by
  refine ⟨?_, rfl⟩
  simp only [ShardMap.insertPolicy]
  generalize CachePolicy.onAdmit (s.reads.foldl
    (fun p kc => CachePolicy.onAccess p kc.1 kc.2) s.policy) key entry.cost = d
  obtain ⟨decision, policy⟩ := d
  set s₁ : ShardMap K V π := { s with reads := [], policy := policy }
  have hput : P { s₁.putEntry key entry with
      cost := (s₁.putEntry key entry).cost - ((s.get key).map CacheEntry.cost).getD 0 +
        entry.cost } := by
    apply hwrite
    refine ⟨⟨entry.node, putEntry_table_congr s s₁ rfl key entry⟩, ?_, ?_, ?_⟩
    · simp only [putEntry_cost]
      rfl
    · simp only [putEntry_wheel]
      rfl
    · simp only [putEntry_counters]
      rfl
  cases decision with
  | admitAndEvict victims =>
    exact hP.congr (hP.evictPolicy (hP.evictKeys hput true victims)) rfl rfl rfl rfl
  | admitted => exact hP.congr (hP.evictPolicy hput) rfl rfl rfl rfl
  | reject => exact hP.congr (hP.evictPolicy hput) rfl rfl rfl rfl

/-- An insert: what the write of the armed entry establishes stays until the entry it
replaced is disarmed. -/
theorem Stable.insertInner [CachePolicy π K] (clock : UInt64) (count : Bool)
    (hwrite : ∀ s', Wrote (s.arm clock (hash key) entry).2 key
      (s.arm clock (hash key) entry).1 s' → P s') :
    ∃ s', P s' ∧ ∃ n, (s.insertInner hash clock key entry count).2 =
      { (match s.get key with
          | none => s'
          | some old => s'.disarm old) with counters := n } ∧
      n.costDelta = s'.counters.costDelta + (s'.cost - s.cost) := by
  set a := s.arm clock (hash key) entry with ha
  have hget : a.2.get key = s.get key := by
    obtain ⟨w, t, harm⟩ := arm_eq s clock (hash key) entry
    rw [ha, harm]
    rfl
  cases hb : a.2.builtin with
  | some b =>
    obtain ⟨hr, hold⟩ : P (a.2.insertBuiltin hash b key a.1 (hash key)).2 ∧ _ :=
      hP.insertBuiltin hwrite b (hash key)
    refine ⟨_, hr, ?_⟩
    simp only [ShardMap.insertInner, ← ha, hb, hold.trans hget]
    generalize a.2.insertBuiltin hash b key a.1 (hash key) = r
    cases s.get key with
    | none => cases count <;> exact ⟨_, rfl, rfl⟩
    | some old =>
      obtain ⟨w, hw⟩ := disarm_eq r.2 old
      simp only [hw]
      cases count <;> exact ⟨_, rfl, rfl⟩
  | none =>
    obtain ⟨hr, hold⟩ := hP.insertPolicy hwrite
    refine ⟨_, hr, ?_⟩
    simp only [ShardMap.insertInner, ← ha, hb, hold.trans hget]
    generalize a.2.insertPolicy key a.1 = r
    cases s.get key with
    | none => cases count <;> exact ⟨_, rfl, rfl⟩
    | some old =>
      obtain ⟨w, hw⟩ := disarm_eq r.2 old
      simp only [hw]
      cases count <;> exact ⟨_, rfl, rfl⟩

end Write

/-! ### Invariants -/

section Invariant

variable [DecidableEq K] [CachePolicy π K]

/-- The property survives an entry leaving, a change of entries that leaves their keys and costs
alone, the write of a key that meets `W`, and a clear. -/
structure Invariant (W : K → Prop) (P : ShardMap K V π → Prop) : Prop where
  taken : ∀ {s s' p ke}, P s → s.takeEntry p = some (ke, s') →
    P { s' with cost := s'.cost - ke.2.cost }
  of_map : ∀ {s s'}, P s → s'.cost = s.cost →
    (s'.table.map fun ke => (ke.1, entryCost ke)) = (s.table.map fun ke => (ke.1, entryCost ke)) →
    P s'
  wrote : ∀ {s s' key entry}, P s → W key → Wrote s key entry s' → P s'
  clear : ∀ s : ShardMap K V π, P s.clear

/-- The call writes only keys that meet `W`. -/
def Op.Writes (W : K → Prop) : Op K V → Prop
  | insert _ key _ => W key
  | replaceAll _ entries => ∀ ke ∈ entries, W ke.1
  | _ => True

variable {W : K → Prop} (hP : Invariant W P)
include hP

theorem Invariant.congr (h : P s) (ht : s'.table = s.table) (hc : s'.cost = s.cost) : P s' :=
  hP.of_map h hc (by rw [ht])

theorem Invariant.stable : Stable P where
  congr h ht hc _ _ := hP.congr h ht hc
  taken := hP.taken

theorem Invariant.insertInner (h : P s) (clock : UInt64) {key : K} (hkey : W key)
    (entry : CacheEntry V) (count : Bool) : P (s.insertInner hash clock key entry count).2 := by
  have harm : P (s.arm clock (hash key) entry).2 := by
    obtain ⟨w, t, harm⟩ := arm_eq s clock (hash key) entry
    rw [harm]
    exact hP.congr h rfl rfl
  obtain ⟨s', hs', n, heq, -⟩ : ∃ s' : ShardMap K V π, P s' ∧
      ∃ n, (s.insertInner hash clock key entry count).2 = _ ∧ _ :=
    hP.stable.insertInner clock count fun s' hw => hP.wrote harm hkey hw
  rw [heq]
  cases s.get key with
  | none => exact hP.congr hs' rfl rfl
  | some old =>
    obtain ⟨w, hw⟩ := disarm_eq s' old
    simp only [hw]
    exact hP.congr hs' rfl rfl

theorem Invariant.rearm (h : P s) (clock hh : UInt64) : P (s.rearm hash clock hh) := by
  rw [rearm_eq]
  exact hP.of_map h rfl (map_rearm (fun _ _ _ => rfl) s clock hh)

theorem Invariant.expireDue (h : P s) (clock now : UInt64) : P (s.expireDue hash clock now).2 := by
  have hadv : P { s with wheel := (s.wheel.advance now).2 } := hP.congr h rfl rfl
  -- each hash that fired: what expired leaves, then one entry is armed again
  have hfold : ∀ (hashes : List UInt64) (s : ShardMap K V π)
      (out : List (K × CacheEntry V × ExpiredBy)), P s →
      P (hashes.foldl (fun (r : ShardMap K V π × List (K × CacheEntry V × ExpiredBy)) h =>
        ((ShardMap.removeExpired hash r.1 h now r.2).1.rearm hash clock h,
          (ShardMap.removeExpired hash r.1 h now r.2).2)) (s, out)).1 := by
    intro hashes
    induction hashes with
    | nil => exact fun s out h => h
    | cons hh hashes ih =>
      intro s out h
      have hremoved : P (ShardMap.removeExpired hash s hh now out).1 :=
        hP.stable.removeExpired h hh now out
      exact ih _ _ (hP.rearm hremoved clock hh)
  simp only [ShardMap.expireDue]
  split_ifs
  · exact hadv
  · exact hfold _ _ [] (hP.stable.applyReads hadv)

theorem Invariant.insertAll (h : P s) (clock : UInt64) {entries : List (K × CacheEntry V)}
    (hkeys : ∀ ke ∈ entries, W ke.1) : P (s.insertAll hash clock entries) := by
  induction entries generalizing s with
  | nil => exact h
  | cons ke entries ih =>
    obtain ⟨hkey, hkeys⟩ := forall_mem_cons.mp hkeys
    exact ih (hP.insertInner h clock hkey ke.2 false) hkeys

theorem Invariant.step (h : P s) {op : Op K V} (hop : op.Writes W) : P (s.step hash op) := by
  have hreads := hP.stable.applyReads h
  cases op with
  | insert clock key entry => exact hP.insertInner h clock hop entry true
  | remove key =>
    simp only [ShardMap.step, ShardMap.remove]
    split
    · exact hreads
    · next k e s₁ ht => exact hP.stable.forget (hP.taken hreads ht) k e
  | expireDue clock now => exact hP.expireDue h clock now
  | expireAll now => exact hP.stable.removeExpiredHashes h _ now
  | removeExpiredHashes hashes now => exact hP.stable.removeExpiredHashes h hashes now
  | clear => exact hP.clear s
  | replaceAll clock entries => exact hP.insertAll (hP.clear s) clock hop
  | applyReads => exact hreads
  | applyDeferred read => cases read <;> exact hP.congr hreads rfl rfl
  | touchRead node => exact hP.congr h rfl rfl
  | pushRing node =>
    simp only [ShardMap.step, ShardMap.pushRing]
    split_ifs <;> exact hP.congr h rfl rfl
  | pushLog key cost =>
    simp only [ShardMap.step, ShardMap.pushLog]
    split_ifs <;> exact hP.congr h rfl rfl
  | modifyEntry key value lastAccessed =>
    exact hP.of_map h rfl (map_modifyEntry (fun _ _ _ _ => rfl) s key value lastAccessed)

end Invariant

/-! ### The tally -/

/-- The keys are distinct, and the cost is the sum of the entries' costs. -/
structure Tally (s : ShardMap K V π) : Prop where
  keys : (s.table.map (·.1)).Nodup
  cost : s.cost = total entryCost s.table

theorem Tally.cost_eq (h : s.Tally) : s.cost = UInt64.ofNat s.residentCost := by
  rw [h.cost, residentCost]
  induction s.table with
  | nil => rfl
  | cons ke t ih => rw [total_cons, totalNat_cons, UInt64.ofNat_add, ih, UInt64.ofNat_toNat]

theorem Tally.congr (h : s.Tally) (ht : s'.table = s.table) (hc : s'.cost = s.cost) : s'.Tally :=
  ⟨ht ▸ h.keys, by rw [hc, ht]; exact h.cost⟩

theorem stable_tally : Stable (Tally : ShardMap K V π → Prop) where
  congr h ht hc _ _ := h.congr ht hc
  taken := by
    intro s s' p ke h htake
    obtain ⟨-, hperm, hcost, -, -⟩ := takeEntry_eq_some htake
    refine ⟨keys_nodup_of_perm h.keys hperm, ?_⟩
    simp only [hcost, h.cost, total_perm _ hperm, total_cons, entryCost]
    simp

theorem Tally.of_map (h : s.Tally) (hc : s'.cost = s.cost)
    (ht : s'.table.map (fun ke => (ke.1, entryCost ke)) =
      s.table.map fun ke => (ke.1, entryCost ke)) : s'.Tally := by
  have hkeys := congrArg (List.map Prod.fst) ht
  have hcosts := congrArg (List.map Prod.snd) ht
  rw [map_map, map_map] at hkeys hcosts
  refine ⟨hkeys ▸ h.keys, ?_⟩
  rw [hc, h.cost]
  exact congrArg List.sum hcosts.symm

section Tally

variable [DecidableEq K] {key : K} {entry : CacheEntry V}

theorem Tally.wrote (h : s.Tally) (hw : Wrote s key entry s') : s'.Tally := by
  obtain ⟨node, htable⟩ := hw.table
  obtain ⟨rest, hold, hput, hout⟩ := putEntry_perm h.keys key { entry with node := node }
  rw [← htable] at hput
  have hrest : (rest.map (·.1)).Nodup := by
    have := (hold.map (·.1)).nodup_iff.mp h.keys
    rw [map_append] at this
    exact (nodup_append.mp this).2.1
  refine ⟨(hput.map (·.1)).nodup_iff.mpr (nodup_cons.mpr ⟨hout, hrest⟩), ?_⟩
  rw [hw.cost, h.cost, total_perm _ hold, total_perm _ hput, total_cons, total_append]
  cases s.get key <;> simp [entryCost, add_comm]

variable [CachePolicy π K]

omit [DecidableEq K] in
theorem Tally.clear (s : ShardMap K V π) : s.clear.Tally := by
  unfold ShardMap.clear
  split <;> exact ⟨nodup_nil, rfl⟩

theorem invariant_tally : Invariant (fun _ => True) (Tally : ShardMap K V π → Prop) where
  taken := stable_tally.taken
  of_map := Tally.of_map
  wrote h _ hw := h.wrote hw
  clear := Tally.clear

theorem Tally.step (h : s.Tally) (op : Op K V) : (s.step hash op).Tally := by
  refine invariant_tally.step h ?_
  cases op <;> simp [Op.Writes]

end Tally

end Fibre.Cache.ShardMap
