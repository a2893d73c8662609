import Fibre.Cache.Upkeep
import Fibre.Cache.TimerOwners

/-!
# The entries and their timers

Under any policy, built in or from a factory, a shard keeps its cost equal to the sum of its
entries' costs and one timer for each entry with a TTL. `Sound` carries both through every
call. Inside a call an entry that left the table may still own a timer (`pending`), and timers
that fired may still be named by entries (`missing`); between calls both are empty.
-/

namespace Fibre.Cache

/-- The entry is as every constructor makes it: with no node and no timer yet. A restore sets
the hash before it hands the entry in, so the hash is left open. -/
def CacheEntry.IsNew {V : Type*} (e : CacheEntry V) : Prop :=
  e.node = NO_NODE ∧ e.ttlTimerHandle = none

namespace ShardMap

open CostQueue TimerWheel List Option

variable {K V π : Type*} (hash : K → UInt64)

def ownerOf (ke : K × CacheEntry V) : Option Owner := ke.2.ttlTimerHandle.map (·, hash ke.1)

/-- The timers the entries of a table name. -/
def owners (table : List (K × CacheEntry V)) : List Owner := table.filterMap (ownerOf hash)

/-- The entry knows its hash, and names a timer when it has a TTL. -/
structure Stamped (ke : K × CacheEntry V) : Prop where
  keyHash : ke.2.keyHash = hash ke.1
  timer : ke.2.ttlTimerHandle.isSome = true ↔ 0 < ke.2.expiresAt

/-- Keys, cost, entries and timers of a shard, with the timers `pending` of entries no longer
in the table and those `missing` from the wheel. -/
structure Sound (s : ShardMap K V π) (pending missing : List Owner) : Prop where
  tally : s.Tally
  stamped : ∀ ke ∈ s.table, Stamped hash ke
  timers : Owned s.wheel (owners hash s.table ++ pending) missing

variable {hash} {s s' : ShardMap K V π} {pending missing : List Owner} {ke : K × CacheEntry V}

theorem Sound.congr (hs : s.Sound hash pending missing) (ht : s'.table = s.table)
    (hc : s'.cost = s.cost) (hw : s'.wheel = s.wheel) : s'.Sound hash pending missing :=
  ⟨hs.tally.congr ht hc, ht ▸ hs.stamped, by rw [hw, ht]; exact hs.timers⟩

variable (hash) in
theorem owners_perm {t t' : List (K × CacheEntry V)} (h : t.Perm t') :
    (owners hash t).Perm (owners hash t') := h.filterMap _

theorem owners_append (t t' : List (K × CacheEntry V)) :
    owners hash (t ++ t') = owners hash t ++ owners hash t' := filterMap_append

theorem owners_cons (ke : K × CacheEntry V) (t : List (K × CacheEntry V)) :
    owners hash (ke :: t) = (ownerOf hash ke).toList ++ owners hash t := by
  rw [owners, filterMap_cons]
  cases ownerOf hash ke <;> rfl

theorem owners_middle {l₁ l₂ : List (K × CacheEntry V)} {t : Owner}
    (hown : ownerOf hash ke = some t) :
    (owners hash (l₁ ++ ke :: l₂)).Perm (t :: owners hash (l₁ ++ l₂)) := by
  have := owners_perm hash (perm_middle : (l₁ ++ ke :: l₂).Perm (ke :: (l₁ ++ l₂)))
  rwa [owners_cons, hown] at this

theorem Owned.disarm {owned : List Owner}
    (ho : Owned s.wheel ((ownerOf hash ke).toList ++ owned) missing) :
    ∃ missing', missing'.Sublist missing ∧ Owned (s.disarm ke.2).wheel owned missing' := by
  unfold ShardMap.disarm
  cases ht : ke.2.ttlTimerHandle with
  | none =>
    have hnone : ownerOf hash ke = none := by simp [ownerOf, ht]
    rw [hnone] at ho
    exact ⟨missing, Sublist.refl _, ho⟩
  | some i =>
    have hsome : ownerOf hash ke = some (i, hash ke.1) := by simp [ownerOf, ht]
    rw [hsome] at ho
    exact ⟨_, erase_sublist, Owned.cancel ho⟩

theorem Sound.taken (hs : s.Sound hash pending missing) {p : K × CacheEntry V → Bool}
    (h : s.takeEntry p = some (ke, s')) :
    ∃ missing', missing'.Sublist missing ∧
      ({ s' with cost := s'.cost - ke.2.cost } : ShardMap K V π).Sound hash pending missing' := by
  have htally := stable_tally.taken hs.tally h
  unfold takeEntry at h
  split at h
  · simp at h
  · next ke' hfind =>
    obtain ⟨rfl, rfl⟩ : ke' = ke ∧ _ = s' := by simpa using h
    have hperm := perm_cons_eraseP_of_find? hfind
    have hown : Owned s.wheel
        ((ownerOf hash ke').toList ++ (owners hash (s.table.eraseP p) ++ pending)) missing := by
      apply hs.timers.perm
      rw [← append_assoc, ← owners_cons]
      exact (owners_perm hash hperm).append_right _
    obtain ⟨missing', hsub, hdis⟩ :=
      Owned.disarm (s := { s with table := s.table.eraseP p }) hown
    obtain ⟨w, hw⟩ := disarm_eq { s with table := s.table.eraseP p } ke'.2
    rw [hw] at hdis htally ⊢
    exact ⟨missing', hsub, htally, fun e he => hs.stamped e (mem_of_mem_eraseP he), hdis⟩

variable (hash) in
theorem stable_sound (pending missing : List Owner) :
    Stable fun s : ShardMap K V π =>
      ∃ missing', missing'.Sublist missing ∧ s.Sound hash pending missing' where
  congr := by
    rintro s s' ⟨missing', hsub, hs⟩ ht hc hw -
    exact ⟨missing', hsub, hs.congr ht hc hw⟩
  taken := by
    rintro s s' p ke ⟨missing', hsub, hs⟩ h
    obtain ⟨missing'', hsub', hs'⟩ := hs.taken h
    exact ⟨missing'', hsub'.trans hsub, hs'⟩

variable (hash) in
theorem stable_sound_nil (pending : List Owner) :
    Stable fun s : ShardMap K V π => s.Sound hash pending [] where
  congr hs ht hc hw _ := hs.congr ht hc hw
  taken := by
    intro s s' p ke hs h
    obtain ⟨missing', hsub, hs'⟩ := hs.taken h
    obtain rfl := sublist_nil.mp hsub
    exact hs'

/-! ### Writing an entry -/

section Write

variable [DecidableEq K] {key : K} {entry : CacheEntry V}

theorem Sound.wrote (hs : s.Sound hash (ownerOf hash (key, entry)).toList [])
    (hnew : Stamped hash (key, entry)) (hw : Wrote s key entry s') :
    s'.Sound hash (owners hash ((s.get key).map (key, ·)).toList) [] := by
  obtain ⟨node, htable⟩ := hw.table
  obtain ⟨rest, hold, hput, -⟩ := putEntry_perm hs.tally.keys key { entry with node := node }
  rw [← htable] at hput
  refine ⟨hs.tally.wrote hw, fun e he => ?_, ?_⟩
  · rcases mem_cons.mp (hput.mem_iff.mp he) with rfl | he
    · exact ⟨hnew.keyHash, hnew.timer⟩
    · exact hs.stamped e (hold.mem_iff.mpr (mem_append_right _ he))
  · rw [hw.wheel]
    apply hs.timers.perm
    have hbefore := owners_perm hash hold
    have hafter := owners_perm hash hput
    rw [owners_append] at hbefore
    rw [owners_cons] at hafter
    -- the node is not part of what the entry owns
    have hnode : ownerOf hash (key, { entry with node := node }) = ownerOf hash (key, entry) := rfl
    rw [hnode] at hafter
    apply (hbefore.append_right _).trans
    apply Perm.symm
    apply (hafter.append_right _).trans
    rw [perm_iff_count]
    intro t
    simp only [count_append]
    omega

omit [DecidableEq K] in
theorem Sound.arm (hs : s.Sound hash [] []) (clock : UInt64) (key : K)
    (hnew : entry.ttlTimerHandle = none) :
    (s.arm clock (hash key) entry).2.Sound hash
        (ownerOf hash (key, (s.arm clock (hash key) entry).1)).toList [] ∧
      Stamped hash (key, (s.arm clock (hash key) entry).1) := by
  have htimers := hs.timers
  rw [append_nil] at htimers
  simp only [ShardMap.arm]
  split_ifs with hexp
  · refine ⟨⟨hs.tally.congr rfl rfl, hs.stamped, ?_⟩, rfl, by simpa using hexp⟩
    apply (htimers.schedule clock (hash key) (Word.satAdd entry.expiresAt s.graceNs)).perm
    exact (perm_append_singleton _ _).symm
  · refine ⟨⟨hs.tally, hs.stamped, ?_⟩, rfl, ?_⟩
    · simpa [ownerOf, hnew] using htimers
    · simpa [hnew] using hexp

omit [DecidableEq K] in
theorem Sound.disarm {old : CacheEntry V} (hs : s.Sound hash (owners hash [(key, old)]) []) :
    (s.disarm old).Sound hash [] [] := by
  have hown : Owned s.wheel ((ownerOf hash (key, old)).toList ++ owners hash s.table) [] := by
    have htimers := hs.timers
    rw [owners_cons] at htimers
    apply htimers.perm
    simpa [owners] using perm_append_comm
  obtain ⟨missing', hsub, hdis⟩ := Owned.disarm hown
  obtain rfl := sublist_nil.mp hsub
  obtain ⟨w, hw⟩ := disarm_eq s old
  rw [hw] at hdis ⊢
  exact ⟨hs.tally.congr rfl rfl, hs.stamped, by simpa using hdis⟩

theorem Sound.insertInner [CachePolicy π K] (hs : s.Sound hash [] []) (clock : UInt64) (key : K)
    (hnew : entry.ttlTimerHandle = none) (count : Bool) :
    (s.insertInner hash clock key entry count).2.Sound hash [] [] := by
  obtain ⟨harm, hstamp⟩ := hs.arm clock key hnew
  have hget : (s.arm clock (hash key) entry).2.get key = s.get key := by
    obtain ⟨w, t, heq⟩ := arm_eq s clock (hash key) entry
    rw [heq]
    rfl
  obtain ⟨s', hs', n, heq, -⟩ :=
    (stable_sound_nil hash _).insertInner clock count fun s' hw => harm.wrote hstamp hw
  rw [heq]
  rw [hget] at hs'
  cases hold : s.get key with
  | none =>
    rw [hold] at hs'
    exact hs'.congr rfl rfl rfl
  | some old =>
    rw [hold] at hs'
    exact hs'.disarm.congr rfl rfl rfl

end Write

/-! ### Expiring -/

section Expire

variable [CachePolicy π K]

omit [CachePolicy π K] in
/-- A timer an entry names is missing exactly when it is not armed. -/
theorem Sound.isArmed_eq_false_iff (hs : s.Sound hash [] missing) {i : ℕ} {h : UInt64}
    (hown : (i, h) ∈ owners hash s.table) : s.wheel.isArmed i = false ↔ (i, h) ∈ missing := by
  have htimers := hs.timers
  rw [append_nil] at htimers
  rw [← Bool.not_eq_true, isArmed_iff_armedFor]
  constructor
  · intro hnot
    by_contra hmiss
    exact hnot ⟨h, (htimers.armed (i, h)).mpr ⟨hown, hmiss⟩⟩
  · rintro hmiss ⟨h', harmed⟩
    obtain ⟨hown', hnot⟩ := (htimers.armed (i, h')).mp harmed
    -- handles are named once, so the hash is the same
    have := inj_on_of_nodup_map htimers.nodup hown hown' rfl
    exact hnot (this ▸ hmiss)

omit [CachePolicy π K] in
theorem Sound.rearmed (hs : s.Sound hash [] missing) {l₁ l₂ : List (K × CacheEntry V)}
    (htable : s.table = l₁ ++ ke :: l₂) {i : ℕ} {h : UInt64}
    (hi : ke.2.ttlTimerHandle = some i) (hhash : hash ke.1 = h) (hmiss : (i, h) ∈ missing)
    (clock expiry : UInt64) :
    ({ s with
      wheel := (s.wheel.schedule clock h expiry).2
      table := l₁ ++ (ke.1, { ke.2 with
        ttlTimerHandle := some (s.wheel.schedule clock h expiry).1 }) :: l₂ } :
          ShardMap K V π).Sound hash [] (missing.erase (i, h)) := by
  have htimers := hs.timers
  rw [append_nil] at htimers
  have howner : ownerOf hash ke = some (i, h) := by simp [ownerOf, hi, hhash]
  have hold : (owners hash s.table).Perm ((i, h) :: owners hash (l₁ ++ l₂)) := by
    rw [htable]
    exact owners_middle howner
  refine ⟨hs.tally.of_map rfl (by simp [htable, entryCost]), fun e he => ?_, ?_⟩
  · simp only [mem_append, mem_cons] at he
    have hke := hs.stamped ke (by rw [htable]; simp)
    rcases he with he | rfl | he
    · exact hs.stamped e (by rw [htable]; simp [he])
    · refine ⟨hke.keyHash, ?_⟩
      have := hke.timer
      rw [hi] at this
      simpa using this
    · exact hs.stamped e (by rw [htable]; simp [he])
  · -- the new timer comes in front, then the old one is given up
    have hnew := (htimers.perm hold).schedule clock h expiry
    have hswap := hnew.perm (Perm.swap _ _ _)
    rw [append_nil]
    apply (hswap.drop hmiss).perm
    exact (owners_middle (by simp [ownerOf, hhash])).symm

omit [CachePolicy π K] in
theorem Sound.rearm (hs : s.Sound hash [] missing) (clock h : UInt64) {hashes : List UInt64}
    (hsub : (missing.map Prod.snd).Subperm (h :: hashes)) :
    ∃ missing', (s.rearm hash clock h).Sound hash [] missing' ∧
      (missing'.map Prod.snd).Subperm hashes := by
  have htimers := hs.timers
  rw [append_nil] at htimers
  simp only [ShardMap.rearm]
  split
  · -- no entry of the hash lost its timer, so none of the missing ones is of the hash
    next hnone =>
    refine ⟨missing, hs, ?_⟩
    have hout : h ∉ missing.map Prod.snd := by
      intro hmem
      obtain ⟨⟨i, h'⟩, hmiss, rfl⟩ := mem_map.mp hmem
      have hown := htimers.missing_sub hmiss
      obtain ⟨ke, hke, hkey⟩ := mem_filterMap.mp hown
      obtain ⟨t, ht, htk⟩ := map_eq_some_iff.mp hkey
      obtain ⟨rfl, hhash⟩ := Prod.mk.inj htk
      have hunarmed := (hs.isArmed_eq_false_iff hown).mpr hmiss
      have hdue := List.findIdx?_eq_none_iff.mp hnone ke hke
      simp [hhash, (hs.stamped ke hke).keyHash, ht, hunarmed] at hdue
    rw [subperm_ext_iff] at hsub ⊢
    intro x hx
    have hne : h ≠ x := fun heq => hout (heq ▸ hx)
    simpa [count_cons, hne] using hsub x hx
  · next n hn =>
    obtain ⟨hlt, hdue, -⟩ := List.findIdx?_eq_some_iff_getElem.mp hn
    rw [List.getElem?_eq_getElem hlt]
    set ke := s.table[n] with hke
    obtain ⟨i, hi, hhash, hunarmed⟩ :
        ∃ i, ke.2.ttlTimerHandle = some i ∧ hash ke.1 = h ∧ s.wheel.isArmed i = false := by
      cases ht : ke.2.ttlTimerHandle with
      | none => simp [ht] at hdue
      | some i =>
        simp only [ht, Bool.and_eq_true, decide_eq_true_eq, Bool.not_eq_true'] at hdue
        exact ⟨i, rfl, hdue.1.1, hdue.2⟩
    set r := s.wheel.schedule clock h (Word.satAdd ke.2.expiresAt s.graceNs)
    obtain ⟨l₁, l₂, htable, -, hset⟩ : ∃ l₁ l₂, s.table = l₁ ++ ke :: l₂ ∧ l₁.length = n ∧
        s.table.set n (ke.1, { ke.2 with ttlTimerHandle := some r.1 }) =
          l₁ ++ (ke.1, { ke.2 with ttlTimerHandle := some r.1 }) :: l₂ := exists_of_set hlt
    have hown : (i, h) ∈ owners hash s.table := by
      rw [htable]
      exact mem_filterMap.mpr ⟨ke, by simp, by simp [ownerOf, hi, hhash]⟩
    have hmiss : (i, h) ∈ missing := (hs.isArmed_eq_false_iff hown).mp hunarmed
    have hsound := hs.rearmed htable hi hhash hmiss clock (Word.satAdd ke.2.expiresAt s.graceNs)
    rw [← hset] at hsound
    refine ⟨missing.erase (i, h), hsound, ?_⟩
    -- one hash less is missing
    have hperm := (perm_cons_erase hmiss).map Prod.snd
    exact subperm_cons (h : UInt64) |>.mp (hperm.symm.subperm.trans hsub)

theorem Sound.sweepFired (hs : s.Sound hash [] missing) (clock now : UInt64)
    {hashes : List UInt64} (hsub : (missing.map Prod.snd).Subperm hashes)
    (out : List (K × CacheEntry V × ExpiredBy)) :
    (hashes.foldl (fun (r : ShardMap K V π × List (K × CacheEntry V × ExpiredBy)) h =>
      ((ShardMap.removeExpired hash r.1 h now r.2).1.rearm hash clock h,
        (ShardMap.removeExpired hash r.1 h now r.2).2)) (s, out)).1.Sound hash [] [] := by
  induction hashes generalizing s missing out with
  | nil =>
    have hnil : missing = [] := by simpa using hsub
    rw [hnil] at hs
    exact hs
  | cons h hashes ih =>
    obtain ⟨missing₁, hsub₁, hs₁⟩ : ∃ missing₁, missing₁.Sublist missing ∧
        (ShardMap.removeExpired hash s h now out).1.Sound hash [] missing₁ :=
      (stable_sound hash [] missing).removeExpired ⟨missing, Sublist.refl _, hs⟩ h now out
    obtain ⟨missing₂, hs₂, hsub₂⟩ :=
      hs₁.rearm clock h ((hsub₁.map Prod.snd).subperm.trans hsub)
    exact ih hs₂ hsub₂ _

theorem Sound.expireDue (hs : s.Sound hash [] []) (clock now : UInt64) :
    (s.expireDue hash clock now).2.Sound hash [] [] := by
  obtain ⟨missing, htimers, hfired⟩ := hs.timers.advance now
  have hadv : ({ s with wheel := (s.wheel.advance now).2 } : ShardMap K V π).Sound hash []
      missing := ⟨hs.tally.congr rfl rfl, hs.stamped, htimers⟩
  simp only [ShardMap.expireDue]
  split_ifs with hnone
  · rw [hnone] at hfired
    have hnil : missing = [] := by simpa using hfired
    rw [hnil] at hadv
    exact hadv
  · have hreads : (ShardMap.applyReads
        { s with wheel := (s.wheel.advance now).2 }).Sound hash [] missing := by
      unfold ShardMap.applyReads
      split <;> exact hadv.congr rfl rfl rfl
    exact hreads.sweepFired clock now hfired.symm.subperm []

end Expire

/-! ### Every call -/

/-- The entries a call adds are as the constructors make them. -/
def Op.AddsNew : Op K V → Prop
  | .insert _ _ entry => entry.IsNew
  | .replaceAll _ entries => ∀ ke ∈ entries, ke.2.IsNew
  | _ => True

theorem sound_new {wheelSize : ℕ} (hlen : 1 ≤ wheelSize) (tickNs clock capacity shards : UInt64)
    (policy : π) (builtin : Option Builtin) (graceNs ttiNs : UInt64) :
    (new capacity shards policy builtin (.new wheelSize tickNs clock) graceNs ttiNs :
      ShardMap K V π).Sound hash [] [] where
  tally := ⟨nodup_nil, rfl⟩
  stamped := by simp [new]
  timers := owned_new hlen tickNs clock

theorem Sound.clear [CachePolicy π K] (hs : s.Sound hash [] []) :
    s.clear.Sound hash [] [] := by
  unfold ShardMap.clear
  split <;> exact ⟨⟨nodup_nil, rfl⟩, by simp, owned_clear hs.timers.valid⟩

theorem Sound.insertAll [CachePolicy π K] [DecidableEq K] (hs : s.Sound hash [] [])
    (clock : UInt64) {entries : List (K × CacheEntry V)} (hnew : ∀ ke ∈ entries, ke.2.IsNew) :
    (s.insertAll hash clock entries).Sound hash [] [] := by
  induction entries generalizing s with
  | nil => exact hs
  | cons ke entries ih =>
    have hone := hs.insertInner clock ke.1 (hnew ke mem_cons_self).2 false
    exact ih hone fun e he => hnew e (mem_cons_of_mem _ he)

theorem Sound.modifyEntry [DecidableEq K] (hs : s.Sound hash [] []) (k : K) (value : V → V)
    (lastAccessed : UInt64 → UInt64) :
    (s.modifyEntry k value lastAccessed).Sound hash [] [] := by
  refine ⟨hs.tally.of_map rfl (map_modifyEntry (fun _ _ _ _ => rfl) s k value lastAccessed),
    ?_, ?_⟩
  · intro ke hke
    obtain ⟨ke', hke', rfl⟩ := mem_map.mp hke
    have hstamp := hs.stamped ke' hke'
    split
    · exact ⟨hstamp.keyHash, hstamp.timer⟩
    · exact hstamp
  · have howners : owners hash (s.modifyEntry k value lastAccessed).table =
        owners hash s.table := by
      have hopt : (s.modifyEntry k value lastAccessed).table.map (ownerOf hash) =
          s.table.map (ownerOf hash) :=
        map_modifyEntry (fun _ _ _ _ => rfl) s k value lastAccessed
      have := congrArg (List.filterMap id) hopt
      rwa [filterMap_map, filterMap_map] at this
    rw [howners]
    exact hs.timers

section Runs

variable [CachePolicy π K] [DecidableEq K]

theorem Sound.step (hs : s.Sound hash [] []) {op : Op K V} (hnew : op.AddsNew) :
    (s.step hash op).Sound hash [] [] := by
  have hstable : Stable fun s : ShardMap K V π => s.Sound hash [] [] := stable_sound_nil hash []
  cases op with
  | insert clock key entry => exact hs.insertInner clock key hnew.2 true
  | remove key =>
    simp only [ShardMap.step, ShardMap.remove]
    split
    · exact hstable.applyReads hs
    · next k e s₁ ht => exact hstable.forget (hstable.taken (hstable.applyReads hs) ht) k e
  | expireDue clock now => exact hs.expireDue clock now
  | expireAll now => exact hstable.removeExpiredHashes hs _ now
  | removeExpiredHashes hashes now => exact hstable.removeExpiredHashes hs hashes now
  | clear => exact hs.clear
  | replaceAll clock entries => exact hs.clear.insertAll clock hnew
  | applyReads => exact hstable.applyReads hs
  | applyDeferred read => cases read <;> exact (hstable.applyReads hs).congr rfl rfl rfl
  | touchRead node => exact hs.congr rfl rfl rfl
  | pushRing node =>
    simp only [ShardMap.step, ShardMap.pushRing]
    split_ifs <;> exact hs.congr rfl rfl rfl
  | pushLog key cost =>
    simp only [ShardMap.step, ShardMap.pushLog]
    split_ifs <;> exact hs.congr rfl rfl rfl
  | modifyEntry key value lastAccessed => exact hs.modifyEntry key value lastAccessed

theorem Sound.run (hs : s.Sound hash [] []) {ops : List (Op K V)} (hnew : ∀ op ∈ ops, op.AddsNew) :
    (s.run hash ops).Sound hash [] [] := by
  induction ops generalizing s with
  | nil => exact hs
  | cons op ops ih =>
    have hone := hs.step (hnew op mem_cons_self)
    exact ih hone fun o ho => hnew o (mem_cons_of_mem _ ho)

omit [CachePolicy π K] [DecidableEq K] in
/-- Between calls, a handle is armed exactly when an entry names it, and then one does. -/
theorem Sound.isArmed_iff (hs : s.Sound hash [] []) (i : TimerHandle) :
    s.wheel.isArmed i = true ↔ ∃ ke ∈ s.table, ke.2.ttlTimerHandle = some i := by
  have htimers := hs.timers
  rw [append_nil] at htimers
  rw [isArmed_iff_armedFor]
  constructor
  · rintro ⟨h, harmed⟩
    obtain ⟨hown, -⟩ := (htimers.armed (i, h)).mp harmed
    obtain ⟨ke, hke, hkey⟩ := mem_filterMap.mp hown
    obtain ⟨t, ht, htk⟩ := map_eq_some_iff.mp hkey
    exact ⟨ke, hke, (Prod.mk.inj htk).1 ▸ ht⟩
  · rintro ⟨ke, hke, hi⟩
    refine ⟨hash ke.1, (htimers.armed _).mpr ⟨?_, not_mem_nil⟩⟩
    exact mem_filterMap.mpr ⟨ke, hke, by simp [ownerOf, hi]⟩

omit [CachePolicy π K] [DecidableEq K] in
theorem Sound.owner_unique (hs : s.Sound hash [] []) {ke ke' : K × CacheEntry V}
    (hke : ke ∈ s.table) (hke' : ke' ∈ s.table) {i : TimerHandle}
    (hi : ke.2.ttlTimerHandle = some i) (hi' : ke'.2.ttlTimerHandle = some i) : ke = ke' := by
  have htimers := hs.timers
  rw [append_nil] at htimers
  by_contra hne
  obtain ⟨l₁, l₂, htable⟩ := append_of_mem hke
  have hother : ke' ∈ l₁ ++ l₂ := by
    rw [htable] at hke'
    simp only [mem_append, mem_cons] at hke' ⊢
    rcases hke' with h | rfl | h
    · exact Or.inl h
    · exact absurd rfl hne
    · exact Or.inr h
  have howner : ownerOf hash ke = some (i, hash ke.1) := by simp [ownerOf, hi]
  have hnd := htimers.nodup
  rw [htable] at hnd
  have hnd' := ((owners_middle howner).map Prod.fst).nodup_iff.mp hnd
  rw [map_cons] at hnd'
  apply (nodup_cons.mp hnd').1
  exact mem_map.mpr ⟨(i, hash ke'.1),
    mem_filterMap.mpr ⟨ke', hother, by simp [ownerOf, hi']⟩, rfl⟩

variable (hash) in
/-- After every sequence of calls, under any policy and with any collisions of hashes, each
resident entry with a TTL names exactly one armed timer, an entry without one names none, and
each armed timer is named by exactly one resident entry and carries the hash of its key. -/
theorem armed_iff_resident {wheelSize : ℕ} (hlen : 1 ≤ wheelSize)
    (tickNs start capacity shards : UInt64) (policy : π) (builtin : Option Builtin)
    (graceNs ttiNs : UInt64) (ops : List (Op K V)) (hnew : ∀ op ∈ ops, op.AddsNew) :
    let s := run hash
      (new capacity shards policy builtin (.new wheelSize tickNs start) graceNs ttiNs) ops
    (s.table.map (·.1)).Nodup ∧
    (∀ ke ∈ s.table, 0 < ke.2.expiresAt →
      ∃! i, s.wheel.isArmed i = true ∧ ke.2.ttlTimerHandle = some i) ∧
    (∀ ke ∈ s.table, ke.2.expiresAt = 0 → ke.2.ttlTimerHandle = none) ∧
    ∀ i, s.wheel.isArmed i = true →
      ∃! ke, ke ∈ s.table ∧ ke.2.ttlTimerHandle = some i ∧ s.wheel.hashOf i = hash ke.1 := by
  intro s
  have hs : s.Sound hash [] [] :=
    (sound_new hlen tickNs start capacity shards policy builtin graceNs ttiNs).run hnew
  refine ⟨hs.tally.keys, fun ke hke hexp => ?_, fun ke hke hexp => ?_, fun i hi => ?_⟩
  · obtain ⟨i, hi⟩ := Option.isSome_iff_exists.mp ((hs.stamped ke hke).timer.mpr hexp)
    refine ⟨i, ⟨(hs.isArmed_iff i).mpr ⟨ke, hke, hi⟩, hi⟩, ?_⟩
    rintro j ⟨-, hj⟩
    exact Option.some.inj (hj.symm.trans hi)
  · by_contra hsome
    have hexp' := (hs.stamped ke hke).timer.mp (Option.isSome_iff_ne_none.mpr hsome)
    rw [hexp] at hexp'
    exact absurd hexp' (by decide)
  · obtain ⟨ke, hke, hki⟩ := (hs.isArmed_iff i).mp hi
    have htimers := hs.timers
    rw [List.append_nil] at htimers
    have hown : (i, hash ke.1) ∈ owners hash s.table :=
      List.mem_filterMap.mpr ⟨ke, hke, by simp [ownerOf, hki]⟩
    obtain ⟨due, halarm⟩ := (htimers.armed _).mpr ⟨hown, List.not_mem_nil⟩
    refine ⟨ke, ⟨hke, hki, hashOf_eq halarm⟩, ?_⟩
    rintro ke' ⟨hke', hki', -⟩
    exact hs.owner_unique hke' hke hki' hki

end Runs

def timedEntry (cost expiresAt : UInt64) : CacheEntry Unit :=
  ⟨(), cost, expiresAt, 0, NO_NODE, 0, none⟩

/-- Two keys of one hash, the first replaced and then expired: one timer is left. -/
theorem armed_iff_resident_collision :
    let s := run (fun _ : UInt64 => 7) (new 10 1 (⟨⟩ : NullPolicy)
        (some (.new .s3Fifo (builtinCapacity 10 1))) (.new 60 10 0) 0 0)
      [.insert 0 1 (timedEntry 1 500), .insert 0 2 (timedEntry 1 900),
        .insert 0 1 (timedEntry 1 100), .expireDue 200 200]
    s.table.map (·.1) = [2] ∧ ∀ i, s.wheel.isArmed i = true →
      ∃! ke, ke ∈ s.table ∧ ke.2.ttlTimerHandle = some i ∧ s.wheel.hashOf i = (7 : UInt64) := by
  intro s
  have h := armed_iff_resident (fun _ : UInt64 => 7) (by decide : 1 ≤ 60) 10 0 10 1
    (⟨⟩ : NullPolicy) (some (.new .s3Fifo (builtinCapacity 10 1))) 0 0
    [.insert 0 1 (timedEntry 1 500), .insert 0 2 (timedEntry 1 900),
      .insert 0 1 (timedEntry 1 100), .expireDue 200 200]
    (by simp [Op.AddsNew, CacheEntry.IsNew, timedEntry])
  exact ⟨rfl, h.2.2.2⟩

end ShardMap

end Fibre.Cache
