import Fibre.Cache.Capacity
import Fibre.Cache.Deferred
import Fibre.Cache.KeyPolicies
import Fibre.Cache.Upkeep

/-!
# The capacity of a shard with a key policy

An insert frees what its policy says to have freed. That is enough as long as the policy has
recorded no more for a key than its entry costs: then what it takes costs at least what it says.
A policy that keeps the cost of a key that is admitted again may have recorded more, when the new
entry costs less, and so may one that records the cost told with a read, when the read is told
late.
-/

namespace Fibre.Cache.ShardMap

open CostQueue QueuedPolicy Word List

variable {K V π : Type*}

def priced (s : ShardMap K V π) : List (K × UInt64) := s.table.map fun ke => (ke.1, ke.2.cost)

variable {hash : K → UInt64} {s s' : ShardMap K V π}

theorem map_fst_priced (s : ShardMap K V π) : s.priced.map Prod.fst = s.table.map (·.1) := by
  rw [priced, map_map]
  rfl

theorem totalNat_priced (s : ShardMap K V π) : totalNat Prod.snd s.priced = s.residentCost :=
  totalNat_map _ s.table

variable [DecidableEq K]

/-- A key is tracked when it has an entry, for no more than the entry costs. -/
def Covers (recorded actual : Option UInt64) : Prop :=
  recorded.isSome = actual.isSome ∧ ∀ c ∈ recorded, ∀ d ∈ actual, c ≤ d

/-! ### What calls on the policy keep -/

section Policy

variable [CachePolicy π K] [QueuedPolicy π K] {p : π} {actual : K → Option UInt64}

theorem covers_onAccess (ht : Tidy K p) (hc : ∀ k, Covers (costs p k) (actual k)) (key : K)
    (cost : UInt64) (hread : recordsReads π K = true → ∀ d ∈ actual key, cost ≤ d) :
    Tidy K (CachePolicy.onAccess p key cost) ∧
      ∀ k, Covers (costs (CachePolicy.onAccess p key cost) k) (actual k) := by
  obtain ⟨htidy, hcosts⟩ := onAccess key cost ht
  refine ⟨htidy, fun k => ?_⟩
  rcases hcosts k with hsame | ⟨hrecords, rfl, hsome, hnew⟩
  · rw [hsame]
    exact hc k
  · refine ⟨?_, fun c hcost d hd => ?_⟩
    · rw [hnew, ← (hc k).1, hsome]
      rfl
    · rw [hnew, Option.mem_some_iff] at hcost
      exact hcost ▸ hread hrecords d hd

theorem covers_reads (ht : Tidy K p) (hc : ∀ k, Covers (costs p k) (actual k))
    (reads : List (K × UInt64))
    (hreads : recordsReads π K = true → ∀ kc ∈ reads, ∀ d ∈ actual kc.1, kc.2 ≤ d) :
    Tidy K (reads.foldl (fun p kc => CachePolicy.onAccess p kc.1 kc.2) p) ∧
      ∀ k, Covers (costs (reads.foldl (fun p kc => CachePolicy.onAccess p kc.1 kc.2) p) k)
        (actual k) := by
  induction reads generalizing p with
  | nil => exact ⟨ht, hc⟩
  | cons kc reads ih =>
    obtain ⟨ht', hc'⟩ := covers_onAccess ht hc kc.1 kc.2 fun hr => hreads hr kc mem_cons_self
    exact ih ht' hc' fun hr kc' hmem => hreads hr kc' (mem_cons_of_mem kc hmem)

theorem covers_onRemove (ht : Tidy K p) (hc : ∀ k, Covers (costs p k) (actual k)) (key : K) :
    Tidy K (CachePolicy.onRemove p key) ∧
      ∀ k, Covers (costs (CachePolicy.onRemove p key) k) (if k = key then none else actual k) := by
  obtain ⟨htidy, hcosts⟩ := onRemove key ht
  refine ⟨htidy, fun k => ?_⟩
  rw [hcosts]
  split_ifs
  · exact ⟨rfl, fun c hcost => by cases hcost⟩
  · exact hc k

theorem covers_onAdmit (ht : Tidy K p) (hc : ∀ k, Covers (costs p k) (actual k)) (key : K)
    (cost : UInt64) (hkeep : updatesCost π K = false → ∀ c ∈ costs p key, c ≤ cost) :
    (CachePolicy.onAdmit p key cost).1 = .admitted ∧
      Tidy K (CachePolicy.onAdmit p key cost).2 ∧
        ∀ k, Covers (costs (CachePolicy.onAdmit p key cost).2 k)
          (if k = key then some cost else actual k) := by
  obtain ⟨hadm, htidy, hcase⟩ := onAdmit key cost ht
  refine ⟨hadm, htidy, fun k => ?_⟩
  rcases hcase with hnew | ⟨hkept, hsome, hsame⟩
  · rw [hnew]
    split_ifs
    · refine ⟨rfl, fun c hcost d hd => ?_⟩
      rw [Option.mem_some_iff] at hcost hd
      rw [← hcost, ← hd]
      exact UInt64.le_refl _
    · exact hc k
  · rw [hsame]
    split_ifs with heq
    · subst heq
      refine ⟨hsome, fun c hcost d hd => ?_⟩
      rw [Option.mem_some_iff] at hd
      exact hd ▸ hkeep hkept c hcost
    · exact hc k

theorem sum_recorded_le (hc : ∀ k, Covers (costs p k) (actual k)) (keys : List K) :
    (keys.map fun k => ((costs p k).getD 0).toNat).sum ≤
      (keys.map fun k => ((actual k).getD 0).toNat).sum := by
  apply sum_le_sum
  intro k _
  obtain ⟨hsome, hle⟩ := hc k
  cases hrec : costs p k with
  | none => exact Nat.zero_le _
  | some c =>
    rw [hrec] at hsome hle
    obtain ⟨d, hd⟩ := Option.isSome_iff_exists.mp hsome.symm
    rw [hd] at hle ⊢
    exact UInt64.le_iff_toNat_le.mp (hle c rfl d rfl)

end Policy

/-! ### Entries that leave -/

section Table

omit [DecidableEq K] in
theorem takeEntry_priced {q : K × CacheEntry V → Bool} {ke : K × CacheEntry V}
    (h : s.takeEntry q = some (ke, s')) :
    s.priced.Perm ((ke.1, ke.2.cost) :: s'.priced) ∧ s'.policy = s.policy ∧ s'.reads = s.reads := by
  have hperm := (takeEntry_eq_some h).2.1
  refine ⟨hperm.map fun ke : K × CacheEntry V => (ke.1, ke.2.cost), ?_⟩
  unfold takeEntry at h
  split at h
  · cases h
  · next d _ =>
    obtain ⟨rfl, rfl⟩ := Prod.mk.inj (Option.some.inj h)
    obtain ⟨w, hw⟩ := disarm_eq { s with table := s.table.eraseP q : ShardMap K V π } d.2
    rw [hw]
    exact ⟨rfl, rfl⟩

theorem costOf_taken {e : K × UInt64} {q q' : List (K × UInt64)} (hnd : (q.map Prod.fst).Nodup)
    (hperm : q.Perm (e :: q')) (k : K) :
    costOf q' k = if k = e.1 then none else costOf q k := by
  have hnd' := (hperm.map Prod.fst).nodup_iff.mp hnd
  rw [← costOf_perm hnd hperm.symm, costOf_cons]
  split_ifs with heq
  · rw [heq, costOf_eq_none]
    exact (nodup_cons.mp hnd').1
  · rfl

variable [CachePolicy π K]

theorem evictKeys_spec (hk : (s.table.map (·.1)).Nodup) {victims : List K} (hnd : victims.Nodup)
    (hin : ∀ k ∈ victims, k ∈ s.table.map (·.1)) :
    (s.evictKeys false victims).2.policy = s.policy ∧
      (s.evictKeys false victims).2.reads = s.reads ∧
      (s.evictKeys false victims).2.builtin = s.builtin ∧
      (s.evictKeys false victims).2.budget = s.budget ∧
      ∃ gone, s.priced.Perm (gone ++ (s.evictKeys false victims).2.priced) ∧
        gone.map Prod.fst = victims := by
  induction victims generalizing s with
  | nil => exact ⟨rfl, rfl, rfl, rfl, [], .refl _, rfl⟩
  | cons k victims ih =>
    obtain ⟨hnew, hnd⟩ := nodup_cons.mp hnd
    cases htake : s.take k with
    | none =>
      have hout : k ∉ s.table.map (·.1) := by
        apply get_eq_none
        unfold take takeEntry at htake
        rw [get]
        split at htake
        · next hnone =>
          rw [hnone]
          rfl
        · cases htake
      exact absurd (hin k mem_cons_self) hout
    | some r =>
      obtain ⟨ke, s₁⟩ := r
      obtain ⟨hkey, hperm, -, hbudget, hbuiltin⟩ := takeEntry_eq_some htake
      obtain ⟨hpriced, hpolicy, hreads⟩ := takeEntry_priced htake
      have hkey : ke.1 = k := by simpa using hkey
      have hk₁ := keys_nodup_of_perm hk hperm
      have hin₁ : ∀ j ∈ victims, j ∈ (s₁.accountEviction ke.2).table.map (·.1) := by
        intro j hj
        have hmem := ((hperm.map (·.1)).mem_iff).mp (hin j (mem_cons_of_mem k hj))
        refine (mem_cons.mp hmem).resolve_left ?_
        rintro rfl
        exact hnew (hkey ▸ hj)
      obtain ⟨hp, hr, hb, hbud, gone, hgone, hmap⟩ := ih (s := s₁.accountEviction ke.2) hk₁ hnd hin₁
      rw [evictKeys, htake]
      refine ⟨hp.trans hpolicy, hr.trans hreads, hb.trans hbuiltin, hbud.trans hbudget,
        (ke.1, ke.2.cost) :: gone, ?_, ?_⟩
      · exact hpriced.trans (hgone.cons _)
      · rw [map_cons, hmap, hkey]

end Table

/-! ### The invariant -/

section Backed

variable [CachePolicy π K] [QueuedPolicy π K]

/-- A factory policy tracks the keys of the table, and has recorded no more for a key than its
entry costs. Nor do the reads in the log tell more, if the policy records them. -/
structure Backed (s : ShardMap K V π) : Prop where
  builtin : s.builtin = none
  tidy : Tidy K s.policy
  tally : s.Tally
  covers : ∀ k, Covers (costs s.policy k) (costOf s.priced k)
  logged : recordsReads π K = true → ∀ kc ∈ s.reads, ∀ d ∈ costOf s.priced kc.1, kc.2 ≤ d

/-- A read tells no more than the entry costs, if the policy records it. -/
def ReadFits (s : ShardMap K V π) (key : K) (cost : UInt64) : Prop :=
  recordsReads π K = true → ∀ d ∈ costOf s.priced key, cost ≤ d

/-- The costs fit a word once `key` has this entry, and the entry costs no less than the policy
has recorded for the key, if it keeps that, once the reads in the log are applied. -/
def AdmitFits (s : ShardMap K V π) (key : K) (entry : CacheEntry V) : Prop :=
  s.FitsWord key entry ∧
    (updatesCost π K = false → ∀ c ∈ costs s.applyReads.policy key, c ≤ entry.cost)

/-- The same entries under the same policy, within the same budget, or fewer. -/
structure Calm (s s' : ShardMap K V π) : Prop where
  backed : s'.Backed
  cost_le : s'.residentCost ≤ s.residentCost
  budget : s'.budget = s.budget

theorem Calm.refl (h : s.Backed) : Calm s s := ⟨h, le_rfl, rfl⟩

theorem Calm.trans {s'' : ShardMap K V π} (h : Calm s s') (h' : Calm s' s'') : Calm s s'' :=
  ⟨h'.backed, h'.cost_le.trans h.cost_le, h'.budget.trans h.budget⟩

namespace Backed

theorem priced_nodup (h : s.Backed) : (s.priced.map Prod.fst).Nodup := by
  rw [map_fst_priced]
  exact h.tally.keys

theorem of_priced (h : s.Backed) (hpriced : s'.priced = s.priced) (hcost : s'.cost = s.cost)
    (hpolicy : s'.policy = s.policy) (hreads : s'.reads = s.reads)
    (hbuiltin : s'.builtin = s.builtin) (hbudget : s'.budget = s.budget) : Calm s s' := by
  refine ⟨⟨hbuiltin.trans h.builtin, hpolicy ▸ h.tidy, ?_, ?_, ?_⟩, ?_, hbudget⟩
  · exact h.tally.of_map hcost hpriced
  · intro k
    rw [hpolicy, hpriced]
    exact h.covers k
  · rw [hreads, hpriced]
    exact h.logged
  · rw [← totalNat_priced, ← totalNat_priced, hpriced]

theorem of_policy (h : s.Backed) {p : π} (ht : Tidy K p)
    (hc : ∀ k, Covers (costs p k) (costOf s.priced k)) (reads : List (K × UInt64))
    (hreads : recordsReads π K = true → ∀ kc ∈ reads, ∀ d ∈ costOf s.priced kc.1, kc.2 ≤ d) :
    Calm s { s with policy := p, reads := reads } :=
  ⟨⟨h.builtin, ht, h.tally.congr rfl rfl, hc, hreads⟩, le_rfl, rfl⟩

theorem applyReads (h : s.Backed) : Calm s s.applyReads := by
  obtain ⟨ht, hc⟩ := covers_reads h.tidy h.covers s.reads h.logged
  rw [applyReads_of_none h.builtin]
  exact h.of_policy ht hc [] fun _ _ hmem => absurd hmem not_mem_nil

theorem forget (h : s.Backed) {q : K × CacheEntry V → Bool} {ke : K × CacheEntry V}
    (htake : s.takeEntry q = some (ke, s')) :
    Calm s ({ s' with cost := s'.cost - ke.2.cost : ShardMap K V π }.forget ke.1 ke.2) := by
  obtain ⟨-, -, -, hbudget, hbuiltin⟩ := takeEntry_eq_some htake
  obtain ⟨hperm, hpolicy, hreads⟩ := takeEntry_priced htake
  have htally : Tally { s' with cost := s'.cost - ke.2.cost } := stable_tally.taken h.tally htake
  have hactual := costOf_taken h.priced_nodup hperm
  obtain ⟨ht, hc⟩ := covers_onRemove h.tidy h.covers ke.1
  have hforget : { s' with cost := s'.cost - ke.2.cost : ShardMap K V π }.forget ke.1 ke.2 =
      { s' with
        cost := s'.cost - ke.2.cost
        policy := CachePolicy.onRemove s'.policy ke.1 } := by
    unfold ShardMap.forget
    simp only [hbuiltin.trans h.builtin]
  rw [hforget, hpolicy]
  refine ⟨⟨hbuiltin.trans h.builtin, ht, htally.congr rfl rfl, ?_, ?_⟩, ?_, hbudget⟩
  · intro k
    show Covers _ (costOf s'.priced k)
    rw [hactual]
    exact hc k
  · intro hrecords kc hmem d hd
    change d ∈ costOf s'.priced kc.1 at hd
    change kc ∈ s'.reads at hmem
    rw [hactual] at hd
    rw [hreads] at hmem
    split_ifs at hd
    · cases hd
    · exact h.logged hrecords kc hmem d hd
  · have hsum := totalNat_perm Prod.snd hperm
    rw [totalNat_priced, totalNat_cons] at hsum
    show s'.residentCost ≤ s.residentCost
    rw [hsum, totalNat_priced]
    exact Nat.le_add_left _ _

theorem clear (h : s.Backed) : Calm s s.clear := by
  obtain ⟨ht, hnone⟩ := QueuedPolicy.clear (K := K) h.tidy
  have hclear : s.clear = { s with
      table := []
      wheel := s.wheel.clear
      counters := { s.counters with costDelta := s.counters.costDelta + (0 - s.cost) }
      cost := 0
      policy := CachePolicy.clear K s.policy } := by
    unfold ShardMap.clear
    simp only [h.builtin]
  rw [hclear]
  refine ⟨⟨h.builtin, ht, ⟨nodup_nil, rfl⟩, fun k => ?_, fun _ _ _ d hd => ?_⟩, Nat.zero_le _,
    rfl⟩
  · show Covers (costs (CachePolicy.clear K s.policy) k) none
    rw [hnone]
    exact ⟨rfl, fun c hcost => by cases hcost⟩
  · cases hd

theorem totalNat_queue_le (h : s.Backed) : totalNat Prod.snd (queue (K := K) s.policy) ≤ s.residentCost := by
  have hq := nodup h.tidy
  have hkeys : ((queue (K := K) s.policy).map Prod.fst).Perm (s.priced.map Prod.fst) := by
    rw [perm_ext_iff_of_nodup hq h.priced_nodup]
    intro k
    rw [← costOf_isSome, ← costOf_isSome, ← costs_eq h.tidy, (h.covers k).1]
  have hsum := sum_recorded_le h.covers ((queue (K := K) s.policy).map Prod.fst)
  simp only [costs_eq h.tidy] at hsum
  rw [sum_costOf hq fun e he => he, (hkeys.map _).sum_eq, sum_costOf h.priced_nodup fun e he => he,
    totalNat_priced] at hsum
  exact hsum

/-- The policy evicts what the cost is over the budget. What is taken costs at least what the
policy has recorded. -/
theorem evictKeys (h : s.Backed) (hlt : s.residentCost < 2 ^ 64) (hover : s.budget < s.cost) :
    let e := CachePolicy.evict (K := K) s.policy (s.cost - s.budget)
    let s' := (ShardMap.evictKeys false { s with policy := e.2 } e.1.1).2
    Calm s s' ∧ s'.residentCost ≤ s.budget.toNat := by
  intro e s'
  have hcost : s.cost.toNat = s.residentCost := by
    rw [h.tally.cost, toNat_total hlt, residentCost]
  have hsub : (s.cost - s.budget).toNat = s.cost.toNat - s.budget.toNat :=
    UInt64.toNat_sub_of_le _ _ (UInt64.le_of_lt hover)
  have hfits : totalNat Prod.snd (popUntil Prod.snd (s.cost - s.budget)
      (queue (K := K) s.policy)).2.1 < 2 ^ 64 := by
    have hle := h.totalNat_queue_le
    rw [← popUntil_append Prod.snd (s.cost - s.budget) (queue (K := K) s.policy),
      totalNat_append] at hle
    omega
  have hev := ((QueuedPolicy.contract_of_fits h.tidy (s.cost - s.budget)).mpr hfits).evicts
  have htidy : Tidy K e.2 := step_tidy h.tidy (.evict (s.cost - s.budget))
  have hin : ∀ k ∈ e.1.1, k ∈ s.table.map (·.1) := by
    intro k hk
    rw [← map_fst_priced, ← costOf_isSome, ← (h.covers k).1]
    exact hev.tracked k hk
  obtain ⟨hpolicy, hreads, hbuiltin, hbudget, gone, hperm, hgone⟩ := evictKeys_spec
    (s := { s with policy := e.2 }) h.tally.keys hev.nodup hin
  change s.priced.Perm (gone ++ s'.priced) at hperm
  have hnodup := (hperm.map Prod.fst).nodup_iff.mp h.priced_nodup
  -- what the table tells of a key afterwards
  have hactual : ∀ k, costOf s'.priced k = if k ∈ e.1.1 then none else costOf s.priced k := by
    intro k
    rw [costOf_rest hnodup rfl, hgone, costOf_perm h.priced_nodup hperm.symm]
  have hcovers : ∀ k, Covers (costs e.2 k) (costOf s'.priced k) := by
    intro k
    rw [hactual]
    split_ifs with hk
    · rw [hev.untracked k hk]
      exact ⟨rfl, fun c hcost => by cases hcost⟩
    · rw [hev.frame k hk]
      exact h.covers k
  have htally : s'.Tally := stable_tally.evictKeys (s := { s with policy := e.2 })
    (h.tally.congr rfl rfl) false e.1.1
  have hsum := totalNat_perm Prod.snd hperm
  rw [totalNat_priced, totalNat_append, totalNat_priced] at hsum
  refine ⟨⟨⟨hbuiltin.trans h.builtin, hpolicy ▸ htidy, htally, ?_, ?_⟩, by omega, hbudget⟩, ?_⟩
  · intro k
    rw [show s'.policy = e.2 from hpolicy]
    exact hcovers k
  · intro hrecords kc hmem d hd
    rw [show s'.reads = s.reads from hreads] at hmem
    rw [hactual] at hd
    split_ifs at hd
    · cases hd
    · exact h.logged hrecords kc hmem d hd
  · rcases hev.enough with henough | hnone
    · -- the victims cost at least what is recorded for them
      have hvictims := sum_recorded_le h.covers e.1.1
      have hpriced : ((e.1.1).map fun k => ((costOf s.priced k).getD 0).toNat).sum =
          totalNat Prod.snd gone := by
        rw [← hgone]
        exact sum_costOf h.priced_nodup fun d hd => hperm.mem_iff.mpr (mem_append_left _ hd)
      have henough' := henough.trans hvictims
      rw [hpriced, hsub] at henough'
      omega
    · have hnil : s'.priced = [] := by
        cases hpr : s'.priced with
        | nil => rfl
        | cons d rest =>
          have hcov := (hcovers d.1).1
          rw [hnone, hpr, costOf_cons, if_pos rfl] at hcov
          cases hcov
      rw [← totalNat_priced, hnil]
      exact Nat.zero_le _

theorem write (h : s.Backed) {key : K} {entry : CacheEntry V} (hfit : s.AdmitFits key entry)
    (hreads : s.reads = []) :
    let d := CachePolicy.onAdmit s.policy key entry.cost
    d.1 = .admitted ∧ ∃ s' : ShardMap K V π, s' =
        { { s with policy := d.2 : ShardMap K V π }.putEntry key entry with
          cost := s.cost - ((s.get key).map CacheEntry.cost).getD 0 + entry.cost } ∧
      s'.Backed ∧ s'.residentCost < 2 ^ 64 ∧ s'.budget = s.budget := by
  intro d
  have hsame : s.applyReads = s := by
    rw [applyReads_of_none h.builtin, hreads]
    simp only [foldl_nil]
    rw [← hreads]
  obtain ⟨hword, hkeep⟩ := hfit
  rw [hsame] at hkeep
  obtain ⟨hadm, ht, hc⟩ := covers_onAdmit h.tidy h.covers key entry.cost hkeep
  refine ⟨hadm, _, rfl, ?_⟩
  set s₁ : ShardMap K V π := { s with policy := d.2 } with hs₁
  have hget : s₁.get key = s.get key := rfl
  have hw : Wrote s key entry { s₁.putEntry key entry with
      cost := s.cost - ((s.get key).map CacheEntry.cost).getD 0 + entry.cost } :=
    ⟨⟨entry.node, putEntry_table_congr s s₁ rfl key entry⟩, rfl, putEntry_wheel s₁ key entry,
      congrArg ShardCounters.costDelta (putEntry_counters s₁ key entry)⟩
  have htally := h.tally.wrote hw
  obtain ⟨rest, hold, hput, hout⟩ := putEntry_perm (s := s₁) h.tally.keys key entry
  set s₂ : ShardMap K V π := { s₁.putEntry key entry with
    cost := s.cost - ((s.get key).map CacheEntry.cost).getD 0 + entry.cost } with hs₂
  have hframe := putEntry_eq s₁ key entry
  -- what the table tells of a key afterwards
  have hactual : ∀ k, costOf s₂.priced k = if k = key then some entry.cost else costOf s.priced k := by
    intro k
    have hnew := hput.map fun ke : K × CacheEntry V => (ke.1, ke.2.cost)
    have hbefore := hold.map fun ke : K × CacheEntry V => (ke.1, ke.2.cost)
    have hnd : (s₂.priced.map Prod.fst).Nodup := by
      rw [map_fst_priced]
      exact htally.keys
    change s₂.priced.Perm _ at hnew
    change s.priced.Perm _ at hbefore
    rw [← costOf_perm hnd hnew.symm, ← costOf_perm h.priced_nodup hbefore.symm, map_cons,
      costOf_cons, map_append, costOf_append]
    split_ifs with heq
    · rfl
    · cases s₁.get key with
      | none => rfl
      | some old =>
        show _ = (costOf [(key, old.cost)] k).or _
        rw [costOf_cons, if_neg heq, costOf_nil, Option.none_or]
  refine ⟨⟨?_, ?_, htally, ?_, ?_⟩, ?_, ?_⟩
  · rw [hs₂, hframe]
    exact h.builtin
  · rw [hs₂, hframe]
    exact ht
  · intro k
    rw [hactual, hs₂, hframe]
    exact hc k
  · intro _ kc hmem
    rw [hs₂, hframe] at hmem
    change kc ∈ s.reads at hmem
    rw [hreads] at hmem
    cases hmem
  · have hsum := totalNat_perm entryCost hput
    have hsum' := totalNat_perm entryCost hold
    rw [totalNat_cons] at hsum
    rw [totalNat_append] at hsum'
    change s₂.residentCost = _ at hsum
    change s.residentCost = _ at hsum'
    unfold FitsWord replacedCost at hword
    rw [hsum]
    rw [hget] at hsum'
    cases hold : s.get key with
    | none =>
      rw [hold] at hword hsum'
      simp only [Option.map_none, Option.getD_none, Option.toList_none, totalNat_nil] at hword hsum'
      simp only [entryCost]
      omega
    | some old =>
      rw [hold] at hword hsum'
      simp only [Option.map_some, Option.getD_some, Option.toList_some, totalNat_cons, totalNat_nil,
        entryCost] at hword hsum'
      simp only [entryCost]
      omega
  · rw [hs₂, hframe]

theorem insertPolicy_drained (h : s.Backed) {key : K} {entry : CacheEntry V}
    (hfit : s.AdmitFits key entry) (hreads : s.reads = []) :
    (s.insertPolicy key entry).2.Backed ∧
      (s.insertPolicy key entry).2.residentCost ≤ (s.insertPolicy key entry).2.budget.toNat ∧
      (s.insertPolicy key entry).2.budget = s.budget := by
  obtain ⟨hadm, s₁, hs₁, hback, hlt, hbudget⟩ := h.write hfit hreads
  -- what is left after the eviction
  obtain ⟨s₂, hevict⟩ : ∃ s₂ : ShardMap K V π,
      (if s₁.cost > s₁.budget then
        let e := CachePolicy.evict (K := K) s₁.policy (s₁.cost - s₁.budget)
        (ShardMap.evictKeys false { s₁ with policy := e.2 } e.1.1).2
      else s₁) = s₂ := ⟨_, rfl⟩
  obtain ⟨n, hout⟩ : ∃ n, (s.insertPolicy key entry).2 = s₂.addEvicted n := by
    rw [← hevict, hs₁]
    simp only [ShardMap.insertPolicy, hreads, foldl_nil, hadm, putEntry_cost]
    split_ifs <;> exact ⟨_, rfl⟩
  have hafter : Calm s₁ s₂ ∧ s₂.residentCost ≤ s₁.budget.toNat := by
    rw [← hevict]
    split_ifs with hover
    · exact hback.evictKeys hlt hover
    · refine ⟨.refl hback, ?_⟩
      have hcost : s₁.cost.toNat = s₁.residentCost := by
        rw [hback.tally.cost, toNat_total hlt, residentCost]
      rw [← hcost]
      exact UInt64.le_iff_toNat_le.mp (UInt64.not_lt.mp hover)
  obtain ⟨hcalm, hle⟩ := hafter
  have hadded : Calm s₂ (s₂.addEvicted n) := hcalm.backed.of_priced rfl rfl rfl rfl rfl rfl
  rw [hout]
  refine ⟨hadded.backed, ?_, hadded.budget.trans (hcalm.budget.trans hbudget)⟩
  rw [hadded.budget, hcalm.budget]
  exact hle

theorem insertPolicy (h : s.Backed) {key : K} {entry : CacheEntry V}
    (hfit : s.AdmitFits key entry) :
    (s.insertPolicy key entry).2.Backed ∧
      (s.insertPolicy key entry).2.residentCost ≤ (s.insertPolicy key entry).2.budget.toNat ∧
      (s.insertPolicy key entry).2.budget = s.budget := by
  have hcalm := h.applyReads
  have hinsert : s.applyReads.insertPolicy key entry = s.insertPolicy key entry := by
    rw [applyReads_of_none h.builtin]
    exact insertPolicy_applyReads s key entry
  have hget : s.applyReads.get key = s.get key := by
    rw [get, get, applyReads_table]
  have hfit' : s.applyReads.AdmitFits key entry := by
    refine ⟨?_, ?_⟩
    · have hword := hfit.1
      unfold FitsWord replacedCost residentCost at hword ⊢
      rwa [hget, applyReads_table]
    · rw [applyReads_applyReads]
      exact hfit.2
  have hreads : s.applyReads.reads = [] := by
    rw [applyReads_of_none h.builtin]
  rw [← hinsert, ← hcalm.budget]
  exact hcalm.backed.insertPolicy_drained hfit' hreads

theorem insertInner (h : s.Backed) {key : K} {entry : CacheEntry V} (hfit : s.AdmitFits key entry)
    (clock : UInt64) (count : Bool) :
    (s.insertInner hash clock key entry count).2.Backed ∧
      (s.insertInner hash clock key entry count).2.residentCost ≤
        (s.insertInner hash clock key entry count).2.budget.toNat ∧
      (s.insertInner hash clock key entry count).2.budget = s.budget := by
  obtain ⟨w, t, harm⟩ := arm_eq s clock (hash key) entry
  set s₁ : ShardMap K V π := { s with wheel := w } with hs₁
  set e : CacheEntry V := { entry with keyHash := hash key, ttlTimerHandle := t } with he
  have hcalm : Calm s s₁ := h.of_priced rfl rfl rfl rfl rfl rfl
  have hfit' : s₁.AdmitFits key e := by
    refine ⟨hfit.1, ?_⟩
    have hkeep := hfit.2
    rw [applyReads_of_none h.builtin] at hkeep
    rw [applyReads_of_none hcalm.backed.builtin]
    exact hkeep
  obtain ⟨hback, hle, hbudget⟩ := hcalm.backed.insertPolicy hfit'
  obtain ⟨w', n, hout⟩ : ∃ w' n, (s.insertInner hash clock key entry count).2 =
      { (s₁.insertPolicy key e).2 with wheel := w', counters := n } := by
    simp only [ShardMap.insertInner, harm, hcalm.backed.builtin]
    cases (s₁.insertPolicy key e).1 with
    | none => cases count <;> exact ⟨_, _, rfl⟩
    | some old =>
      obtain ⟨w', hw'⟩ := disarm_eq (s₁.insertPolicy key e).2 old
      simp only [hw']
      cases count <;> exact ⟨_, _, rfl⟩
  have hrest : Calm (s₁.insertPolicy key e).2 (s.insertInner hash clock key entry count).2 := by
    rw [hout]
    exact hback.of_priced rfl rfl rfl rfl rfl rfl
  refine ⟨hrest.backed, ?_, hrest.budget.trans hbudget⟩
  rw [hrest.budget]
  exact hrest.cost_le.trans hle

/-! ### Calls that write no entry -/

theorem removeExpiredLoop (h : s.Backed) (hh now : UInt64) (fuel : ℕ)
    (out : List (K × CacheEntry V × ExpiredBy)) :
    Calm s (ShardMap.removeExpiredLoop hash hh now fuel s out).1 := by
  induction fuel generalizing s out with
  | zero => exact .refl h
  | succ fuel ih =>
    unfold ShardMap.removeExpiredLoop
    split
    · exact .refl h
    · next key e s₁ ht =>
      have hgone := h.forget ht
      exact hgone.trans (ih hgone.backed _)

theorem removeExpired (h : s.Backed) (hh now : UInt64)
    (out : List (K × CacheEntry V × ExpiredBy)) :
    Calm s (ShardMap.removeExpired hash s hh now out).1 :=
  h.removeExpiredLoop hh now _ out

theorem removeExpiredHashes (h : s.Backed) (hashes : List UInt64) (now : UInt64) :
    Calm s (s.removeExpiredHashes hash hashes now).2 := by
  have hfold : ∀ (hashes : List UInt64) (s : ShardMap K V π)
      (out : List (K × CacheEntry V × ExpiredBy)), s.Backed →
      Calm s (hashes.foldl (fun (r : ShardMap K V π × List (K × CacheEntry V × ExpiredBy)) h =>
        ShardMap.removeExpired hash r.1 h now r.2) (s, out)).1 := by
    intro hashes
    induction hashes with
    | nil => exact fun s out h => .refl h
    | cons hh hashes ih =>
      intro s out h
      have hgone : Calm s (ShardMap.removeExpired hash s hh now out).1 :=
        h.removeExpired hh now out
      exact hgone.trans (ih _ _ hgone.backed)
  exact h.applyReads.trans (hfold hashes _ [] h.applyReads.backed)

omit [DecidableEq K] [CachePolicy π K] [QueuedPolicy π K] in
theorem priced_rearm (s : ShardMap K V π) (clock hh : UInt64) :
    (s.rearm hash clock hh).priced = s.priced :=
  map_rearm (fun _ _ _ => rfl) s clock hh

theorem rearm (h : s.Backed) (clock hh : UInt64) : Calm s (s.rearm hash clock hh) := by
  have hframe : s.rearm hash clock hh = _ := rearm_eq s clock hh
  refine h.of_priced (priced_rearm s clock hh) ?_ ?_ ?_ ?_ ?_ <;> rw [hframe]

theorem expireDue (h : s.Backed) (clock now : UInt64) : Calm s (s.expireDue hash clock now).2 := by
  have hadv : Calm s { s with wheel := (s.wheel.advance now).2 } :=
    h.of_priced rfl rfl rfl rfl rfl rfl
  have hfold : ∀ (hashes : List UInt64) (s : ShardMap K V π)
      (out : List (K × CacheEntry V × ExpiredBy)), s.Backed →
      Calm s (hashes.foldl (fun (r : ShardMap K V π × List (K × CacheEntry V × ExpiredBy)) h =>
        ((ShardMap.removeExpired hash r.1 h now r.2).1.rearm hash clock h,
          (ShardMap.removeExpired hash r.1 h now r.2).2)) (s, out)).1 := by
    intro hashes
    induction hashes with
    | nil => exact fun s out h => .refl h
    | cons hh hashes ih =>
      intro s out h
      have hgone : Calm s (ShardMap.removeExpired hash s hh now out).1 :=
        h.removeExpired hh now out
      have hagain : Calm s ((ShardMap.removeExpired hash s hh now out).1.rearm hash clock hh) :=
        hgone.trans (hgone.backed.rearm clock hh)
      exact hagain.trans (ih _ _ hagain.backed)
  simp only [ShardMap.expireDue]
  split_ifs
  · exact hadv
  · have hread := hadv.trans hadv.backed.applyReads
    exact hread.trans (hfold _ _ [] hread.backed)

theorem remove (h : s.Backed) (key : K) : Calm s (s.remove key).2 := by
  have hread := h.applyReads
  simp only [ShardMap.remove]
  split
  · exact hread
  · next k e s₁ ht => exact hread.trans (hread.backed.forget ht)

theorem modifyEntry (h : s.Backed) (key : K) (value : V → V) (lastAccessed : UInt64 → UInt64) :
    Calm s (s.modifyEntry key value lastAccessed) :=
  h.of_priced (map_modifyEntry (fun _ _ _ _ => rfl) s key value lastAccessed) rfl rfl rfl rfl rfl

theorem pushLog (h : s.Backed) {key : K} {cost : UInt64} (hread : s.ReadFits key cost) :
    Calm s (s.pushLog key cost).2 := by
  unfold ShardMap.pushLog
  split_ifs
  · refine h.of_policy h.tidy h.covers (s.reads ++ [(key, cost)]) fun hrecords kc hmem d hd => ?_
    rcases mem_append.mp hmem with hold | hnew
    · exact h.logged hrecords kc hold d hd
    · obtain rfl := mem_singleton.mp hnew
      exact hread hrecords d hd
  · exact .refl h

theorem touchKey (h : s.Backed) {key : K} {cost : UInt64} (hread : s.ReadFits key cost) :
    Calm s { s with policy := CachePolicy.onAccess s.policy key cost } := by
  obtain ⟨ht, hc⟩ := covers_onAccess h.tidy h.covers key cost hread
  exact h.of_policy ht hc s.reads h.logged

end Backed

/-! ### Runs -/

/-- What a call needs. -/
def Meets (hash : K → UInt64) (s : ShardMap K V π) : Op K V → Prop
  | .pushLog key cost => s.ReadFits key cost
  | .applyDeferred (.key key cost) => s.ReadFits key cost
  | op => Fits hash AdmitFits s op

/-- What every call of a run needs. -/
def MeetsRun (hash : K → UInt64) (s : ShardMap K V π) : List (Op K V) → Prop
  | [] => True
  | op :: ops => Meets hash s op ∧ MeetsRun hash (s.step hash op) ops

/-- The invariant of a shard with a factory policy. -/
structure Within (s : ShardMap K V π) : Prop where
  backed : s.Backed
  cost_le : s.residentCost ≤ s.budget.toNat

namespace Within

theorem cost_eq (h : s.Within) : s.cost.toNat = s.residentCost := by
  rw [h.backed.tally.cost, toNat_total (h.cost_le.trans_lt s.budget.toNat_lt), residentCost]

theorem calm (h : s.Within) (hc : Calm s s') : s'.Within :=
  ⟨hc.backed, hc.budget ▸ hc.cost_le.trans h.cost_le⟩

theorem insertInner (h : s.Within) {key : K} {entry : CacheEntry V} (hfit : s.AdmitFits key entry)
    (clock : UInt64) (count : Bool) : (s.insertInner hash clock key entry count).2.Within := by
  obtain ⟨hback, hle, -⟩ : (s.insertInner hash clock key entry count).2.Backed ∧ _ ∧ _ :=
    h.backed.insertInner hfit clock count
  exact ⟨hback, hle⟩

theorem insertAll (h : s.Within) (clock : UInt64) (entries : List (K × CacheEntry V))
    (hf : FitsAll hash AdmitFits clock s entries) : (s.insertAll hash clock entries).Within := by
  induction entries generalizing s with
  | nil => exact h
  | cons ke entries ih =>
    have hnew : (s.insertInner hash clock ke.1 ke.2 false).2.Within := h.insertInner hf.1 clock false
    exact ih hnew hf.2

theorem step (h : s.Within) (op : Op K V) (hm : Meets hash s op) : (s.step hash op).Within := by
  cases op with
  | insert clock key entry => exact h.insertInner hm clock true
  | remove key => exact h.calm (h.backed.remove key)
  | expireDue clock now => exact h.calm (h.backed.expireDue clock now)
  | expireAll now => exact h.calm (h.backed.removeExpiredHashes _ now)
  | removeExpiredHashes hashes now => exact h.calm (h.backed.removeExpiredHashes hashes now)
  | clear => exact h.calm h.backed.clear
  | replaceAll clock entries => exact (h.calm h.backed.clear).insertAll clock entries hm
  | applyReads => exact h.calm h.backed.applyReads
  | applyDeferred read =>
    have hread := h.backed.applyReads
    cases read with
    | key key cost =>
      have hfits : s.applyReads.ReadFits key cost := by
        intro hrecords d hd
        rw [priced, applyReads_table] at hd
        exact hm hrecords d hd
      exact h.calm (hread.trans (hread.backed.touchKey hfits))
    | node node =>
      have hnone : s.applyReads.builtin = none := hread.backed.builtin
      refine h.calm (hread.trans (hread.backed.of_priced rfl rfl rfl rfl ?_ rfl))
      show (s.applyReads.builtin.map _) = _
      rw [hnone]
      rfl
  | touchRead node =>
    refine h.calm (h.backed.of_priced rfl rfl rfl rfl ?_ rfl)
    show (s.builtin.map _) = _
    rw [h.backed.builtin]
    rfl
  | pushRing node =>
    simp only [ShardMap.step, ShardMap.pushRing]
    split_ifs
    · exact h
    · exact h.calm (h.backed.of_priced rfl rfl rfl rfl rfl rfl)
    · exact h
  | pushLog key cost => exact h.calm (h.backed.pushLog hm)
  | modifyEntry key value lastAccessed =>
    exact h.calm (h.backed.modifyEntry key value lastAccessed)

theorem run (h : s.Within) (ops : List (Op K V)) (hm : MeetsRun hash s ops) :
    (s.run hash ops).Within := by
  induction ops generalizing s with
  | nil => exact h
  | cons op ops ih => exact ih (h.step op hm.1) hm.2

end Within

/-- For a policy that records each cost as it is told at admission, and none that is told with a
read, it is enough that the costs fit a word. -/
theorem meetsRun_of_fitsRun (hupdates : updatesCost π K = true) (hreads : recordsReads π K = false)
    {s : ShardMap K V π} {ops : List (Op K V)} (hf : FitsRun hash FitsWord s ops) :
    MeetsRun hash s ops := by
  have hadm : ∀ (s : ShardMap K V π) key entry, s.FitsWord key entry → s.AdmitFits key entry :=
    fun s key entry hword => ⟨hword, fun hkeeps => absurd (hupdates.symm.trans hkeeps) nofun⟩
  have hread : ∀ (s : ShardMap K V π) key cost, s.ReadFits key cost :=
    fun s key cost hrecords => absurd (hreads.symm.trans hrecords) nofun
  have hall : ∀ (clock : UInt64) (entries : List (K × CacheEntry V)) (s : ShardMap K V π),
      FitsAll hash FitsWord clock s entries → FitsAll hash AdmitFits clock s entries := by
    intro clock entries
    induction entries with
    | nil => exact fun _ h => h
    | cons ke entries ih => exact fun s h => ⟨hadm s _ _ h.1, ih _ h.2⟩
  induction ops generalizing s with
  | nil => trivial
  | cons op ops ih =>
    refine ⟨?_, ih hf.2⟩
    cases op with
    | insert clock key entry => exact hadm s key entry hf.1
    | replaceAll clock entries => exact hall clock entries _ hf.1
    | pushLog key cost => exact hread s key cost
    | applyDeferred read =>
      cases read with
      | key key cost => exact hread s key cost
      | node node => trivial
    | _ => trivial

-- named, since the search may find the instance that tries every word instead
instance (s : ShardMap K V π) (key : K) (cost : UInt64) : Decidable (s.ReadFits key cost) :=
  have : Decidable (∀ d ∈ costOf s.priced key, cost ≤ d) := Option.decidableForallMem _
  inferInstanceAs (Decidable (recordsReads π K = true → ∀ d ∈ costOf s.priced key, cost ≤ d))

instance (s : ShardMap K V π) (key : K) (entry : CacheEntry V) :
    Decidable (s.AdmitFits key entry) :=
  have : Decidable (∀ c ∈ costs s.applyReads.policy key, c ≤ entry.cost) :=
    Option.decidableForallMem _
  inferInstanceAs (Decidable (_ ∧ (updatesCost π K = false →
    ∀ c ∈ costs s.applyReads.policy key, c ≤ entry.cost)))

instance decidableMeets (s : ShardMap K V π) : ∀ op, Decidable (Meets hash s op)
  | .pushLog key cost => inferInstanceAs (Decidable (s.ReadFits key cost))
  | .applyDeferred (.key key cost) => inferInstanceAs (Decidable (s.ReadFits key cost))
  | .insert _ key entry => inferInstanceAs (Decidable (s.AdmitFits key entry))
  | .replaceAll clock entries =>
    inferInstanceAs (Decidable (FitsAll hash AdmitFits clock s.clear entries))
  | .applyDeferred (.node _) | .remove _ | .expireDue _ _ | .expireAll _
  | .removeExpiredHashes _ _ | .clear | .applyReads | .touchRead _ | .pushRing _
  | .modifyEntry _ _ _ => .isTrue trivial

instance decidableMeetsRun : ∀ (ops : List (Op K V)) (s : ShardMap K V π),
    Decidable (MeetsRun hash s ops)
  | [], _ => .isTrue trivial
  | _ :: ops, _ =>
    have := decidableMeetsRun ops
    inferInstanceAs (Decidable (_ ∧ _))

end Backed

/-! ### The capacity bound -/

section Bound

/-- A new shard of a cache of `capacity` over `shards` shards, with a key policy that is made for
`policyCapacity` cost units. -/
def newKeyed (kind : KeyKind) (policyCapacity capacity shards : UInt64) (wheel : TimerWheel)
    (graceNs ttiNs : UInt64) : ShardMap K V (KeyPolicy K kind) :=
  new capacity shards (.new policyCapacity kind) none wheel graceNs ttiNs

theorem within_newKeyed (kind : KeyKind) (policyCapacity capacity shards : UInt64)
    (wheel : TimerWheel) (graceNs ttiNs : UInt64) :
    (newKeyed kind policyCapacity capacity shards wheel graceNs ttiNs :
      ShardMap K V (KeyPolicy K kind)).Within := by
  have htidy : Tidy K (KeyPolicy.new policyCapacity kind : KeyPolicy K kind) :=
    KeyPolicy.tidy_new policyCapacity kind
  refine ⟨⟨rfl, htidy, ⟨nodup_nil, rfl⟩, fun k => ?_, fun _ _ hmem => ?_⟩, Nat.zero_le _⟩
  · have hnone : costs (KeyPolicy.new policyCapacity kind : KeyPolicy K kind) k = none := by
      cases kind <;> rfl
    show Covers (costs (KeyPolicy.new policyCapacity kind : KeyPolicy K kind) k) none
    rw [hnone]
    exact ⟨rfl, fun c hcost => by cases hcost⟩
  · cases hmem

variable (hash) (policyCapacity capacity shards : UInt64) (wheel : TimerWheel)
  (graceNs ttiNs : UInt64)

theorem within_insert {kind : KeyKind} (ops : List (Op K V)) (clock : UInt64) (key : K)
    (entry : CacheEntry V)
    (hm : MeetsRun hash
      (newKeyed kind policyCapacity capacity shards wheel graceNs ttiNs :
        ShardMap K V (KeyPolicy K kind)) (ops ++ [.insert clock key entry])) :
    ((run hash (newKeyed kind policyCapacity capacity shards wheel graceNs ttiNs :
      ShardMap K V (KeyPolicy K kind)) ops).insert hash clock key entry).2.Within := by
  have hw := (within_newKeyed kind policyCapacity capacity shards wheel graceNs ttiNs).run _ hm
  rwa [run, foldl_append] at hw

/-- LRU, SIEVE and S3-FIFO: when an insert returns, the shard's cost, which is the sum of the
costs of its entries, is at most its budget, provided no insert so far added up to `2 ^ 64` or
more. -/
theorem residentCost_insert_updating_le {kind : KeyKind}
    (hkind : kind = .lru ∨ kind = .sieve ∨ kind = .s3Fifo) (ops : List (Op K V)) (clock : UInt64)
    (key : K) (entry : CacheEntry V)
    (hf : FitsRun hash FitsWord
      (newKeyed kind policyCapacity capacity shards wheel graceNs ttiNs :
        ShardMap K V (KeyPolicy K kind)) (ops ++ [.insert clock key entry])) :
    let s := run hash (newKeyed kind policyCapacity capacity shards wheel graceNs ttiNs :
      ShardMap K V (KeyPolicy K kind)) ops
    let s' := (s.insert hash clock key entry).2
    s'.cost.toNat = s'.residentCost ∧ s'.residentCost ≤ s'.budget.toNat := by
  have hupdates : updatesCost (KeyPolicy K kind) K = true := by
    rcases hkind with rfl | rfl | rfl <;> rfl
  have hreads : recordsReads (KeyPolicy K kind) K = false := by
    rcases hkind with rfl | rfl | rfl <;> rfl
  have hw := within_insert hash policyCapacity capacity shards wheel graceNs ttiNs ops clock key
    entry (meetsRun_of_fitsRun hupdates hreads hf)
  exact ⟨hw.cost_eq, hw.cost_le⟩

/-- Three inserts into an LRU shard for ten units of cost, the last in place of the first. -/
theorem residentCost_lru_fits :
    let s := run id (newKeyed .lru 10 10 1 (.new 60 1 0) 0 0)
      [.insert 0 1 (plainEntry 4), .insert 0 2 (plainEntry 6)]
    let s' := (s.insert id 0 1 (plainEntry 9)).2
    s'.cost.toNat = s'.residentCost ∧ s'.residentCost ≤ s'.budget.toNat := by
  have h := residentCost_insert_updating_le id 10 10 1 (.new 60 1 0) 0 0 (.inl rfl)
    [.insert 0 1 (plainEntry 4), .insert 0 2 (plainEntry 6)] 0 1 (plainEntry 9)
    (by decide)
  exact h

/-- A cost three short of `2 ^ 64` on top of five wraps to two, and nothing is evicted. -/
theorem residentCost_lru_wraps :
    let s := run id (newKeyed .lru 10 10 1 (.new 60 1 0) 0 0) [.insert 0 1 (plainEntry 5)]
    let s' := (s.insert id 0 2 (plainEntry (0 - 3))).2
    ¬ s'.residentCost ≤ s'.budget.toNat := by
  decide

/-- Any key policy, FIFO, Clock and SLRU among them: the same, provided also that no insert gave an
entry a lower cost than the policy has recorded for its key and keeps, and that no read told SLRU
a higher one. -/
theorem residentCost_insert_keeping_le (kind : KeyKind) (ops : List (Op K V)) (clock : UInt64)
    (key : K) (entry : CacheEntry V)
    (hm : MeetsRun hash
      (newKeyed kind policyCapacity capacity shards wheel graceNs ttiNs :
        ShardMap K V (KeyPolicy K kind)) (ops ++ [.insert clock key entry])) :
    let s := run hash (newKeyed kind policyCapacity capacity shards wheel graceNs ttiNs :
      ShardMap K V (KeyPolicy K kind)) ops
    let s' := (s.insert hash clock key entry).2
    s'.cost.toNat = s'.residentCost ∧ s'.residentCost ≤ s'.budget.toNat := by
  have hw := within_insert hash policyCapacity capacity shards wheel graceNs ttiNs ops clock key
    entry hm
  exact ⟨hw.cost_eq, hw.cost_le⟩

/-- Three inserts into a FIFO shard for ten units of cost, the last in place of the second by a
larger entry. -/
theorem residentCost_fifo_fits :
    let s := run id (newKeyed .fifo 10 10 1 (.new 60 1 0) 0 0)
      [.insert 0 1 (plainEntry 4), .insert 0 2 (plainEntry 5)]
    let s' := (s.insert id 0 2 (plainEntry 8)).2
    s'.cost.toNat = s'.residentCost ∧ s'.residentCost ≤ s'.budget.toNat := by
  have h := residentCost_insert_keeping_le id 10 10 1 (.new 60 1 0) 0 0 .fifo
    [.insert 0 1 (plainEntry 4), .insert 0 2 (plainEntry 5)] 0 2 (plainEntry 8)
    (by decide)
  exact h

/-- An entry of cost nine is replaced by one of cost one, and FIFO keeps the nine. When room is
made for seven, that key alone is taken. -/
theorem residentCost_fifo_keeps :
    let s := run id (newKeyed .fifo 10 10 1 (.new 60 1 0) 0 0)
      [.insert 0 1 (plainEntry 9), .insert 0 1 (plainEntry 1), .insert 0 2 (plainEntry 8)]
    let s' := (s.insert id 0 3 (plainEntry 8)).2
    ¬ s'.residentCost ≤ s'.budget.toNat := by
  decide

end Bound

end Fibre.Cache.ShardMap
