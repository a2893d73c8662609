import Fibre.Ioc.Resolution
import Fibre.Math.Crew

/-!
# Singletons that are built once

The factory of a singleton is run by the call that has its cell, and by no other. When it has returned
the cell stays full and the factory is not run again, whatever the threads resolve and register, from
inside factories too. After a panic another call may run it.
-/

namespace Fibre.Ioc

open Machine Function Crew List

variable {K : Type*}

namespace Thread

/-- How many calls of the thread run the factory of the provider. -/
def builds (id : ℕ) (th : Thread K) : ℕ := th.visits.countP fun v => v.stage = .running id

/-- The calls of the thread know of the first `n` providers only. -/
def Below (n : ℕ) (th : Thread K) : Prop := ∀ v ∈ th.visits, ∀ id, v.provider = some id → id < n

theorem Below.mono {n m : ℕ} {th : Thread K} (h : th.Below n) (hle : n ≤ m) : th.Below m :=
  fun v hv id hid => (h v hv id hid).trans_le hle

end Thread

/-- How many calls have the cell. -/
def Cell.owners : Cell → ℕ
  | .initialising _ => 1
  | _ => 0

namespace System

variable {s s' : System K} {shard : K → ℕ} {t id : ℕ} {th th' : Thread K}

/-- How many calls run the factory of the provider. -/
def builders (s : System K) (id : ℕ) : ℕ := weigh (Thread.builds id) s.threads

/-- What is known of is registered, and the calls that run the factory of a singleton have its cell. -/
structure Once (s : System K) : Prop where
  low : ∀ k id, s.map k = some id → id < s.made
  below : ∀ th ∈ s.threads, th.Below s.made
  owned : ∀ id < s.made, s.provider id = .singleton → s.builders id = (s.cell id).owners

/-- What is registered stays, and a full cell stays full. -/
structure Keeps (s s' : System K) : Prop where
  made : s.made ≤ s'.made
  provider : ∀ id < s.made, s'.provider id = s.provider id
  full : ∀ id < s.made, s.provider id = .singleton → s.cell id = .full → s'.cell id = .full

/-- One thread moves, and nothing is registered. -/
theorem Once.move (h : s.Once) (ht : s.threads[t]? = some th)
    (hthreads : s'.threads = s.threads.set t th') (hmap : s'.map = s.map)
    (hprovider : s'.provider = s.provider) (hmade : s'.made = s.made) (hbelow : th'.Below s.made)
    (hcell : ∀ id < s.made, s.provider id = .singleton →
      th'.builds id + (s.cell id).owners = th.builds id + (s'.cell id).owners ∧
        (s.cell id = .full → s'.cell id = .full)) : s'.Once ∧ s.Keeps s' := by
  refine ⟨⟨by rw [hmap, hmade]; exact h.low, ?_, ?_⟩, hmade.ge, fun _ _ => by rw [hprovider],
    fun id hid hsingle => (hcell id hid hsingle).2⟩
  · rw [hthreads, hmade]
    intro x hx
    rcases mem_or_eq_of_mem_set hx with hx | rfl
    · exact h.below x hx
    · exact hbelow
  · rw [hmade, hprovider]
    intro id hid hsingle
    have hset := weigh_set (Thread.builds id) ht th'
    have howned := h.owned id hid hsingle
    have hchange := (hcell id hid hsingle).1
    unfold builders at howned ⊢
    rw [hthreads]
    omega

/-- A provider's cell changes hands, and the calls of the thread that run its factory with it. -/
theorem Once.turn (h : s.Once) (ht : s.threads[t]? = some th) (c : Cell) (hbelow : th'.Below s.made)
    (hbuilds : ∀ j, j ≠ id → th'.builds j = th.builds j)
    (hcell : id < s.made → s.provider id = .singleton → s.cell id ≠ .full ∧
      th'.builds id + (s.cell id).owners = th.builds id + c.owners) :
    ((s.setCell id c).setThread t th').Once ∧ s.Keeps ((s.setCell id c).setThread t th') := by
  have hframe : (s.setCell id c).threads = s.threads ∧ (s.setCell id c).map = s.map ∧
      (s.setCell id c).provider = s.provider ∧ (s.setCell id c).made = s.made := by
    unfold setCell
    split_ifs <;> exact ⟨rfl, rfl, rfl, rfl⟩
  obtain ⟨hthreads, hmap, hprovider, hmade⟩ := hframe
  refine h.move ht (by rw [setThread, hthreads]) hmap hprovider hmade hbelow fun j hj hsingle => ?_
  show _ = _ + ((s.setCell id c).cell j).owners ∧ (_ → (s.setCell id c).cell j = _)
  rcases eq_or_ne j id with rfl | hne
  · obtain ⟨hfull, heq⟩ := hcell hj hsingle
    simp only [setCell, if_pos hsingle, update_self]
    exact ⟨heq, fun h => absurd h hfull⟩
  · have hother : (s.setCell id c).cell j = s.cell j := by
      unfold setCell
      split_ifs
      · exact update_of_ne hne ..
      · rfl
    rw [hother, hbuilds j hne]
    exact ⟨rfl, fun hfull => hfull⟩

variable [DecidableEq K]

theorem Once.insert (h : s.Once) (ht : s.threads[t]? = some th) (k : K) {provider : Provider}
    {ready : Bool} (hthreads : s'.threads = s.threads.set t th') (hvisits : th'.visits = th.visits)
    (hmap : s'.map = update s.map k (some s.made))
    (hprovider : s'.provider = update s.provider s.made provider)
    (hcell : s'.cell = update s.cell s.made (if ready then .full else .empty))
    (hmade : s'.made = s.made + 1) : s'.Once ∧ s.Keeps s' := by
  have hbuilders : ∀ id, s'.builders id = s.builders id := by
    intro id
    have hset := weigh_set (Thread.builds id) ht th'
    rw [Thread.builds, Thread.builds, hvisits] at hset
    rw [builders, hthreads]
    exact Nat.add_right_cancel hset
  constructor
  · constructor
    · rw [hmap, hmade]
      intro k' id hid
      rw [update_apply] at hid
      split_ifs at hid
      · exact (Option.some.inj hid) ▸ Nat.lt_succ_self _
      · exact Nat.lt_succ_of_lt (h.low k' id hid)
    · rw [hthreads, hmade]
      intro x hx
      apply Thread.Below.mono _ (Nat.le_succ _)
      rcases mem_or_eq_of_mem_set hx with hx | rfl
      · exact h.below x hx
      · rw [Thread.Below, hvisits]
        exact h.below th (mem_of_getElem? ht)
    · rw [hmade, hprovider, hcell]
      intro id hid hsingle
      rw [hbuilders]
      rcases Nat.lt_succ_iff_lt_or_eq.mp hid with hid | rfl
      · rw [update_of_ne hid.ne] at hsingle ⊢
        exact h.owned id hid hsingle
      · -- no call knows of the provider yet
        have hzero : s.builders s.made = 0 := weigh_eq_zero fun x hx =>
          countP_eq_zero.mpr fun v hv hrun => by
            have hstage : v.stage = .running s.made := by simpa using hrun
            exact (h.below x hx v hv s.made (by rw [Visit.provider, hstage])).false
        rw [hzero, update_self]
        split_ifs <;> rfl
  · refine ⟨hmade ▸ Nat.le_succ _, fun id hid => ?_, fun id hid _ hfull => ?_⟩
    · rw [hprovider, update_of_ne hid.ne]
    · rw [hcell, update_of_ne hid.ne, hfull]

theorem Once.act (h : s.Once) (ht : s.threads[t]? = some th) {a : Action K}
    (hs : s.act shard t th a = some s') : s'.Once ∧ s.Keeps s' := by
  have hbelow := h.below th (mem_of_getElem? ht)
  -- the cells stay, and no call comes to run a factory or stops to
  have hstill : ∀ {x : Thread K} {u : System K}, u.threads = s.threads.set t x → u.map = s.map →
      u.provider = s.provider → u.made = s.made → u.cell = s.cell → x.Below s.made →
      (∀ id, x.builds id = th.builds id) → u.Once ∧ s.Keeps u := by
    intro x u hu hmap hprovider hmade hcell hx hbuilds
    refine h.move ht hu hmap hprovider hmade hx fun id _ _ => ?_
    rw [hcell, hbuilds]
    exact ⟨rfl, fun hfull => hfull⟩
  cases a with
  | spawn => cases hs
  | get _ k =>
    simp only [System.act] at hs
    split_ifs at hs <;> obtain rfl := Option.some.inj hs
    · exact ⟨⟨h.low, h.below, h.owned⟩, le_rfl, fun _ _ => rfl, fun _ _ _ hfull => hfull⟩
    · have hvisit : ∀ j, Visit.provider (⟨k, .looking⟩ : Visit K) = some j → j < s.made := by
        simp [Visit.provider]
      exact hstill rfl rfl rfl rfl rfl (forall_mem_cons.mpr ⟨hvisit, hbelow⟩) fun id => by
        simp [Thread.builds, Thread.enter]
  | look =>
    simp only [System.act] at hs
    split at hs
    next k rest hv =>
      rw [Thread.Below, hv, forall_mem_cons] at hbelow
      split_ifs at hs
      split at hs <;> obtain rfl := Option.some.inj hs
      · exact hstill rfl rfl rfl rfl rfl hbelow.2 fun id => by simp [Thread.builds, Thread.leave, hv]
      · next id hmap =>
        refine hstill rfl rfl rfl rfl rfl (forall_mem_cons.mpr ⟨fun j hj => ?_, hbelow.2⟩)
          fun j => by simp [Thread.builds, hv]
        exact Option.some.inj hj ▸ h.low k id hmap
    next => cases hs
  | ask =>
    simp only [System.act] at hs
    split at hs
    next k id rest hv =>
      rw [Thread.Below, hv, forall_mem_cons] at hbelow
      split at hs
      · obtain rfl := Option.some.inj hs
        exact hstill rfl rfl rfl rfl rfl hbelow.2 fun j => by simp [Thread.builds, Thread.leave, hv]
      · cases hs
      · next hfull hinit =>
        obtain rfl := Option.some.inj hs
        refine h.turn ht _ (forall_mem_cons.mpr hbelow) (fun j hj => ?_) fun _ hsingle => ?_
        · simp [Thread.builds, hv, hj.symm]
        · -- the cell was empty
          cases hc : s.cell id with
          | empty => simp [Thread.builds, Cell.owners, hv]
          | initialising u => exact absurd hc (hinit u hsingle)
          | full => exact absurd hc (hfull hsingle)
    next => cases hs
  | ret | unwind =>
    simp only [System.act] at hs
    split at hs
    next k id rest hr hv =>
      rw [Thread.Below, hv, forall_mem_cons] at hbelow
      obtain rfl := Option.some.inj hs
      refine h.turn ht _ hbelow.2 (fun j hj => ?_) fun hid hsingle => ?_
      · simp [Thread.builds, Thread.leave, hv, hj.symm]
      · -- the call has the cell
        have howned := h.owned id hid hsingle
        have hle := le_weigh (Thread.builds id) ht
        have hone : 0 < th.builds id := by simp [Thread.builds, hv]
        unfold builders at howned
        cases hc : s.cell id with
        | initialising u => simp [Thread.builds, Thread.leave, Cell.owners, hv]
        | empty | full =>
          simp only [hc, Cell.owners] at howned
          omega
    next => cases hs
  | register _ k provider ready =>
    simp only [System.act] at hs
    split_ifs at hs
    obtain rfl := Option.some.inj hs
    exact hstill rfl rfl rfl rfl rfl hbelow fun _ => rfl
  | lock =>
    simp only [System.act] at hs
    split at hs
    next =>
      split_ifs at hs
      obtain rfl := Option.some.inj hs
      exact hstill rfl rfl rfl rfl rfl hbelow fun _ => rfl
    next => cases hs
  | insert =>
    simp only [System.act] at hs
    split at hs
    next k provider ready hr =>
      obtain rfl := Option.some.inj hs
      exact h.insert ht k rfl rfl rfl rfl rfl rfl
    next => cases hs

theorem Once.step (h : s.Once) {a : Action K} (hs : step shard s a = some s') :
    s'.Once ∧ s.Keeps s' := by
  unfold System.step at hs
  split at hs
  · obtain rfl := Option.some.inj hs
    refine ⟨⟨h.low, forall_mem_append.mpr ⟨h.below, by simp [Thread.Below, Thread.idle]⟩,
      fun id hid hsingle => ?_⟩, le_rfl, fun _ _ => rfl, fun _ _ _ hfull => hfull⟩
    rw [builders, weigh_append_singleton]
    exact h.owned id hid hsingle
  · obtain ⟨th, ht, hact⟩ := Option.bind_eq_some_iff.mp hs
    exact h.act ht hact

/-- In every run at most one call at a time runs the factory of a singleton, and when the cell is full
it stays so and the factory is never run again. -/
theorem built_once (h : Reachable (step shard) init s) (h' : Reachable (step shard) s s')
    (hid : id < s.made) (hsingle : s.provider id = .singleton) :
    s.builders id ≤ 1 ∧
      (s.cell id = .full → s'.provider id = .singleton ∧ s'.cell id = .full ∧ s'.builders id = 0) := by
  have honce : s.Once := h.invariant ⟨nofun, nofun, nofun⟩ fun _ _ _ hs _ hstep => (hs.step hstep).1
  refine ⟨?_, fun hfull => ?_⟩
  · rw [honce.owned id hid hsingle]
    cases s.cell id <;> simp [Cell.owners]
  · obtain ⟨hs, hlow, hsingle, hfull⟩ : s'.Once ∧ id < s'.made ∧ s'.provider id = .singleton ∧
        s'.cell id = .full := by
      refine h'.invariant (I := fun u => u.Once ∧ id < u.made ∧ u.provider id = .singleton ∧
        u.cell id = .full) ⟨honce, hid, hsingle, hfull⟩ fun u v a hu _ hstep => ?_
      obtain ⟨hu, hid, hsingle, hfull⟩ := hu
      obtain ⟨hv, hkeeps⟩ := hu.step hstep
      exact ⟨hv, hid.trans_le hkeeps.made, (hkeeps.provider id hid).trans hsingle,
        hkeeps.full id hid hsingle hfull⟩
    refine ⟨hsingle, hfull, ?_⟩
    rw [hs.owned id hlow hsingle, hfull]
    rfl

/-- A thread has resolved the singleton. -/
theorem built_once_resolved : ∃ s : System ℕ, s.cell 0 = .full ∧ s.builders 0 ≤ 1 ∧
    (s.cell 0 = .full → s.provider 0 = .singleton ∧ s.cell 0 = .full ∧ s.builders 0 = 0) := by
  have hexec : (exec (System.step fun k => k) (fun _ _ => true) init
      ([Action.spawn] ++ registering 0 0 ++ getting 0 0 ++ [Action.ret 0])).map
        (fun s => (s.made, s.provider 0, s.cell 0)) = some (1, .singleton, .full) := by decide
  obtain ⟨s, hs, hstate⟩ := Option.map_eq_some_iff.mp hexec
  rw [Prod.mk.injEq, Prod.mk.injEq] at hstate
  obtain ⟨hmade, hsingle, hcell⟩ := hstate
  exact ⟨s, hcell, built_once (reachable_of_exec hs) (.refl s) (hmade ▸ Nat.one_pos) hsingle⟩

end System

end Fibre.Ioc
