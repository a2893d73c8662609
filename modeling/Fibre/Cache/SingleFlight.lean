import Fibre.Cache.Loads

/-!
# One load at a time

In every run at most one load of a key is in progress, no load is started twice, and nobody sleeps
on a load that has ended.
-/

namespace Fibre.Cache

open Function RefreshQueue Machine Option

variable {K V : Type*}

/-- The load is in progress: its loader has not returned, or it is still in the pending map. -/
def Runner.live : Runner V → Bool
  | none | loading | removing _ => true
  | _ => false

/-- The flag of the load is set. -/
def Runner.flagged : Runner V → Bool
  | trying | unlinking | dropped => true
  | _ => false

/-- The state and the flags of a load agree with its runner's place. -/
structure LoadFuture.Valid (f : LoadFuture K V) : Prop where
  runs : f.runs = if f.started then 1 else 0
  started : f.started = false ↔ f.runner = .none
  dropped : f.dropped = f.runner.flagged
  settled : f.state ≠ .computing → f.runner = .done ∨ f.runner.flagged
  done : f.runner = .done → f.state ≠ .computing
  result : ∀ r, f.runner = .removing r ∨ f.runner = .finishing r → r ≠ .computing

theorem LoadFuture.Valid.setRunner {f : LoadFuture K V} (h : f.Valid) {r : Runner V}
    (hstarted : f.runner ≠ .none) (hr : r ≠ .none) (hflagged : r.flagged = f.runner.flagged)
    (hrunning : f.runner ≠ .done) (hdone : r ≠ .done)
    (hresult : ∀ q, r = .removing q ∨ r = .finishing q → q ≠ .computing) :
    ({ f with runner := r } : LoadFuture K V).Valid where
  runs := h.runs
  started := by simp [hr, h.started, hstarted]
  dropped := h.dropped.trans hflagged.symm
  settled hstate := .inr (hflagged ▸ (h.settled hstate).resolve_left hrunning)
  done heq := absurd heq hdone
  result := hresult

theorem LoadFuture.Valid.finish {f : LoadFuture K V} (h : f.Valid) {r : Runner V}
    {state : LoadState V} (hstarted : f.runner ≠ .none) (hstate : state ≠ .computing)
    (hflagged : r.flagged = f.runner.flagged) (hr : r = .done ∨ r.flagged) :
    ({ f with state := state, waiters := [], runner := r } : LoadFuture K V).Valid where
  runs := h.runs
  started := by
    have hne : r ≠ .none := by
      rintro rfl
      simp [Runner.flagged] at hr
    simp [hne, h.started, hstarted]
  dropped := h.dropped.trans hflagged.symm
  settled _ := hr
  done _ := hstate
  result q hq := by
    rcases hr with rfl | hr
    · simp at hq
    · rcases hq with rfl | rfl <;> simp [Runner.flagged] at hr

namespace Caller

def holds (l : ℕ) : Caller V → Bool
  | reads l' | checks l' | joins l' => l = l'
  | _ => false

/-- What a caller's place says of the load it waits for. -/
def Fits (i : ℕ) (woken : Bool) (f : LoadFuture K V) : Caller V → Prop
  | reads _ => f.locked = some i
  | checks _ | joins _ => f.locked = some i ∧ f.state = .computing
  | rechecks _ | parked _ => woken ∨ i ∈ f.waiters ∧ f.state = .computing
  | returned _ outcome => f.state = outcome ∧ outcome ≠ .computing
  | _ => True

variable {c : Caller V} {i l : ℕ} {w w' : Bool} {f f' : LoadFuture K V}

attribute [local simp] holds busy about Fits

theorem about_of_holds (h : c.holds l) : c.about = some l := by
  cases c <;> simp_all

theorem busy_of_holds (h : c.holds l) : c.busy l := by
  cases c <;> simp_all

theorem about_of_busy (h : c.busy l) : c.about = some l := by
  cases c <;> simp_all

theorem Fits.unlocked (h : c.Fits i w f) (hlocked : f.locked ≠ some i) (hw : w → w')
    (hstate : f'.state = f.state) (hwaiters : ∀ j ∈ f.waiters, j ∈ f'.waiters) :
    c.Fits i w' f' := by
  cases c <;> simp_all
  all_goals exact h.imp hw fun h => ⟨hwaiters i h.1, h.2⟩

theorem Fits.finished (h : c.Fits i w f) (hlocked : f.locked ≠ some i)
    (hstate : f.state = .computing) (hw : w ∨ i ∈ f.waiters → w') : c.Fits i w' f' := by
  cases c with
  | reads | checks | joins => simp_all
  | rechecks | parked => exact .inl (hw (h.imp id And.left))
  | returned _ outcome =>
    obtain ⟨rfl, hout⟩ := h
    exact absurd hstate hout
  | _ => trivial

theorem Fits.congr (h : c.Fits i w f) (hw : w → w') (hstate : f'.state = f.state)
    (hwaiters : f'.waiters = f.waiters) (hlocked : f'.locked = f.locked) : c.Fits i w' f' := by
  cases c <;> simp_all
  all_goals exact h.imp_left hw

end Caller

namespace Loads

/-- The pending map has every load that is in progress, and only loads of the key. -/
structure Registered (s : Loads K V) : Prop where
  fresh : ∀ l, s.created ≤ l → s.load l = none
  valid : ∀ l f, s.load l = some f → f.Valid
  live : ∀ l f, s.load l = some f → f.runner.live → s.pending f.key = some l
  entry : ∀ k l, s.pending k = some l → ∃ f, s.load l = some f ∧ f.key = k

/-- The callers know the state of their loads, and a dropped load is about to be finished. -/
structure Attended (s : Loads K V) : Prop where
  fits : ∀ i l, (s.caller i).about = some l →
    ∃ f, s.load l = some f ∧ (s.caller i).Fits i (s.woken i) f
  held : ∀ i l f, s.load l = some f → f.locked = some i → (s.caller i).holds l
  watched : ∀ l f, s.load l = some f → f.dropped → f.state = .computing →
    f.runner = .trying ∨ ∃ i, (s.caller i).busy l

/-- A load on its way to the queue, in it, or received from it. -/
def Waits (s : Loads K V) (l : ℕ) : Prop :=
  (∃ i, s.caller i = .sends l) ∨ s.refreshes.Holds l

/-- What nobody has started yet is in the refresh queue. -/
structure Queued (limit : ℕ) (s : Loads K V) : Prop where
  queue : s.refreshes.Inv
  limited : s.refreshes.queue.limit = limit
  waits : ∀ l f, s.load l = some f → f.started = false → s.Waits l

/-- The promise to the callers. -/
structure SingleFlight [DecidableEq K] (limit : ℕ) (s : Loads K V) : Prop where
  /-- at most one load of a key is in progress -/
  single : ∀ l l' f f', s.load l = some f → s.load l' = some f' → f.key = f'.key →
    f.runner.live → f'.runner.live → l = l'
  /-- a load has one runner, or none and is in the queue -/
  claimed : ∀ l f, s.load l = some f → f.runs = 1 ∨ f.runs = 0 ∧ s.Waits l
  /-- a load stays in the queue only while others use all slots -/
  started : s.refreshes.AtRest → (∀ i l, s.caller i ≠ .sends l) → ∀ l f, s.load l = some f →
    f.runs = 0 → s.refreshes.loads.length = limit
  /-- a load that has ended has an outcome, once the callers that are busy with it have moved on;
  who sleeps on it is woken, and returns the outcome by its own steps -/
  released : ∀ l f, s.load l = some f → f.runner.ended → (∀ i, ¬ (s.caller i).busy l) →
    f.state ≠ .computing ∧ ∀ i, s.caller i = .parked l → s.woken i ∧
      ∃ t, Run step (fun _ a => a = .advance i) s t ∧ t.caller i = .returned l f.state
  /-- who returned has the outcome -/
  outcome : ∀ i l out, s.caller i = .returned l out →
    out ≠ .computing ∧ ∃ f, s.load l = some f ∧ f.state = out

variable {s t : Loads K V} {i l limit : ℕ} {f f' : LoadFuture K V} {c : Caller V}

/-! ### The pending map -/

theorem Registered.setLoad (h : s.Registered) (hl : s.load l = some f) (hkey : f'.key = f.key)
    (hvalid : f'.Valid) (hlive : f'.runner.live → f.runner.live) : (s.setLoad l f').Registered where
  fresh l' hl' := by
    have hne : l' ≠ l := by
      rintro rfl
      simp [h.fresh l' hl'] at hl
    simp [hne, h.fresh l' hl']
  valid l' g hg := by
    rcases eq_or_ne l' l with rfl | hne
    · obtain rfl : f' = g := by simpa using hg
      exact hvalid
    · exact h.valid l' g (by simpa [hne] using hg)
  live l' g hg hlive' := by
    rcases eq_or_ne l' l with rfl | hne
    · obtain rfl : f' = g := by simpa using hg
      simpa [hkey] using h.live l' f hl (hlive hlive')
    · simpa using h.live l' g (by simpa [hne] using hg) hlive'
  entry k l' hk := by
    obtain ⟨g, hg, hgk⟩ := h.entry k l' hk
    rcases eq_or_ne l' l with rfl | hne
    · obtain rfl : f = g := by simpa [hl] using hg
      exact ⟨f', by simp, hkey.trans hgk⟩
    · exact ⟨g, by simp [hne, hg], hgk⟩

theorem Registered.remove [DecidableEq K] (h : s.Registered) {key : K}
    (hkey : ∀ l f, s.load l = some f → f.key = key → ¬ f.runner.live) :
    ({ s with pending := update s.pending key none } : Loads K V).Registered where
  fresh := h.fresh
  valid := h.valid
  live l f hl hlive := by
    have hne : f.key ≠ key := fun heq => hkey l f hl heq hlive
    simpa [hne] using h.live l f hl hlive
  entry k l hk := by
    have hne : k ≠ key := by
      rintro rfl
      simp at hk
    exact h.entry k l (by simpa [hne] using hk)

theorem Registered.single (h : s.Registered) {l' : ℕ} (hl : s.load l = some f)
    (hl' : s.load l' = some f') (hkey : f.key = f'.key) (hf : f.runner.live)
    (hf' : f'.runner.live) : l = l' := by
  have h₁ := h.live l f hl hf
  have h₂ := h.live l' f' hl' hf'
  rw [hkey, h₂] at h₁
  exact (Option.some.inj h₁).symm

theorem Registered.not_live_of_current (h : s.Registered) {key : K} (hc : s.current key = none)
    (hl : s.load l = some f) (hkey : f.key = key) : ¬ f.runner.live := by
  intro hlive
  have hp := h.live l f hl hlive
  rw [hkey] at hp
  have hd : f.dropped = true := by simpa [current, hp, hl] using hc
  rw [(h.valid l f hl).dropped] at hd
  revert hlive hd
  cases f.runner <;> simp [Runner.live, Runner.flagged]

theorem Registered.not_live_of_moved (h : s.Registered) (hl : s.load l = some f)
    (hp : s.pending f.key = some l) (hf' : ¬ f'.runner.live) {l' : ℕ} {g : LoadFuture K V}
    (hg : (s.setLoad l f').load l' = some g) (hkey : g.key = f.key) : ¬ g.runner.live := by
  rcases eq_or_ne l' l with rfl | hne
  · obtain rfl : f' = g := by simpa using hg
    exact hf'
  · intro hlive
    have hp' := h.live l' g (by simpa [hne] using hg) hlive
    rw [hkey, hp] at hp'
    exact hne (Option.some.inj hp').symm

theorem Registered.register [DecidableEq K] (h : s.Registered) (hc : s.current f.key = none)
    (hvalid : f.Valid) : (s.register f).Registered where
  fresh l hl := by
    have hl : s.created + 1 ≤ l := hl
    have hne : l ≠ s.created := by omega
    simpa [hne] using h.fresh l (by omega)
  valid l g hg := by
    rcases eq_or_ne l s.created with rfl | hne
    · obtain rfl : f = g := by simpa using hg
      exact hvalid
    · exact h.valid l g (by simpa [hne] using hg)
  live l g hg hlive := by
    rcases eq_or_ne l s.created with rfl | hne
    · obtain rfl : f = g := by simpa using hg
      simp
    · have hg : s.load l = some g := by simpa [hne] using hg
      have hk : g.key ≠ f.key := fun heq => h.not_live_of_current hc hg heq hlive
      simpa [hk] using h.live l g hg hlive
  entry k l hk := by
    rcases eq_or_ne k f.key with rfl | hne
    · obtain rfl : s.created = l := by simpa using hk
      exact ⟨f, by simp, rfl⟩
    · obtain ⟨g, hg, hgk⟩ := h.entry k l (by simpa [hne] using hk)
      have hl : l ≠ s.created := by
        rintro rfl
        simp [h.fresh s.created le_rfl] at hg
      exact ⟨g, by simp [hl, hg], hgk⟩

/-! ### The callers -/

theorem Attended.change (h : s.Attended) (hl : s.load l = some f)
    (hload : t.load = update s.load l (some f'))
    (hcaller : ∀ j, (s.caller j).about ≠ some l → t.caller j = s.caller j)
    (habout : ∀ j l', (s.caller j).about = some l → (t.caller j).about = some l' → l' = l)
    (hwoken : ∀ j, (s.caller j).about ≠ some l → s.woken j → t.woken j)
    (hfits : ∀ j, (s.caller j).about = some l → (s.caller j).Fits j (s.woken j) f →
      (t.caller j).Fits j (t.woken j) f')
    (hheld : ∀ j, f'.locked = some j → (t.caller j).holds l)
    (hwatched : f'.dropped → f'.state = .computing →
      f'.runner = .trying ∨ ∃ i, (t.caller i).busy l) : t.Attended where
  fits j l' hj := by
    rw [hload]
    by_cases hold : (s.caller j).about = some l
    · obtain rfl := habout j l' hold hj
      obtain ⟨g, hg, hfit⟩ := h.fits j l' hold
      obtain rfl : f = g := by simpa [hl] using hg
      exact ⟨f', by simp, hfits j hold hfit⟩
    · rw [hcaller j hold] at hj ⊢
      obtain ⟨g, hg, hfit⟩ := h.fits j l' hj
      have hne : l' ≠ l := by
        rintro rfl
        exact hold hj
      exact ⟨g, by simp [hne, hg], hfit.congr (hwoken j hold) rfl rfl rfl⟩
  held j l' g hg hlock := by
    rw [hload] at hg
    rcases eq_or_ne l' l with rfl | hne
    · obtain rfl : f' = g := by simpa using hg
      exact hheld j hlock
    · have hholds := h.held j l' g (by simpa [hne] using hg) hlock
      have hother : (s.caller j).about ≠ some l := by
        rw [Caller.about_of_holds hholds]
        simpa using hne
      rwa [hcaller j hother]
  watched l' g hg hdropped hstate := by
    rw [hload] at hg
    rcases eq_or_ne l' l with rfl | hne
    · obtain rfl : f' = g := by simpa using hg
      exact hwatched hdropped hstate
    · refine (h.watched l' g (by simpa [hne] using hg) hdropped hstate).imp_right ?_
      rintro ⟨j, hbusy⟩
      have hother : (s.caller j).about ≠ some l := by
        rw [Caller.about_of_busy hbusy]
        simpa using hne
      exact ⟨j, by rwa [hcaller j hother]⟩

theorem Attended.runner (h : s.Attended) (hl : s.load l = some f)
    (hload : t.load = update s.load l (some f')) (hcaller : t.caller = s.caller)
    (hwoken : ∀ j, s.woken j → t.woken j)
    (hfits : ∀ j, (s.caller j).Fits j (s.woken j) f → (s.caller j).Fits j (t.woken j) f')
    (hlocked : f'.locked = f.locked)
    (hwatched : f'.dropped → f'.state = .computing →
      f'.runner = .trying ∨ ∃ i, (s.caller i).busy l) : t.Attended := by
  refine h.change hl hload (fun j _ => by rw [hcaller]) ?_ (fun j _ => hwoken j) ?_ ?_ ?_
  · intro j l' hj hj'
    rw [hcaller, hj] at hj'
    exact (Option.some.inj hj').symm
  · intro j _ hfit
    rw [hcaller]
    exact hfits j hfit
  · intro j hj
    rw [hcaller]
    exact h.held j l f hl (hlocked ▸ hj)
  · rwa [hcaller]

theorem Attended.waiter (h : s.Attended) (hl : s.load l = some f)
    (hi : (s.caller i).about = some l) (hload : t.load = update s.load l (some f'))
    (hcaller : t.caller = update s.caller i c) (habout : ∀ l', c.about = some l' → l' = l)
    (hwoken : ∀ j, j ≠ i → s.woken j → t.woken j)
    (hfits : ∀ j, j ≠ i → (s.caller j).Fits j (s.woken j) f →
      (s.caller j).Fits j (t.woken j) f')
    (hown : c.Fits i (t.woken i) f')
    (hheld : ∀ j, j ≠ i → f'.locked = some j → f.locked = some j)
    (hholds : f'.locked = some i → c.holds l)
    (hwatched : f'.dropped → f'.state = .computing →
      f'.runner = .trying ∨ ∃ j, (t.caller j).busy l) : t.Attended := by
  have hne : ∀ j, (s.caller j).about ≠ some l → j ≠ i := by
    rintro j hj rfl
    exact hj hi
  refine h.change hl hload ?_ ?_ (fun j hj => hwoken j (hne j hj)) ?_ ?_ hwatched
  · intro j hj
    simp [hcaller, hne j hj]
  · intro j l' hj hj'
    rcases eq_or_ne j i with rfl | hji
    · exact habout l' (by simpa [hcaller] using hj')
    · rw [hcaller, update_of_ne hji, hj] at hj'
      exact (Option.some.inj hj').symm
  · intro j _ hfit
    rcases eq_or_ne j i with rfl | hji
    · simpa [hcaller] using hown
    · simpa [hcaller, hji] using hfits j hji hfit
  · intro j hj
    rcases eq_or_ne j i with rfl | hji
    · simpa [hcaller] using hholds hj
    · simpa [hcaller, hji] using h.held j l f hl (hheld j hji hj)

theorem wait_reads (h : f.state ≠ .computing) {l' : ℕ} : s.wait i l f (.reads l') =
    some ((s.setLoad l { f with locked := none }).setCaller i (.returned l f.state)) := by
  cases hs : f.state with
  | computing => exact absurd hs h
  | complete | panicked | dropped => simp [Loads.wait, hs]

theorem locked_ne {j : ℕ} (hlocked : f.locked = none ∨ f.locked = some i) (hj : j ≠ i) :
    f.locked ≠ some j := by
  rcases hlocked with hlocked | hlocked <;> simp [hlocked, hj.symm]

theorem Attended.watched_of_busy (h : s.Attended) (hl : s.load l = some f)
    (hc : (s.caller i).busy l → c.busy l) (hdropped : f.dropped) (hstate : f.state = .computing) :
    f.runner = .trying ∨ ∃ j, (update s.caller i c j).busy l := by
  refine (h.watched l f hl hdropped hstate).imp_right ?_
  rintro ⟨j, hj⟩
  rcases eq_or_ne j i with rfl | hji
  · exact ⟨j, by simpa using hc hj⟩
  · exact ⟨j, by simpa [hji] using hj⟩

theorem Attended.wait (h : s.Attended) (hv : f.Valid) (hl : s.load l = some f)
    (hi : (s.caller i).about = some l) (hstep : s.wait i l f (s.caller i) = some t) :
    t.Attended := by
  obtain ⟨g, hg, hfit⟩ := h.fits i l hi
  obtain rfl : f = g := by simpa [hl] using hg
  have hself : s.load = update s.load l (some f) := by rw [← hl, update_eq_self]
  cases hc : s.caller i with
  | locks l' =>
    simp only [hc, Loads.wait] at hstep
    split_ifs at hstep with hlocked
    obtain rfl : _ = t := Option.some.inj hstep
    refine h.waiter hl hi rfl rfl (by simp [Caller.about]) (fun _ _ => id) ?_ rfl ?_
      (fun _ => by simp [Caller.holds]) ?_
    · intro j hj hfit
      exact hfit.unlocked (by simp [hlocked]) id rfl fun _ => id
    · intro j hj heq
      exact absurd (Option.some.inj heq).symm hj
    · intro hdropped hstate
      have hw := h.watched_of_busy (i := i) (c := .reads l) hl (fun _ => by simp [Caller.busy])
        hdropped hstate
      exact hw
  | reads l' =>
    have hlocked : f.locked = some i := by simpa [hc, Caller.Fits] using hfit
    have hother : ∀ j, j ≠ i → f.locked ≠ some j := fun j => locked_ne (.inr hlocked)
    by_cases hcomputing : f.state = .computing
    · simp only [hc, Loads.wait, hcomputing] at hstep
      obtain rfl : _ = t := Option.some.inj hstep
      refine h.waiter hl hi hself rfl (by simp [Caller.about]) (fun _ _ => id) (fun _ _ => id)
        ⟨hlocked, hcomputing⟩ (fun _ _ => id) (fun _ => by simp [Caller.holds]) ?_
      exact h.watched_of_busy hl fun _ => by simp [Caller.busy]
    · rw [hc, wait_reads hcomputing] at hstep
      obtain rfl : _ = t := Option.some.inj hstep
      refine h.waiter hl hi rfl rfl (by simp [Caller.about]) (fun _ _ => id) ?_
        ⟨rfl, hcomputing⟩ (fun _ _ => by simp) (by simp) ?_
      · intro j hj hfit
        exact hfit.unlocked (hother j hj) id rfl fun _ => id
      · intro _ hstate
        exact absurd hstate hcomputing
  | checks l' =>
    have ⟨hlocked, hcomputing⟩ : f.locked = some i ∧ f.state = .computing := by
      simpa [hc, Caller.Fits] using hfit
    simp only [hc, Loads.wait] at hstep
    split_ifs at hstep with hdropped
    · -- it finishes the load for the task that was dropped
      obtain rfl : _ = t := Option.some.inj hstep
      refine h.waiter hl hi rfl rfl (by simp [Caller.about]) ?_ ?_ hlocked (fun _ _ => id)
        (fun _ => by simp [Caller.holds]) (by simp)
      · intro j _ hj
        simp [hj]
      · intro j hj hfit
        exact hfit.finished (locked_ne (.inr hlocked) hj) hcomputing (by simp)
    · obtain rfl : _ = t := Option.some.inj hstep
      exact h.waiter hl hi hself rfl (by simp [Caller.about]) (fun _ _ => id) (fun _ _ => id)
        ⟨hlocked, hcomputing⟩ (fun _ _ => id) (fun _ => by simp [Caller.holds])
        (fun hd => absurd hd hdropped)
  | joins l' =>
    have ⟨hlocked, hcomputing⟩ : f.locked = some i ∧ f.state = .computing := by
      simpa [hc, Caller.Fits] using hfit
    simp only [hc, Loads.wait] at hstep
    obtain rfl : _ = t := Option.some.inj hstep
    refine h.waiter hl hi rfl rfl (by simp [Caller.about]) (fun _ _ => id) ?_ (.inr ?_)
      (fun _ _ => by simp) (by simp) ?_
    · intro j hj hfit
      exact hfit.unlocked (locked_ne (.inr hlocked) hj) id rfl
        fun _ hk => List.mem_append_left _ hk
    · exact ⟨by simp, hcomputing⟩
    · intro hdropped hstate
      have hw := h.watched_of_busy (i := i) (c := .rechecks l) hl (fun _ => by simp [Caller.busy])
        hdropped hstate
      exact hw
  | rechecks l' =>
    simp only [hc, Loads.wait] at hstep
    obtain rfl : _ = t := Option.some.inj hstep
    have hasleep : s.woken i ∨ i ∈ f.waiters ∧ f.state = .computing := by
      simpa [hc, Caller.Fits] using hfit
    have hlocked : f.locked ≠ some i := fun heq => by
      simpa [hc, Caller.holds] using h.held i l f hl heq
    by_cases hdropped : f.dropped
    · simp only [hdropped, if_true]
      exact h.waiter hl hi hself rfl (by simp [Caller.about]) (fun _ _ => id) (fun _ _ => id)
        trivial (fun _ _ => id) (fun heq => absurd heq hlocked)
        (h.watched_of_busy hl fun _ => by simp [Caller.busy])
    · simp only [hdropped]
      exact h.waiter hl hi hself rfl (by simp [Caller.about]) (fun _ _ => id) (fun _ _ => id)
        hasleep (fun _ _ => id) (fun heq => absurd heq hlocked) (fun hd => absurd hd hdropped)
  | parked l' =>
    simp only [hc, Loads.wait] at hstep
    obtain rfl : _ = t := Option.some.inj hstep
    have hlocked : f.locked ≠ some i := fun heq => by
      simpa [hc, Caller.holds] using h.held i l f hl heq
    refine h.waiter hl hi hself rfl (by simp [Caller.about]) ?_ ?_ trivial (fun _ _ => id)
      (fun heq => absurd heq hlocked) (h.watched_of_busy hl fun _ => by simp [Caller.busy])
    · intro j hj hw
      simpa [hj] using hw
    · intro j hj hfit
      simpa [hj] using hfit
  | leads l' =>
    have hlocked : f.locked ≠ some i := fun heq => by
      simpa [hc, Caller.holds] using h.held i l f hl heq
    simp only [hc, Loads.wait] at hstep
    split at hstep
    · next hdone =>
      obtain rfl : _ = t := Option.some.inj hstep
      exact h.waiter hl hi hself rfl (by simp [Caller.about]) (fun _ _ => id) (fun _ _ => id)
        ⟨rfl, hv.done hdone⟩ (fun _ _ => id) (fun heq => absurd heq hlocked)
        (h.watched_of_busy hl fun hb => by simp [hc, Caller.busy] at hb)
    · simp at hstep
  | fresh | sends | served | claims | returned | reentered => simp [hc, Loads.wait] at hstep

theorem Attended.setCaller (h : s.Attended) (hfree : ∀ l, ¬ (s.caller i).busy l)
    (hc : ∀ l, c.about = some l → ∃ f, s.load l = some f ∧ c.Fits i (s.woken i) f) :
    (s.setCaller i c).Attended where
  fits j l hj := by
    rcases eq_or_ne j i with rfl | hji
    · simpa using hc l (by simpa using hj)
    · simpa [hji] using h.fits j l (by simpa [hji] using hj)
  held j l f hl hlock := by
    have hholds := h.held j l f hl hlock
    have hji : j ≠ i := by
      rintro rfl
      exact hfree l (Caller.busy_of_holds hholds)
    simpa [hji] using hholds
  watched l f hl hdropped hstate := by
    refine (h.watched l f hl hdropped hstate).imp_right ?_
    rintro ⟨j, hj⟩
    have hji : j ≠ i := by
      rintro rfl
      exact hfree l hj
    exact ⟨j, by simpa [hji] using hj⟩

theorem Attended.register [DecidableEq K] (h : s.Attended) (hr : s.Registered)
    (hlocked : f.locked = none) (hdropped : f.dropped = false) : (s.register f).Attended := by
  have hnew : s.load s.created = none := hr.fresh s.created le_rfl
  refine ⟨fun j l hj => ?_, fun j l g hg hlock => ?_, fun l g hg hd hstate => ?_⟩
  · obtain ⟨g, hg, hfit⟩ := h.fits j l hj
    have hne : l ≠ s.created := by
      rintro rfl
      simp [hnew] at hg
    exact ⟨g, by simpa [hne] using hg, hfit⟩
  · rcases eq_or_ne l s.created with rfl | hne
    · obtain rfl : f = g := by simpa using hg
      simp [hlocked] at hlock
    · exact h.held j l g (by simpa [hne] using hg) hlock
  · rcases eq_or_ne l s.created with rfl | hne
    · obtain rfl : f = g := by simpa using hg
      simp [hdropped] at hd
    · exact h.watched l g (by simpa [hne] using hg) hd hstate

/-! ### The refresh queue -/

/-- Who sends is not disturbed, nothing unstarted leaves the queue, and nothing new is
unstarted. -/
theorem Queued.change (h : s.Queued limit) (hqueue : t.refreshes.Inv)
    (hlimited : t.refreshes.queue.limit = limit)
    (hsends : ∀ j l, s.caller j = .sends l → t.caller j = .sends l)
    (hstarted : ∀ l f', t.load l = some f' → f'.started = false →
      ∃ f, s.load l = some f ∧ f.started = false)
    (hholds : ∀ l f', t.load l = some f' → f'.started = false → s.refreshes.Holds l →
      t.refreshes.Holds l) : t.Queued limit where
  queue := hqueue
  limited := hlimited
  waits l f' hl hf' := by
    obtain ⟨f, hf, hfs⟩ := hstarted l f' hl hf'
    refine (h.waits l f hf hfs).imp ?_ (hholds l f' hl hf')
    rintro ⟨j, hj⟩
    exact ⟨j, hsends j l hj⟩

theorem Queued.frame (h : s.Queued limit) (hqueue : t.refreshes = s.refreshes)
    (hsends : ∀ j l, s.caller j = .sends l → t.caller j = .sends l)
    (hstarted : ∀ l f', t.load l = some f' → f'.started = false →
      ∃ f, s.load l = some f ∧ f.started = false) : t.Queued limit :=
  h.change (hqueue ▸ h.queue) (hqueue ▸ h.limited) hsends hstarted fun _ _ _ _ => hqueue ▸ id

theorem unstarted_of_update (hl : s.load l = some f) (hload : t.load = update s.load l (some f'))
    (hf' : f'.started = false → f.started = false) {l' : ℕ} {g : LoadFuture K V}
    (hg : t.load l' = some g) (hgs : g.started = false) :
    ∃ g, s.load l' = some g ∧ g.started = false := by
  rw [hload] at hg
  rcases eq_or_ne l' l with rfl | hne
  · obtain rfl : f' = g := by simpa using hg
    exact ⟨f, hl, hf' hgs⟩
  · exact ⟨g, by simpa [hne] using hg, hgs⟩

/-! ### Every step -/

/-- The invariant of every run. -/
structure Inv (limit : ℕ) (s : Loads K V) : Prop where
  registered : s.Registered
  attended : s.Attended
  queued : s.Queued limit

theorem inv_init (limit : ℕ) : (init limit : Loads K V).Inv limit where
  registered := ⟨fun _ _ => rfl, by simp [init], by simp [init], by simp [init]⟩
  attended := ⟨by simp [init, Caller.about], by simp [init], by simp [init]⟩
  queued := ⟨RefreshQueue.System.inv_init limit, rfl, by simp [init]⟩

theorem Inv.setPendingLock (h : s.Inv limit) (lock : K → Option ℕ) :
    ({ s with pendingLock := lock } : Loads K V).Inv limit :=
  ⟨⟨h.registered.fresh, h.registered.valid, h.registered.live, h.registered.entry⟩,
    ⟨h.attended.fits, h.attended.held, h.attended.watched⟩,
    ⟨h.queued.queue, h.queued.limited, h.queued.waits⟩⟩

theorem Inv.setLoad (h : s.Inv limit) (hl : s.load l = some f) {woken : ℕ → Bool}
    (hkey : f'.key = f.key) (hstarted : f'.started = false → f.started = false)
    (hlocked : f'.locked = f.locked) (hvalid : f'.Valid)
    (hlive : f'.runner.live → f.runner.live) (hwoken : ∀ j, s.woken j → woken j)
    (hfits : ∀ j, (s.caller j).Fits j (s.woken j) f → (s.caller j).Fits j (woken j) f')
    (hwatched : f'.dropped → f'.state = .computing →
      f'.runner = .trying ∨ ∃ i, (s.caller i).busy l) :
    ({ s.setLoad l f' with woken := woken } : Loads K V).Inv limit where
  registered :=
    have hr := h.registered.setLoad hl hkey hvalid hlive
    ⟨hr.fresh, hr.valid, hr.live, hr.entry⟩
  attended := h.attended.runner hl rfl rfl hwoken hfits hlocked hwatched
  queued := h.queued.frame rfl (fun _ _ => id) fun _ _ => unstarted_of_update hl rfl hstarted

theorem Inv.setRunner (h : s.Inv limit) (hl : s.load l = some f) (r : Runner V)
    (hvalid : ({ f with runner := r } : LoadFuture K V).Valid) (hlive : r.live → f.runner.live)
    (hwatched : f.dropped → f.state = .computing → r = .trying ∨ ∃ i, (s.caller i).busy l) :
    (s.setLoad l { f with runner := r }).Inv limit :=
  h.setLoad hl rfl id rfl hvalid hlive (fun _ => id) (fun _ hfit => hfit.congr id rfl rfl rfl)
    hwatched

theorem Inv.finishLoad (h : s.Inv limit) (hl : s.load l = some f) {r : Runner V}
    {state : LoadState V} (hlocked : f.locked = none) (hcomputing : f.state = .computing)
    (hstate : state ≠ .computing)
    (hvalid : ({ f with state := state, waiters := [], runner := r } : LoadFuture K V).Valid)
    (hlive : r.live → f.runner.live) :
    (s.finishLoad l { f with runner := r } state).Inv limit := by
  refine h.setLoad hl rfl id rfl hvalid hlive ?_ ?_ fun _ heq => absurd heq hstate
  · intro j hj
    simp [hj]
  · intro j hfit
    exact hfit.finished (by simp [hlocked]) hcomputing (by simp)

theorem Inv.removeKey [DecidableEq K] (h : s.Inv limit) {key : K}
    (hkey : ∀ l f, s.load l = some f → f.key = key → ¬ f.runner.live) :
    ({ s with pending := update s.pending key none } : Loads K V).Inv limit where
  registered := h.registered.remove hkey
  attended := ⟨h.attended.fits, h.attended.held, h.attended.watched⟩
  queued := ⟨h.queued.queue, h.queued.limited, h.queued.waits⟩

theorem Inv.setCaller (h : s.Inv limit) (hfree : ∀ l, ¬ (s.caller i).busy l)
    (hsends : ∀ l, s.caller i ≠ .sends l)
    (hc : ∀ l, c.about = some l → ∃ f, s.load l = some f ∧ c.Fits i (s.woken i) f) :
    (s.setCaller i c).Inv limit where
  registered := ⟨h.registered.fresh, h.registered.valid, h.registered.live, h.registered.entry⟩
  attended := h.attended.setCaller hfree hc
  queued := by
    refine h.queued.frame rfl ?_ fun _ f' hf' hs => ⟨f', hf', hs⟩
    intro j l hj
    have hji : j ≠ i := by
      rintro rfl
      exact hsends l hj
    simpa [hji] using hj

theorem Inv.run [DecidableEq K] (h : s.Inv limit) (hl : s.load l = some f) {a : RunnerAction V}
    (hstep : s.run l f a = some t) : t.Inv limit := by
  have hv := h.registered.valid l f hl
  have hcomputing : f.runner ≠ .done → f.runner.flagged = false → f.state = .computing := by
    intro hdone hflagged
    by_contra hstate
    rcases hv.settled hstate with hr | hr
    · exact hdone hr
    · simp [hflagged] at hr
  have hdropped : f.runner.flagged = false → ¬ f.dropped := by
    intro hflagged
    simp [hv.dropped, hflagged]
  have hkeep := h.attended.watched l f hl
  cases a with
  | loaded result =>
    simp only [Loads.run] at hstep
    split at hstep
    · next hr =>
      obtain rfl : _ = t := Option.some.inj hstep
      refine h.setRunner hl _ ?_ (by simp [hr, Runner.live])
        fun hd => absurd hd (hdropped (by simp [hr, Runner.flagged]))
      refine hv.setRunner (by simp [hr]) (by simp) (by simp [hr, Runner.flagged]) (by simp [hr])
        (by simp) ?_
      cases result <;> simp
    · simp at hstep
  | remove =>
    simp only [Loads.run] at hstep
    split at hstep
    · next result hr _ =>
      obtain rfl : _ = t := Option.some.inj hstep
      have hresult := hv.result result (.inl hr)
      have hp := h.registered.live l f hl (by simp [hr, Runner.live])
      have hmoved := h.setRunner hl (.finishing result)
        (hv.setRunner (by simp [hr]) (by simp) (by simp [hr, Runner.flagged]) (by simp [hr])
          (by simp) (by simpa using hresult)) (by simp [Runner.live])
        fun hd => absurd hd (hdropped (by simp [hr, Runner.flagged]))
      exact hmoved.removeKey fun l' g =>
        h.registered.not_live_of_moved hl hp (by simp [Runner.live])
    · simp at hstep
  | finish =>
    simp only [Loads.run] at hstep
    split at hstep
    · next result hr hlocked =>
      obtain rfl : _ = t := Option.some.inj hstep
      have hresult := hv.result result (.inr hr)
      refine h.finishLoad hl hlocked ?_ hresult ?_ (by simp [Runner.live])
      · exact hcomputing (by simp [hr]) (by simp [hr, Runner.flagged])
      · exact hv.finish (by simp [hr]) hresult (by simp [hr, Runner.flagged]) (.inl rfl)
    · simp at hstep
  | dropTask =>
    have hmark : f.runner = .loading ∨ (∃ r, f.runner = .removing r) ∨
        (∃ r, f.runner = .finishing r) → (s.setLoad l { f with runner := .marking }).Inv limit := by
      intro hr
      have hflagged : f.runner.flagged = false := by
        rcases hr with hr | ⟨r, hr⟩ | ⟨r, hr⟩ <;> simp [hr, Runner.flagged]
      refine h.setRunner hl _ (hv.setRunner ?_ (by simp) hflagged.symm ?_ (by simp) (by simp))
        (by simp [Runner.live]) fun hd => absurd hd (hdropped hflagged)
      all_goals rcases hr with hr | ⟨r, hr⟩ | ⟨r, hr⟩ <;> simp [hr]
    simp only [Loads.run] at hstep
    split at hstep
    · next _ hr =>
      obtain rfl : _ = t := Option.some.inj hstep
      exact hmark (.inl hr)
    · next r _ hr =>
      obtain rfl : _ = t := Option.some.inj hstep
      exact hmark (.inr (.inl ⟨r, hr⟩))
    · next r _ hr =>
      obtain rfl : _ = t := Option.some.inj hstep
      exact hmark (.inr (.inr ⟨r, hr⟩))
    · simp at hstep
  | mark =>
    simp only [Loads.run] at hstep
    split at hstep
    · next hr =>
      obtain rfl : _ = t := Option.some.inj hstep
      refine h.setLoad hl rfl id rfl ?_ (by simp [Runner.live]) (fun _ => id)
        (fun _ hfit => hfit.congr id rfl rfl rfl) fun _ _ => .inl rfl
      refine ⟨hv.runs, ?_, rfl, fun _ => .inr rfl, by simp, by simp⟩
      simp [hv.started, hr]
    · simp at hstep
  | tryFinish busy =>
    cases busy with
    | some i =>
      simp only [Loads.run] at hstep
      split at hstep
      · next hr =>
        split_ifs at hstep with hbusy
        obtain rfl : _ = t := Option.some.inj hstep
        refine h.setRunner hl _ (hv.setRunner ?_ (by simp) ?_ ?_ (by simp) (by simp))
          (by simp [Runner.live]) fun _ _ => .inr ⟨i, hbusy⟩
        all_goals simp [hr, Runner.flagged]
      · simp at hstep
    | none =>
      simp only [Loads.run] at hstep
      split at hstep
      · next hr hlocked hstate =>
        obtain rfl : _ = t := Option.some.inj hstep
        refine h.finishLoad hl hlocked hstate (by simp) (hv.finish ?_ (by simp) ?_ (.inr rfl))
          (by simp [Runner.live])
        all_goals simp [hr, Runner.flagged]
      · next hr _ hstate =>
        obtain rfl : _ = t := Option.some.inj hstep
        refine h.setRunner hl _ (hv.setRunner ?_ (by simp) ?_ ?_ (by simp) (by simp))
          (by simp [Runner.live]) fun _ hcomp => absurd hcomp hstate
        all_goals simp [hr, Runner.flagged]
      · simp at hstep
  | unlink held =>
    have hunlink : f.runner = .unlinking →
        (s.setLoad l { f with runner := .dropped }).Inv limit := by
      intro hr
      refine h.setRunner hl _ (hv.setRunner ?_ (by simp) ?_ ?_ (by simp) (by simp))
        (by simp [Runner.live]) fun hd hstate => (hkeep hd hstate).imp (by simp [hr]) id
      all_goals simp [hr, Runner.flagged]
    cases held with
    | true =>
      simp only [Loads.run] at hstep
      split at hstep
      · next hr =>
        obtain rfl : _ = t := Option.some.inj hstep
        exact hunlink hr
      · simp at hstep
    | false =>
      simp only [Loads.run] at hstep
      split at hstep
      · next hr _ =>
        obtain rfl : _ = t := Option.some.inj hstep
        have hmoved := hunlink hr
        split_ifs with hp
        · exact hmoved.removeKey fun l' g =>
            h.registered.not_live_of_moved hl hp (by simp [Runner.live])
        · exact hmoved
      · simp at hstep

theorem wait_frame (hv : f.Valid) (hl : s.load l = some f)
    (hi : (s.caller i).about = some l) (hstep : s.wait i l f (s.caller i) = some t) :
    t.pending = s.pending ∧ t.created = s.created ∧ t.refreshes = s.refreshes ∧
      (∀ j l', s.caller j = .sends l' → t.caller j = .sends l') ∧
      ∃ f', t.load = update s.load l (some f') ∧ f'.key = f.key ∧ f'.runner = f.runner ∧
        f'.started = f.started ∧ f'.Valid := by
  have hself : s.load = update s.load l (some f) := by rw [← hl, update_eq_self]
  have hlock (o : Option ℕ) (ws : List ℕ) :
      ({ f with locked := o, waiters := ws } : LoadFuture K V).Valid :=
    ⟨hv.runs, hv.started, hv.dropped, hv.settled, hv.done, hv.result⟩
  have hsends (c : Caller V) (j l' : ℕ) (hne : ∀ l, s.caller i ≠ .sends l)
      (hj : s.caller j = .sends l') : update s.caller i c j = .sends l' := by
    have hji : j ≠ i := by
      rintro rfl
      exact hne l' hj
    simpa [hji] using hj
  cases hc : s.caller i with
  | locks l' =>
    simp only [hc, Loads.wait] at hstep
    split_ifs at hstep
    obtain rfl : _ = t := Option.some.inj hstep
    exact ⟨rfl, rfl, rfl, fun j l' => hsends _ j l' (by simp [hc]), _, rfl, rfl, rfl, rfl,
      hlock _ _⟩
  | reads l' =>
    by_cases hcomputing : f.state = .computing
    · simp only [hc, Loads.wait, hcomputing] at hstep
      obtain rfl : _ = t := Option.some.inj hstep
      exact ⟨rfl, rfl, rfl, fun j l' => hsends _ j l' (by simp [hc]), _, hself, rfl, rfl, rfl, hv⟩
    · rw [hc, wait_reads hcomputing] at hstep
      obtain rfl : _ = t := Option.some.inj hstep
      exact ⟨rfl, rfl, rfl, fun j l' => hsends _ j l' (by simp [hc]), _, rfl, rfl, rfl, rfl,
        hlock _ _⟩
  | checks l' =>
    simp only [hc, Loads.wait] at hstep
    split_ifs at hstep with hdropped
    · obtain rfl : _ = t := Option.some.inj hstep
      have hflagged : f.runner.flagged := hv.dropped ▸ hdropped
      refine ⟨rfl, rfl, rfl, fun j l' => hsends _ j l' (by simp [hc]), _, rfl, rfl, rfl, rfl, ?_⟩
      refine hv.finish ?_ (by simp) rfl (.inr hflagged)
      intro hr
      simp [hr, Runner.flagged] at hflagged
    · obtain rfl : _ = t := Option.some.inj hstep
      exact ⟨rfl, rfl, rfl, fun j l' => hsends _ j l' (by simp [hc]), _, hself, rfl, rfl, rfl, hv⟩
  | joins l' =>
    simp only [hc, Loads.wait] at hstep
    obtain rfl : _ = t := Option.some.inj hstep
    exact ⟨rfl, rfl, rfl, fun j l' => hsends _ j l' (by simp [hc]), _, rfl, rfl, rfl, rfl,
      hlock _ _⟩
  | rechecks l' | parked l' =>
    simp only [hc, Loads.wait] at hstep
    obtain rfl : _ = t := Option.some.inj hstep
    exact ⟨rfl, rfl, rfl, fun j l' => hsends _ j l' (by simp [hc]), _, hself, rfl, rfl, rfl, hv⟩
  | leads l' =>
    simp only [hc, Loads.wait] at hstep
    split at hstep
    · obtain rfl : _ = t := Option.some.inj hstep
      exact ⟨rfl, rfl, rfl, fun j l' => hsends _ j l' (by simp [hc]), _, hself, rfl, rfl, rfl, hv⟩
    · simp at hstep
  | fresh | sends | served | claims | returned | reentered => simp [hc, Loads.wait] at hstep

theorem Inv.wait (h : s.Inv limit) (hl : s.load l = some f)
    (hi : (s.caller i).about = some l) (hstep : s.wait i l f (s.caller i) = some t) :
    t.Inv limit := by
  have hv := h.registered.valid l f hl
  obtain ⟨hp, hcr, hq, hsends, f', hload, hkey, hrunner, hstarted, hvalid⟩ :=
    wait_frame hv hl hi hstep
  have hr := h.registered.setLoad hl hkey hvalid (hrunner ▸ id)
  refine ⟨⟨?_, ?_, ?_, ?_⟩, h.attended.wait hv hl hi hstep, ?_⟩
  · simpa [hcr, hload] using hr.fresh
  · simpa [hload] using hr.valid
  · simpa [hp, hload] using hr.live
  · simpa [hp, hload] using hr.entry
  · exact h.queued.frame hq hsends fun _ _ => unstarted_of_update hl hload (hstarted ▸ id)

theorem queued_valid (key : K) : (LoadFuture.queued key : LoadFuture K V).Valid :=
  ⟨rfl, by simp [LoadFuture.queued], rfl, fun h => absurd rfl h, by simp [LoadFuture.queued],
    by simp [LoadFuture.queued]⟩

theorem start_valid (hv : f.Valid) (hf : f.started = false) (task : Bool) :
    (f.start task).Valid where
  runs := by simp [hv.runs, hf]
  started := by simp
  dropped := by
    rw [LoadFuture.start_dropped, hv.dropped, hv.started.mp hf]
    rfl
  settled hstate := by
    have hr := hv.settled hstate
    simp [hv.started.mp hf, Runner.flagged] at hr
  done := by simp
  result := by simp

theorem Inv.start (h : s.Inv limit) (hl : s.load l = some f) (hf : f.started = false)
    (task : Bool) : (s.setLoad l (f.start task)).Inv limit := by
  have hv := h.registered.valid l f hl
  refine h.setLoad hl rfl (by simp) rfl (start_valid hv hf task) ?_ (fun _ => id)
    (fun _ hfit => hfit.congr id rfl rfl rfl) fun hd => ?_
  · simp [hv.started.mp hf, Runner.live]
  · have hd : f.dropped = true := hd
    simp [hv.dropped, hv.started.mp hf, Runner.flagged] at hd

theorem Inv.register [DecidableEq K] (h : s.Inv limit) (hi : s.caller i = .fresh)
    (hcurrent : s.current f.key = none) (hvalid : f.Valid) (hlocked : f.locked = none)
    (hdropped : f.dropped = false) (hc : ∀ l, c.about = some l → l = s.created)
    (hfits : c.Fits i (s.woken i) f)
    (hstarted : f.started = false → c = .sends s.created) :
    ((s.register f).setCaller i c).Inv limit := by
  have hr := h.registered.register hcurrent hvalid
  have hnew := h.registered.fresh s.created le_rfl
  refine ⟨⟨hr.fresh, hr.valid, hr.live, hr.entry⟩, ?_, ?_⟩
  · refine (h.attended.register h.registered hlocked hdropped).setCaller ?_ ?_
    · simp [hi, Caller.busy]
    · intro l hl
      obtain rfl := hc l hl
      exact ⟨f, by simp, hfits⟩
  · refine ⟨h.queued.queue, h.queued.limited, fun l g hg hgs => ?_⟩
    rcases eq_or_ne l s.created with rfl | hne
    · obtain rfl : f = g := by simpa using hg
      exact .inl ⟨i, by simp [hstarted hgs]⟩
    · refine (h.queued.waits l g (by simpa [hne] using hg) hgs).imp_left ?_
      rintro ⟨j, hj⟩
      have hji : j ≠ i := by
        rintro rfl
        simp [hi] at hj
      exact ⟨j, by simpa [hji] using hj⟩

theorem Inv.setQueue (h : s.Inv limit) {queue : RefreshQueue.System ℕ} (hqueue : queue.Inv)
    (hlimited : queue.queue.limit = s.refreshes.queue.limit)
    (hholds : ∀ l f, s.load l = some f → f.started = false → s.refreshes.Holds l →
      queue.Holds l) : ({ s with refreshes := queue } : Loads K V).Inv limit where
  registered := ⟨h.registered.fresh, h.registered.valid, h.registered.live, h.registered.entry⟩
  attended := ⟨h.attended.fits, h.attended.held, h.attended.watched⟩
  queued := h.queued.change hqueue (hlimited.trans h.queued.limited) (fun _ _ => id)
    (fun _ f' hf' hs => ⟨f', hf', hs⟩) hholds

theorem Inv.enqueue (h : s.Inv limit) (hi : s.caller i = .sends l)
    {queue : RefreshQueue.System ℕ} (hqueue : s.refreshes.step (.enqueue l) = some queue) :
    ({ s.setCaller i .served with refreshes := queue } : Loads K V).Inv limit where
  registered := ⟨h.registered.fresh, h.registered.valid, h.registered.live, h.registered.entry⟩
  attended := by
    have ha := h.attended.setCaller (i := i) (c := .served) (by simp [hi, Caller.busy])
      (by simp [Caller.about])
    exact ⟨ha.fits, ha.held, ha.watched⟩
  queued := by
    refine ⟨h.queued.queue.step hqueue,
      (RefreshQueue.System.limit_step hqueue).trans h.queued.limited, fun l' f hl' hf => ?_⟩
    rcases h.queued.waits l' f hl' hf with ⟨j, hj⟩ | hholds
    · rcases eq_or_ne j i with rfl | hji
      · obtain rfl : l = l' := by simpa [hi] using hj
        exact .inr (RefreshQueue.System.holds_enqueue hqueue (.inr rfl))
      · exact .inl ⟨j, by simpa [hji] using hj⟩
    · exact .inr (RefreshQueue.System.holds_enqueue hqueue (.inl hholds))

theorem Inv.pump [DecidableEq K] (h : s.Inv limit) {n : ℕ} {task : Bool}
    (hstep : s.step (.pump n task) = some t) : t.Inv limit := by
  simp only [Loads.step] at hstep
  split at hstep
  · next l hn =>
    obtain ⟨f, hl, hstep⟩ := bind_eq_some_iff.mp hstep
    obtain ⟨queue, hqueue, rfl⟩ := map_eq_some_iff.mp hstep
    have hstarted : ∀ g, g = (if f.started then f else f.start task) → g.started = true := by
      rintro g rfl
      split_ifs with hf
      · exact hf
      · rfl
    have hmoved : (s.setLoad l (if f.started then f else f.start task)).Inv limit := by
      split_ifs with hf
      · have hself : s.setLoad l f = s := by simp [Loads.setLoad, ← hl]
        rwa [hself]
      · exact h.start hl (by simpa using hf) task
    refine hmoved.setQueue (h.queued.queue.step hqueue) (RefreshQueue.System.limit_step hqueue) ?_
    intro l' g hg hgs hholds
    refine RefreshQueue.System.holds_advance hqueue hholds fun heq => ?_
    obtain rfl : l = l' := by simpa [hn] using heq
    simp [hstarted g (by simpa using hg.symm)] at hgs
  · next hn =>
    obtain ⟨queue, hqueue, rfl⟩ := map_eq_some_iff.mp hstep
    exact h.setQueue (h.queued.queue.step hqueue) (RefreshQueue.System.limit_step hqueue)
      fun l _ _ _ hholds => RefreshQueue.System.holds_advance hqueue hholds (hn l)

theorem Inv.lookup [DecidableEq K] (h : s.Inv limit) {key : K} (hcurrent : s.current key = some l) :
    ∃ f, s.load l = some f := by
  obtain ⟨hp, _⟩ := filter_eq_some_iff.mp hcurrent
  obtain ⟨f, hf, _⟩ := h.registered.entry key l hp
  exact ⟨f, hf⟩

theorem Inv.step [DecidableEq K] (h : s.Inv limit) {a : LoadAction K V}
    (hstep : s.step a = some t) : t.Inv limit := by
  cases a with
  | stale i key =>
    simp only [Loads.step] at hstep
    split at hstep
    · next hi _ hcurrent =>
      obtain rfl : _ = t := Option.some.inj hstep
      exact h.register hi hcurrent (queued_valid key) rfl rfl (by simp [Caller.about]) trivial
        fun _ => rfl
    · next _ hi _ _ =>
      obtain rfl : _ = t := Option.some.inj hstep
      exact h.setCaller (by simp [hi, Caller.busy]) (by simp [hi]) (by simp [Caller.about])
    · simp at hstep
  | enqueue i =>
    simp only [Loads.step] at hstep
    split at hstep
    · next l hi =>
      obtain ⟨queue, hqueue, rfl⟩ := map_eq_some_iff.mp hstep
      exact h.enqueue hi hqueue
    · simp at hstep
  | pump n task => exact h.pump hstep
  | refreshDone j =>
    simp only [Loads.step] at hstep
    split at hstep
    · split_ifs at hstep
      obtain ⟨queue, hqueue, rfl⟩ := map_eq_some_iff.mp hstep
      exact h.setQueue (h.queued.queue.step hqueue) (RefreshQueue.System.limit_step hqueue)
        fun _ _ _ _ => RefreshQueue.System.holds_done hqueue
    · simp at hstep
  | miss i key inline task =>
    simp only [Loads.step] at hstep
    split at hstep
    · next hi _ hcurrent =>
      obtain rfl : _ = t := Option.some.inj hstep
      refine h.register hi hcurrent (start_valid (queued_valid key) rfl _) rfl rfl ?_ ?_
        (by simp [LoadFuture.new])
      · cases inline <;> simp [Caller.about]
      · cases inline <;> trivial
    · next l hi _ hcurrent =>
      obtain rfl : _ = t := Option.some.inj hstep
      obtain ⟨f, hf⟩ := h.lookup hcurrent
      refine (h.setPendingLock _).setCaller (by simp [hi, Caller.busy]) (by simp [hi]) ?_
      intro l' hl'
      obtain rfl : l = l' := by simpa [Caller.about] using hl'
      exact ⟨f, hf, trivial⟩
    · simp at hstep
  | claim i inline task nested =>
    simp only [Loads.step] at hstep
    split at hstep
    · next l hi =>
      obtain ⟨f, hl, rfl⟩ := map_eq_some_iff.mp hstep
      have hlock := h.setPendingLock (update s.pendingLock f.key none)
      by_cases hf : f.started
      · simp only [hf, if_true]
        refine hlock.setCaller (by simp [hi, Caller.busy]) (by simp [hi]) ?_
        intro l' hl'
        cases nested
        · obtain rfl : l = l' := by simpa [Caller.about] using hl'
          exact ⟨f, hl, trivial⟩
        · simp [Caller.about] at hl'
      · simp only [hf]
        refine (hlock.start hl (by simpa using hf) _).setCaller (by simp [hi, Caller.busy])
          (by simp [hi]) ?_
        intro l' hl'
        obtain rfl : l = l' := by cases inline <;> simpa [Caller.about] using hl'
        exact ⟨f.start (task && !inline), by simp, by cases inline <;> trivial⟩
    · simp at hstep
  | run l a =>
    obtain ⟨f, hl, hstep⟩ := bind_eq_some_iff.mp hstep
    exact h.run hl hstep
  | advance i =>
    simp only [Loads.step] at hstep
    split at hstep
    · next l hi =>
      obtain ⟨f, hl, hstep⟩ := bind_eq_some_iff.mp hstep
      exact h.wait hl hi hstep
    · simp at hstep

theorem returns [DecidableEq K] (hl : s.load l = some f) (hstate : f.state ≠ .computing)
    (hlocked : f.locked = none) (hi : s.caller i = .parked l) :
    ∃ t, Run step (fun _ a => a = .advance i) s t ∧ t.caller i = .returned l f.state := by
  let s₁ : Loads K V := { s.setCaller i (.locks l) with woken := update s.woken i false }
  let s₂ := (s₁.setLoad l { f with locked := some i }).setCaller i (.reads l)
  let s₃ := (s₂.setLoad l { f with locked := none }).setCaller i (.returned l f.state)
  have h₁ : s.step (.advance i) = some s₁ := by
    simp [Loads.step, hi, Caller.about, hl, Loads.wait, s₁]
  have h₂ : s₁.step (.advance i) = some s₂ := by
    simp [Loads.step, Caller.about, hl, hlocked, Loads.wait, s₁, s₂]
  have h₃ : s₂.step (.advance i) = some s₃ := by
    cases hs : f.state with
    | computing => exact absurd hs hstate
    | complete | panicked | dropped => simp [Loads.step, Caller.about, hs, Loads.wait, s₂, s₃]
  exact ⟨s₃, .tail (.tail (.tail (.refl s) rfl h₁) rfl h₂) rfl h₃, by simp [s₃]⟩

/-- In every interleaving of misses, stale reads, the refresh queue's steps, completions, panics
and dropped tasks, the promise holds. -/
theorem singleFlight [DecidableEq K] {limit : ℕ} {s : Loads K V}
    (h : Reachable step (init limit) s) : s.SingleFlight limit := by
  have hinv : s.Inv limit :=
    Run.invariant h (inv_init limit) fun _ _ _ ht _ hstep => ht.step hstep
  have hwaits : ∀ l f, s.load l = some f → f.runs = 0 → s.Waits l := by
    intro l f hl hf
    refine hinv.queued.waits l f hl ?_
    have hruns := (hinv.registered.valid l f hl).runs
    by_contra hs
    simp [hs, hf] at hruns
  refine ⟨fun l l' f f' hl hl' => hinv.registered.single hl hl', ?_, ?_, ?_, ?_⟩
  · intro l f hl
    have hruns := (hinv.registered.valid l f hl).runs
    cases hs : f.started
    · exact .inr ⟨by simp [hruns, hs], hinv.queued.waits l f hl hs⟩
    · exact .inl (by simp [hruns, hs])
  · intro hrest hsends l f hl hf
    rcases hwaits l f hl hf with ⟨i, hi⟩ | hchannel | ⟨call, hcall, hitem⟩
    · exact absurd hi (hsends i l)
    · have hfull := hinv.queued.queue.full_of_atRest hrest (List.ne_nil_of_mem hchannel)
      rw [hfull.1, hinv.queued.limited]
    · simp [hrest call hcall, RefreshQueue.Call.item] at hitem
  · intro l f hl hended hbusy
    have hv := hinv.registered.valid l f hl
    have hstate : f.state ≠ .computing := by
      intro hstate
      cases hr : f.runner with
      | done => exact hv.done hr hstate
      | dropped =>
        have hd : f.dropped := by simp [hv.dropped, hr, Runner.flagged]
        rcases hinv.attended.watched l f hl hd hstate with htrying | ⟨i, hi⟩
        · simp [hr] at htrying
        · exact hbusy i hi
      | _ => simp [hr, Runner.ended] at hended
    refine ⟨hstate, fun i hi => ⟨?_, ?_⟩⟩
    swap
    · refine returns hl hstate ?_ hi
      by_contra hlocked
      obtain ⟨j, hj⟩ := Option.ne_none_iff_exists'.mp hlocked
      exact hbusy j (Caller.busy_of_holds (hinv.attended.held j l f hl hj))
    obtain ⟨g, hg, hfit⟩ := hinv.attended.fits i l (by simp [hi, Caller.about])
    obtain rfl : f = g := by simpa [hl] using hg
    have hfit : s.woken i ∨ i ∈ f.waiters ∧ f.state = .computing := by
      simpa [hi, Caller.Fits] using hfit
    exact hfit.resolve_right fun hw => hstate hw.2
  · intro i l out hi
    obtain ⟨f, hf, hfit⟩ := hinv.attended.fits i l (by simp [hi, Caller.about])
    have hfit : f.state = out ∧ out ≠ .computing := by simpa [hi, Caller.Fits] using hfit
    exact ⟨hfit.2, f, hf, hfit.1⟩

/-- A load that is dropped while its one waiter joins: the waiter finishes it, and returns. -/
theorem singleFlight_dropped : ∃ s : Loads ℕ ℕ, Reachable step (init 1) s ∧
    s.SingleFlight 1 ∧ s.caller 0 = .returned 0 .dropped := by
  have hexec : (exec step (fun _ _ => true) (init 1 : Loads ℕ ℕ)
      ([LoadAction.miss 0 7 false true] ++ List.replicate 3 (LoadAction.advance 0) ++
        [LoadAction.run 0 .dropTask, .run 0 .mark, .run 0 (.tryFinish (some 0)), .run 0 (.unlink false)] ++
        List.replicate 6 (LoadAction.advance 0))).map (fun s => s.caller 0) =
      some (.returned 0 .dropped) := by
    rfl
  obtain ⟨s, hs, hcaller⟩ := Option.map_eq_some_iff.mp hexec
  have hrun := reachable_of_exec hs
  exact ⟨s, hrun, singleFlight hrun, hcaller⟩

end Loads

end Fibre.Cache
