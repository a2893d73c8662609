import Fibre.Math.Machine
import Fibre.Math.Crew

/-!
# The pool of threads that run loaders

A submitted job goes into a channel, and a thread is spawned for it unless enough threads are idle
or `MAX_WORKERS` of them live. A worker exits when it has waited for a while, after a last look at
the channel: a job that was sent meanwhile saw it idle. Here every atomic access is a step of its
own, and any number of calls and workers are interleaved. A wait may time out at any moment.
-/

namespace Fibre.Cache

open Machine Option List

/-- Runs sync loaders off the caller's thread. -/
structure LoadPool (α : Type*) where
  channel : List α
  workers : ℕ
  idle : ℕ
  queued : ℕ

namespace LoadPool

/-- At most this many loaders run in the background per cache; more wait in the queue. -/
def MAX_WORKERS : ℕ := 64

/-- Where a call of `submit` is: the access it makes next. -/
inductive Submit (α : Type*)
  /-- `queued.fetch_add(1)` -/
  | countJob (job : α)
  /-- `tx.send(job)` -/
  | send (job : α) (queued : ℕ)
  /-- `idle.load()` -/
  | loadIdle (queued : ℕ)
  /-- `workers.fetch_update` -/
  | claimWorker
  /-- `thread::spawn` -/
  | spawn
  | returned
  deriving DecidableEq

/-- Where a worker is: the access it makes next. -/
inductive Worker (α : Type*)
  /-- the top of the loop: `idle.fetch_add(1)` -/
  | countIdle
  /-- `rx.recv_timeout` -/
  | recv
  /-- received: `idle.fetch_sub(1)` -/
  | received (job : α)
  /-- `queued.fetch_sub(1)` -/
  | countReceived (job : α)
  | run (job : α)
  /-- timed out: `idle.fetch_sub(1)` -/
  | timedOut
  /-- `workers.fetch_sub(1)` -/
  | leave
  /-- the last look: `rx.try_recv()` -/
  | recheck
  /-- it found a job: `workers.fetch_add(1)` -/
  | rejoin (job : α)
  | exited
  deriving DecidableEq

variable {α : Type*}

def new : LoadPool α := ⟨[], 0, 0, 0⟩

/-- The pool, the calls of `submit`, and the threads. -/
structure System (α : Type*) where
  pool : LoadPool α
  submits : List (Submit α)
  threads : List (Worker α)

/-- A step of the machine. -/
inductive Action (α : Type*)
  /-- a thread enters `submit` -/
  | submit (job : α)
  /-- the next access of a call -/
  | advance (i : ℕ)
  /-- the next access of a worker; `timeout` if its wait ends there -/
  | work (j : ℕ) (timeout : Bool)

namespace Submit

/-- The next access of a call, and whether it spawns a thread. -/
def access (pool : LoadPool α) : Submit α → Submit α × LoadPool α
  | countJob job => (send job (pool.queued + 1), { pool with queued := pool.queued + 1 })
  -- the pool holds a receiver, so a send succeeds
  | send job queued => (loadIdle queued, { pool with channel := pool.channel ++ [job] })
  | loadIdle queued => (if queued ≤ pool.idle then returned else claimWorker, pool)
  | claimWorker =>
    if pool.workers < MAX_WORKERS then (spawn, { pool with workers := pool.workers + 1 })
    else (returned, pool)
  | spawn => (returned, pool)
  | returned => (returned, pool)

end Submit

namespace Worker

/-- The next access of a worker; `none` while it waits. -/
def access (pool : LoadPool α) (timeout : Bool) : Worker α → Option (Worker α × LoadPool α)
  | countIdle => some (recv, { pool with idle := pool.idle + 1 })
  | recv =>
    if timeout then some (timedOut, pool)
    else match pool.channel with
      | [] => none
      | job :: channel => some (received job, { pool with channel := channel })
  | received job => some (countReceived job, { pool with idle := pool.idle - 1 })
  | countReceived job => some (run job, { pool with queued := pool.queued - 1 })
  | run _ => some (countIdle, pool)
  | timedOut => some (leave, { pool with idle := pool.idle - 1 })
  | leave => some (recheck, { pool with workers := pool.workers - 1 })
  | recheck =>
    match pool.channel with
    | [] => some (exited, pool)
    | job :: channel => some (rejoin job, { pool with channel := channel })
  | rejoin job => some (countReceived job, { pool with workers := pool.workers + 1 })
  | exited => none

/-- A load job runs on the thread. -/
def runs : Worker α → ℕ
  | run _ => 1
  | _ => 0

/-- The worker is between its idle timeout and its exit. -/
def isLeaving : Worker α → Bool
  | timedOut | leave | recheck => true
  | _ => false

/-- The worker has not exited: it will look at the channel again. -/
def isLive : Worker α → Bool
  | exited => false
  | _ => true

end Worker

namespace System

def init : System α := ⟨.new, [], []⟩

/-- The system after an action; `none` when it is not possible. -/
def step (s : System α) : Action α → Option (System α)
  | .submit job => some { s with submits := s.submits ++ [.countJob job] }
  | .advance i => s.submits[i]?.map fun call =>
      let (call', pool) := call.access s.pool
      { s with
        pool := pool
        submits := s.submits.set i call'
        threads := if call matches .spawn then s.threads ++ [.countIdle] else s.threads }
  | .work j timeout => s.threads[j]?.bind fun worker =>
      (worker.access s.pool timeout).map fun (worker', pool) =>
        { s with pool := pool, threads := s.threads.set j worker' }

/-- The number of load jobs that run. -/
def running (s : System α) : ℕ := Crew.weigh Worker.runs s.threads

/-- No worker rejoins a full pool. -/
def RejoinsWithRoom (s : System α) (a : Action α) : Prop :=
  ∀ j timeout job, a = .work j timeout → s.threads[j]? = some (.rejoin job) →
    s.pool.workers < MAX_WORKERS

end System

/-! ### What the program points hold -/

namespace Worker

/-- Counted by `idle`. -/
def idles : Worker α → ℕ
  | recv | received _ | timedOut => 1
  | _ => 0

/-- Counted by `workers`. -/
def counts : Worker α → ℕ
  | leave | countIdle | recv | received _ | countReceived _ | run _ | timedOut => 1
  | _ => 0

/-- Has received a job that `queued` still counts. -/
def holds : Worker α → ℕ
  | received _ | countReceived _ | rejoin _ => 1
  | _ => 0

/-- Has not exited. -/
def lives (w : Worker α) : ℕ := if w.isLive then 1 else 0

theorem runs_le_counts (w : Worker α) : w.runs ≤ w.counts := by
  cases w <;> simp [runs, counts]

theorem counts_le_lives (w : Worker α) : w.counts ≤ w.lives := by
  cases w <;> simp [counts, lives, isLive]

theorem workers_access {pool pool' : LoadPool α} {timeout : Bool} {w w' : Worker α}
    (h : w.access pool timeout = some (w', pool')) : pool'.workers ≤ pool.workers ∨
      (∃ job, w = .rejoin job) ∧ pool'.workers = pool.workers + 1 := by
  cases w with
  | rejoin job =>
    obtain ⟨rfl, rfl⟩ := Prod.mk.inj (Option.some.inj h)
    exact .inr ⟨⟨job, rfl⟩, rfl⟩
  | leave =>
    obtain ⟨rfl, rfl⟩ := Prod.mk.inj (Option.some.inj h)
    exact .inl (Nat.sub_le _ _)
  | recv =>
    cases timeout <;> cases hc : pool.channel <;> simp only [access, hc] at h
    all_goals first | (cases h; exact .inl le_rfl) | simp at h
  | recheck =>
    cases hc : pool.channel <;> simp only [access, hc] at h <;> cases h <;> exact .inl le_rfl
  | exited => simp [access] at h
  | _ =>
    obtain ⟨rfl, rfl⟩ := Prod.mk.inj (Option.some.inj h)
    exact .inl le_rfl

theorem idles_le_lives (w : Worker α) : w.idles ≤ w.lives := by
  cases w <;> simp [idles, lives, isLive]

end Worker

namespace Submit

/-- Has sent nothing yet, but `queued` counts its job. -/
def counts : Submit α → ℕ
  | send _ _ => 1
  | _ => 0

/-- Counted by `workers`. -/
def claims : Submit α → ℕ
  | spawn => 1
  | _ => 0

/-- Has sent its job, and may spawn a worker for it. -/
def covers : Submit α → ℕ
  | loadIdle _ | claimWorker | spawn => 1
  | _ => 0

/-- `queued` was positive when it was read. -/
def Positive : Submit α → Prop
  | send _ queued | loadIdle queued => 0 < queued
  | _ => True

theorem claims_le_covers (c : Submit α) : c.claims ≤ c.covers := by
  cases c <;> simp [claims, covers]

end Submit

open Crew

namespace System

variable {s t : System α}

/-- What the counters say about the calls and the workers. -/
structure Inv (s : System α) : Prop where
  workers : s.pool.workers = weigh Worker.counts s.threads + weigh Submit.claims s.submits
  idle : s.pool.idle = weigh Worker.idles s.threads
  queued : s.pool.queued =
    s.pool.channel.length + weigh Worker.holds s.threads + weigh Submit.counts s.submits
  positive : ∀ call ∈ s.submits, call.Positive
  covered : s.pool.channel ≠ [] →
    0 < weigh Worker.lives s.threads + weigh Submit.covers s.submits

theorem inv_init : (init : System α).Inv :=
  ⟨rfl, rfl, rfl, by simp [init], fun h => absurd rfl h⟩

theorem Inv.moveSubmit (h : s.Inv) {i : ℕ} {c c' : Submit α} (hi : s.submits[i]? = some c)
    (hsubmits : t.submits = s.submits.set i c') (hthreads : t.threads = s.threads)
    (hworkers : t.pool.workers + c.claims = s.pool.workers + c'.claims)
    (hidle : t.pool.idle = s.pool.idle)
    (hqueued : t.pool.queued + s.pool.channel.length + c.counts =
      s.pool.queued + t.pool.channel.length + c'.counts)
    (hpositive : c'.Positive)
    (hcovered : t.pool.channel ≠ [] →
      0 < weigh Worker.lives t.threads + weigh Submit.covers t.submits) : t.Inv := by
  have hclaims := weigh_set Submit.claims hi c'
  have hcounts := weigh_set Submit.counts hi c'
  have h₁ := h.workers
  have h₂ := h.queued
  rw [← hsubmits] at hclaims hcounts
  refine ⟨by rw [hthreads]; omega, by rw [hthreads, hidle, h.idle], by rw [hthreads]; omega, ?_,
    hcovered⟩
  intro call hcall
  rw [hsubmits] at hcall
  rcases mem_or_eq_of_mem_set hcall with hcall | rfl
  · exact h.positive call hcall
  · exact hpositive

theorem Inv.moveWorker (h : s.Inv) {j : ℕ} {w w' : Worker α} (hj : s.threads[j]? = some w)
    (hthreads : t.threads = s.threads.set j w') (hsubmits : t.submits = s.submits)
    (hworkers : t.pool.workers + w.counts = s.pool.workers + w'.counts)
    (hidle : t.pool.idle + w.idles = s.pool.idle + w'.idles)
    (hqueued : t.pool.queued + s.pool.channel.length + w.holds =
      s.pool.queued + t.pool.channel.length + w'.holds)
    (hcovered : t.pool.channel ≠ [] → w'.lives = 1) : t.Inv := by
  have hcounts := weigh_set Worker.counts hj w'
  have hidles := weigh_set Worker.idles hj w'
  have hholds := weigh_set Worker.holds hj w'
  have hlives := weigh_set Worker.lives hj w'
  have hle := le_weigh Worker.lives hj
  have h₁ := h.workers
  have h₂ := h.idle
  have h₃ := h.queued
  rw [← hthreads] at hcounts hidles hholds hlives
  refine ⟨by rw [hsubmits]; omega, by omega, by rw [hsubmits]; omega, hsubmits ▸ h.positive, ?_⟩
  intro hne
  have := hcovered hne
  omega

theorem covers_pos {i : ℕ} {c c' : Submit α} (hi : s.submits[i]? = some c) (hc' : c'.covers = 1) :
    0 < weigh Submit.covers (s.submits.set i c') := by
  have hmove := weigh_set Submit.covers hi c'
  have hle := le_weigh Submit.covers hi
  omega

theorem covers_set {i : ℕ} {c : Submit α} (hi : s.submits[i]? = some c) (hc : c.covers = 0)
    (c' : Submit α) :
    weigh Submit.covers s.submits ≤ weigh Submit.covers (s.submits.set i c') := by
  have hmove := weigh_set Submit.covers hi c'
  omega

theorem Inv.advance (h : s.Inv) {i : ℕ} (hstep : s.step (.advance i) = some t) : t.Inv := by
  obtain ⟨call, hi, rfl⟩ := map_eq_some_iff.mp hstep
  have hpositive : call.Positive := h.positive call (mem_of_getElem? hi)
  cases call with
  | countJob job =>
    refine h.moveSubmit hi rfl rfl rfl rfl ?_ (Nat.succ_pos _) fun hne => ?_
    · simp only [Submit.access, Submit.counts]
      omega
    · have hkept := covers_set hi rfl (.send job (s.pool.queued + 1))
      exact Nat.lt_of_lt_of_le (h.covered hne) (Nat.add_le_add_left hkept _)
  | send job queued =>
    refine h.moveSubmit hi rfl rfl rfl rfl ?_ hpositive fun _ => ?_
    · simp only [Submit.access, Submit.counts, length_append, length_singleton]
      omega
    · exact Nat.add_pos_right _ (covers_pos hi rfl)
  | loadIdle queued =>
    by_cases hle : queued ≤ s.pool.idle
    · simp only [Submit.access, hle, if_true]
      refine h.moveSubmit hi rfl rfl rfl rfl rfl trivial fun _ => ?_
      -- the job is left to a worker that was idle: it looks at the channel again
      have hidle := h.idle
      have hlives := weigh_mono Worker.idles_le_lives s.threads
      have hpos : 0 < queued := hpositive
      change 0 < weigh Worker.lives s.threads + weigh Submit.covers (s.submits.set i .returned)
      omega
    · simp only [Submit.access, hle, if_false]
      exact h.moveSubmit hi rfl rfl rfl rfl rfl trivial fun _ =>
        Nat.add_pos_right _ (covers_pos hi rfl)
  | claimWorker =>
    by_cases hlt : s.pool.workers < MAX_WORKERS
    · simp only [Submit.access, hlt, if_true]
      exact h.moveSubmit hi rfl rfl rfl rfl rfl trivial fun _ =>
        Nat.add_pos_right _ (covers_pos hi rfl)
    · simp only [Submit.access, hlt, if_false]
      refine h.moveSubmit hi rfl rfl rfl rfl rfl trivial fun _ => ?_
      -- the pool is full, with workers that live or are about to be spawned
      have hworkers := h.workers
      have hlives := weigh_mono Worker.counts_le_lives s.threads
      have hclaims := weigh_set Submit.claims hi .returned
      have hcovers := weigh_mono Submit.claims_le_covers (s.submits.set i .returned)
      have hmax : 0 < MAX_WORKERS := by decide
      simp only [Submit.claims] at hclaims
      change 0 < weigh Worker.lives s.threads + weigh Submit.covers (s.submits.set i .returned)
      omega
  | spawn =>
    have hclaims := weigh_set Submit.claims hi .returned
    have hcounts := weigh_set Submit.counts hi .returned
    have hworkers := h.workers
    simp only [Submit.claims, Submit.counts, add_zero] at hclaims hcounts
    refine ⟨?_, ?_, ?_, ?_, fun _ => ?_⟩
    · simp only [Submit.access, if_true, weigh_append_singleton, Worker.counts]
      omega
    · simpa [Submit.access, Worker.idles] using h.idle
    · simpa [Submit.access, Worker.holds, hcounts] using h.queued
    · intro call hcall
      rcases mem_or_eq_of_mem_set hcall with hcall | rfl
      · exact h.positive call hcall
      · trivial
    · simp [Worker.lives, Worker.isLive]
  | returned =>
    refine h.moveSubmit hi rfl rfl rfl rfl rfl trivial fun hne => ?_
    have hkept := covers_set hi rfl .returned
    exact Nat.lt_of_lt_of_le (h.covered hne) (Nat.add_le_add_left hkept _)

theorem Inv.counted (h : s.Inv) {j : ℕ} {w : Worker α} (hj : s.threads[j]? = some w) :
    w.counts ≤ s.pool.workers ∧ w.idles ≤ s.pool.idle ∧
      w.holds + s.pool.channel.length ≤ s.pool.queued := by
  have h₁ := le_weigh Worker.counts hj
  have h₂ := le_weigh Worker.idles hj
  have h₃ := le_weigh Worker.holds hj
  have hworkers := h.workers
  have hidle := h.idle
  have hqueued := h.queued
  omega

theorem Inv.work (h : s.Inv) {j : ℕ} {timeout : Bool}
    (hstep : s.step (.work j timeout) = some t) : t.Inv := by
  obtain ⟨w, hj, hw⟩ := bind_eq_some_iff.mp hstep
  obtain ⟨⟨w', pool⟩, haccess, rfl⟩ := map_eq_some_iff.mp hw
  have hcounted := h.counted hj
  cases w with
  | countIdle =>
    obtain ⟨rfl, rfl⟩ := Prod.mk.inj (Option.some.inj haccess)
    exact h.moveWorker hj rfl rfl rfl rfl rfl fun _ => rfl
  | recv =>
    cases timeout with
    | true =>
      obtain ⟨rfl, rfl⟩ := Prod.mk.inj (Option.some.inj haccess)
      exact h.moveWorker hj rfl rfl rfl rfl rfl fun _ => rfl
    | false =>
      cases hc : s.pool.channel with
      | nil => simp [Worker.access, hc] at haccess
      | cons job channel =>
        simp only [Worker.access, hc, Bool.false_eq_true, if_false] at haccess
        obtain ⟨rfl, rfl⟩ := Prod.mk.inj (Option.some.inj haccess)
        refine h.moveWorker hj rfl rfl rfl rfl ?_ fun _ => rfl
        simp only [Worker.holds, hc, length_cons]
        omega
  | received job =>
    obtain ⟨rfl, rfl⟩ := Prod.mk.inj (Option.some.inj haccess)
    refine h.moveWorker hj rfl rfl rfl ?_ rfl fun _ => rfl
    simp only [Worker.idles] at hcounted ⊢
    omega
  | countReceived job =>
    obtain ⟨rfl, rfl⟩ := Prod.mk.inj (Option.some.inj haccess)
    refine h.moveWorker hj rfl rfl rfl rfl ?_ fun _ => rfl
    simp only [Worker.holds] at hcounted ⊢
    omega
  | run job =>
    obtain ⟨rfl, rfl⟩ := Prod.mk.inj (Option.some.inj haccess)
    exact h.moveWorker hj rfl rfl rfl rfl rfl fun _ => rfl
  | timedOut =>
    obtain ⟨rfl, rfl⟩ := Prod.mk.inj (Option.some.inj haccess)
    refine h.moveWorker hj rfl rfl rfl ?_ rfl fun _ => rfl
    simp only [Worker.idles] at hcounted ⊢
    omega
  | leave =>
    obtain ⟨rfl, rfl⟩ := Prod.mk.inj (Option.some.inj haccess)
    refine h.moveWorker hj rfl rfl ?_ rfl rfl fun _ => rfl
    simp only [Worker.counts] at hcounted ⊢
    omega
  | recheck =>
    cases hc : s.pool.channel with
    | nil =>
      -- it exits only when nothing waits
      simp only [Worker.access, hc] at haccess
      obtain ⟨rfl, rfl⟩ := Prod.mk.inj (Option.some.inj haccess)
      exact h.moveWorker hj rfl rfl rfl rfl rfl fun hne => absurd hc hne
    | cons job channel =>
      simp only [Worker.access, hc] at haccess
      obtain ⟨rfl, rfl⟩ := Prod.mk.inj (Option.some.inj haccess)
      refine h.moveWorker hj rfl rfl rfl rfl ?_ fun _ => rfl
      simp only [Worker.holds, hc, length_cons]
      omega
  | rejoin job =>
    obtain ⟨rfl, rfl⟩ := Prod.mk.inj (Option.some.inj haccess)
    exact h.moveWorker hj rfl rfl rfl rfl rfl fun _ => rfl
  | exited => simp [Worker.access] at haccess

theorem Inv.step (h : s.Inv) {a : Action α} (hstep : s.step a = some t) : t.Inv := by
  cases a with
  | submit job =>
    obtain rfl : _ = t := Option.some.inj hstep
    have hworkers := h.workers
    have hqueued := h.queued
    refine ⟨?_, h.idle, ?_, ?_, fun hne => ?_⟩
    · simpa [Submit.claims] using hworkers
    · simpa [Submit.counts] using hqueued
    · simp only [mem_append, mem_singleton]
      rintro call (hcall | rfl)
      · exact h.positive call hcall
      · trivial
    · simpa [Submit.covers] using h.covered hne
  | advance i => exact h.advance hstep
  | work j timeout => exact h.work hstep

theorem inv_of_reachable (h : Reachable step (init : System α) s) : s.Inv :=
  Run.invariant h inv_init fun _ _ _ ht _ hstep => ht.step hstep

/-- The pool gets no fuller than `MAX_WORKERS`, unless a worker rejoins it when it is full. -/
theorem workers_le_step {a : Action α} (h : s.pool.workers ≤ MAX_WORKERS)
    (hroom : s.RejoinsWithRoom a) (hstep : s.step a = some t) : t.pool.workers ≤ MAX_WORKERS := by
  cases a with
  | submit job =>
    obtain rfl : _ = t := Option.some.inj hstep
    exact h
  | advance i =>
    obtain ⟨call, hi, rfl⟩ := map_eq_some_iff.mp hstep
    cases call with
    | claimWorker =>
      simp only [Submit.access]
      split_ifs with hlt
      · exact hlt
      · exact h
    | _ => exact h
  | work j timeout =>
    obtain ⟨w, hj, hw⟩ := bind_eq_some_iff.mp hstep
    obtain ⟨⟨w', pool⟩, haccess, rfl⟩ := map_eq_some_iff.mp hw
    rcases Worker.workers_access haccess with hle | ⟨⟨job, rfl⟩, heq⟩
    · exact hle.trans h
    · exact heq.trans_le (hroom j timeout job rfl hj)

/-- At most `MAX_WORKERS` load jobs run at the same time, in every interleaving in which no worker
rejoins a full pool. -/
theorem jobs_bounded (h : Run step RejoinsWithRoom (init : System α) s) :
    s.running ≤ MAX_WORKERS := by
  have hle : s.pool.workers ≤ MAX_WORKERS :=
    h.invariant (Nat.zero_le _) fun _ _ _ ht hroom hstep => workers_le_step ht hroom hstep
  have hworkers := (inv_of_reachable h.reachable).workers
  have hruns := weigh_mono Worker.runs_le_counts s.threads
  rw [running]
  omega

/-- One job, from its submission until its worker runs it. -/
theorem jobs_bounded_one_job : ∃ s : System ℕ, Run step RejoinsWithRoom init s ∧
    s.running = 1 ∧ s.running ≤ MAX_WORKERS := by
  let free (s : System ℕ) (a : Action ℕ) : Bool :=
    match a with
    | .work j _ => !(s.threads[j]?.any (· matches .rejoin _))
    | _ => true
  have hfree : ∀ s a, free s a → RejoinsWithRoom s a := by
    rintro s _ hs j timeout job rfl hj
    simp [free, hj] at hs
  have hsome : (exec step free init
      (Action.submit 7 :: List.replicate 5 (Action.advance 0) ++
        List.replicate 4 (Action.work 0 false))).isSome := rfl
  obtain ⟨s, hs⟩ := Option.isSome_iff_exists.mp hsome
  have hrun := run_of_exec hfree hs
  have hrunning := congrArg (Option.map running) hs
  exact ⟨s, hrun, (Option.some.inj hrunning).symm, jobs_bounded hrun⟩

/-- Submits `n` jobs, each of which gets a worker that runs it. -/
def fill (n : ℕ) : List (Action ℕ) :=
  (List.range n).flatMap fun i =>
    Action.submit i :: List.replicate 5 (Action.advance i) ++ List.replicate 4 (Action.work i false)

/-- The last of `MAX_WORKERS` workers finishes its job and times out, and leaves the pool. Two jobs
are submitted: a worker is spawned for one, and the other finds the pool full. The worker that
leaves takes the first at its last look, and rejoins; the new worker takes the second. -/
def overfill : List (Action ℕ) :=
  fill MAX_WORKERS ++
    [Action.work 63 false, .work 63 false, .work 63 true, .work 63 false, .work 63 false] ++
    Action.submit 64 :: List.replicate 5 (Action.advance 64) ++
    Action.submit 65 :: List.replicate 4 (Action.advance 65) ++
    List.replicate 3 (Action.work 63 false) ++ List.replicate 4 (Action.work 64 false)

/-- `n` workers, each of which runs a job. -/
def filled (n : ℕ) : System ℕ :=
  ⟨⟨[], n, 0, 0⟩, List.replicate n .returned, (List.range n).map Worker.run⟩

theorem exec_fill_succ {n : ℕ} (h : n < MAX_WORKERS) :
    exec step (fun _ _ => true) (filled n) (Action.submit n ::
      List.replicate 5 (Action.advance n) ++ List.replicate 4 (Action.work n false)) =
      some (filled (n + 1)) := by
  have hreturned : List.replicate n Submit.returned ++ [Submit.returned (α := ℕ)] =
      List.replicate (n + 1) Submit.returned := replicate_succ'.symm
  -- the call sends the job and spawns a thread, which then receives it
  have hsubmit : exec step (fun _ _ => true) (filled n)
      (Action.submit n :: List.replicate 5 (Action.advance n)) =
      some ⟨⟨[n], n + 1, 0, 1⟩, List.replicate (n + 1) .returned,
        (List.range n).map Worker.run ++ [Worker.countIdle]⟩ := by
    simp [exec, filled, System.step, Submit.access, h, hreturned, List.replicate]
  rw [exec_append, hsubmit, bind_some]
  simp [exec, filled, System.step, Worker.access, List.replicate, range_succ]

theorem exec_fill {n : ℕ} (h : n ≤ MAX_WORKERS) :
    exec step (fun _ _ => true) init (fill n) = some (filled n) := by
  induction n with
  | zero => rfl
  | succ n ih =>
    have hfill : fill (n + 1) = fill n ++ (Action.submit n ::
        List.replicate 5 (Action.advance n) ++ List.replicate 4 (Action.work n false)) := by
      simp [fill, range_succ]
    rw [hfill, exec_append, ih (by omega), bind_some, exec_fill_succ h]

/-- The number of jobs that run at the same time is not bounded by `MAX_WORKERS`. -/
theorem jobs_not_bounded : ¬ ∀ s : System ℕ, Reachable step init s →
    s.running ≤ MAX_WORKERS := by
  intro hbounded
  have hrunning : (exec step (fun _ _ => true) init overfill).map running = some 65 := by
    simp only [overfill, List.append_assoc]
    rw [exec_append, exec_fill le_rfl, Option.bind_some]
    rfl
  obtain ⟨s, hs, heq⟩ := Option.map_eq_some_iff.mp hrunning
  have hle := hbounded s (reachable_of_exec hs)
  rw [heq] at hle
  exact absurd hle (by decide)

/-- The `j`-th worker looks at the channel, after steps of its own. -/
def Looks (s : System α) (j : ℕ) : Prop :=
  ∃ t, Run step (fun _ a => ∃ timeout, a = .work j timeout) s t ∧
    (t.threads[j]? = some .recv ∨ t.threads[j]? = some .recheck)

theorem looks_of_access {j : ℕ} {w w' : Worker α} {pool : LoadPool α}
    (hj : s.threads[j]? = some w) (haccess : w.access s.pool false = some (w', pool))
    (hlooks : ∀ t : System α, t.threads[j]? = some w' → t.Looks j) : s.Looks j := by
  have hstep : s.step (.work j false) =
      some { s with pool := pool, threads := s.threads.set j w' } := by
    simp [System.step, hj, haccess]
  have hlt : j < s.threads.length := (List.getElem?_eq_some_iff.mp hj).1
  obtain ⟨t, hrun, ht⟩ := hlooks { s with pool := pool, threads := s.threads.set j w' }
    (by simp [hlt])
  exact ⟨t, hrun.head ⟨false, rfl⟩ hstep, ht⟩

theorem looks_of_isLive {j : ℕ} {w : Worker α} (hj : s.threads[j]? = some w) (hw : w.isLive) :
    s.Looks j := by
  have hrecv (s : System α) (h : s.threads[j]? = some .recv) : s.Looks j :=
    ⟨s, .refl s, .inl h⟩
  have hrecheck (s : System α) (h : s.threads[j]? = some .recheck) : s.Looks j :=
    ⟨s, .refl s, .inr h⟩
  have hidle (s : System α) (h : s.threads[j]? = some .countIdle) : s.Looks j :=
    looks_of_access h rfl hrecv
  have hrun (job : α) (s : System α) (h : s.threads[j]? = some (.run job)) : s.Looks j :=
    looks_of_access h rfl hidle
  have hcount (job : α) (s : System α) (h : s.threads[j]? = some (.countReceived job)) :
      s.Looks j :=
    looks_of_access h rfl (hrun job)
  have hleave (s : System α) (h : s.threads[j]? = some .leave) : s.Looks j :=
    looks_of_access h rfl hrecheck
  cases w with
  | countIdle => exact hidle s hj
  | recv => exact hrecv s hj
  | received job => exact looks_of_access hj rfl (hcount job)
  | countReceived job => exact hcount job s hj
  | run job => exact hrun job s hj
  | timedOut => exact looks_of_access hj rfl hleave
  | leave => exact hleave s hj
  | recheck => exact hrecheck s hj
  | rejoin job => exact looks_of_access hj rfl (hcount job)
  | exited => simp [Worker.isLive] at hw

/-- When no call of `submit` is in progress, and no worker is between its timeout and its exit, a
job waits in the channel only while some worker has not exited, and will look at it again. -/
theorem job_covered (h : Reachable step (init : System α) s)
    (hsubmits : ∀ call ∈ s.submits, call = .returned)
    (hleaving : ∀ w ∈ s.threads, ¬ w.isLeaving) (hne : s.pool.channel ≠ []) :
    ∃ j w, s.threads[j]? = some w ∧ w.isLive ∧ ¬ w.isLeaving ∧ s.Looks j := by
  have hcovered := (inv_of_reachable h).covered hne
  have hcovers : weigh Submit.covers s.submits = 0 :=
    weigh_eq_zero fun c hc => by simp [hsubmits c hc, Submit.covers]
  obtain ⟨w, hw, hlive⟩ : ∃ w ∈ s.threads, w.isLive := by
    by_contra hnone
    have hlives : weigh Worker.lives s.threads = 0 := by
      refine weigh_eq_zero fun w hw => ?_
      by_contra hlive
      exact hnone ⟨w, hw, by simpa [Worker.lives] using hlive⟩
    omega
  obtain ⟨j, hj⟩ := List.mem_iff_getElem?.mp hw
  exact ⟨j, w, hj, hlive, hleaving w hw, looks_of_isLive hj hlive⟩

/-- The one worker is idle when a second job is sent: no thread is spawned for it. -/
theorem job_covered_idle : ∃ s : System ℕ, Reachable step init s ∧
    s.pool.channel = [8] ∧ s.threads = [.recv] ∧
      ∃ j w, s.threads[j]? = some w ∧ w.isLive ∧ ¬ w.isLeaving ∧ s.Looks j := by
  have hfirst : exec step (fun _ _ => true) init
      (Action.submit 7 :: List.replicate 5 (Action.advance 0) ++
        List.replicate 6 (Action.work 0 false)) =
      some ⟨⟨[], 1, 1, 0⟩, [.returned], [.recv]⟩ := rfl
  have hexec : exec step (fun _ _ => true) init
      (Action.submit 7 :: List.replicate 5 (Action.advance 0) ++
        List.replicate 6 (Action.work 0 false) ++ Action.submit 8 :: List.replicate 3 (Action.advance 1)) =
      some ⟨⟨[8], 1, 1, 1⟩, [.returned, .returned], [.recv]⟩ := by
    rw [exec_append, hfirst, Option.bind_some]
    rfl
  have hrun := reachable_of_exec hexec
  exact ⟨_, hrun, rfl, rfl, job_covered hrun (by decide) (by decide) (by decide)⟩

end System

end LoadPool

end Fibre.Cache
