import Fibre.Cache.RefreshQueue

/-!
# Loads in progress

A miss starts a load of its key, or waits for the one in progress; a stale read queues one. A load
is a future that any number of callers wait for. Its runner stores the value, takes the load out of
the map of pending loads, and finishes the future. An asynchronous runner is a task that may be
dropped at any await: its guard then marks the load as dropped.

The machine interleaves the locked sections, the accesses to the two flags of a load, and the steps
of the refresh queue. Numbers stand for the futures (their addresses) and for the calls.
-/

namespace Fibre.Cache

open Function

inductive LoadState (V : Type*)
  | computing
  | complete (value : V)
  | panicked
  | dropped

inductive Runner (V : Type*)
  /-- nobody has started the load -/
  | none
  /-- the loader runs, or has not been polled yet -/
  | loading
  /-- it takes the load out of the pending map next -/
  | removing (result : LoadState V)
  /-- it finishes the future next -/
  | finishing (result : LoadState V)
  | done
  /-- its task is dropped: the flag is set next -/
  | marking
  /-- `drop_load` tries the future's lock next -/
  | trying
  /-- the guard tries the pending map's lock next -/
  | unlinking
  | dropped

/-- A load, with the number of times it was started. -/
structure LoadFuture (K V : Type*) where
  key : K
  state : LoadState V
  /-- the caller that holds `inner` -/
  locked : Option ℕ
  waiters : List ℕ
  started : Bool
  dropped : Bool
  runner : Runner V
  /-- the runner is a task that may be dropped -/
  task : Bool
  runs : ℕ

namespace Runner

variable {V : Type*}

/-- The runner has nothing left to do. -/
def ended : Runner V → Bool
  | done | dropped => true
  | _ => false

end Runner

namespace LoadFuture

variable {K V : Type*}

/-- A load waiting in the refresh queue, not yet run by anyone. -/
def queued (key : K) : LoadFuture K V where
  key := key
  state := .computing
  locked := none
  waiters := []
  started := false
  dropped := false
  runner := .none
  task := false
  runs := 0

@[simps]
def start (f : LoadFuture K V) (task : Bool) : LoadFuture K V :=
  { f with started := true, runner := .loading, task := task, runs := f.runs + 1 }

def new (key : K) (task : Bool) : LoadFuture K V := (queued key).start task

end LoadFuture

/-- Where a call of `fetch_with` is. A blocked thread and a polled future take the same steps. -/
inductive Caller (V : Type*)
  | fresh
  /-- a stale read, which has registered a load: it sends it to the refresh queue next -/
  | sends (load : ℕ)
  /-- it returned the stale value -/
  | served
  /-- a miss, with the pending map's lock, which has found a load that is not dropped -/
  | claims (load : ℕ)
  /-- it runs the load on its own thread -/
  | leads (load : ℕ)
  /-- it takes the load's lock next -/
  | locks (load : ℕ)
  /-- with the lock: it reads the state -/
  | reads (load : ℕ)
  /-- with the lock, having read `Computing`: it reads the flag -/
  | checks (load : ℕ)
  /-- with the lock: it joins the waiters, and lets go of the lock -/
  | joins (load : ℕ)
  /-- it reads the flag again -/
  | rechecks (load : ℕ)
  | parked (load : ℕ)
  /-- it returned what the load's state said -/
  | returned (load : ℕ) (outcome : LoadState V)
  /-- the loader called `fetch_with` on the key it is loading -/
  | reentered

namespace Caller

variable {V : Type*}

def about : Caller V → Option ℕ
  | sends l | claims l | leads l | locks l | reads l | checks l | joins l | rechecks l | parked l
  | returned l _ => some l
  | fresh | served | reentered => none

/-- The caller uses the load's lock, or is about to look at the flag again. -/
def busy (l : ℕ) : Caller V → Bool
  | locks l' | reads l' | checks l' | joins l' | rechecks l' => l = l'
  | _ => false

end Caller

/-- The pending map and its locks, the loads, the callers and who has been woken, and the refresh
queue. -/
structure Loads (K V : Type*) where
  pending : K → Option ℕ
  pendingLock : K → Option ℕ
  created : ℕ
  load : ℕ → Option (LoadFuture K V)
  caller : ℕ → Caller V
  woken : ℕ → Bool
  refreshes : RefreshQueue.System ℕ

/-- A step of the runner of a load. -/
inductive RunnerAction (V : Type*)
  /-- the loader returns, and its value is stored, or it panics -/
  | loaded (result : Option V)
  | remove
  | finish
  | dropTask
  | mark
  /-- `drop_load` tries the lock; it fails if the caller `busy` is using it -/
  | tryFinish (busy : Option ℕ)
  /-- the guard tries the pending map's lock, which may be `held` -/
  | unlink (held : Bool)

/-- A step of the machine. -/
inductive LoadAction (K V : Type*)
  /-- a stale read registers a refresh of its key, if there is none -/
  | stale (i : ℕ) (key : K)
  /-- a stale read sends its refresh to the queue -/
  | enqueue (i : ℕ)
  /-- the `c`-th call inside the refresh queue goes on; `task` if a load it starts may be dropped -/
  | pump (c : ℕ) (task : Bool)
  /-- the `j`-th of the running refreshes has ended, and hands its slot back -/
  | refreshDone (j : ℕ)
  /-- a miss looks its key up, and starts a load if there is none; `inline` runs it on its thread,
  `task` as a task that may be dropped -/
  | miss (i : ℕ) (key : K) (inline task : Bool)
  /-- a miss claims the load it found; `nested` is for a call by the loader itself -/
  | claim (i : ℕ) (inline task nested : Bool)
  /-- the runner of `l` goes on -/
  | run (l : ℕ) (a : RunnerAction V)
  /-- a caller goes on -/
  | advance (i : ℕ)

namespace Loads

variable {K V : Type*}

/-- Nothing is loading, nobody has called, and at most `limit` refreshes may run. -/
def init (limit : ℕ) : Loads K V where
  pending _ := none
  pendingLock _ := none
  created := 0
  load _ := none
  caller _ := .fresh
  woken _ := false
  refreshes := .init limit

@[simps]
def setCaller (s : Loads K V) (i : ℕ) (c : Caller V) : Loads K V :=
  { s with caller := update s.caller i c }

@[simps]
def setLoad (s : Loads K V) (l : ℕ) (f : LoadFuture K V) : Loads K V :=
  { s with load := update s.load l (some f) }

/-- The load registered for the key, unless it is dropped. -/
def current (s : Loads K V) (key : K) : Option ℕ :=
  (s.pending key).filter fun l => (s.load l).any fun f => !f.dropped

/-- `Inner::finish`: sets the state and wakes all waiters. -/
@[simps]
def finishLoad (s : Loads K V) (l : ℕ) (f : LoadFuture K V) (state : LoadState V) : Loads K V :=
  { s with
    load := update s.load l (some { f with state := state, waiters := [] })
    woken := fun i => s.woken i || decide (i ∈ f.waiters) }

/-- The next step of a caller that waits for the load `l`. -/
def wait (s : Loads K V) (i l : ℕ) (f : LoadFuture K V) : Caller V → Option (Loads K V)
  | .locks _ =>
    if f.locked = none then some ((s.setLoad l { f with locked := some i }).setCaller i (.reads l))
    else none
  | .reads _ =>
    match f.state with
    | .computing => some (s.setCaller i (.checks l))
    | state => some ((s.setLoad l { f with locked := none }).setCaller i (.returned l state))
  | .checks _ =>
    if f.dropped then some ((s.finishLoad l f .dropped).setCaller i (.reads l))
    else some (s.setCaller i (.joins l))
  | .joins _ =>
    some ((s.setLoad l { f with waiters := f.waiters ++ [i], locked := none }).setCaller i
      (.rechecks l))
  | .rechecks _ => some (s.setCaller i (if f.dropped then .locks l else .parked l))
  -- a wake-up may also be spurious
  | .parked _ => some { s.setCaller i (.locks l) with woken := update s.woken i false }
  | .leads _ =>
    match f.runner with
    | .done => some (s.setCaller i (.returned l f.state))
    | _ => none
  | _ => none

variable [DecidableEq K]

@[simps]
def register (s : Loads K V) (f : LoadFuture K V) : Loads K V :=
  { s with
    pending := update s.pending f.key (some s.created)
    load := update s.load s.created (some f)
    created := s.created + 1 }

/-- The next step of the runner of `l`. -/
def run (s : Loads K V) (l : ℕ) (f : LoadFuture K V) : RunnerAction V → Option (Loads K V)
  | .loaded result =>
    match f.runner with
    | .loading =>
      some (s.setLoad l { f with runner := .removing (result.elim .panicked .complete) })
    | _ => none
  | .remove =>
    match f.runner, s.pendingLock f.key with
    | .removing result, none => some { s.setLoad l { f with runner := .finishing result } with
        pending := update s.pending f.key none }
    | _, _ => none
  | .finish =>
    match f.runner, f.locked with
    | .finishing result, none => some (s.finishLoad l { f with runner := .done } result)
    | _, _ => none
  | .dropTask =>
    match f.task, f.runner with
    | true, .loading | true, .removing _ | true, .finishing _ =>
      some (s.setLoad l { f with runner := .marking })
    | _, _ => none
  | .mark =>
    match f.runner with
    | .marking => some (s.setLoad l { f with dropped := true, runner := .trying })
    | _ => none
  | .tryFinish (some i) =>
    match f.runner with
    | .trying =>
      if (s.caller i).busy l then some (s.setLoad l { f with runner := .unlinking }) else none
    | _ => none
  | .tryFinish none =>
    match f.runner, f.locked, f.state with
    | .trying, none, .computing => some (s.finishLoad l { f with runner := .unlinking } .dropped)
    | .trying, none, _ => some (s.setLoad l { f with runner := .unlinking })
    | _, _, _ => none
  | .unlink true =>
    match f.runner with
    | .unlinking => some (s.setLoad l { f with runner := .dropped })
    | _ => none
  | .unlink false =>
    match f.runner, s.pendingLock f.key with
    | .unlinking, none => some { s.setLoad l { f with runner := .dropped } with
        pending := if s.pending f.key = some l then update s.pending f.key none
          else s.pending }
    | _, _ => none

/-- The system after an action; `none` when it is not possible. -/
def step (s : Loads K V) : LoadAction K V → Option (Loads K V)
  | .stale i key =>
    match s.caller i, s.pendingLock key, s.current key with
    | .fresh, none, none =>
      some ((s.register (.queued key)).setCaller i (.sends s.created))
    | .fresh, none, some _ => some (s.setCaller i .served)
    | _, _, _ => none
  | .enqueue i =>
    match s.caller i with
    | .sends l => (s.refreshes.step (.enqueue l)).map fun queue =>
      { s.setCaller i .served with refreshes := queue }
    | _ => none
  | .pump c task =>
    match s.refreshes.calls[c]? with
    | some (.claimLoad l) => (s.load l).bind fun f =>
      (s.refreshes.step (.advance c !f.started)).map fun queue =>
        { s.setLoad l (if f.started then f else f.start task) with refreshes := queue }
    | _ => (s.refreshes.step (.advance c false)).map fun queue => { s with refreshes := queue }
  | .refreshDone j =>
    match s.refreshes.loads[j]? with
    | some l =>
      if (s.load l).any (·.runner.ended) then
        (s.refreshes.step (.done j)).map fun queue => { s with refreshes := queue }
      else none
    | none => none
  | .miss i key inline task =>
    match s.caller i, s.pendingLock key, s.current key with
    | .fresh, none, none =>
      some ((s.register (.new key (task && !inline))).setCaller i
        (if inline then .leads s.created else .locks s.created))
    | .fresh, none, some l =>
      some { s.setCaller i (.claims l) with
        pendingLock := update s.pendingLock key (some i) }
    | _, _, _ => none
  | .claim i inline task nested =>
    match s.caller i with
    | .claims l => (s.load l).map fun f =>
      let s := { s with pendingLock := update s.pendingLock f.key none }
      if f.started then s.setCaller i (if nested then .reentered else .locks l)
      else (s.setLoad l (f.start (task && !inline))).setCaller i
        (if inline then .leads l else .locks l)
    | _ => none
  | .advance i =>
    match (s.caller i).about with
    | some l => (s.load l).bind fun f => s.wait i l f (s.caller i)
    | none => none
  | .run l a => (s.load l).bind fun f => s.run l f a

end Loads

end Fibre.Cache
