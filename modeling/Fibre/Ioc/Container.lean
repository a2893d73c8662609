import Mathlib.Data.Finset.Basic
import Fibre.Math.Machine

/-!
# The container of services

A container maps the keys of services to their providers. The map is cut into shards, each with a lock
for many readers or one writer. `get` holds a read lock on the shard of its key from the moment it has
found the provider to its end, while it runs the factory of the provider. The factory may call `get`
and register services itself. A singleton is kept in a cell, and who finds it being initialised waits
until that is over.

Each thread has a set of the keys that it is resolving. A `get` of one of these panics.
-/

namespace Fibre.Ioc

open Function

/-- A singleton with the state of its cell, or a transient service. -/
inductive Provider
  | singleton
  | transient
  deriving DecidableEq

/-- A cell: without a value, being initialised by a thread, or with a value. -/
inductive Cell
  | empty
  | initialising (t : ℕ)
  | full
  deriving DecidableEq

inductive Stage
  /-- the key is in the set of the thread, the map is about to be read -/
  | looking
  /-- a provider was found, with its shard locked -/
  | found (id : ℕ)
  /-- its factory runs -/
  | running (id : ℕ)
  deriving DecidableEq

/-- A `get` under way. -/
structure Visit (K : Type*) where
  key : K
  stage : Stage

/-- The visit has a reference into the map. -/
def Visit.borrows {K : Type*} (v : Visit K) : Bool :=
  match v.stage with
  | .looking => false
  | _ => true

/-- A registration under way: the provider, and whether its value is there already. -/
structure Registration (K : Type*) where
  key : K
  provider : Provider
  ready : Bool
  /-- it has the write lock -/
  locked : Bool

/-- A thread: its `RESOLVING_STACK`, the calls of `get` it is in, the innermost first, and the
registration it is at. -/
structure Thread (K : Type*) where
  resolving : Finset K
  visits : List (Visit K)
  registering : Option (Registration K)

/-- The container. A provider is told by the number of its registration. -/
structure System (K : Type*) where
  map : K → Option ℕ
  provider : ℕ → Provider
  cell : ℕ → Cell
  /-- how many providers were registered -/
  made : ℕ
  /-- who has the write lock of a shard -/
  writer : ℕ → Option ℕ
  threads : List (Thread K)
  /-- the panics for a circular dependency: the thread and the key -/
  circular : List (ℕ × K)

inductive Action (K : Type*)
  /-- another thread -/
  | spawn
  /-- `get`, by a caller or by the factory that the thread runs -/
  | get (t : ℕ) (k : K)
  /-- the map is read -/
  | look (t : ℕ)
  /-- the provider is asked for its value -/
  | ask (t : ℕ)
  /-- the factory returns -/
  | ret (t : ℕ)
  /-- the factory panics -/
  | unwind (t : ℕ)
  /-- a registration, of an instance if the value is ready -/
  | register (t : ℕ) (k : K) (provider : Provider) (ready : Bool)
  /-- the shard is locked for the registration -/
  | lock (t : ℕ)
  | insert (t : ℕ)

/-- The thread that takes a step. -/
def Action.thread {K : Type*} : Action K → ℕ
  | .get t _ | .look t | .ask t | .ret t | .unwind t | .register t _ _ _ | .lock t | .insert t => t
  | .spawn => 0

namespace Thread

variable {K : Type*}

def idle : Thread K := ⟨∅, [], none⟩

/-- The thread can make a call: it is in no call, or it runs a factory. -/
def free (th : Thread K) : Bool :=
  th.registering.isNone &&
    match th.visits with
    | [] => true
    | v :: _ =>
      match v.stage with
      | .running _ => true
      | _ => false

def borrows (shard : K → ℕ) (th : Thread K) (h : ℕ) : Bool :=
  th.visits.any fun v => v.borrows && shard v.key == h

variable [DecidableEq K]

/-- A `get` begins: the guard puts the key into the set. -/
def enter (th : Thread K) (k : K) : Thread K :=
  { th with
    resolving := Insert.insert k th.resolving
    visits := ⟨k, .looking⟩ :: th.visits }

/-- A `get` ends: its reference is dropped, and its key is taken out of the set. -/
def leave (th : Thread K) (k : K) (rest : List (Visit K)) : Thread K :=
  { th with
    resolving := th.resolving.erase k
    visits := rest }

end Thread

namespace System

variable {K : Type*}

def init : System K where
  map _ := none
  provider _ := .transient
  cell _ := .empty
  made := 0
  writer _ := none
  threads := []
  circular := []

def setThread (s : System K) (t : ℕ) (th : Thread K) : System K :=
  { s with threads := s.threads.set t th }

/-- The cell of a singleton changes; a transient service has none. -/
def setCell (s : System K) (id : ℕ) (cell : Cell) : System K :=
  if s.provider id = .singleton then { s with cell := update s.cell id cell } else s

variable [DecidableEq K]

/-- One step of a thread, which has a state already. -/
def act (shard : K → ℕ) (s : System K) (t : ℕ) (th : Thread K) : Action K → Option (System K)
  | .get _ k =>
    if !th.free then none
    -- the guard panics, and nothing has changed
    else if k ∈ th.resolving then some { s with circular := s.circular ++ [(t, k)] }
    else some (s.setThread t (th.enter k))
  | .look _ =>
    match th.visits with
    | ⟨k, .looking⟩ :: rest =>
      if (s.writer (shard k)).isSome then none
      else
        match s.map k with
        | none => some (s.setThread t (th.leave k rest))
        | some id => some (s.setThread t { th with visits := ⟨k, .found id⟩ :: rest })
    | _ => none
  | .ask _ =>
    match th.visits with
    | ⟨k, .found id⟩ :: rest =>
      match s.provider id, s.cell id with
      | .singleton, .full => some (s.setThread t (th.leave k rest))
      | .singleton, .initialising _ => none
      | _, _ =>
        some ((s.setCell id (.initialising t)).setThread t
          { th with visits := ⟨k, .running id⟩ :: rest })
    | _ => none
  | .ret _ =>
    match th.registering, th.visits with
    | none, ⟨k, .running id⟩ :: rest =>
      some ((s.setCell id .full).setThread t (th.leave k rest))
    | _, _ => none
  | .unwind _ =>
    match th.registering, th.visits with
    | none, ⟨k, .running id⟩ :: rest =>
      -- the cell is left without a value
      some ((s.setCell id .empty).setThread t (th.leave k rest))
    | _, _ => none
  | .register _ k provider ready =>
    if th.free then
      some (s.setThread t { th with registering := some ⟨k, provider, ready, false⟩ })
    else none
  | .lock _ =>
    match th.registering with
    | some ⟨k, provider, ready, false⟩ =>
      if (s.writer (shard k)).isSome || s.threads.any fun u => u.borrows shard (shard k) then none
      else
        some { s.setThread t { th with registering := some ⟨k, provider, ready, true⟩ } with
          writer := update s.writer (shard k) (some t) }
    | _ => none
  | .insert _ =>
    match th.registering with
    | some ⟨k, provider, ready, true⟩ =>
      some { s.setThread t { th with registering := none } with
        map := update s.map k (some s.made)
        provider := update s.provider s.made provider
        cell := update s.cell s.made (if ready then .full else .empty)
        made := s.made + 1
        writer := update s.writer (shard k) none }
    | _ => none
  | .spawn => none

def step (shard : K → ℕ) (s : System K) (a : Action K) : Option (System K) :=
  match a with
  | .spawn => some { s with threads := s.threads ++ [.idle] }
  | a => s.threads[a.thread]?.bind fun th => s.act shard a.thread th a

/-- A thread waits for another one: for the shard that this one has locked, for the cell that it
initialises, or to lock a shard that it has a lock on. -/
inductive Waits (shard : K → ℕ) (s : System K) (t u : ℕ) : Prop
  | read (th : Thread K) (k : K) (rest : List (Visit K)) : s.threads[t]? = some th →
      th.visits = ⟨k, .looking⟩ :: rest → s.writer (shard k) = some u → Waits shard s t u
  | cell (th : Thread K) (k : K) (id : ℕ) (rest : List (Visit K)) : s.threads[t]? = some th →
      th.visits = ⟨k, .found id⟩ :: rest → s.provider id = .singleton →
      s.cell id = .initialising u → Waits shard s t u
  | write (th : Thread K) (r : Registration K) : s.threads[t]? = some th →
      th.registering = some r → r.locked = false → s.writer (shard r.key) = some u →
      Waits shard s t u
  | exclude (th thu : Thread K) (r : Registration K) : s.threads[t]? = some th →
      th.registering = some r → r.locked = false → s.threads[u]? = some thu →
      thu.borrows shard (shard r.key) → Waits shard s t u

end System

end Fibre.Ioc
