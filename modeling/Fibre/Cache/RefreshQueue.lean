import Fibre.Math.Machine
import Fibre.Math.Crew

/-!
# The queue of stale refreshes

At most `limit` refreshes run at once; the rest wait in a channel. The count of those running and
the channel are two objects, so a thread that finds no free slot, or finds another thread already
starting refreshes, leaves its work to a check that thread makes last. Here every atomic access is
a step of its own, and any number of calls are interleaved.

A spawner may run or drop a task on the spot, so that `refresh_done` runs inside
`start_refreshes`; that is the interleaving in which the outer call waits for the inner one.
-/

namespace Fibre.Cache

open Machine List

/-- Stale refreshes waiting to run, first in first out. -/
structure RefreshQueue (α : Type*) where
  channel : List α
  limit : ℕ
  running : ℕ
  /-- Sent and not yet received. Can dip below zero while a send is being counted. -/
  waiting : ℤ
  /-- One thread starts refreshes at a time. -/
  pumping : Bool

namespace RefreshQueue

/-- Where a call is: the atomic access it makes next. -/
inductive Call (α : Type*)
  /-- `enqueue_refresh`, sent: `waiting.fetch_add(1)` -/
  | countSent
  /-- `refresh_done`: `running.fetch_sub(1)` -/
  | freeSlot
  /-- `pumping.swap(true)` -/
  | swapPumping
  | claimSlot
  /-- with a slot: `rx.try_recv()` -/
  | tryRecv
  /-- nothing received: `running.fetch_sub(1)`, then `break` -/
  | breakOff
  /-- `waiting.fetch_sub(1)` -/
  | countReceived (item : α)
  /-- `future.claim()` -/
  | claimLoad (item : α)
  /-- another thread has the load: `running.fetch_sub(1)` -/
  | skipLoad
  /-- `pumping.store(false)` -/
  | clearPumping
  /-- `more_can_start`, the first load -/
  | loadWaiting
  /-- `more_can_start`, the second load -/
  | loadRunning
  | returned
  deriving DecidableEq

variable {α : Type*}

def new (limit : ℕ) : RefreshQueue α where
  channel := []
  limit := limit
  running := 0
  waiting := 0
  pumping := false

/-- The queue, the calls in progress, and the refreshes spawned and not done. -/
structure System (α : Type*) where
  queue : RefreshQueue α
  calls : List (Call α)
  loads : List α

/-- A step of the machine. -/
inductive Action (α : Type*)
  /-- a thread enters `enqueue_refresh` and sends -/
  | enqueue (item : α)
  /-- the `j`-th spawned refresh ends, or its task is dropped: a thread enters `refresh_done` -/
  | done (j : ℕ)
  /-- the next access of a call; `claimed` is what `future.claim()` returns where it is called -/
  | advance (i : ℕ) (claimed : Bool)

namespace System

/-- A new queue, with no calls in progress. -/
def init (limit : ℕ) : System α := ⟨.new limit, [], []⟩

/-- The next access of a call, and where it leads. -/
def access (s : System α) (claimed : Bool) : Call α → Call α × System α
  | .countSent => (.swapPumping, { s with queue.waiting := s.queue.waiting + 1 })
  | .freeSlot => (.swapPumping, { s with queue.running := s.queue.running - 1 })
  | .swapPumping =>
    (if s.queue.pumping then .returned else .claimSlot, { s with queue.pumping := true })
  | .claimSlot =>
    if s.queue.running < s.queue.limit then
      (.tryRecv, { s with queue.running := s.queue.running + 1 })
    else (.clearPumping, s)
  | .tryRecv =>
    match s.queue.channel with
    | [] => (.breakOff, s)
    | item :: channel => (.countReceived item, { s with queue.channel := channel })
  | .breakOff => (.clearPumping, { s with queue.running := s.queue.running - 1 })
  | .countReceived item => (.claimLoad item, { s with queue.waiting := s.queue.waiting - 1 })
  | .claimLoad item =>
    if claimed then (.claimSlot, { s with loads := s.loads ++ [item] }) else (.skipLoad, s)
  | .skipLoad => (.claimSlot, { s with queue.running := s.queue.running - 1 })
  | .clearPumping => (.loadWaiting, { s with queue.pumping := false })
  | .loadWaiting => (if 0 < s.queue.waiting then .loadRunning else .returned, s)
  | .loadRunning => (if s.queue.running < s.queue.limit then .swapPumping else .returned, s)
  | .returned => (.returned, s)

/-- The system after an action; `none` when there is no such call or refresh. The channel's
receiver is part of the queue, so a send always succeeds. -/
def step (s : System α) : Action α → Option (System α)
  | .enqueue item => some { s with
      queue.channel := s.queue.channel ++ [item]
      calls := s.calls ++ [.countSent] }
  | .done j =>
    if j < s.loads.length then
      some { s with loads := s.loads.eraseIdx j, calls := s.calls ++ [.freeSlot] }
    else none
  | .advance i claimed =>
    match s.calls[i]? with
    | none => none
    | some call =>
      let r := s.access claimed call
      some { r.2 with calls := r.2.calls.set i r.1 }

/-- No thread is inside these operations. -/
def AtRest (s : System α) : Prop := ∀ call ∈ s.calls, call = .returned

instance [DecidableEq α] (s : System α) : Decidable s.AtRest :=
  inferInstanceAs (Decidable (∀ call ∈ s.calls, call = .returned))

end System

/-! ### What the program points hold -/

namespace Call

/-- Holds one of the slots that `running` counts. -/
def slots : Call α → ℕ
  | freeSlot | tryRecv | breakOff | countReceived _ | claimLoad _ | skipLoad => 1
  | _ => 0

/-- Has `pumping` set. -/
def pumps : Call α → ℕ
  | claimSlot | tryRecv | breakOff | countReceived _ | claimLoad _ | skipLoad | clearPumping => 1
  | _ => 0

/-- Has sent what `waiting` does not count yet. -/
def sent : Call α → ℕ
  | countSent => 1
  | _ => 0

/-- Has received what `waiting` still counts. -/
def received : Call α → ℕ
  | countReceived _ => 1
  | _ => 0

/-- Is in progress. -/
def inside : Call α → ℕ
  | returned => 0
  | _ => 1

/-- What the call has received, and not claimed yet. -/
def item : Call α → Option α
  | countReceived item | claimLoad item => some item
  | _ => none

theorem pumps_le_inside (c : Call α) : c.pumps ≤ c.inside := by
  cases c <;> simp [pumps, inside]

theorem sent_le_inside (c : Call α) : c.sent ≤ c.inside := by
  cases c <;> simp [sent, inside]

end Call

open Crew Call

namespace System

variable {s : System α}

/-- What the counters say about the calls in progress. -/
structure Inv (s : System α) : Prop where
  running : s.queue.running = s.loads.length + weigh slots s.calls
  limited : s.queue.running ≤ s.queue.limit
  waiting : s.queue.waiting + weigh sent s.calls = s.queue.channel.length + weigh received s.calls
  pumping : weigh pumps s.calls = if s.queue.pumping then 1 else 0
  covered : s.queue.channel ≠ [] → s.queue.running < s.queue.limit → 0 < weigh inside s.calls

theorem inv_init (limit : ℕ) : (init limit : System α).Inv where
  running := rfl
  limited := Nat.zero_le limit
  waiting := rfl
  pumping := rfl
  covered h := absurd rfl h

theorem Inv.move (h : s.Inv) {i : ℕ} {c c' : Call α} (hi : s.calls[i]? = some c) {t : System α}
    (hcalls : t.calls = s.calls.set i c')
    (hrunning : t.queue.running + c.slots + s.loads.length =
      s.queue.running + c'.slots + t.loads.length)
    (hlimited : t.queue.running ≤ t.queue.limit)
    (hwaiting : t.queue.waiting + c'.sent + c.received + s.queue.channel.length =
      s.queue.waiting + c.sent + c'.received + t.queue.channel.length)
    (hpumping : (if t.queue.pumping then 1 else 0) + c.pumps =
      (if s.queue.pumping then 1 else 0) + c'.pumps)
    (hcovered : t.queue.channel ≠ [] → t.queue.running < t.queue.limit →
      0 < weigh inside t.calls) : t.Inv := by
  have hslots := weigh_set slots hi c'
  have hsent := weigh_set sent hi c'
  have hreceived := weigh_set received hi c'
  have hpumps := weigh_set pumps hi c'
  have h₁ := h.running
  have h₂ := h.waiting
  have h₃ := h.pumping
  rw [← hcalls] at hslots hsent hreceived hpumps
  exact ⟨by omega, hlimited, by omega, by omega, hcovered⟩

/-- A call still in progress covers whatever waits. -/
theorem inside_pos {i : ℕ} {c c' : Call α} (hi : s.calls[i]? = some c) (hc' : c'.inside = 1) :
    0 < weigh inside (s.calls.set i c') := by
  have hmove := weigh_set inside hi c'
  have hle := le_weigh inside hi
  omega

theorem Inv.running_pos (h : s.Inv) {i : ℕ} {c : Call α} (hi : s.calls[i]? = some c)
    (hc : c.slots = 1) : 0 < s.queue.running := by
  have hle := le_weigh slots hi
  have := h.running
  omega

theorem Inv.pumping_of_pumps (h : s.Inv) {i : ℕ} {c : Call α} (hi : s.calls[i]? = some c)
    (hc : c.pumps = 1) : s.queue.pumping = true := by
  have hle := le_weigh pumps hi
  have hpumping := h.pumping
  split at hpumping
  · assumption
  · omega

theorem Inv.advance (h : s.Inv) {i : ℕ} {call : Call α} (hi : s.calls[i]? = some call)
    (claimed : Bool) :
    ({ (s.access claimed call).2 with
      calls := (s.access claimed call).2.calls.set i (s.access claimed call).1 } :
        System α).Inv := by
  have hlimited := h.limited
  cases call with
  | countSent =>
    refine h.move hi rfl rfl hlimited ?_ rfl fun _ _ => inside_pos hi rfl
    simp [access, sent, received]
  | freeSlot =>
    have hpos := h.running_pos hi rfl
    refine h.move hi rfl ?_ ?_ rfl rfl fun _ _ => inside_pos hi rfl
    · simp only [access, slots]
      omega
    · simp only [access]
      omega
  | swapPumping =>
    cases hp : s.queue.pumping with
    | false =>
      simp only [access, hp, Bool.false_eq_true, if_false]
      exact h.move hi rfl rfl hlimited rfl (by simp [hp, pumps]) fun _ _ => inside_pos hi rfl
    | true =>
      -- the call leaves its work to the thread that is pumping
      simp only [access, hp, if_true]
      refine h.move hi rfl rfl hlimited rfl (by simp [hp, pumps]) ?_
      intro _ _
      have hmove := weigh_set pumps hi .returned
      have hone := h.pumping
      have hle := weigh_mono pumps_le_inside (s.calls.set i .returned)
      simp only [hp, if_true, pumps] at hone hmove
      dsimp only
      omega
  | claimSlot =>
    simp only [access]
    split_ifs with hfree
    · exact h.move hi rfl rfl hfree rfl rfl fun _ _ => inside_pos hi rfl
    · exact h.move hi rfl rfl hlimited rfl rfl fun _ _ => inside_pos hi rfl
  | tryRecv =>
    cases hc : s.queue.channel with
    | nil =>
      simp only [access, hc]
      exact h.move hi rfl rfl hlimited rfl rfl fun _ _ => inside_pos hi rfl
    | cons item channel =>
      simp only [access, hc]
      refine h.move hi rfl rfl hlimited ?_ rfl fun _ _ => inside_pos hi rfl
      simp only [sent, received, hc, length_cons]
      omega
  | breakOff =>
    have hpos := h.running_pos hi rfl
    refine h.move hi rfl ?_ ?_ rfl rfl fun _ _ => inside_pos hi rfl
    · simp only [access, slots]
      omega
    · simp only [access]
      omega
  | countReceived item =>
    refine h.move hi rfl rfl hlimited ?_ rfl fun _ _ => inside_pos hi rfl
    simp [access, sent, received]
  | claimLoad item =>
    simp only [access]
    split_ifs
    · refine h.move hi rfl ?_ hlimited rfl rfl fun _ _ => inside_pos hi rfl
      simp only [slots, length_append, length_singleton]
      omega
    · exact h.move hi rfl rfl hlimited rfl rfl fun _ _ => inside_pos hi rfl
  | skipLoad =>
    have hpos := h.running_pos hi rfl
    refine h.move hi rfl ?_ ?_ rfl rfl fun _ _ => inside_pos hi rfl
    · simp only [access, slots]
      omega
    · simp only [access]
      omega
  | clearPumping =>
    have hp := h.pumping_of_pumps hi rfl
    refine h.move hi rfl rfl hlimited rfl ?_ fun _ _ => inside_pos hi rfl
    simp [access, pumps, hp]
  | loadWaiting =>
    simp only [access]
    split_ifs with hw
    · exact h.move hi rfl rfl hlimited rfl rfl fun _ _ => inside_pos hi rfl
    · refine h.move hi rfl rfl hlimited rfl rfl ?_
      intro hne _
      -- what waits is not counted yet, so the call that sent it comes by here
      have hmove := weigh_set sent hi .returned
      have hle := weigh_mono sent_le_inside (s.calls.set i .returned)
      have hwaiting := h.waiting
      have hpos := length_pos_iff.mpr hne
      simp only [sent] at hmove
      dsimp only at hpos ⊢
      omega
  | loadRunning =>
    simp only [access]
    split_ifs with hr
    · exact h.move hi rfl rfl hlimited rfl rfl fun _ _ => inside_pos hi rfl
    · exact h.move hi rfl rfl hlimited rfl rfl fun _ hfree => absurd hfree hr
  | returned =>
    have hset : s.calls.set i .returned = s.calls := by
      obtain ⟨hlt, heq⟩ := List.getElem?_eq_some_iff.mp hi
      rw [← heq, set_getElem_self]
    simp only [access, hset]
    exact h

theorem Inv.step (h : s.Inv) {a : Action α} {t : System α} (hstep : s.step a = some t) :
    t.Inv := by
  have hrunning := h.running
  have hwaiting := h.waiting
  have hpumping := h.pumping
  cases a with
  | enqueue item =>
    obtain rfl : _ = t := Option.some.inj hstep
    refine ⟨?_, h.limited, ?_, ?_, fun _ _ => ?_⟩
    · simpa [slots] using hrunning
    · simp only [weigh_append_singleton, sent, received, length_append,
        length_singleton]
      omega
    · simpa [pumps] using hpumping
    · simp [inside]
  | done j =>
    simp only [System.step] at hstep
    split_ifs at hstep with hj
    obtain rfl : _ = t := Option.some.inj hstep
    refine ⟨?_, h.limited, ?_, ?_, fun _ _ => ?_⟩
    · simp only [weigh_append_singleton, slots, length_eraseIdx_of_lt hj]
      omega
    · simpa [sent, received] using hwaiting
    · simpa [pumps] using hpumping
    · simp [inside]
  | advance i claimed =>
    simp only [System.step] at hstep
    split at hstep
    · simp at hstep
    · next call hi =>
      obtain rfl : _ = t := Option.some.inj hstep
      exact h.advance hi claimed

theorem limit_step {a : Action α} {t : System α} (hstep : s.step a = some t) :
    t.queue.limit = s.queue.limit := by
  have haccess : ∀ claimed call, (s.access claimed call).2.queue.limit = s.queue.limit := by
    intro claimed call
    cases call <;> simp only [access] <;> split <;> rfl
  cases a <;> simp only [System.step] at hstep
  · obtain rfl : _ = t := Option.some.inj hstep
    rfl
  · split_ifs at hstep
    obtain rfl : _ = t := Option.some.inj hstep
    rfl
  · split at hstep
    · simp at hstep
    · obtain rfl : _ = t := Option.some.inj hstep
      exact haccess _ _

theorem Inv.full_of_atRest (h : s.Inv) (hrest : s.AtRest) (hne : s.queue.channel ≠ []) :
    s.loads.length = s.queue.limit ∧ s.queue.running = s.queue.limit := by
  have hrunning := h.running
  have hlimited := h.limited
  have hslots : weigh slots s.calls = 0 :=
    weigh_eq_zero fun c hc => by simp [hrest c hc, slots]
  have hinside : weigh inside s.calls = 0 :=
    weigh_eq_zero fun c hc => by simp [hrest c hc, inside]
  have hfull : ¬ s.queue.running < s.queue.limit := fun hfree => by
    have := h.covered hne hfree
    omega
  omega

/-- What was sent and is not claimed: it is in the channel, or a call has received it. -/
def Holds (s : System α) (item : α) : Prop :=
  item ∈ s.queue.channel ∨ ∃ call ∈ s.calls, call.item = some item

theorem holds_enqueue {item item' : α} {t : System α} (hstep : s.step (.enqueue item') = some t)
    (h : s.Holds item ∨ item = item') : t.Holds item := by
  obtain rfl : _ = t := Option.some.inj hstep
  rcases h with (h | ⟨call, hcall, hitem⟩) | rfl
  · exact .inl (by simp [h])
  · exact .inr ⟨call, by simp [hcall], hitem⟩
  · exact .inl (by simp)

theorem holds_done {item : α} {j : ℕ} {t : System α} (hstep : s.step (.done j) = some t)
    (h : s.Holds item) : t.Holds item := by
  simp only [System.step] at hstep
  split_ifs at hstep
  obtain rfl : _ = t := Option.some.inj hstep
  refine h.imp id ?_
  rintro ⟨call, hcall, hitem⟩
  exact ⟨call, by simp [hcall], hitem⟩

/-- What a call receives it keeps until it has claimed it. -/
theorem item_access {claimed : Bool} {call : Call α} {item : α}
    (h : item ∈ s.queue.channel ∨ call.item = some item) (hne : call ≠ .claimLoad item) :
    item ∈ (s.access claimed call).2.queue.channel ∨
      (s.access claimed call).1.item = some item := by
  cases call with
  | tryRecv =>
    cases hc : s.queue.channel with
    | nil => simp [hc, Call.item] at h
    | cons item' channel =>
      have h : item = item' ∨ item ∈ channel := by simpa [hc, Call.item] using h
      simpa [System.access, hc, Call.item, eq_comm] using h.symm
  | countReceived item' => simpa [System.access, Call.item] using h
  | claimLoad item' =>
    have hne : item' ≠ item := by simpa using hne
    simp only [System.access]
    split_ifs <;> simpa [Call.item, hne] using h
  | _ =>
    simp only [Call.item, reduceCtorEq, or_false] at h
    simp only [System.access]
    first | exact .inl h | (split_ifs <;> exact .inl h)

theorem calls_access (s : System α) (claimed : Bool) (call : Call α) :
    (s.access claimed call).2.calls = s.calls := by
  cases call <;> simp only [System.access] <;> split <;> rfl

theorem holds_advance {item : α} {i : ℕ} {claimed : Bool} {t : System α}
    (hstep : s.step (.advance i claimed) = some t) (h : s.Holds item)
    (hne : s.calls[i]? ≠ some (.claimLoad item)) : t.Holds item := by
  simp only [System.step] at hstep
  split at hstep
  · simp at hstep
  · next call hi =>
    obtain rfl : _ = t := Option.some.inj hstep
    have hlt : i < s.calls.length := (List.getElem?_eq_some_iff.mp hi).1
    have hmoved : (s.access claimed call).1 ∈
        (s.access claimed call).2.calls.set i (s.access claimed call).1 := by
      rw [calls_access]
      exact mem_set hlt _
    have hset (h : item ∈ s.queue.channel ∨ call.item = some item) :
        System.Holds { (s.access claimed call).2 with
          calls := (s.access claimed call).2.calls.set i (s.access claimed call).1 } item :=
      (item_access h fun heq => hne (by rw [hi, heq])).imp id fun hitem => ⟨_, hmoved, hitem⟩
    rcases h with h | ⟨c, hc, hitem⟩
    · exact hset (.inl h)
    · obtain ⟨j, hj⟩ := mem_iff_getElem?.mp hc
      rcases eq_or_ne i j with rfl | hij
      · obtain rfl : call = c := Option.some.inj (hi.symm.trans hj)
        exact hset (.inr hitem)
      · refine .inr ⟨c, ?_, hitem⟩
        rw [calls_access]
        exact mem_iff_getElem?.mpr ⟨j, by rwa [List.getElem?_set_ne hij]⟩

/-- In every interleaving of any number of calls, at most `limit` refreshes run; and when no
thread is inside the queue's operations, a refresh waits only while exactly `limit` run. -/
theorem refreshes_limited {limit : ℕ} {s : System α}
    (h : Reachable System.step (init limit) s) :
    s.loads.length ≤ limit ∧ s.queue.running ≤ limit ∧
      (s.AtRest → s.queue.channel ≠ [] →
        s.loads.length = limit ∧ s.queue.running = limit) := by
  obtain ⟨hinv, rfl⟩ : s.Inv ∧ s.queue.limit = limit :=
    Run.invariant (I := fun s => s.Inv ∧ s.queue.limit = limit) h ⟨inv_init limit, rfl⟩
      fun _ _ _ ht _ hstep => ⟨ht.1.step hstep, (limit_step hstep).trans ht.2⟩
  have hrunning := hinv.running
  have hlimited := hinv.limited
  exact ⟨by omega, hlimited, hinv.full_of_atRest⟩

/-- Two refreshes with a limit of one: the first runs, the second waits. -/
theorem refreshes_limited_two_enqueued :
    ∃ s : System ℕ, Reachable System.step (init 1) s ∧ s.AtRest ∧
      s.queue.channel = [8] ∧ s.loads.length = 1 := by
  have hexec : exec System.step (fun _ _ => true) (init 1)
      (Action.enqueue 7 :: List.replicate 9 (Action.advance 0 true) ++
        Action.enqueue 8 :: List.replicate 6 (Action.advance 1 true)) =
      some ⟨⟨[8], 1, 1, 1, false⟩, [.returned, .returned], [7]⟩ := rfl
  have hrun := reachable_of_exec hexec
  refine ⟨_, hrun, by decide, rfl, ?_⟩
  exact ((refreshes_limited hrun).2.2 (by decide) (by decide)).1

end System

end RefreshQueue

end Fibre.Cache
