import Fibre.Channels.Mpsc.LedgerSteps

/-!
# Delivery

What was sent is told by the calls: a call offers items, and when it returns it has reported how many
of them it sent. What was received is told by the tickets. The two meet in the ledger: the values
accepted from a producer are the ones its calls have sent, and the consumer has a first part of
them.
-/

namespace Fibre.Channels.Mpsc

open Machine Function List Option

variable {T : Type*} {shape : Shape}

namespace Producer

/-- The send that is under way. -/
def call : Producer T → Option (Call T)
  | .enter c | .again _ c | .runCap _ c | .gate _ c _ | .window _ c _ _ | .claim _ c _
  | .credit _ c _ _ | .waiting c | .publish c _ => some c
  | .resident w | .retired w _ | .install w _ | .write w => some w.call
  | .idle | .lenTail | .lenDrained _ | .done _ => none

/-- How many items a call has reported as sent. -/
def reported : Producer T → ℕ
  | .done (.sent n) | .done (.full n _) | .done (.closed n _) => n
  | _ => 0

variable {pc : Producer T}

theorem call_attempt (m : Mode) (c : Call T) :
    (attempt m c).call = some c ∧ (attempt m c).reported = 0 := by
  unfold attempt
  split <;> exact ⟨rfl, rfl⟩

theorem call_of_resting (h : pc.resting) : pc.call = none := by
  cases pc with
  | idle | done r => rfl
  | _ => cases h

theorem not_holds_of_call (h : pc.call = none) (t : ℕ) : ¬ pc.holds t := by
  cases pc with
  | idle | lenTail | lenDrained tail | done r => exact fun ht => ht
  | _ => cases h

/-- The send goes on, or the call returns what it has sent. -/
def Follows (pc pc' : Producer T) : Prop :=
  pc'.call = pc.call ∧ pc'.reported = 0 ∨
    ∃ c, pc.call = some c ∧ pc'.call = none ∧ pc'.reported = c.sent

theorem follows_attempt {m : Mode} {c : Call T} (h : pc.call = some c) :
    pc.Follows (attempt m c) := by
  obtain ⟨hcall, hzero⟩ := call_attempt m c
  exact Or.inl ⟨hcall.trans h.symm, hzero⟩

theorem follows_closedWindow {m : Mode} {c : Call T} (h : pc.call = some c) :
    pc.Follows (closedWindow m c) := by
  unfold closedWindow
  split
  · exact Or.inl ⟨h.symm, rfl⟩
  · cases m with
    | hot =>
      dsimp only
      split
      · exact Or.inl ⟨h.symm, rfl⟩
      · exact follows_attempt h
    | cold => exact Or.inr ⟨c, h, rfl, rfl⟩

theorem follows_finish {w : Writes T} (h : pc.call = some w.call) : pc.Follows (finish w) := by
  unfold finish
  split
  · exact Or.inr ⟨w.call, h, rfl, rfl⟩
  split
  · exact follows_attempt h
  split
  · exact Or.inl ⟨h.symm, rfl⟩
  split
  · cases w.mode with
    | hot => exact Or.inl ⟨h.symm, rfl⟩
    | cold => exact Or.inr ⟨w.call, h, rfl, rfl⟩
  · exact Or.inl ⟨h.symm, rfl⟩

end Producer

namespace Shared

variable {s u : Shared T} {closed : ℕ → Bool} {pc pc' : Producer T}

theorem follows_of_advance (hs : s.advanceProducer shape closed pc = some (u, pc'))
    (hpc : ∀ m c t k, pc ≠ .credit m c t k) : pc.Follows pc' := by
  cases pc with
  | idle | waiting c | done r => simp [advanceProducer] at hs
  | credit m c t k => exact absurd rfl (hpc m c t k)
  | enter c | again m c =>
    cases hs
    split
    · exact Or.inr ⟨_, rfl, rfl, rfl⟩
    · exact Producer.follows_attempt rfl
  | runCap m c | gate m c r | claim m c k | publish c d | lenTail | lenDrained tail =>
    cases hs
    exact Or.inl ⟨rfl, rfl⟩
  | window m c r g =>
    cases hs
    split
    · exact Producer.follows_closedWindow rfl
    · exact Or.inl ⟨rfl, rfl⟩
  | resident w =>
    simp only [advanceProducer] at hs
    split at hs
    · cases hs
      exact Producer.follows_finish rfl
    · cases hs
      split <;> exact Or.inl ⟨rfl, rfl⟩
  | retired w cur =>
    simp only [advanceProducer] at hs
    split at hs
    · cases hs
    · cases hs
      exact Or.inl ⟨rfl, rfl⟩
  | install w cur =>
    simp only [advanceProducer] at hs
    split at hs
    · cases hs
    split at hs
    · cases hs
      exact Or.inl ⟨rfl, rfl⟩
    · cases hs
      exact Or.inl ⟨rfl, rfl⟩
  | write w =>
    simp only [advanceProducer] at hs
    split at hs
    · cases hs
    · cases hs
      split <;> exact Or.inl ⟨rfl, rfl⟩

theorem holds_of_advance (hs : s.advanceProducer shape closed pc = some (u, pc')) {t : ℕ}
    (ht : pc'.holds t) : pc.holds t ∨ s.gTail ≤ t := by
  cases pc with
  | idle | waiting c | done r => simp [advanceProducer] at hs
  | credit m c t₀ k =>
    cases hs
    exact Or.inl (mem_map_fst_writes.mp ht)
  | enter c | again m c =>
    cases hs
    split at ht
    · exact False.elim ht
    · exact absurd ht ((@Ledger.Inv.attempt_quiet _ shape 0 _ _ s []).1 t)
  | runCap m c | gate m c r | publish c d | lenTail | lenDrained tail =>
    cases hs
    exact False.elim ht
  | claim m c k =>
    cases hs
    exact Or.inr ht.1
  | window m c r g =>
    cases hs
    split at ht
    · exact absurd ht ((@Ledger.Inv.closedWindow_quiet _ shape 0 _ _ s []).1 t)
    · exact False.elim ht
  | resident w =>
    simp only [advanceProducer] at hs
    split at hs
    · cases hs
      exact absurd ht ((@Ledger.Inv.finish_quiet _ shape 0 _ s []).1 t)
    · cases hs
      split at ht <;> exact Or.inl ht
  | retired w cur =>
    simp only [advanceProducer] at hs
    split at hs
    · cases hs
    · cases hs
      exact Or.inl ht
  | install w cur =>
    simp only [advanceProducer] at hs
    split at hs
    · cases hs
    split at hs
    · cases hs
      exact Or.inl ht
    · cases hs
      exact Or.inl ht
  | write w =>
    simp only [advanceProducer] at hs
    split at hs
    · cases hs
    · next e v rest htodo =>
      cases hs
      left
      show t ∈ w.todo.map Prod.fst
      rw [htodo]
      split at ht <;> exact mem_cons_of_mem _ ht

end Shared

/-! ### What the calls have sent -/

def Ledger.entries (l : Ledger T) (p : ℕ) : List (Entry T) :=
  l.accepted.filter fun e => e.producer = p

/-- The channel with its ledger, the items the latest call of each producer was made with, and what
the calls that returned have reported as sent. -/
structure Traffic (T : Type*) where
  ledger : Ledger T
  opened : ℕ → List T
  returned : ℕ → List T

namespace Traffic

/-- A new channel. -/
def init (shape : Shape) (publishChunk : ℕ) : Traffic T :=
  ⟨.init shape publishChunk, fun _ => [], fun _ => []⟩

/-- The call of a producer returns, if it has come to its end. -/
def settle (t : Traffic T) (p : ℕ) (l : Ledger T) : Traffic T where
  ledger := l
  opened := t.opened
  returned := update t.returned p
    (t.returned p ++ (t.opened p).take (l.system.producer p).reported)

def step (shape : Shape) (t : Traffic T) (a : Action T) : Option (Traffic T) :=
  (t.ledger.step shape a).map fun l =>
    match a with
    | .send p c => { t with ledger := l, opened := update t.opened p c.items }
    | .producer p | .giveUp p => t.settle p l
    | _ => { t with ledger := l }

def underWay (t : Traffic T) (p : ℕ) : List T :=
  match (t.ledger.system.producer p).call with
  | some c => (t.opened p).take c.sent
  | none => []

/-- The values accepted from a producer are the ones it was told of and the ones its call has
sent. -/
structure Accounts (t : Traffic T) (p : ℕ) : Prop where
  sent : (t.ledger.entries p).map Entry.item = t.returned p ++ t.underWay p
  /-- the call has the other items left -/
  rest : ∀ c, (t.ledger.system.producer p).call = some c → (t.opened p).drop c.sent = c.items

structure Inv (shape : Shape) (t : Traffic T) : Prop where
  ledger : t.ledger.Inv shape
  accounts : ∀ p, t.Accounts p
  /-- a ticket with a value is held by the producer that sent the value -/
  own : ∀ e ∈ t.ledger.accepted, ∀ q, (t.ledger.system.producer q).holds e.ticket → q = e.producer
  /-- what was reported is in its slots -/
  settled : ∀ p, ∀ e ∈ (t.ledger.entries p).take (t.returned p).length,
    e.ticket ∉ t.ledger.system.held

namespace Inv

variable {t t' : Traffic T} {p : ℕ} {pc : Producer T} {u : Shared T} {l : Ledger T}

theorem init (publishChunk : ℕ) : (init shape publishChunk : Traffic T).Inv shape where
  ledger := Ledger.Inv.init shape publishChunk
  accounts p := ⟨rfl, fun c hc => by cases hc⟩
  own e he := absurd he not_mem_nil
  settled p e he := absurd he not_mem_nil

theorem still (h : t.Inv shape) (hl : l.Inv shape)
    (hproducer : l.system.producer = t.ledger.system.producer)
    (haccepted : l.accepted = t.ledger.accepted) : Inv shape { t with ledger := l } where
  ledger := hl
  accounts p := by
    obtain ⟨hsent, hrest⟩ := h.accounts p
    refine ⟨?_, ?_⟩
    · dsimp only [Ledger.entries, underWay] at hsent ⊢
      rw [haccepted, hproducer]
      exact hsent
    · dsimp only
      rw [hproducer]
      exact hrest
  own := by
    dsimp only
    rw [haccepted, hproducer]
    exact h.own
  settled := by
    dsimp only [Ledger.entries, System.held]
    rw [haccepted, hproducer]
    exact h.settled

theorem entries_append_of_ne {todo : List (ℕ × Option T)} {accepted : List (Entry T)} {q : ℕ}
    (hqp : q ≠ p) : (accepted ++ entriesOf p todo).filter (fun e => e.producer = q) =
      accepted.filter fun e => e.producer = q := by
  rw [filter_append, append_right_eq_self, filter_eq_nil_iff]
  intro e he
  rw [decide_eq_true_eq, (mem_entriesOf.mp he).1]
  exact hqp.symm

theorem entries_append_self {todo : List (ℕ × Option T)} {accepted : List (Entry T)} :
    (accepted ++ entriesOf p todo).filter (fun e => e.producer = p) =
      accepted.filter (fun e => e.producer = p) ++ entriesOf p todo := by
  rw [filter_append, append_cancel_left_eq, filter_eq_self]
  intro e he
  rw [decide_eq_true_eq]
  exact (mem_entriesOf.mp he).1

theorem move (h : t.Inv shape) (hl : l.Inv shape) {todo : List (ℕ × Option T)}
    {opened returned : ℕ → List T}
    (hproducer : l.system.producer = update t.ledger.system.producer p pc)
    (haccepted : l.accepted = t.ledger.accepted ++ entriesOf p todo)
    (hopened : ∀ q, q ≠ p → opened q = t.opened q)
    (hreturned : ∀ q, q ≠ p → returned q = t.returned q)
    (haccounts : Accounts ⟨l, opened, returned⟩ p)
    (hholds : ∀ n, pc.holds n →
      (t.ledger.system.producer p).holds n ∨ t.ledger.system.shared.gTail ≤ n)
    (htodo : ∀ w ∈ todo, (t.ledger.system.producer p).holds w.1)
    (hsettled : returned p = t.returned p ∨ ∀ n, ¬ pc.holds n) :
    Inv shape ⟨l, opened, returned⟩ := by
  have hself : l.system.producer p = pc := by rw [hproducer, update_self]
  have hother : ∀ q, q ≠ p → l.system.producer q = t.ledger.system.producer q := fun q hq => by
    rw [hproducer, update_of_ne hq]
  -- who holds the ticket of a value that was there before held it before
  have hback : ∀ e ∈ t.ledger.accepted, ∀ q, (l.system.producer q).holds e.ticket →
      (t.ledger.system.producer q).holds e.ticket := by
    intro e he q hq
    by_cases hqp : q = p
    · subst hqp
      rw [hself] at hq
      refine (hholds _ hq).resolve_right fun hge => ?_
      exact absurd (h.ledger.table.value_lt _ _ (valueIn_of_mem h.ledger.nodup he))
        (not_lt.mpr hge)
    · rwa [hother q hqp] at hq
  have hold : ∀ q, ∀ e ∈ (t.ledger.entries q).take (t.returned q).length,
      e.ticket ∉ l.system.held := by
    rintro q e he ⟨r, hr⟩
    have hmem : e ∈ t.ledger.accepted := (mem_filter.mp (mem_of_mem_take he)).1
    exact h.settled q e he ⟨r, hback e hmem r hr⟩
  have hown : ∀ e ∈ l.accepted, ∀ q, (l.system.producer q).holds e.ticket → q = e.producer := by
    intro e he q hq
    rw [haccepted] at he
    rcases mem_append.mp he with hmem | hnew
    · exact h.own e hmem q (hback e hmem q hq)
    · obtain ⟨hep, hw⟩ := mem_entriesOf.mp hnew
      rw [hep]
      by_contra hqp
      rw [hother q hqp] at hq
      exact hqp (h.ledger.alone q p _ hq (htodo _ hw))
  refine ⟨hl, fun q => ?_, hown, fun q => ?_⟩
  · by_cases hqp : q = p
    · rw [hqp]
      exact haccounts
    · obtain ⟨hsent, hrest⟩ := h.accounts q
      refine ⟨?_, ?_⟩
      · dsimp only [Ledger.entries, underWay] at hsent ⊢
        rw [haccepted, entries_append_of_ne hqp, hother q hqp, hopened q hqp, hreturned q hqp]
        exact hsent
      · dsimp only
        rw [hother q hqp, hopened q hqp]
        exact hrest
  · by_cases hqp : q = p
    · subst hqp
      rcases hsettled with hsame | hnone
      · dsimp only [Ledger.entries]
        rw [hsame, haccepted, entries_append_self, take_append_of_le_length]
        · exact hold q
        · have hlen := congrArg List.length (h.accounts q).sent
          rw [length_map, length_append] at hlen
          exact hlen ▸ Nat.le_add_right _ _
      · -- the producer holds nothing, and no other holds its tickets
        rintro e he ⟨r, hr⟩
        obtain ⟨hmem, hep⟩ := mem_filter.mp (mem_of_mem_take he)
        obtain rfl : r = q := (hown e hmem r hr).trans (of_decide_eq_true hep)
        rw [hself] at hr
        exact hnone _ hr
    · dsimp only [Ledger.entries]
      rw [haccepted, entries_append_of_ne hqp, hreturned q hqp]
      exact hold q

theorem follow (h : t.Inv shape) (hl : l.Inv shape)
    (hproducer : l.system.producer = update t.ledger.system.producer p pc)
    (haccepted : l.accepted = t.ledger.accepted) (hpc : (t.ledger.system.producer p).Follows pc)
    (hholds : ∀ n, pc.holds n →
      (t.ledger.system.producer p).holds n ∨ t.ledger.system.shared.gTail ≤ n) :
    (t.settle p l).Inv shape := by
  have hself : l.system.producer p = pc := by rw [hproducer, update_self]
  obtain ⟨hsent, hrest⟩ := h.accounts p
  have hentries : l.entries p = t.ledger.entries p := by
    unfold Ledger.entries
    rw [haccepted]
  have hreturned : update t.returned p
      (t.returned p ++ (t.opened p).take (l.system.producer p).reported) p =
        t.returned p ++ (t.opened p).take pc.reported := by
    rw [update_self, hself]
  refine h.move hl hproducer (haccepted.trans (append_nil _).symm)
    (fun _ _ => rfl) (fun q hq => update_of_ne hq _ _) ?_ hholds
    (fun _ hw => absurd hw not_mem_nil) ?_
  · constructor
    · show (l.entries p).map Entry.item = _ ++ underWay ⟨l, t.opened, _⟩ p
      rw [hentries, hsent]
      dsimp only [underWay]
      rw [hreturned, hself]
      rcases hpc with ⟨hcall, hzero⟩ | ⟨c, hcall, hnone, hcount⟩
      · rw [hzero, hcall, take_zero, append_nil]
      · rw [hcall, hnone, hcount, append_nil]
    · intro c hc
      rw [hself] at hc
      rcases hpc with ⟨hcall, -⟩ | ⟨-, -, hnone, -⟩
      · exact hrest c (hcall ▸ hc)
      · rw [hnone] at hc
        cases hc
  · rcases hpc with ⟨-, hzero⟩ | ⟨-, -, hnone, -⟩
    · left
      rw [hreturned, hzero, take_zero, append_nil]
    · exact Or.inr (Producer.not_holds_of_call hnone)

theorem items_writes (c : Call T) (t k valid : ℕ) :
    (entriesOf p (c.writes t k valid)).map Entry.item = c.items.take (min k valid) := by
  induction k with
  | zero => rw [Nat.zero_min, take_zero]; rfl
  | succ k ih =>
    have hwrites : c.writes t (k + 1) valid =
        c.writes t k valid ++ [(t + k, if k < valid then c.items[k]? else none)] := by
      simp only [Call.writes, range_succ, map_append, map_cons, map_nil]
    rw [hwrites, entriesOf, filterMap_append, map_append]
    rw [entriesOf] at ih
    rw [ih]
    by_cases hk : k < valid
    · rw [min_eq_left hk.le, min_eq_left (show k + 1 ≤ valid from hk), take_add_one]
      cases c.items[k]? <;> simp [hk]
    · rw [min_eq_right (not_lt.mp hk), min_eq_right ((not_lt.mp hk).trans (Nat.le_succ k))]
      simp [hk]

theorem valid_le (c : Call T) (t k d : ℕ) : Shared.valid shape c t k d ≤ k := by
  unfold Shared.valid
  split
  · exact min_le_left _ _
  · split
    · exact le_rfl
    · exact Nat.zero_le k

theorem credit (h : t.Inv shape) (hl : l.Inv shape) {m : Mode} {c : Call T} {n k valid : ℕ}
    {w : Writes T} (hp : t.ledger.system.producer p = .credit m c n k) (hvalid : valid ≤ k)
    (hproducer : l.system.producer = update t.ledger.system.producer p (.resident w))
    (haccepted : l.accepted = t.ledger.accepted ++ entriesOf p (c.writes n k valid))
    (htodo : w.todo = c.writes n k valid)
    (hcall : w.call = { c with items := c.items.drop valid, sent := c.sent + valid }) :
    (t.settle p l).Inv shape := by
  have hself : l.system.producer p = .resident w := by rw [hproducer, update_self]
  obtain ⟨hsent, hrest⟩ := h.accounts p
  have hdrop := hrest c (by rw [hp]; rfl)
  have hreturned : update t.returned p
      (t.returned p ++ (t.opened p).take (l.system.producer p).reported) p = t.returned p := by
    rw [update_self, hself]
    exact append_nil _
  refine h.move hl hproducer haccepted (fun _ _ => rfl)
    (fun q hq => update_of_ne hq _ _) ?_ (fun u hu => Or.inl ?_) (fun e he => ?_)
    (Or.inl hreturned)
  · constructor
    · have hentries : l.entries p = t.ledger.entries p ++ entriesOf p (c.writes n k valid) := by
        unfold Ledger.entries
        rw [haccepted, entries_append_self]
      show (l.entries p).map Entry.item = _ ++ underWay ⟨l, t.opened, _⟩ p
      dsimp only [underWay] at hsent ⊢
      rw [hentries, map_append, hsent, items_writes, min_eq_right hvalid, hreturned, hself, hp]
      show _ ++ (t.opened p).take c.sent ++ _ = _ ++ (t.opened p).take w.call.sent
      rw [hcall, append_assoc, take_add, hdrop]
    · intro c' hc'
      rw [hself] at hc'
      obtain rfl : w.call = c' := Option.some.inj hc'
      rw [hcall, ← hdrop, drop_drop]
  · rw [hp]
    have hmem : u ∈ w.todo.map Prod.fst := hu
    rw [htodo] at hmem
    exact mem_map_fst_writes.mp hmem
  · rw [hp]
    exact mem_map_fst_writes.mp (mem_map_of_mem he)

theorem settle_eq (hp : (l.system.producer p).reported = 0) :
    t.settle p l = { t with ledger := l } := by
  unfold settle
  rw [hp, take_zero, append_nil, update_eq_self]

theorem step (h : t.Inv shape) {a : Action T} (hs : t.step shape a = some t') : t'.Inv shape := by
  obtain ⟨l, hstep, rfl⟩ := map_eq_some_iff.mp hs
  have hl := h.ledger.step hstep
  obtain ⟨s, hs', rfl⟩ := map_eq_some_iff.mp hstep
  have hnil := append_nil t.ledger.accepted
  cases a with
  | producer p =>
    simp only [System.step, map_eq_some_iff] at hs'
    obtain ⟨⟨u, pc⟩, hadvance, rfl⟩ := hs'
    by_cases hp : ∃ m c n k, t.ledger.system.producer p = .credit m c n k
    · obtain ⟨m, c, n, k, hp⟩ := hp
      have hadvance' := hadvance
      rw [hp] at hadvance'
      cases hadvance'
      refine h.credit hl hp (valid_le c n k _) rfl ?_ rfl rfl
      dsimp only
      rw [System.accepts, hp]
    · have hcredit : ∀ m c n k, t.ledger.system.producer p ≠ .credit m c n k :=
        fun m c n k heq => hp ⟨m, c, n, k, heq⟩
      refine h.follow hl rfl ?_ (Shared.follows_of_advance hadvance hcredit) fun n hn =>
        Shared.holds_of_advance hadvance hn
      dsimp only
      unfold System.accepts
      cases hpc : t.ledger.system.producer p with
      | credit m c n k => exact absurd hpc (hcredit m c n k)
      | _ => exact hnil
  | send p c =>
    simp only [System.step, ite_none_right_eq_some, Bool.and_eq_true,
      decide_eq_true_eq] at hs'
    obtain ⟨⟨⟨⟨hresting, -⟩, -⟩, hzero⟩, heq⟩ := hs'
    cases heq
    have hself : update t.ledger.system.producer p (.enter c) p = .enter c :=
      update_self p _ _
    refine h.move hl rfl rfl
      (fun q hq => update_of_ne hq _ _) (fun _ _ => rfl) ?_ (fun _ hn => False.elim hn)
      (fun _ hw => absurd hw not_mem_nil) (Or.inl rfl)
    obtain ⟨hsent, -⟩ := h.accounts p
    rw [underWay, Producer.call_of_resting hresting, append_nil] at hsent
    constructor
    · dsimp only [underWay, System.setProducer, Ledger.entries]
      rw [hself, hnil]
      show _ = _ ++ List.take c.sent _
      rw [hzero, take_zero, append_nil]
      exact hsent
    · intro c' hc'
      dsimp only [System.setProducer] at hc' ⊢
      rw [hself] at hc'
      cases hc'
      rw [hzero, drop_zero, update_self]
  | isFull p =>
    simp only [System.step, ite_none_right_eq_some] at hs'
    obtain ⟨hresting, heq⟩ := hs'
    cases heq
    dsimp only
    rw [← settle_eq (p := p) (by dsimp only [System.setProducer]; rw [update_self]; rfl)]
    exact h.follow hl rfl hnil (Or.inl ⟨(Producer.call_of_resting hresting).symm, rfl⟩)
      fun _ hn => False.elim hn
  | retry p m =>
    simp only [System.step] at hs'
    split at hs'
    · next c hp =>
      split at hs'
      · cases hs'
      · cases hs'
        dsimp only
        have hreported : ((t.ledger.system.setProducer p (.attempt m c)).producer p).reported = 0 := by
          dsimp only [System.setProducer]
          rw [update_self]
          exact (Producer.call_attempt m c).2
        rw [← settle_eq (p := p) hreported]
        refine h.follow hl rfl hnil (Producer.follows_attempt (by rw [hp]; rfl)) fun n hn => ?_
        exact absurd hn ((@Ledger.Inv.attempt_quiet _ shape 0 m c
          t.ledger.system.shared []).1 n)
    · cases hs'
  | publishFromDrained p =>
    simp only [System.step] at hs'
    split at hs'
    · next c hp =>
      cases hs'
      dsimp only
      rw [← settle_eq (p := p) (by dsimp only [System.setProducer]; rw [update_self]; rfl)]
      exact h.follow hl rfl hnil (Or.inl ⟨by rw [hp]; rfl, rfl⟩) fun _ hn => False.elim hn
    · cases hs'
  | giveUp p =>
    simp only [System.step] at hs'
    split at hs'
    · next c hp =>
      cases hs'
      exact h.follow hl rfl hnil (Or.inr ⟨c, by rw [hp]; rfl, rfl, rfl⟩) fun _ hn => False.elim hn
    · cases hs'
  | close handle | dropReceiver =>
    cases hs'
    exact h.still hl rfl hnil
  | deq once max =>
    simp only [System.step] at hs'
    split at hs'
    · split at hs' <;> cases hs' <;> exact h.still hl rfl hnil
    · cases hs'
  | flushProgress | setPublishChunk v =>
    simp only [System.step] at hs'
    split at hs'
    · cases hs'
      exact h.still hl rfl hnil
    · cases hs'
  | consumer waits =>
    simp only [System.step, map_eq_some_iff] at hs'
    obtain ⟨⟨u, pc, item⟩, hadvance, rfl⟩ := hs'
    exact h.still hl rfl hnil

theorem of_reachable {publishChunk : ℕ}
    (h : Reachable (Traffic.step shape) (Traffic.init shape publishChunk) t) : t.Inv shape :=
  h.invariant (init publishChunk) fun _ _ _ hinv _ hs => hinv.step hs

end Inv

/-! ### What a step leaves -/

section Frame

variable {t t' : Traffic T} {a : Action T}

theorem system_of_step (hs : t.step shape a = some t') :
    t.ledger.system.step shape a = some t'.ledger.system := by
  obtain ⟨l, hl, rfl⟩ := map_eq_some_iff.mp hs
  obtain ⟨s, hs', rfl⟩ := map_eq_some_iff.mp hl
  rw [hs']
  cases a <;> rfl

theorem prefix_of_step (hs : t.step shape a = some t') (p : ℕ) :
    t.returned p <+: t'.returned p ∧ t.ledger.entries p <+: t'.ledger.entries p := by
  obtain ⟨l, hl, rfl⟩ := map_eq_some_iff.mp hs
  obtain ⟨s, -, rfl⟩ := map_eq_some_iff.mp hl
  have hentries : ∀ more : List (Entry T),
      t.ledger.entries p <+: Ledger.entries ⟨s, t.ledger.accepted ++ more⟩ p := by
    intro more
    rw [Ledger.entries, Ledger.entries, filter_append]
    exact prefix_append _ _
  have hreturned : ∀ (q : ℕ) (more : List T),
      t.returned p <+: update t.returned q (t.returned q ++ more) p := by
    intro q more
    by_cases hpq : p = q
    · subst hpq
      rw [update_self]
      exact prefix_append _ _
    · rw [update_of_ne hpq]
  cases a with
  | producer q | giveUp q => exact ⟨hreturned q _, hentries _⟩
  | _ => exact ⟨prefix_rfl, hentries _⟩

end Frame

/-! ### Delivery -/

/-- What the consumer has of the ledger, in the order of the tickets. -/
def delivered (t : Traffic T) : List (Entry T) :=
  (List.range t.ledger.system.shared.head.pos).filterMap fun n =>
    t.ledger.accepted.find? fun e => e.ticket = n

/-- What the channel does with the values it accepts. -/
structure Delivers (shape : Shape) (t : Traffic T) : Prop where
  received : t.ledger.system.received = t.delivered.map Entry.item
  /-- every value once, in the order of the tickets -/
  ordered : (t.delivered.map Entry.ticket).Pairwise (· < ·)
  accepted : ∀ e, e ∈ t.delivered ↔
    e ∈ t.ledger.accepted ∧ e.ticket < t.ledger.system.shared.head.pos
  /-- the values of a producer in the order of its sends -/
  sent : ∀ p, ((t.delivered.filter fun e => e.producer = p).map Entry.item) <+:
    t.returned p ++ t.underWay p
  /-- a slot is drained when it was filled for the ticket at the cursor, and was not drained yet -/
  drains : ∀ d, t.ledger.system.consumer = .drain d →
    t.ledger.system.shared.head.pos < t.ledger.system.shared.gTail ∧
    t.ledger.system.shared.head.pos ∉ t.ledger.system.held ∧
    t.ledger.system.shared.front shape =
      slotOf (valueIn t.ledger.accepted t.ledger.system.shared.head.pos)
  /-- a slot is empty when it is written -/
  writes : ∀ p w e rest, t.ledger.system.producer p = .write w → w.todo = e :: rest →
    t.ledger.system.shared.slot shape e.1 = .empty
  within : (t.ledger.accepted.filter fun e =>
    t.ledger.system.shared.head.pos ≤ e.ticket).length ≤ shape.cap

section Sorted

variable {es : List (Entry T)} {n : ℕ}

theorem filter_lt_prefix (h : (es.map Entry.ticket).Pairwise (· < ·)) :
    es.filter (fun e => e.ticket < n) <+: es := by
  induction es with
  | nil => exact prefix_rfl
  | cons e es ih =>
    rw [map_cons, pairwise_cons] at h
    by_cases he : e.ticket < n
    · rw [filter_cons_of_pos (by simpa using he)]
      exact (prefix_cons_inj e).mpr (ih h.2)
    · have hnil : (e :: es).filter (fun e => e.ticket < n) = [] := by
        rw [filter_eq_nil_iff]
        intro f hf
        rw [decide_eq_true_eq, not_lt]
        rcases mem_cons.mp hf with rfl | hmem
        · exact not_lt.mp he
        · exact (not_lt.mp he).trans (h.1 _ (mem_map_of_mem hmem)).le
      rw [hnil]
      exact nil_prefix

theorem eq_of_mem_iff {fs : List (Entry T)} (hes : (es.map Entry.ticket).Pairwise (· < ·))
    (hfs : (fs.map Entry.ticket).Pairwise (· < ·)) (h : ∀ e, e ∈ es ↔ e ∈ fs) : es = fs := by
  rw [pairwise_map] at hes hfs
  have hperm : es.Perm fs :=
    (perm_ext_iff_of_nodup (hes.imp fun hlt heq => absurd (heq ▸ hlt) (lt_irrefl _))
      (hfs.imp fun hlt heq => absurd (heq ▸ hlt) (lt_irrefl _))).mpr h
  exact hperm.eq_of_pairwise (fun a b _ _ hab hba => absurd (hab.trans hba) (lt_irrefl _)) hes hfs

end Sorted

variable {t : Traffic T}

theorem mem_delivered (h : t.Inv shape) (e : Entry T) : e ∈ t.delivered ↔
    e ∈ t.ledger.accepted ∧ e.ticket < t.ledger.system.shared.head.pos := by
  simp only [delivered, mem_filterMap, mem_range]
  constructor
  · rintro ⟨n, hn, hfind⟩
    have hticket : e.ticket = n := by simpa using List.find?_some hfind
    exact ⟨mem_of_find?_eq_some hfind, hticket ▸ hn⟩
  · rintro ⟨hmem, hlt⟩
    refine ⟨e.ticket, hlt, ?_⟩
    cases hfind : t.ledger.accepted.find? fun f => f.ticket = e.ticket with
    | none => simpa using List.find?_eq_none.mp hfind e hmem
    | some f =>
      have hticket : f.ticket = e.ticket := by simpa using List.find?_some hfind
      rw [inj_on_of_nodup_map h.ledger.nodup (mem_of_find?_eq_some hfind) hmem hticket]

theorem delivered_ordered (t : Traffic T) :
    (t.delivered.map Entry.ticket).Pairwise (· < ·) := by
  rw [delivered, pairwise_map, pairwise_filterMap]
  refine pairwise_lt_range.imp fun {m n} hlt e he f hf => ?_
  have hem : e.ticket = m := by simpa using List.find?_some he
  have hfn : f.ticket = n := by simpa using List.find?_some hf
  rw [hem, hfn]
  exact hlt

theorem received_eq (h : t.Inv shape) :
    t.ledger.system.received = t.delivered.map Entry.item := by
  rw [h.ledger.received, delivered, map_filterMap]
  rfl

theorem delivered_filter (h : t.Inv shape) (p : ℕ) :
    (t.delivered.filter fun e => e.producer = p) =
      (t.ledger.entries p).filter fun e => e.ticket < t.ledger.system.shared.head.pos := by
  refine eq_of_mem_iff ?_ ?_ fun e => ?_
  · exact t.delivered_ordered.sublist (filter_sublist.map _)
  · exact (h.ledger.ordered p).sublist (filter_sublist.map _)
  · rw [mem_filter, mem_delivered h, mem_filter, Ledger.entries, mem_filter]
    simp only [decide_eq_true_eq]
    tauto

theorem delivered_sublog (h : t.Inv shape) (p : ℕ) :
    (t.delivered.filter fun e => e.producer = p) <+: t.ledger.entries p := by
  rw [delivered_filter h]
  exact filter_lt_prefix (h.ledger.ordered p)

theorem length_undrained_le (h : t.Inv shape) (hlt : t.ledger.system.shared.gTail < 2 ^ 64) :
    (t.ledger.accepted.filter fun e =>
      t.ledger.system.shared.head.pos ≤ e.ticket).length ≤ shape.cap := by
  have hnodup : ((t.ledger.accepted.filter fun e =>
      t.ledger.system.shared.head.pos ≤ e.ticket).map Entry.ticket).Nodup :=
    h.ledger.nodup.sublist (filter_sublist.map _)
  have hsubset : (t.ledger.accepted.filter fun e =>
      t.ledger.system.shared.head.pos ≤ e.ticket).map Entry.ticket ⊆
        List.range' t.ledger.system.shared.head.pos shape.cap := by
    intro n hn
    obtain ⟨e, he, rfl⟩ := mem_map.mp hn
    obtain ⟨hmem, hge⟩ := mem_filter.mp he
    rw [mem_range'_1]
    exact ⟨of_decide_eq_true hge, h.ledger.within hlt e hmem⟩
  have hle := (subperm_of_subset hnodup hsubset).length_le
  rwa [length_map, length_range'] at hle

/-- Whatever the parties do, the channel delivers: every accepted value at most once, in the order of
the tickets, and with never more than the capacity between. -/
theorem delivers {publishChunk : ℕ}
    (h : Reachable (Traffic.step shape) (Traffic.init shape publishChunk) t)
    (hlt : t.ledger.system.shared.gTail < 2 ^ 63) : t.Delivers shape := by
  have hinv := Inv.of_reachable h
  refine ⟨received_eq hinv, t.delivered_ordered, mem_delivered hinv, fun p => ?_, fun d hd => ?_,
    fun p w e rest hp hw => ?_, length_undrained_le hinv (by omega)⟩
  · rw [← (hinv.accounts p).sent]
    exact (delivered_sublog hinv p).map _
  · have hknows := hinv.ledger.consumer
    rw [hd] at hknows
    exact hinv.ledger.table.front_filled hknows.1.2 hknows.1.1 hknows.2
  · have hknows := hinv.ledger.knows p
    rw [hp] at hknows
    obtain ⟨-, hpos, hres⟩ := hknows
    -- the ticket is held, and the producer has its chunk
    have hmem : e ∈ w.todo.take w.segment := by
      obtain ⟨n, hn⟩ := Nat.exists_eq_add_one_of_ne_zero hpos.ne'
      rw [hn, hw]
      exact List.mem_cons_self
    refine hinv.ledger.table.cleared e.1 (Or.inr (Or.inr ⟨p, ?_⟩)) (hres e hmem)
    rw [hp]
    exact List.mem_map_of_mem (List.mem_of_mem_take hmem)

/-- Two producers send, one of them a run of two, and the consumer takes the first item. -/
def mixed : List (Action ℕ) :=
  Action.send 0 ⟨0, true, false, [5, 6], 0⟩ :: List.replicate 10 (Action.producer 0) ++
    Action.send 1 ⟨0, false, false, [7], 0⟩ :: List.replicate 8 (Action.producer 1) ++
    Action.deq true 1 :: List.replicate 4 (Action.consumer false)

theorem delivers_mixed : ∃ t : Traffic ℕ,
    Reachable (Traffic.step (.new 3 128 (by decide))) (Traffic.init (.new 3 128 (by decide)) 2) t ∧
    t.ledger.system.received = [5] ∧ (t.returned 0, t.returned 1) = ([5, 6], [7]) ∧
    t.Delivers (.new 3 128 (by decide)) := by
  have hexec : (exec (Traffic.step (.new 3 128 (by decide))) (fun _ _ => true)
      (Traffic.init (.new 3 128 (by decide)) 2) mixed).map (fun t =>
        (t.ledger.system.received, t.returned 0, t.returned 1,
          decide (t.ledger.system.shared.gTail < 2 ^ 63))) =
      some ([5], [5, 6], [7], true) := by
    decide
  obtain ⟨t, ht, heq⟩ := Option.map_eq_some_iff.mp hexec
  simp only [Prod.mk.injEq, decide_eq_true_eq] at heq
  obtain ⟨hreceived, hfirst, hsecond, hlt⟩ := heq
  have hreach := reachable_of_exec ht
  exact ⟨t, hreach, hreceived, by rw [hfirst, hsecond], delivers hreach hlt⟩

end Traffic

end Fibre.Channels.Mpsc
