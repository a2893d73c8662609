import Fibre.Math.Machine
import Fibre.Stats.Book

/-!
# The kind of a series

The header of a series is kept with the series and with each of its slots. A history is a sequence of
calls with the recordings that were accepted, and tells what the headers should be: the header of a
series is the one of its first recording.
-/

namespace Fibre.Stats

open Machine List Option

/-! ### One recording -/

namespace Book

variable {book : Book} {res window window' : ℕ} {key key' : SeriesKey} {kind : Kind}
  {atNs : UInt64} {sample : Sample} {slot : Slot}

theorem slot_insertSlot : (book.insertSlot window key slot).slot window' key' =
    if window' = window ∧ key' = key then some slot else book.slot window' key' := by
  unfold Book.slot insertSlot
  dsimp only
  by_cases hw : window' = window
  · subst hw
    rw [SortedMap.find_alter_self, bind_some]
    by_cases hk : key' = key
    · subst hk
      rw [AList.lookup_insert, if_pos ⟨rfl, rfl⟩]
    · rw [AList.lookup_insert_ne hk, if_neg fun h => hk h.2]
      cases book.windows.find window' <;> rfl
  · rw [SortedMap.find_alter_of_ne hw, if_neg fun h => hw h.1]

def Accepts (book : Book) (key : SeriesKey) (kind : Kind) (sample : Sample) : Prop :=
  sample.fits kind ∧
    ∀ header, book.headers.lookup key = some header → header = ⟨kind, sample.encoding⟩

/-- Every slot has the header of its series. -/
def Agrees (book : Book) : Prop :=
  ∀ window key slot, book.slot window key = some slot →
    book.headers.lookup key = some slot.header ∧ slot.agg.kind = slot.header.kind

/-- The aggregate of a slot when a sample has come. -/
def absorbed (slot : Option Slot) (sample : Sample) : Agg :=
  match slot with
  | some slot => slot.agg.absorb sample
  | none => .start sample

/-- What an accepted recording does to the book. -/
structure Took (book : Book) (window : ℕ) (key : SeriesKey) (header : Header) (sample : Sample)
    (after : Book) : Prop where
  refused : after.refused = book.refused
  lastRefusal : after.lastRefusal = book.lastRefusal
  totals : after.totals = book.totals
  headers : ∀ key', after.headers.lookup key' =
    if key' = key then some header else book.headers.lookup key'
  slots : ∀ window' key', after.slot window' key' =
    if window' = window ∧ key' = key then
      some ⟨header, absorbed (book.slot window key) sample⟩
    else book.slot window' key'

theorem ingest_accepts (hagrees : book.Agrees) (h : book.Accepts key kind sample) :
    book.Took (atNs.toNat / res) key ⟨kind, sample.encoding⟩ sample
      (book.ingest res key kind atNs sample) := by
  obtain ⟨hfits, hheader⟩ := h
  unfold ingest
  rw [hfits, Bool.not_true, if_neg Bool.false_ne_true]
  dsimp only
  have hsame : ∀ header, book.headers.lookup key = some header → ∀ key',
      book.headers.lookup key' =
        if key' = key then some ⟨kind, sample.encoding⟩ else book.headers.lookup key' := by
    intro header hlookup key'
    split
    · next heq => rw [heq, hlookup, hheader header hlookup]
    · rfl
  cases hslot : book.slot (atNs.toNat / res) key with
  | some slot =>
    obtain ⟨hlookup, -⟩ := hagrees _ _ _ hslot
    have heq : slot.header = ⟨kind, sample.encoding⟩ := hheader _ hlookup
    simp only [heq, ne_eq, not_true_eq_false, if_false]
    exact ⟨rfl, rfl, rfl, hsame _ hlookup, fun _ _ => by rw [slot_insertSlot, hslot]; rfl⟩
  | none =>
    cases hlookup : book.headers.lookup key with
    | some header =>
      simp only [hheader header hlookup, ne_eq, not_true_eq_false, if_false]
      exact ⟨rfl, rfl, rfl, hsame _ hlookup, fun _ _ => by rw [slot_insertSlot, hslot]; rfl⟩
    | none =>
      refine ⟨rfl, rfl, rfl, fun key' => ?_, fun _ _ => by rw [slot_insertSlot, hslot]; rfl⟩
      show AList.lookup key' (book.headers.insert key _) = _
      split
      · next heq =>
        rw [heq]
        exact AList.lookup_insert _
      · next hne => exact AList.lookup_insert_ne hne

/-- A recording that is not accepted changes the count and the last of the refusals only. -/
theorem ingest_refuses (hagrees : book.Agrees) (h : ¬ book.Accepts key kind sample) :
    ∃ reason, book.ingest res key kind atNs sample = book.refuse key reason := by
  unfold ingest
  dsimp only
  split
  · exact ⟨_, rfl⟩
  next hfits =>
  have hheader : ∀ header : Header, book.headers.lookup key = some header →
      header.kind = kind → header.encoding = sample.encoding → False := by
    intro header hlookup hkind hencoding
    refine h ⟨by simpa using hfits, fun header' hlookup' => ?_⟩
    rw [hlookup] at hlookup'
    rw [← Option.some.inj hlookup', ← hkind, ← hencoding]
  cases hslot : book.slot (atNs.toNat / res) key with
  | some slot =>
    dsimp only
    split
    · exact ⟨_, rfl⟩
    split
    · exact ⟨_, rfl⟩
    next hkind hencoding =>
    exact (hheader _ (hagrees _ _ _ hslot).1 (not_not.mp hkind) (not_not.mp hencoding)).elim
  | none =>
    dsimp only
    cases hlookup : book.headers.lookup key with
    | some header =>
      dsimp only
      split
      · exact ⟨_, rfl⟩
      split
      · exact ⟨_, rfl⟩
      next hkind hencoding =>
      exact (hheader _ hlookup (not_not.mp hkind) (not_not.mp hencoding)).elim
    | none =>
      refine (h ⟨by simpa using hfits, fun header' hlookup' => ?_⟩).elim
      rw [hlookup] at hlookup'
      cases hlookup'

theorem accepts_iff (hagrees : book.Agrees) :
    (book.ingest res key kind atNs sample).refused = book.refused ↔
      book.Accepts key kind sample := by
  constructor
  · intro heq
    by_contra hnot
    obtain ⟨reason, hrefuse⟩ := ingest_refuses hagrees hnot
    rw [hrefuse] at heq
    exact absurd heq (Nat.succ_ne_self _)
  · exact fun h => (ingest_accepts hagrees h).refused

end Book

/-! ### Histories -/

structure Accepted where
  key : SeriesKey
  kind : Kind
  atNs : UInt64
  sample : Sample

/-- The header that a recording gives its series. -/
def Accepted.header (a : Accepted) : Header := ⟨a.kind, a.sample.encoding⟩

def firstHeader (log : List Accepted) (key : SeriesKey) : Option Header :=
  (log.find? fun a => a.key = key).map Accepted.header

/-- A drain: the window it left the book from, if it left the open one, the recordings that were in
the book, and the series it made. -/
structure Drained where
  limit : Option ℕ
  pending : List Accepted
  series : List (SeriesKey × SeriesBatch)

/-- The book, the recordings that were accepted, those of them that were not drained, and the
drains. -/
structure History where
  book : Book
  log : List Accepted
  pending : List Accepted
  batches : List Drained

inductive Call
  | record (o : Observation)
  | total (name : String) (tags : Tags) (total : ℕ) (now : UInt64)
  | drain (includeOpen : Bool) (now : UInt64) (order : Order)

namespace History

variable {c : Config} {h h' : History}

def init : History := ⟨.new, [], [], []⟩

/-- A recording goes to the logs if it is accepted. -/
def ingest (c : Config) (h : History) (book : Book) (key : SeriesKey) (kind : Kind)
    (atNs : UInt64) (sample : Sample) : History :=
  let book' := book.ingest c.resolutionNs key kind atNs sample
  if book'.refused = book.refused then
    { h with
      book := book'
      log := h.log ++ [⟨key, kind, atNs, sample⟩]
      pending := h.pending ++ [⟨key, kind, atNs, sample⟩] }
  else { h with book := book' }

/-- The window a recording falls into. -/
def window (c : Config) (a : Accepted) : ℕ := a.atNs.toNat / c.resolutionNs

def step (c : Config) (h : History) : Call → Option History
  | .record o => some (h.ingest c h.book (c.key o.name o.tags) o.kind o.atNs o.sample)
  | .total name tags total now =>
    let key := c.key name tags
    let (book, delta) := h.book.total key total
    match delta with
    -- the first total is the baseline
    | none => some { h with book := book }
    | some delta => some (h.ingest c book key .counter now (.count delta))
  | .drain includeOpen now order =>
    let current := now.toNat / c.resolutionNs
    let (book, series) := h.book.drain c includeOpen now order
    some { h with
      book := book
      pending := if includeOpen then [] else h.pending.filter fun a => current ≤ window c a
      batches := h.batches ++ [⟨if includeOpen then none else some current, h.pending, series⟩] }

/-- A series has the header of its first recording, and so have all its recordings and slots. -/
structure Headed (h : History) : Prop where
  headers : ∀ key, h.book.headers.lookup key = firstHeader h.log key
  log : ∀ a ∈ h.log, a.sample.fits a.kind ∧ firstHeader h.log a.key = some a.header
  agrees : h.book.Agrees

theorem firstHeader_append (log : List Accepted) (a : Accepted) (key : SeriesKey) :
    firstHeader (log ++ [a]) key =
      (firstHeader log key).or (if a.key = key then some a.header else none) := by
  unfold firstHeader
  rw [List.find?_append]
  cases log.find? fun a => a.key = key with
  | some b => rfl
  | none =>
    by_cases hkey : a.key = key
    · simp [hkey]
    · simp [hkey]

theorem kind_start {sample : Sample} {kind : Kind} (h : sample.fits kind) :
    (Agg.start sample).kind = kind := by
  cases sample <;> cases kind <;> first | rfl | cases h

theorem kind_absorb (agg : Agg) (sample : Sample) : (agg.absorb sample).kind = agg.kind := by
  cases agg <;> cases sample <;> rfl

theorem Book.slot_of_windows {book book' : Book} (h : book.windows = book'.windows) :
    book.slot = book'.slot := by
  funext window key
  rw [Book.slot, Book.slot, h]

namespace Headed

theorem agrees_of_same (hh : h.Headed) {book : Book} (hheaders : book.headers = h.book.headers)
    (hwindows : book.windows = h.book.windows) : book.Agrees := by
  unfold Book.Agrees
  rw [Book.slot_of_windows hwindows, hheaders]
  exact hh.agrees

theorem init : init.Headed where
  headers _ := rfl
  log _ ha := absurd ha not_mem_nil
  agrees _ _ _ h := by cases h

theorem ingest (hh : h.Headed) {book : Book} {key : SeriesKey} {kind : Kind} {atNs : UInt64}
    {sample : Sample} (hheaders : book.headers = h.book.headers)
    (hwindows : book.windows = h.book.windows) :
    (h.ingest c book key kind atNs sample).Headed := by
  have hagrees := hh.agrees_of_same hheaders hwindows
  unfold History.ingest
  dsimp only
  split
  · next hrefused =>
    have haccepts := (Book.accepts_iff hagrees).mp hrefused
    obtain ⟨-, -, -, htook, hslots⟩ :=
      Book.ingest_accepts hagrees haccepts
    obtain ⟨hfits, hheader⟩ := haccepts
    rw [hheaders] at hheader
    have hfirst : firstHeader (h.log ++ [⟨key, kind, atNs, sample⟩]) key =
        some ⟨kind, sample.encoding⟩ := by
      rw [firstHeader_append, if_pos rfl, ← hh.headers]
      cases hlookup : h.book.headers.lookup key with
      | none => rfl
      | some header =>
        rw [hheader header hlookup]
        rfl
    have hother : ∀ key', key' ≠ key →
        firstHeader (h.log ++ [⟨key, kind, atNs, sample⟩]) key' = firstHeader h.log key' := by
      intro key' hne
      rw [firstHeader_append, if_neg (Ne.symm hne), or_none]
    refine ⟨fun key' => ?_, fun a ha => ?_, fun window key' slot hfind => ?_⟩
    · dsimp only
      rw [htook, hheaders]
      split
      · next heq => rw [heq, hfirst]
      · next hne => rw [hother _ hne, hh.headers]
    · rcases mem_append.mp ha with hold | hnew
      · refine ⟨(hh.log a hold).1, ?_⟩
        dsimp only
        rw [firstHeader_append, (hh.log a hold).2]
        rfl
      · obtain rfl := mem_singleton.mp hnew
        exact ⟨hfits, hfirst⟩
    · dsimp only at hfind ⊢
      rw [hslots] at hfind
      rw [htook]
      split at hfind
      · next heq =>
        obtain ⟨rfl, rfl⟩ := heq
        obtain rfl := Option.some.inj hfind
        refine ⟨if_pos rfl, ?_⟩
        unfold Book.absorbed
        cases hbefore : book.slot (atNs.toNat / c.resolutionNs) key' with
        | none => exact kind_start hfits
        | some slot =>
          obtain ⟨hlookup, hkind⟩ := hagrees _ _ _ hbefore
          rw [hheaders] at hlookup
          dsimp only
          rw [kind_absorb, hkind, hheader _ hlookup]
      · next hne =>
        obtain ⟨hlookup, hkind⟩ := hagrees _ _ _ hfind
        refine ⟨?_, hkind⟩
        split
        · next heq =>
          rw [hheaders, heq] at hlookup
          rw [hheader _ hlookup]
        · exact hlookup
  · next hrefused =>
    have hnot : ¬ book.Accepts key kind sample := fun haccepts =>
      hrefused ((Book.accepts_iff hagrees).mpr haccepts)
    obtain ⟨reason, hrefuse⟩ :=
      Book.ingest_refuses hagrees hnot
    rw [hrefuse]
    refine ⟨fun key' => ?_, hh.log, hagrees⟩
    show book.headers.lookup key' = _
    rw [hheaders]
    exact hh.headers key'

theorem slot_drain {book : Book} {includeOpen : Bool} {now : UInt64} {order : Order}
    (window : ℕ) (key : SeriesKey) :
    (book.drain c includeOpen now order).1.slot window key =
      if includeOpen = false ∧ now.toNat / c.resolutionNs ≤ window then book.slot window key
      else none := by
  unfold Book.drain Book.slot
  cases includeOpen with
  | true => rfl
  | false =>
    dsimp only
    rw [if_neg Bool.false_ne_true, SortedMap.find_upFrom]
    split
    · next hle => rw [if_pos ⟨rfl, hle⟩]
    · next hlt => rw [if_neg fun hand => hlt hand.2]; rfl

theorem step (hh : h.Headed) {call : Call} (hs : h.step c call = some h') : h'.Headed := by
  cases call with
  | record o =>
    cases hs
    exact hh.ingest rfl rfl
  | total name tags total now =>
    simp only [History.step] at hs
    split at hs
    · cases hs
      exact ⟨hh.headers, hh.log, hh.agrees⟩
    · cases hs
      exact hh.ingest rfl rfl
  | drain includeOpen now order =>
    cases hs
    refine ⟨hh.headers, hh.log, fun window key slot hfind => ?_⟩
    change (h.book.drain c includeOpen now order).1.slot window key = some slot at hfind
    rw [slot_drain] at hfind
    split at hfind
    · exact hh.agrees _ _ _ hfind
    · cases hfind

theorem of_reachable (hr : Reachable (History.step c) History.init h) : h.Headed :=
  hr.invariant init fun _ _ _ hh _ hs => hh.step hs

end Headed

structure KeepsHeaders (c : Config) (h : History) : Prop where
  /-- the header of a slot is the one of its series, and its aggregate is of that kind -/
  slots : ∀ window key slot, h.book.slot window key = some slot →
    h.book.headers.lookup key = some slot.header ∧ slot.agg.kind = slot.header.kind
  /-- a recording is accepted if it fits its kind, and its series as that was first recorded -/
  accepts : ∀ totals key kind atNs sample,
    ({ h.book with totals := totals }.ingest c.resolutionNs key kind atNs sample).refused =
        h.book.refused ↔
      sample.fits kind ∧
        ∀ header, firstHeader h.log key = some header → header = ⟨kind, sample.encoding⟩
  /-- a refusal changes nothing else -/
  refuses : ∀ totals key kind atNs sample,
    ({ h.book with totals := totals }.ingest c.resolutionNs key kind atNs sample).refused ≠
        h.book.refused →
      ∃ reason, { h.book with totals := totals }.ingest c.resolutionNs key kind atNs sample =
        { h.book with
          totals := totals
          refused := h.book.refused + 1
          lastRefusal := some ⟨key.name, key.tags, reason⟩ }

/-- In every state of the book, each series has the kind and the encoding of its first recording,
whatever was drained since. -/
theorem keeps_headers (hr : Reachable (step c) init h) : h.KeepsHeaders c := by
  have hh := Headed.of_reachable hr
  refine ⟨hh.agrees, fun totals key kind atNs sample => ?_,
    fun totals key kind atNs sample hne => ?_⟩
  · have hagrees : Book.Agrees { h.book with totals := totals } := hh.agrees
    have hiff : (Book.ingest { h.book with totals := totals } c.resolutionNs key kind atNs
        sample).refused = h.book.refused ↔ _ := Book.accepts_iff hagrees
    rw [← hh.headers]
    exact hiff
  · have hagrees : Book.Agrees { h.book with totals := totals } := hh.agrees
    exact Book.ingest_refuses hagrees fun haccepts => hne ((Book.accepts_iff hagrees).mpr haccepts)

def seconds : Config := ⟨[], 1000000000⟩

/-- A hash map that is gone through as it is listed. -/
def inOrder : Order := ⟨id, fun _ => List.Perm.refl _⟩

/-- A gauge is recorded and drained, and its name is used for a counter then. -/
def reused : List Call :=
  [.record ⟨"level", .gauge, [], 1000000000, .number (.int ⟨64, true, 5⟩)⟩,
    .drain true 2000000000 inOrder,
    .record ⟨"level", .counter, [], 3000000000, .count 1⟩]

theorem keeps_headers_reused : ∃ h : History, Reachable (step seconds) init h ∧
    h.book.refused = 1 ∧ h.KeepsHeaders seconds := by
  have hexec : (exec (step seconds) (fun _ _ => true) init reused).map
      (fun h => h.book.refused) = some 1 := by
    decide
  obtain ⟨h, hh, hrefused⟩ := Option.map_eq_some_iff.mp hexec
  have hreach := reachable_of_exec hh
  exact ⟨h, hreach, hrefused, keeps_headers hreach⟩

end History

end Fibre.Stats
