import Fibre.Channels.Mpmc.Conservation

/-!
# Whom the locked sections wake

A send wakes a receiver for each item it stores, and a receive a sender for each item it takes, as
long as anyone waits on the other side. The queues of both sides are handled alike, so the side is
a parameter.
-/

namespace Fibre.Channels.Mpmc

open WaiterState List Option

variable {T : Type*} {capacity : UInt64}

/-- Senders or receivers. -/
inductive Side
  | send
  | recv
  deriving DecidableEq

def Side.other : Side → Side
  | .send => .recv
  | .recv => .send

namespace Internal

/-- The asynchronous waiters of a side. -/
def asyncQueue (c : Internal T) : Side → List ℕ
  | .send => c.waitingAsyncSenders
  | .recv => c.waitingAsyncReceivers

/-- The blocking waiters of a side. -/
def syncQueue (c : Internal T) : Side → List ℕ
  | .send => c.waitingSyncSenders
  | .recv => c.waitingSyncReceivers

/-- All waiters of a side, in the order they are woken. -/
def queues (c : Internal T) (side : Side) : List ℕ := c.asyncQueue side ++ c.syncQueue side

def waiters (c : Internal T) (side : Side) : Set ℕ :=
  {i | i ∈ c.queues side ∧ c.flags i = waiting}

end Internal

/-! ### Taking waiters from a queue -/

section Taken

variable {f : ℕ → WaiterState} {q q' a a' b b' : List ℕ} {w : ℕ} {W W₁ W₂ : Finset ℕ}

/-- The flags after the waiters `W` are woken. -/
def wakeFlags (f : ℕ → WaiterState) (W : Finset ℕ) (i : ℕ) : WaiterState :=
  if i ∈ W then successSpace else f i

theorem wakeFlags_eq_waiting {i : ℕ} : wakeFlags f W i = waiting ↔ i ∉ W ∧ f i = waiting := by
  unfold wakeFlags
  split_ifs with h <;> simp [h]

theorem wakeFlags_wakeFlags : wakeFlags (wakeFlags f W₁) W₂ = wakeFlags f (W₁ ∪ W₂) := by
  ext i
  simp only [wakeFlags, Finset.mem_union]
  split_ifs <;> simp_all

theorem wakeFlags_empty : wakeFlags f ∅ = f := by
  ext i
  simp [wakeFlags]

theorem wakeFlags_singleton : wakeFlags f {w} = Function.update f w successSpace := by
  ext i
  simp [wakeFlags, Function.update_apply]

/-- The waiters `W` of the queue `q` leave it for `q'`, and no other that waits does. -/
structure Taken (f : ℕ → WaiterState) (q q' : List ℕ) (W : Finset ℕ) : Prop where
  sublist : q'.Sublist q
  queued : ∀ w ∈ W, w ∈ q ∧ f w = waiting
  keep : ∀ j ∈ q, f j = waiting → j ∉ W → j ∈ q'
  gone : q.Nodup → ∀ w ∈ W, w ∉ q'

namespace Taken

theorem refl (f : ℕ → WaiterState) (q : List ℕ) : Taken f q q ∅ :=
  ⟨.refl q, by simp, fun _ hj _ _ => hj, by simp⟩

theorem of_split {l r l' : List ℕ} (hw : f w = waiting) (hl' : l'.Sublist l)
    (hl : ∀ x ∈ l, f x = waiting → x ∈ l') : Taken f (l ++ w :: r) (l' ++ r) {w} where
  sublist := hl'.append (sublist_cons_self w r)
  queued := by simp [hw]
  keep := by
    intro j hj hjw hjW
    rw [Finset.mem_singleton] at hjW
    rcases mem_append.mp hj with hjl | hjr
    · exact mem_append_left _ (hl j hjl hjw)
    · rcases mem_cons.mp hjr with rfl | hjr
      · exact absurd rfl hjW
      · exact mem_append_right _ hjr
  gone := by
    intro hnodup
    simp only [Finset.mem_singleton, forall_eq, mem_append, not_or]
    have h := nodup_append.mp hnodup
    refine ⟨?_, (nodup_cons.mp h.2.1).1⟩
    intro hmem
    exact h.2.2 w (hl'.subset hmem) w mem_cons_self rfl

theorem cons_keep (h : Taken f q q' W) (hw : f w ≠ waiting) : Taken f (w :: q) (w :: q') W where
  sublist := h.sublist.cons_cons w
  queued := fun x hx => ⟨mem_cons_of_mem w (h.queued x hx).1, (h.queued x hx).2⟩
  keep := by
    intro j hj hjw hjW
    rcases mem_cons.mp hj with rfl | hj
    · exact absurd hjw hw
    · exact mem_cons_of_mem w (h.keep j hj hjw hjW)
  gone := by
    intro hnodup x hx hmem
    rcases mem_cons.mp hmem with rfl | hmem
    · exact hw (h.queued _ hx).2
    · exact h.gone (nodup_cons.mp hnodup).2 x hx hmem

theorem cons_take (hw : f w = waiting) (h : Taken (wakeFlags f {w}) q q' W) :
    Taken f (w :: q) q' ({w} ∪ W) where
  sublist := h.sublist.cons w
  queued := by
    intro x hx
    rcases Finset.mem_union.mp hx with hx | hx
    · rw [Finset.mem_singleton] at hx
      exact ⟨hx ▸ mem_cons_self, hx ▸ hw⟩
    · exact ⟨mem_cons_of_mem w (h.queued x hx).1,
        (wakeFlags_eq_waiting.mp (h.queued x hx).2).2⟩
  keep := by
    intro j hj hjw hjW
    rw [Finset.mem_union, not_or] at hjW
    rcases mem_cons.mp hj with rfl | hj
    · exact absurd (Finset.mem_singleton_self _) hjW.1
    · exact h.keep j hj (wakeFlags_eq_waiting.mpr ⟨hjW.1, hjw⟩) hjW.2
  gone := by
    intro hnodup x hx hmem
    obtain ⟨hnot, hnodup⟩ := nodup_cons.mp hnodup
    rcases Finset.mem_union.mp hx with hx | hx
    · rw [Finset.mem_singleton] at hx
      exact hnot (hx ▸ h.sublist.subset hmem)
    · exact h.gone hnodup x hx hmem

theorem append (ha : Taken f a a' W₁) (hb : Taken (wakeFlags f W₁) b b' W₂) :
    Taken f (a ++ b) (a' ++ b') (W₁ ∪ W₂) where
  sublist := ha.sublist.append hb.sublist
  queued := by
    intro w hw
    rcases Finset.mem_union.mp hw with hw | hw
    · exact ⟨mem_append_left _ (ha.queued w hw).1, (ha.queued w hw).2⟩
    · exact ⟨mem_append_right _ (hb.queued w hw).1,
        (wakeFlags_eq_waiting.mp (hb.queued w hw).2).2⟩
  keep := by
    intro j hj hjw hjW
    rw [Finset.mem_union, not_or] at hjW
    rcases mem_append.mp hj with hj | hj
    · exact mem_append_left _ (ha.keep j hj hjw hjW.1)
    · exact mem_append_right _ (hb.keep j hj (wakeFlags_eq_waiting.mpr ⟨hjW.1, hjw⟩) hjW.2)
  gone := by
    intro hnodup w hw hmem
    obtain ⟨hna, hnb, hab⟩ := nodup_append.mp hnodup
    rcases Finset.mem_union.mp hw with hw | hw <;> rcases mem_append.mp hmem with hmem | hmem
    · exact ha.gone hna w hw hmem
    · exact hab w (ha.queued w hw).1 w (hb.sublist.subset hmem) rfl
    · exact hab w (ha.sublist.subset hmem) w (hb.queued w hw).1 rfl
    · exact hb.gone hnb w hw hmem

theorem disjoint (hb : Taken (wakeFlags f W₁) b b' W₂) : Disjoint W₁ W₂ := by
  rw [Finset.disjoint_right]
  intro w hw
  exact (wakeFlags_eq_waiting.mp (hb.queued w hw).2).1

end Taken

theorem firstWaiting_none (h : firstWaiting f q = none) : ∀ j ∈ q, f j ≠ waiting := by
  induction q with
  | nil => simp
  | cons x q ih =>
    rw [firstWaiting] at h
    split_ifs at h with hx
    have hnone : firstWaiting f q = none := by simpa using h
    intro j hj
    rcases mem_cons.mp hj with rfl | hj
    · exact hx
    · exact ih hnone j hj

theorem firstWaiting_some (h : firstWaiting f q = some (w, q')) : Taken f q q' {w} := by
  induction q generalizing q' with
  | nil => simp [firstWaiting] at h
  | cons x q ih =>
    rw [firstWaiting] at h
    split_ifs at h with hx
    · obtain ⟨rfl, rfl⟩ : x = w ∧ q = q' := by simpa using h
      exact Taken.of_split (l := []) hx (.refl []) (by simp)
    · obtain ⟨r, hr, heq⟩ := map_eq_some_iff.mp h
      obtain ⟨rfl, rfl⟩ : r.1 = w ∧ x :: r.2 = q' := by simpa using heq
      exact (ih hr).cons_keep hx

theorem popWaiting_taken (f : ℕ → WaiterState) (q : List ℕ) :
    (∃ w, (popWaiting f q).1 = some w ∧ Taken f q (popWaiting f q).2 {w}) ∨
      ((popWaiting f q).1 = none ∧ (popWaiting f q).2 = [] ∧ ∀ j ∈ q, f j ≠ waiting) := by
  induction q with
  | nil => exact .inr ⟨rfl, rfl, by simp⟩
  | cons x q ih =>
    rw [popWaiting]
    split_ifs with hx
    · exact .inl ⟨x, rfl, Taken.of_split (l := []) hx (.refl []) (by simp)⟩
    · rcases ih with ⟨w, hw, htaken⟩ | ⟨hnone, hnil, hq⟩
      · refine .inl ⟨w, hw, ?_⟩
        -- the stale waiter in front is dropped
        exact ⟨htaken.sublist.cons x, (htaken.cons_keep hx).queued,
          fun j hj hjw hjW => htaken.keep j ((mem_cons.mp hj).resolve_left
            fun h => hx (h ▸ hjw)) hjw hjW,
          fun hnodup => htaken.gone (nodup_cons.mp hnodup).2⟩
      · refine .inr ⟨hnone, hnil, ?_⟩
        intro j hj
        rcases mem_cons.mp hj with rfl | hj
        · exact hx
        · exact hq j hj

theorem wakeUpTo_taken (budget : ℕ) (f : ℕ → WaiterState) (q : List ℕ) :
    ∃ W, Taken f q (wakeUpTo budget f q).2.2 W ∧ (wakeUpTo budget f q).2.1 = wakeFlags f W ∧
      (wakeUpTo budget f q).1 + W.card = budget ∧
      ((wakeUpTo budget f q).1 = 0 ∨
        ∀ j ∈ (wakeUpTo budget f q).2.2, wakeFlags f W j ≠ waiting) := by
  induction q generalizing budget f with
  | nil => exact ⟨∅, Taken.refl f [], wakeFlags_empty.symm, rfl, .inr (by simp [wakeUpTo])⟩
  | cons x q ih =>
    rw [wakeUpTo, ← wakeFlags_singleton]
    split_ifs with hzero hx
    · subst hzero
      exact ⟨∅, Taken.refl f _, wakeFlags_empty.symm, rfl, .inl rfl⟩
    · obtain ⟨W, htaken, hflags, hcard, hend⟩ := ih (budget - 1) (wakeFlags f {x})
      refine ⟨{x} ∪ W, Taken.cons_take hx htaken, ?_, ?_, ?_⟩
      · rw [hflags, wakeFlags_wakeFlags]
      · rw [Finset.card_union_of_disjoint htaken.disjoint, Finset.card_singleton]
        omega
      · rwa [wakeFlags_wakeFlags] at hend
    · obtain ⟨W, htaken, hflags, hcard, hend⟩ := ih budget f
      refine ⟨W, htaken.cons_keep hx, hflags, hcard, hend.imp_right ?_⟩
      intro hend j hj
      rcases mem_cons.mp hj with rfl | hj
      · rw [Ne, wakeFlags_eq_waiting]
        exact fun h => hx h.2
      · exact hend j hj

end Taken

/-! ### Waking the waiters of a side -/

namespace Internal

variable {c c' c'' : Internal T} {side : Side} {W W' : Finset ℕ}

/-- Some waiters of one side are woken, and nothing else happens to the waiters. -/
structure Wakes (side : Side) (c c' : Internal T) (W : Finset ℕ) : Prop where
  flags : c'.flags = wakeFlags c.flags W
  async : (c'.asyncQueue side).Sublist (c.asyncQueue side)
  sync : (c'.syncQueue side).Sublist (c.syncQueue side)
  taken : Taken c.flags (c.queues side) (c'.queues side) W
  frame : ∀ side' ≠ side, c'.asyncQueue side' = c.asyncQueue side' ∧
    c'.syncQueue side' = c.syncQueue side'
  senderCount : c'.senderCount = c.senderCount
  receiverCount : c'.receiverCount = c.receiverCount

namespace Wakes

theorem refl (side : Side) (c : Internal T) : Wakes side c c ∅ :=
  ⟨wakeFlags_empty.symm, .refl _, .refl _, Taken.refl _ _, fun _ _ => ⟨rfl, rfl⟩, rfl, rfl⟩

theorem mem_waiters (h : Wakes side c c' W) (i : ℕ) :
    i ∈ c'.waiters side ↔ i ∈ c.waiters side ∧ i ∉ W := by
  simp only [waiters, Set.mem_ofPred_eq, h.flags, wakeFlags_eq_waiting]
  constructor
  · rintro ⟨hq, hW, hflag⟩
    exact ⟨⟨h.taken.sublist.subset hq, hflag⟩, hW⟩
  · rintro ⟨⟨hq, hflag⟩, hW⟩
    exact ⟨h.taken.keep i hq hflag hW, hW, hflag⟩

theorem subset_waiters (h : Wakes side c c' W) : ∀ i ∈ W, i ∈ c.waiters side :=
  h.taken.queued

theorem trans (h : Wakes side c c' W) (h' : Wakes side c' c'' W') :
    Wakes side c c'' (W ∪ W') where
  flags := by rw [h'.flags, h.flags, wakeFlags_wakeFlags]
  async := h'.async.trans h.async
  sync := h'.sync.trans h.sync
  taken := by
    refine ⟨h'.taken.sublist.trans h.taken.sublist, ?_, ?_, ?_⟩
    · intro w hw
      rcases Finset.mem_union.mp hw with hw | hw
      · exact h.taken.queued w hw
      · exact ((h.mem_waiters w).mp (h'.subset_waiters w hw)).1
    · intro j hj hflag hjW
      rw [Finset.mem_union, not_or] at hjW
      have hj' := (h.mem_waiters j).mpr ⟨⟨hj, hflag⟩, hjW.1⟩
      exact h'.taken.keep j hj'.1 hj'.2 hjW.2
    · intro hnodup w hw hmem
      rcases Finset.mem_union.mp hw with hw | hw
      · exact h.taken.gone hnodup w hw (h'.taken.sublist.subset hmem)
      · exact h'.taken.gone (hnodup.sublist h.taken.sublist) w hw hmem
  frame := by
    intro side' hne
    obtain ⟨ha, hs⟩ := h.frame side' hne
    obtain ⟨ha', hs'⟩ := h'.frame side' hne
    exact ⟨ha'.trans ha, hs'.trans hs⟩
  senderCount := h'.senderCount.trans h.senderCount
  receiverCount := h'.receiverCount.trans h.receiverCount

theorem disjoint (h : Wakes side c c' W) (h' : Wakes side c' c'' W') : Disjoint W W' := by
  rw [Finset.disjoint_right]
  intro w hw
  exact ((h.mem_waiters w).mp (h'.subset_waiters w hw)).2

end Wakes

theorem wakes_receivers {a b : List ℕ} {W₁ W₂ : Finset ℕ}
    (ha : Taken c.flags c.waitingAsyncReceivers a W₁)
    (hb : Taken (wakeFlags c.flags W₁) c.waitingSyncReceivers b W₂) :
    Wakes .recv c { c with
      flags := wakeFlags c.flags (W₁ ∪ W₂)
      waitingAsyncReceivers := a
      waitingSyncReceivers := b } (W₁ ∪ W₂) where
  flags := rfl
  async := ha.sublist
  sync := hb.sublist
  taken := ha.append hb
  frame := by
    intro side' hne
    cases side' with
    | send => exact ⟨rfl, rfl⟩
    | recv => exact absurd rfl hne
  senderCount := rfl
  receiverCount := rfl

theorem wakes_senders {a b : List ℕ} {W₁ W₂ : Finset ℕ}
    (ha : Taken c.flags c.waitingAsyncSenders a W₁)
    (hb : Taken (wakeFlags c.flags W₁) c.waitingSyncSenders b W₂) :
    Wakes .send c { c with
      flags := wakeFlags c.flags (W₁ ∪ W₂)
      waitingAsyncSenders := a
      waitingSyncSenders := b } (W₁ ∪ W₂) where
  flags := rfl
  async := ha.sublist
  sync := hb.sublist
  taken := ha.append hb
  frame := by
    intro side' hne
    cases side' with
    | send => exact absurd rfl hne
    | recv => exact ⟨rfl, rfl⟩
  senderCount := rfl
  receiverCount := rfl

theorem waiters_eq_empty (h : ∀ j ∈ c.queues side, c.flags j ≠ waiting) : c.waiters side = ∅ := by
  ext i
  simp only [waiters, Set.mem_ofPred_eq, Set.mem_empty_iff_false, iff_false, not_and]
  exact h i

/-- At least `n` waiters were woken, unless nobody waits any more. -/
def Enough (side : Side) (c' : Internal T) (W : Finset ℕ) (n : ℕ) : Prop :=
  c'.waiters side = ∅ ∨ n ≤ W.card

theorem wakeReceiver_wakes (c : Internal T) : ∃ W, Wakes .recv c (c.wakeReceiver.getD c) W ∧
    Enough .recv (c.wakeReceiver.getD c) W 1 := by
  unfold wakeReceiver
  split
  · rename_i r hr
    have h := wakes_receivers (firstWaiting_some hr) (Taken.refl _ c.waitingSyncReceivers)
    rw [Finset.union_empty, wakeFlags_singleton] at h
    exact ⟨{r.1}, h, .inr le_rfl⟩
  · rename_i hnone
    split
    · rename_i r hr
      rw [← wakeFlags_empty (f := c.flags)] at hr
      have h := wakes_receivers (Taken.refl _ c.waitingAsyncReceivers) (firstWaiting_some hr)
      rw [Finset.empty_union, wakeFlags_singleton] at h
      exact ⟨{r.1}, h, .inr le_rfl⟩
    · rename_i hnone'
      refine ⟨∅, Wakes.refl _ c, .inl (waiters_eq_empty ?_)⟩
      intro j hj
      rcases mem_append.mp hj with hj | hj
      · exact firstWaiting_none hnone j hj
      · exact firstWaiting_none hnone' j hj

theorem wakeSender_wakes (c : Internal T) : ∃ W, Wakes .send c c.wakeSender W ∧
    Enough .send c.wakeSender W 1 := by
  unfold wakeSender
  split
  · rename_i r hr
    have h := wakes_senders (firstWaiting_some hr) (Taken.refl _ c.waitingSyncSenders)
    rw [Finset.union_empty, wakeFlags_singleton] at h
    exact ⟨{r.1}, h, .inr le_rfl⟩
  · rename_i hnone
    split
    · rename_i r hr
      rw [← wakeFlags_empty (f := c.flags)] at hr
      have h := wakes_senders (Taken.refl _ c.waitingAsyncSenders) (firstWaiting_some hr)
      rw [Finset.empty_union, wakeFlags_singleton] at h
      exact ⟨{r.1}, h, .inr le_rfl⟩
    · rename_i hnone'
      refine ⟨∅, Wakes.refl _ c, .inl (waiters_eq_empty ?_)⟩
      intro j hj
      rcases mem_append.mp hj with hj | hj
      · exact firstWaiting_none hnone j hj
      · exact firstWaiting_none hnone' j hj

theorem popReceiver_wakes (c : Internal T) : ∃ W, Wakes .recv c c.popReceiver.2 W ∧
    Enough .recv c.popReceiver.2 W 1 := by
  unfold popReceiver
  dsimp only
  rcases popWaiting_taken c.flags c.waitingAsyncReceivers with ⟨w, hw, ha⟩ | ⟨hnone, hnil, hstale⟩
  · have h := wakes_receivers ha (Taken.refl _ c.waitingSyncReceivers)
    rw [Finset.union_empty, wakeFlags_singleton] at h
    rw [hw]
    exact ⟨{w}, h, .inr le_rfl⟩
  · -- the asynchronous queue is emptied of stale waiters
    have ha : Taken c.flags c.waitingAsyncReceivers [] ∅ :=
      ⟨nil_sublist _, by simp, fun j hj hflag _ => absurd hflag (hstale j hj), by simp⟩
    rw [hnone, hnil]
    dsimp only
    rcases popWaiting_taken c.flags c.waitingSyncReceivers with ⟨w, hw, hb⟩ | ⟨hnone', hnil', hstale'⟩
    · rw [← wakeFlags_empty (f := c.flags)] at hb
      have h := wakes_receivers ha hb
      rw [Finset.empty_union, wakeFlags_singleton, wakeFlags_empty] at h
      rw [hw]
      exact ⟨{w}, h, .inr le_rfl⟩
    · have hb : Taken (wakeFlags c.flags ∅) c.waitingSyncReceivers [] ∅ := by
        rw [wakeFlags_empty]
        exact ⟨nil_sublist _, by simp, fun j hj hflag _ => absurd hflag (hstale' j hj), by simp⟩
      have h := wakes_receivers ha hb
      rw [Finset.empty_union, wakeFlags_empty] at h
      rw [hnone', hnil']
      refine ⟨∅, h, .inl (waiters_eq_empty ?_)⟩
      simp [queues, asyncQueue, syncQueue]

theorem wakeSenders_wakes (c : Internal T) (maxToWake : UInt64) :
    ∃ W, Wakes .send c (c.wakeSenders maxToWake) W ∧
      Enough .send (c.wakeSenders maxToWake) W maxToWake.toNat := by
  obtain ⟨W₁, ha, hf₁, hcard₁, hend₁⟩ :=
    wakeUpTo_taken maxToWake.toNat c.flags c.waitingAsyncSenders
  obtain ⟨W₂, hb, hf₂, hcard₂, hend₂⟩ := wakeUpTo_taken
    (wakeUpTo maxToWake.toNat c.flags c.waitingAsyncSenders).1
    (wakeFlags c.flags W₁) c.waitingSyncSenders
  have h := wakes_senders ha hb
  have hstate : c.wakeSenders maxToWake = { c with
      flags := wakeFlags c.flags (W₁ ∪ W₂)
      waitingAsyncSenders := (wakeUpTo maxToWake.toNat c.flags c.waitingAsyncSenders).2.2
      waitingSyncSenders := (wakeUpTo (wakeUpTo maxToWake.toNat c.flags c.waitingAsyncSenders).1
        (wakeFlags c.flags W₁) c.waitingSyncSenders).2.2 } := by
    rw [← wakeFlags_wakeFlags, ← hf₂, ← hf₁]
    rfl
  rw [hstate]
  refine ⟨W₁ ∪ W₂, h, ?_⟩
  -- a scan that ends with budget left has woken everyone
  by_cases hleft : (wakeUpTo (wakeUpTo maxToWake.toNat c.flags c.waitingAsyncSenders).1
      (wakeFlags c.flags W₁) c.waitingSyncSenders).1 = 0
  · right
    rw [Finset.card_union_of_disjoint hb.disjoint]
    omega
  · left
    have hleft₁ : (wakeUpTo maxToWake.toNat c.flags c.waitingAsyncSenders).1 ≠ 0 := by omega
    refine waiters_eq_empty ?_
    intro j hj
    rw [← wakeFlags_wakeFlags]
    rcases mem_append.mp hj with hj | hj
    · intro hflag
      exact hend₁.resolve_left hleft₁ j hj (wakeFlags_eq_waiting.mp hflag).2
    · exact hend₂.resolve_left hleft j hj

/-! ### The buffer, broken or not -/

/-- The buffer holds some items within the capacity; above `2 ^ 63` it is one without slots. -/
def Sound (capacity : UInt64) (c : Internal T) : Prop :=
  (∃ l, c.Stores capacity l) ∨ (2 ^ 63 < capacity.toNat ∧ c.queue.Broken ∧ c.queueLen = 0)

theorem sound_new : (new capacity : Internal T).Sound capacity := by
  by_cases hle : capacity.toNat ≤ 2 ^ 63
  · exact .inl ⟨[], stores_new hle⟩
  · exact .inr ⟨not_le.mp hle, RingBuffer.broken_new (not_le.mp hle), rfl⟩

/-- Only the buffer differs. -/
def SameWaiters (c c' : Internal T) : Prop :=
  c' = { c with queue := c'.queue, queueLen := c'.queueLen }

namespace Wakes

theorem congr_left (h : Wakes side c' c'' W) (hsame : SameWaiters c c') : Wakes side c c'' W := by
  rw [hsame] at h
  cases side <;> exact ⟨h.flags, h.async, h.sync, h.taken, h.frame, h.senderCount, h.receiverCount⟩

theorem congr_right (h : Wakes side c c' W) (hsame : SameWaiters c' c'') : Wakes side c c'' W := by
  have hrefl := (refl side c'').congr_left hsame
  have htrans := h.trans hrefl
  rwa [Finset.union_empty] at htrans

end Wakes

namespace Sound

theorem congr (h : c.Sound capacity) (hq : c'.queue = c.queue) (hn : c'.queueLen = c.queueLen) :
    c'.Sound capacity := by
  rcases h with ⟨l, h⟩ | ⟨hlt, h, h0⟩
  · exact .inl ⟨l, h.congr hq hn⟩
  · exact .inr ⟨hlt, hq ▸ h, hn.trans h0⟩

theorem queueLen_le (h : c.Sound capacity) : c.queueLen.toNat ≤ capacity.toNat := by
  rcases h with ⟨l, h⟩ | ⟨-, -, h0⟩
  · rw [h.queueLen]
    exact h.length_le
  · rw [h0]
    exact Nat.zero_le _

theorem queueLen_eq (h : c.Sound capacity) (hlt : ¬ c.queueLen < capacity) :
    c.queueLen = capacity := by
  rw [UInt64.lt_iff_toNat_lt, not_lt] at hlt
  rw [← UInt64.toNat_inj]
  exact le_antisymm h.queueLen_le hlt

theorem queueLen_eq_zero (h : c.Sound capacity) (hlt : 2 ^ 63 < capacity.toNat) :
    c.queueLen = 0 := by
  rcases h with ⟨l, h⟩ | ⟨-, -, h0⟩
  · obtain ⟨k, hle, hk⟩ := h.holds
    have hpow : 2 ^ k ≤ 2 ^ 63 := Nat.pow_le_pow_right (by decide) (Nat.le_of_lt_succ hk.exp_lt)
    omega
  · exact h0

/-- The ring is empty exactly when the cached length is zero. -/
theorem isEmpty_iff (h : c.Sound capacity) : c.queue.isEmpty ↔ c.queueLen = 0 := by
  rcases h with ⟨l, h⟩ | ⟨-, h, h0⟩
  · rw [h.holds.isEmpty_iff, ← UInt64.toNat_inj, h.queueLen, UInt64.toNat_zero,
      length_eq_zero_iff]
  · simp [RingBuffer.isEmpty, h.indices, h0]

theorem pushBack (h : c.Sound capacity) (hlt : c.queueLen < capacity) (item : T) :
    (∃ c', c.pushBack item = some c' ∧ c'.Sound capacity ∧ SameWaiters c c' ∧
        c'.queueLen.toNat = c.queueLen.toNat + 1) ∨
      (c.pushBack item = none ∧ 2 ^ 63 < capacity.toNat) := by
  rcases h with ⟨l, h⟩ | ⟨hbig, h, -⟩
  · obtain ⟨c', hpush, hstores, hsame⟩ := h.pushBack (h.queueLen_lt.mp hlt) item
    refine .inl ⟨c', hpush, .inl ⟨_, hstores⟩, hsame, ?_⟩
    rw [hstores.queueLen, h.queueLen, length_append, length_singleton]
  · exact .inr ⟨by rw [Internal.pushBack, h.push, map_none], hbig⟩

theorem popFront (h : c.Sound capacity) :
    (∃ r, c.popFront = some r ∧ r.2.Sound capacity ∧ SameWaiters c r.2 ∧
        c.queueLen.toNat = r.2.queueLen.toNat + 1) ∨
      (c.popFront = none ∧ c.queueLen = 0) := by
  rcases h with ⟨l, h⟩ | ⟨-, h, h0⟩
  · cases l with
    | nil => exact .inr ⟨h.popFront_nil, UInt64.toNat_inj.mp h.queueLen⟩
    | cons item l =>
      obtain ⟨c', hpop, hstores, hsame⟩ := h.popFront_cons
      refine .inl ⟨_, hpop, .inl ⟨_, hstores⟩, hsame, ?_⟩
      rw [hstores.queueLen, h.queueLen, length_cons]
  · exact .inr ⟨by rw [Internal.popFront, h.pop, map_none], h0⟩

end Sound

/-! ### What a send does -/

/-- A send wakes a receiver for each item it stores. -/
structure SendEffect (capacity : UInt64) (c c' : Internal T) (status : BatchStatus)
    (items : List T) : Prop where
  sound : c'.Sound capacity
  wakes : ∃ W, Wakes .recv c c' W ∧ (c'.waiters .recv = ∅ ∨
    c'.queueLen.toNat ≤ c.queueLen.toNat + W.card)
  grows : c.queueLen.toNat ≤ c'.queueLen.toNat
  full : status = .full → c'.queueLen = capacity
  closed : status = .closed → c.receiverCount = 0
  complete : status = .complete → items ≠ [] → c.queueLen.toNat < c'.queueLen.toNat
  failed : status = .pushFailed → 2 ^ 63 < capacity.toNat

theorem SendEffect.refl {status : BatchStatus} {items : List T} (h : c.Sound capacity)
    (hfull : status = .full → c.queueLen = capacity)
    (hclosed : status = .closed → c.receiverCount = 0)
    (hcomplete : status = .complete → items = []) (hfailed : status ≠ .pushFailed) :
    SendEffect capacity c c status items :=
  ⟨h, ⟨∅, Wakes.refl _ c, .inr le_rfl⟩, le_rfl, hfull, hclosed,
    fun hs hne => absurd (hcomplete hs) hne, fun hs => absurd hs hfailed⟩

theorem sendBatchLoop_effect (hpos : capacity ≠ 0) (h : c.Sound capacity) (items : List T) :
    SendEffect capacity c (sendBatchLoop capacity items c).2
      (sendBatchLoop capacity items c).1.1 items := by
  induction items generalizing c with
  | nil =>
    rw [sendBatchLoop]
    exact .refl h (by simp) (by simp) (fun _ => rfl) (by simp)
  | cons item rest ih =>
    by_cases hlt : c.queueLen < capacity
    · obtain ⟨hq, hn⟩ := popReceiver_queue c
      obtain ⟨W, hwakes, henough⟩ := popReceiver_wakes c
      rw [sendBatchLoop_of_lt hlt]
      rcases (h.congr hq hn).pushBack (hn ▸ hlt) item with
        ⟨c', hpush, hsound, hsame, hlen⟩ | ⟨hpush, hbig⟩
      · rw [hpush]
        dsimp only
        have hrest := ih hsound
        obtain ⟨W', hwakes', henough'⟩ := hrest.wakes
        have hgrows := hrest.grows
        have hwakes' := hwakes'.congr_left hsame
        rw [hlen, hn] at hgrows henough'
        refine ⟨hrest.sound, ⟨W ∪ W', hwakes.trans hwakes', ?_⟩, Nat.le_of_succ_le hgrows,
          hrest.full, ?_, fun _ _ => hgrows, hrest.failed⟩
        · rcases henough with hempty | hcard
          · -- nobody waited after the first item, so nobody waits at the end
            left
            ext i
            rw [hwakes'.mem_waiters, hempty]
            simp
          · refine henough'.imp_right ?_
            rw [Finset.card_union_of_disjoint (hwakes.disjoint hwakes')]
            omega
        · intro hclosed
          have hcount := hrest.closed hclosed
          rwa [hsame, hwakes.receiverCount] at hcount
      · rw [hpush]
        refine ⟨h.congr hq hn, ⟨W, hwakes, .inr ?_⟩, ?_, by simp, by simp, by simp, fun _ => hbig⟩
        · rw [hn]
          exact Nat.le_add_right _ _
        · rw [hn]
    · rw [sendBatchLoop_of_full hpos (h.queueLen_eq hlt)]
      exact .refl h (fun _ => h.queueLen_eq hlt) (by simp) (by simp) (by simp)

theorem trySendBatchCore_effect (hpos : capacity ≠ 0) (h : c.Sound capacity) (items : List T) :
    SendEffect capacity c (c.trySendBatchCore capacity items).2
      (c.trySendBatchCore capacity items).1.1 items := by
  unfold trySendBatchCore
  split_ifs with hnil hclosed
  · exact .refl h (by simp) (by simp) (fun _ => hnil) (by simp)
  · exact .refl h (by simp) (fun _ => hclosed) (by simp) (by simp)
  · exact sendBatchLoop_effect hpos h items

end Internal

namespace System

variable {s : System T}

theorem send_effect (hpos : capacity ≠ 0) (h : s.core.Sound capacity) (batch : Bool)
    (items : List T) : Internal.SendEffect capacity s.core (s.send capacity batch items).2.core
      (s.send capacity batch items).1.1 items := by
  unfold System.send
  split
  · rename_i item rest
    by_cases hclosed : s.core.receiverCount = 0
    · rw [Internal.trySendCore_of_closed hclosed]
      exact .refl h (by simp) (fun _ => hclosed) (by simp) (by simp)
    · by_cases hlt : s.core.queueLen < capacity
      · obtain ⟨hq, hn⟩ := Internal.wakeReceiver_queue s.core
        obtain ⟨W, hwakes, henough⟩ := Internal.wakeReceiver_wakes s.core
        rw [Internal.trySendCore_of_lt hclosed hlt, Internal.store]
        rcases (h.congr hq hn).pushBack (hn ▸ hlt) item with
          ⟨c', hpush, hsound, hsame, hlen⟩ | ⟨hpush, hbig⟩
        · rw [hpush]
          rw [hn] at hlen
          have hwakes' := hwakes.congr_right hsame
          refine ⟨hsound, ⟨W, hwakes', ?_⟩, ?_, by simp, by simp, ?_, by simp⟩
          · rcases henough with hempty | hcard
            · left
              rw [← hempty, hsame]
              rfl
            · right
              rw [hlen]
              omega
          · rw [hlen]
            exact Nat.le_succ _
          · intro _ _
            rw [hlen]
            exact Nat.lt_succ_self _
        · rw [hpush]
          refine ⟨h.congr hq hn, ⟨W, hwakes, .inr ?_⟩, ?_, by simp, by simp, by simp, fun _ => hbig⟩
          · rw [hn]
            exact Nat.le_add_right _ _
          · rw [hn]
      · rw [Internal.trySendCore_of_full hpos hclosed (h.queueLen_eq hlt)]
        exact .refl h (fun _ => h.queueLen_eq hlt) (by simp) (by simp) (by simp)
  · exact Internal.trySendBatchCore_effect hpos h _

/-! ### What a receive does -/

/-- A receive of one item or a batch, by any caller: it wakes a sender for each item it takes. -/
structure RecvEffect (capacity : UInt64) (c c' : Internal T) (outcome : RecvOutcome T)
    (max : Option UInt64) : Prop where
  sound : c'.Sound capacity
  wakes : ∃ W, Internal.Wakes .send c c' W ∧ (c'.waiters .send = ∅ ∨
    c.queueLen.toNat ≤ c'.queueLen.toNat + W.card)
  shrinks : c'.queueLen.toNat ≤ c.queueLen.toNat
  empty : outcome = .empty → c.queueLen = 0 ∧ c.senderCount ≠ 0 ∧ max ≠ some 0
  disconnected : outcome = .disconnected → c.senderCount = 0
  taken : ∀ items, outcome = .ok items → max ≠ some 0 → c'.queueLen.toNat < c.queueLen.toNat

theorem RecvEffect.of_empty {c : Internal T} {max : Option UInt64} (h : c.Sound capacity)
    (hzero : c.queueLen = 0) (hmax : max ≠ some 0) :
    RecvEffect capacity c c (if c.senderCount = 0 then .disconnected else .empty) max := by
  refine ⟨h, ⟨∅, .refl _ c, .inr le_rfl⟩, le_rfl, ?_, ?_, ?_⟩
  · split_ifs with hs
    · simp
    · exact fun _ => ⟨hzero, hs, hmax⟩
  · split_ifs with hs
    · exact fun _ => hs
    · simp
  · split_ifs <;> simp

theorem tryRecvCore_effect {c : Internal T} (hpos : capacity ≠ 0) (h : c.Sound capacity) :
    RecvEffect capacity c (c.tryRecvCore capacity).2 (c.tryRecvCore capacity).1 none := by
  unfold Internal.tryRecvCore
  rcases h.popFront with ⟨r, hpop, hsound, hsame, hlen⟩ | ⟨hpop, hzero⟩
  · rw [hpop]
    dsimp only
    rw [if_pos (UInt64.pos_iff_ne_zero.mpr hpos)]
    obtain ⟨hq, hn⟩ := Internal.wakeSender_queue r.2
    obtain ⟨W, hwakes, henough⟩ := Internal.wakeSender_wakes r.2
    refine ⟨hsound.congr hq hn, ⟨W, hwakes.congr_left hsame, henough.imp_right ?_⟩, ?_,
      by simp, by simp, ?_⟩
    · intro hcard
      rw [hn]
      omega
    · rw [hn]
      omega
    · intro _ _ _
      rw [hn]
      omega
  · rw [hpop]
    have heffect : RecvEffect capacity c c (if c.senderCount = 0 then .disconnected else .empty)
        none := RecvEffect.of_empty h hzero (by simp)
    dsimp only
    split_ifs with hs
    · rwa [if_pos hs] at heffect
    · rwa [if_neg hs] at heffect

theorem tryRecvBatchCore_effect {c : Internal T} (hpos : capacity ≠ 0) (h : c.Sound capacity)
    (max : UInt64) : RecvEffect capacity c (c.tryRecvBatchCore capacity max).2
      (c.tryRecvBatchCore capacity max).1 (some max) := by
  by_cases hmax : max = 0
  · rw [Internal.tryRecvBatchCore, if_pos hmax, hmax]
    exact ⟨h, ⟨∅, .refl _ c, .inr le_rfl⟩, le_rfl, by simp, by simp, by simp⟩
  · by_cases hzero : c.queueLen = 0
    · rw [Internal.tryRecvBatchCore_of_empty hmax hzero]
      exact .of_empty h hzero (by simpa using hmax)
    · obtain ⟨l, hl⟩ : ∃ l, c.Stores capacity l := h.resolve_right fun h => hzero h.2.2
      have hle : (min max c.queueLen).toNat ≤ l.length := by
        rw [Word.toNat_min, hl.queueLen]
        exact Nat.min_le_right _ _
      obtain ⟨-, hstores⟩ := hl.drainInto hle
      have hlen := hstores.queueLen
      rw [length_drop, Word.toNat_min, hl.queueLen] at hlen
      obtain ⟨W, hwakes, henough⟩ :=
        Internal.wakeSenders_wakes (c.drainInto (min max c.queueLen)).2 max
      have hmax' : max.toNat ≠ 0 := fun h0 => hmax (UInt64.toNat_inj.mp h0)
      have hzero' : l.length ≠ 0 := by
        rw [← hl.queueLen]
        exact fun h0 => hzero (UInt64.toNat_inj.mp h0)
      have hqueueLen : ((c.drainInto (min max c.queueLen)).2.wakeSenders max).queueLen =
        (c.drainInto (min max c.queueLen)).2.queueLen := rfl
      rw [Internal.tryRecvBatchCore_of_ne hmax hpos hzero]
      refine ⟨.inl ⟨_, hstores.congr rfl rfl⟩, ⟨W, hwakes.congr_left rfl, henough.imp_right ?_⟩,
        ?_, by simp, by simp, ?_⟩
      · intro hcard
        rw [hqueueLen, hlen, hl.queueLen]
        omega
      · rw [hqueueLen, hlen, hl.queueLen]
        omega
      · intro _ _ _
        rw [hqueueLen, hlen, hl.queueLen]
        omega

theorem recv_effect (hpos : capacity ≠ 0) (h : s.core.Sound capacity) (max : Option UInt64) :
    RecvEffect capacity s.core (s.recv capacity max).2.core (s.recv capacity max).1 max := by
  cases max with
  | none => exact tryRecvCore_effect hpos h
  | some max => exact tryRecvBatchCore_effect hpos h max

end System

end Fibre.Channels.Mpmc
