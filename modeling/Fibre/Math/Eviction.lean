import Fibre.Math.CostQueue

/-!
# Paying for a cost from a queue

Items are taken from the front of a queue until they pay for a cost. The items that do so are
determined by the queue: the shortest of its beginnings that costs enough. A loop that adds up
what it took in a machine word takes just these as long as their cost fits the word.

When the items are keys with costs, the queue answers what a key costs, and the loop is told by
what that answer is before and after it.

## Main results

* `CostQueue.pays_iff` — a loop keeps the contract exactly when the cost it takes fits a word
* `CostQueue.evicts_iff` — the same, as a caller sees it
* `CostQueue.payLoop_eq` — turns that take the first of a queue take what pays
-/

namespace CostQueue

open Word List Nat

variable {α K : Type*} {cost : α → UInt64} {l taken rest : List α} {c : UInt64}

/-- Takes the oldest items until their costs, with `freed` before them, come to `c`: the items
taken, in order, what they come to, and the rest. -/
def drain (cost : α → UInt64) (c : UInt64) : UInt64 → List α → List α × UInt64 × List α
  | freed, [] => ([], freed, [])
  | freed, a :: rest =>
    if freed < c then
      let r := drain cost c (freed + cost a) rest
      (a :: r.1, r.2)
    else ([], freed, a :: rest)

/-- The items taken are enough, or all there is, and no item could have been left out. -/
structure Pays (cost : α → UInt64) (c : ℕ) (taken rest : List α) : Prop where
  enough : c ≤ totalNat cost taken ∨ rest = []
  shortest : ∀ init last, taken = init ++ [last] → totalNat cost init < c

theorem Pays.unique {c : ℕ} {taken' rest' : List α} (h : Pays cost c taken rest)
    (h' : Pays cost c taken' rest') (heq : taken ++ rest = taken' ++ rest') : taken = taken' := by
  induction taken generalizing taken' c with
  | nil =>
    cases taken' with
    | nil => rfl
    | cons a taken' =>
      -- the second loop took something, so there was something to pay
      have hpos : 0 < c := by
        obtain ⟨init, last, hlast⟩ := (eq_nil_or_concat (a :: taken')).resolve_left (by simp)
        rw [concat_eq_append] at hlast
        exact (zero_le _).trans_lt (h'.shortest init last hlast)
      rcases h.enough with hle | hnil
      · exact absurd hle (by simpa using hpos.ne')
      · rw [hnil] at heq
        cases heq
  | cons a taken ih =>
    have hpos : 0 < c := by
      obtain ⟨init, last, hlast⟩ := (eq_nil_or_concat (a :: taken)).resolve_left (by simp)
      rw [concat_eq_append] at hlast
      exact (zero_le _).trans_lt (h.shortest init last hlast)
    cases taken' with
    | nil =>
      rcases h'.enough with hle | hnil
      · exact absurd hle (by simpa using hpos.ne')
      · rw [hnil] at heq
        cases heq
    | cons b taken' =>
      obtain ⟨rfl, htail⟩ := List.cons.inj heq
      -- what is left to pay after the first item
      have hrest : ∀ {t r : List α}, Pays cost c (a :: t) r →
          Pays cost (c - (cost a).toNat) t r := by
        intro t r ht
        constructor
        · refine ht.enough.imp_left fun hle => ?_
          rw [totalNat_cons] at hle
          omega
        · intro init last hlast
          have hlt := ht.shortest (a :: init) last (by rw [hlast]; rfl)
          rw [totalNat_cons] at hlt
          omega
      rw [ih (hrest h) (hrest h') htail]

/-- Taking items until all is paid, and nothing below zero, pays. -/
theorem pays_popUntil (cost : α → UInt64) (c : UInt64) (l : List α) :
    Pays cost c.toNat (popUntil cost c l).2.1 (popUntil cost c l).2.2 := by
  constructor
  · have hleft := toNat_popUntil cost c l
    rcases popUntil_done cost c l with hzero | hnil
    · rw [hzero, UInt64.toNat_zero] at hleft
      exact .inl (by omega)
    · exact .inr hnil
  · induction l generalizing c with
    | nil => simp [popUntil]
    | cons a l ih =>
      unfold popUntil
      split_ifs with hpos
      · intro init last hlast
        cases init with
        | nil =>
          rw [totalNat_nil]
          exact UInt64.lt_iff_toNat_lt.mp hpos
        | cons b init =>
          obtain ⟨rfl, htail⟩ := List.cons.inj hlast
          have hlt := ih (satSub c (cost a)) init last htail
          rw [toNat_satSub] at hlt
          rw [totalNat_cons]
          omega
      · simp

theorem drain_eq {freed : UInt64} (h : freed ≤ c)
    (hfit : freed.toNat + totalNat cost (popUntil cost (c - freed) l).2.1 < 2 ^ 64) :
    drain cost c freed l = ((popUntil cost (c - freed) l).2.1,
      freed + total cost (popUntil cost (c - freed) l).2.1,
      (popUntil cost (c - freed) l).2.2) := by
  induction l generalizing freed with
  | nil => simp [drain, popUntil]
  | cons a l ih =>
    have hsub : (c - freed).toNat = c.toNat - freed.toNat := UInt64.toNat_sub_of_le _ _ h
    have hle := UInt64.le_iff_toNat_le.mp h
    by_cases hlt : freed < c
    · have hlt' := UInt64.lt_iff_toNat_lt.mp hlt
      have hpos : 0 < c - freed := UInt64.lt_iff_toNat_lt.mpr (by rw [hsub]; simpa using hlt')
      rw [drain, if_pos hlt, popUntil, if_pos hpos]
      rw [popUntil, if_pos hpos] at hfit
      simp only [totalNat_cons] at hfit
      have hadd : (freed + cost a).toNat = freed.toNat + (cost a).toNat := by
        rw [UInt64.toNat_add, mod_eq_of_lt (by omega)]
      by_cases hnext : freed + cost a ≤ c
      · have hleft : satSub (c - freed) (cost a) = c - (freed + cost a) := by
          rw [← UInt64.toNat_inj, toNat_satSub, hsub, UInt64.toNat_sub_of_le _ _ hnext, hadd]
          omega
        rw [hleft] at hfit ⊢
        rw [ih hnext (by rw [hadd]; omega)]
        simp only [total_cons, UInt64.add_assoc]
      · -- it was paid with some to spare, and nothing more is taken
        have hnext' : c.toNat < (freed + cost a).toNat := by
          rw [UInt64.le_iff_toNat_le] at hnext
          omega
        have hleft : satSub (c - freed) (cost a) = 0 := by
          rw [← UInt64.toNat_inj, toNat_satSub, hsub, UInt64.toNat_zero]
          omega
        have hstop : ¬ freed + cost a < c := by
          rw [UInt64.lt_iff_toNat_lt]
          omega
        rw [hleft, popUntil_zero]
        cases l with
        | nil => simp [drain]
        | cons b l => simp [drain, hstop]
    · have heq : c - freed = 0 := by
        rw [UInt64.lt_iff_toNat_lt] at hlt
        rw [← UInt64.toNat_inj, hsub, UInt64.toNat_zero]
        omega
      rw [drain, if_neg hlt, heq, popUntil_zero]
      simp

theorem drain_zero_eq (hfit : totalNat cost (popUntil cost c l).2.1 < 2 ^ 64) :
    (drain cost c 0 l).1 = (popUntil cost c l).2.1 := by
  have hzero : c - 0 = c := UInt64.sub_zero c
  have hfit' : (0 : UInt64).toNat + totalNat cost (popUntil cost (c - 0) l).2.1 < 2 ^ 64 := by
    rw [hzero, UInt64.toNat_zero, zero_add]
    exact hfit
  rw [drain_eq UInt64.zero_le hfit', hzero]

theorem drain_append (cost : α → UInt64) (c freed : UInt64) (l : List α) :
    (drain cost c freed l).1 ++ (drain cost c freed l).2.2 = l := by
  induction l generalizing freed with
  | nil => rfl
  | cons a l ih =>
    unfold drain
    split_ifs
    · simpa using ih _
    · rfl

theorem drain_freed (cost : α → UInt64) (c freed : UInt64) (l : List α) :
    (drain cost c freed l).2.1 = freed + total cost (drain cost c freed l).1 := by
  induction l generalizing freed with
  | nil => simp [drain]
  | cons a l ih =>
    unfold drain
    split_ifs
    · simp only [ih, total_cons, UInt64.add_assoc]
    · simp

theorem drain_done (cost : α → UInt64) (c freed : UInt64) (l : List α) :
    c ≤ (drain cost c freed l).2.1 ∨ (drain cost c freed l).2.2 = [] := by
  induction l generalizing freed with
  | nil => exact .inr rfl
  | cons a l ih =>
    unfold drain
    split_ifs with hlt
    · exact ih _
    · exact .inl (UInt64.not_lt.mp hlt)

/-- A loop that adds up what it takes in a word, and that takes the right items while they fit,
pays and tells what it took exactly when the right items fit the word. -/
theorem pays_iff (hsplit : taken ++ rest = l) {returned : UInt64}
    (hreturned : returned = total cost taken)
    (hright : totalNat cost (popUntil cost c l).2.1 < 2 ^ 64 → taken = (popUntil cost c l).2.1) :
    (returned.toNat = totalNat cost taken ∧ Pays cost c.toNat taken rest) ↔
      totalNat cost (popUntil cost c l).2.1 < 2 ^ 64 := by
  constructor
  · rintro ⟨htold, hpays⟩
    have hsame := hpays.unique (pays_popUntil cost c l) (hsplit.trans (popUntil_append cost c l).symm)
    rw [← hsame, ← htold]
    exact returned.toNat_lt
  · intro hfit
    have htaken := hright hfit
    have hrest : rest = (popUntil cost c l).2.2 := by
      have happend := (popUntil_append cost c l).trans hsplit.symm
      rw [htaken] at happend
      exact (append_cancel_left happend).symm
    constructor
    · rw [hreturned, htaken, toNat_total hfit]
    · rw [htaken, hrest]
      exact pays_popUntil cost c l

theorem popUntil_append_eq (cost : α → UInt64) (c : UInt64) (l l' : List α) :
    popUntil cost c (l ++ l') =
      ((popUntil cost (popUntil cost c l).1 l').1,
        (popUntil cost c l).2.1 ++ (popUntil cost (popUntil cost c l).1 l').2.1,
        (popUntil cost c l).2.2 ++ (popUntil cost (popUntil cost c l).1 l').2.2) := by
  induction l generalizing c with
  | nil => rfl
  | cons a l ih =>
    rw [cons_append, popUntil, popUntil]
    split_ifs with hpos
    · rw [ih]
      rfl
    · -- all is paid, and nothing is taken from the second
      have hzero : c = 0 := by simpa using hpos
      subst hzero
      rw [popUntil_zero]
      rfl

/-! ### Lists of keys -/

/-- Each key of a list with what a table has for it. -/
def listed {E : Type*} (items : K → Option E) (order : List K) : List (K × E) :=
  order.filterMap fun k => (items k).map (k, ·)

section Listed

variable {E F : Type*} {items : K → Option E} {order order' : List K} {e : E}

@[simp] theorem listed_nil : listed items [] = [] := rfl

@[simp] theorem listed_append :
    listed items (order ++ order') = listed items order ++ listed items order' :=
  filterMap_append

theorem listed_cons (h : items k = some e) :
    listed items (k :: order) = (k, e) :: listed items order := by
  rw [listed, filterMap_cons, h]
  rfl

theorem listed_perm (items : K → Option E) (h : order.Perm order') :
    (listed items order).Perm (listed items order') := h.filterMap _

theorem listed_map (f : E → F) (order : List K) :
    (listed items order).map (fun e => (e.1, f e.2)) =
      listed (fun k => (items k).map f) order := by
  rw [listed, listed, map_filterMap]
  refine filterMap_congr fun k _ => ?_
  rw [Option.map_map, Option.map_map]
  rfl

theorem listed_update [DecidableEq K] (hk : k ∉ order) (o : Option E) :
    listed (Function.update items k o) order = listed items order := by
  refine filterMap_congr fun j hj => ?_
  have hne : j ≠ k := fun heq => hk (heq ▸ hj)
  rw [Function.update_of_ne hne]

theorem map_fst_listed (h : ∀ k ∈ order, (items k).isSome = true) :
    (listed items order).map Prod.fst = order := by
  induction order with
  | nil => rfl
  | cons k order ih =>
    obtain ⟨e, he⟩ := Option.isSome_iff_exists.mp (h k mem_cons_self)
    rw [listed_cons he, map_cons, ih fun j hj => h j (mem_cons_of_mem k hj)]

end Listed

/-! ### Keys with costs -/

section Keys

variable [DecidableEq K] {q taken rest : List (K × UInt64)} {k : K} {victims : List K}
  {returned : UInt64}

/-- What a key of the queue costs. -/
def costOf (q : List (K × UInt64)) (k : K) : Option UInt64 := q.lookup k

theorem costOf_eq_none : costOf q k = none ↔ k ∉ q.map Prod.fst := by
  rw [costOf, lookup_eq_none_iff, mem_map]
  constructor
  · rintro h ⟨e, he, rfl⟩
    simpa using h e he
  · intro h e he
    have hne : k ≠ e.1 := fun heq => h ⟨e, he, heq.symm⟩
    simpa using hne

theorem costOf_isSome : (costOf q k).isSome = true ↔ k ∈ q.map Prod.fst := by
  rw [Option.isSome_iff_ne_none, ne_eq, costOf_eq_none, not_not]

theorem costOf_of_mem (h : (q.map Prod.fst).Nodup) {e : K × UInt64} (he : e ∈ q) :
    costOf q e.1 = some e.2 := by
  induction q with
  | nil => cases he
  | cons d q ih =>
    obtain ⟨hnew, hnodup⟩ := nodup_cons.mp h
    rcases mem_cons.mp he with rfl | he
    · exact lookup_cons_self
    · have hne : e.1 ≠ d.1 := fun heq => hnew (heq ▸ mem_map_of_mem he)
      rw [costOf, lookup_cons, beq_false_of_ne hne]
      exact ih hnodup he

theorem costOf_perm {q' : List (K × UInt64)} (h : (q.map Prod.fst).Nodup) (hperm : q'.Perm q)
    (k : K) : costOf q' k = costOf q k := by
  have h' := (hperm.map Prod.fst).nodup_iff.mpr h
  cases hk : costOf q k with
  | none =>
    rw [costOf_eq_none] at hk ⊢
    rwa [(hperm.map Prod.fst).mem_iff]
  | some c =>
    have hmem : k ∈ q.map Prod.fst := by
      by_contra hout
      rw [costOf_eq_none.mpr hout] at hk
      cases hk
    obtain ⟨e, he, rfl⟩ := mem_map.mp hmem
    rw [costOf_of_mem h he] at hk
    rw [costOf_of_mem h' (hperm.mem_iff.mpr he), hk]

theorem costOf_append (q q' : List (K × UInt64)) (k : K) :
    costOf (q ++ q') k = (costOf q k).or (costOf q' k) := lookup_append

@[simp] theorem costOf_nil (k : K) : costOf [] k = none := rfl

theorem costOf_cons (e : K × UInt64) (q : List (K × UInt64)) (k : K) :
    costOf (e :: q) k = if k = e.1 then some e.2 else costOf q k := by
  rw [costOf, lookup_cons]
  split_ifs with heq
  · rw [heq, beq_self_eq_true]
  · rw [beq_false_of_ne heq]
    rfl

/-- A queue without a key. -/
def dropKey (key : K) (q : List (K × UInt64)) : List (K × UInt64) := q.filter (·.1 ≠ key)

theorem costOf_dropKey (key : K) (q : List (K × UInt64)) (k : K) :
    costOf (dropKey key q) k = if k = key then none else costOf q k := by
  induction q with
  | nil => simp [dropKey]
  | cons e q ih =>
    by_cases he : e.1 = key
    · have hdrop : dropKey key (e :: q) = dropKey key q := by simp [dropKey, he]
      rw [hdrop, ih, costOf_cons, he]
      split_ifs <;> rfl
    · have hdrop : dropKey key (e :: q) = e :: dropKey key q := by simp [dropKey, he]
      rw [hdrop, costOf_cons, costOf_cons, ih]
      split_ifs with h₁ h₂
      · exact absurd (h₁.symm.trans h₂) he
      all_goals rfl

theorem dropKey_of_notMem {key : K} (h : key ∉ q.map Prod.fst) : dropKey key q = q := by
  apply filter_eq_self.mpr
  intro e he
  have hne : e.1 ≠ key := fun heq => h (heq ▸ mem_map_of_mem he)
  simpa using hne

theorem dropKey_append (key : K) (q q' : List (K × UInt64)) :
    dropKey key (q ++ q') = dropKey key q ++ dropKey key q' := filter_append ..

theorem costOf_push (key : K) (c : UInt64) (q : List (K × UInt64)) (k : K) :
    costOf (dropKey key q ++ [(key, c)]) k = if k = key then some c else costOf q k := by
  rw [costOf_append, costOf_dropKey, costOf_cons, costOf_nil]
  split_ifs <;> simp

theorem map_fst_dropKey (key : K) (q : List (K × UInt64)) :
    (dropKey key q).map Prod.fst = (q.map Prod.fst).filter (· ≠ key) := by
  rw [dropKey, filter_map]
  rfl

theorem nodup_dropKey (h : (q.map Prod.fst).Nodup) (key : K) :
    ((dropKey key q).map Prod.fst).Nodup := by
  rw [map_fst_dropKey]
  exact h.filter _

theorem totalNat_dropKey {key : K} {c : UInt64} (h : (q.map Prod.fst).Nodup)
    (hc : costOf q key = some c) :
    c.toNat + totalNat Prod.snd (dropKey key q) = totalNat Prod.snd q := by
  induction q with
  | nil => cases hc
  | cons e q ih =>
    rw [map_cons, nodup_cons] at h
    rw [costOf_cons] at hc
    by_cases he : key = e.1
    · rw [if_pos he] at hc
      obtain rfl := Option.some.inj hc
      subst he
      have hdrop : dropKey e.1 (e :: q) = dropKey e.1 q := by simp [dropKey]
      rw [hdrop, dropKey_of_notMem h.1, totalNat_cons]
    · rw [if_neg he] at hc
      have hdrop : dropKey key (e :: q) = e :: dropKey key q := by simp [dropKey, Ne.symm he]
      rw [hdrop, totalNat_cons, totalNat_cons, ← ih h.2 hc]
      omega

theorem nodup_push (h : (q.map Prod.fst).Nodup) (key : K) (c : UInt64) :
    ((dropKey key q ++ [(key, c)]).map Prod.fst).Nodup := by
  rw [map_append, map_fst_dropKey]
  apply (h.filter _).append (nodup_singleton key)
  simp

theorem costOf_of_perm {order : List K} {costs : K → Option UInt64} (hnodup : order.Nodup)
    (hmem : ∀ k, k ∈ order ↔ (costs k).isSome = true) (hq : q.Perm (listed costs order)) :
    (q.map Prod.fst).Perm order ∧ ∀ k, costs k = costOf q k := by
  have hperm := hq.map Prod.fst
  rw [map_fst_listed fun k hk => (hmem k).mp hk] at hperm
  have hnd := hperm.nodup_iff.mpr hnodup
  refine ⟨hperm, fun k => ?_⟩
  cases hk : costs k with
  | none =>
    have hout : k ∉ q.map Prod.fst := by
      rw [hperm.mem_iff, hmem, hk]
      simp
    exact (costOf_eq_none.mpr hout).symm
  | some c =>
    have hin : (k, c) ∈ q := by
      rw [hq.mem_iff, listed, mem_filterMap]
      exact ⟨k, (hmem k).mpr (by rw [hk]; rfl), by rw [hk]; rfl⟩
    exact (costOf_of_mem hnd hin).symm

theorem sum_costOf (h : (q.map Prod.fst).Nodup) (hsub : ∀ e ∈ taken, e ∈ q) :
    ((taken.map Prod.fst).map fun k => ((costOf q k).getD 0).toNat).sum =
      totalNat Prod.snd taken := by
  induction taken with
  | nil => rfl
  | cons e taken ih =>
    have he := costOf_of_mem h (hsub e mem_cons_self)
    have hrest := ih fun d hd => hsub d (mem_cons_of_mem e hd)
    rw [map_cons, map_cons, sum_cons, he, hrest, totalNat_cons]
    rfl

/-- What a caller asks of an eviction: `before` and `after` tell what a key that is tracked
costs. -/
structure Evicts (before after : K → Option UInt64) (victims : List K)
    (returned costToFree : UInt64) : Prop where
  nodup : victims.Nodup
  tracked : ∀ k ∈ victims, (before k).isSome
  untracked : ∀ k ∈ victims, after k = none
  frame : ∀ k, k ∉ victims → after k = before k
  /-- the cost returned is that of the victims -/
  returned : returned.toNat = (victims.map fun k => ((before k).getD 0).toNat).sum
  enough : costToFree.toNat ≤ (victims.map fun k => ((before k).getD 0).toNat).sum ∨
    ∀ k, after k = none
  /-- it was not enough without the last victim -/
  shortest : victims ≠ [] →
    (victims.dropLast.map fun k => ((before k).getD 0).toNat).sum < costToFree.toNat

theorem costOf_rest (h : (q.map Prod.fst).Nodup) (hsplit : taken ++ rest = q) (k : K) :
    costOf rest k = if k ∈ taken.map Prod.fst then none else costOf q k := by
  rw [← hsplit, map_append] at h
  split_ifs with hk
  · exact costOf_eq_none.mpr fun hrest => (nodup_append.mp h).2.2 k hk k hrest rfl
  · rw [← hsplit, costOf, costOf, lookup_append, show List.lookup k taken = none from
      costOf_eq_none.mpr hk, Option.none_or]

/-- A loop that takes keys from the front of a queue keeps its contract exactly when what it has
to take fits a word. -/
theorem evicts_iff {before after : K → Option UInt64} (h : (q.map Prod.fst).Nodup)
    (hbefore : ∀ k, before k = costOf q k) (hafter : ∀ k, after k = costOf rest k)
    (hsplit : taken ++ rest = q) (hvictims : victims = taken.map Prod.fst)
    (hreturned : returned = total Prod.snd taken)
    (hright : totalNat Prod.snd (popUntil Prod.snd c q).2.1 < 2 ^ 64 →
      taken = (popUntil Prod.snd c q).2.1) :
    Evicts before after victims returned c ↔
      totalNat Prod.snd (popUntil Prod.snd c q).2.1 < 2 ^ 64 := by
  have hmem : ∀ e ∈ taken, e ∈ q := fun e he => hsplit ▸ mem_append_left rest he
  have hnodup : (taken.map Prod.fst).Nodup := by
    rw [← hsplit, map_append] at h
    exact h.of_append_left
  obtain rfl : before = costOf q := funext hbefore
  have hsum := sum_costOf h hmem
  have hnone : (∀ k, after k = none) ↔ rest = [] := by
    constructor
    · intro hall
      cases hrest : rest with
      | nil => rfl
      | cons e rest' =>
        have hk := hall e.1
        rw [hafter, costOf_eq_none, hrest] at hk
        exact absurd (mem_map_of_mem mem_cons_self) hk
    · rintro rfl k
      rw [hafter]
      rfl
  rw [← pays_iff hsplit hreturned hright]
  subst hvictims
  constructor
  · intro hev
    refine ⟨hev.returned.trans hsum, ?_, fun init last hlast => ?_⟩
    · have henough := hev.enough
      rwa [hsum, hnone] at henough
    · have hshort := hev.shortest (by rw [hlast]; simp)
      have hsub : ∀ e ∈ init, e ∈ q := fun e he =>
        hmem e (hlast ▸ mem_append_left [last] he)
      rwa [hlast, map_append, map_singleton, dropLast_concat,
        sum_costOf h hsub] at hshort
  · rintro ⟨htold, hpays⟩
    constructor
    · exact hnodup
    · intro k hk
      obtain ⟨e, he, rfl⟩ := mem_map.mp hk
      rw [costOf_of_mem h (hmem e he)]
      rfl
    · intro k hk
      rw [hafter, costOf_rest h hsplit, if_pos hk]
    · intro k hk
      rw [hafter, costOf_rest h hsplit, if_neg hk]
    · exact htold.trans hsum.symm
    · rw [hsum, hnone]
      exact hpays.enough
    · intro hne
      obtain ⟨init, last, hlast⟩ := (eq_nil_or_concat taken).resolve_left (by simpa using hne)
      rw [concat_eq_append] at hlast
      have hsub : ∀ e ∈ init, e ∈ q := fun e he =>
        hmem e (hlast ▸ mem_append_left [last] he)
      rw [hlast, map_append, map_singleton, dropLast_concat, sum_costOf h hsub]
      exact hpays.shortest init last hlast

end Keys

/-! ### Loops in turns -/

section Turns

variable {S : Type*} (tracked : S → List K) (turn : S → Option (K × UInt64) × S)

/-- Takes keys turn by turn while there is something to pay and a key that is tracked, for at most
`fuel` turns. Returns the keys, and the costs added up in a word. -/
def payLoop : ℕ → UInt64 → UInt64 → S → (List K × UInt64) × S
  | 0, _, freed, s => (([], freed), s)
  | fuel + 1, c, freed, s =>
    if 0 < c ∧ tracked s ≠ [] then
      match turn s with
      | (none, s) => payLoop fuel c freed s
      | (some (key, cost), s) =>
        let r := payLoop fuel (satSub c cost) (freed + cost) s
        ((key :: r.1.1, r.1.2), r.2)
    else (([], freed), s)

variable {tracked turn} {Inv : S → Prop} {queue : S → List (K × UInt64)}

/-- When each turn takes the first of a queue, the loop takes from it what pays for the cost, in
any number of turns that is enough. -/
theorem payLoop_eq (hlen : ∀ s, Inv s → (queue s).length = (tracked s).length)
    (hturn : ∀ s e rest, Inv s → queue s = e :: rest →
      ∃ s', Inv s' ∧ queue s' = rest ∧ turn s = (some e, s'))
    {s : S} (h : Inv s) {fuel : ℕ} (hfuel : (tracked s).length ≤ fuel) (c freed : UInt64) :
    ∃ s', Inv s' ∧ queue s' = (popUntil Prod.snd c (queue s)).2.2 ∧
      payLoop tracked turn fuel c freed s =
        (((popUntil Prod.snd c (queue s)).2.1.map Prod.fst,
          freed + total Prod.snd (popUntil Prod.snd c (queue s)).2.1), s') := by
  rw [← hlen s h] at hfuel
  induction fuel generalizing s c freed with
  | zero =>
    have hnil := length_eq_zero_iff.mp (le_zero.mp hfuel)
    rw [hnil]
    exact ⟨s, h, hnil, by simp [payLoop, popUntil]⟩
  | succ fuel ih =>
    have hlen' := hlen s h
    cases hqueue : queue s with
    | nil =>
      rw [hqueue, length_nil] at hlen'
      have hempty := length_eq_zero_iff.mp hlen'.symm
      refine ⟨s, h, by rw [hqueue]; rfl, ?_⟩
      rw [payLoop, if_neg fun hcond => hcond.2 hempty]
      simp [popUntil]
    | cons e rest =>
      by_cases hpos : 0 < c
      · have hne : tracked s ≠ [] := by
          intro hnil
          rw [hqueue, hnil] at hlen'
          cases hlen'
        obtain ⟨s₁, h₁, hqueue₁, hone⟩ := hturn s e rest h hqueue
        rw [hqueue, length_cons] at hfuel
        obtain ⟨s', h', hqueue', hloop⟩ := ih h₁ (by rw [hqueue₁]; omega)
          (satSub c e.2) (freed + e.2)
        rw [hqueue₁] at hqueue' hloop
        rw [payLoop, if_pos ⟨hpos, hne⟩, hone, popUntil, if_pos hpos]
        refine ⟨s', h', hqueue', ?_⟩
        simp only [hloop, map_cons, total_cons, UInt64.add_assoc]
      · refine ⟨s, h, ?_, ?_⟩
        · rw [hqueue, popUntil, if_neg hpos]
        · rw [payLoop, if_neg fun hcond => hpos hcond.1, popUntil, if_neg hpos]
          simp

theorem payLoop_nil (turn : S → Option (K × UInt64) × S) (fuel : ℕ) (c freed : UInt64) {s : S}
    (h : tracked s = []) : payLoop tracked turn fuel c freed s = (([], freed), s) := by
  cases fuel with
  | zero => rfl
  | succ fuel => rw [payLoop, if_neg fun hcond => hcond.2 h]

theorem payLoop_steady {turn' : S → Option (K × UInt64) × S} {n : ℕ}
    (hlen : ∀ s, Inv s → (queue s).length = (tracked s).length)
    (hturn : ∀ s e rest, Inv s → (tracked s).length ≤ n → queue s = e :: rest →
      ∃ s', Inv s' ∧ queue s' = rest ∧ turn s = (some e, s'))
    (hsame : ∀ s, Inv s → (tracked s).length ≤ n → turn' s = turn s)
    {s : S} (h : Inv s) (hn : (tracked s).length ≤ n) {fuel fuel' : ℕ}
    (hfuel : (tracked s).length ≤ fuel) (hfuel' : (tracked s).length ≤ fuel') (c freed : UInt64) :
    payLoop tracked turn' fuel' c freed s = payLoop tracked turn fuel c freed s := by
  induction fuel generalizing s c freed fuel' with
  | zero =>
    have hnil := length_eq_zero_iff.mp (le_zero.mp hfuel)
    rw [payLoop_nil turn' fuel' c freed hnil, payLoop_nil turn 0 c freed hnil]
  | succ fuel ih =>
    cases fuel' with
    | zero =>
      have hnil := length_eq_zero_iff.mp (le_zero.mp hfuel')
      rw [payLoop_nil turn' 0 c freed hnil, payLoop_nil turn (fuel + 1) c freed hnil]
    | succ fuel' =>
      by_cases hcond : 0 < c ∧ tracked s ≠ []
      · have hlen' := hlen s h
        have hpos := length_pos_of_ne_nil hcond.2
        cases hqueue : queue s with
        | nil =>
          rw [hqueue, length_nil] at hlen'
          omega
        | cons e rest =>
          obtain ⟨s₁, h₁, hqueue₁, hone⟩ := hturn s e rest h hn hqueue
          have hlen₁ := hlen s₁ h₁
          rw [hqueue₁] at hlen₁
          rw [hqueue, length_cons] at hlen'
          have hrest := ih h₁ (by omega) (by omega) (by omega : _ ≤ fuel') (satSub c e.2)
            (freed + e.2)
          rw [payLoop, payLoop, if_pos hcond, if_pos hcond, hsame s h hn, hone]
          simp only [hrest]
      · rw [payLoop, payLoop, if_neg hcond, if_neg hcond]

end Turns

end CostQueue
