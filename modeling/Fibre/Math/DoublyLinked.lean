import Mathlib.Data.List.Induction
import Mathlib.Data.List.Nodup

/-!
# Doubly linked lists over two link maps

An intrusive doubly linked list stores, for each node, its neighbours. Here the
two link fields are maps `prev next : ι → Option ι` and `Linked prev next xs` says
that along `xs` they name exactly the neighbours in `xs`. The head and the tail of
the list are then `xs.head?` and `xs.getLast?`.

## Main results

* `Linked.congr` — only the links of the members matter
* `Linked.cons`, `Linked.snoc` — pushing a fresh node on the front, and on the back
* `Linked.splice` — unlinking a node from any position
* `Linked.walk_next`, `Linked.walk_prev` — following the links from either end
-/

namespace DoublyLinked

open List

variable {ι : Type*}

/-- Along `xs`, `prev` and `next` name the neighbours. -/
def Linked (prev next : ι → Option ι) (xs : List ι) : Prop :=
  ∀ l x r, xs = l ++ x :: r → prev x = l.getLast? ∧ next x = r.head?

variable {prev next prev' next' : ι → Option ι} {xs l r : List ι} {x y : ι}

theorem linked_nil : Linked prev next [] := by
  intro l x r h
  simp at h

theorem Linked.congr (h : Linked prev next xs)
    (hp : ∀ x ∈ xs, prev' x = prev x) (hn : ∀ x ∈ xs, next' x = next x) :
    Linked prev' next' xs := by
  intro l x r hx
  have hmem : x ∈ xs := by simp [hx]
  rw [hp x hmem, hn x hmem]
  exact h l x r hx

theorem Linked.prev_eq (h : Linked prev next (l ++ x :: r)) : prev x = l.getLast? :=
  (h l x r rfl).1

theorem Linked.next_eq (h : Linked prev next (l ++ x :: r)) : next x = r.head? :=
  (h l x r rfl).2

/-- The nodes met on following `link` from `x?`, at most `n` of them. -/
def walk (link : ι → Option ι) : ℕ → Option ι → List ι
  | 0, _ => []
  | _ + 1, none => []
  | n + 1, some x => x :: walk link n (link x)

theorem walk_none (link : ι → Option ι) (n : ℕ) : walk link n none = [] := by
  cases n <;> rfl

theorem Linked.walk_next_suffix (h : Linked prev next (l ++ r)) {n : ℕ} (hn : r.length ≤ n) :
    walk next n r.head? = r := by
  induction r generalizing l n with
  | nil => exact walk_none next n
  | cons x r ih =>
    cases n with
    | zero => simp at hn
    | succ n =>
      have h' : Linked prev next (l ++ [x] ++ r) := by simpa using h
      rw [List.head?_cons, walk, h.next_eq, ih h' (by simpa using hn)]

/-- From the head along `next`. -/
theorem Linked.walk_next (h : Linked prev next xs) {n : ℕ} (hn : xs.length ≤ n) :
    walk next n xs.head? = xs :=
  Linked.walk_next_suffix (l := []) h hn

theorem Linked.walk_prev_prefix (h : Linked prev next (l ++ r)) {n : ℕ} (hn : l.length ≤ n) :
    walk prev n l.getLast? = l.reverse := by
  induction l using List.reverseRecOn generalizing r n with
  | nil => exact walk_none prev n
  | append_singleton l x ih =>
    cases n with
    | zero => simp at hn
    | succ n =>
      have h' : Linked prev next (l ++ x :: r) := by simpa using h
      rw [List.getLast?_append_cons, List.getLast?_singleton, walk, h'.prev_eq,
        ih h' (by simpa using hn)]
      simp

/-- From the tail along `prev`. -/
theorem Linked.walk_prev (h : Linked prev next xs) {n : ℕ} (hn : xs.length ≤ n) :
    walk prev n xs.getLast? = xs.reverse := by
  have h' : Linked prev next (xs ++ []) := by simpa using h
  exact h'.walk_prev_prefix hn

/-- Pushing a fresh node: its own links are set, and the old head's `prev`. -/
theorem Linked.cons (h : Linked prev next xs) (hy : y ∉ xs)
    (hpy : prev' y = none) (hny : next' y = xs.head?)
    (hhead : ∀ z, xs.head? = some z → prev' z = some y)
    (hp : ∀ z ∈ xs, xs.head? ≠ some z → prev' z = prev z)
    (hn : ∀ z ∈ xs, next' z = next z) :
    Linked prev' next' (y :: xs) := by
  intro l x r hx
  cases l with
  | nil =>
    obtain ⟨rfl, rfl⟩ : y = x ∧ xs = r := by simpa using hx
    exact ⟨by simpa using hpy, hny⟩
  | cons a l =>
    obtain ⟨rfl, rfl⟩ : y = a ∧ xs = l ++ x :: r := by simpa using hx
    have hmem : x ∈ l ++ x :: r := by simp
    obtain ⟨hprev, hnext⟩ := h l x r rfl
    refine ⟨?_, by rw [hn x hmem, hnext]⟩
    cases l with
    | nil => simpa using hhead x rfl
    | cons b l =>
      -- `x` is not the head: prev' x is unchanged unless `x = b`, which the links exclude
      by_cases hbx : b = x
      · subst hbx
        have h₀ := (h [] b (l ++ b :: r) rfl).1
        rw [hprev] at h₀
        simp at h₀
      · rw [hp x hmem (by simpa using hbx), hprev]
        simp [List.getLast?_cons_cons]

theorem Linked.reverse (h : Linked prev next xs) : Linked next prev xs.reverse := by
  intro l x r hx
  have hxs : xs = r.reverse ++ x :: l.reverse := by
    rw [← xs.reverse_reverse, hx]
    simp
  obtain ⟨hprev, hnext⟩ := h _ _ _ hxs
  exact ⟨by rw [hnext, List.head?_reverse], by rw [hprev, List.getLast?_reverse]⟩

/-- Appending a fresh node: its own links are set, and the old tail's `next`. -/
theorem Linked.snoc (h : Linked prev next xs) (hy : y ∉ xs)
    (hpy : prev' y = xs.getLast?) (hny : next' y = none)
    (hlast : ∀ z, xs.getLast? = some z → next' z = some y)
    (hp : ∀ z ∈ xs, prev' z = prev z)
    (hn : ∀ z ∈ xs, xs.getLast? ≠ some z → next' z = next z) :
    Linked prev' next' (xs ++ [y]) := by
  have hrev : Linked next' prev' (y :: xs.reverse) := by
    refine h.reverse.cons (by simpa using hy) hny (by rw [hpy, List.head?_reverse]) ?_ ?_ ?_
    · simpa [List.head?_reverse] using hlast
    · simpa [List.head?_reverse] using hn
    · simpa using hp
  simpa using hrev.reverse

/-- Unlinking `x`: its neighbours are joined to each other. -/
theorem Linked.splice (h : Linked prev next (l ++ x :: r)) (hnd : (l ++ x :: r).Nodup)
    (hlast : ∀ z, l.getLast? = some z → next' z = r.head?)
    (hhead : ∀ z, r.head? = some z → prev' z = l.getLast?)
    (hp : ∀ z ∈ l ++ r, r.head? ≠ some z → prev' z = prev z)
    (hn : ∀ z ∈ l ++ r, l.getLast? ≠ some z → next' z = next z) :
    Linked prev' next' (l ++ r) := by
  have hdisj : ∀ z ∈ l, z ∉ r := by
    intro z hzl hzr
    have := nodup_append.mp hnd
    exact this.2.2 z hzl z (by simp [hzr]) rfl
  intro l' z r' hz
  have hzmem : z ∈ l ++ r := by simp [hz]
  rcases append_eq_append_iff.mp hz with ⟨m, rfl, hr⟩ | ⟨m, hl, hr⟩
  · -- `z` lies in `r`, after the prefix `m`
    obtain ⟨hprev, hnext⟩ := h (l ++ x :: m) z r' (by simp [hr])
    have hzr : z ∈ r := by simp [hr]
    have hzl : l.getLast? ≠ some z := by
      intro hlz
      exact hdisj z (mem_of_getLast? hlz) hzr
    refine ⟨?_, by rw [hn z hzmem hzl, hnext]⟩
    cases m with
    | nil =>
      have : r.head? = some z := by simp [hr]
      simpa using hhead z this
    | cons a m =>
      have hne : r.head? ≠ some z := by
        rw [hr]
        intro haz
        obtain rfl : a = z := by simpa using haz
        have h₁ : (l ++ x :: r).Nodup := hnd
        rw [hr] at h₁
        have := (nodup_append.mp h₁).2.1
        simp at this
      rw [hp z hzmem hne, hprev]
      simp [List.getLast?_append, List.getLast?_cons]
  · cases m with
    | nil =>
      -- the split point is the border: `z` heads `r`
      simp only [nil_append, append_nil] at hr hl
      subst hl
      obtain ⟨-, hnext⟩ := h (l ++ [x]) z r' (by simp [← hr])
      have hzr : z ∈ r := by simp [← hr]
      have hzl : l.getLast? ≠ some z := by
        intro hlz
        exact hdisj z (mem_of_getLast? hlz) hzr
      exact ⟨hhead z (by simp [← hr]), by rw [hn z hzmem hzl, hnext]⟩
    | cons a m =>
      obtain ⟨rfl, rfl⟩ : z = a ∧ r' = m ++ r := by simpa using hr
      subst hl
      obtain ⟨hprev, hnext⟩ := h l' z (m ++ x :: r) (by simp)
      have hzr : r.head? ≠ some z := by
        intro hrz
        exact hdisj z (by simp) (mem_of_head? hrz)
      refine ⟨by rw [hp z hzmem hzr, hprev], ?_⟩
      cases m with
      | nil => exact hlast z (by simp)
      | cons b m =>
        have hne : (l' ++ z :: b :: m).getLast? ≠ some z := by
          intro hlz
          have h₁ := (nodup_append.mp hnd).1
          have h₂ := (nodup_append.mp h₁).2.1
          have hzm : z ∈ b :: m := by
            have : (b :: m).getLast? = some z := by
              simpa [List.getLast?_append, List.getLast?_cons_cons] using hlz
            exact mem_of_getLast? this
          exact (nodup_cons.mp h₂).1 hzm
        rw [hn z hzmem hne, hnext]
        simp

end DoublyLinked
