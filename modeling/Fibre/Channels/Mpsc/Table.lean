import Fibre.Channels.Mpsc.Core

/-!
# The chunk table

What the slots hold is told by the tickets. Some of the tickets are held: they are claimed, and no
slot is filled for them yet. A ticket that is neither held nor drained has its chunk in place and its
value in its slot; the slots of all others that have their chunk in place are empty.
-/

namespace Fibre.Channels.Mpsc

open Function Nat

variable {T : Type*}

/-- What is written for a ticket. -/
def slotOf (v : Option T) : Slot T := v.elim .skip .set

theorem slotOf_ne_empty (v : Option T) : slotOf v ≠ .empty := by
  cases v <;> simp [slotOf]

@[simp] theorem item_slotOf (v : Option T) : (slotOf v).item = v := by
  cases v <;> rfl

namespace Shape

variable (shape : Shape)

theorem chunk_mul_add_idx (t : ℕ) : shape.chunk t * shape.chunkCap + shape.idx t = t :=
  div_add_mod' t shape.chunkCap

theorem idx_lt (t : ℕ) : shape.idx t < shape.chunkCap := Nat.mod_lt t shape.chunkCap_pos

theorem chunk_eq {cid i : ℕ} (hi : i < shape.chunkCap) :
    shape.chunk (cid * shape.chunkCap + i) = cid := by
  unfold chunk
  rw [add_comm, add_mul_div_right _ _ shape.chunkCap_pos, div_eq_of_lt hi,
    zero_add]

theorem idx_eq {cid i : ℕ} (hi : i < shape.chunkCap) :
    shape.idx (cid * shape.chunkCap + i) = i := by
  unfold idx
  rw [add_comm, add_mul_mod_self_right, mod_eq_of_lt hi]

theorem eq_of_chunk_idx {t u : ℕ} (hchunk : shape.chunk t = shape.chunk u)
    (hidx : shape.idx t = shape.idx u) : t = u := by
  rw [← shape.chunk_mul_add_idx t, ← shape.chunk_mul_add_idx u, hchunk, hidx]

theorem lt_of_chunk_lt {t cid : ℕ} (h : shape.chunk t < cid) : t < cid * shape.chunkCap :=
  (div_lt_iff_lt_mul shape.chunkCap_pos).mp h

end Shape

namespace Shared

variable {shape : Shape} {s : Shared T}

def slot (shape : Shape) (s : Shared T) (t : ℕ) : Slot T :=
  s.slots (shape.place (shape.chunk t)) (shape.idx t)

def Resident (shape : Shape) (s : Shared T) (t : ℕ) : Prop :=
  s.id (shape.place (shape.chunk t)) = shape.chunk t

/-- The table, for the tickets that are held and the values of the others. -/
structure Table (shape : Shape) (s : Shared T) (held : Set ℕ) (value : ℕ → Option T) : Prop where
  retired : s.consumerRetired = s.head.cid
  idx_le : s.head.idx ≤ shape.chunkCap
  pos_eq : s.head.pos = s.head.cid * shape.chunkCap + s.head.idx
  pos_le : s.head.pos ≤ s.gTail
  held_ge : ∀ t ∈ held, s.head.pos ≤ t
  held_lt : ∀ t ∈ held, t < s.gTail
  value_lt : ∀ t v, value t = some v → t < s.gTail
  /-- a chunk is at its own place -/
  place_id : ∀ i < shape.n, shape.place (s.id i) = i
  filled : ∀ t, s.head.pos ≤ t → t < s.gTail → t ∉ held →
    s.Resident shape t ∧ s.slot shape t = slotOf (value t)
  cleared : ∀ t, t < s.head.pos ∨ s.gTail ≤ t ∨ t ∈ held → s.Resident shape t →
    s.slot shape t = .empty

/-- The two differ in the counters the parties are told at most. -/
structure SameTable (s t : Shared T) : Prop where
  gTail : t.gTail = s.gTail
  retired : t.consumerRetired = s.consumerRetired
  id : t.id = s.id
  slots : t.slots = s.slots
  cid : t.head.cid = s.head.cid
  idx : t.head.idx = s.head.idx
  pos : t.head.pos = s.head.pos

theorem front_setSlot_ne_empty {place idx : ℕ} {v : Option T} (h : s.front shape ≠ .empty) :
    (s.setSlot place idx (slotOf v)).front shape ≠ .empty := by
  unfold front setSlot
  dsimp only
  by_cases hplace : shape.place s.head.cid = place
  · rw [hplace, update_self]
    by_cases hidx : s.head.idx = idx
    · rw [hidx, update_self]
      exact slotOf_ne_empty v
    · rw [update_of_ne hidx, ← hplace]
      exact h
  · rw [update_of_ne hplace]
    exact h

namespace Table

variable {held : Set ℕ} {value value' : ℕ → Option T}

theorem new (publishChunk : ℕ) : (new shape publishChunk : Shared T).Table shape ∅ fun _ => none where
  retired := rfl
  idx_le := zero_le _
  pos_eq := by simp [Shared.new]
  pos_le := le_rfl
  held_ge := by simp
  held_lt := by simp
  value_lt := by simp
  place_id i hi := mod_eq_of_lt hi
  filled t _ ht _ := absurd ht (not_lt_zero t)
  cleared _ _ _ := rfl

/-- The tail moves on, and the new tickets are held. -/
theorem claim (h : s.Table shape held value) (k : ℕ) :
    Table shape { s with gTail := s.gTail + k } (held ∪ Set.Ico s.gTail (s.gTail + k)) value where
  retired := h.retired
  idx_le := h.idx_le
  pos_eq := h.pos_eq
  pos_le := h.pos_le.trans (le_add_right _ _)
  held_ge t ht := ht.elim (h.held_ge t) fun hnew => h.pos_le.trans hnew.1
  held_lt t ht := ht.elim (fun hold => (h.held_lt t hold).trans_le (le_add_right _ _))
    fun hnew => hnew.2
  value_lt t v hv := (h.value_lt t v hv).trans_le (le_add_right _ _)
  place_id := h.place_id
  filled t hpos hlt hheld := by
    rw [Set.mem_union, not_or] at hheld
    have hold : t < s.gTail := by
      by_contra hge
      exact hheld.2 ⟨not_lt.mp hge, hlt⟩
    exact h.filled t hpos hold hheld.1
  cleared t ht hres := by
    refine h.cleared t ?_ hres
    rcases ht with hpos | hge | hheld | hnew
    · exact Or.inl hpos
    · exact Or.inr (Or.inl ((le_add_right _ _).trans hge))
    · exact Or.inr (Or.inr hheld)
    · exact Or.inr (Or.inl hnew.1)

theorem credit (h : s.Table shape held value) (hsame : ∀ t, t ∉ held → value' t = value t) :
    s.Table shape held value' where
  retired := h.retired
  idx_le := h.idx_le
  pos_eq := h.pos_eq
  pos_le := h.pos_le
  held_ge := h.held_ge
  held_lt := h.held_lt
  value_lt t v hv := by
    by_cases ht : t ∈ held
    · exact h.held_lt t ht
    · rw [hsame t ht] at hv
      exact h.value_lt t v hv
  place_id := h.place_id
  filled t hpos hlt hheld := by
    rw [hsame t hheld]
    exact h.filled t hpos hlt hheld
  cleared := h.cleared

theorem lt_pos_of_retired (h : s.Table shape held value) {t : ℕ}
    (ht : shape.chunk t < s.consumerRetired) : t < s.head.pos := by
  rw [h.retired] at ht
  have hlt := shape.lt_of_chunk_lt ht
  rw [h.pos_eq]
  omega

theorem retired_le_chunk (h : s.Table shape held value) {t : ℕ} (ht : s.head.pos ≤ t) :
    s.consumerRetired ≤ shape.chunk t := by
  by_contra hlt
  exact absurd (h.lt_pos_of_retired (not_le.mp hlt)) (not_lt.mpr ht)

theorem install (h : s.Table shape held value) {u cur : ℕ} (hcur : cur < s.consumerRetired)
    (hid : s.id (shape.place (shape.chunk u)) = cur) :
    Table shape { s with
      id := update s.id (shape.place (shape.chunk u)) (shape.chunk u) } held value where
  retired := h.retired
  idx_le := h.idx_le
  pos_eq := h.pos_eq
  pos_le := h.pos_le
  held_ge := h.held_ge
  held_lt := h.held_lt
  value_lt := h.value_lt
  place_id i hi := by
    by_cases hiu : i = shape.place (shape.chunk u)
    · dsimp only
      rw [hiu, update_self]
    · dsimp only
      rw [update_of_ne hiu]
      exact h.place_id i hi
  filled t hpos hlt hheld := by
    obtain ⟨hres, hslot⟩ := h.filled t hpos hlt hheld
    have hne : shape.place (shape.chunk t) ≠ shape.place (shape.chunk u) := by
      intro heq
      -- the ticket's chunk would be the retired one
      have hchunk : shape.chunk t = cur := by rw [← hres, heq, hid]
      exact absurd (h.lt_pos_of_retired (hchunk ▸ hcur)) (not_lt.mpr hpos)
    refine ⟨?_, hslot⟩
    show update s.id _ _ _ = _
    rw [update_of_ne hne]
    exact hres
  cleared t ht hres := by
    by_cases heq : shape.place (shape.chunk t) = shape.place (shape.chunk u)
    · -- the slot was one of the retired chunk's
      set v := cur * shape.chunkCap + shape.idx t
      have hchunk : shape.chunk v = cur := shape.chunk_eq (shape.idx_lt t)
      have hidx : shape.idx v = shape.idx t := shape.idx_eq (shape.idx_lt t)
      have hplace : shape.place cur = shape.place (shape.chunk u) := by
        rw [← hid]
        exact h.place_id _ (Nat.mod_lt _ shape.n_pos)
      have hempty := h.cleared v (Or.inl (h.lt_pos_of_retired (hchunk ▸ hcur)))
        (by rw [Resident, hchunk, hplace, hid])
      rw [slot, hchunk, hidx, hplace, ← heq] at hempty
      exact hempty
    · refine h.cleared t ht ?_
      have hres' : update s.id _ _ _ = _ := hres
      rwa [update_of_ne heq] at hres'

theorem slot_setSlot_of_ne {t u : ℕ} {x : Slot T} (ht : s.Resident shape t)
    (hu : s.Resident shape u) (hne : t ≠ u) :
    (s.setSlot (shape.place (shape.chunk u)) (shape.idx u) x).slot shape t = s.slot shape t := by
  unfold setSlot slot
  dsimp only
  by_cases hplace : shape.place (shape.chunk t) = shape.place (shape.chunk u)
  · have hchunk : shape.chunk t = shape.chunk u := by
      rw [← ht, ← hu, hplace]
    have hidx : shape.idx t ≠ shape.idx u := fun hidx => hne (shape.eq_of_chunk_idx hchunk hidx)
    rw [hplace, update_self, update_of_ne hidx]
  · rw [update_of_ne hplace]

theorem slot_setSlot_self (t : ℕ) (x : Slot T) :
    (s.setSlot (shape.place (shape.chunk t)) (shape.idx t) x).slot shape t = x := by
  simp [setSlot, slot]

theorem fill (h : s.Table shape held value) {u : ℕ} (hu : u ∈ held) (hres : s.Resident shape u) :
    Table shape (s.setSlot (shape.place (shape.chunk u)) (shape.idx u) (slotOf (value u)))
      (held \ {u}) value where
  retired := h.retired
  idx_le := h.idx_le
  pos_eq := h.pos_eq
  pos_le := h.pos_le
  held_ge t ht := h.held_ge t ht.1
  held_lt t ht := h.held_lt t ht.1
  value_lt := h.value_lt
  place_id := h.place_id
  filled t hpos hlt hheld := by
    by_cases htu : t = u
    · subst htu
      exact ⟨hres, slot_setSlot_self t _⟩
    · obtain ⟨hrest, hslot⟩ := h.filled t hpos hlt fun hmem => hheld ⟨hmem, htu⟩
      refine ⟨hrest, ?_⟩
      rw [slot_setSlot_of_ne hrest hres htu, hslot]
  cleared t ht hrest := by
    have htu : t ≠ u := by
      rintro rfl
      rcases ht with hpos | hge | hheld
      · exact absurd (h.held_ge t hu) (not_le.mpr hpos)
      · exact absurd (h.held_lt t hu) (not_lt.mpr hge)
      · exact hheld.2 rfl
    have hrest' : s.Resident shape t := hrest
    rw [slot_setSlot_of_ne hrest' hres htu]
    exact h.cleared t (ht.imp_right (Or.imp_right fun hheld => hheld.1)) hrest'

/-! ### The consumer -/

theorem front_eq (h : s.Table shape held value) (hidx : s.head.idx < shape.chunkCap) :
    shape.chunk s.head.pos = s.head.cid ∧ shape.idx s.head.pos = s.head.idx ∧
      s.front shape = s.slot shape s.head.pos := by
  have hchunk : shape.chunk s.head.pos = s.head.cid := by
    rw [h.pos_eq]
    exact shape.chunk_eq hidx
  have hidx' : shape.idx s.head.pos = s.head.idx := by
    rw [h.pos_eq]
    exact shape.idx_eq hidx
  refine ⟨hchunk, hidx', ?_⟩
  rw [front, slot, hchunk, hidx']

theorem front_filled (h : s.Table shape held value) (hidx : s.head.idx < shape.chunkCap)
    (hres : s.id (shape.place s.head.cid) = s.head.cid) (hne : s.front shape ≠ .empty) :
    s.head.pos < s.gTail ∧ s.head.pos ∉ held ∧ s.front shape = slotOf (value s.head.pos) := by
  obtain ⟨hchunk, -, hfront⟩ := h.front_eq hidx
  have hresident : s.Resident shape s.head.pos := by rwa [Resident, hchunk]
  rw [hfront] at hne ⊢
  have hlt : s.head.pos < s.gTail := by
    by_contra hge
    exact hne (h.cleared _ (Or.inr (Or.inl (not_lt.mp hge))) hresident)
  have hheld : s.head.pos ∉ held := fun hmem =>
    hne (h.cleared _ (Or.inr (Or.inr hmem)) hresident)
  exact ⟨hlt, hheld, (h.filled _ le_rfl hlt hheld).2⟩

theorem take (h : s.Table shape held value) (hidx : s.head.idx < shape.chunkCap)
    (hres : s.id (shape.place s.head.cid) = s.head.cid) (hne : s.front shape ≠ .empty) :
    (s.take shape).Table shape held value := by
  obtain ⟨hchunk, hidx', -⟩ := h.front_eq hidx
  obtain ⟨hlt, hheld, -⟩ := h.front_filled hidx hres hne
  have hresident : s.Resident shape s.head.pos := by rwa [Resident, hchunk]
  have hslot : ∀ t, (s.take shape).slot shape t =
      (s.setSlot (shape.place (shape.chunk s.head.pos)) (shape.idx s.head.pos) .empty).slot
        shape t := by
    intro t
    rw [hchunk, hidx']
    rfl
  exact {
    retired := h.retired
    idx_le := hidx
    pos_eq := by
      show s.head.pos + 1 = s.head.cid * shape.chunkCap + (s.head.idx + 1)
      rw [h.pos_eq, add_assoc]
    pos_le := hlt
    held_ge := by
      intro t ht
      have hge := h.held_ge t ht
      have hne : t ≠ s.head.pos := by
        rintro rfl
        exact hheld ht
      show s.head.pos + 1 ≤ t
      omega
    held_lt := h.held_lt
    value_lt := h.value_lt
    place_id := h.place_id
    filled := by
      intro t hpos ht hmem
      have hpos' : s.head.pos + 1 ≤ t := hpos
      obtain ⟨hrest, hfill⟩ := h.filled t (by omega) ht hmem
      refine ⟨hrest, ?_⟩
      rw [hslot, slot_setSlot_of_ne hrest hresident (by omega), hfill]
    cleared := by
      intro t ht hrest
      rw [hslot]
      by_cases htpos : t = s.head.pos
      · rw [htpos, slot_setSlot_self]
      · have hrest' : s.Resident shape t := hrest
        rw [slot_setSlot_of_ne hrest' hresident htpos]
        refine h.cleared t (ht.imp_left fun hpos => ?_) hrest'
        have hpos' : t < s.head.pos + 1 := hpos
        omega }

theorem retire (h : s.Table shape held value) (hidx : s.head.idx = shape.chunkCap) :
    Table shape { s with
      consumerRetired := s.head.cid + 1
      head := { s.head with cid := s.head.cid + 1, idx := 0 } } held value where
  retired := rfl
  idx_le := zero_le _
  pos_eq := by
    show s.head.pos = (s.head.cid + 1) * shape.chunkCap + 0
    rw [h.pos_eq, hidx, succ_mul, add_zero]
  pos_le := h.pos_le
  held_ge := h.held_ge
  held_lt := h.held_lt
  value_lt := h.value_lt
  place_id := h.place_id
  filled := h.filled
  cleared := h.cleared

theorem congr (h : s.Table shape held value) {t : Shared T} (ht : SameTable s t) :
    t.Table shape held value := by
  obtain ⟨hg, hretired, hid, hslots, hcid, hidx, hpos⟩ := ht
  exact {
    retired := by rw [hretired, hcid, h.retired]
    idx_le := hidx ▸ h.idx_le
    pos_eq := by rw [hpos, hcid, hidx, h.pos_eq]
    pos_le := by rw [hpos, hg]; exact h.pos_le
    held_ge := by rw [hpos]; exact h.held_ge
    held_lt := by rw [hg]; exact h.held_lt
    value_lt := by rw [hg]; exact h.value_lt
    place_id := by rw [hid]; exact h.place_id
    filled := by
      simp only [Resident, slot, hid, hslots, hpos, hg]
      exact h.filled
    cleared := by
      simp only [Resident, slot, hid, hslots, hpos, hg]
      exact h.cleared }

end Table

end Shared

end Fibre.Channels.Mpsc
