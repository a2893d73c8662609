import Fibre.Channels.Vyukov.Slots

/-!
# The order of the Vyukov ring

The pushes claim the enqueue positions one after the other, the pops the dequeue positions, and every
slot that a call touches is the one of the position it has claimed. So the items are popped in the order
in which their positions were claimed, none is skipped and none is popped twice.
-/

namespace Fibre.Channels.Vyukov

open Function Crew Machine List Option

namespace System

variable {α : Type*} {s s' : System α} {phase : ℕ → Phase} {i pos : ℕ} {p p' : Party α} {pc : Pc α}

namespace Inv

theorem low_of_claim (h : Inv s phase) (hp : s.parties[i]? = some p) (hclaims : p.pc.claims = 0)
    (hd : s.dropping = false) : s.ring.enqueuePos + s.ring.dequeuePos + 1 < 2 ^ 63 := by
  -- were this call to claim too, every call would still have claimed one position at most
  have hset := weigh_set (fun p : Party α => p.pc.claims) hp { p with pc := .pushed }
  have hle : weigh (fun p : Party α => p.pc.claims) (s.parties.set i { p with pc := .pushed }) ≤
      weigh (fun _ => 1) (s.parties.set i { p with pc := .pushed }) := by
    apply weigh_mono
    intro q
    cases q.pc <;> simp [Pc.claims]
  have hlength : weigh (fun _ => 1) (s.parties.set i { p with pc := .pushed }) = s.parties.length := by
    simp [weigh]
  have hcount := h.count hd
  have hshort := h.short hd
  have hone : (Pc.pushed : Pc α).claims = 1 := rfl
  simp only [hclaims, hone] at hset
  omega

theorem claimTail (h : Inv s phase) (hp : s.parties[i]? = some p) {item : α}
    (hpc : p.pc = .claimTail item s.ring.enqueuePos)
    (hs : s' = { s with
      ring := { s.ring with enqueuePos := wrappingAdd s.ring.enqueuePos 1 }
      pushes := s.pushes ++ [item]
      parties := s.parties.set i { p with pc := .write item s.ring.enqueuePos } }) :
    Inv s' (update phase (s.ring.enqueuePos % s.lap) (.writing s.ring.enqueuePos i)) := by
  have hd : s.dropping = false := by
    cases hd : s.dropping with
    | false => rfl
    | true =>
      have hdrops := h.alone.eq_of_drops hp (by rw [hpc]; rfl) hd
      have hpops := h.alone.pops p (mem_of_getElem? hp) hdrops
      rw [hpc] at hpops
      cases hpops
  have hnot : ∀ q ∈ s.parties, q.drops = true → False := fun q hq hqd => by
    have htrue := h.alone.dropping q hq hqd
    rw [hd] at htrue
    cases htrue
  have hlow := h.low_of_claim hp (by rw [hpc]; rfl) hd
  have hknows := h.knows i p hp
  rw [hpc] at hknows
  obtain ⟨-, hcap, hseq⟩ := hknows
  have hfree := h.free_of_seq (hseq rfl)
  have hfits := h.fits_at s.ring.enqueuePos
  rw [hfree] at hfits
  obtain ⟨-, hbuf, -, hroom⟩ := hfits
  have hord := h.sized.ordered
  have hlap := h.sized.lap_le
  have hadd : wrappingAdd s.ring.enqueuePos 1 = s.ring.enqueuePos + 1 :=
    wrappingAdd_of_lt (by omega)
  have hparties : s'.parties = s.parties.set i { p with pc := .write item s.ring.enqueuePos } := by
    rw [hs]
  have hring : s'.ring = { s.ring with enqueuePos := s.ring.enqueuePos + 1 } := by
    rw [hs, hadd]
  have henq : s'.ring.enqueuePos = s.ring.enqueuePos + 1 := by rw [hring]
  have hdeq : s'.ring.dequeuePos = s.ring.dequeuePos := by rw [hring]
  have hslots : s'.ring.buf = s.ring.buf := by rw [hring]
  have hlaps : s'.lap = s.lap := by rw [lap, hring]; rfl
  have hcaps : s'.ring.cap = s.ring.cap := by rw [hring]
  have hpushes : s'.pushes = s.pushes ++ [item] := by rw [hs]
  have hlength := h.history.pushes
  have hsame : ∀ q < s.ring.enqueuePos, s'.pushes[q]? = s.pushes[q]? := by
    intro q hq
    rw [hpushes, List.getElem?_append_left (hlength ▸ hq)]
  refine ⟨⟨?_, ?_, ?_, ?_, ?_, ?_⟩, ?_, ?_, ?_, fun _ => ?_, fun _ => ?_, ?_, ?_⟩
  · rw [hlaps]
    exact h.sized.power
  · omega
  · rw [hlaps]
    omega
  · rw [hcaps]
    omega
  · rw [henq]
    omega
  · rw [hcaps]
    exact h.sized.cap
  · refine fits_update ?_ (fun y hy hyx => ?_) hlaps
    · refine ⟨by rw [hlaps], by omega, by omega, .inl ⟨item, at_set_self hp hparties, ?_, ?_⟩⟩
      · rw [hpushes, ← hlength]
        exact List.getElem?_concat_length
      · rw [hslots]
        exact hbuf
    · have hfits := h.fits y hy
      refine hfits.mono hord hlaps (by rw [hslots]) hsame (by omega) hdeq.ge ?_ ?_ ?_ ?_
        (h.at_of_phase hp hparties hy fun ph hph => ?_)
      · intro q hq
        rw [hq] at hfits
        have hne : q ≠ s.ring.enqueuePos := by
          rintro rfl
          exact hyx hfits.1.symm
        have hle := hfits.2.2.1
        omega
      · intro q j hq
        rw [hq] at hfits
        exact hdeq.le.trans hfits.2.1
      · intro q hq
        rw [hq] at hfits
        exact hdeq.le.trans hfits.2.1
      · intro q j hq
        rw [hq] at hfits
        have hne : q + s.lap ≠ s.ring.enqueuePos := by
          intro heq
          apply hyx
          rw [← hfits.1, ← heq, Nat.add_mod_right]
        have hle := hfits.2.2.1
        omega
      · rw [hpc] at hph
        cases hph
  · refine h.busy_update hp (fun j q ph _ hq hph hx => ?_) (fun ph hph => ?_) hlaps hparties
    · -- nobody kept a slot that was free
      have hbusy := h.busy j q ph hq hph
      rw [hx, hfree] at hbusy
      rw [← hbusy] at hph
      cases hqpc : q.pc <;> rw [hqpc] at hph <;> cases hph
    · cases hph
      exact ⟨rfl, rfl⟩
  · rw [hparties]
    refine forall_set (P := fun _ q => s'.Knows q.pc) hp (fun j q _ hq => ?_) trivial
    refine (h.knows j q hq).mono h hlaps hcaps (by omega) hdeq.ge (fun heq => ?_)
      fun _ _ => by rw [hslots]
    omega
  · have hset := weigh_set (fun p : Party α => p.pc.claims) hp
      { p with pc := .write item s.ring.enqueuePos }
    have hcount := h.count hd
    have hzero : p.pc.claims = 0 := by rw [hpc]; rfl
    have hone : (Pc.write item s.ring.enqueuePos : Pc α).claims = 1 := rfl
    simp only [hzero, hone] at hset
    rw [hparties, henq, hdeq]
    omega
  · rw [hparties, length_set]
    exact h.short hd
  · refine h.alone.set hp (by rfl) (by rw [hpc]; rfl) (fun hdrops => ?_) hparties (by rw [hs])
      fun q hq hqd _ => ?_
    · exact (hnot p (mem_of_getElem? hp) hdrops).elim
    · rw [hparties] at hq
      rcases mem_or_eq_of_mem_set hq with hold | rfl
      · exact (hnot q hold hqd).elim
      · exact (hnot p (mem_of_getElem? hp) hqd).elim
  · refine h.history.set hp (.inl ?_) (.inr ⟨_, rfl⟩) (fun _ hfalse => by cases hfalse) hparties
      (by rw [hs]) (by rw [hs]) hdeq ?_ fun q hq => hsame q (hq.trans_le hord)
    · rw [hpc]
      rfl
    · rw [hpushes, length_append, hlength, henq]
      rfl

theorem claimHead (h : Inv s phase) (hp : s.parties[i]? = some p)
    (hpc : p.pc = .claimHead s.ring.dequeuePos)
    (hs : s' = { s with
      ring := { s.ring with dequeuePos := wrappingAdd s.ring.dequeuePos 1 }
      claims := s.claims ++ [s.ring.dequeuePos]
      parties := s.parties.set i { p with pc := .read s.ring.dequeuePos } }) :
    Inv s' (update phase (s.ring.dequeuePos % s.lap) (.reading s.ring.dequeuePos i)) := by
  have hknows := h.knows i p hp
  rw [hpc] at hknows
  have hfull := h.full_of_seq (hknows.2 rfl)
  have hfits := h.fits_at s.ring.dequeuePos
  rw [hfull] at hfits
  obtain ⟨-, -, hlt, hbuf⟩ := hfits
  have hroom := h.sized.room
  have hcap := h.sized.capacity
  have hlow := h.sized.low
  have hord := h.sized.ordered
  have hadd : wrappingAdd s.ring.dequeuePos 1 = s.ring.dequeuePos + 1 :=
    wrappingAdd_of_lt (by omega)
  have hparties : s'.parties = s.parties.set i { p with pc := .read s.ring.dequeuePos } := by
    rw [hs]
  have hring : s'.ring = { s.ring with dequeuePos := s.ring.dequeuePos + 1 } := by
    rw [hs, hadd]
  have henq : s'.ring.enqueuePos = s.ring.enqueuePos := by rw [hring]
  have hdeq : s'.ring.dequeuePos = s.ring.dequeuePos + 1 := by rw [hring]
  have hslots : s'.ring.buf = s.ring.buf := by rw [hring]
  have hlaps : s'.lap = s.lap := by rw [lap, hring]; rfl
  have hcaps : s'.ring.cap = s.ring.cap := by rw [hring]
  have hpushes : s'.pushes = s.pushes := by rw [hs]
  have htakes : s'.takes = s.takes := by rw [hs]
  have hdropping : s'.dropping = s.dropping := by rw [hs]
  have hread : ∀ j q, s'.At j (.read q) ↔ j = i ∧ q = s.ring.dequeuePos ∨ s.At j (.read q) := by
    intro j q
    constructor
    · intro hj
      rcases hj.of_set hp hparties with ⟨hji, hq⟩ | ⟨-, hj⟩
      · exact .inl ⟨hji, (Pc.read.inj hq).symm⟩
      · exact .inr hj
    · rintro (⟨rfl, rfl⟩ | hj)
      · exact at_set_self hp hparties
      · apply hj.set_of_ne _ hparties
        rintro rfl
        have hboth := hj.eq hp
        rw [hpc] at hboth
        cases hboth
  refine ⟨⟨?_, ?_, ?_, ?_, ?_, ?_⟩, ?_, ?_, ?_, fun hd => ?_, fun hd => ?_, ?_, ?_⟩
  · rw [hlaps]
    exact h.sized.power
  · omega
  · rw [hlaps]
    omega
  · rw [hcaps]
    omega
  · rw [henq]
    exact hlow
  · rw [hcaps]
    exact h.sized.cap
  · refine fits_update ?_ (fun y hy hyx => ?_) hlaps
    · refine ⟨by rw [hlaps], by omega, by rw [hlaps]; omega, .inl ⟨at_set_self hp hparties, ?_⟩⟩
      rw [hslots, hpushes]
      exact hbuf
    · have hfits := h.fits y hy
      have hne : ∀ q, q % s.lap = y → q ≠ s.ring.dequeuePos := by
        rintro q hq rfl
        exact hyx hq.symm
      refine hfits.mono hord hlaps (by rw [hslots]) (fun _ _ => by rw [hpushes]) henq.ge (by omega)
        ?_ ?_ ?_ ?_ (h.at_of_phase hp hparties hy fun ph hph => ?_)
      · intro q hq
        rw [hq] at hfits
        exact henq.le.trans hfits.2.2.1
      · intro q j hq
        rw [hq] at hfits
        have hqne := hne q hfits.1
        have hle := hfits.2.1
        omega
      · intro q hq
        rw [hq] at hfits
        have hqne := hne q hfits.1
        have hle := hfits.2.1
        omega
      · intro q j hq
        rw [hq] at hfits
        exact henq.le.trans hfits.2.2.1
      · rw [hpc] at hph
        cases hph
  · refine h.busy_update hp (fun j q ph _ hq hph hx => ?_) (fun ph hph => ?_) hlaps hparties
    · -- nobody kept a slot that was published
      have hbusy := h.busy j q ph hq hph
      rw [hx, hfull] at hbusy
      rw [← hbusy] at hph
      cases hqpc : q.pc <;> rw [hqpc] at hph <;> cases hph
    · cases hph
      exact ⟨rfl, rfl⟩
  · rw [hparties]
    refine forall_set (P := fun _ q => s'.Knows q.pc) hp (fun j q _ hq => ?_) trivial
    refine (h.knows j q hq).mono h hlaps hcaps henq.ge (by omega) (fun _ _ => by rw [hslots])
      fun heq => ?_
    omega
  · have hset := weigh_set (fun p : Party α => p.pc.claims) hp
      { p with pc := .read s.ring.dequeuePos }
    have hcount := h.count (hdropping ▸ hd)
    have hzero : p.pc.claims = 0 := by rw [hpc]; rfl
    have hone : (Pc.read s.ring.dequeuePos : Pc α).claims = 1 := rfl
    simp only [hzero, hone] at hset
    rw [hparties, henq, hdeq]
    omega
  · rw [hparties, length_set]
    exact h.short (hdropping ▸ hd)
  · refine h.alone.set hp (by rfl) (by rw [hpc]; rfl) (fun _ => rfl) hparties hdropping
      fun q hq hqd hended => ?_
    rw [hparties] at hq
    rcases mem_or_eq_of_mem_set hq with hold | rfl
    · -- a drop that has ended has left nothing to claim
      have hends := h.alone.ends q hold hqd hended
      omega
    · cases hended
  · have hhist := h.history
    refine ⟨?_, ?_, htakes ▸ hhist.nodup, ?_, ?_, ?_, ?_⟩
    · rw [hpushes, henq]
      exact hhist.pushes
    · rw [hdeq, range_succ, ← hhist.claims, hs]
    · rw [htakes, hpushes, hdeq]
      intro t ht
      obtain ⟨htlt, hitem⟩ := hhist.items t ht
      exact ⟨htlt.trans (Nat.lt_succ_self _), hitem⟩
    · rw [htakes, hdeq]
      intro q hq
      have hnew : s.ring.dequeuePos ∉ s.takes.map Take.pos := by
        intro hmem
        obtain ⟨t, ht, hpos⟩ := mem_map.mp hmem
        have htlt := (hhist.items t ht).1
        omega
      rcases Nat.lt_succ_iff_lt_or_eq.mp hq with hold | rfl
      · obtain ⟨hor, hnot⟩ := hhist.claimed q hold
        refine ⟨hor.imp_right fun ⟨j, hj⟩ => ⟨j, (hread j q).mpr (.inr hj)⟩, fun j hj => ?_⟩
        rcases (hread j q).mp hj with ⟨-, rfl⟩ | hj
        · exact hnew
        · exact hnot j hj
      · exact ⟨.inr ⟨i, (hread i _).mpr (.inl ⟨rfl, rfl⟩)⟩, fun _ _ => hnew⟩
    · rw [htakes]
      intro j q item hj
      rcases hj.of_set hp hparties with ⟨-, hfalse⟩ | ⟨-, hj⟩
      · cases hfalse
      · exact hhist.freeing j q item hj
    · rw [htakes]
      intro j item hj
      rcases hj.of_set hp hparties with ⟨-, hfalse⟩ | ⟨-, hj⟩
      · cases hfalse
      · exact hhist.popped j item hj

theorem onSlot (h : Inv s phase) (ph : Phase) {ph' : Phase} {slot : Slot α}
    {takes : List (Take α)} (hp : s.parties[i]? = some p) (hph : p.pc.phase i = some ph)
    (hs : s' = { s with
      ring := { s.ring with buf := update s.ring.buf (ph.pos % s.lap) slot }
      parties := s.parties.set i p'
      takes := takes })
    (hfits : s'.Fits (ph.pos % s.lap) ph')
    (hphase : ∀ ph₂, p'.pc.phase i = some ph₂ → ph₂ = ph' ∧ ph₂.pos % s.lap = ph.pos % s.lap)
    (hclaims : s.dropping = false → p'.pc.claims = p.pc.claims) (hdrops : p'.drops = p.drops)
    (hpops : p.drops = true → p'.pc.pops = true) (hended : p.drops = true → p'.pc.ended = false)
    (hknows : s'.Knows p'.pc) (hhistory : s'.History) :
    Inv s' (update phase (ph.pos % s.lap) ph') := by
  have hparties : s'.parties = s.parties.set i p' := by rw [hs]
  have hring : s'.ring = { s.ring with buf := update s.ring.buf (ph.pos % s.lap) slot } := by rw [hs]
  have henq : s'.ring.enqueuePos = s.ring.enqueuePos := by rw [hring]
  have hdeq : s'.ring.dequeuePos = s.ring.dequeuePos := by rw [hring]
  have hslots : ∀ y, y ≠ ph.pos % s.lap → s'.ring.buf y = s.ring.buf y := fun y hy => by
    rw [hring]
    exact update_of_ne hy _ _
  have hlaps : s'.lap = s.lap := by rw [lap, hring]; rfl
  have hcaps : s'.ring.cap = s.ring.cap := by rw [hring]
  have hpushes : s'.pushes = s.pushes := by rw [hs]
  have hdropping : s'.dropping = s.dropping := by rw [hs]
  have hgoes : p.pc.ended = false := by
    cases hpc : p.pc <;> rw [hpc] at hph <;> first | rfl | cases hph
  have hkept := h.busy i p ph hp hph
  -- the slot is neither free nor published, so nobody else counts on it
  have hkeeps : ∀ q, phase (ph.pos % s.lap) ≠ .free q ∧ phase (ph.pos % s.lap) ≠ .full q := by
    intro q
    rw [hkept]
    cases hpc : p.pc <;> rw [hpc] at hph <;> cases hph <;> exact ⟨nofun, nofun⟩
  refine ⟨⟨?_, ?_, ?_, ?_, ?_, ?_⟩, ?_, ?_, ?_, fun hd => ?_, fun hd => ?_, ?_, hhistory⟩
  · rw [hlaps]
    exact h.sized.power
  · rw [henq, hdeq]
    exact h.sized.ordered
  · rw [henq, hdeq, hlaps]
    exact h.sized.room
  · rw [henq, hdeq, hcaps]
    exact h.sized.capacity
  · rw [henq]
    exact h.sized.low
  · rw [hcaps]
    exact h.sized.cap
  · refine fits_update hfits (fun y hy hyx => ?_) hlaps
    have hold := h.fits y hy
    refine hold.mono h.sized.ordered hlaps (hslots y hyx) (fun _ _ => by rw [hpushes]) henq.ge hdeq.ge
      ?_ ?_ ?_ ?_ (h.at_of_phase hp hparties hy fun ph₂ hph₂ => ?_)
    · intro q hq
      rw [hq] at hold
      exact henq.le.trans hold.2.2.1
    · intro q j hq
      rw [hq] at hold
      exact hdeq.le.trans hold.2.1
    · intro q hq
      rw [hq] at hold
      exact hdeq.le.trans hold.2.1
    · intro q j hq
      rw [hq] at hold
      exact henq.le.trans hold.2.2.1
    · rw [hph] at hph₂
      rw [← Option.some.inj hph₂]
      exact Ne.symm hyx
  · refine h.busy_update hp (fun j q ph₂ hji hq hph₂ hx => ?_) hphase hlaps hparties
    -- the phase of the slot names the call that keeps it
    have hbusy := h.busy j q ph₂ hq hph₂
    rw [hx, hkept] at hbusy
    subst hbusy
    apply hji
    cases hpc : p.pc <;> rw [hpc] at hph <;> cases hph <;>
      cases hqpc : q.pc <;> rw [hqpc] at hph₂ <;> cases hph₂ <;> rfl
  · rw [hparties]
    refine forall_set (P := fun _ q => s'.Knows q.pc) hp (fun j q _ hq => ?_) hknows
    refine (h.knows j q hq).mono h hlaps hcaps henq.ge hdeq.ge (fun _ hfree => ?_) fun _ hfull => ?_
    · refine hslots _ fun heq => ?_
      rw [heq] at hfree
      exact (hkeeps _).1 hfree
    · refine hslots _ fun heq => ?_
      rw [heq] at hfull
      exact (hkeeps _).2 hfull
  · have hset := weigh_set (fun p : Party α => p.pc.claims) hp p'
    have hcount := h.count (hdropping ▸ hd)
    have hsame := hclaims (hdropping ▸ hd)
    simp only [hsame] at hset
    rw [hparties, henq, hdeq]
    omega
  · rw [hparties, length_set]
    exact h.short (hdropping ▸ hd)
  · refine h.alone.set hp hdrops hgoes hpops hparties hdropping fun q hq hqd hqo => ?_
    rw [henq, hdeq]
    rw [hparties] at hq
    rcases mem_or_eq_of_mem_set hq with hold | rfl
    · exact h.alone.ends q hold hqd hqo
    · rw [hended (hdrops ▸ hqd)] at hqo
      cases hqo

theorem not_drops (h : Inv s phase) (hp : s.parties[i]? = some p) (hpops : p.pc.pops = false)
    (hdrops : p.drops = true) : False := by
  have htrue := h.alone.pops p (mem_of_getElem? hp) hdrops
  rw [hpops] at htrue
  cases htrue

theorem fits_write (h : Inv s phase) (hp : s.parties[i]? = some p) {item : α}
    (hpc : p.pc = .write item pos) : s.pushes[pos]? = some item ∧
      s.ring.buf (pos % s.lap) = ⟨pos, none⟩ ∧ s.ring.dequeuePos ≤ pos ∧
      pos < s.ring.enqueuePos := by
  have hkept : phase (pos % s.lap) = .writing pos i := h.busy i p (.writing pos i) hp (by rw [hpc]; rfl)
  have hfits := h.fits_at pos
  rw [hkept] at hfits
  obtain ⟨-, hlow, hlt, ⟨item', hat, hitem, hbuf⟩ | ⟨hat, -⟩⟩ := hfits
  · have heq := hat.eq hp
    rw [hpc] at heq
    cases heq
    exact ⟨hitem, hbuf, hlow, hlt⟩
  · have heq := hat.eq hp
    rw [hpc] at heq
    cases heq

theorem fits_publish (h : Inv s phase) (hp : s.parties[i]? = some p) (hpc : p.pc = .publish pos) :
    s.ring.buf (pos % s.lap) = ⟨pos, s.pushes[pos]?⟩ ∧ s.ring.dequeuePos ≤ pos ∧
      pos < s.ring.enqueuePos := by
  have hkept : phase (pos % s.lap) = .writing pos i := h.busy i p (.writing pos i) hp (by rw [hpc]; rfl)
  have hfits := h.fits_at pos
  rw [hkept] at hfits
  obtain ⟨-, hlow, hlt, ⟨item', hat, -, -⟩ | ⟨-, hbuf⟩⟩ := hfits
  · have heq := hat.eq hp
    rw [hpc] at heq
    cases heq
  · exact ⟨hbuf, hlow, hlt⟩

theorem fits_read (h : Inv s phase) (hp : s.parties[i]? = some p) (hpc : p.pc = .read pos) :
    s.ring.buf (pos % s.lap) = ⟨pos + 1, s.pushes[pos]?⟩ ∧ pos < s.ring.dequeuePos ∧
      s.ring.enqueuePos ≤ pos + s.lap := by
  have hkept : phase (pos % s.lap) = .reading pos i := h.busy i p (.reading pos i) hp (by rw [hpc]; rfl)
  have hfits := h.fits_at pos
  rw [hkept] at hfits
  obtain ⟨-, hlt, hroom, ⟨-, hbuf⟩ | ⟨hat, -⟩⟩ := hfits
  · exact ⟨hbuf, hlt, hroom⟩
  · have heq := hat.eq hp
    rw [hpc] at heq
    cases heq

theorem fits_free (h : Inv s phase) (hp : s.parties[i]? = some p) {item : Option α}
    (hpc : p.pc = .free pos item) : item = s.pushes[pos]? ∧
      s.ring.buf (pos % s.lap) = ⟨pos + 1, none⟩ ∧ pos < s.ring.dequeuePos ∧
      s.ring.enqueuePos ≤ pos + s.lap := by
  have hkept : phase (pos % s.lap) = .reading pos i := h.busy i p (.reading pos i) hp (by rw [hpc]; rfl)
  have hfits := h.fits_at pos
  rw [hkept] at hfits
  obtain ⟨-, hlt, hroom, ⟨hat, -⟩ | ⟨hat, hbuf⟩⟩ := hfits
  · have heq := hat.eq hp
    rw [hpc] at heq
    cases heq
  · have heq := hat.eq hp
    rw [hpc] at heq
    cases heq
    exact ⟨rfl, hbuf, hlt, hroom⟩

theorem write (h : Inv s phase) (hp : s.parties[i]? = some p) {item : α}
    (hpc : p.pc = .write item pos)
    (hs : s' = { s with
      ring := s.ring.setSlot pos { s.ring.slot pos with val := some item }
      parties := s.parties.set i { p with pc := .publish pos } }) :
    Inv s' (update phase (pos % s.lap) (.writing pos i)) := by
  obtain ⟨hitem, hbuf, hlow, hlt⟩ := h.fits_write hp hpc
  rw [h.sized.setSlot, h.sized.slot, hbuf] at hs
  have hparties : s'.parties = s.parties.set i { p with pc := .publish pos } := by rw [hs]
  have hslot : s'.ring.buf (pos % s.lap) = ⟨pos, s'.pushes[pos]?⟩ := by
    rw [hs]
    show update s.ring.buf (pos % s.lap) _ (pos % s.lap) = _
    rw [update_self, hitem]
  refine h.onSlot (.writing pos i) hp (by rw [hpc]; rfl) hs ?_ (fun ph hph => ?_)
    (fun _ => by rw [hpc]; rfl) rfl (fun hdrops => ?_) (fun _ => rfl) trivial ?_
  · exact ⟨by rw [hs]; rfl, by rw [hs]; exact hlow, by rw [hs]; exact hlt,
      .inr ⟨at_set_self hp hparties, hslot⟩⟩
  · cases hph
    exact ⟨rfl, rfl⟩
  · exact (h.not_drops hp (by rw [hpc]; rfl) hdrops).elim
  · refine h.history.set hp (.inr ⟨pos, by rw [hpc]; rfl⟩) (.inr ⟨pos, rfl⟩)
      (fun _ hfalse => by cases hfalse) hparties (by rw [hs]) (by rw [hs]) (by rw [hs]) ?_
      fun _ _ => by rw [hs]
    rw [hs]
    exact h.history.pushes

theorem publish (h : Inv s phase) (hp : s.parties[i]? = some p) (hpc : p.pc = .publish pos)
    (hs : s' = { s with
      ring := s.ring.setSlot pos { s.ring.slot pos with seq := wrappingAdd pos 1 }
      parties := s.parties.set i { p with pc := .pushed } }) :
    Inv s' (update phase (pos % s.lap) (.full pos)) := by
  obtain ⟨hbuf, hlow, hlt⟩ := h.fits_publish hp hpc
  have hsmall := h.sized.low
  rw [h.sized.setSlot, h.sized.slot, hbuf, wrappingAdd_of_lt (by omega)] at hs
  have hparties : s'.parties = s.parties.set i { p with pc := .pushed } := by rw [hs]
  have hslot : s'.ring.buf (pos % s.lap) = ⟨pos + 1, s'.pushes[pos]?⟩ := by
    rw [hs]
    exact update_self ..
  refine h.onSlot (.writing pos i) hp (by rw [hpc]; rfl) hs ?_ (fun ph hph => ?_)
    (fun _ => by rw [hpc]; rfl) rfl (fun hdrops => ?_) (fun hdrops => ?_) trivial ?_
  · exact ⟨by rw [hs]; rfl, by rw [hs]; exact hlow, by rw [hs]; exact hlt, hslot⟩
  · cases hph
  · exact (h.not_drops hp (by rw [hpc]; rfl) hdrops).elim
  · exact (h.not_drops hp (by rw [hpc]; rfl) hdrops).elim
  · refine h.history.set hp (.inr ⟨pos, by rw [hpc]; rfl⟩) (.inl rfl)
      (fun _ hfalse => by cases hfalse) hparties (by rw [hs]) (by rw [hs]) (by rw [hs]) ?_
      fun _ _ => by rw [hs]
    rw [hs]
    exact h.history.pushes

theorem read (h : Inv s phase) (hp : s.parties[i]? = some p) (hpc : p.pc = .read pos)
    (hs : s' = { s with
      ring := s.ring.setSlot pos { s.ring.slot pos with val := none }
      takes := s.takes ++ [⟨i, pos, (s.ring.slot pos).val⟩]
      parties := s.parties.set i { p with pc := .free pos (s.ring.slot pos).val } }) :
    Inv s' (update phase (pos % s.lap) (.reading pos i)) := by
  obtain ⟨hbuf, hlt, hroom⟩ := h.fits_read hp hpc
  have hat : s.At i (.read pos) := ⟨p, hp, hpc⟩
  rw [h.sized.setSlot, h.sized.slot, hbuf] at hs
  have hparties : s'.parties = s.parties.set i { p with pc := .free pos s.pushes[pos]? } := by
    rw [hs]
  have htakes : s'.takes = s.takes ++ [⟨i, pos, s.pushes[pos]?⟩] := by rw [hs]
  have hslot : s'.ring.buf (pos % s.lap) = ⟨pos + 1, none⟩ := by
    rw [hs]
    exact update_self ..
  refine h.onSlot (.reading pos i) hp (by rw [hpc]; rfl) hs ?_ (fun ph hph => ?_)
    (fun _ => by rw [hpc]; rfl) rfl (fun _ => rfl) (fun _ => rfl) trivial ?_
  · refine ⟨by rw [hs]; rfl, by rw [hs]; exact hlt, by rw [hs]; exact hroom, .inr ⟨?_, hslot⟩⟩
    have hself := at_set_self hp hparties
    rw [hs] at hself ⊢
    exact hself
  · cases hph
    exact ⟨rfl, rfl⟩
  · have hhist := h.history
    have hnew := (hhist.claimed pos hlt).2 i hat
    have hpushes : s'.pushes = s.pushes := by rw [hs]
    have hdeq : s'.ring.dequeuePos = s.ring.dequeuePos := by rw [hs]
    refine ⟨?_, ?_, ?_, ?_, ?_, ?_, ?_⟩
    · rw [hs]
      exact hhist.pushes
    · rw [hs]
      exact hhist.claims
    · rw [htakes, map_append]
      exact concat_eq_append ▸ hhist.nodup.concat hnew
    · rw [htakes, hpushes, hdeq]
      intro t ht
      rcases mem_append.mp ht with hold | hlast
      · exact hhist.items t hold
      · rw [mem_singleton.mp hlast]
        exact ⟨hlt, rfl⟩
    · rw [htakes, hdeq, map_append]
      intro q hq
      obtain ⟨hor, hnot⟩ := hhist.claimed q hq
      constructor
      · rcases hor with hold | ⟨j, hj⟩
        · exact .inl (mem_append_left _ hold)
        · by_cases hji : j = i
          · subst hji
            have heq := hj.eq hp
            rw [hpc] at heq
            cases heq
            exact .inl (mem_append_right _ mem_cons_self)
          · exact .inr ⟨j, hj.set_of_ne hji hparties⟩
      · intro j hj hmem
        rcases hj.of_set hp hparties with ⟨-, hfalse⟩ | ⟨hji, hj⟩
        · cases hfalse
        · rcases mem_append.mp hmem with hold | hlast
          · exact hnot j hj hold
          · -- nobody else is about to read the position
            have hqpos : q = pos := mem_singleton.mp hlast
            subst hqpos
            obtain ⟨r, hr, hrpc⟩ := hj
            have hbusy := h.busy j r (.reading q j) hr (by rw [hrpc]; rfl)
            have hbusy' := h.busy i p (.reading q i) hp (by rw [hpc]; rfl)
            have heq : Phase.reading q j = .reading q i := hbusy.symm.trans hbusy'
            exact hji (Phase.reading.inj heq).2
    · rw [htakes]
      intro j q item hj
      rcases hj.of_set hp hparties with ⟨rfl, heq⟩ | ⟨-, hj⟩
      · cases heq
        exact mem_append_right _ mem_cons_self
      · exact mem_append_left _ (hhist.freeing j q item hj)
    · rw [htakes]
      intro j item hj
      rcases hj.of_set hp hparties with ⟨-, hfalse⟩ | ⟨-, hj⟩
      · cases hfalse
      · obtain ⟨t, ht, hboth⟩ := hhist.popped j item hj
        exact ⟨t, mem_append_left _ ht, hboth⟩

theorem free (h : Inv s phase) (hp : s.parties[i]? = some p) {item : Option α}
    (hpc : p.pc = .free pos item)
    (hs : s' = { s with
      ring := s.ring.setSlot pos { s.ring.slot pos with
        seq := wrappingAdd (wrappingAdd pos s.ring.mask) 1 }
      parties := s.parties.set i { p with pc := if p.drops then .loadPos else .popped item } }) :
    Inv s' (update phase (pos % s.lap) (.free (pos + s.lap))) := by
  obtain ⟨hitem, hbuf, hlt, hroom⟩ := h.fits_free hp hpc
  have hlow := h.sized.low
  have hord := h.sized.ordered
  have hlap := h.sized.lap_le
  have hmask : s.ring.mask + 1 = s.lap := rfl
  have hseq : wrappingAdd (wrappingAdd pos s.ring.mask) 1 = pos + s.lap := by
    rw [wrappingAdd_of_lt (a := pos) (by omega), wrappingAdd_of_lt (by omega)]
    omega
  have hfreeing := h.history.freeing i pos item ⟨p, hp, hpc⟩
  rw [h.sized.setSlot, h.sized.slot, hbuf, hseq] at hs
  have hparties : s'.parties =
      s.parties.set i { p with pc := if p.drops then .loadPos else .popped item } := by rw [hs]
  have hslot : s'.ring.buf (pos % s.lap) = ⟨pos + s.lap, none⟩ := by
    rw [hs]
    exact update_self ..
  have hnone : Pc.phase i (if p.drops then .loadPos else .popped item : Pc α) = none := by
    split <;> rfl
  refine h.onSlot (.reading pos i) hp (by rw [hpc]; rfl) hs ?_ (fun ph hph => ?_)
    (fun hd => ?_) rfl (fun hdrops => ?_) (fun hdrops => ?_) ?_ ?_
  · refine ⟨?_, hslot, by rw [hs]; exact hroom, ?_⟩
    · rw [hs]
      exact Nat.add_mod_right pos s.lap
    · rw [hs]
      exact Nat.add_lt_add_right hlt s.lap
  · rw [hnone] at hph
    cases hph
  · have hfalse : p.drops = false := by
      cases hdrops : p.drops with
      | false => rfl
      | true =>
        have htrue := h.alone.dropping p (mem_of_getElem? hp) hdrops
        rw [hd] at htrue
        cases htrue
    rw [hpc, hfalse]
    rfl
  · simp only [hdrops, if_true]
    rfl
  · simp only [hdrops, if_true]
    rfl
  · split <;> trivial
  · have hhist := h.history
    have htakes : s'.takes = s.takes := by rw [hs]
    have hread : ∀ j q, s'.At j (.read q) ↔ s.At j (.read q) := by
      intro j q
      constructor
      · intro hj
        rcases hj.of_set hp hparties with ⟨-, hfalse⟩ | ⟨-, hj⟩
        · dsimp only at hfalse
          split at hfalse <;> cases hfalse
        · exact hj
      · intro hj
        apply hj.set_of_ne _ hparties
        rintro rfl
        have heq := hj.eq hp
        rw [hpc] at heq
        cases heq
    refine ⟨?_, ?_, htakes ▸ hhist.nodup, ?_, ?_, ?_, ?_⟩
    · rw [hs]
      exact hhist.pushes
    · rw [hs]
      exact hhist.claims
    · rw [hs]
      exact hhist.items
    · rw [htakes]
      intro q hq
      have hq : q < s.ring.dequeuePos := by
        rw [hs] at hq
        exact hq
      obtain ⟨hor, hnot⟩ := hhist.claimed q hq
      refine ⟨hor.imp_right fun ⟨j, hj⟩ => ⟨j, (hread j q).mpr hj⟩, fun j hj => ?_⟩
      exact hnot j ((hread j q).mp hj)
    · rw [htakes]
      intro j q item' hj
      rcases hj.of_set hp hparties with ⟨-, hfalse⟩ | ⟨-, hj⟩
      · dsimp only at hfalse
        split at hfalse <;> cases hfalse
      · exact hhist.freeing j q item' hj
    · rw [htakes]
      intro j item' hj
      rcases hj.of_set hp hparties with ⟨rfl, heq⟩ | ⟨-, hj⟩
      · dsimp only at heq
        split at heq <;> cases heq
        exact ⟨_, hfreeing, rfl, rfl⟩
      · exact hhist.popped j item' hj

/-! ### Calls that begin -/

theorem at_append (h : s.At i pc) (hs : s'.parties = s.parties ++ [p]) : s'.At i pc := by
  obtain ⟨q, hq, rfl⟩ := h
  refine ⟨q, ?_, rfl⟩
  rw [hs, List.getElem?_append_left (List.getElem?_eq_some_iff.mp hq).1]
  exact hq

theorem getElem?_of_append {j : ℕ} {q : Party α} (h : (s.parties ++ [p])[j]? = some q) :
    s.parties[j]? = some q ∨ q = p := by
  rcases Nat.lt_or_ge j s.parties.length with hj | hj
  · rw [List.getElem?_append_left hj] at h
    exact .inl h
  · rw [List.getElem?_append_right hj] at h
    have hmem := mem_of_getElem? h
    exact .inr (mem_singleton.mp hmem)

theorem of_at_append (h : s'.At i pc) (hs : s'.parties = s.parties ++ [p]) :
    s.At i pc ∨ p.pc = pc := by
  obtain ⟨q, hq, rfl⟩ := h
  rw [hs] at hq
  rcases getElem?_of_append hq with hold | rfl
  · exact .inl ⟨q, hold, rfl⟩
  · exact .inr rfl

theorem append (h : Inv s phase) (hd : s.dropping = false) (hclaims : p.pc.claims = 0)
    (hknows : s.Knows p.pc)
    (hs : s' = { s with dropping := s'.dropping, parties := s.parties ++ [p] })
    (hshort : s'.dropping = false → s.parties.length + 1 < 2 ^ 63) (halone : s'.Alone) :
    Inv s' phase := by
  have hparties : s'.parties = s.parties ++ [p] := by rw [hs]
  have hring : s'.ring = s.ring := by rw [hs]
  have hpushes : s'.pushes = s.pushes := by rw [hs]
  have htakes : s'.takes = s.takes := by rw [hs]
  have hlaps : s'.lap = s.lap := by rw [lap, hring]; rfl
  have hphase : ∀ j, p.pc.phase j = none := by
    intro j
    cases hpc : p.pc <;> rw [hpc] at hclaims <;> first | rfl | cases hclaims
  have hat : ∀ j pc, (∃ ph, pc.phase j = some ph) → (s'.At j pc ↔ s.At j pc) := by
    intro j pc ⟨ph, hph⟩
    refine ⟨fun hj => (of_at_append hj hparties).resolve_right ?_, fun hj => at_append hj hparties⟩
    rintro rfl
    rw [hphase] at hph
    cases hph
  refine ⟨⟨?_, ?_, ?_, ?_, ?_, ?_⟩, fun x hx => ?_, ?_, ?_, fun hd' => ?_, fun hd' => ?_, halone, ?_⟩
  · rw [hlaps]
    exact h.sized.power
  · rw [hring]
    exact h.sized.ordered
  · rw [hring, hlaps]
    exact h.sized.room
  · rw [hring]
    exact h.sized.capacity
  · rw [hring]
    exact h.sized.low
  · rw [hring]
    exact h.sized.cap
  · rw [hlaps] at hx
    have hfits := h.fits x hx
    refine hfits.mono h.sized.ordered hlaps (by rw [hring]) (fun _ _ => by rw [hpushes])
      (by rw [hring]) (by rw [hring]) ?_ ?_ ?_ ?_ fun j pc hph => (hat j pc ⟨_, hph⟩).mpr
    · intro q hq
      rw [hq] at hfits
      rw [hring]
      exact hfits.2.2.1
    · intro q j hq
      rw [hq] at hfits
      rw [hring]
      exact hfits.2.1
    · intro q hq
      rw [hq] at hfits
      rw [hring]
      exact hfits.2.1
    · intro q j hq
      rw [hq] at hfits
      rw [hring]
      exact hfits.2.2.1
  · rw [hlaps, hparties]
    intro j q ph hq hph
    rcases getElem?_of_append hq with hold | rfl
    · exact h.busy j q ph hold hph
    · rw [hphase] at hph
      cases hph
  · rw [hparties]
    intro j q hq
    have hsame : ∀ pc : Pc α, s.Knows pc → s'.Knows pc := fun pc hk =>
      hk.mono h hlaps (by rw [hring]) (by rw [hring]) (by rw [hring]) (fun _ _ => by rw [hring])
        fun _ _ => by rw [hring]
    rcases getElem?_of_append hq with hold | rfl
    · exact hsame _ (h.knows j q hold)
    · exact hsame _ hknows
  · rw [hparties, hring, weigh_append_singleton]
    exact (h.count hd).trans (Nat.le_add_right _ _)
  · rw [hparties, length_append]
    exact hshort hd'
  · have hhist := h.history
    have hread : ∀ j q, s'.At j (.read q) ↔ s.At j (.read q) := fun j q => hat j _ ⟨_, rfl⟩
    refine ⟨?_, ?_, htakes ▸ hhist.nodup, ?_, ?_, ?_, ?_⟩
    · rw [hpushes, hring]
      exact hhist.pushes
    · rw [hring, ← hhist.claims, hs]
    · rw [htakes, hpushes, hring]
      exact hhist.items
    · rw [htakes, hring]
      intro q hq
      obtain ⟨hor, hnot⟩ := hhist.claimed q hq
      refine ⟨hor.imp_right fun ⟨j, hj⟩ => ⟨j, (hread j q).mpr hj⟩, fun j hj => ?_⟩
      exact hnot j ((hread j q).mp hj)
    · rw [htakes]
      intro j q item hj
      exact hhist.freeing j q item ((hat j _ ⟨_, rfl⟩).mp hj)
    · rw [htakes]
      intro j item hj
      rcases of_at_append hj hparties with hold | hpc
      · exact hhist.popped j item hold
      · rw [hpc] at hclaims
        cases hclaims

theorem start (h : Inv s phase) (op : Op α) (hd : s.dropping = false)
    (hshort : s.parties.length + 1 < 2 ^ 63) :
    Inv { s with parties := s.parties ++ [⟨false, op.start⟩] } phase := by
  refine h.append (p := ⟨false, op.start⟩) hd ?_ ?_ rfl (fun _ => hshort) ?_
  · cases op <;> rfl
  · cases op <;> trivial
  · -- nothing drops the ring yet
    have hnot : ∀ q ∈ s.parties ++ [Party.mk false op.start], q.drops = true → False := by
      intro q hq hqd
      rcases mem_append.mp hq with hold | hlast
      · have htrue := h.alone.dropping q hold hqd
        rw [hd] at htrue
        cases htrue
      · rw [mem_singleton.mp hlast] at hqd
        cases hqd
    refine ⟨?_, ?_, ?_, ?_, ?_, ?_⟩
    · exact fun q hq hqd => (hnot q hq hqd).elim
    · exact fun q hq hqd => (hnot q hq hqd).elim
    · exact fun j _ q _ hq _ hqd => (hnot q (mem_of_getElem? hq) hqd).elim
    · exact fun hd' => absurd (hd'.symm.trans hd) nofun
    · exact fun hd' => absurd (hd'.symm.trans hd) nofun
    · exact fun q hq hqd => (hnot q hq hqd).elim

theorem drop (h : Inv s phase) (hd : s.dropping = false)
    (hended : ∀ p ∈ s.parties, p.pc.ended = true) :
    Inv { s with dropping := true, parties := s.parties ++ [⟨true, .loadPos⟩] } phase := by
  refine h.append (p := ⟨true, .loadPos⟩) hd rfl trivial rfl nofun ?_
  have hor : ∀ q ∈ s.parties ++ [Party.mk true .loadPos], q.drops = true → q = ⟨true, .loadPos⟩ := by
    intro q hq hqd
    rcases mem_append.mp hq with hold | hlast
    · have htrue := h.alone.dropping q hold hqd
      rw [hd] at htrue
      cases htrue
    · exact mem_singleton.mp hlast
  have hlast : ∀ (j : ℕ) (q : Party α), (s.parties ++ [⟨true, .loadPos⟩])[j]? = some q →
      q.drops = true → j = s.parties.length := by
    intro j q hq hqd
    rcases Nat.lt_or_ge j s.parties.length with hj | hj
    · rw [List.getElem?_append_left hj] at hq
      have htrue := h.alone.dropping q (mem_of_getElem? hq) hqd
      rw [hd] at htrue
      cases htrue
    · have hlen := (List.getElem?_eq_some_iff.mp hq).1
      rw [length_append, length_singleton] at hlen
      exact le_antisymm (Nat.lt_succ_iff.mp hlen) hj
  refine ⟨?_, ?_, ?_, ?_, ?_, ?_⟩
  · exact fun _ _ _ => rfl
  · intro q hq hqd
    rw [hor q hq hqd]
    rfl
  · intro j k q r hq hr hqd hrd
    rw [hlast j q hq hqd, hlast k r hr hrd]
  · intro _ q hq hqd
    rcases mem_append.mp hq with hold | hlast
    · exact hended q hold
    · rw [mem_singleton.mp hlast] at hqd
      cases hqd
  · exact fun _ => ⟨_, mem_append_right _ mem_cons_self, rfl⟩
  · intro q hq hqd hqo
    rw [hor q hq hqd] at hqo
    cases hqo

/-! ### Every step -/

theorem quiet_move (h : Inv s phase) (hp : s.parties[i]? = some p) {pc : Pc α}
    (hrecord : s.record i p.pc = s) (hclaims : p.pc.claims = 0) (hclaims' : pc.claims = 0)
    (hgoes : p.pc.ended = false) (hpops : p.drops = true → pc.pops = true)
    (hends : p.drops = true → pc.ended = true → s.ring.dequeuePos = s.ring.enqueuePos)
    (hknows : s.Knows pc) : Inv (s.move i p s.ring pc) phase := by
  rw [move, hrecord]
  exact h.quiet hp hclaims hclaims' rfl hgoes hpops hends hknows

theorem push_move (h : Inv s phase) (hp : s.parties[i]? = some p) {pc : Pc α}
    (hrecord : s.record i p.pc = s) (hclaims : p.pc.claims = 0) (hclaims' : pc.claims = 0)
    (hgoes : p.pc.ended = false) (hpushes : p.pc.pops = false) (hknows : s.Knows pc) :
    Inv (s.move i p s.ring pc) phase := by
  have hnot := h.not_drops hp hpushes
  exact h.quiet_move hp hrecord hclaims hclaims' hgoes (fun hdrops => (hnot hdrops).elim)
    (fun hdrops => (hnot hdrops).elim) hknows

theorem drained (h : Inv s phase) (hp : s.parties[i]? = some p) (hdrops : p.drops = true)
    (hun : s.ring.enqueuePos = s.ring.dequeuePos ∨ ∃ j,
      (∃ item, s.At j (.write item s.ring.dequeuePos)) ∨ s.At j (.publish s.ring.dequeuePos)) :
    s.ring.dequeuePos = s.ring.enqueuePos := by
  rcases hun with heq | ⟨j, hj⟩
  · exact heq.symm
  · exfalso
    have hd := h.alone.dropping p (mem_of_getElem? hp) hdrops
    have hpush : ∃ q, s.parties[j]? = some q ∧ q.pc.pops = false ∧ q.pc.ended = false := by
      rcases hj with ⟨item, q, hq, hpc⟩ | ⟨q, hq, hpc⟩ <;>
        exact ⟨q, hq, by rw [hpc]; rfl, by rw [hpc]; rfl⟩
    obtain ⟨q, hq, hqpops, hqended⟩ := hpush
    exact h.not_drops hq hqpops (h.alone.eq_of_drops hq hqended hd)

theorem access (h : Inv s phase) (hp : s.parties[i]? = some p) {ring : Ring α}
    (hstep : s.ring.access p = some (ring, pc)) : ∃ phase, Inv (s.move i p ring pc) phase := by
  have hknows := h.knows i p hp
  have hlow := h.sized.low
  have hord := h.sized.ordered
  have hcapacity := h.sized.capacity
  cases hpc : p.pc with
  | loadTail item =>
    rw [Ring.access, hpc] at hstep
    cases hstep
    refine ⟨phase, h.push_move hp (by rw [hpc]; rfl) (by rw [hpc]; rfl) rfl (by rw [hpc]; rfl)
      (by rw [hpc]; rfl) ?_⟩
    exact le_rfl
  | loadHead item pos =>
    rw [hpc] at hknows
    have hle : pos ≤ s.ring.enqueuePos := hknows
    rw [Ring.access, hpc] at hstep
    dsimp only at hstep
    split_ifs at hstep with hfull
    · cases hstep
      exact ⟨phase, h.push_move hp (by rw [hpc]; rfl) (by rw [hpc]; rfl) rfl (by rw [hpc]; rfl)
        (by rw [hpc]; rfl) trivial⟩
    · cases hstep
      refine ⟨phase, h.push_move hp (by rw [hpc]; rfl) (by rw [hpc]; rfl) rfl (by rw [hpc]; rfl)
        (by rw [hpc]; rfl) ⟨hle, ?_⟩⟩
      -- a position that is behind the other cursor already is stale, and no claim will succeed on it
      rcases Nat.lt_or_ge pos s.ring.dequeuePos with hstale | hge
      · omega
      · rw [wrappingSub_of_le hge (by omega)] at hfull
        omega
  | loadStamp item pos =>
    rw [hpc] at hknows
    obtain ⟨hle, hroom⟩ := hknows
    rw [Ring.access, hpc] at hstep
    dsimp only at hstep
    rw [h.sized.slot, diff_of_lt (h.seq_lt pos) (by omega)] at hstep
    split_ifs at hstep with hseq hold
    · cases hstep
      refine ⟨phase, h.push_move hp (by rw [hpc]; rfl) (by rw [hpc]; rfl) rfl (by rw [hpc]; rfl)
        (by rw [hpc]; rfl) ⟨hle, hroom, fun _ => ?_⟩⟩
      omega
    · cases hstep
      exact ⟨phase, h.push_move hp (by rw [hpc]; rfl) (by rw [hpc]; rfl) rfl (by rw [hpc]; rfl)
        (by rw [hpc]; rfl) trivial⟩
    · cases hstep
      exact ⟨phase, h.push_move hp (by rw [hpc]; rfl) (by rw [hpc]; rfl) rfl (by rw [hpc]; rfl)
        (by rw [hpc]; rfl) trivial⟩
  | claimTail item pos =>
    rw [Ring.access, hpc] at hstep
    dsimp only at hstep
    split_ifs at hstep with heq
    · cases hstep
      subst heq
      refine ⟨_, h.claimTail hp hpc ?_⟩
      rw [move, hpc, record, if_pos rfl]
    · cases hstep
      refine ⟨phase, h.push_move hp (by rw [hpc, record, if_neg heq]) (by rw [hpc]; rfl) rfl
        (by rw [hpc]; rfl) (by rw [hpc]; rfl) ?_⟩
      exact le_rfl
  | write item pos =>
    rw [Ring.access, hpc] at hstep
    cases hstep
    refine ⟨_, h.write hp hpc ?_⟩
    rw [move, hpc]
    rfl
  | publish pos =>
    rw [Ring.access, hpc] at hstep
    cases hstep
    refine ⟨_, h.publish hp hpc ?_⟩
    rw [move, hpc]
    rfl
  | loadPos =>
    rw [Ring.access, hpc] at hstep
    cases hstep
    refine ⟨phase, h.quiet_move hp (by rw [hpc]; rfl) (by rw [hpc]; rfl) rfl (by rw [hpc]; rfl)
      (fun _ => rfl) nofun ?_⟩
    exact le_rfl
  | loadSeq pos =>
    rw [hpc] at hknows
    have hle : pos ≤ s.ring.dequeuePos := hknows
    rw [Ring.access, hpc] at hstep
    dsimp only at hstep
    rw [wrappingAdd_of_lt (by omega), h.sized.slot,
      diff_of_lt (h.seq_lt pos) (by omega)] at hstep
    split_ifs at hstep with hseq hold
    · cases hstep
      refine ⟨phase, h.quiet_move hp (by rw [hpc]; rfl) (by rw [hpc]; rfl) rfl (by rw [hpc]; rfl)
        (fun _ => rfl) nofun ⟨hle, fun _ => ?_⟩⟩
      omega
    · cases hstep
      have hun := h.unpublished hle (by omega)
      exact ⟨phase, h.quiet_move hp (by rw [hpc]; rfl) (by rw [hpc]; rfl) rfl (by rw [hpc]; rfl)
        (fun _ => rfl) (fun hdrops _ => h.drained hp hdrops hun) trivial⟩
    · cases hstep
      exact ⟨phase, h.quiet_move hp (by rw [hpc]; rfl) (by rw [hpc]; rfl) rfl (by rw [hpc]; rfl)
        (fun _ => rfl) nofun trivial⟩
  | claimHead pos =>
    rw [Ring.access, hpc] at hstep
    dsimp only at hstep
    split_ifs at hstep with heq
    · cases hstep
      subst heq
      refine ⟨_, h.claimHead hp hpc ?_⟩
      rw [move, hpc, record, if_pos rfl]
    · cases hstep
      refine ⟨phase, h.quiet_move hp (by rw [hpc, record, if_neg heq]) (by rw [hpc]; rfl) rfl
        (by rw [hpc]; rfl) (fun _ => rfl) nofun ?_⟩
      exact le_rfl
  | read pos =>
    rw [Ring.access, hpc] at hstep
    cases hstep
    refine ⟨_, h.read hp hpc ?_⟩
    rw [move, hpc, record]
  | free pos item =>
    rw [Ring.access, hpc] at hstep
    cases hstep
    refine ⟨_, h.free hp hpc ?_⟩
    rw [move, hpc]
    rfl
  | lenHead =>
    rw [Ring.access, hpc] at hstep
    cases hstep
    refine ⟨phase, h.push_move hp (by rw [hpc]; rfl) (by rw [hpc]; rfl) rfl (by rw [hpc]; rfl)
      (by rw [hpc]; rfl) ?_⟩
    exact le_rfl
  | lenTail head =>
    rw [hpc] at hknows
    rw [Ring.access, hpc] at hstep
    cases hstep
    refine ⟨phase, h.push_move hp (by rw [hpc]; rfl) (by rw [hpc]; rfl) rfl (by rw [hpc]; rfl)
      (by rw [hpc]; rfl) ?_⟩
    exact ⟨s.ring.dequeuePos, hknows, le_rfl, hord, hcapacity⟩
  | lenCheck head tail =>
    rw [hpc] at hknows
    obtain ⟨d, hhead, hd, htail, hroom⟩ := hknows
    rw [Ring.access, hpc] at hstep
    dsimp only at hstep
    split_ifs at hstep with heq
    · cases hstep
      refine ⟨phase, h.push_move hp (by rw [hpc]; rfl) (by rw [hpc]; rfl) rfl (by rw [hpc]; rfl)
        (by rw [hpc]; rfl) ?_⟩
      -- the head has not moved, so the tail was loaded beside it
      have hd' : d = head := le_antisymm (heq ▸ hd) hhead
      subst hd'
      show wrappingSub tail d ≤ s.ring.cap
      exact (wrappingSub_le htail (by omega)).trans (by omega)
    · cases hstep
      exact ⟨phase, h.push_move hp (by rw [hpc]; rfl) (by rw [hpc]; rfl) rfl (by rw [hpc]; rfl)
        (by rw [hpc]; rfl) trivial⟩
  | pushed => rw [Ring.access, hpc] at hstep; cases hstep
  | full item => rw [Ring.access, hpc] at hstep; cases hstep
  | popped item => rw [Ring.access, hpc] at hstep; cases hstep
  | empty => rw [Ring.access, hpc] at hstep; cases hstep
  | counted n => rw [Ring.access, hpc] at hstep; cases hstep

end Inv

/-- Fewer than `2 ^ 63` calls are made. -/
def Few (s : System α) (a : Action α) : Prop :=
  ∀ op, a = .start op → s.parties.length + 1 < 2 ^ 63

theorem Inv.step (h : Inv s phase) {a : Action α} (hfew : s.Few a) (hstep : s.step a = some s') :
    ∃ phase, Inv s' phase := by
  cases a with
  | start op =>
    simp only [System.step] at hstep
    split_ifs at hstep with hd
    cases hstep
    exact ⟨phase, h.start op (by simpa using hd) (hfew op rfl)⟩
  | step i =>
    simp only [System.step] at hstep
    obtain ⟨p, hp, hmap⟩ := bind_eq_some_iff.mp hstep
    obtain ⟨⟨ring, pc⟩, haccess, rfl⟩ := map_eq_some_iff.mp hmap
    exact h.access hp haccess
  | spurious i =>
    simp only [System.step] at hstep
    obtain ⟨p, hp, hmatch⟩ := bind_eq_some_iff.mp hstep
    split at hmatch
    next item pos hpc =>
      cases hmatch
      refine ⟨phase, h.quiet hp (by rw [hpc]; rfl) rfl rfl (by rw [hpc]; rfl) (fun hdrops => ?_)
        nofun ?_⟩
      · exact (h.not_drops hp (by rw [hpc]; rfl) hdrops).elim
      · exact le_rfl
    next pos hpc =>
      cases hmatch
      refine ⟨phase, h.quiet hp (by rw [hpc]; rfl) rfl rfl (by rw [hpc]; rfl) (fun _ => rfl)
        nofun ?_⟩
      exact le_rfl
    next => cases hmatch
  | drop =>
    simp only [System.step] at hstep
    split_ifs at hstep with hall
    cases hstep
    exact ⟨phase, h.drop hall.1 (by simpa using hall.2)⟩

theorem lap_new {capacity : UInt64} {ring : Ring α} (hnew : Ring.new α capacity = some ring) :
    ∃ k, 1 ≤ k ∧ k ≤ 56 ∧ ring.mask + 1 = 2 ^ k := by
  have hmax : (max (Word.nextPowerOfTwo capacity) 2).toNat =
      max (Word.nextPowerOfTwo capacity).toNat 2 := Word.toNat_max _ _
  have hphys : ∃ k, 1 ≤ k ∧ (max (Word.nextPowerOfTwo capacity) 2).toNat = 2 ^ k := by
    rw [hmax]
    rcases Nat.lt_or_ge (2 ^ 63) capacity.toNat with hlarge | hle
    · rw [Word.nextPowerOfTwo_eq_zero hlarge]
      exact ⟨1, le_rfl, rfl⟩
    · obtain ⟨k, hk, -, heq⟩ := Word.nextPowerOfTwo_eq hle
      have htoNat : (UInt64.ofNat (2 ^ k)).toNat = 2 ^ k :=
        UInt64.toNat_ofNat_of_lt' (Nat.pow_lt_pow_right (by decide) hk)
      rw [heq, htoNat]
      rcases Nat.eq_zero_or_pos k with rfl | hpos
      · exact ⟨1, le_rfl, rfl⟩
      · exact ⟨k, hpos, max_eq_left (Nat.pow_le_pow_right Nat.two_pos hpos)⟩
  obtain ⟨k, hone, hk⟩ := hphys
  rw [Ring.new, hk] at hnew
  split_ifs at hnew with hcond
  cases hnew
  have hpos : 0 < 2 ^ k := Nat.two_pow_pos k
  refine ⟨k, hone, ?_, ?_⟩
  · have hsmall : 2 ^ k < 2 ^ 57 := by
      rw [not_or, not_le] at hcond
      have hlt : 2 ^ k * 64 < 2 ^ 63 := hcond.2
      omega
    exact Nat.lt_succ_iff.mp ((Nat.pow_lt_pow_iff_right (by decide)).mp hsmall)
  · exact Nat.sub_add_cancel hpos

theorem Inv.init {capacity : UInt64} {ring : Ring α} (hnew : Ring.new α capacity = some ring) :
    Inv (init ring) .free := by
  have hpower := lap_new hnew
  rw [Ring.new] at hnew
  split_ifs at hnew with hcond
  cases hnew
  constructor
  case sized =>
    refine ⟨hpower, le_rfl, Nat.zero_le _, Nat.zero_le _, ?_, capacity.toNat_lt⟩
    show 0 + 2 ^ 57 ≤ 2 ^ 63
    decide
  case fits =>
    intro x hx
    exact ⟨Nat.mod_eq_of_lt hx, rfl, Nat.zero_le x, (Nat.zero_add _).symm ▸ hx⟩
  -- no call is there yet
  case busy =>
    intro i p ph hp
    cases hp
  case knows =>
    intro i p hp
    cases hp
  case count => exact fun _ => Nat.zero_le _
  case short =>
    intro _
    exact Nat.two_pow_pos 63
  case alone =>
    constructor
    case dropping => exact fun p hp => absurd hp not_mem_nil
    case pops => exact fun p hp => absurd hp not_mem_nil
    case unique =>
      intro i j p q hp
      cases hp
    case ended => exact fun _ p hp => absurd hp not_mem_nil
    case dropper =>
      intro hdropping
      cases hdropping
    case ends => exact fun p hp => absurd hp not_mem_nil
  case history =>
    refine ⟨rfl, rfl, .nil, ?_, fun p hp => absurd hp (Nat.not_lt_zero p), ?_, ?_⟩
    · exact fun t ht => absurd ht not_mem_nil
    · rintro i p item ⟨q, hq, -⟩
      cases hq
    · rintro i item ⟨q, hq, -⟩
      cases hq

/-! ### What the ring promises -/

/-- The oldest position that no pop has claimed is not claimed by a push, or not published yet. -/
def Unpublished (s : System α) : Prop :=
  s.ring.enqueuePos = s.ring.dequeuePos ∨ ∃ i,
    (∃ item, s.At i (.write item s.ring.dequeuePos)) ∨ s.At i (.publish s.ring.dequeuePos)

/-- What the ring promises of every state. -/
structure Ordered (s : System α) : Prop where
  /-- the positions are claimed by pops one after the other: none is skipped, none is claimed twice -/
  claims : s.claims = List.range s.ring.dequeuePos
  /-- and their items are the oldest that were pushed, in the order of the pushes -/
  order : s.claims.filterMap (fun pos => s.pushes[pos]?) <+: s.pushes
  /-- every position that was claimed is read once, or is about to be -/
  claimed : ∀ pos ∈ s.claims, pos ∈ s.takes.map Take.pos ∨ ∃ i, s.At i (.read pos)
  once : (s.takes.map Take.pos).Nodup
  items : ∀ t ∈ s.takes, t.pos ∈ s.claims ∧ ∃ item, t.item = some item ∧
    s.pushes[t.pos]? = some item
  /-- what a pop returns is what it has read -/
  popped : ∀ i item, s.At i (.popped item) → ∃ t ∈ s.takes, t.reader = i ∧ t.item = item
  /-- a slot is read while it holds an item that was not read, and written while it holds none -/
  reads : ∀ i pos, s.At i (.read pos) →
    (∃ item, (s.ring.slot pos).val = some item) ∧ pos ∉ s.takes.map Take.pos
  writes : ∀ i item pos, s.At i (.write item pos) → (s.ring.slot pos).val = none
  /-- the positions are never more than the capacity apart -/
  enqueued : s.pushes.length = s.ring.enqueuePos
  nonneg : s.ring.dequeuePos ≤ s.ring.enqueuePos
  bounded : s.ring.enqueuePos ≤ s.ring.dequeuePos + s.ring.cap
  counted : ∀ i n, s.At i (.counted n) → n ≤ s.ring.cap
  /-- when the ring has been dropped, every item that was pushed has been read once -/
  dropped : (∃ p ∈ s.parties, p.drops = true ∧ p.pc.ended = true) →
    (s.takes.map Take.pos).Perm (List.range s.pushes.length) ∧ ∀ pos, (s.ring.slot pos).val = none

namespace Inv

theorem filterMap_range (l : List α) {n : ℕ} (h : n ≤ l.length) :
    (List.range n).filterMap (fun pos => l[pos]?) = l.take n := by
  induction n with
  | zero => rfl
  | succ n ih =>
    have hn : l[n]? = some l[n] := List.getElem?_eq_getElem h
    rw [range_succ, filterMap_append, ih (Nat.le_of_succ_le h), take_add_one, hn]
    simp [hn]

theorem ended_of_dropped (h : Inv s phase) (hp : p ∈ s.parties) (hdrops : p.drops = true)
    (hended : p.pc.ended = true) : s.ring.dequeuePos = s.ring.enqueuePos ∧
      ∀ q ∈ s.parties, q.pc.ended = true := by
  refine ⟨h.alone.ends p hp hdrops hended, fun q hq => ?_⟩
  cases hqd : q.drops with
  | false => exact h.alone.ended (h.alone.dropping p hp hdrops) q hq hqd
  | true =>
    -- there is one drop
    obtain ⟨j, hj⟩ := mem_iff_getElem?.mp hp
    obtain ⟨k, hk⟩ := mem_iff_getElem?.mp hq
    obtain rfl := h.alone.unique j k p q hj hk hdrops hqd
    rw [hj] at hk
    exact Option.some.inj hk ▸ hended

theorem ordered (h : Inv s phase) : s.Ordered := by
  have hhist := h.history
  have hord := h.sized.ordered
  have hlt : ∀ pos, pos ∈ s.claims ↔ pos < s.ring.dequeuePos := fun pos => by
    rw [hhist.claims, mem_range]
  refine ⟨hhist.claims, ?_, ?_, hhist.nodup, ?_, hhist.popped, ?_, ?_, hhist.pushes, hord,
    h.sized.capacity, ?_, ?_⟩
  · rw [hhist.claims, filterMap_range _ (hhist.pushes ▸ hord)]
    exact take_prefix _ _
  · exact fun pos hpos => (hhist.claimed pos ((hlt pos).mp hpos)).1
  · intro t ht
    obtain ⟨hpos, hitem⟩ := hhist.items t ht
    have hlen : t.pos < s.pushes.length := by
      rw [hhist.pushes]
      exact hpos.trans_le hord
    have hsome := List.getElem?_eq_getElem hlen
    exact ⟨(hlt _).mpr hpos, _, hitem.trans hsome, hsome⟩
  · rintro i pos hat
    obtain ⟨p, hp, hpc⟩ := hat
    obtain ⟨hbuf, hpos, -⟩ := h.fits_read hp hpc
    have hlen : pos < s.pushes.length := by
      rw [hhist.pushes]
      exact hpos.trans_le hord
    rw [h.sized.slot, hbuf]
    exact ⟨⟨_, List.getElem?_eq_getElem hlen⟩, (hhist.claimed pos hpos).2 i ⟨p, hp, hpc⟩⟩
  · rintro i item pos ⟨p, hp, hpc⟩
    obtain ⟨-, hbuf, -, -⟩ := h.fits_write hp hpc
    rw [h.sized.slot, hbuf]
  · rintro i n ⟨p, hp, hpc⟩
    have hknows := h.knows i p hp
    rw [hpc] at hknows
    exact hknows
  · rintro ⟨p, hp, hdrops, hended⟩
    obtain ⟨heq, hall⟩ := h.ended_of_dropped hp hdrops hended
    refine ⟨?_, fun pos => ?_⟩
    · rw [hhist.pushes, ← heq]
      refine (perm_ext_iff_of_nodup hhist.nodup nodup_range).mpr fun pos => ?_
      rw [mem_range]
      constructor
      · intro hmem
        obtain ⟨t, ht, rfl⟩ := mem_map.mp hmem
        exact (hhist.items t ht).1
      · intro hpos
        refine ((hhist.claimed pos hpos).1).resolve_right ?_
        rintro ⟨i, q, hq, hqpc⟩
        have hqended := hall q (mem_of_getElem? hq)
        rw [hqpc] at hqended
        cases hqended
    · have hnone : ∀ i pc, s.At i pc → pc.ended = false → False := by
        rintro i pc ⟨q, hq, rfl⟩ hgoes
        have hqended := hall q (mem_of_getElem? hq)
        rw [hgoes] at hqended
        cases hqended
      have hfits := h.fits_at pos
      rw [h.sized.slot]
      cases hph : phase (pos % s.lap) with
      | free p =>
        rw [hph] at hfits
        rw [hfits.2.1]
      | writing p i =>
        rw [hph] at hfits
        obtain ⟨-, -, -, ⟨item, hat, -⟩ | ⟨hat, -⟩⟩ := hfits <;> exact (hnone _ _ hat rfl).elim
      | full p =>
        rw [hph] at hfits
        obtain ⟨-, hlow, hlt, -⟩ := hfits
        omega
      | reading p i =>
        rw [hph] at hfits
        obtain ⟨-, -, -, ⟨hat, -⟩ | ⟨hat, -⟩⟩ := hfits <;> exact (hnone _ _ hat rfl).elim

theorem unpublished_of_empty (h : Inv s phase) {a : Action α} (hstep : s.step a = some s')
    (hnot : ¬ s.At i .empty) (hempty : s'.At i .empty) : s.Unpublished := by
  cases a with
  | start op =>
    simp only [System.step] at hstep
    split_ifs at hstep with hd
    cases hstep
    rcases of_at_append (s := s) (p := ⟨false, op.start⟩) hempty rfl with hold | hpc
    · exact absurd hold hnot
    · cases op <;> cases hpc
  | step j =>
    simp only [System.step] at hstep
    obtain ⟨p, hp, hmap⟩ := bind_eq_some_iff.mp hstep
    obtain ⟨⟨ring, pc⟩, haccess, rfl⟩ := map_eq_some_iff.mp hmap
    rcases hempty.of_set hp rfl with ⟨rfl, hpc⟩ | ⟨-, hold⟩
    · -- only the load of the stamp ends so
      have hpc : pc = .empty := hpc
      subst hpc
      have hknows := h.knows i p hp
      have hlow := h.sized.low
      have hord := h.sized.ordered
      rw [Ring.access] at haccess
      split at haccess
      case h_8 pos hppc =>
        rw [hppc] at hknows
        have hle : pos ≤ s.ring.dequeuePos := hknows
        rw [wrappingAdd_of_lt (by omega), h.sized.slot,
          diff_of_lt (h.seq_lt pos) (by omega)] at haccess
        split_ifs at haccess with hseq hold
        · cases haccess
        · exact h.unpublished hle (by omega)
        · cases haccess
      all_goals first
        | cases haccess
        | (split_ifs at haccess <;> cases haccess)
    · exact absurd hold hnot
  | spurious j =>
    simp only [System.step] at hstep
    obtain ⟨p, hp, hmatch⟩ := bind_eq_some_iff.mp hstep
    split at hmatch
    next item pos hpc =>
      cases hmatch
      rcases hempty.of_set hp rfl with ⟨-, hfalse⟩ | ⟨-, hold⟩
      · cases hfalse
      · exact absurd hold hnot
    next pos hpc =>
      cases hmatch
      rcases hempty.of_set hp rfl with ⟨-, hfalse⟩ | ⟨-, hold⟩
      · cases hfalse
      · exact absurd hold hnot
    next => cases hmatch
  | drop =>
    simp only [System.step] at hstep
    split_ifs at hstep with hall
    cases hstep
    rcases of_at_append (s := s) (p := ⟨true, .loadPos⟩) hempty rfl with hold | hpc
    · exact absurd hold hnot
    · cases hpc

end Inv

/-- The ring keeps the order of its items, along every run of fewer than `2 ^ 63` calls; and a pop
answers that there is nothing only where the oldest position is not published. -/
theorem ordered_of_few {capacity : UInt64} {ring : Ring α}
    (hnew : Ring.new α capacity = some ring) (hrun : Run System.step Few (init ring) s) :
    s.Ordered ∧ ∀ a s', s.step a = some s' →
      ∀ i, ¬ s.At i .empty → s'.At i .empty → s.Unpublished := by
  have hinv : ∃ phase, Inv s phase := by
    apply hrun.invariant (I := fun s => ∃ phase, Inv s phase)
    · exact ⟨_, Inv.init hnew⟩
    · intro t a u ⟨phase, ht⟩ hfew hstep
      exact ht.step hfew hstep
  obtain ⟨phase, h⟩ := hinv
  exact ⟨h.ordered, fun a s' hstep i => h.unpublished_of_empty hstep⟩

/-- Two pushes claim their positions, and the second is the first to publish its item; a pop that comes
between finds nothing, and one that comes after both takes the older item. -/
def twoPushes : List (Action ℕ) :=
  [Action.start (.push 7), .start (.push 8)] ++ List.replicate 4 (Action.step 0) ++
    List.replicate 6 (Action.step 1) ++ [Action.start .pop, .step 2, .step 2] ++
    List.replicate 2 (Action.step 0) ++ [Action.start .pop] ++ List.replicate 5 (Action.step 3)

/-- The capacity is three, on four slots. -/
theorem ordered_twoPushes : ∃ (ring : Ring ℕ) (s : System ℕ), Ring.new ℕ 3 = some ring ∧
    Run System.step Few (init ring) s ∧ s.Ordered ∧ s.pushes = [7, 8] ∧
    s.parties.map (fun p => p.pc.ended) = [true, true, true, true] ∧
    s.takes.map Take.item = [some 7] := by
  obtain ⟨ring, hring⟩ : ∃ ring, Ring.new ℕ 3 = some ring :=
    Option.isSome_iff_exists.mp rfl
  have hexec : (Ring.new ℕ 3).bind (fun ring =>
      (exec System.step (fun s _ => decide (s.parties.length + 1 < 2 ^ 63)) (init ring)
        twoPushes).map fun s =>
          (s.pushes, s.parties.map (fun p => p.pc.ended), s.takes.map Take.item)) =
      some ([7, 8], [true, true, true, true], [some 7]) := by
    rfl
  rw [hring, Option.bind_some] at hexec
  obtain ⟨s, hs, heq⟩ := Option.map_eq_some_iff.mp hexec
  have hrun : Run System.step Few (init ring) s :=
    run_of_exec (fun _ _ hc _ _ => of_decide_eq_true hc) hs
  obtain ⟨hpushes, hended, htakes⟩ : s.pushes = [7, 8] ∧
      s.parties.map (fun p => p.pc.ended) = [true, true, true, true] ∧
      s.takes.map Take.item = [some 7] := by
    simpa using heq
  exact ⟨ring, s, hring, hrun, (ordered_of_few hring hrun).1, hpushes, hended, htakes⟩

end System

end Fibre.Channels.Vyukov
