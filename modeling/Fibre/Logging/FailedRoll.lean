import Fibre.Logging.RollSteps

/-!
# What a failed roll loses

A roll puts the null device's writer in the place of the old one before anything can fail. When the
directory cannot be read, or the active file cannot be renamed or opened again, the null device's
writer stays. The next write gives its bytes to it, and returns `Ok` if no roll follows, or if the
roll that follows goes well.

As long as only the active file's writer is given bytes, no roll renames over a rolled file, and
cleaning up does not come upon the active file, the bytes of every write that returned `Ok` are in
the active file, or in a rolled one, or were in one that cleaning up took.
-/

namespace Fibre.Logging

open Machine List Option

namespace Writing

section

variable (digit : Char → Bool) (gzip : List UInt8 → List UInt8) (p : RollingPolicy)

/-- The bytes are in the active file, or in a rolled one that is there, or were in one that cleaning
up took. -/
def Holds (w : Writing) (chunk : List UInt8) : Prop :=
  chunk <:+: w.roller.active p ∨
  (∃ f ∈ w.archive, chunk <:+: f.2 ∧ w.roller.files f.1 = some (.file f.2)) ∨
  ∃ f ∈ w.cleaned, chunk <:+: f.2

/-- Bytes go to the active file's writer only. A roll does not rename over a rolled file, and its
cleaning up does not delete, compress or write over the active file, nor write over a rolled one. -/
def Safe (w : Writing) : WriteAction → Prop
  | .take n => w.roller.live ∨ ∀ m ∈ n, ∀ buf now, w.phase = .taking buf now → buf.take m = []
  | .roll faults =>
    let target := w.roller.rollTarget digit p faults.order
    let all := w.roller.allFiles digit p faults.order
    ((w.roller.files p.basePath).isSome → ∀ f ∈ w.archive, f.1 ≠ target) ∧
    (∀ e ∈ p.toDelete all, e.path ≠ p.basePath) ∧
    ∀ e ∈ p.toCompress all, e.path ≠ p.basePath ∧
      ∀ name ∈ p.basePath :: target :: w.archive.map Prod.fst, e.path ++ p.compressedSuffix ≠ name
  | _ => True

/-- The bytes are where they should be. -/
def Keeps (w : Writing) (chunk : List UInt8) : Prop :=
  chunk <:+: w.roller.active p ∨ ∃ f ∈ w.archive ++ w.cleaned, chunk <:+: f.2

/-- What safe steps keep. -/
structure Inv (w : Writing) : Prop where
  roller : w.roller.WellFormed p
  archive : ∀ f ∈ w.archive, w.roller.files f.1 = some (.file f.2) ∧ f.1 ≠ p.basePath
  accepted : ∀ chunk ∈ w.accepted, w.Keeps p chunk
  pending : ∀ taken now, w.phase = .rollAfter taken now → w.Keeps p taken

end

variable {digit : Char → Bool} {gzip : List UInt8 → List UInt8} {p : RollingPolicy} {w : Writing}

theorem Inv.holds (h : w.Inv p) {chunk : List UInt8} (hchunk : w.Keeps p chunk) :
    w.Holds p chunk := by
  rcases hchunk with hactive | ⟨f, hf, hchunk⟩
  · exact .inl hactive
  · rcases mem_append.mp hf with hf | hf
    · exact .inr (.inl ⟨f, hf, hchunk, (h.archive f hf).1⟩)
    · exact .inr (.inr ⟨f, hf, hchunk⟩)

/-! ### Rolls -/

theorem mem_rolled {faults : Faults} {now : DateTime} {ok : Phase} {accepted : List (List UInt8)}
    {f : Name × List UInt8} :
    f ∈ (w.rolled digit gzip p faults now ok accepted).archive ++
      (w.rolled digit gzip p faults now ok accepted).cleaned ↔
    f ∈ w.archive ++ w.cleaned ∨
      f ∈ (w.roller.roll digit gzip p faults now).2.2.renamed.toList.map fun x =>
        (x.2, (w.roller.closed p).files.content p.basePath) := by
  simp only [rolled, mem_append, mem_filter]
  by_cases hgone : f.1 ∈ (w.roller.roll digit gzip p faults now).2.2.deleted ∨
      f.1 ∈ (w.roller.roll digit gzip p faults now).2.2.compressed
  · simp only [hgone, Bool.not_true, decide_true, Bool.false_eq_true, and_false, false_or, and_true]
    exact or_assoc.symm.trans (or_congr_left or_comm)
  · simp only [hgone, Bool.not_false, decide_false, Bool.false_eq_true, and_false, or_false,
      and_true]
    exact or_right_comm

/-- The active file, as an entry of the rolled ones. -/
def movedEntries (p : RollingPolicy) (s : CustomRoller) (renamed : Option (Name × Name)) :
    List (Name × List UInt8) :=
  renamed.toList.map fun x => (x.2, (s.closed p).files.content p.basePath)

theorem movedEntries_nothing (s : CustomRoller) : movedEntries p s Effects.nothing.renamed = [] :=
  rfl

/-- What a roll does to a roller whose rolled files are `archive`. -/
structure RollKeeps (p : RollingPolicy) (s : CustomRoller) (archive : List (Name × List UInt8))
    (r : Bool × CustomRoller × Effects) : Prop where
  roller : r.2.1.WellFormed p
  active : ∀ chunk, chunk <:+: s.active p →
    chunk <:+: r.2.1.active p ∨ ∃ f ∈ movedEntries p s r.2.2.renamed, chunk <:+: f.2
  archive : ∀ f ∈ archive ++ movedEntries p s r.2.2.renamed,
    f.1 ∉ r.2.2.deleted ++ r.2.2.compressed →
      r.2.1.files f.1 = some (.file f.2) ∧ f.1 ≠ p.basePath

section

variable {s : CustomRoller} {archive : List (Name × List UInt8)} {faults : Faults}

theorem movedEntries_renames (s : CustomRoller) (order : Listing) :
    movedEntries p s (s.renames digit p order) =
      if ((s.closed p).files p.basePath).isSome then
        [(s.rollTarget digit p order, (s.closed p).files.content p.basePath)]
      else [] := by
  rw [CustomRoller.renames, CustomRoller.rollTarget_closed, movedEntries]
  split_ifs <;> rfl

theorem rollKeeps_of_nothing (h : s.WellFormed p)
    (harchive : ∀ f ∈ archive, s.files f.1 = some (.file f.2) ∧ f.1 ≠ p.basePath)
    {s' : CustomRoller} (hs' : s' = s ∨ s' = s.closed p) :
    RollKeeps p s archive (false, s', .nothing) := by
  have hmem {f : Name × List UInt8}
      (hf : f ∈ archive ++ movedEntries p s Effects.nothing.renamed) : f ∈ archive := by
    rwa [movedEntries_nothing, append_nil] at hf
  rcases hs' with rfl | rfl
  · exact ⟨h, fun chunk hchunk => .inl hchunk, fun f hf _ => harchive f (hmem hf)⟩
  · obtain ⟨hclosed, hactive, -⟩ := h.closed
    refine ⟨hclosed, fun chunk hchunk => .inl (by rwa [hactive]), fun f hf _ => ?_⟩
    obtain ⟨hfile, hbase⟩ := harchive f (hmem hf)
    exact ⟨(CustomRoller.flush_of_ne hbase).trans hfile, hbase⟩

theorem moved_archive (h : s.WellFormed p)
    (harchive : ∀ f ∈ archive, s.files f.1 = some (.file f.2) ∧ f.1 ≠ p.basePath)
    (hfree : (s.files p.basePath).isSome →
      ∀ f ∈ archive, f.1 ≠ s.rollTarget digit p faults.order) :
    ∀ f ∈ archive ++ movedEntries p s (s.renames digit p faults.order),
      s.moved digit p faults.order f.1 = some (.file f.2) ∧ f.1 ≠ p.basePath := by
  intro f hf
  rcases mem_append.mp hf with hf | hf
  · obtain ⟨hfile, hbase⟩ := harchive f hf
    refine ⟨?_, hbase⟩
    have hclosed : (s.closed p).files f.1 = some (.file f.2) :=
      (CustomRoller.flush_of_ne hbase).trans hfile
    by_cases hpresent : ((s.closed p).files p.basePath).isSome
    · have htarget : f.1 ≠ (s.closed p).rollTarget digit p faults.order := by
        rw [CustomRoller.rollTarget_closed]
        exact hfree (by rwa [← CustomRoller.isSome_flush]) f hf
      rw [CustomRoller.moved, Files.rename_of_ne hbase htarget, hclosed]
    · rw [CustomRoller.moved, Files.rename, if_neg hpresent, hclosed]
  · -- the active file is at its new name
    rw [movedEntries_renames] at hf
    split_ifs at hf with hpresent
    · obtain rfl := mem_singleton.mp hf
      have hne : s.rollTarget digit p faults.order ≠ p.basePath :=
        CustomRoller.rollTarget_ne_basePath s faults.order
      refine ⟨?_, hne⟩
      rw [CustomRoller.moved, CustomRoller.rollTarget_closed, Files.rename_target hne hpresent]
      obtain ⟨node, hnode⟩ := isSome_iff_exists.mp hpresent
      cases node with
      | file bytes => rw [Files.content, hnode]
      | directory => exact absurd hnode h.closed.1.base
    · cases hf

theorem active_moved (h : s.WellFormed p) {chunk : List UInt8} (hchunk : chunk <:+: s.active p)
    (active : List UInt8) :
    chunk <:+: active ∨
      ∃ f ∈ movedEntries p s (s.renames digit p faults.order), chunk <:+: f.2 := by
  obtain ⟨-, -, hcontent⟩ := h.closed
  by_cases hpresent : ((s.closed p).files p.basePath).isSome
  · rw [← hcontent] at hchunk
    rw [movedEntries_renames, if_pos hpresent]
    exact .inr ⟨_, mem_singleton_self _, hchunk⟩
  · -- there was nothing to rename
    rw [isSome_iff_ne_none, not_not] at hpresent
    rw [← hcontent, Files.content, hpresent] at hchunk
    rw [eq_nil_of_infix_nil hchunk]
    exact .inl nil_infix

theorem rollKeeps_roll (h : s.WellFormed p)
    (harchive : ∀ f ∈ archive, s.files f.1 = some (.file f.2) ∧ f.1 ≠ p.basePath)
    (hfree : (s.files p.basePath).isSome →
      ∀ f ∈ archive, f.1 ≠ s.rollTarget digit p faults.order)
    (hdelete : ∀ e ∈ p.toDelete (s.allFiles digit p faults.order), e.path ≠ p.basePath)
    (hcompress : ∀ e ∈ p.toCompress (s.allFiles digit p faults.order), e.path ≠ p.basePath ∧
      ∀ name ∈ p.basePath :: s.rollTarget digit p faults.order :: archive.map Prod.fst,
        e.path ++ p.compressedSuffix ≠ name) (now : DateTime) :
    RollKeeps p s archive (s.roll digit gzip p faults now) := by
  have hmoved := moved_archive h harchive hfree
  have hopen := CustomRoller.openFile_moved digit p s faults
  rcases CustomRoller.roll_cases digit gzip p s faults now with
    ⟨-, hroll⟩ | ⟨-, hroll⟩ | ⟨-, ⟨-, hroll⟩ | ⟨size, hsize, hroll⟩⟩
  · rw [hroll]
    exact rollKeeps_of_nothing h harchive (.inl rfl)
  · rw [hroll]
    exact rollKeeps_of_nothing h harchive (.inr rfl)
  · rw [hroll]
    refine ⟨⟨?_, fun hl => (Bool.false_ne_true hl).elim, fun _ => h.flush.2.2⟩,
      fun chunk hchunk => active_moved h hchunk _, fun f hf _ => ?_⟩
    · change (CustomRoller.openFile p faults (s.moved digit p faults.order)).1 p.basePath ≠ _
      rw [hopen]
      split_ifs
      · simp
      · simp
      · exact (CustomRoller.moved_basePath digit p s faults.order).trans_ne (by simp)
    · obtain ⟨hfile, hbase⟩ := hmoved f hf
      exact ⟨(CustomRoller.openFile_of_ne hbase).trans hfile, hbase⟩
  · -- the rolled files that cleaning up takes are reported
    rw [hroll]
    have hreopens : faults.reopens := by
      by_contra hno
      rw [hopen, if_neg hno] at hsize
      cases hsize
    rw [if_pos hreopens] at hopen
    rw [CustomRoller.allFiles_closed, hopen]
    have hkept {n : Name} (hn : n ∈ p.basePath :: s.rollTarget digit p faults.order ::
        archive.map Prod.fst) : ∀ e ∈ p.toCompress (s.allFiles digit p faults.order),
          n ≠ e.path ++ p.compressedSuffix := fun e he heq => (hcompress e he).2 n hn heq.symm
    have hbase : (CustomRoller.cleanup gzip p faults ((s.moved digit p faults.order).put p.basePath
        (some (.file []))) (s.allFiles digit p faults.order)).1 p.basePath = some (.file []) := by
      refine (CustomRoller.cleanup_of_kept (fun hmem => ?_) (fun hmem => ?_)
        (hkept mem_cons_self)).trans (Files.put_self ..)
      · obtain ⟨e, he, heq⟩ := CustomRoller.mem_cleanup.1 hmem
        exact hdelete e he heq
      · obtain ⟨e, he, heq⟩ := CustomRoller.mem_cleanup.2 hmem
        exact (hcompress e he).1 heq
    refine ⟨⟨by simp [hbase], fun _ => Files.isFile_iff.mpr ⟨[], hbase⟩,
      fun hl => (Bool.false_ne_true hl.symm).elim⟩,
      fun chunk hchunk => active_moved h hchunk _, fun f hf hgone => ?_⟩
    obtain ⟨hfile, hne⟩ := hmoved f hf
    rw [mem_append, not_or] at hgone
    refine ⟨?_, hne⟩
    refine (CustomRoller.cleanup_of_kept hgone.1 hgone.2 (hkept ?_)).trans
      ((Files.put_of_ne hne _).trans hfile)
    rcases mem_append.mp hf with hf | hf
    · exact mem_cons_of_mem _ (mem_cons_of_mem _ (mem_map_of_mem hf))
    · have hf : f ∈ movedEntries p s (s.renames digit p faults.order) := hf
      rw [movedEntries_renames] at hf
      split_ifs at hf
      · obtain rfl := mem_singleton.mp hf
        exact mem_cons_of_mem _ mem_cons_self
      · cases hf

end

/-! ### Steps -/

theorem Inv.rolled (h : w.Inv p) {faults : Faults} (hsafe : w.Safe digit p (.roll faults))
    (now : DateTime) {ok : Phase} (hok : ∀ taken now, ok ≠ .rollAfter taken now)
    {accepted : List (List UInt8)} (haccepted : ∀ chunk ∈ accepted, w.Keeps p chunk) :
    (w.rolled digit gzip p faults now ok accepted).Inv p := by
  obtain ⟨hfree, hdelete, hcompress⟩ := hsafe
  have hroll : RollKeeps p w.roller w.archive (w.roller.roll digit gzip p faults now) :=
    rollKeeps_roll h.roller h.archive hfree hdelete hcompress now
  have hkeeps {chunk : List UInt8} (hchunk : w.Keeps p chunk) :
      (w.rolled digit gzip p faults now ok accepted).Keeps p chunk := by
    rcases hchunk with hactive | ⟨f, hf, hchunk⟩
    · refine (hroll.active chunk hactive).imp_right fun ⟨f, hf, hchunk⟩ => ⟨f, ?_, hchunk⟩
      exact mem_rolled.mpr (.inr hf)
    · exact .inr ⟨f, mem_rolled.mpr (.inl hf), hchunk⟩
  refine ⟨hroll.roller, fun f hf => ?_, fun chunk hchunk => hkeeps ?_, fun taken now' hphase => ?_⟩
  · obtain ⟨hmem, hkept⟩ := mem_filter.mp hf
    exact hroll.archive f hmem (by simpa using hkept)
  · unfold Writing.rolled at hchunk
    dsimp only at hchunk
    split_ifs at hchunk
    · exact haccepted chunk hchunk
    · exact h.accepted chunk hchunk
  · unfold Writing.rolled at hphase
    dsimp only at hphase
    split_ifs at hphase
    · exact absurd hphase (hok taken now')

theorem Inv.begun (h : w.Inv p) (buf : List UInt8) (now : DateTime) : (w.begun p buf now).Inv p where
  roller := h.roller
  archive := h.archive
  accepted := h.accepted
  pending taken now' hphase := by
    unfold Writing.begun at hphase
    dsimp only at hphase
    split_ifs at hphase

theorem Inv.took (h : w.Inv p) {bytes : List UInt8} (hlive : w.roller.live ∨ bytes = [])
    (now : DateTime) : (w.took p bytes now).Inv p := by
  obtain ⟨hroller, hactive⟩ := h.roller.append hlive (w.roller.currentSize + bytes.length)
  have hactive : (w.took p bytes now).roller.active p = w.roller.active p ++ bytes := hactive
  have hfiles : (w.took p bytes now).roller.files = w.roller.files := w.roller.append_files bytes
  have hkeeps {chunk : List UInt8} (hchunk : w.Keeps p chunk) :
      (w.took p bytes now).Keeps p chunk := by
    refine hchunk.imp_left fun hchunk => ?_
    rw [hactive]
    exact hchunk.trans (prefix_append _ _).isInfix
  have hnew : (w.took p bytes now).Keeps p bytes := .inl (by
    rw [hactive]
    exact (suffix_append _ _).isInfix)
  refine ⟨hroller, ?_, fun chunk hchunk => ?_, fun taken now' hphase => ?_⟩
  · rw [hfiles]
    exact h.archive
  · unfold Writing.took at hchunk
    dsimp only at hchunk
    split_ifs at hchunk
    · exact hkeeps (h.accepted chunk hchunk)
    · rcases mem_append.mp hchunk with hchunk | hchunk
      · exact hkeeps (h.accepted chunk hchunk)
      · rwa [mem_singleton.mp hchunk]
  · unfold Writing.took at hphase
    dsimp only at hphase
    split_ifs at hphase
    · obtain ⟨rfl, -⟩ := Phase.rollAfter.inj hphase
      exact hnew

theorem Inv.flush (h : w.Inv p) : { w with roller := w.roller.flush p }.Inv p := by
  obtain ⟨hroller, hactive, -⟩ := h.roller.flush
  have hkeeps {chunk : List UInt8} (hchunk : w.Keeps p chunk) :
      { w with roller := w.roller.flush p }.Keeps p chunk :=
    hchunk.imp_left fun hchunk => by rwa [hactive]
  refine ⟨hroller, fun f hf => ?_, fun chunk hchunk => hkeeps (h.accepted chunk hchunk),
    fun taken now hphase => hkeeps (h.pending taken now hphase)⟩
  obtain ⟨hfile, hbase⟩ := h.archive f hf
  exact ⟨(CustomRoller.flush_of_ne hbase).trans hfile, hbase⟩

theorem Inv.step {a : WriteAction} {w' : Writing} (h : w.Inv p) (hsafe : w.Safe digit p a)
    (hstep : w.step digit gzip p a = some w') : w'.Inv p := by
  rcases step_cases hstep with ⟨buf, now, rfl, -, rfl⟩ | ⟨faults, buf, now, rfl, -, rfl⟩ |
    ⟨faults, taken, now, rfl, hphase, rfl⟩ | ⟨n, buf, now, rfl, hphase, rfl⟩ |
    ⟨buf, now, rfl, -, rfl⟩ | ⟨rfl, rfl⟩
  · exact h.begun buf now
  · -- no bytes wait for the end of this roll
    exact h.rolled hsafe _ (by simp) h.accepted
  · refine h.rolled hsafe _ (by simp) fun chunk hchunk => ?_
    rcases mem_append.mp hchunk with hchunk | hchunk
    · exact h.accepted chunk hchunk
    · rw [mem_singleton.mp hchunk]
      exact h.pending taken now hphase
  · exact h.took (hsafe.imp_right fun hnone => hnone n rfl buf now hphase) now
  · exact ⟨h.roller, h.archive, h.accepted, by simp⟩
  · exact h.flush

theorem inv_init {files : Files} {now : DateTime} (h : init p files now = some w) : w.Inv p := by
  obtain ⟨roller, hroller, rfl⟩ := map_eq_some_iff.mp h
  obtain ⟨size, hsize, rfl⟩ := map_eq_some_iff.mp hroller
  have hfile := CustomRoller.openFile_isFile hsize
  refine ⟨⟨fun hdir => ?_, fun _ => hfile, fun _ => rfl⟩, by simp, by simp, by simp⟩
  obtain ⟨bytes, hbytes⟩ := Files.isFile_iff.mp hfile
  exact absurd (hbytes.symm.trans hdir) (by simp)

/-- Along every run of safe steps, whatever fails, the bytes of every write that returned `Ok` are
in the active file or in a rolled one. -/
theorem holds_of_safe {files : Files} {now : DateTime} {w₀ : Writing}
    (h₀ : init p files now = some w₀) (h : Run (step digit gzip p) (Safe digit p) w₀ w) :
    ∀ chunk ∈ w.accepted, w.Holds p chunk := by
  have hinv : w.Inv p := h.invariant (inv_init h₀) fun _ _ _ hw hsafe hstep => hw.step hsafe hstep
  exact fun chunk hchunk => hinv.holds (hinv.accepted chunk hchunk)

/-! ### Runs -/

/-- The directory lists the active file. -/
def listing : Listing := ⟨[fourBytes.basePath], by decide⟩

/-- A size roll that cannot read the directory, and a write whose own roll goes well. -/
def scanFailed : List WriteAction :=
  [.write [1, 2, 3, 4] dayOne, .take (some 4), .roll { Faults.none listing with scans := false },
    .write [5, 6, 7, 8] dayOne, .take (some 4), .roll (.none listing)]

/-- A time roll that cannot read the directory, and the same write again. -/
def retried : List WriteAction :=
  [.write [1] dayOne, .take (some 1), .write [2] dayTwo,
    .roll { Faults.none listing with scans := false }, .write [2] dayTwo, .roll (.none listing),
    .take (some 1)]

theorem holds_of_safe_retried : ∃ w₀ w, init fourBytes (fun _ => none) dayOne = some w₀ ∧
    Run (step Char.isDigit id fourBytes) (Safe Char.isDigit fourBytes) w₀ w ∧
    w.accepted = [[1], [2]] ∧ ∀ chunk ∈ w.accepted, w.Holds fourBytes chunk := by
  have hexec : ((init fourBytes (fun _ => none) dayOne).bind fun w₀ =>
      exec (step Char.isDigit id fourBytes) (fun w a => match a with
        | .take _ => w.roller.live
        | .roll _ => w.archive.isEmpty
        | _ => true) w₀ retried).map (fun w => w.accepted) = some [[1], [2]] := by
    decide
  obtain ⟨w, hw, haccepted⟩ := Option.map_eq_some_iff.mp hexec
  obtain ⟨w₀, hw₀, hrun⟩ := Option.bind_eq_some_iff.mp hw
  have hrun : Run (step Char.isDigit id fourBytes) (Safe Char.isDigit fourBytes) w₀ w := by
    refine run_of_exec (fun w a hok => ?_) hrun
    cases a with
    | take n => exact .inl hok
    | roll faults =>
      have hnil : w.archive = [] := List.isEmpty_iff.mp hok
      exact ⟨fun _ f hf => by simp [hnil] at hf, fun e he => (List.not_mem_nil he).elim,
        fun e he => (List.not_mem_nil he).elim⟩
    | _ => trivial
  exact ⟨w₀, w, hw₀, hrun, haccepted, holds_of_safe hw₀ hrun⟩

/-- The bytes of the second write went to the null device. -/
theorem not_holds_scanFailed :
    ¬ ∀ w₀ w, init fourBytes (fun _ => none) dayOne = some w₀ →
      Reachable (step Char.isDigit id fourBytes) w₀ w →
      ∀ chunk ∈ w.accepted, w.Holds fourBytes chunk := by
  intro hall
  have hexec : ((init fourBytes (fun _ => none) dayOne).bind fun w₀ =>
      exec (step Char.isDigit id fourBytes) (fun _ _ => true) w₀ scanFailed).map (fun w =>
        decide (w.accepted = [[5, 6, 7, 8]] ∧ w.roller.active fourBytes = [] ∧
          w.archive.map Prod.snd = [[1, 2, 3, 4]] ∧ w.cleaned = [])) = some true := by
    decide
  obtain ⟨w, hw, heq⟩ := Option.map_eq_some_iff.mp hexec
  obtain ⟨w₀, hw₀, hrun⟩ := Option.bind_eq_some_iff.mp hw
  obtain ⟨haccepted, hactive, harchive, hcleaned⟩ := of_decide_eq_true heq
  have hholds := hall w₀ w hw₀ (reachable_of_exec hrun) [5, 6, 7, 8] (by simp [haccepted])
  rcases hholds with hinfix | ⟨f, hf, hinfix, -⟩ | ⟨f, hf, -⟩
  · rw [hactive] at hinfix
    exact absurd (List.eq_nil_of_infix_nil hinfix) (by decide)
  · have hmem : f.2 ∈ w.archive.map Prod.snd := List.mem_map_of_mem hf
    rw [harchive, List.mem_singleton] at hmem
    rw [hmem] at hinfix
    revert hinfix
    decide
  · rw [hcleaned] at hf
    cases hf

end Writing

end Fibre.Logging
