import Fibre.Logging.Roller

/-!
# What a roll does to the directory

Each operation of a roll changes a few names and leaves the others. A roll fails before it touches
a name, or after it renamed the active file, or it goes all the way.
-/

namespace Fibre.Logging

open List Option

namespace Files

variable {files : Files} {name n suffix : Name}

@[simp] theorem put_self (files : Files) (name : Name) (node : Option Node) :
    files.put name node name = node := Function.update_self ..

@[simp] theorem put_of_ne (h : n ≠ name) (node : Option Node) : files.put name node n = files n :=
  Function.update_of_ne h ..

theorem isFile_iff : files.isFile name ↔ ∃ bytes, files name = some (.file bytes) := by
  unfold isFile
  split
  · rename_i bytes h
    exact iff_of_true rfl ⟨bytes, h⟩
  · rename_i h
    exact iff_of_false (by simp) fun ⟨bytes, hfile⟩ => h bytes hfile

theorem isFile_congr {files' : Files} (h : files' n = files n) :
    files'.isFile n = files.isFile n := by
  rw [isFile, isFile, h]

theorem content_eq {bytes : List UInt8} (h : files n = some (.file bytes)) :
    files.content n = bytes := by
  rw [content, h]

/-! ### Renaming -/

theorem rename_of_ne {source target : Name} (hsource : n ≠ source) (htarget : n ≠ target) :
    files.rename source target n = files n := by
  unfold rename
  split_ifs
  · rw [put_of_ne hsource, put_of_ne htarget]
  · rfl

theorem rename_source (source target : Name) : files.rename source target source = none := by
  unfold rename
  split_ifs with h
  · exact put_self ..
  · simpa using h

theorem rename_target {source target : Name} (hne : target ≠ source)
    (h : (files source).isSome) : files.rename source target target = files source := by
  rw [rename, if_pos h, put_of_ne hne, put_self]

/-! ### Deleting -/

section

variable {removes : Name → Bool}

theorem remove_of_ne (h : n ≠ name) : (files.remove removes name).1 n = files n := by
  unfold remove
  split_ifs
  · exact put_of_ne h none
  · rfl

theorem mem_remove (h : n ∈ (files.remove removes name).2) : n = name := by
  unfold remove at h
  split_ifs at h
  · exact mem_singleton.mp h
  · cases h

theorem removeAll_of_notMem (removes : Name → Bool) (names : List Name) (files : Files)
    (h : n ∉ names) :
    (removeAll removes names files).1 n = files n := by
  induction names generalizing files with
  | nil => rfl
  | cons name rest ih =>
    rw [mem_cons, not_or] at h
    rw [removeAll, ih _ h.2, remove_of_ne h.1]

theorem mem_removeAll (names : List Name) (files : Files)
    (h : n ∈ (removeAll removes names files).2) : n ∈ names := by
  induction names generalizing files with
  | nil => cases h
  | cons name rest ih =>
    rcases mem_append.mp h with h | h
    · rw [mem_remove h]
      exact mem_cons_self
    · exact mem_cons_of_mem _ (ih _ h)

theorem removeAll_of_kept (names : List Name) (files : Files)
    (h : n ∉ (removeAll removes names files).2) : (removeAll removes names files).1 n = files n := by
  induction names generalizing files with
  | nil => rfl
  | cons name rest ih =>
    rw [removeAll, mem_append, not_or] at h
    refine (ih _ h.2).trans ?_
    by_cases hn : n = name
    · subst hn
      have hkept := h.1
      unfold remove at hkept ⊢
      split_ifs at hkept ⊢
      · exact absurd mem_cons_self hkept
      · rfl
    · exact remove_of_ne hn

theorem removeAll_directory (names : List Name) (files : Files)
    (h : files n = some .directory) : (removeAll removes names files).1 n = some .directory := by
  induction names generalizing files with
  | nil => exact h
  | cons name rest ih =>
    refine ih _ ?_
    unfold remove
    split_ifs with hremoves
    · -- what is deleted is a file
      have hn : n ≠ name := fun heq => by
        subst heq
        simp [isFile, h] at hremoves
      exact (put_of_ne hn none).trans h
    · exact h

theorem mem_removeAll_of_mem (names : List Name) (files : Files) (hmem : n ∈ names)
    (hremoves : removes n) (hfile : files.isFile n) : n ∈ (removeAll removes names files).2 := by
  induction names generalizing files with
  | nil => cases hmem
  | cons name rest ih =>
    rw [removeAll, mem_append]
    by_cases hname : n = name
    · subst hname
      rw [remove, hremoves, hfile]
      exact .inl mem_cons_self
    · refine .inr (ih _ ((mem_cons.mp hmem).resolve_left hname) ?_)
      rwa [isFile_congr (remove_of_ne hname)]

theorem removeAll_none (removes : Name → Bool) (names : List Name) (files : Files)
    (h : ∀ n ∈ names, removes n = false) :
    removeAll removes names files = (files, []) := by
  induction names with
  | nil => rfl
  | cons name rest ih =>
    have hname : files.remove removes name = (files, []) := by
      rw [remove, h name mem_cons_self, Bool.false_and]
      rfl
    rw [removeAll, hname, ih fun n hn => h n (mem_cons_of_mem _ hn), nil_append]

end

/-! ### Compressing -/

section

variable {gzip : List UInt8 → List UInt8} {compresses : Name → Compressing}

theorem compress_of_ne (h : n ≠ name) (hsuffix : n ≠ name ++ suffix) :
    (files.compress gzip suffix compresses name).1 n = files n := by
  unfold compress
  split
  · split_ifs
    · rfl
    · split
      · exact (put_of_ne h _).trans (put_of_ne hsuffix _)
      · exact put_of_ne hsuffix _
      · rfl
      · exact put_of_ne hsuffix _
  · rfl

theorem mem_compress (gzip : List UInt8 → List UInt8) (compresses : Name → Compressing)
    (files : Files) (name suffix : Name) :
    (∀ n ∈ (files.compress gzip suffix compresses name).2.1,
      n = name ∧ files (name ++ suffix) ≠ some .directory) ∧
    ∀ n ∈ (files.compress gzip suffix compresses name).2.2,
      n = name ++ suffix ∧ files (name ++ suffix) ≠ some .directory := by
  unfold compress
  split
  · split_ifs with hdir
    · simp
    · split <;> simp [hdir]
  · simp

theorem compress_of_directory (h : files (name ++ suffix) = some .directory) :
    files.compress gzip suffix compresses name = (files, [], []) := by
  unfold compress
  split
  · rw [if_pos h]
  · rfl

theorem compress_directory (h : files n = some .directory) :
    (files.compress gzip suffix compresses name).1 n = some .directory := by
  by_cases hput : n = name ++ suffix
  · rw [compress_of_directory (hput ▸ h)]
    exact h
  · by_cases hn : n = name
    · subst hn
      rw [compress, h]
      exact h
    · rw [compress_of_ne hn hput, h]

theorem compressAll_of_notMem (gzip : List UInt8 → List UInt8) (suffix : Name)
    (compresses : Name → Compressing) (names : List Name) (files : Files)
    (h : ∀ name ∈ names, files (name ++ suffix) = some .directory ∨
      n ≠ name ∧ n ≠ name ++ suffix) :
    (compressAll gzip suffix compresses names files).1 n = files n := by
  induction names generalizing files with
  | nil => rfl
  | cons name rest ih =>
    have hrest := ih (files.compress gzip suffix compresses name).1 fun m hm =>
      (h m (mem_cons_of_mem _ hm)).imp_left compress_directory
    rw [compressAll, hrest]
    rcases h name mem_cons_self with hdir | ⟨hname, hput⟩
    · rw [compress_of_directory hdir]
    · exact compress_of_ne hname hput

theorem mem_compressAll (names : List Name) (files : Files) :
    (∀ n ∈ (compressAll gzip suffix compresses names files).2.1,
      n ∈ names ∧ files (n ++ suffix) ≠ some .directory) ∧
    ∀ n ∈ (compressAll gzip suffix compresses names files).2.2, ∃ m ∈ names,
      n = m ++ suffix ∧ files (m ++ suffix) ≠ some .directory := by
  induction names generalizing files with
  | nil => exact ⟨fun n hn => (not_mem_nil hn).elim, fun n hn => (not_mem_nil hn).elim⟩
  | cons name rest ih =>
    obtain ⟨hcompressed, hwritten⟩ := ih (files.compress gzip suffix compresses name).1
    obtain ⟨hname, hput⟩ := mem_compress gzip compresses files name suffix
    constructor
    · intro n hn
      rcases mem_append.mp hn with hn | hn
      · obtain ⟨rfl, hdir⟩ := hname n hn
        exact ⟨mem_cons_self, hdir⟩
      · obtain ⟨hmem, hdir⟩ := hcompressed n hn
        exact ⟨mem_cons_of_mem _ hmem, mt compress_directory hdir⟩
    · intro n hn
      rcases mem_append.mp hn with hn | hn
      · exact ⟨name, mem_cons_self, hput n hn⟩
      · obtain ⟨m, hm, hn, hdir⟩ := hwritten n hn
        exact ⟨m, mem_cons_of_mem _ hm, hn, mt compress_directory hdir⟩

theorem compressAll_of_kept (names : List Name) (files : Files)
    (h : n ∉ (compressAll gzip suffix compresses names files).2.1)
    (hsuffix : ∀ name ∈ names, n ≠ name ++ suffix) :
    (compressAll gzip suffix compresses names files).1 n = files n := by
  induction names generalizing files with
  | nil => rfl
  | cons name rest ih =>
    rw [compressAll, mem_append, not_or] at h
    refine (ih _ h.2 fun m hm => hsuffix m (mem_cons_of_mem _ hm)).trans ?_
    by_cases hn : n = name
    · subst hn
      have hkept := h.1
      have hput := hsuffix n mem_cons_self
      unfold compress at hkept ⊢
      split at hkept
      · split_ifs at hkept ⊢
        · rfl
        · split at hkept
          · exact absurd mem_cons_self hkept
          · exact absurd mem_cons_self hkept
          · rfl
          · exact put_of_ne hput _
      · rfl
    · exact compress_of_ne hn (hsuffix name mem_cons_self)

theorem compress_failed (h : compresses name = .failed none) :
    files.compress gzip suffix compresses name = (files, [], []) := by
  unfold compress
  rw [h]
  split
  · split_ifs <;> rfl
  · rfl

theorem compressAll_only (gzip : List UInt8 → List UInt8) (suffix : Name)
    (compresses : Name → Compressing) (files : Files) {names : List Name} (hmem : name ∈ names)
    (hothers : ∀ n ≠ name, compresses n = .failed none) :
    ∃ rest, compressAll gzip suffix compresses names files =
        (let r := files.compress gzip suffix compresses name
         let t := compressAll gzip suffix compresses rest r.1
         (t.1, r.2.1 ++ t.2.1, r.2.2 ++ t.2.2)) := by
  induction names with
  | nil => cases hmem
  | cons m rest ih =>
    by_cases hm : m = name
    · exact ⟨rest, by rw [hm, compressAll]⟩
    · obtain ⟨tail, ih⟩ := ih ((mem_cons.mp hmem).resolve_left (Ne.symm hm))
      exact ⟨tail, by rw [compressAll, compress_failed (hothers m hm)]; simpa using ih⟩

theorem compressAll_left {left : List UInt8} (names : List Name) (files : Files)
    (hleft : compresses name = .failed (some left))
    (hothers : ∀ n ≠ name, compresses n = .failed none)
    (h : files (name ++ suffix) = some (.file left)) :
    (compressAll gzip suffix compresses names files).1 (name ++ suffix) = some (.file left) := by
  induction names generalizing files with
  | nil => exact h
  | cons m rest ih =>
    refine ih _ ?_
    by_cases hm : m = name
    · subst hm
      rw [compress, hleft]
      split
      · rw [if_neg (by rw [h]; simp)]
        exact put_self ..
      · exact h
    · rw [compress_failed (hothers m hm)]
      exact h

end

end Files

namespace RollingPolicy

variable {digit : Char → Bool} {p : RollingPolicy} {files : Files} {order : Listing}

theorem parseName_path {name : Name} {e : RolledFile} (h : p.parseName digit name = some e) :
    e.path = name := by
  unfold parseName at h
  split_ifs at h
  simp only [bind_eq_bind, bind_eq_some_iff] at h
  obtain ⟨_, -, _, -, _, -, h⟩ := h
  rw [← Option.some.inj h]

theorem mem_scanned {e : RolledFile} (h : e ∈ p.scanned digit files order) :
    files.isFile e.path ∧ IsFileName e.path := by
  obtain ⟨name, hname, hparse⟩ := mem_filterMap.mp h
  rw [parseName_path hparse]
  simpa using (mem_filter.mp hname).2

theorem nodup_scanned : (p.scanned digit files order).Nodup := by
  refine (order.nodup.filter _).filterMap fun name name' e h h' => ?_
  rw [← parseName_path h, parseName_path h']

theorem nextSequence_lt (period : DateTime) (rolled : List RolledFile) :
    p.nextSequence period rolled < 2 ^ 32 := Nat.mod_lt _ (by decide)

end RollingPolicy

namespace CustomRoller

variable {digit : Char → Bool} {gzip : List UInt8 → List UInt8} {p : RollingPolicy}
variable {s : CustomRoller} {n : Name}

/-! ### The active file -/

@[simp] theorem append_files (s : CustomRoller) (bytes : List UInt8) :
    (s.append bytes).files = s.files := by
  unfold append
  split_ifs <;> rfl

@[simp] theorem append_live (s : CustomRoller) (bytes : List UInt8) :
    (s.append bytes).live = s.live := by
  unfold append
  split_ifs <;> rfl

@[simp] theorem append_currentPeriodStart (s : CustomRoller) (bytes : List UInt8) :
    (s.append bytes).currentPeriodStart = s.currentPeriodStart := by
  unfold append
  split_ifs <;> rfl

theorem append_buffer (s : CustomRoller) (bytes : List UInt8) :
    (s.append bytes).buffer = if s.live then s.buffer ++ bytes else s.buffer := by
  unfold append
  split_ifs <;> rfl

theorem flush_of_ne (h : n ≠ p.basePath) : (s.flush p).files n = s.files n := by
  unfold flush
  split
  · exact Files.put_of_ne h _
  · rfl

theorem isFile_flush (s : CustomRoller) (n : Name) : (s.flush p).files.isFile n =
    s.files.isFile n := by
  unfold flush
  split
  · rename_i bytes _ hbase
    by_cases hn : n = p.basePath
    · subst hn
      simp [Files.isFile, hbase]
    · exact Files.isFile_congr (Files.put_of_ne hn _)
  · rfl

theorem isSome_flush (s : CustomRoller) (n : Name) : ((s.flush p).files n).isSome =
    (s.files n).isSome := by
  unfold flush
  split
  · rename_i bytes _ hbase
    by_cases hn : n = p.basePath
    · subst hn
      simp [hbase]
    · exact congrArg Option.isSome (Files.put_of_ne hn _)
  · rfl

theorem openFile_of_ne {faults : Faults} {files : Files} (h : n ≠ p.basePath) :
    (openFile p faults files).1 n = files n := by
  unfold openFile
  cases faults.reopens with
  | false => rfl
  | true =>
    cases files p.basePath with
    | none => exact Files.put_of_ne h _
    | some node => cases node <;> rfl

theorem openFile_isFile {faults : Faults} {files : Files} {size : ℕ}
    (h : (openFile p faults files).2 = some size) :
    (openFile p faults files).1.isFile p.basePath := by
  unfold openFile at h ⊢
  cases hreopens : faults.reopens with
  | false => simp [hreopens] at h
  | true =>
    cases hbase : files p.basePath with
    | none => simp [Files.isFile]
    | some node =>
      cases node with
      | file bytes => simp [Files.isFile, hbase]
      | directory => simp [hreopens, hbase] at h

theorem openFile_content (faults : Faults) (files : Files) :
    (openFile p faults files).1.content p.basePath = files.content p.basePath := by
  unfold openFile
  cases faults.reopens with
  | false => rfl
  | true =>
    cases hbase : files p.basePath with
    | none => simp [Files.content, hbase]
    | some node => cases node <;> rfl

theorem flush_currentPeriodStart (s : CustomRoller) :
    (s.flush p).currentPeriodStart = s.currentPeriodStart := by
  unfold flush
  split <;> rfl

theorem flush_live (s : CustomRoller) : (s.flush p).live = s.live := by
  unfold flush
  split <;> rfl

theorem closed_currentPeriodStart (s : CustomRoller) :
    (s.closed p).currentPeriodStart = s.currentPeriodStart := flush_currentPeriodStart s

theorem findRolledFiles_closed (s : CustomRoller) (order : Listing) :
    p.findRolledFiles digit (s.closed p).files order = p.findRolledFiles digit s.files order := by
  have hfile (n : Name) : (s.closed p).files.isFile n = s.files.isFile n := isFile_flush s n
  simp only [RollingPolicy.findRolledFiles, RollingPolicy.scanned, hfile]

theorem rollTarget_closed (s : CustomRoller) (order : Listing) :
    (s.closed p).rollTarget digit p order = s.rollTarget digit p order := by
  rw [rollTarget, closed_currentPeriodStart, findRolledFiles_closed, rollTarget]

theorem allFiles_closed (s : CustomRoller) (order : Listing) :
    (s.closed p).allFiles digit p order = s.allFiles digit p order := by
  simp only [allFiles, closed_currentPeriodStart, findRolledFiles_closed, rollTarget_closed]

theorem rollTarget_ne_basePath (s : CustomRoller) (order : Listing) :
    s.rollTarget digit p order ≠ p.basePath := by
  intro h
  have hlen := congrArg List.length h
  simp only [rollTarget, RollingPolicy.rolledPath, RollingPolicy.basePath, length_append,
    length_cons] at hlen
  omega

theorem cleanup_of_kept {faults : Faults} {files : Files} {sorted : List RolledFile}
    (hdeleted : n ∉ (cleanup gzip p faults files sorted).2.1)
    (hcompressed : n ∉ (cleanup gzip p faults files sorted).2.2.1)
    (hwritten : ∀ e ∈ p.toCompress sorted, n ≠ e.path ++ p.compressedSuffix) :
    (cleanup gzip p faults files sorted).1 n = files n := by
  have hput : ∀ name ∈ (p.toCompress sorted).map RolledFile.path,
      n ≠ name ++ p.compressedSuffix := by
    rintro _ hname rfl
    obtain ⟨e, he, rfl⟩ := mem_map.mp hname
    exact hwritten e he rfl
  exact (Files.compressAll_of_kept _ _ hcompressed hput).trans
    (Files.removeAll_of_kept _ _ hdeleted)

theorem mem_cleanup {faults : Faults} {files : Files} {sorted : List RolledFile} :
    (n ∈ (cleanup gzip p faults files sorted).2.1 → ∃ e ∈ p.toDelete sorted, e.path = n) ∧
    (n ∈ (cleanup gzip p faults files sorted).2.2.1 → ∃ e ∈ p.toCompress sorted, e.path = n) := by
  refine ⟨fun hn => mem_map.mp (Files.mem_removeAll _ _ hn), fun hn => ?_⟩
  exact mem_map.mp ((Files.mem_compressAll _ _).1 n hn).1

/-! ### The writer and its file -/

def active (p : RollingPolicy) (s : CustomRoller) : List UInt8 :=
  s.files.content p.basePath ++ s.buffer

/-- The writer writes to the active file, or to nowhere. -/
structure WellFormed (p : RollingPolicy) (s : CustomRoller) : Prop where
  base : s.files p.basePath ≠ some .directory
  live : s.live → s.files.isFile p.basePath
  dead : s.live = false → s.buffer = []

theorem flush_eq_of_live {bytes : List UInt8} (hlive : s.live)
    (hbase : s.files p.basePath = some (.file bytes)) :
    s.flush p = { s with
      files := s.files.put p.basePath (some (.file (bytes ++ s.buffer)))
      buffer := [] } := by
  simp only [flush, hlive, hbase]

theorem flush_eq_of_dead (h : s.live = false) : s.flush p = { s with buffer := [] } := by
  simp only [flush, h]

namespace WellFormed

theorem flush (h : s.WellFormed p) : (s.flush p).WellFormed p ∧
    (s.flush p).active p = s.active p ∧ (s.flush p).buffer = [] := by
  cases hlive : s.live with
  | false =>
    rw [flush_eq_of_dead hlive, active, active, h.dead hlive]
    exact ⟨⟨h.base, fun hl => by simp [hlive] at hl, fun _ => rfl⟩, rfl, rfl⟩
  | true =>
    obtain ⟨bytes, hbase⟩ := Files.isFile_iff.mp (h.live hlive)
    rw [flush_eq_of_live hlive hbase, active, active]
    refine ⟨⟨by simp, fun _ => Files.isFile_iff.mpr ⟨_, Files.put_self ..⟩, fun _ => rfl⟩, ?_, rfl⟩
    simp [Files.content, hbase]

theorem append (h : s.WellFormed p) {bytes : List UInt8} (hlive : s.live ∨ bytes = []) (size : ℕ) :
    { s.append bytes with currentSize := size }.WellFormed p ∧
      { s.append bytes with currentSize := size }.active p = s.active p ++ bytes := by
  refine ⟨⟨?_, ?_, fun hdead => ?_⟩, ?_⟩
  · rw [append_files]
    exact h.base
  · rw [append_files, append_live]
    exact h.live
  · rw [append_live] at hdead
    rw [append_buffer, hdead, if_neg Bool.false_ne_true]
    exact h.dead hdead
  · rw [active, active, append_files, append_buffer, append_assoc]
    rcases hlive with hlive | rfl
    · rw [if_pos hlive]
    · simp

theorem closed (h : s.WellFormed p) : (s.closed p).WellFormed p ∧
    (s.closed p).active p = s.active p ∧
    (s.closed p).files.content p.basePath = s.active p := by
  obtain ⟨hflush, hactive, hbuffer⟩ := h.flush
  refine ⟨⟨hflush.base, fun hl => by simp [CustomRoller.closed] at hl, fun _ => hbuffer⟩,
    hactive, ?_⟩
  rw [← hactive, active, hbuffer, append_nil]
  rfl

end WellFormed

/-! ### The ends of a roll -/

/-- The directory when the active file is renamed. -/
def moved (digit : Char → Bool) (p : RollingPolicy) (s : CustomRoller) (order : Listing) : Files :=
  (s.closed p).files.rename p.basePath ((s.closed p).rollTarget digit p order)

def renames (digit : Char → Bool) (p : RollingPolicy) (s : CustomRoller) (order : Listing) :
    Option (Name × Name) :=
  if ((s.closed p).files p.basePath).isSome then
    some (p.basePath, (s.closed p).rollTarget digit p order)
  else none

/-- The rename is refused. -/
def Blocked (digit : Char → Bool) (p : RollingPolicy) (s : CustomRoller) (order : Listing) : Prop :=
  ((s.closed p).files p.basePath).isSome ∧
    (s.closed p).files.mayRename p.basePath ((s.closed p).rollTarget digit p order) = false

variable (digit gzip p s)

/-- A roll does nothing; or closes the writer, and nothing more; or renames, and cannot open the
active file again; or goes well. -/
theorem roll_cases (faults : Faults) (now : DateTime) :
    (faults.opensNull = false ∧ s.roll digit gzip p faults now = (false, s, .nothing)) ∨
    ((faults.scans = false ∨ faults.renames = false ∨ s.Blocked digit p faults.order) ∧
      s.roll digit gzip p faults now = (false, s.closed p, .nothing)) ∨
    (¬ s.Blocked digit p faults.order ∧
      ((openFile p faults (s.moved digit p faults.order)).2 = none ∧
        s.roll digit gzip p faults now =
          (false, { s.closed p with files := (openFile p faults (s.moved digit p faults.order)).1 },
            { Effects.nothing with renamed := s.renames digit p faults.order }) ∨
      ∃ size, (openFile p faults (s.moved digit p faults.order)).2 = some size ∧
        s.roll digit gzip p faults now =
          (let c := cleanup gzip p faults (openFile p faults (s.moved digit p faults.order)).1
            ((s.closed p).allFiles digit p faults.order)
          (true, { s.closed p with
            files := c.1
            live := true
            currentSize := size
            currentPeriodStart := RollingPolicy.calculatePeriodStart now p },
            ⟨s.renames digit p faults.order, c.2.1, c.2.2.1, c.2.2.2⟩)))) := by
  by_cases hnull : faults.opensNull = false
  · exact .inl ⟨hnull, by rw [roll, hnull]; rfl⟩
  by_cases hscan : faults.scans = false
  · refine .inr (.inl ⟨.inl hscan, ?_⟩)
    rw [roll, hscan, Bool.eq_true_of_not_eq_false hnull]
    rfl
  by_cases hrename : ((s.closed p).files p.basePath).isSome && !(faults.renames &&
      (s.closed p).files.mayRename p.basePath ((s.closed p).rollTarget digit p faults.order))
  · refine .inr (.inl ⟨.inr ?_, by simp only [roll, hnull, hscan, hrename]; rfl⟩)
    simp only [Bool.and_eq_true, Bool.not_eq_true', Bool.and_eq_false_iff] at hrename
    exact hrename.2.imp_right fun h => ⟨hrename.1, h⟩
  refine .inr (.inr ⟨?_, ?_⟩)
  · rintro ⟨hpresent, hblocked⟩
    rw [hpresent, hblocked] at hrename
    simp at hrename
  · unfold moved renames
    cases hopen : (openFile p faults ((s.closed p).files.rename p.basePath
        ((s.closed p).rollTarget digit p faults.order))).2 with
    | none => exact .inl ⟨rfl, by simp only [roll, hnull, hscan, hrename, hopen]; rfl⟩
    | some size => exact .inr ⟨size, rfl, by simp only [roll, hnull, hscan, hrename, hopen]; rfl⟩

theorem moved_basePath (order : Listing) : s.moved digit p order p.basePath = none :=
  Files.rename_source ..

theorem openFile_moved (faults : Faults) :
    openFile p faults (s.moved digit p faults.order) =
      if faults.reopens then ((s.moved digit p faults.order).put p.basePath (some (.file [])),
        if faults.sizes then some 0 else none)
      else (s.moved digit p faults.order, none) := by
  rw [openFile, moved_basePath]
  cases faults.reopens <;> rfl

/-- The files when cleaning up begins. -/
def opened (order : Listing) : Files := (s.moved digit p order).put p.basePath (some (.file []))

theorem roll_of_clear {faults : Faults} {order : Listing} (horder : faults.order = order)
    (hclear : ¬ s.Blocked digit p order) (hnull : faults.opensNull) (hscans : faults.scans)
    (hrenames : faults.renames) (hreopens : faults.reopens) (hsizes : faults.sizes)
    (now : DateTime) :
    s.roll digit gzip p faults now =
      (let c := cleanup gzip p faults (s.opened digit p order) ((s.closed p).allFiles digit p order)
      (true, { s.closed p with
        files := c.1
        live := true
        currentSize := 0
        currentPeriodStart := RollingPolicy.calculatePeriodStart now p },
        ⟨s.renames digit p order, c.2.1, c.2.2.1, c.2.2.2⟩)) := by
  subst horder
  have hopen := openFile_moved digit p s faults
  rw [hreopens, hsizes, if_pos rfl, if_pos rfl] at hopen
  rcases roll_cases digit gzip p s faults now with
    ⟨h, -⟩ | ⟨h, -⟩ | ⟨-, ⟨h, -⟩ | ⟨size, hsize, hroll⟩⟩
  · simp [hnull] at h
  · simp [hscans, hrenames, hclear] at h
  · simp [hopen] at h
  · rw [hopen] at hsize
    obtain rfl := Option.some.inj hsize
    rw [hroll, hopen]
    rfl

end CustomRoller

/-! ### A policy -/

/-- Files of four bytes, one period a day, and nothing is cleaned up. -/
def fourBytes : RollingPolicy where
  fileNamePrefix := ['t', 'e', 's', 't']
  fileNameSuffix := ['.', 'l', 'o', 'g']
  timeGranularity := .daily
  maxFileSize := some 4
  maxRetainedSequences := none
  compression := none

theorem valid_dayOne : validDate 2024 1 1 = true := by decide

theorem valid_dayTwo : validDate 2024 1 2 = true := by decide

def dayOne : DateTime := .midnight ⟨2024, 1, 1, by decide⟩

def dayTwo : DateTime := .midnight ⟨2024, 1, 2, by decide⟩

end Fibre.Logging
