import Fibre.Logging.RollSteps

/-!
# Whose files a roll touches

A policy owns its active file and the files it rolled, compressed or not. The scan takes a file for
a rolled one if its name starts with the prefix and holds a date and a number somewhere. The names
of others can do so too, and cleaning up then deletes or compresses them.

A roll keeps to its own files, whatever fails, exactly if it is bound to fail before it cleans up,
or no file of others that the scan finds is beyond the limits.
-/

namespace Fibre.Logging

open List

namespace RollingPolicy

variable {digit : Char → Bool} {p : RollingPolicy} {files : Files} {order : Listing}

/-- The active file, and the rolled ones. -/
def Own (p : RollingPolicy) (name : Name) : Prop :=
  name = p.basePath ∨ ∃ t, ∃ sequence < 2 ^ 32,
    name = p.rolledPath t sequence ∨ name = p.rolledPath t sequence ++ p.compressedSuffix

theorem own_basePath : p.Own p.basePath := .inl rfl

theorem mem_of_mem_toDelete {sorted : List RolledFile} {e : RolledFile}
    (h : e ∈ p.toDelete sorted) : e ∈ sorted := by
  unfold toDelete at h
  split at h
  · exact mem_of_mem_drop h
  · cases h

theorem toCompress_sublist (p : RollingPolicy) (sorted : List RolledFile) :
    (p.toCompress sorted).Sublist sorted := by
  cases hc : p.compression with
  | none =>
    simp only [toCompress, hc]
    exact nil_sublist _
  | some c =>
    simp only [toCompress, hc]
    refine filter_sublist.trans ((drop_sublist _ _).trans ?_)
    split
    · exact take_sublist _ _
    · exact Sublist.refl _

theorem mem_of_mem_toCompress {sorted : List RolledFile} {e : RolledFile}
    (h : e ∈ p.toCompress sorted) : e ∈ sorted := (p.toCompress_sublist sorted).subset h

theorem fileName_eq {path : Name} (h : IsFileName path) : fileName path = path := by
  have hslash : '/' ∉ path := by simpa [IsFileName] using h
  exact rtakeWhile_eq_self_iff.mpr fun c hc => decide_eq_true fun heq => hslash (heq ▸ hc)

end RollingPolicy

namespace CustomRoller

section

variable (digit : Char → Bool) (p : RollingPolicy) (s : CustomRoller) (order : Listing)

def rolling : RolledFile :=
  ⟨s.currentPeriodStart,
    p.nextSequence s.currentPeriodStart (p.findRolledFiles digit s.files order),
    s.rollTarget digit p order, false⟩

/-- The files a roll cleans up among, as the directory lists them. -/
def candidates : List RolledFile := p.scanned digit s.files order ++ [s.rolling digit p order]

/-- How many of them are newer. -/
def place (e : RolledFile) : ℕ := StableSort.rank RolledFile.key (s.candidates digit p order) e

/-- The entry is beyond the retention limit. -/
def Deletes (e : RolledFile) : Prop :=
  ∃ n ∈ p.maxRetainedSequences, n ≤ s.place digit p order e

/-- The entry is retained, and compression is called for, with no directory in the way. -/
def Compresses (e : RolledFile) : Prop :=
  (∀ n ∈ p.maxRetainedSequences, s.place digit p order e < n) ∧
  (∃ c ∈ p.compression, c.maxUncompressedSequences ≤ s.place digit p order e) ∧
  e.isCompressed = false ∧ p.fileNameSuffix <:+ e.path ∧
  s.moved digit p order (e.path ++ p.compressedSuffix) ≠ some .directory

/-- The limits reach no file of others: none is deleted or compressed, and none is in the way of a
compression. -/
def Spares : Prop :=
  ∀ e ∈ p.scanned digit s.files order,
    (¬ p.Own e.path → ¬ s.Deletes digit p order e ∧ ¬ s.Compresses digit p order e) ∧
    (s.Compresses digit p order e → s.files.isFile (e.path ++ p.compressedSuffix) →
      p.Own (e.path ++ p.compressedSuffix))

end

/-- A roll touches only the policy's own files. -/
structure KeepsTo (p : RollingPolicy) (files : Files) (r : Bool × CustomRoller × Effects) :
    Prop where
  renamed : ∀ x ∈ r.2.2.renamed, p.Own x.1 ∧ p.Own x.2
  deleted : ∀ name ∈ r.2.2.deleted, p.Own name
  compressed : ∀ name ∈ r.2.2.compressed, p.Own name
  others : ∀ name, files.isFile name → ¬ p.Own name → r.2.1.files name = files name

section

variable {digit : Char → Bool} {gzip : List UInt8 → List UInt8} {p : RollingPolicy}
variable {s : CustomRoller} {order : Listing} {e : RolledFile}

/-! ### Places -/

theorem own_rollTarget (s : CustomRoller) (order : Listing) :
    p.Own (s.rollTarget digit p order) :=
  .inr ⟨_, _, RollingPolicy.nextSequence_lt .., .inl rfl⟩

theorem own_rollTarget_compressed (s : CustomRoller) (order : Listing) :
    p.Own (s.rollTarget digit p order ++ p.compressedSuffix) :=
  .inr ⟨_, _, RollingPolicy.nextSequence_lt .., .inr rfl⟩

theorem allFiles_eq : (s.closed p).allFiles digit p order =
    sortFiles (p.findRolledFiles digit s.files order ++ [s.rolling digit p order]) := by
  rw [allFiles_closed, allFiles, rolling]

theorem mem_allFiles (h : e ∈ (s.closed p).allFiles digit p order) :
    e ∈ p.scanned digit s.files order ∨ e = s.rolling digit p order := by
  rw [allFiles_eq, sortFiles, StableSort.mem_sortDesc, mem_append,
    RollingPolicy.findRolledFiles, sortFiles, StableSort.mem_sortDesc, mem_singleton] at h
  exact h

theorem count_found (h : e ∈ p.scanned digit s.files order) (hne : e ≠ s.rolling digit p order) :
    (p.findRolledFiles digit s.files order ++ [s.rolling digit p order]).count e = 1 := by
  have hone : (p.findRolledFiles digit s.files order).count e = 1 := by
    rw [RollingPolicy.findRolledFiles, sortFiles, (StableSort.perm_sortDesc _).count_eq]
    exact count_eq_one_of_mem RollingPolicy.nodup_scanned h
  rw [count_append, hone, count_singleton, if_neg (by simpa using hne.symm)]

theorem mem_toDelete
    (hcount : (p.findRolledFiles digit s.files order ++ [s.rolling digit p order]).count e = 1) :
    e ∈ p.toDelete ((s.closed p).allFiles digit p order) ↔ s.Deletes digit p order e := by
  have hrank := StableSort.rank_sortDesc_append RolledFile.key
    (p.scanned digit s.files order) [s.rolling digit p order] e
  rw [allFiles_eq, RollingPolicy.toDelete, Deletes]
  cases p.maxRetainedSequences with
  | none => simp
  | some n =>
    have hmem := StableSort.mem_drop_sortDesc RolledFile.key hcount n
    simp only [Option.mem_def, Option.some.injEq, exists_eq_left', place, candidates, ← hrank]
    exact hmem

theorem mem_toCompress
    (hcount : (p.findRolledFiles digit s.files order ++ [s.rolling digit p order]).count e = 1)
    (hfile : RollingPolicy.IsFileName e.path) :
    e ∈ p.toCompress ((s.closed p).allFiles digit p order) ↔
      (∀ n ∈ p.maxRetainedSequences, s.place digit p order e < n) ∧
      (∃ c ∈ p.compression, c.maxUncompressedSequences ≤ s.place digit p order e) ∧
      e.isCompressed = false ∧ p.fileNameSuffix <:+ e.path := by
  have hrank := StableSort.rank_sortDesc_append RolledFile.key
    (p.scanned digit s.files order) [s.rolling digit p order] e
  have hname := RollingPolicy.fileName_eq hfile
  rw [allFiles_eq, RollingPolicy.toCompress, place, candidates, ← hrank]
  cases p.compression with
  | none => simp
  | some c =>
    cases p.maxRetainedSequences with
    | none =>
      have hmem := StableSort.mem_drop_sortDesc RolledFile.key hcount
        c.maxUncompressedSequences
      simp only [mem_filter, hname, sortFiles, hmem]
      simp [RollingPolicy.findRolledFiles, sortFiles]
    | some n =>
      have hmem := StableSort.mem_drop_take_sortDesc RolledFile.key hcount
        c.maxUncompressedSequences n
      simp only [mem_filter, hname, sortFiles, hmem]
      simp [RollingPolicy.findRolledFiles, sortFiles]
      tauto

/-! ### Every roll -/

theorem keepsTo_of_nothing {r : Bool × CustomRoller × Effects} {files : Files}
    (heffects : r.2.2 = .nothing) (hfiles : ∀ n ≠ p.basePath, r.2.1.files n = files n) :
    KeepsTo p files r where
  renamed x hx := by
    rw [heffects] at hx
    cases hx
  deleted name hname := by
    rw [heffects] at hname
    cases hname
  compressed name hname := by
    rw [heffects] at hname
    cases hname
  others name _ hown := hfiles name fun h => hown (h ▸ RollingPolicy.own_basePath)

theorem own_renames {x : Name × Name} (hx : x ∈ s.renames digit p order) :
    p.Own x.1 ∧ p.Own x.2 := by
  unfold renames at hx
  split_ifs at hx
  · obtain rfl := Option.some.inj hx
    exact ⟨RollingPolicy.own_basePath, own_rollTarget ..⟩
  · cases hx

theorem moved_of_not_own {n : Name} (h : ¬ p.Own n) : s.moved digit p order n = s.files n := by
  have hbase : n ≠ p.basePath := fun heq => h (heq ▸ RollingPolicy.own_basePath)
  have htarget : n ≠ (s.closed p).rollTarget digit p order := fun heq => h (heq ▸ own_rollTarget ..)
  exact (Files.rename_of_ne hbase htarget).trans (flush_of_ne hbase)

theorem own_of_mem_toDelete (hspares : s.Spares digit p order) {name : Name}
    (h : name ∈ (p.toDelete ((s.closed p).allFiles digit p order)).map RolledFile.path) :
    p.Own name := by
  obtain ⟨e, he, rfl⟩ := mem_map.mp h
  by_contra hown
  have hne : e ≠ s.rolling digit p order := fun heq => hown (heq ▸ own_rollTarget ..)
  have hfound := (mem_allFiles (RollingPolicy.mem_of_mem_toDelete he)).resolve_right hne
  exact ((hspares e hfound).1 hown).1 ((mem_toDelete (count_found hfound hne)).mp he)

theorem own_of_mem_toCompress (hspares : s.Spares digit p order) {name : Name}
    (h : name ∈ (p.toCompress ((s.closed p).allFiles digit p order)).map RolledFile.path)
    (hdir : s.moved digit p order (name ++ p.compressedSuffix) ≠ some .directory) :
    p.Own name ∧ (s.files.isFile (name ++ p.compressedSuffix) →
      p.Own (name ++ p.compressedSuffix)) := by
  obtain ⟨e, he, rfl⟩ := mem_map.mp h
  rcases eq_or_ne e (s.rolling digit p order) with rfl | hne
  · exact ⟨own_rollTarget .., fun _ => own_rollTarget_compressed ..⟩
  · have hfound := (mem_allFiles (RollingPolicy.mem_of_mem_toCompress he)).resolve_right hne
    obtain ⟨hretained, hlimit, hplain, hsuffix⟩ := (mem_toCompress (count_found hfound hne)
      (RollingPolicy.mem_scanned hfound).2).mp he
    have hcompresses : s.Compresses digit p order e := ⟨hretained, hlimit, hplain, hsuffix, hdir⟩
    exact ⟨by_contra fun hown => ((hspares e hfound).1 hown).2 hcompresses,
      (hspares e hfound).2 hcompresses⟩

theorem keepsTo_cleanup (hspares : s.Spares digit p order) (faults : Faults) {files : Files}
    (hopened : ∀ n ≠ p.basePath, files n = s.moved digit p order n) (roller : CustomRoller)
    (ok : Bool)
    (hroller : roller.files =
      (cleanup gzip p faults files ((s.closed p).allFiles digit p order)).1) :
    let c := cleanup gzip p faults files ((s.closed p).allFiles digit p order)
    KeepsTo p s.files (ok, roller, ⟨s.renames digit p order, c.2.1, c.2.2.1, c.2.2.2⟩) := by
  have hdelete : ∀ name ∈ (p.toDelete ((s.closed p).allFiles digit p order)).map RolledFile.path,
      p.Own name := fun name => own_of_mem_toDelete hspares
  -- a directory that is in the way stays there
  have hdirectory (n : Name) (h : s.moved digit p order n = some .directory) :
      (files.removeAll faults.removes
        ((p.toDelete ((s.closed p).allFiles digit p order)).map RolledFile.path)).1 n =
        some .directory := by
    have hbase : n ≠ p.basePath := fun heq => by
      subst heq
      rw [moved, Files.rename_source] at h
      cases h
    exact Files.removeAll_directory _ _ ((hopened n hbase).trans h)
  constructor
  · exact fun x hx => own_renames hx
  · exact fun name hname => hdelete name (Files.mem_removeAll _ _ hname)
  · intro name hname
    obtain ⟨hmem, hdir⟩ := (Files.mem_compressAll _ _).1 name hname
    exact (own_of_mem_toCompress hspares hmem (mt (hdirectory _) hdir)).1
  · intro n hfile hown
    have hbase : n ≠ p.basePath := fun heq => hown (heq ▸ RollingPolicy.own_basePath)
    have hcompress := Files.compressAll_of_notMem (n := n) gzip p.compressedSuffix faults.compresses
      ((p.toCompress ((s.closed p).allFiles digit p order)).map RolledFile.path)
      (files.removeAll faults.removes
        ((p.toDelete ((s.closed p).allFiles digit p order)).map RolledFile.path)).1
      fun name hname => by
        by_cases hdir : s.moved digit p order (name ++ p.compressedSuffix) = some .directory
        · exact .inl (hdirectory _ hdir)
        · obtain ⟨hname, hput⟩ := own_of_mem_toCompress hspares hname hdir
          exact .inr ⟨fun heq => hown (heq ▸ hname), fun heq => hown (heq ▸ hput (heq ▸ hfile))⟩
    have hremove := Files.removeAll_of_notMem faults.removes
      ((p.toDelete ((s.closed p).allFiles digit p order)).map RolledFile.path) files
      fun hmem => hown (hdelete n hmem)
    calc roller.files n = _ := by rw [hroller]; exact hcompress
      _ = files n := hremove
      _ = s.moved digit p order n := hopened n hbase
      _ = s.files n := moved_of_not_own hown

theorem opened_of_not_own {n : Name} (h : ¬ p.Own n) : s.opened digit p order n = s.files n := by
  have hbase : n ≠ p.basePath := fun heq => h (heq ▸ RollingPolicy.own_basePath)
  rw [opened, Files.put_of_ne hbase, moved_of_not_own h]

theorem opened_ne_directory {n : Name} (h : s.moved digit p order n ≠ some .directory) :
    s.opened digit p order n ≠ some .directory := by
  by_cases hbase : n = p.basePath
  · subst hbase
    rw [opened, Files.put_self]
    simp
  · rwa [opened, Files.put_of_ne hbase]

/-- Nothing is deleted, and one file alone is compressed, with the given end. -/
def onlyCompressing (order : Listing) (name : Name) (ending : Compressing) : Faults :=
  { Faults.none order with
    removes := fun _ => false
    compresses := fun n => if n = name then ending else .failed none }

theorem order_none (order : Listing) : (Faults.none order).order = order := rfl

theorem order_onlyCompressing (order : Listing) (name : Name) (ending : Compressing) :
    (onlyCompressing order name ending).order = order := rfl

theorem cleanup_onlyCompressing (gzip : List UInt8 → List UInt8) (order : Listing) (files : Files)
    (ending : Compressing) {sorted : List RolledFile} {name : Name}
    (hmem : name ∈ (p.toCompress sorted).map RolledFile.path) :
    ∃ rest, cleanup gzip p (onlyCompressing order name ending) files sorted =
      (let r := files.compress gzip p.compressedSuffix
        (onlyCompressing order name ending).compresses name
       let t := Files.compressAll gzip p.compressedSuffix
        (onlyCompressing order name ending).compresses rest r.1
       (t.1, [], r.2.1 ++ t.2.1, r.2.2 ++ t.2.2)) := by
  obtain ⟨rest, hrest⟩ := Files.compressAll_only gzip p.compressedSuffix
    (onlyCompressing order name ending).compresses files hmem fun n hn => if_neg hn
  have hnone := Files.removeAll_none (onlyCompressing order name ending).removes
    ((p.toDelete sorted).map RolledFile.path) files fun _ _ => rfl
  refine ⟨rest, ?_⟩
  rw [cleanup, hnone, hrest]

theorem compress_done (gzip : List UInt8 → List UInt8) (order : Listing) {files : Files}
    {name : Name} {bytes : List UInt8}
    (hfile : files name = some (.file bytes))
    (hdir : files (name ++ p.compressedSuffix) ≠ some .directory) :
    name ∈ (files.compress gzip p.compressedSuffix
      (onlyCompressing order name .done).compresses name).2.1 := by
  simp [Files.compress, hfile, hdir, onlyCompressing]

theorem compress_breaksOff {files : Files} {name : Name} {left : List UInt8}
    (hfile : files.isFile name)
    (hdir : files (name ++ p.compressedSuffix) ≠ some .directory) :
    (files.compress gzip p.compressedSuffix
      (onlyCompressing order name (.failed (some left))).compresses name).1
        (name ++ p.compressedSuffix) = some (.file left) := by
  obtain ⟨bytes, hbytes⟩ := Files.isFile_iff.mp hfile
  simp [Files.compress, hbytes, hdir, onlyCompressing]

/-- A file that was found is still there, unless another is put at its name. -/
theorem isFile_opened (h : e ∈ p.scanned digit s.files order)
    (hown : ¬ p.Own (e.path ++ p.compressedSuffix)) :
    (s.opened digit p order).isFile e.path := by
  have hfile := (RollingPolicy.mem_scanned h).1
  by_cases hbase : e.path = p.basePath
  · rw [opened, hbase]
    exact Files.isFile_iff.mpr ⟨[], Files.put_self ..⟩
  · have htarget : e.path ≠ (s.closed p).rollTarget digit p order := fun heq =>
      hown (heq ▸ own_rollTarget_compressed (s.closed p) order)
    have hsame : s.opened digit p order e.path = s.files e.path := by
      rw [opened, Files.put_of_ne hbase, moved, Files.rename_of_ne hbase htarget]
      exact flush_of_ne hbase
    rwa [Files.isFile_congr hsame]

/-- Every roll keeps to the policy's own files, whatever fails, exactly if the rename is refused or
the limits reach no file of others. -/
theorem keepsTo_iff (s : CustomRoller) (order : Listing) :
    (∀ faults : Faults, faults.order = order → ∀ now,
      KeepsTo p s.files (s.roll digit gzip p faults now)) ↔
    s.Blocked digit p order ∨ s.Spares digit p order := by
  constructor
  · intro hkeeps
    by_contra hnot
    rw [not_or] at hnot
    obtain ⟨hclear, hspares⟩ := hnot
    refine hspares fun e he => ⟨fun hown => ⟨fun hdeletes => ?_, fun hcompresses => ?_⟩,
      fun hcompresses hfile => ?_⟩
    · -- the roll that deletes it
      have hne : e ≠ s.rolling digit p order := fun heq => hown (heq ▸ own_rollTarget ..)
      have hmem := List.mem_map_of_mem (f := RolledFile.path)
        ((mem_toDelete (count_found he hne)).mpr hdeletes)
      have hroll := roll_of_clear digit gzip p s (order_none order) hclear rfl rfl rfl rfl rfl
        s.currentPeriodStart
      refine hown ((hkeeps (.none order) rfl s.currentPeriodStart).deleted e.path ?_)
      rw [hroll]
      refine Files.mem_removeAll_of_mem _ _ hmem rfl ?_
      rw [Files.isFile_congr (opened_of_not_own hown)]
      exact (RollingPolicy.mem_scanned he).1
    · -- the roll that compresses it
      have hne : e ≠ s.rolling digit p order := fun heq => hown (heq ▸ own_rollTarget ..)
      have hmem := (mem_toCompress (count_found he hne) (RollingPolicy.mem_scanned he).2).mpr
        ⟨hcompresses.1, hcompresses.2.1, hcompresses.2.2.1, hcompresses.2.2.2.1⟩
      obtain ⟨bytes, hbytes⟩ := Files.isFile_iff.mp (RollingPolicy.mem_scanned he).1
      have hdone := compress_done gzip order
        ((opened_of_not_own hown).trans hbytes) (opened_ne_directory hcompresses.2.2.2.2)
      have hroll := roll_of_clear digit gzip p s (order_onlyCompressing order e.path .done)
        hclear rfl rfl rfl rfl rfl s.currentPeriodStart
      obtain ⟨rest, hcleanup⟩ := cleanup_onlyCompressing gzip order (s.opened digit p order) .done
        (List.mem_map_of_mem hmem)
      rw [hcleanup] at hroll
      refine hown ((hkeeps (onlyCompressing order e.path .done) rfl
        s.currentPeriodStart).compressed e.path ?_)
      rw [hroll]
      exact List.mem_append_left _ hdone
    · -- the roll that breaks off when it has written over the file of others
      by_contra hown
      have hne : e ≠ s.rolling digit p order := fun heq => hown (heq ▸ own_rollTarget_compressed ..)
      have hmem := (mem_toCompress (count_found he hne) (RollingPolicy.mem_scanned he).2).mpr
        ⟨hcompresses.1, hcompresses.2.1, hcompresses.2.2.1, hcompresses.2.2.2.1⟩
      obtain ⟨bytes, hbytes⟩ := Files.isFile_iff.mp hfile
      let ending : Compressing := .failed (some (bytes ++ [0]))
      have hroll := roll_of_clear digit gzip p s (order_onlyCompressing order e.path ending)
        hclear rfl rfl rfl rfl rfl s.currentPeriodStart
      obtain ⟨rest, hcleanup⟩ := cleanup_onlyCompressing gzip order (s.opened digit p order) ending
        (List.mem_map_of_mem hmem)
      have hleft : (s.roll digit gzip p (onlyCompressing order e.path ending)
          s.currentPeriodStart).2.1.files (e.path ++ p.compressedSuffix) =
            some (.file (bytes ++ [0])) := by
        rw [hroll, hcleanup]
        refine Files.compressAll_left rest _ (if_pos rfl) (fun n hn => if_neg hn) ?_
        exact compress_breaksOff (isFile_opened he hown)
          (opened_ne_directory hcompresses.2.2.2.2)
      have hsame := (hkeeps (onlyCompressing order e.path ending) rfl
        s.currentPeriodStart).others _ hfile hown
      rw [hleft, hbytes] at hsame
      simp at hsame
  · rintro h faults rfl now
    have hflush (n : Name) (hn : n ≠ p.basePath) : (s.closed p).files n = s.files n :=
      flush_of_ne hn
    rcases roll_cases digit gzip p s faults now with
      ⟨-, hroll⟩ | ⟨-, hroll⟩ | ⟨hclear, ⟨-, hroll⟩ | ⟨size, -, hroll⟩⟩
    · rw [hroll]
      exact keepsTo_of_nothing rfl fun _ _ => rfl
    · rw [hroll]
      exact keepsTo_of_nothing rfl hflush
    · rw [hroll]
      exact {
        renamed := fun x hx => own_renames hx
        deleted := fun name hname => (List.not_mem_nil hname).elim
        compressed := fun name hname => (List.not_mem_nil hname).elim
        others := fun name _ hown => (openFile_of_ne fun heq => hown (.inl heq)).trans
          (moved_of_not_own hown) }
    · rw [hroll]
      exact keepsTo_cleanup (h.resolve_left hclear) faults (fun n hn => openFile_of_ne hn) _ _ rfl

end

/-! ### The files of another appender -/

/-- The files of `app`, which keeps one rolled file. -/
def keepOne : RollingPolicy where
  fileNamePrefix := ['a', 'p', 'p']
  fileNameSuffix := ['.', 'l', 'o', 'g']
  timeGranularity := .daily
  maxFileSize := none
  maxRetainedSequences := some 1
  compression := none

/-- `app-x.2024-01-01.1.log`, which `app-x` rolled. -/
def otherRolled : Name :=
  ['a', 'p', 'p', '-', 'x', '.', '2', '0', '2', '4', '-', '0', '1', '-', '0', '1', '.', '1',
    '.', 'l', 'o', 'g']

/-- Both appenders log to one directory. -/
def sharing : CustomRoller where
  files name := if name = keepOne.basePath ∨ name = otherRolled then some (.file [1]) else none
  live := true
  buffer := []
  currentSize := 1
  currentPeriodStart := .midnight ⟨2024, 1, 2, valid_dayTwo⟩

theorem otherRolled_not_own : ¬ keepOne.Own otherRolled := by
  rintro (h | ⟨t, sequence, -, h | h⟩)
  · revert h
    decide
  -- after the prefix, an own name has a dot
  · simp [otherRolled, keepOne, RollingPolicy.rolledPath] at h
  · simp [otherRolled, keepOne, RollingPolicy.rolledPath] at h

/-- The other appender's log is deleted: its name starts with this policy's prefix. -/
theorem not_keepsTo_sharing :
    ¬ KeepsTo keepOne sharing.files (sharing.roll Char.isDigit id keepOne
      (.none ⟨[keepOne.basePath, otherRolled], by decide⟩) (.midnight ⟨2024, 1, 3, by decide⟩)) := by
  intro h
  refine otherRolled_not_own (h.deleted otherRolled ?_)
  decide

end CustomRoller

end Fibre.Logging
