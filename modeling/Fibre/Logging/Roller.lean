import Mathlib.Data.List.DropRight
import Fibre.Math.Machine
import Fibre.Math.StableSort
import Fibre.Logging.RollingPolicy

/-!
# The roller

A roller writes to the active file through a buffer. When a period is over, or the file has reached
its size, it renames the file to the next free sequence of its period, opens a new one, and cleans
up: it deletes the oldest rolled files and compresses others.

The directory is a map of names, read in any order. Every file operation can fail. A write is a
machine of its steps: a roll that the clock asks for, the bytes, and a roll that the size asks for.
-/

namespace Fibre.Logging

attribute [local instance] lawfulBEq_name

/-- What is found at a name. -/
inductive Node
  | file (bytes : List UInt8)
  | directory
  deriving DecidableEq

/-- The files of the policy's directory, and those below it. -/
abbrev Files := Name → Option Node

/-- What becomes of the compression of a file. -/
inductive Compressing
  | done
  /-- the original could not be deleted -/
  | notRemoved
  /-- what it leaves at the compressed name, if it got that far -/
  | failed (left : Option (List UInt8))

structure Listing where
  names : List Name
  nodup : names.Nodup

/-- What becomes of the operations of a roll, and how the directory is listed. -/
structure Faults where
  order : Listing
  /-- the null device opens -/
  opensNull : Bool
  /-- the directory is read -/
  scans : Bool
  renames : Bool
  /-- the active file opens -/
  reopens : Bool
  /-- its size is read -/
  sizes : Bool
  removes : Name → Bool
  compresses : Name → Compressing

/-- Nothing fails. -/
def Faults.none (order : Listing) : Faults where
  order := order
  opensNull := true
  scans := true
  renames := true
  reopens := true
  sizes := true
  removes _ := true
  compresses _ := .done

/-- What a roll did to the directory. -/
structure Effects where
  renamed : Option (Name × Name)
  deleted : List Name
  compressed : List Name
  /-- the names compression wrote to -/
  written : List Name

/-- A roll that did nothing to names. -/
def Effects.nothing : Effects := ⟨none, [], [], []⟩

structure CustomRoller where
  files : Files
  /-- the writer is the active file's, not the null device's -/
  live : Bool
  buffer : List UInt8
  currentSize : ℕ
  currentPeriodStart : DateTime

def RolledFile.key (f : RolledFile) : DateTime ×ₗ ℕ := toLex (f.timestamp, f.sequence)

def sortFiles (l : List RolledFile) : List RolledFile := StableSort.sortDesc RolledFile.key l

/-- The last component of a path. -/
def fileName (path : Name) : Name := path.rtakeWhile (· ≠ '/')

def Files.isFile (files : Files) (name : Name) : Bool :=
  match files name with
  | some (.file _) => true
  | _ => false

def Files.content (files : Files) (name : Name) : List UInt8 :=
  match files name with
  | some (.file bytes) => bytes
  | _ => []

namespace RollingPolicy

/-- The files that the scan takes for rolled ones, in the order in which the directory is read. -/
def scanned (digit : Char → Bool) (p : RollingPolicy) (files : Files) (order : Listing) :
    List RolledFile :=
  (order.names.filter fun name => files.isFile name && IsFileName name).filterMap (p.parseName digit)

/-- `find_rolled_files`. -/
def findRolledFiles (digit : Char → Bool) (p : RollingPolicy) (files : Files)
    (order : Listing) : List RolledFile :=
  sortFiles (p.scanned digit files order)

def lastSequence (p : RollingPolicy) (period : DateTime) (rolled : List RolledFile) : ℕ :=
  ((rolled.filter fun f => p.formatPeriod f.timestamp = p.formatPeriod period).map
    RolledFile.sequence).foldr max 0

/-- The sequence is a `u32`. -/
def nextSequence (p : RollingPolicy) (period : DateTime) (rolled : List RolledFile) : ℕ :=
  (p.lastSequence period rolled + 1) % 2 ^ 32

/-- The files beyond the retention limit. -/
def toDelete (p : RollingPolicy) (sorted : List RolledFile) : List RolledFile :=
  match p.maxRetainedSequences with
  | some n => sorted.drop n
  | none => []

/-- Those that are kept, and compressed. -/
def toCompress (p : RollingPolicy) (sorted : List RolledFile) : List RolledFile :=
  let kept := match p.maxRetainedSequences with
    | some n => sorted.take n
    | none => sorted
  match p.compression with
  | some c => (kept.drop c.maxUncompressedSequences).filter fun f =>
      !f.isCompressed && p.fileNameSuffix.isSuffixOf (fileName f.path)
  | none => []

end RollingPolicy

namespace Files

/-- `fs::rename` puts a file over a file, but over no directory, and no directory over anything. -/
def mayRename (files : Files) (source target : Name) : Bool :=
  match files source, files target with
  | some _, none => true
  | some (.file _), some (.file _) => true
  | _, _ => false

def put (files : Files) (name : Name) (node : Option Node) : Files :=
  Function.update files name node

/-- `fs::rename`, of what there is. -/
def rename (files : Files) (source target : Name) : Files :=
  if (files source).isSome then (files.put target (files source)).put source none else files

/-- `fs::remove_file`. -/
def remove (removes : Name → Bool) (files : Files) (name : Name) : Files × List Name :=
  if removes name && files.isFile name then (files.put name none, [name]) else (files, [])

/-- Deletes the files in order. -/
def removeAll (removes : Name → Bool) : List Name → Files → Files × List Name
  | [], files => (files, [])
  | name :: rest, files =>
    let r := files.remove removes name
    let t := removeAll removes rest r.1
    (t.1, r.2 ++ t.2)

/-- `compress_file`. Returns whether the file was compressed, and whether anything was written. -/
def compress (gzip : List UInt8 → List UInt8) (suffix : Name) (compresses : Name → Compressing)
    (files : Files) (name : Name) : Files × List Name × List Name :=
  match files name with
  | some (.file bytes) =>
    if files (name ++ suffix) = some .directory then (files, [], [])
    else
      match compresses name with
      | .done => ((files.put (name ++ suffix) (some (.file (gzip bytes)))).put name none,
          [name], [name ++ suffix])
      | .notRemoved => (files.put (name ++ suffix) (some (.file (gzip bytes))),
          [name], [name ++ suffix])
      | .failed none => (files, [], [])
      | .failed (some left) => (files.put (name ++ suffix) (some (.file left)),
          [], [name ++ suffix])
  | _ => (files, [], [])

def compressAll (gzip : List UInt8 → List UInt8) (suffix : Name)
    (compresses : Name → Compressing) : List Name → Files → Files × List Name × List Name
  | [], files => (files, [], [])
  | name :: rest, files =>
    let r := files.compress gzip suffix compresses name
    let t := compressAll gzip suffix compresses rest r.1
    (t.1, r.2.1 ++ t.2.1, r.2.2 ++ t.2.2)

end Files

namespace CustomRoller

section

variable (digit : Char → Bool) (gzip : List UInt8 → List UInt8) (p : RollingPolicy)

/-- The buffer goes to the active file. -/
def flush (s : CustomRoller) : CustomRoller :=
  match s.live, s.files p.basePath with
  | true, some (.file bytes) => { s with
      files := s.files.put p.basePath (some (.file (bytes ++ s.buffer)))
      buffer := [] }
  | _, _ => { s with buffer := [] }

/-- The writer takes bytes. -/
def append (s : CustomRoller) (bytes : List UInt8) : CustomRoller :=
  if s.live then { s with buffer := s.buffer ++ bytes } else s

/-- Where the roll puts the active file. -/
def rollTarget (s : CustomRoller) (order : Listing) : Name :=
  p.rolledPath s.currentPeriodStart
    (p.nextSequence s.currentPeriodStart (p.findRolledFiles digit s.files order))

/-- `open_file` on the active file. Returns its size, if all goes well. -/
def openFile (faults : Faults) (files : Files) : Files × Option ℕ :=
  if !faults.reopens then (files, none)
  else
    match files p.basePath with
    | some .directory => (files, none)
    | some (.file bytes) => (files, if faults.sizes then some bytes.length else none)
    | none => (files.put p.basePath (some (.file [])), if faults.sizes then some 0 else none)

/-- `cleanup`. -/
def cleanup (faults : Faults) (files : Files) (sorted : List RolledFile) :
    Files × List Name × List Name × List Name :=
  let d := files.removeAll faults.removes ((p.toDelete sorted).map RolledFile.path)
  let c := d.1.compressAll gzip p.compressedSuffix faults.compresses
    ((p.toCompress sorted).map RolledFile.path)
  (c.1, d.2, c.2.1, c.2.2)

/-- The files a roll cleans up among: those it found, and the new one. -/
def allFiles (s : CustomRoller) (order : Listing) : List RolledFile :=
  let rolled := p.findRolledFiles digit s.files order
  sortFiles (rolled ++ [⟨s.currentPeriodStart, p.nextSequence s.currentPeriodStart rolled,
    s.rollTarget digit p order, false⟩])

/-- The writer is dropped, which flushes it, and the null device's is put in its place. -/
def closed (s : CustomRoller) : CustomRoller := { s.flush p with live := false }

/-- `roll`. Returns whether it went well. -/
def roll (faults : Faults) (s : CustomRoller) (now : DateTime) : Bool × CustomRoller × Effects :=
  if !faults.opensNull then (false, s, .nothing)
  else
    let s := s.closed p
    if !faults.scans then (false, s, .nothing)
    else
      let target := s.rollTarget digit p faults.order
      let present := (s.files p.basePath).isSome
      if present && !(faults.renames && s.files.mayRename p.basePath target) then
        (false, s, .nothing)
      else
        let renamed := if present then some (p.basePath, target) else none
        let r := openFile p faults (s.files.rename p.basePath target)
        match r.2 with
        | none => (false, { s with files := r.1 }, { Effects.nothing with renamed := renamed })
        | some size =>
          let c := cleanup gzip p faults r.1 (s.allFiles digit p faults.order)
          (true, { s with
            files := c.1
            live := true
            currentSize := size
            currentPeriodStart := RollingPolicy.calculatePeriodStart now p },
            ⟨renamed, c.2.1, c.2.2.1, c.2.2.2⟩)

/-- `CustomRoller::new`, on a directory whose active file opens. -/
def new (files : Files) (now : DateTime) : Option CustomRoller :=
  let r := openFile p (.none ⟨[], List.nodup_nil⟩) files
  r.2.map fun size => {
    files := r.1
    live := true
    buffer := []
    currentSize := size
    currentPeriodStart := RollingPolicy.calculatePeriodStart now p }

end

end CustomRoller

/-! ### Writes -/

/-- Where a write is. -/
inductive Phase
  | idle
  /-- a new period has begun: a roll comes before the bytes -/
  | rollFirst (buf : List UInt8) (now : DateTime)
  | taking (buf : List UInt8) (now : DateTime)
  /-- the size is reached: a roll comes after the bytes -/
  | rollAfter (taken : List UInt8) (now : DateTime)

/-- The roller at work: what its writer took, what the writes that returned `Ok` wrote, the rolled
files with what each held when it was rolled, and those that cleaning up has taken. -/
structure Writing where
  roller : CustomRoller
  phase : Phase
  taken : List UInt8
  accepted : List (List UInt8)
  archive : List (Name × List UInt8)
  cleaned : List (Name × List UInt8)
  lastNow : DateTime

inductive WriteAction
  | write (buf : List UInt8) (now : DateTime)
  | roll (faults : Faults)
  /-- the writer takes `n` bytes, or fails -/
  | take (n : Option ℕ)
  /-- the buffer is flushed, by the writer or a caller -/
  | flush

namespace Writing

variable (digit : Char → Bool) (gzip : List UInt8 → List UInt8) (p : RollingPolicy)

def init (files : Files) (now : DateTime) : Option Writing :=
  (CustomRoller.new p files now).map fun roller => ⟨roller, .idle, [], [], [], [], now⟩

def rolled (w : Writing) (faults : Faults) (now : DateTime) (ok : Phase)
    (accepted : List (List UInt8)) : Writing :=
  let r := w.roller.roll digit gzip p faults now
  -- the active file, with what it holds when it is renamed
  let moved := r.2.2.renamed.toList.map fun x =>
    (x.2, (w.roller.closed p).files.content p.basePath)
  let gone := fun f : Name × List UInt8 => f.1 ∈ r.2.2.deleted ++ r.2.2.compressed
  { w with
    roller := r.2.1
    phase := if r.1 then ok else .idle
    accepted := if r.1 then accepted else w.accepted
    archive := (w.archive ++ moved).filter (!gone ·)
    cleaned := w.cleaned ++ (w.archive ++ moved).filter (gone ·) }

def begun (w : Writing) (buf : List UInt8) (now : DateTime) : Writing :=
  { w with
    phase := if w.roller.currentPeriodStart < RollingPolicy.calculatePeriodStart now p then
        .rollFirst buf now
      else .taking buf now
    lastNow := now }

/-- The writer has taken some of the bytes. -/
def took (w : Writing) (bytes : List UInt8) (now : DateTime) : Writing :=
  let size := w.roller.currentSize + bytes.length
  let full := bytes ≠ [] ∧ ∃ m ∈ p.maxFileSize, m ≤ size
  { w with
    roller := { w.roller.append bytes with currentSize := size }
    phase := if full then .rollAfter bytes now else .idle
    taken := w.taken ++ bytes
    -- the write returns, unless the size is reached
    accepted := if full then w.accepted else w.accepted ++ [bytes] }

/-- `write_internal`, in steps. -/
def step (w : Writing) : WriteAction → Option Writing
  | .write buf now =>
    match w.phase with
    | .idle => some (w.begun p buf now)
    | _ => none
  | .roll faults =>
    match w.phase with
    | .rollFirst buf now => some (w.rolled digit gzip p faults now (.taking buf now) w.accepted)
    | .rollAfter taken now =>
      some (w.rolled digit gzip p faults now .idle (w.accepted ++ [taken]))
    | _ => none
  | .take n =>
    match w.phase, n with
    | .taking buf now, some n => some (w.took p (buf.take n) now)
    | .taking _ _, none => some { w with phase := .idle }
    | _, _ => none
  | .flush => some { w with roller := w.roller.flush p }

variable {digit : Char → Bool} {gzip : List UInt8 → List UInt8} {p : RollingPolicy}
variable {w w' : Writing} {a : WriteAction}

theorem step_cases (h : w.step digit gzip p a = some w') :
    (∃ buf now, a = .write buf now ∧ w.phase = .idle ∧ w' = w.begun p buf now) ∨
    (∃ faults buf now, a = .roll faults ∧ w.phase = .rollFirst buf now ∧
      w' = w.rolled digit gzip p faults now (.taking buf now) w.accepted) ∨
    (∃ faults taken now, a = .roll faults ∧ w.phase = .rollAfter taken now ∧
      w' = w.rolled digit gzip p faults now .idle (w.accepted ++ [taken])) ∨
    (∃ n buf now, a = .take (some n) ∧ w.phase = .taking buf now ∧
      w' = w.took p (buf.take n) now) ∨
    (∃ buf now, a = .take none ∧ w.phase = .taking buf now ∧ w' = { w with phase := .idle }) ∨
    a = .flush ∧ w' = { w with roller := w.roller.flush p } := by
  cases a with
  | write buf now =>
    cases hphase : w.phase <;> simp only [step, hphase, Option.some.injEq, reduceCtorEq] at h
    exact .inl ⟨buf, now, rfl, rfl, h.symm⟩
  | roll faults =>
    cases hphase : w.phase <;> simp only [step, hphase, Option.some.injEq, reduceCtorEq] at h
    · exact .inr (.inl ⟨faults, _, _, rfl, rfl, h.symm⟩)
    · exact .inr (.inr (.inl ⟨faults, _, _, rfl, rfl, h.symm⟩))
  | take n =>
    cases hphase : w.phase <;> cases n <;>
      simp only [step, hphase, Option.some.injEq, reduceCtorEq] at h
    · exact .inr (.inr (.inr (.inr (.inl ⟨_, _, rfl, rfl, h.symm⟩))))
    · exact .inr (.inr (.inr (.inl ⟨_, _, _, rfl, rfl, h.symm⟩)))
  | flush => exact .inr (.inr (.inr (.inr (.inr ⟨rfl, (Option.some.inj h).symm⟩))))

end Writing

end Fibre.Logging
