import Fibre.Logging.Config
import Fibre.Logging.RollSteps

/-!
# The size of a rolled file

The configuration has the size as a text: a decimal number, and a unit. Letters behind the number are
the unit; the product is a word, and is not checked to be one. The write path compares it with the
bytes that the active file had when it was opened and those written since.

A number that is a word, with a product that is not, makes a limit that is too small.
-/

namespace Fibre.Logging

open Option

/-- What is taken from the standard library. -/
structure SizeTexts where
  toLowercase : Name → Name
  isAlphabetic : Char → Bool
  isWhitespace : Char → Bool

structure RollingFileRaw where
  fileNamePrefix : Name
  fileNameSuffix : Name
  timeGranularity : Name
  maxFileSize : Option Name
  maxRetainedSequences : Option ℕ
  compression : Option CompressionPolicy

section

variable (texts : SizeTexts)

/-- `str::trim` -/
def trim (s : Name) : Name := (s.dropWhile texts.isWhitespace).rdropWhile texts.isWhitespace

/-- The decimal number of a text, which may have a `+`. -/
def parseDecimal (s : Name) : Option ℕ :=
  let digits := if s.head? = some '+' then s.tail else s
  if digits ≠ [] ∧ digits.all Char.isDigit then some (Nat.ofDigitChars 10 digits 0) else none

/-- `str::parse::<u64>` -/
def parseU64 (s : Name) : Option ℕ := (parseDecimal s).filter (· < 2 ^ 64)

/-- The text before the letters at its end, and these letters. -/
def splitSize (s : Name) : Name × Name :=
  let lower := texts.toLowercase s
  (lower.rdropWhile texts.isAlphabetic, lower.rtakeWhile texts.isAlphabetic)

def unitOf (suffix : Name) : Option ℕ :=
  if suffix = "kb".toList then some 1024
  else if suffix = "mb".toList then some (1024 * 1024)
  else if suffix = "gb".toList then some (1024 * 1024 * 1024)
  else if suffix = "b".toList ∨ suffix = [] then some 1
  else none

def parseSizeStr (sizeStr : Name) : Except Name ℕ :=
  let (numStr, suffix) := splitSize texts sizeStr
  match parseU64 (trim texts numStr) with
  | none => .error ("Invalid number in size string: '".toList ++ numStr ++ ['\''])
  | some num =>
    match unitOf (trim texts suffix) with
    -- the multiplications of words wrap
    | some unit => .ok (num * unit % 2 ^ 64)
    | none => .error ("Unknown size suffix: '".toList ++ suffix ++ ['\''])

def granularityOf (s : Name) : Option Granularity :=
  if s = "minutely".toList then some .minutely
  else if s = "hourly".toList then some .hourly
  else if s = "daily".toList then some .daily
  else if s = "never".toList then some .never
  else none

/-- The size in the policy, if there is one. -/
def processMaxFileSize (name : Name) : Option Name → Except InvalidConfigValue (Option ℕ)
  | none => .ok none
  | some s =>
    match parseSizeStr texts s with
    | .ok size => .ok (some size)
    | .error msg => .error {
        field := "appenders.".toList ++ name ++ ".policy.max_file_size".toList
        message := msg }

/-- What `process_raw_config` makes of a rolling file's configuration. -/
def processRollingFile (name : Name) (raw : RollingFileRaw) :
    Except InvalidConfigValue RollingPolicy :=
  match processMaxFileSize texts name raw.maxFileSize with
  | .error e => .error e
  | .ok maxFileSize =>
    match granularityOf (texts.toLowercase raw.timeGranularity) with
    | some granularity => .ok {
        fileNamePrefix := raw.fileNamePrefix
        fileNameSuffix := raw.fileNameSuffix
        timeGranularity := granularity
        maxFileSize := maxFileSize
        maxRetainedSequences := raw.maxRetainedSequences
        compression := raw.compression }
    | none => .error {
        field := "appenders.".toList ++ name ++ ".policy.time_granularity".toList
        message := "Unknown time_granularity '".toList ++
          texts.toLowercase raw.timeGranularity ++
          "'. Expected 'minutely', 'hourly', 'daily', or 'never'.".toList }

/-- The number and the unit that a text is for. -/
def sizeOf (s : Name) : Option (ℕ × ℕ) :=
  let (numStr, suffix) := splitSize texts s
  (parseDecimal (trim texts numStr)).bind fun n =>
    (unitOf (trim texts suffix)).map fun unit => (n, unit)

/-- Files are rolled for their size only by writes that bring them to `size`, and no policy is made
of one that is no word. -/
structure SizeHolds (name : Name) (raw : RollingFileRaw) (size : ℕ) : Prop where
  rolls : ∀ p, processRollingFile texts name raw = .ok p → ∀ digit gzip files start w₀ w taken now,
    Writing.init p files start = some w₀ →
    Machine.Reachable (Writing.step digit gzip p) w₀ w → w.phase = .rollAfter taken now →
    taken ≠ [] ∧ size ≤ w.roller.currentSize
  refused : 2 ^ 64 ≤ size → ∀ p, processRollingFile texts name raw ≠ .ok p

end

/-! ### Rolls for the size -/

namespace Writing

variable {digit : Char → Bool} {gzip : List UInt8 → List UInt8} {p : RollingPolicy}
variable {w w' : Writing} {a : WriteAction}

/-- A roll for the size comes after bytes that brought the file to it. -/
def Filled (p : RollingPolicy) (w : Writing) : Prop :=
  ∀ taken now, w.phase = .rollAfter taken now →
    taken ≠ [] ∧ ∃ m ∈ p.maxFileSize, m ≤ w.roller.currentSize

theorem Filled.step (h : w.Filled p) (hs : w.step digit gzip p a = some w') : w'.Filled p := by
  rcases step_cases hs with ⟨buf, now, -, -, rfl⟩ | ⟨faults, buf, now, -, -, rfl⟩ |
    ⟨faults, taken, now, -, -, rfl⟩ | ⟨n, buf, now, -, -, rfl⟩ | ⟨buf, now, -, -, rfl⟩ | ⟨-, rfl⟩
  · intro taken t hphase
    rw [begun] at hphase
    dsimp only at hphase
    split_ifs at hphase
  · intro taken t hphase
    rw [rolled] at hphase
    dsimp only at hphase
    split_ifs at hphase
  · intro taken' t hphase
    rw [rolled] at hphase
    dsimp only at hphase
    split_ifs at hphase
  · intro taken t hphase
    simp only [took] at hphase ⊢
    split_ifs at hphase with hfull
    obtain ⟨rfl, -⟩ := Phase.rollAfter.inj hphase
    exact hfull
  · exact nofun
  · intro taken t hphase
    have hsize : (w.roller.flush p).currentSize = w.roller.currentSize := by
      unfold CustomRoller.flush
      split <;> rfl
    rw [hsize]
    exact h taken t hphase

theorem filled_init {files : Files} {start : DateTime} (h : init p files start = some w) :
    w.Filled p := by
  obtain ⟨roller, -, rfl⟩ := map_eq_some_iff.mp h
  exact nofun

end Writing

/-! ### The size in the policy -/

section

variable {texts : SizeTexts} {s : Name} {raw : RollingFileRaw} {n unit : ℕ}

theorem parseSizeStr_of_sizeOf (h : sizeOf texts s = some (n, unit)) :
    if n < 2 ^ 64 then parseSizeStr texts s = .ok (n * unit % 2 ^ 64)
    else ∃ e, parseSizeStr texts s = .error e := by
  obtain ⟨m, hm, h⟩ := bind_eq_some_iff.mp h
  obtain ⟨u, hu, heq⟩ := map_eq_some_iff.mp h
  cases heq
  have hm : parseDecimal (trim texts (splitSize texts s).1) = some n := hm
  have hu : unitOf (trim texts (splitSize texts s).2) = some unit := hu
  split_ifs with hlt
  · have hword : parseU64 (trim texts (splitSize texts s).1) = some n := by
      rw [parseU64, hm]
      exact if_pos (decide_eq_true hlt)
    simp only [parseSizeStr, hword, hu]
  · have hword : parseU64 (trim texts (splitSize texts s).1) = none := by
      rw [parseU64, hm]
      exact if_neg (by simpa using hlt)
    simp only [parseSizeStr, hword]
    exact ⟨_, rfl⟩

theorem processRollingFile_of_sizeOf (name : Name) (hs : raw.maxFileSize = some s)
    (hsize : sizeOf texts s = some (n, unit))
    (hg : (granularityOf (texts.toLowercase raw.timeGranularity)).isSome) :
    if n < 2 ^ 64 then ∃ p, processRollingFile texts name raw = .ok p ∧
      p.maxFileSize = some (n * unit % 2 ^ 64)
    else ∃ e, processRollingFile texts name raw = .error e := by
  obtain ⟨g, hg⟩ := isSome_iff_exists.mp hg
  have hparse := parseSizeStr_of_sizeOf hsize
  split_ifs at hparse ⊢ with hlt
  · simp [processRollingFile, processMaxFileSize, hs, hparse, hg]
  · obtain ⟨e, he⟩ := hparse
    simp [processRollingFile, processMaxFileSize, hs, he]

end

/-! ### A size of no bytes -/

def asciiTexts : SizeTexts := ⟨List.map Char.toLower, Char.isAlpha, Char.isWhitespace⟩

def sized (size : Name) : RollingFileRaw :=
  ⟨['t', 'e', 's', 't'], ['.', 'l', 'o', 'g'], "daily".toList, some size, none, none⟩

end Fibre.Logging
