import Fibre.Logging.Calendar

/-!
# Rolling policies and the names of rolled files

A policy names its active file, and, by a period and a sequence number, the files it rolls. The
roller finds rolled files by their names: by the policy's prefix, and by a pattern anywhere in the
name.

Names are relative to the policy's directory. The pattern's `\\d` takes every decimal digit of
Unicode, which is a parameter here.
-/

namespace Fibre.Logging

open Option List

/-- `time_granularity`. Any other text counts as daily. -/
inductive Granularity
  | minutely
  | hourly
  | daily
  | never
  | other
  deriving DecidableEq

structure CompressionPolicy where
  compressedFileSuffix : Name
  maxUncompressedSequences : ℕ

structure RollingPolicy where
  fileNamePrefix : Name
  fileNameSuffix : Name
  timeGranularity : Granularity
  maxFileSize : Option ℕ
  maxRetainedSequences : Option ℕ
  compression : Option CompressionPolicy

namespace RollingPolicy

def basePath (p : RollingPolicy) : Name := p.fileNamePrefix ++ p.fileNameSuffix

def formatPeriod (p : RollingPolicy) (t : DateTime) : Name :=
  match p.timeGranularity with
  | .minutely => formatTime t.date t.hour t.minute 0
  | .hourly => formatTime t.date t.hour 0 0
  | .daily | .never | .other => formatDate t.date

def rolledPath (p : RollingPolicy) (t : DateTime) (sequence : ℕ) : Name :=
  p.fileNamePrefix ++ '.' :: (p.formatPeriod t ++ '.' :: (Nat.toDigits 10 sequence ++
    p.fileNameSuffix))

/-- `DateTime::<Utc>::UNIX_EPOCH`. -/
def unixEpoch : DateTime := .midnight ⟨1970, 1, 1, by decide⟩

/-- `CustomRoller::calculate_period_start`. -/
def calculatePeriodStart (now : DateTime) (p : RollingPolicy) : DateTime :=
  match p.timeGranularity with
  | .minutely => { now with
      second := 0, nanosecond := 0, second_lt := Nat.zero_lt_succ _,
      nanosecond_lt := Nat.zero_lt_succ _ }
  | .hourly => { DateTime.midnight now.date with hour := now.hour, hour_lt := now.hour_lt }
  -- one period for all writes
  | .never => unixEpoch
  | .daily | .other => .midnight now.date

def compressedSuffix (p : RollingPolicy) : Name :=
  match p.compression with
  | some c => c.compressedFileSuffix
  | none => ['.', 'g', 'z']

end RollingPolicy

/-! ### The pattern -/

section Pattern

variable (digit : Char → Bool)

/-- Exactly `n` digits. -/
def matchDigits (n : ℕ) (s : Name) : Option (Name × Name) :=
  if (s.take n).length = n ∧ (s.take n).all digit then some (s.take n, s.drop n) else none

/-- `\d{n}-\d{2}-\d{2}`. -/
def matchTriple (n : ℕ) (s : Name) : Option (Name × Name) := do
  let (a, s) ← matchDigits digit n s
  let s ← takeChar '-' s
  let (b, s) ← matchDigits digit 2 s
  let s ← takeChar '-' s
  let (c, s) ← matchDigits digit 2 s
  some (a ++ '-' :: b ++ '-' :: c, s)

/-- `\.(\d+)`, as many digits as there are. -/
def matchSequence (s : Name) : Option Name := do
  let s ← takeChar '.' s
  if s.takeWhile digit = [] then none else some (s.takeWhile digit)

/-- The pattern at the start of a text: a timestamp and a sequence. -/
def matchRolled (s : Name) : Option (Name × Name) := do
  let s ← takeChar '.' s
  let (date, s) ← matchTriple digit 4 s
  (do let sequence ← matchSequence digit s
      some (date, sequence)).or do
    let s ← takeChar '_' s
    let (time, s) ← matchTriple digit 2 s
    let sequence ← matchSequence digit s
    some (date ++ '_' :: time, sequence)

/-- `ROLLED_FILE_REGEX.captures`: the leftmost match. -/
def captures : Name → Option (Name × Name)
  | [] => none
  | c :: s => (matchRolled digit (c :: s)).or (captures s)

end Pattern

/-- `str::parse::<u32>` of a text of digits. -/
def parseSequence (s : Name) : Option ℕ :=
  if s.all Char.isDigit ∧ Nat.ofDigitChars 10 s 0 < 2 ^ 32 then some (Nat.ofDigitChars 10 s 0)
  else none

structure RolledFile where
  timestamp : DateTime
  sequence : ℕ
  path : Name
  isCompressed : Bool
  deriving DecidableEq

namespace RollingPolicy

variable (digit : Char → Bool) (p : RollingPolicy)

def nameToParse (name : Name) : Name :=
  if p.compressedSuffix.isSuffixOf name then name.take (name.length - p.compressedSuffix.length)
  else name

/-- What the scan makes of the name of a file in the directory. -/
def parseName (name : Name) : Option RolledFile :=
  if !p.fileNamePrefix.isPrefixOf name then none
  else do
    let (ts, seq) ← captures digit (p.nameToParse name)
    let timestamp ← parseDatetime ts
    let sequence ← parseSequence seq
    some ⟨timestamp, sequence, name, p.compressedSuffix.isSuffixOf name⟩

def IsFileName (name : Name) : Bool := '/' ∉ name

def ParsesBack (t : DateTime) : Prop :=
  ∀ sequence < 2 ^ 32, IsFileName (p.rolledPath t sequence) ∧ ∃ isCompressed,
    p.parseName digit (p.rolledPath t sequence) =
      some ⟨t, sequence, p.rolledPath t sequence, isCompressed⟩

end RollingPolicy

/-! ### Names that parse back -/

section

variable {digit : Char → Bool} (hdigit : ∀ c : Char, c.isDigit → digit c)

include hdigit

theorem matchDigits_padded {width n : ℕ} (hn : n < 10 ^ width) (hw : 0 < width) (s : Name) :
    matchDigits digit width (padded width n ++ s) = some (padded width n, s) := by
  have hall : (padded width n).all digit := all_eq_true.mpr fun c hc =>
    hdigit c (isDigit_of_mem_padded hc)
  rw [matchDigits, take_padded_append hn hw, drop_padded_append hn hw,
    if_pos ⟨length_padded hn hw, hall⟩]

theorem matchTriple_padded {width a b c : ℕ} (ha : a < 10 ^ width) (hw : 0 < width)
    (hb : b < 10 ^ 2) (hc : c < 10 ^ 2) (s : Name) :
    matchTriple digit width (padded width a ++ '-' :: padded 2 b ++ '-' :: padded 2 c ++ s) =
      some (padded width a ++ '-' :: padded 2 b ++ '-' :: padded 2 c, s) := by
  have hassoc : padded width a ++ '-' :: padded 2 b ++ '-' :: padded 2 c ++ s =
      padded width a ++ ('-' :: (padded 2 b ++ ('-' :: (padded 2 c ++ s)))) := by simp
  rw [hassoc]
  simp only [matchTriple, matchDigits_padded hdigit ha hw, matchDigits_padded hdigit hb (by decide),
    matchDigits_padded hdigit hc (by decide), takeChar_cons, bind_eq_bind, bind_some]

theorem matchTriple_formatDate {d : NaiveDate} (h : d.Tells) (s : Name) :
    matchTriple digit 4 (formatDate d ++ s) = some (formatDate d, s) := by
  have hyear : d.year.toNat < 10 ^ 4 := by
    have := h.year_le
    omega
  rw [formatDate, formatYear, if_pos ⟨h.year_nonneg, h.year_le⟩]
  exact matchTriple_padded hdigit hyear (by decide) d.month_lt d.day_lt s

theorem matchSequence_append_suffix (n : ℕ) (suffix : Name) :
    matchSequence digit ('.' :: (Nat.toDigits 10 n ++ suffix)) =
      some (Nat.toDigits 10 n ++ suffix.takeWhile digit) := by
  have hall : ∀ c ∈ Nat.toDigits 10 n, digit c := fun c hc =>
    hdigit c (Nat.isDigit_of_mem_toDigits (by decide) (by decide) hc)
  have hne : Nat.toDigits 10 n ++ suffix.takeWhile digit ≠ [] := by simp [Nat.toDigits_ne_nil]
  simp only [matchSequence, takeChar_cons, bind_eq_bind, bind_some,
    takeWhile_append_of_pos hall, if_neg hne]

theorem matchSequence_toDigits {suffix : Name} (hsuffix : ∀ c ∈ suffix.head?, digit c = false)
    (n : ℕ) : matchSequence digit ('.' :: (Nat.toDigits 10 n ++ suffix)) =
      some (Nat.toDigits 10 n) := by
  have hend : suffix.takeWhile digit = [] := by
    cases suffix with
    | nil => rfl
    | cons c s => rw [takeWhile_cons_of_neg (by simp [hsuffix c rfl])]
  rw [matchSequence_append_suffix hdigit, hend, append_nil]

end

theorem takeChar_of_ne {c x : Char} (h : x ≠ c) (s : Name) : takeChar c (x :: s) = none :=
  if_neg h

theorem captures_append {digit : Char → Bool} {s : Name} (t : Name) (h : '.' ∉ s) :
    captures digit (s ++ t) = captures digit t := by
  induction s with
  | nil => rfl
  | cons c s ih =>
    rw [mem_cons, not_or] at h
    have hnone : matchRolled digit (c :: (s ++ t)) = none := by
      simp [matchRolled, takeChar_of_ne (Ne.symm h.1)]
    rw [cons_append, captures, hnone, none_or, ih h.2]

theorem parseSequence_toDigits {n : ℕ} (hn : n < 2 ^ 32) :
    parseSequence (Nat.toDigits 10 n) = some n := by
  have hall : (Nat.toDigits 10 n).all Char.isDigit := all_eq_true.mpr fun c hc =>
    Nat.isDigit_of_mem_toDigits (by decide) (by decide) hc
  rw [parseSequence, Nat.ofDigitChars_ten_toDigits, if_pos ⟨hall, hn⟩]

namespace RollingPolicy

variable {digit : Char → Bool} {p : RollingPolicy}

theorem unixEpoch_tells : unixEpoch.date.Tells := ⟨by decide, by decide⟩

theorem formatDate_reads (hdigit : ∀ c : Char, c.isDigit → digit c) {d : NaiveDate} (h : d.Tells)
    {s sequence : Name} (hs : matchSequence digit s = some sequence) :
    matchRolled digit ('.' :: (formatDate d ++ s)) = some (formatDate d, sequence) := by
  simp only [matchRolled, takeChar_cons, matchTriple_formatDate hdigit h, hs, bind_eq_bind,
    bind_some, some_or]

theorem formatTime_reads (hdigit : ∀ c : Char, c.isDigit → digit c) {d : NaiveDate} (h : d.Tells)
    {hour minute second : ℕ} (hhour : hour < 10 ^ 2) (hminute : minute < 10 ^ 2)
    (hsecond : second < 10 ^ 2) {s sequence : Name} (hs : matchSequence digit s = some sequence) :
    matchRolled digit ('.' :: (formatTime d hour minute second ++ s)) =
      some (formatTime d hour minute second, sequence) := by
  have hwrite : formatTime d hour minute second ++ s = formatDate d ++ ('_' ::
      (padded 2 hour ++ '-' :: padded 2 minute ++ '-' :: padded 2 second ++ s)) := by
    simp [formatTime]
  have hseq : matchSequence digit ('_' ::
      (padded 2 hour ++ '-' :: padded 2 minute ++ '-' :: padded 2 second ++ s)) = none := by
    simp [matchSequence, takeChar]
  rw [hwrite]
  simp only [matchRolled, takeChar_cons, matchTriple_formatDate hdigit h, hseq,
    matchTriple_padded hdigit hhour (by decide : 0 < 2) hminute hsecond, hs, bind_eq_bind,
    bind_some, bind_none, none_or]
  simp [formatTime]

theorem formatPeriod_reads (hdigit : ∀ c : Char, c.isDigit → digit c) {now : DateTime}
    (h : now.date.Tells) {s sequence : Name} (hs : matchSequence digit s = some sequence) :
    matchRolled digit ('.' :: (p.formatPeriod (calculatePeriodStart now p) ++ s)) =
        some (p.formatPeriod (calculatePeriodStart now p), sequence) ∧
      parseDatetime (p.formatPeriod (calculatePeriodStart now p)) =
        some (calculatePeriodStart now p) := by
  have hhour := now.hour_lt
  have hminute := now.minute_lt
  have hhour' : now.hour < 10 ^ 2 := by omega
  have hminute' : now.minute < 10 ^ 2 := by omega
  unfold formatPeriod calculatePeriodStart
  cases p.timeGranularity with
  | minutely =>
    exact ⟨formatTime_reads hdigit h hhour' hminute' (by decide) hs,
      parseDatetime_formatTime h hhour hminute (by decide)⟩
  | hourly =>
    exact ⟨formatTime_reads hdigit h hhour' (by decide) (by decide) hs,
      parseDatetime_formatTime h hhour (by decide) (by decide)⟩
  | never =>
    exact ⟨formatDate_reads hdigit unixEpoch_tells hs, parseDatetime_formatDate unixEpoch_tells⟩
  | daily => exact ⟨formatDate_reads hdigit h hs, parseDatetime_formatDate h⟩
  | other => exact ⟨formatDate_reads hdigit h hs, parseDatetime_formatDate h⟩

theorem slash_not_mem_padded (width n : ℕ) : '/' ∉ padded width n := fun hmem => by
  have := isDigit_of_mem_padded hmem
  revert this
  decide

theorem slash_not_mem_formatDate (d : NaiveDate) : '/' ∉ formatDate d := by
  rw [formatDate, formatYear]
  split_ifs <;> simp [slash_not_mem_padded]

theorem slash_not_mem_formatPeriod (t : DateTime) : '/' ∉ p.formatPeriod t := by
  unfold formatPeriod
  cases p.timeGranularity <;> simp [formatTime, slash_not_mem_padded, slash_not_mem_formatDate]

/-- A policy whose prefix has no dot and whose suffix does not start with a digit parses its names
back, when they do not look compressed. -/
theorem parsesBack_of_name (hdigit : ∀ c : Char, c.isDigit → digit c)
    ( hprefix : '.' ∉ p.fileNamePrefix) (hsuffix : ∀ c ∈ p.fileNameSuffix.head?, digit c = false)
    (hfile : '/' ∉ p.fileNamePrefix ∧ '/' ∉ p.fileNameSuffix)
    (hplain : ∀ s : Name, ¬ p.compressedSuffix <:+ s ++ p.fileNameSuffix)
    {now : DateTime} (h : now.date.Tells) : p.ParsesBack digit (calculatePeriodStart now p) := by
  intro sequence hlt
  have hseq := matchSequence_toDigits hdigit hsuffix sequence
  obtain ⟨hmatch, hparse⟩ := formatPeriod_reads (p := p) hdigit h hseq
  have hnot : p.compressedSuffix.isSuffixOf
      (p.rolledPath (calculatePeriodStart now p) sequence) = false := by
    rw [Bool.eq_false_iff, Ne, isSuffixOf_iff_suffix]
    have hend := hplain (p.fileNamePrefix ++ '.' :: (p.formatPeriod (calculatePeriodStart now p) ++
      '.' :: Nat.toDigits 10 sequence))
    simpa [rolledPath] using hend
  have hcaptures : captures digit (p.rolledPath (calculatePeriodStart now p) sequence) =
      some (p.formatPeriod (calculatePeriodStart now p), Nat.toDigits 10 sequence) := by
    rw [rolledPath, captures_append _ hprefix, captures, hmatch, some_or]
  refine ⟨?_, false, ?_⟩
  · have hslash : '/' ∉ Nat.toDigits 10 sequence := fun hmem => by
      have := Nat.isDigit_of_mem_toDigits (by decide) (by decide) hmem
      revert this
      decide
    simp [IsFileName, rolledPath, hfile, hslash, slash_not_mem_formatPeriod]
  · have hpre : p.fileNamePrefix.isPrefixOf
        (p.rolledPath (calculatePeriodStart now p) sequence) = true := by
      rw [ isPrefixOf_iff_prefix, rolledPath]
      exact prefix_append _ _
    simp [parseName, hpre, nameToParse, hnot, hcaptures, hparse, parseSequence_toDigits hlt]

end RollingPolicy

end Fibre.Logging
