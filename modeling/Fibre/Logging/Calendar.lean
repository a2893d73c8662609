import Mathlib.Algebra.Group.Nat.Defs
import Mathlib.Data.List.Basic
import Mathlib.Data.Prod.Lex

/-!
# Moments, and how file names write them

A moment in UTC by its civil fields, in the order of time, with the two texts the names of rolled
files use: a date, and a date with a time of day.
-/

namespace Fibre.Logging

open List Option

abbrev Name := List Char

theorem lawfulBEq_name : LawfulBEq Name := inferInstance

def isLeapYear (y : ℤ) : Bool := y % 4 = 0 && (y % 100 ≠ 0 || y % 400 = 0)

def daysInMonth (y : ℤ) (m : ℕ) : ℕ :=
  match m with
  | 2 => if isLeapYear y then 29 else 28
  | 4 | 6 | 9 | 11 => 30
  | _ => 31

def validDate (y : ℤ) (m d : ℕ) : Bool := 1 ≤ m && m ≤ 12 && 1 ≤ d && d ≤ daysInMonth y m

/-- A day of the calendar. -/
@[ext] structure NaiveDate where
  year : ℤ
  month : ℕ
  day : ℕ
  valid : validDate year month day
  deriving DecidableEq

/-- A moment. -/
@[ext] structure DateTime where
  date : NaiveDate
  hour : ℕ
  minute : ℕ
  second : ℕ
  /-- a billion more in a leap second -/
  nanosecond : ℕ
  hour_lt : hour < 24 := by decide
  minute_lt : minute < 60 := by decide
  second_lt : second < 60 := by decide
  nanosecond_lt : nanosecond < 2000000000 := by decide
  deriving DecidableEq

namespace DateTime

/-- The fields, from the greatest to the smallest. -/
def fields (t : DateTime) : ℤ ×ₗ ℕ ×ₗ ℕ ×ₗ ℕ ×ₗ ℕ ×ₗ ℕ ×ₗ ℕ :=
  toLex (t.date.year, toLex (t.date.month, toLex (t.date.day, toLex (t.hour, toLex (t.minute,
    toLex (t.second, t.nanosecond))))))

theorem fields_injective : Function.Injective fields := by
  intro s t h
  simp only [fields, EmbeddingLike.apply_eq_iff_eq, Prod.mk.injEq] at h
  obtain ⟨hyear, hmonth, hday, hhour, hminute, hsecond, hnano⟩ := h
  exact DateTime.ext (NaiveDate.ext hyear hmonth hday) hhour hminute hsecond hnano

instance : LinearOrder DateTime := LinearOrder.lift' fields fields_injective

/-- The first moment of a day. -/
def midnight (date : NaiveDate) : DateTime where
  date := date
  hour := 0
  minute := 0
  second := 0
  nanosecond := 0

end DateTime

/-! ### Writing -/

/-- A number, with zeros in front up to the width. -/
def padded (width n : ℕ) : Name :=
  List.replicate (width - (Nat.toDigits 10 n).length) '0' ++ Nat.toDigits 10 n

/-- `%Y`: a year out of four digits is written with its sign. -/
def formatYear (y : ℤ) : Name :=
  if 0 ≤ y ∧ y ≤ 9999 then padded 4 y.toNat
  else (if y < 0 then '-' else '+') :: padded 4 y.natAbs

/-- `%Y-%m-%d`. -/
def formatDate (d : NaiveDate) : Name :=
  formatYear d.year ++ '-' :: padded 2 d.month ++ '-' :: padded 2 d.day

/-- `%Y-%m-%d_` and a time of day. -/
def formatTime (d : NaiveDate) (hour minute second : ℕ) : Name :=
  formatDate d ++ '_' :: padded 2 hour ++ '-' :: padded 2 minute ++ '-' :: padded 2 second

/-! ### Reading -/

/-- Takes exactly `n` decimal digits. -/
def takeNumber (n : ℕ) (s : Name) : Option (ℕ × Name) :=
  if (s.take n).length = n ∧ (s.take n).all Char.isDigit then
    some (Nat.ofDigitChars 10 (s.take n) 0, s.drop n)
  else none

def takeChar (c : Char) : Name → Option Name
  | x :: s => if x = c then some s else none
  | [] => none

/-- `%Y-%m-%d`. -/
def takeDate (s : Name) : Option (NaiveDate × Name) := do
  let (y, s) ← takeNumber 4 s
  let s ← takeChar '-' s
  let (m, s) ← takeNumber 2 s
  let s ← takeChar '-' s
  let (d, s) ← takeNumber 2 s
  if valid : validDate y m d then some (⟨y, m, d, valid⟩, s) else none

/-- `%Y-%m-%d_%H-%M-%S`, to the end of the text. -/
def parseTime (s : Name) : Option DateTime := do
  let (date, s) ← takeDate s
  let s ← takeChar '_' s
  let (hour, s) ← takeNumber 2 s
  let s ← takeChar '-' s
  let (minute, s) ← takeNumber 2 s
  let s ← takeChar '-' s
  let (second, s) ← takeNumber 2 s
  if h : s = [] ∧ hour < 24 ∧ minute < 60 ∧ second ≤ 60 then
    -- second 60 is a leap second
    some ⟨date, hour, minute, min second 59, if second = 60 then 1000000000 else 0, h.2.1, h.2.2.1,
      by omega, by split_ifs <;> decide⟩
  else none

/-- `parse_datetime_from_str`: a date and a time, or else a date alone. -/
def parseDatetime (s : Name) : Option DateTime :=
  (parseTime s).or do
    let (date, s) ← takeDate s
    if s = [] then some (.midnight date) else none

/-! ### What is written is read back -/

theorem length_padded {width n : ℕ} (hn : n < 10 ^ width) (hw : 0 < width) :
    (padded width n).length = width := by
  have hle : (Nat.toDigits 10 n).length ≤ width := (Nat.length_toDigits_le_iff (by decide) hw).mpr hn
  rw [padded, length_append, length_replicate]
  omega

theorem isDigit_of_mem_padded {width n : ℕ} {c : Char} (h : c ∈ padded width n) : c.isDigit := by
  rcases mem_append.mp h with h | h
  · obtain ⟨-, rfl⟩ := mem_replicate.mp h
    decide
  · exact Nat.isDigit_of_mem_toDigits (by decide) (by decide) h

theorem ofDigitChars_padded (width n : ℕ) : Nat.ofDigitChars 10 (padded width n) 0 = n := by
  rw [padded, Nat.ofDigitChars_append, Nat.ofDigitChars_replicate_zero, Nat.mul_zero,
    Nat.ofDigitChars_ten_toDigits]

theorem take_padded_append {width n : ℕ} (hn : n < 10 ^ width) (hw : 0 < width) (s : Name) :
    (padded width n ++ s).take width = padded width n := by
  have hlen := length_padded hn hw
  rw [take_append_of_le_length hlen.ge, take_of_length_le hlen.le]

theorem drop_padded_append {width n : ℕ} (hn : n < 10 ^ width) (hw : 0 < width) (s : Name) :
    (padded width n ++ s).drop width = s := by
  have hlen := length_padded hn hw
  rw [drop_append_of_le_length hlen.ge, drop_of_length_le hlen.le, nil_append]

theorem takeNumber_padded {width n : ℕ} (hn : n < 10 ^ width) (hw : 0 < width) (s : Name) :
    takeNumber width (padded width n ++ s) = some (n, s) := by
  have hall : (padded width n).all Char.isDigit := all_eq_true.mpr fun _ hc =>
    isDigit_of_mem_padded hc
  rw [takeNumber, take_padded_append hn hw, drop_padded_append hn hw,
    if_pos ⟨length_padded hn hw, hall⟩, ofDigitChars_padded]

theorem takeChar_cons (c : Char) (s : Name) : takeChar c (c :: s) = some s := if_pos rfl

/-- A day of a year of four digits. -/
structure NaiveDate.Tells (d : NaiveDate) : Prop where
  year_nonneg : 0 ≤ d.year
  year_le : d.year ≤ 9999

namespace NaiveDate

variable (d : NaiveDate)

theorem month_lt : d.month < 10 ^ 2 := by
  have := d.valid
  simp only [validDate, Bool.and_eq_true, decide_eq_true_eq] at this
  omega

theorem daysInMonth_le (y : ℤ) (m : ℕ) : daysInMonth y m ≤ 31 := by
  unfold daysInMonth
  split
  · split_ifs <;> decide
  all_goals decide

theorem day_lt : d.day < 10 ^ 2 := by
  have hdate := d.valid
  simp only [validDate, Bool.and_eq_true, decide_eq_true_eq] at hdate
  have := daysInMonth_le d.year d.month
  omega

variable {d}

theorem Tells.takeDate (h : d.Tells) (s : Name) : takeDate (formatDate d ++ s) = some (d, s) := by
  have hyear : d.year.toNat < 10 ^ 4 := by
    have := h.year_le
    omega
  have hback : (d.year.toNat : ℤ) = d.year := Int.toNat_of_nonneg h.year_nonneg
  have hwrite : formatDate d ++ s = padded 4 d.year.toNat ++ ('-' :: (padded 2 d.month ++
      ('-' :: (padded 2 d.day ++ s)))) := by
    rw [formatDate, formatYear, if_pos ⟨h.year_nonneg, h.year_le⟩]
    simp
  rw [hwrite]
  simp only [Logging.takeDate, takeNumber_padded hyear (by decide),
    takeNumber_padded d.month_lt (by decide), takeNumber_padded d.day_lt (by decide), takeChar_cons,
    bind_eq_bind, bind_some, hback, dif_pos d.valid]

end NaiveDate

theorem parseDatetime_formatDate {d : NaiveDate} (h : d.Tells) :
    parseDatetime (formatDate d) = some (.midnight d) := by
  have hdate := h.takeDate []
  rw [append_nil] at hdate
  have htime : parseTime (formatDate d) = none := by
    simp [parseTime, hdate, takeChar]
  simp [parseDatetime, htime, hdate]

theorem parseDatetime_formatTime {d : NaiveDate} (h : d.Tells) {hour minute second : ℕ}
    (hhour : hour < 24) (hminute : minute < 60) (hsecond : second < 60) :
    parseDatetime (formatTime d hour minute second) =
      some ⟨d, hour, minute, second, 0, hhour, hminute, hsecond, by decide⟩ := by
  have hwrite : formatTime d hour minute second = formatDate d ++ ('_' :: (padded 2 hour ++
      ('-' :: (padded 2 minute ++ ('-' :: (padded 2 second ++ [])))))) := by
    simp [formatTime]
  have hmin : min second 59 = second := by omega
  have hne : second ≠ 60 := by omega
  have htime : parseTime (formatTime d hour minute second) =
      some ⟨d, hour, minute, second, 0, hhour, hminute, hsecond, by decide⟩ := by
    rw [hwrite]
    simp only [parseTime, h.takeDate, takeChar_cons, takeNumber_padded (by omega : hour < 10 ^ 2),
      takeNumber_padded (by omega : minute < 10 ^ 2), takeNumber_padded (by omega : second < 10 ^ 2),
      bind_eq_bind, bind_some, Nat.zero_lt_two, hmin, hne, if_false]
    rw [dif_pos ⟨trivial, hhour, hminute, by omega⟩]
  rw [parseDatetime, htime]
  rfl

end Fibre.Logging
