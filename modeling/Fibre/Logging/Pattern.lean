import Mathlib.Algebra.Group.Int.Defs
import Fibre.Logging.RollingPolicy

/-!
# Patterns of log lines

A pattern is text with specifiers such as `%-5p` in it. Successive leftmost matches of a regular
expression cut it into pieces: the specifiers, doubled percent signs, and the text in between. The
formatter keeps them as segments, in which a doubled sign is the literal `%` and a specifier has its
width as a number.

The expression's `\d` takes every decimal digit of Unicode, which is a parameter here.
-/

namespace Fibre.Logging

open List

/-- A conversion specifier like `%-5p`. -/
structure PatternSpecifier where
  converter : Char
  padding : Option Int32
  options : Option Name
  deriving DecidableEq

/-- A piece of a parsed pattern. -/
inductive Segment
  | literal (text : Name)
  | specifier (spec : PatternSpecifier)
  deriving DecidableEq

/-- `str::parse::<i32>` of an optional minus sign and digits. -/
def parseI32 (s : Name) : Option Int32 :=
  let negative := s.head? = some '-'
  let digits := if negative then s.tail else s
  let n : ℤ := Nat.ofDigitChars 10 digits 0
  let i := if negative then -n else n
  -- digits that are not ASCII do not parse
  if digits.all Char.isDigit ∧ digits ≠ [] ∧ -2 ^ 31 ≤ i ∧ i < 2 ^ 31 then some (.ofInt i) else none

namespace PatternFormatter

/-- What a pattern is made of, as it is written. -/
inductive Piece
  | literal (text : Name)
  | specifier (padding : Option Name) (converter : Char) (options : Option Name)
  /-- `%%` -/
  | escaped
  deriving DecidableEq

namespace Piece

def segment : Piece → Segment
  | literal text => .literal text
  | specifier padding converter options => .specifier ⟨converter, padding.bind parseI32, options⟩
  | escaped => .literal ['%']

/-- The piece as it is written in the pattern. -/
def print : Piece → Name
  | literal text => text
  | specifier padding converter options =>
    '%' :: (padding.getD [] ++ converter :: options.elim [] fun o => '{' :: (o ++ ['}']))
  | escaped => ['%', '%']

end Piece

/-! ### The regular expression -/

section

variable (digit : Char → Bool)

/-- `-?\d+` -/
def matchPadding (s : Name) : Option (Name × Name) :=
  let sign : Name := if s.head? = some '-' then ['-'] else []
  let s := s.drop sign.length
  if s.takeWhile digit = [] then none else some (sign ++ s.takeWhile digit, s.dropWhile digit)

/-- `\{([^}]+)\}` -/
def matchOptions (s : Name) : Option (Name × Name) := do
  let s ← takeChar '{' s
  let rest ← takeChar '}' (s.dropWhile (· ≠ '}'))
  if s.takeWhile (· ≠ '}') = [] then none else some (s.takeWhile (· ≠ '}'), rest)

/-- `%(-?\d+)?([a-zA-Z])(?:\{([^}]+)\})?`. Width and options are taken where they can be: a letter
does not come earlier than behind all digits. -/
def matchSpecifier (s : Name) : Option (Piece × Name) := do
  let s ← takeChar '%' s
  let (padding, s) := match matchPadding digit s with
    | some r => (some r.1, r.2)
    | none => (none, s)
  match s with
  | [] => none
  | c :: s =>
    if !c.isAlpha then none
    else match matchOptions s with
      | some r => some (.specifier padding c (some r.1), r.2)
      | none => some (.specifier padding c none, s)

/-- `%%` -/
def matchEscaped (s : Name) : Option (Piece × Name) := do
  let s ← takeChar '%' s
  let s ← takeChar '%' s
  some (.escaped, s)

/-- `PATTERN_REGEX` at the start of a text. -/
def matchPattern (s : Name) : Option (Piece × Name) :=
  (matchSpecifier digit s).or (matchEscaped s)

/-- The leftmost match, with the text in front of it and the text behind it. -/
def findPattern : Name → Option (Name × Piece × Name)
  | [] => none
  | c :: s =>
    match matchPattern digit (c :: s) with
    | some r => some ([], r)
    | none => (findPattern s).map fun r => (c :: r.1, r.2)

/-- Text between two matches is a literal, if there is any. -/
def literals (text : Name) : List Piece := if text = [] then [] else [.literal text]

/-- The loop over `captures_iter`, and what is left behind the last match. -/
def piecesFuel : ℕ → Name → List Piece
  | 0, s => literals s
  | fuel + 1, s =>
    match findPattern digit s with
    | some r => literals r.1 ++ r.2.1 :: piecesFuel fuel r.2.2
    | none => literals s

/-- The pattern cut at its matches. Every match takes a character at least. -/
def pieces (pattern : Name) : List Piece := piecesFuel digit pattern.length pattern

/-- `PatternFormatter::parse` -/
def parse (pattern : Name) : List Segment := (pieces digit pattern).map Piece.segment

end

variable {digit : Char → Bool} {s rest : Name} {piece : Piece}

/-! ### A match and what is around it -/

theorem takeChar_eq_some {c : Char} (h : takeChar c s = some rest) : s = c :: rest := by
  cases s with
  | nil => cases h
  | cons x s =>
    rw [takeChar] at h
    split_ifs at h with hx
    rw [hx, Option.some.inj h]

theorem matchPadding_append {padding : Name} (h : matchPadding digit s = some (padding, rest)) :
    padding ++ rest = s := by
  simp only [matchPadding] at h
  split_ifs at h with hsign hnone hnone
  · obtain ⟨rfl, rfl⟩ := Prod.mk.inj (Option.some.inj h)
    obtain ⟨s, rfl⟩ := List.head?_eq_some_iff.mp hsign
    simp
  · obtain ⟨rfl, rfl⟩ := Prod.mk.inj (Option.some.inj h)
    simp

theorem matchOptions_append {options : Name} (h : matchOptions s = some (options, rest)) :
    '{' :: (options ++ ['}']) ++ rest = s := by
  simp only [matchOptions, Option.bind_eq_bind, Option.bind_eq_some_iff] at h
  obtain ⟨s₁, hopen, s₂, hclose, h⟩ := h
  split_ifs at h
  obtain ⟨rfl, rfl⟩ := Prod.mk.inj (Option.some.inj h)
  have hsplit := takeWhile_append_dropWhile (p := fun x => decide (x ≠ '}')) (l := s₁)
  rw [takeChar_eq_some hclose] at hsplit
  rw [takeChar_eq_some hopen]
  simpa using hsplit

theorem matchSpecifier_print (h : matchSpecifier digit s = some (piece, rest)) :
    piece.print ++ rest = s ∧ piece.print ≠ [] := by
  simp only [matchSpecifier, Option.bind_eq_bind, Option.bind_eq_some_iff] at h
  obtain ⟨s₁, hpercent, h⟩ := h
  rw [takeChar_eq_some hpercent]
  -- the width, if there is one, and the rest are the text behind the percent sign
  obtain ⟨padding, s₂, hpadding, hwidth⟩ : ∃ padding s₂, (match matchPadding digit s₁ with
      | some r => (some r.1, r.2)
      | none => (none, s₁)) = (padding, s₂) ∧ padding.getD [] ++ s₂ = s₁ := by
    cases hmatch : matchPadding digit s₁ with
    | none => exact ⟨none, s₁, rfl, rfl⟩
    | some r => exact ⟨some r.1, r.2, rfl, matchPadding_append hmatch⟩
  rw [hpadding] at h
  dsimp only at h
  cases s₂ with
  | nil => cases h
  | cons c s₃ =>
    dsimp only at h
    split_ifs at h
    cases hoptions : matchOptions s₃ with
    | none =>
      rw [hoptions] at h
      obtain ⟨rfl, rfl⟩ := Prod.mk.inj (Option.some.inj h)
      simp [Piece.print, ← hwidth]
    | some r =>
      rw [hoptions] at h
      obtain ⟨rfl, rfl⟩ := Prod.mk.inj (Option.some.inj h)
      have hend := matchOptions_append hoptions
      simp only [Piece.print, ← hwidth, ← hend]
      exact ⟨by simp, by simp⟩

theorem matchPattern_print (h : matchPattern digit s = some (piece, rest)) :
    piece.print ++ rest = s ∧ piece.print ≠ [] := by
  rw [matchPattern, Option.or_eq_some_iff] at h
  rcases h with h | ⟨-, h⟩
  · exact matchSpecifier_print h
  · simp only [matchEscaped, Option.bind_eq_bind, Option.bind_eq_some_iff] at h
    obtain ⟨s₁, hs₁, s₂, hs₂, h⟩ := h
    obtain ⟨rfl, rfl⟩ := Prod.mk.inj (Option.some.inj h)
    rw [takeChar_eq_some hs₁, takeChar_eq_some hs₂]
    exact ⟨rfl, by simp [Piece.print]⟩

attribute [local simp] findPattern piecesFuel

theorem findPattern_print {r : Name × Piece × Name} (h : findPattern digit s = some r) :
    r.1 ++ r.2.1.print ++ r.2.2 = s ∧ r.2.1.print ≠ [] := by
  induction s generalizing r with
  | nil => cases h
  | cons c s ih =>
    rw [findPattern] at h
    split at h
    next r' hmatch =>
      obtain rfl : _ = r := Option.some.inj h
      exact matchPattern_print hmatch
    next =>
      obtain ⟨r', hr, rfl⟩ := Option.map_eq_some_iff.mp h
      exact ⟨congrArg (c :: ·) (ih hr).1, (ih hr).2⟩

theorem length_of_findPattern {r : Name × Piece × Name} (h : findPattern digit s = some r) :
    r.2.2.length < s.length := by
  obtain ⟨hprint, hne⟩ := findPattern_print h
  have hpos := length_pos_of_ne_nil hne
  rw [← hprint, length_append, length_append]
  omega

/-! ### The pieces -/

theorem print_literals (text : Name) : (literals text).flatMap Piece.print = text := by
  rw [literals]
  split_ifs with h
  · exact h.symm
  · simp [Piece.print]

theorem print_piecesFuel (fuel : ℕ) (s : Name) :
    (piecesFuel digit fuel s).flatMap Piece.print = s := by
  induction fuel generalizing s with
  | zero => exact print_literals s
  | succ fuel ih =>
    rw [piecesFuel]
    split
    next r hfind =>
      rw [flatMap_append, print_literals, flatMap_cons, ih, ← append_assoc]
      exact (findPattern_print hfind).1
    next => exact print_literals s

/-- The loop ends because the pattern does. -/
theorem piecesFuel_eq {fuel fuel' : ℕ} (h : s.length ≤ fuel) (h' : s.length ≤ fuel') :
    piecesFuel digit fuel s = piecesFuel digit fuel' s := by
  induction fuel generalizing fuel' s with
  | zero =>
    obtain rfl := length_eq_zero_iff.mp (Nat.le_zero.mp h)
    cases fuel' <;> rfl
  | succ fuel ih =>
    cases fuel' with
    | zero =>
      obtain rfl := length_eq_zero_iff.mp (Nat.le_zero.mp h')
      rfl
    | succ fuel' =>
      rw [piecesFuel, piecesFuel]
      split
      next r hfind =>
        have hlt := length_of_findPattern hfind
        have htail : piecesFuel digit fuel r.2.2 = piecesFuel digit fuel' r.2.2 :=
          ih (by omega) (by omega)
        rw [htail]
      next => rfl

theorem pieces_of_find {r : Name × Piece × Name} (h : findPattern digit s = some r) :
    pieces digit s = literals r.1 ++ r.2.1 :: pieces digit r.2.2 := by
  have hlt := length_of_findPattern h
  obtain ⟨n, hn⟩ : ∃ n, s.length = n + 1 := ⟨s.length - 1, by omega⟩
  simp only [pieces, hn, piecesFuel, h]
  rw [piecesFuel_eq (by omega) le_rfl]

theorem pieces_of_none (h : findPattern digit s = none) : pieces digit s = literals s := by
  cases s with
  | nil => rfl
  | cons c s => simp only [pieces, length_cons, piecesFuel, h]

/-! ### Doubled percent signs -/

def double (text : Name) : Name := text.flatMap fun c => if c = '%' then ['%', '%'] else [c]

theorem double_of_notMem {text : Name} (h : '%' ∉ text) : double text = text := by
  induction text with
  | nil => rfl
  | cons c text ih =>
    rw [mem_cons, not_or] at h
    rw [double, flatMap_cons, if_neg (Ne.symm h.1)]
    exact congrArg (c :: ·) (ih h.2)

theorem matchPattern_of_ne {c : Char} (h : c ≠ '%') (s : Name) :
    matchPattern digit (c :: s) = none := by
  simp [matchPattern, matchSpecifier, matchEscaped, takeChar_of_ne h]

theorem matchPattern_escaped (hpercent : digit '%' = false) (s : Name) :
    matchPattern digit ('%' :: '%' :: s) = some (.escaped, s) := by
  have hpadding : matchPadding digit ('%' :: s) = none := by simp [matchPadding, hpercent]
  have hspecifier : matchSpecifier digit ('%' :: '%' :: s) = none := by
    simp only [matchSpecifier, takeChar_cons, Option.bind_eq_bind, Option.bind_some, hpadding]
    rfl
  rw [matchPattern, hspecifier, Option.none_or]
  rfl

theorem findPattern_append {before : Name} (h : '%' ∉ before) (s : Name) :
    findPattern digit (before ++ s) = (findPattern digit s).map fun r => (before ++ r.1, r.2) := by
  induction before with
  | nil => simp
  | cons c before ih =>
    rw [mem_cons, not_or] at h
    rw [cons_append, findPattern, matchPattern_of_ne (Ne.symm h.1), ih h.2, Option.map_map]
    rfl

theorem findPattern_of_notMem (h : '%' ∉ s) : findPattern digit s = none := by
  have hfind : findPattern digit (s ++ []) = none := by
    rw [findPattern_append h]
    rfl
  rwa [append_nil] at hfind

theorem segment_literals (text : Name) : ∃ texts : List Name,
    (literals text).map Piece.segment = texts.map Segment.literal ∧ texts.flatten = text := by
  rw [literals]
  split_ifs with h
  · exact ⟨[], rfl, h.symm⟩
  · exact ⟨[text], rfl, by simp⟩

theorem parse_double (hpercent : digit '%' = false) (text : Name) :
    ∃ texts : List Name, parse digit (double text) = texts.map Segment.literal ∧
      texts.flatten = text := by
  induction hn : text.length using Nat.strongRecOn generalizing text with
  | ind n ih =>
    by_cases hmem : '%' ∈ text
    · obtain ⟨before, behind, rfl, hbefore⟩ := eq_append_cons_of_mem hmem
      have hdouble : double (before ++ '%' :: behind) = before ++ '%' :: '%' :: double behind := by
        rw [double, flatMap_append, flatMap_cons]
        exact congrArg (· ++ _) (double_of_notMem hbefore)
      have hfind : findPattern digit (double (before ++ '%' :: behind)) =
          some (before, .escaped, double behind) := by
        rw [hdouble, findPattern_append hbefore, findPattern, matchPattern_escaped hpercent]
        simp
      obtain ⟨texts, hparse, hflatten⟩ := ih behind.length (by simp [← hn]; omega) behind rfl
      obtain ⟨first, hfirst, hflatten'⟩ := segment_literals before
      refine ⟨first ++ ['%'] :: texts, ?_, by simp [hflatten, hflatten']⟩
      rw [parse, pieces_of_find hfind, map_append, map_cons, hfirst, map_append,
        map_cons, ← hparse]
      rfl
    · rw [double_of_notMem hmem, parse, pieces_of_none (findPattern_of_notMem hmem)]
      exact segment_literals text

end PatternFormatter

end Fibre.Logging
