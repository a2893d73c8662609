import Mathlib.Data.Char
import Mathlib.Data.List.Lex
import Fibre.Logging.Config
import Fibre.Logging.Pattern

/-!
# Formatting log events

The formatter writes the literals of its pattern and what its specifiers stand for, one after the
other, and ends with a newline. A specifier with a width is filled up with spaces, on the left for a
positive width and on the right for a negative one.

Whether a content is wide enough is asked of its bytes; the spaces are added by the formatting
machinery of the standard library, which counts characters, and takes widths up to a limit (`u16` since
Rust 1.87) with a panic beyond it. The limit is a parameter, and so is what the calendar library writes.
-/

namespace Fibre.Logging

open List

/-- The value of a field. A `Float` is the text it is shown as. -/
inductive LogValue
  | string (s : Name)
  | int (i : Int64)
  | float (shown : Name)
  | bool (b : Bool)
  | debug (d : Name)

/-- `Display` -/
def LogValue.display : LogValue → Name
  | string s | float s | debug s => s
  | int i => (toString i.toInt).toList
  | bool b => (if b then "true" else "false").toList

/-- `Display` -/
def Level.display : Level → Name
  | error => "ERROR".toList
  | warn => "WARN".toList
  | info => "INFO".toList
  | debug => "DEBUG".toList
  | trace => "TRACE".toList

/-- What formatting reads of an event. -/
structure LogEvent where
  timestamp : DateTime
  level : Level
  target : Name
  message : Option Name
  fields : Entries LogValue
  threadName : Option Name

/-- What the calendar library writes. -/
structure DateTexts where
  /-- `write_timestamp` -/
  timestamp : DateTime → Name
  /-- `write_timestamp_with_format` -/
  withFormat : DateTime → Name → Name
  /-- the probe of `validate_pattern` is written without an error -/
  valid : Name → Bool

/-- The bytes of a text. -/
def utf8 (s : Name) : List UInt8 := s.flatMap String.utf8EncodeChar

namespace PatternFormatter

section

variable (limit : ℕ) (dates : DateTexts)

/-- What `%X` without a name stands for. -/
def allFields (fields : List (Name × LogValue)) : Name :=
  if fields = [] then []
  else
    let shown := (fields.filter fun f => f.1 ≠ "message".toList).mergeSort fun f g => f.1 ≤ g.1
    '{' :: ([',', ' '].intercalate (shown.map fun f => f.1 ++ '=' :: f.2.display) ++ ['}'])

/-- What a specifier stands for. Unknown ones stand for nothing. -/
def content (event : LogEvent) (spec : PatternSpecifier) : Name :=
  match spec.converter with
  | 'd' =>
    match spec.options with
    | some format => dates.withFormat event.timestamp format
    | none => dates.timestamp event.timestamp
  | 'p' | 'l' => event.level.display
  | 't' => event.target
  | 'm' => event.message.getD []
  | 'T' => event.threadName.getD []
  | 'n' => ['\n']
  | 'X' =>
    match spec.options with
    | some name => ((event.fields.list.lookup name).map LogValue.display).getD []
    | none => allFields event.fields.list
  | _ => []

/-- `apply_padding`. There is no result when it panics. -/
def applyPadding (text : Name) (padding : Int32) : Option Name :=
  -- the least `i32` has no absolute value
  if padding = Int32.minValue then none
  else
    let width := padding.toInt.natAbs
    if width ≤ (utf8 text).length then some text
    else if limit < width then none
    else
      let spaces := List.replicate (width - text.length) ' '
      some (if 0 < padding then spaces ++ text else text ++ spaces)

/-- `format_specifier`: what it adds to the line. A newline is not padded. -/
def formatSpecifier (event : LogEvent) (spec : PatternSpecifier) : Option Name :=
  if spec.converter = 'n' then some (content dates event spec)
  else match spec.padding with
    | none => some (content dates event spec)
    | some padding => applyPadding limit (content dates event spec) padding

/-- The segments, one after the other. -/
def formatSegments (event : LogEvent) : List Segment → Option Name
  | [] => some []
  | .literal text :: rest => (formatSegments event rest).map (text ++ ·)
  | .specifier spec :: rest => do
    let field ← formatSpecifier limit dates event spec
    let output ← formatSegments event rest
    some (field ++ output)

/-- `format_event` -/
def formatEvent (segments : List Segment) (event : LogEvent) : Option (List UInt8) :=
  (formatSegments limit dates event segments).map fun output =>
    utf8 (if output.getLast? = some '\n' then output else output ++ ['\n'])

def knownConverters : List Char := ['d', 'p', 'l', 't', 'm', 'T', 'n', 'X']

/-- What `validate_pattern` finds wrong with a segment. -/
def validateSegment : Segment → Except Name Unit
  | .literal _ => .ok ()
  | .specifier spec =>
    if spec.converter ∉ knownConverters then
      .error ("Unknown conversion specifier '%".toList ++ spec.converter ::
        "'. Known specifiers: %d, %p, %l, %t, %m, %T, %n, %X.".toList)
    else match spec.converter, spec.options with
      | 'd', some format =>
        if dates.valid format then .ok ()
        else .error ("Invalid date format string '".toList ++ format ++
          "' in %d\x7b...\x7d.".toList)
      | _, _ => .ok ()

/-- `validate_pattern` -/
def validatePattern (digit : Char → Bool) (pattern : Name) : Except Name Unit :=
  (parse digit pattern).forM (validateSegment dates)

end

/-! ### Texts and their bytes -/

theorem utf8_append (s t : Name) : utf8 (s ++ t) = utf8 s ++ utf8 t := flatMap_append

theorem length_le_utf8 (s : Name) : s.length ≤ (utf8 s).length := by
  induction s with
  | nil => exact le_rfl
  | cons c s ih =>
    have hpos := c.utf8Size_pos
    have hcons : utf8 (c :: s) = String.utf8EncodeChar c ++ utf8 s := flatMap_cons
    rw [hcons, length_append, String.length_utf8EncodeChar, length_cons]
    omega

theorem utf8_newline : utf8 ['\n'] = [10] := rfl

/-! ### What a line shows -/

section

variable (limit : ℕ) (dates : DateTexts) (event : LogEvent)

/-- The width of the specifier, if it has one, is one that the content has, or one that can be made
for it. -/
def Fits (spec : PatternSpecifier) : Prop :=
  spec.converter = 'n' ∨ ∀ padding ∈ spec.padding, padding ≠ Int32.minValue ∧
    (padding.toInt.natAbs ≤ (utf8 (content dates event spec)).length ∨
      padding.toInt.natAbs ≤ limit)

/-- What is written for a segment: the literal, or the content with spaces around it. -/
inductive Shows : Segment → Name → Prop
  | literal (text : Name) : Shows (.literal text) text
  | specifier (spec : PatternSpecifier) (left right : ℕ) : Shows (.specifier spec)
      (List.replicate left ' ' ++ content dates event spec ++ List.replicate right ' ')

def Formats (segments : List Segment) (line : List UInt8) : Prop :=
  line.getLast? = some 10 ∧ ∃ fields, List.Forall₂ (Shows dates event) segments fields ∧
    (line = utf8 fields.flatten ∨ line = utf8 fields.flatten ++ [10])

end

variable {limit : ℕ} {dates : DateTexts} {event : LogEvent} {spec : PatternSpecifier}
variable {text field : Name} {padding : Int32}

theorem applyPadding_eq_some (h : applyPadding limit text padding = some field) :
    ∃ left right, field = List.replicate left ' ' ++ text ++ List.replicate right ' ' := by
  simp only [applyPadding] at h
  split_ifs at h with hmin hwide hlimit hpos
  · exact ⟨0, 0, by simp [Option.some.inj h]⟩
  · exact ⟨padding.toInt.natAbs - text.length, 0, by simp [← Option.some.inj h]⟩
  · exact ⟨0, padding.toInt.natAbs - text.length, by simp [← Option.some.inj h]⟩

theorem isSome_applyPadding : (applyPadding limit text padding).isSome ↔
    padding ≠ Int32.minValue ∧
      (padding.toInt.natAbs ≤ (utf8 text).length ∨ padding.toInt.natAbs ≤ limit) := by
  simp only [applyPadding]
  split_ifs with hmin hwide hlimit hpos
  · simp [hmin]
  · simp [hmin, hwide]
  · have : ¬ padding.toInt.natAbs ≤ limit := not_le.mpr hlimit
    simp [hwide, this]
  · simp [hmin, not_lt.mp hlimit]
  · simp [hmin, not_lt.mp hlimit]

theorem isSome_formatSpecifier :
    (formatSpecifier limit dates event spec).isSome ↔ Fits limit dates event spec := by
  rw [formatSpecifier, Fits]
  split_ifs with hn
  · simp [hn]
  · cases spec.padding with
    | none => simp
    | some padding =>
      dsimp only
      rw [isSome_applyPadding]
      simp [hn]

theorem formatSpecifier_shows (h : formatSpecifier limit dates event spec = some field) :
    Shows dates event (.specifier spec) field := by
  have hplain : some (content dates event spec) = some field →
      Shows dates event (.specifier spec) field := by
    intro heq
    have hshows : Shows dates event (.specifier spec) _ := .specifier spec 0 0
    rw [← Option.some.inj heq]
    simpa using hshows
  rw [formatSpecifier] at h
  split_ifs at h with hn
  · exact hplain h
  · cases hpadding : spec.padding with
    | none => exact hplain (by simpa [hpadding] using h)
    | some padding =>
      obtain ⟨left, right, rfl⟩ := applyPadding_eq_some (by simpa [hpadding] using h)
      exact .specifier spec left right

theorem isSome_formatSegments (segments : List Segment) :
    (formatSegments limit dates event segments).isSome ↔
      ∀ spec, .specifier spec ∈ segments → Fits limit dates event spec := by
  induction segments with
  | nil => simp [formatSegments]
  | cons segment rest ih =>
    cases segment with
    | literal text => simp [formatSegments, ih]
    | specifier spec =>
      have hcons : (formatSegments limit dates event (.specifier spec :: rest)).isSome ↔
          (formatSpecifier limit dates event spec).isSome ∧
            (formatSegments limit dates event rest).isSome := by
        rw [formatSegments]
        cases formatSpecifier limit dates event spec <;>
          cases formatSegments limit dates event rest <;> simp
      rw [hcons, isSome_formatSpecifier, ih]
      simp only [mem_cons, Segment.specifier.injEq]
      exact ⟨fun h spec' hmem => hmem.elim (fun heq => heq ▸ h.1) (h.2 spec'),
        fun h => ⟨h spec (.inl rfl), fun spec' hmem => h spec' (.inr hmem)⟩⟩

theorem formatSegments_shows (segments : List Segment) {output : Name}
    (h : formatSegments limit dates event segments = some output) :
    ∃ fields, List.Forall₂ (Shows dates event) segments fields ∧ output = fields.flatten := by
  induction segments generalizing output with
  | nil => exact ⟨[], .nil, (Option.some.inj h).symm⟩
  | cons segment rest ih =>
    cases segment with
    | literal text =>
      obtain ⟨output', hrest, rfl⟩ := Option.map_eq_some_iff.mp h
      obtain ⟨fields, hshows, rfl⟩ := ih hrest
      exact ⟨text :: fields, .cons (.literal text) hshows, rfl⟩
    | specifier spec =>
      simp only [formatSegments, Option.bind_eq_bind, Option.bind_eq_some_iff] at h
      obtain ⟨field, hfield, output', hrest, h⟩ := h
      obtain ⟨fields, hshows, rfl⟩ := ih hrest
      exact ⟨field :: fields, .cons (formatSpecifier_shows hfield) hshows, (Option.some.inj h).symm⟩

theorem formatEvent_formats (segments : List Segment) {line : List UInt8}
    (h : formatEvent limit dates segments event = some line) : Formats dates event segments line := by
  obtain ⟨output, houtput, rfl⟩ := Option.map_eq_some_iff.mp h
  obtain ⟨fields, hshows, rfl⟩ := formatSegments_shows segments houtput
  have hline : (utf8 (fields.flatten ++ ['\n'])).getLast? = some 10 := by
    rw [utf8_append, utf8_newline]
    simp
  split_ifs with hnewline
  · obtain ⟨front, hfront⟩ := List.getLast?_eq_some_iff.mp hnewline
    refine ⟨?_, fields, hshows, .inl rfl⟩
    rw [hfront, utf8_append, utf8_newline]
    simp
  · exact ⟨hline, fields, hshows, .inr (utf8_append _ _)⟩

/-- An event is formatted, as the pattern says, exactly when all widths fit. -/
theorem formats_iff (digit : Char → Bool) (pattern : Name) (limit : ℕ) (dates : DateTexts)
    (event : LogEvent) :
    (∃ line, formatEvent limit dates (parse digit pattern) event = some line ∧
      Formats dates event (parse digit pattern) line) ↔
      ∀ spec, .specifier spec ∈ parse digit pattern → Fits limit dates event spec := by
  rw [← isSome_formatSegments]
  constructor
  · rintro ⟨line, hline, -⟩
    obtain ⟨output, houtput, -⟩ := Option.map_eq_some_iff.mp hline
    exact Option.isSome_iff_exists.mpr ⟨output, houtput⟩
  · intro h
    have hsome : (formatEvent limit dates (parse digit pattern) event).isSome := by
      rwa [formatEvent, Option.isSome_map]
    obtain ⟨line, hline⟩ := Option.isSome_iff_exists.mp hsome
    exact ⟨line, hline, formatEvent_formats _ hline⟩

/-- A calendar library that writes nothing. -/
def noDates : DateTexts := ⟨fun _ => [], fun _ _ => [], fun _ => true⟩

/-- An event with a message of three characters of two bytes. -/
def umlauts : LogEvent where
  timestamp := RollingPolicy.unixEpoch
  level := .info
  target := []
  message := some ['ä', 'ö', 'ü']
  fields := ⟨[], .nil⟩
  threadName := none

/-- `%-2147483648m` is a valid pattern, and its width has no absolute value. -/
theorem not_formats_leastWidth :
    ¬ ∀ pattern event, validatePattern noDates Char.isDigit pattern = .ok () →
      ∃ line, formatEvent 65535 noDates (parse Char.isDigit pattern) event = some line ∧
        Formats noDates event (parse Char.isDigit pattern) line := by
  intro h
  obtain ⟨line, hline, -⟩ := h ['%', '-', '2', '1', '4', '7', '4', '8', '3', '6', '4', '8', 'm'] umlauts
    (by decide)
  have hnone : formatEvent 65535 noDates (parse Char.isDigit
      ['%', '-', '2', '1', '4', '7', '4', '8', '3', '6', '4', '8', 'm']) umlauts = none := by
    decide
  rw [hnone] at hline
  cases hline

/-! ### The width of a field -/

/-- The field has the width, or that of its text if it is wider, and the text is filled up with
spaces on the side that the sign says. -/
structure Aligned (padding : Int32) (text field : Name) : Prop where
  width : field.length = max padding.toInt.natAbs text.length
  side : ∃ n, field =
    if 0 < padding then List.replicate n ' ' ++ text else text ++ List.replicate n ' '
  unchanged : padding.toInt.natAbs ≤ text.length → field = text

theorem aligned_self (h : padding.toInt.natAbs ≤ text.length) : Aligned padding text text where
  width := (max_eq_right h).symm
  side := ⟨0, by simp⟩
  unchanged _ := rfl

theorem aligned_spaces (h : text.length < padding.toInt.natAbs) :
    Aligned padding text
      (if 0 < padding then List.replicate (padding.toInt.natAbs - text.length) ' ' ++ text
        else text ++ List.replicate (padding.toInt.natAbs - text.length) ' ') where
  width := by
    rw [max_eq_left h.le]
    split_ifs <;> simp only [length_append, length_replicate] <;> omega
  side := ⟨_, rfl⟩
  unchanged hle := absurd hle (not_le.mpr h)

/-- A field has its width exactly when the width has an absolute value, and the text reaches it in
characters, or falls short of it in bytes and the width can be made. Between the two, a text of
characters of several bytes is taken for wide enough. -/
theorem aligned_iff (hconverter : spec.converter ≠ 'n') (hpadding : spec.padding = some padding)
    (limit : ℕ) (dates : DateTexts) (event : LogEvent) :
    (∃ field, formatSpecifier limit dates event spec = some field ∧
      Aligned padding (content dates event spec) field) ↔
      padding ≠ Int32.minValue ∧
        (padding.toInt.natAbs ≤ (content dates event spec).length ∨
          (utf8 (content dates event spec)).length < padding.toInt.natAbs ∧
            padding.toInt.natAbs ≤ limit) := by
  rw [formatSpecifier, if_neg hconverter, hpadding]
  dsimp only
  generalize content dates event spec = text
  have hbytes := length_le_utf8 text
  by_cases hmin : padding = Int32.minValue
  · simp [applyPadding, hmin]
  by_cases hwide : padding.toInt.natAbs ≤ (utf8 text).length
  · -- the text is taken as it is
    rw [applyPadding, if_neg hmin, if_pos hwide]
    constructor
    · rintro ⟨field, hfield, haligned⟩
      obtain rfl := Option.some.inj hfield
      have hwidth := haligned.width
      exact ⟨hmin, .inl (by omega)⟩
    · rintro ⟨-, hchars | ⟨hshort, -⟩⟩
      · exact ⟨text, rfl, aligned_self hchars⟩
      · omega
  by_cases hlimit : limit < padding.toInt.natAbs
  · rw [applyPadding, if_neg hmin, if_neg hwide, if_pos hlimit]
    constructor
    · rintro ⟨field, hfield, -⟩
      cases hfield
    · rintro ⟨-, hchars | ⟨-, hle⟩⟩ <;> omega
  · have hlt : text.length < padding.toInt.natAbs := by omega
    rw [applyPadding, if_neg hmin, if_neg hwide, if_neg hlimit]
    exact ⟨fun _ => ⟨hmin, .inr ⟨not_le.mp hwide, not_lt.mp hlimit⟩⟩,
      fun _ => ⟨_, rfl, aligned_spaces hlt⟩⟩

/-- The message with width 8. -/
theorem aligned_iff_wide : ∃ field,
    formatSpecifier 65535 noDates umlauts ⟨'m', some 8, none⟩ = some field ∧
      Aligned 8 ['ä', 'ö', 'ü'] field :=
  (@aligned_iff ⟨'m', some 8, none⟩ 8 (by decide) rfl 65535 noDates umlauts).mpr
    ⟨by decide, .inr ⟨by decide, by decide⟩⟩

/-- With width 5 the message stays as it is: it has three characters, but six bytes. -/
theorem not_aligned_umlauts :
    ¬ ∀ (spec : PatternSpecifier) (padding : Int32) (event : LogEvent), spec.converter ≠ 'n' →
      spec.padding = some padding → ∃ field,
        formatSpecifier 65535 noDates event spec = some field ∧
          Aligned padding (content noDates event spec) field := by
  intro h
  obtain ⟨field, hfield, haligned⟩ := h ⟨'m', some 5, none⟩ 5 umlauts (by decide) rfl
  have hself : formatSpecifier 65535 noDates umlauts ⟨'m', some 5, none⟩ =
      some ['ä', 'ö', 'ü'] := by decide
  obtain rfl := Option.some.inj (hself.symm.trans hfield)
  exact absurd haligned.width (by decide)

end PatternFormatter

end Fibre.Logging
