import Fibre.Logging.RollSteps

/-!
# When rolled names parse back

The scan of the directory takes the leftmost place of a name that fits the pattern, and knows a
compressed file by how its name ends. Whether it reads back the names that a policy makes depends on
the texts in the policy alone. A match can begin in the prefix, and end there or with the year
behind it. A suffix can go on with the digits of the sequence. And a plain name can end like a
compressed one.
-/

namespace Fibre.Logging

open List

variable {digit : Char → Bool}

/-! ### Matches that begin in front of a dot -/

section

variable (digit)

/-- `\.(\d+)`, in a text behind which a dot and `number` come. -/
def sequenceBefore (number s : Name) : Option Name :=
  if s = [] then (if number = [] then none else some number) else matchSequence digit s

/-- The pattern at the start of a text behind which a dot and `number` come. -/
def rolledBefore (number s : Name) : Option (Name × Name) := do
  let s ← takeChar '.' s
  let (date, s) ← matchTriple digit 4 s
  (do let sequence ← sequenceBefore digit number s
      some (date, sequence)).or do
    let s ← takeChar '_' s
    let (time, s) ← matchTriple digit 2 s
    let sequence ← sequenceBefore digit number s
    some (date ++ '_' :: time, sequence)

/-- The leftmost match that begins in a text behind which a dot and `number` come. -/
def capturesBefore (number : Name) : Name → Option (Name × Name)
  | [] => none
  | c :: s => (rolledBefore digit number (c :: s)).or (capturesBefore number s)

end

theorem takeWhile_append_cons {c : Char} (hc : digit c = false) (s w : Name) :
    (s ++ c :: w).takeWhile digit = s.takeWhile digit := by
  induction s with
  | nil => simp [hc]
  | cons x s ih =>
    rw [cons_append, takeWhile_cons, takeWhile_cons, ih]

theorem matchDigits_append (hdot : digit '.' = false) (n : ℕ) (s w : Name) :
    matchDigits digit n (s ++ '.' :: w) =
      (matchDigits digit n s).map fun r => (r.1, r.2 ++ '.' :: w) := by
  by_cases hle : n ≤ s.length
  · have htake : (s ++ '.' :: w).take n = s.take n := take_append_of_le_length hle
    have hdrop : (s ++ '.' :: w).drop n = s.drop n ++ '.' :: w := drop_append_of_le_length hle
    rw [matchDigits, matchDigits, htake, hdrop]
    split_ifs <;> rfl
  · -- the digits would have to go on through the dot
    have hlt : s.length < n := not_le.mp hle
    have hmem : '.' ∈ (s ++ '.' :: w).take n := by
      obtain ⟨k, hk⟩ : ∃ k, n - s.length = k + 1 := ⟨n - s.length - 1, by omega⟩
      rw [take_append, hk, take_succ_cons]
      simp
    have hnot : ¬ ((s ++ '.' :: w).take n).all digit := by
      rw [all_eq_true]
      intro hall
      simpa [hdot] using hall '.' hmem
    have hlen : (s.take n).length ≠ n := by
      rw [length_take]
      omega
    rw [matchDigits, matchDigits, if_neg (fun h => hnot h.2), if_neg (fun h => hlen h.1)]
    rfl

theorem takeChar_append {c : Char} (hc : c ≠ '.') (s w : Name) :
    takeChar c (s ++ '.' :: w) = (takeChar c s).map (· ++ '.' :: w) := by
  cases s with
  | nil => exact if_neg hc.symm
  | cons x s =>
    rw [cons_append, takeChar, takeChar]
    split_ifs <;> rfl

theorem matchTriple_append (hdot : digit '.' = false) (n : ℕ) (s w : Name) :
    matchTriple digit n (s ++ '.' :: w) =
      (matchTriple digit n s).map fun r => (r.1, r.2 ++ '.' :: w) := by
  have hdash : '-' ≠ '.' := by decide
  simp only [matchTriple, Option.bind_eq_bind, matchDigits_append hdot]
  cases matchDigits digit n s with
  | none => rfl
  | some a =>
    simp only [Option.map_some, Option.bind_some, takeChar_append hdash]
    cases takeChar '-' a.2 with
    | none => rfl
    | some s₁ =>
      simp only [Option.map_some, Option.bind_some, matchDigits_append hdot]
      cases matchDigits digit 2 s₁ with
      | none => rfl
      | some b =>
        simp only [Option.map_some, Option.bind_some, takeChar_append hdash]
        cases takeChar '-' b.2 with
        | none => rfl
        | some s₂ =>
          simp only [Option.map_some, Option.bind_some, matchDigits_append hdot]
          cases matchDigits digit 2 s₂ <;> rfl

theorem matchSequence_append (hdot : digit '.' = false) (s w : Name) :
    matchSequence digit (s ++ '.' :: w) = sequenceBefore digit (w.takeWhile digit) s := by
  cases s with
  | nil => simp [matchSequence, takeChar_cons, sequenceBefore]
  | cons x s =>
    rw [sequenceBefore, if_neg (by simp), matchSequence, matchSequence, cons_append, takeChar,
      takeChar]
    by_cases hx : x = '.'
    · simp only [if_pos hx, Option.bind_eq_bind, Option.bind_some, takeWhile_append_cons hdot]
    · simp only [if_neg hx, Option.bind_eq_bind, Option.bind_none]

theorem matchRolled_append (hdot : digit '.' = false) {s : Name} (hs : s ≠ []) (w : Name) :
    matchRolled digit (s ++ '.' :: w) = rolledBefore digit (w.takeWhile digit) s := by
  have hline : '_' ≠ '.' := by decide
  have hopen : takeChar '.' (s ++ '.' :: w) = (takeChar '.' s).map (· ++ '.' :: w) := by
    cases s with
    | nil => exact absurd rfl hs
    | cons x s =>
      rw [cons_append, takeChar, takeChar]
      split_ifs <;> rfl
  simp only [matchRolled, rolledBefore, hopen, Option.bind_eq_bind]
  cases takeChar '.' s with
  | none => rfl
  | some s₁ =>
    simp only [Option.map_some, Option.bind_some, matchTriple_append hdot]
    cases matchTriple digit 4 s₁ with
    | none => rfl
    | some date =>
      simp only [Option.map_some, Option.bind_some, takeChar_append hline,
        matchSequence_append hdot]
      cases takeChar '_' date.2 with
      | none => rfl
      | some s₂ =>
        simp only [Option.map_some, Option.bind_some, matchTriple_append hdot]
        cases matchTriple digit 2 s₂ with
        | none => rfl
        | some time => simp only [Option.map_some, Option.bind_some, matchSequence_append hdot]

theorem captures_append_dot (hdot : digit '.' = false) (s w : Name) :
    captures digit (s ++ '.' :: w) =
      (capturesBefore digit (w.takeWhile digit) s).or (captures digit ('.' :: w)) := by
  induction s with
  | nil => rfl
  | cons c s ih =>
    rw [cons_append, captures, ← cons_append, ih, matchRolled_append hdot (by simp),
      capturesBefore, Option.or_assoc]

theorem rolledBefore_isNone {number number' : Name} (h : number ≠ []) (h' : number' ≠ [])
    (s : Name) : (rolledBefore digit number s).isNone = (rolledBefore digit number' s).isNone := by
  have hseq (s : Name) : (sequenceBefore digit number s).isNone =
      (sequenceBefore digit number' s).isNone := by
    rw [sequenceBefore, sequenceBefore, if_neg h, if_neg h']
    split_ifs <;> rfl
  have hbind {α : Type} (f : Name → α) (s : Name) :
      ((sequenceBefore digit number s).bind fun x => some (f x)).isNone =
        ((sequenceBefore digit number' s).bind fun x => some (f x)).isNone := by
    have := hseq s
    cases hx : sequenceBefore digit number s <;> cases hy : sequenceBefore digit number' s <;>
      simp_all
  simp only [rolledBefore, Option.bind_eq_bind]
  cases takeChar '.' s with
  | none => rfl
  | some s₁ =>
    simp only [Option.bind_some]
    cases matchTriple digit 4 s₁ with
    | none => rfl
    | some date =>
      simp only [Option.bind_some, Option.isNone_or]
      rw [hbind fun x => (date.1, x)]
      congr 1
      cases takeChar '_' date.2 with
      | none => rfl
      | some s₂ =>
        simp only [Option.bind_some]
        cases matchTriple digit 2 s₂ with
        | none => rfl
        | some time => exact hbind (fun x => (date.1 ++ '_' :: time.1, x)) time.2

theorem capturesBefore_isNone {number number' : Name} (h : number ≠ []) (h' : number' ≠ [])
    (s : Name) :
    (capturesBefore digit number s).isNone = (capturesBefore digit number' s).isNone := by
  induction s with
  | nil => rfl
  | cons c s ih =>
    rw [capturesBefore, capturesBefore, Option.isNone_or, Option.isNone_or, ih,
      rolledBefore_isNone h h']

/-! ### The sequence and what follows it -/

theorem le_ofDigitChars (l : Name) (n : ℕ) : n ≤ Nat.ofDigitChars 10 l n := by
  induction l generalizing n with
  | nil => exact le_rfl
  | cons c l ih =>
    rw [Nat.ofDigitChars_cons]
    have := ih (10 * n + (c.toNat - '0'.toNat))
    omega

theorem eq_nil_of_parseSequence {l : Name}
    (h : parseSequence (Nat.toDigits 10 1 ++ l) = some 1) : l = [] := by
  cases l with
  | nil => rfl
  | cons c l =>
    rw [parseSequence] at h
    split_ifs at h with hall
    have hone : Nat.ofDigitChars 10 (Nat.toDigits 10 1 ++ c :: l) 0 = 1 := Option.some.inj h
    have hdigits : Nat.ofDigitChars 10 (Nat.toDigits 10 1) 0 = 1 := Nat.ofDigitChars_ten_toDigits
    rw [Nat.ofDigitChars_append, hdigits, Nat.ofDigitChars_cons] at hone
    have := le_ofDigitChars l (10 * 1 + (c.toNat - '0'.toNat))
    omega

namespace RollingPolicy

/-! ### Reading the names of a policy -/

section

variable (digit) (p : RollingPolicy)

def rolledName (t : DateTime) (sequence : ℕ) (isCompressed : Bool) : Name :=
  p.rolledPath t sequence ++ if isCompressed then p.compressedSuffix else []

/-- Where a directory has a file of the policy's name for a period and a sequence, the scan finds it
with that period and sequence, as what it is. -/
def ReadsBack : Prop :=
  ∀ now : DateTime, now.date.Tells → ∀ sequence < 2 ^ 32, ∀ isCompressed files order,
    let name := p.rolledName (calculatePeriodStart now p) sequence isCompressed
    files.isFile name → name ∈ order.names → ∀ e,
      e ∈ p.findRolledFiles digit files order ∧ e.path = name ↔
        e = ⟨calculatePeriodStart now p, sequence, name, isCompressed⟩

/-- The texts of the policy are not taken for parts of the pattern. -/
structure Clear : Prop where
  /-- no match begins in the prefix, not even one that ends with a number behind it -/
  opening : captures digit (p.fileNamePrefix ++ ['.', '0']) = none
  ending : ∀ c ∈ p.fileNameSuffix.head?, digit c = false
  /-- no plain name ends like a compressed one -/
  marked : ∀ now : DateTime, now.date.Tells → ∀ sequence < 2 ^ 32,
    ¬ p.compressedSuffix <:+ p.rolledPath (calculatePeriodStart now p) sequence
  file : '/' ∉ p.fileNamePrefix ∧ '/' ∉ p.fileNameSuffix ∧ '/' ∉ p.compressedSuffix

end

variable {p : RollingPolicy} {now : DateTime} {sequence : ℕ} {name : Name}

theorem calculatePeriodStart_tells (h : now.date.Tells) : (calculatePeriodStart now p).date.Tells := by
  unfold calculatePeriodStart
  cases p.timeGranularity with
  | never => exact unixEpoch_tells
  | minutely | hourly | daily | other => exact h

theorem takeWhile_formatPeriod (hdigit : ∀ c : Char, c.isDigit → digit c) {t : DateTime}
    (h : t.date.Tells) : (p.formatPeriod t).takeWhile digit ≠ [] := by
  have hyear : t.date.year.toNat < 10 ^ 4 := by
    have := h.year_le
    omega
  have hlen := length_padded hyear (by decide)
  obtain ⟨c, s, hcs⟩ : ∃ c s, padded 4 t.date.year.toNat = c :: s := by
    cases hpad : padded 4 t.date.year.toNat with
    | nil => simp [hpad] at hlen
    | cons c s => exact ⟨c, s, rfl⟩
  have hc : digit c := hdigit c (isDigit_of_mem_padded (hcs ▸ mem_cons_self))
  have hdate : formatDate t.date = c :: (s ++ '-' :: padded 2 t.date.month ++
      '-' :: padded 2 t.date.day) := by
    rw [formatDate, formatYear, if_pos ⟨h.year_nonneg, h.year_le⟩, hcs]
    rfl
  unfold formatPeriod
  cases p.timeGranularity <;> simp [formatTime, hdate, hc]

/-- What the scan makes of a name is about that name, whose end tells whether it is compressed. -/
theorem parseName_isCompressed {e : RolledFile} (h : p.parseName digit name = some e) :
    e.isCompressed = p.compressedSuffix.isSuffixOf name := by
  unfold parseName at h
  split_ifs at h
  simp only [Option.bind_eq_bind, Option.bind_eq_some_iff] at h
  obtain ⟨_, -, _, -, _, -, h⟩ := h
  rw [← Option.some.inj h]

theorem reads_iff (t : DateTime) (isCompressed : Bool) :
    (∀ files order, files.isFile name → name ∈ order.names → ∀ e,
      e ∈ p.findRolledFiles digit files order ∧ e.path = name ↔
        e = ⟨t, sequence, name, isCompressed⟩) ↔
      IsFileName name ∧ p.parseName digit name = some ⟨t, sequence, name, isCompressed⟩ := by
  have hmem {files : Files} {order : Listing} {e' : RolledFile} (hfile : files.isFile name)
      (hname : name ∈ order.names) : e' ∈ p.findRolledFiles digit files order ∧ e'.path = name ↔
        IsFileName name ∧ p.parseName digit name = some e' := by
    rw [findRolledFiles, sortFiles, StableSort.mem_sortDesc]
    constructor
    · rintro ⟨hscan, rfl⟩
      obtain ⟨name', -, hparse⟩ := mem_filterMap.mp hscan
      have hpath := parseName_path hparse
      exact ⟨(mem_scanned hscan).2, by rwa [hpath]⟩
    · rintro ⟨his, hparse⟩
      refine ⟨mem_filterMap.mpr ⟨name, mem_filter.mpr ⟨hname, ?_⟩, hparse⟩,
        parseName_path hparse⟩
      simp [hfile, his]
  constructor
  · intro h
    have hfile : Files.isFile (fun n => if n = name then some (.file []) else none) name := by
      simp [Files.isFile]
    let order : Listing := ⟨[name], nodup_singleton name⟩
    have hlisted : name ∈ order.names := mem_singleton_self name
    exact (hmem hfile hlisted).mp ((h _ order hfile hlisted _).mpr rfl)
  · rintro ⟨his, hparse⟩ files order hfile hname e
    rw [hmem hfile hname, hparse]
    exact ⟨fun h => (Option.some.inj h.2).symm, fun h => ⟨his, by rw [h]⟩⟩

theorem captures_rolledPath (hdot : digit '.' = false) (t : DateTime) (sequence : ℕ) :
    captures digit (p.rolledPath t sequence) =
      (capturesBefore digit ((p.formatPeriod t).takeWhile digit) p.fileNamePrefix).or
        (captures digit ('.' :: (p.formatPeriod t ++ '.' :: (Nat.toDigits 10 sequence ++
          p.fileNameSuffix)))) := by
  rw [rolledPath, captures_append_dot hdot, takeWhile_append_cons hdot]

theorem capturesBefore_of_opening (hdigit : ∀ c : Char, c.isDigit → digit c)
    (hdot : digit '.' = false) {number : Name} (hnumber : number ≠ []) :
    captures digit (p.fileNamePrefix ++ ['.', '0']) = none ↔
      capturesBefore digit number p.fileNamePrefix = none := by
  have hzero : ['0'].takeWhile digit = ['0'] := by simp [hdigit '0' rfl]
  have hend : captures digit ['.', '0'] = none := by
    simp [captures, matchRolled, matchTriple, matchDigits, takeChar]
  rw [captures_append_dot hdot, hzero, hend, Option.or_none, ← Option.isNone_iff_eq_none,
    capturesBefore_isNone (by simp) hnumber, Option.isNone_iff_eq_none]

theorem parseName_of_opening (hdigit : ∀ c : Char, c.isDigit → digit c) (hdot : digit '.' = false)
    (hopening : captures digit (p.fileNamePrefix ++ ['.', '0']) = none) (h : now.date.Tells)
    (hbegin : p.fileNamePrefix.isPrefixOf name)
    (hname : p.nameToParse name = p.rolledPath (calculatePeriodStart now p) sequence) :
    p.parseName digit name =
      (parseSequence (Nat.toDigits 10 sequence ++ p.fileNameSuffix.takeWhile digit)).map fun n =>
        ⟨calculatePeriodStart now p, n, name, p.compressedSuffix.isSuffixOf name⟩ := by
  have hseq := matchSequence_append_suffix hdigit sequence p.fileNameSuffix
  obtain ⟨hmatch, hparse⟩ := formatPeriod_reads (p := p) hdigit h hseq
  have hyear := takeWhile_formatPeriod (p := p) hdigit (calculatePeriodStart_tells (p := p) h)
  have hcaptures : captures digit (p.nameToParse name) =
      some (p.formatPeriod (calculatePeriodStart now p),
        Nat.toDigits 10 sequence ++ p.fileNameSuffix.takeWhile digit) := by
    rw [hname, captures_rolledPath hdot,
      (capturesBefore_of_opening hdigit hdot hyear).mp hopening, Option.none_or, captures, hmatch,
      Option.some_or]
  have hpre : ¬ (!p.fileNamePrefix.isPrefixOf name) = true := by simpa using hbegin
  simp only [parseName, if_neg hpre, hcaptures, hparse, Option.bind_eq_bind, Option.bind_some]
  cases parseSequence (Nat.toDigits 10 sequence ++ p.fileNameSuffix.takeWhile digit) <;> rfl

theorem isPrefixOf_rolledName (t : DateTime) (isCompressed : Bool) :
    p.fileNamePrefix.isPrefixOf (p.rolledName t sequence isCompressed) := by
  rw [ isPrefixOf_iff_prefix, rolledName, rolledPath, append_assoc]
  exact prefix_append _ _

theorem isFileName_rolledName
    (h : '/' ∉ p.fileNamePrefix ∧ '/' ∉ p.fileNameSuffix ∧ '/' ∉ p.compressedSuffix)
    (t : DateTime) (sequence : ℕ) (isCompressed : Bool) :
    IsFileName (p.rolledName t sequence isCompressed) := by
  obtain ⟨hbegin, hsuffix, hcompressed⟩ := h
  have hslash : '/' ∉ Nat.toDigits 10 sequence := fun hmem => by
    have := Nat.isDigit_of_mem_toDigits (by decide) (by decide) hmem
    revert this
    decide
  cases isCompressed <;>
    simp [IsFileName, rolledName, rolledPath, hbegin, hsuffix, hcompressed, hslash,
      slash_not_mem_formatPeriod]

/-- A plain name is not taken for a compressed one, and of a compressed one the end is taken off. -/
theorem nameToParse_rolledName {t : DateTime} (isCompressed : Bool)
    (hplain : ¬ p.compressedSuffix <:+ p.rolledPath t sequence) :
    p.nameToParse (p.rolledName t sequence isCompressed) = p.rolledPath t sequence ∧
      p.compressedSuffix.isSuffixOf (p.rolledName t sequence isCompressed) = isCompressed := by
  cases isCompressed with
  | false =>
    have hnot : p.compressedSuffix.isSuffixOf (p.rolledPath t sequence) = false := by
      rwa [Bool.eq_false_iff, Ne, isSuffixOf_iff_suffix]
    simp [nameToParse, rolledName, hnot]
  | true =>
    have hend : p.compressedSuffix.isSuffixOf (p.rolledPath t sequence ++ p.compressedSuffix) := by
      rw [isSuffixOf_iff_suffix]
      exact suffix_append _ _
    simp [nameToParse, rolledName, hend]

theorem Clear.readsBack (h : p.Clear digit) (hdigit : ∀ c : Char, c.isDigit → digit c)
    (hdot : digit '.' = false) : p.ReadsBack digit := by
  intro now htells sequence hlt isCompressed
  have hplain := h.marked now htells sequence hlt
  obtain ⟨hname, hflag⟩ := nameToParse_rolledName isCompressed hplain
  have hend : p.fileNameSuffix.takeWhile digit = [] := by
    cases hsuffix : p.fileNameSuffix with
    | nil => rfl
    | cons c s => rw [takeWhile_cons_of_neg (by simp [h.ending c (by simp [hsuffix])])]
  have hread := parseName_of_opening hdigit hdot h.opening htells (isPrefixOf_rolledName _ _) hname
  rw [hend, append_nil, parseSequence_toDigits hlt, hflag] at hread
  have hfile := isFileName_rolledName h.file (calculatePeriodStart now p) sequence isCompressed
  exact (reads_iff _ isCompressed).mpr ⟨hfile, hread⟩

/-- What is asked of every name of the policy. -/
theorem ReadsBack.reads (h : p.ReadsBack digit) (htells : now.date.Tells)
    (hlt : sequence < 2 ^ 32) (isCompressed : Bool) :
    IsFileName (p.rolledName (calculatePeriodStart now p) sequence isCompressed) ∧
      p.parseName digit (p.rolledName (calculatePeriodStart now p) sequence isCompressed) =
        some ⟨calculatePeriodStart now p, sequence,
          p.rolledName (calculatePeriodStart now p) sequence isCompressed, isCompressed⟩ :=
  (reads_iff _ isCompressed).mp (h now htells sequence hlt isCompressed)

theorem ReadsBack.marked (h : p.ReadsBack digit) (htells : now.date.Tells)
    (hlt : sequence < 2 ^ 32) :
    ¬ p.compressedSuffix <:+ p.rolledPath (calculatePeriodStart now p) sequence := by
  intro hsuffix
  have hflag := parseName_isCompressed (h.reads htells hlt false).2
  rw [← isSuffixOf_iff_suffix] at hsuffix
  simp [rolledName, hsuffix] at hflag

theorem ReadsBack.file (h : p.ReadsBack digit) :
    '/' ∉ p.fileNamePrefix ∧ '/' ∉ p.fileNameSuffix ∧ '/' ∉ p.compressedSuffix := by
  have hlt : 0 < 2 ^ 32 := by decide
  have hname := (h.reads unixEpoch_tells hlt true).1
  simp only [IsFileName, rolledName, rolledPath, decide_eq_true_eq, if_true, mem_append,
    mem_cons, not_or] at hname
  obtain ⟨⟨hbegin, -, -, -, -, hsuffix⟩, hcompressed⟩ := hname
  exact ⟨hbegin, hsuffix, hcompressed⟩

theorem ReadsBack.opening (h : p.ReadsBack digit) (hdigit : ∀ c : Char, c.isDigit → digit c)
    (hdot : digit '.' = false) : captures digit (p.fileNamePrefix ++ ['.', '0']) = none := by
  have hyear := takeWhile_formatPeriod (p := p) hdigit
    (calculatePeriodStart_tells (p := p) unixEpoch_tells)
  rw [capturesBefore_of_opening hdigit hdot hyear]
  by_contra hsome
  obtain ⟨r, hr⟩ := Option.ne_none_iff_exists'.mp hsome
  have hread (n : ℕ) (hn : n < 2 ^ 32) : parseSequence r.2 = some n := by
    have hcaptures : captures digit (p.rolledPath (calculatePeriodStart unixEpoch p) n) = some r := by
      rw [captures_rolledPath hdot, hr, Option.some_or]
    obtain ⟨hname, -⟩ := nameToParse_rolledName false (h.marked unixEpoch_tells hn)
    have hparse := (h.reads unixEpoch_tells hn false).2
    unfold parseName at hparse
    split_ifs at hparse
    simp only [hname, hcaptures, Option.bind_eq_bind, Option.bind_some, Option.bind_eq_some_iff]
      at hparse
    obtain ⟨t, -, m, hm, heq⟩ := hparse
    rw [hm, (RolledFile.mk.inj (Option.some.inj heq)).2.1]
  have hzero := hread 0 (by decide)
  rw [hread 1 (by decide)] at hzero
  cases hzero

theorem ReadsBack.ending (h : p.ReadsBack digit) (hdigit : ∀ c : Char, c.isDigit → digit c)
    (hdot : digit '.' = false) : ∀ c ∈ p.fileNameSuffix.head?, digit c = false := by
  have hlt : 1 < 2 ^ 32 := by decide
  obtain ⟨hname, -⟩ := nameToParse_rolledName false (h.marked unixEpoch_tells hlt)
  have hread := parseName_of_opening hdigit hdot (h.opening hdigit hdot) unixEpoch_tells
    (isPrefixOf_rolledName _ _) hname
  rw [(h.reads unixEpoch_tells hlt false).2] at hread
  obtain ⟨n, hn, heq⟩ := Option.map_eq_some_iff.mp hread.symm
  obtain rfl : n = 1 := (RolledFile.mk.inj heq).2.1
  have hend := eq_nil_of_parseSequence hn
  intro c hc
  cases hsuffix : p.fileNameSuffix with
  | nil => simp [hsuffix] at hc
  | cons x s =>
    obtain rfl : x = c := by simpa [hsuffix] using hc
    by_contra hdig
    simp [hsuffix, hdig] at hend

/-- The names of a policy are read back exactly when its texts are not taken for parts of the
pattern. -/
theorem readsBack_iff (hdigit : ∀ c : Char, c.toNat < 128 → digit c = c.isDigit)
    (p : RollingPolicy) : p.ReadsBack digit ↔ p.Clear digit := by
  have hdot : digit '.' = false := hdigit '.' (by decide)
  have hall : ∀ c : Char, c.isDigit → digit c := by
    intro c hc
    have hle : c.toNat ≤ 57 := by
      simp only [Char.isDigit, Bool.and_eq_true, decide_eq_true_eq] at hc
      exact UInt32.le_iff_toNat_le.mp hc.2
    rw [hdigit c (by omega), hc]
  constructor
  · intro h
    exact ⟨h.opening hall hdot, h.ending hall hdot, fun _ htells _ hlt => h.marked htells hlt, h.file⟩
  · intro h
    exact h.readsBack hall hdot

theorem not_suffix_rolledPath {c d : Char} (hsuffix : p.fileNameSuffix.getLast? = some c)
    (hcompressed : p.compressedSuffix.getLast? = some d) (hne : d ≠ c) (t : DateTime)
    (sequence : ℕ) : ¬ p.compressedSuffix <:+ p.rolledPath t sequence := by
  rintro ⟨s, hs⟩
  have hlast := congrArg List.getLast? hs
  simp only [rolledPath, List.getLast?_append, List.getLast?_cons, hsuffix, hcompressed,
    Option.some_or, Option.getD_some] at hlast
  exact hne (Option.some.inj hlast)

theorem clear_of_log (hsuffix : p.fileNameSuffix = ['.', 'l', 'o', 'g'])
    (hcompression : p.compression = none) (hslash : '/' ∉ p.fileNamePrefix)
    (hopening : captures Char.isDigit (p.fileNamePrefix ++ ['.', '0']) = none) :
    p.Clear Char.isDigit := by
  have hcompressed : p.compressedSuffix = ['.', 'g', 'z'] := by rw [compressedSuffix, hcompression]
  refine ⟨hopening, fun c hc => ?_, fun _ _ _ _ => ?_, hslash, ?_, ?_⟩
  · rw [hsuffix] at hc
    obtain rfl : '.' = c := Option.some.inj hc
    rfl
  · refine not_suffix_rolledPath (c := 'g') (d := 'z') ?_ ?_ (by decide) _ _
    · rw [hsuffix]
      rfl
    · rw [hcompressed]
      rfl
  · rw [hsuffix]
    decide
  · rw [hcompressed]
    decide

/-- Files named `test.2024-01-01.1.log` are read back. -/
theorem readsBack_fourBytes : fourBytes.ReadsBack Char.isDigit :=
  (readsBack_iff (fun _ _ => rfl) fourBytes).mpr (clear_of_log rfl rfl (by decide) (by decide))

/-- Files named `test.2024-01-01.2024-01-02.1.log`. -/
def datedPrefix : RollingPolicy :=
  { fourBytes with fileNamePrefix := ['t', 'e', 's', 't', '.', '2', '0', '2', '4', '-', '0', '1', '-',
      '0', '1'] }

/-- A date in the prefix is taken for the period, and the year behind it for the sequence. -/
theorem not_readsBack_dated : ¬ ∀ p : RollingPolicy, p.ReadsBack Char.isDigit := by
  intro h
  have htells : dayTwo.date.Tells := ⟨by decide, by decide⟩
  have hlt : 1 < 2 ^ 32 := by decide
  have hread := ((h datedPrefix).reads htells hlt false).2
  revert hread
  decide

end RollingPolicy

end Fibre.Logging
