import Fibre.Logging.RollSteps

/-!
# The log as a whole

The log of a policy is what its rolled files hold, from the oldest to the newest, and then what the
active file holds. A policy that deletes and compresses nothing, whose names parse back, never
renames over a rolled file: the next sequence is greater than all that the directory lists. If the
clock does not go back, and no rolled file is of a later period than the clock at the start, a roll
leaves the log as it was, and a write appends to it.

A rolled file of a later period breaks this: what is rolled before that period comes is put in front
of it.
-/

namespace Fibre.Logging

open Machine List Option

/-- Nothing fails before cleaning up. -/
structure Faults.Succeed (faults : Faults) : Prop where
  opensNull : faults.opensNull
  scans : faults.scans
  renames : faults.renames
  reopens : faults.reopens
  sizes : faults.sizes

/-- The clock of the write that is under way. -/
def Phase.clock : Phase → Option DateTime
  | .idle => none
  | .rollFirst _ now | .taking _ now | .rollAfter _ now => some now

/-! ### Periods -/

theorem DateTime.le_iff {s t : DateTime} : s ≤ t ↔ s.fields ≤ t.fields := Iff.rfl

namespace RollingPolicy

variable {digit : Char → Bool} {p : RollingPolicy}

theorem calculatePeriodStart_mono {s t : DateTime} (h : s ≤ t) :
    calculatePeriodStart s p ≤ calculatePeriodStart t p := by
  unfold calculatePeriodStart
  rw [DateTime.le_iff] at h ⊢
  cases p.timeGranularity with
  | never => exact le_rfl
  | _ =>
    simp only [DateTime.fields, DateTime.midnight, Prod.Lex.toLex_le_toLex] at h ⊢
    grind

end RollingPolicy

/-! ### The rolled files of a policy -/

def Listing.Complete (order : Listing) (files : Files) : Prop :=
  ∀ name, files.isFile name → RollingPolicy.IsFileName name → name ∈ order.names

namespace RollingPolicy

section

variable (digit : Char → Bool) (p : RollingPolicy)

/-- A file whose name is the policy's for the period and the sequence it tells. -/
structure IsRolled (files : Files) (e : RolledFile) : Prop where
  file : files.isFile e.path
  name : IsFileName e.path
  parses : p.parseName digit e.path = some e
  own : p.rolledPath e.timestamp e.sequence = e.path

def ownRolled (files : Files) (order : Listing) : List RolledFile :=
  ((p.findRolledFiles digit files order).filter fun e =>
    p.rolledPath e.timestamp e.sequence = e.path).reverse

/-- What they hold. -/
def rolledBytes (files : Files) (order : Listing) : List UInt8 :=
  ((p.ownRolled digit files order).map fun e => files.content e.path).flatten

end

variable {digit : Char → Bool} {p : RollingPolicy} {files files' : Files} {order order' : Listing}
variable {e e' : RolledFile}

theorem mem_findRolledFiles (h : order.Complete files) :
    e ∈ p.findRolledFiles digit files order ↔
      files.isFile e.path ∧ IsFileName e.path ∧ p.parseName digit e.path = some e := by
  rw [findRolledFiles, sortFiles, StableSort.mem_sortDesc]
  constructor
  · intro he
    obtain ⟨name, -, hparse⟩ := mem_filterMap.mp he
    obtain ⟨hfile, hname⟩ := mem_scanned he
    have hpath := parseName_path hparse
    exact ⟨hfile, hname, by rwa [hpath]⟩
  · rintro ⟨hfile, hname, hparse⟩
    exact mem_filterMap.mpr ⟨e.path, mem_filter.mpr ⟨h _ hfile hname, by simp [hfile, hname]⟩,
      hparse⟩

theorem mem_ownRolled (h : order.Complete files) :
    e ∈ p.ownRolled digit files order ↔ p.IsRolled digit files e := by
  rw [ownRolled, mem_reverse, mem_filter, mem_findRolledFiles h, decide_eq_true_eq]
  exact ⟨fun ⟨⟨hfile, hname, hparse⟩, hown⟩ => ⟨hfile, hname, hparse, hown⟩,
    fun h => ⟨⟨h.file, h.name, h.parses⟩, h.own⟩⟩

theorem IsRolled.eq_of_key (h : p.IsRolled digit files e) (h' : p.IsRolled digit files' e')
    (hkey : e.key = e'.key) : e = e' := by
  obtain ⟨htime, hsequence⟩ := Prod.mk.inj (toLex.injective hkey)
  have hpath : e.path = e'.path := by rw [← h.own, ← h'.own, htime, hsequence]
  have hparse := h.parses
  rw [hpath, h'.parses] at hparse
  exact (Option.some.inj hparse).symm

theorem pairwise_ownRolled (h : order.Complete files) :
    (p.ownRolled digit files order).Pairwise fun a b => a.key < b.key := by
  have hsorted : (p.ownRolled digit files order).Pairwise fun a b => a.key ≤ b.key :=
    pairwise_reverse.mpr ((StableSort.pairwise_sortDesc _).filter _)
  have hnodup : (p.ownRolled digit files order).Nodup :=
    nodup_reverse.mpr
      (((StableSort.perm_sortDesc _).nodup_iff.mpr nodup_scanned).filter _)
  refine (hsorted.and hnodup).imp_of_mem fun ha hb ⟨hle, hne⟩ => lt_of_le_of_ne hle fun hkey => ?_
  exact hne (((mem_ownRolled h).mp ha).eq_of_key ((mem_ownRolled h).mp hb) hkey)

theorem ownRolled_eq {l : List RolledFile} (h : order.Complete files)
    (hl : l.Pairwise fun a b => a.key < b.key) (hmem : ∀ e, p.IsRolled digit files e ↔ e ∈ l) :
    p.ownRolled digit files order = l := by
  have : Std.Irrefl fun a b : RolledFile => a.key < b.key := ⟨fun a => lt_irrefl a.key⟩
  have : Std.Asymm fun a b : RolledFile => a.key < b.key := ⟨fun a b => lt_asymm⟩
  refine (pairwise_ownRolled h).eq_of_mem_iff hl fun e => ?_
  rw [mem_ownRolled h, hmem]

theorem IsRolled.ne_basePath (h : p.IsRolled digit files e) : e.path ≠ p.basePath := by
  intro heq
  have hlen := congrArg List.length (h.own.trans heq)
  simp only [rolledPath, basePath, length_append, length_cons] at hlen
  omega

theorem IsRolled.congr (h : p.IsRolled digit files e) (hsame : files' e.path = files e.path) :
    p.IsRolled digit files' e :=
  ⟨by rw [Files.isFile_congr hsame]; exact h.file, h.name, h.parses, h.own⟩

theorem content_congr {n : Name} (h : files' n = files n) : files'.content n = files.content n := by
  rw [Files.content, Files.content, h]

theorem rolledBytes_congr (hsame : ∀ n ≠ p.basePath, files' n = files n)
    (h : order.Complete files) (h' : order'.Complete files') :
    p.rolledBytes digit files' order' = p.rolledBytes digit files order := by
  have hlist : p.ownRolled digit files' order' = p.ownRolled digit files order := by
    refine ownRolled_eq h' (pairwise_ownRolled h) fun e => ?_
    rw [mem_ownRolled h]
    exact ⟨fun he => he.congr (hsame _ he.ne_basePath).symm,
      fun he => he.congr (hsame _ he.ne_basePath)⟩
  rw [rolledBytes, rolledBytes, hlist]
  refine congrArg List.flatten (map_congr_left fun e he => content_congr (hsame _ ?_))
  exact ((mem_ownRolled h).mp he).ne_basePath

theorem rolledBytes_append {new : RolledFile} (hnew : p.IsRolled digit files' new)
    (hsame : ∀ n ≠ p.basePath, n ≠ new.path → files' n = files n)
    (hfree : files.isFile new.path = false)
    (hnewest : ∀ e, p.IsRolled digit files e → e.key < new.key)
    (h : order.Complete files) (h' : order'.Complete files') :
    p.rolledBytes digit files' order' =
      p.rolledBytes digit files order ++ files'.content new.path := by
  have hkept {e : RolledFile} (he : p.IsRolled digit files e) : files' e.path = files e.path := by
    refine hsame _ he.ne_basePath fun heq => ?_
    have hfile := he.file
    rw [heq, hfree] at hfile
    cases hfile
  have hlist : p.ownRolled digit files' order' = p.ownRolled digit files order ++ [new] := by
    refine ownRolled_eq h' ?_ fun e => ?_
    · refine pairwise_append.mpr ⟨pairwise_ownRolled h, pairwise_singleton .., ?_⟩
      intro a ha b hb
      rw [mem_singleton.mp hb]
      exact hnewest a ((mem_ownRolled h).mp ha)
    · rw [mem_append, mem_ownRolled h, mem_singleton]
      constructor
      · intro he
        by_cases hpath : e.path = new.path
        · -- one name, one entry
          have hparse := he.parses
          rw [hpath, hnew.parses] at hparse
          exact .inr (Option.some.inj hparse).symm
        · exact .inl (he.congr (hsame _ he.ne_basePath hpath).symm)
      · rintro (he | rfl)
        · exact he.congr (hkept he)
        · exact hnew
  rw [rolledBytes, rolledBytes, hlist, map_append, flatten_append, map_singleton,
    flatten_singleton]
  refine congrArg (· ++ _) (congrArg List.flatten (map_congr_left fun e he => ?_))
  exact content_congr (hkept ((mem_ownRolled h).mp he))

/-! ### The next sequence -/

theorem le_lastSequence {period : DateTime} {rolled : List RolledFile} (he : e ∈ rolled)
    (hperiod : p.formatPeriod e.timestamp = p.formatPeriod period) :
    e.sequence ≤ p.lastSequence period rolled := by
  unfold lastSequence
  induction rolled with
  | nil => cases he
  | cons f rest ih =>
    rcases mem_cons.mp he with rfl | he
    · simp [hperiod]
    · by_cases hf : p.formatPeriod f.timestamp = p.formatPeriod period
      · simp only [filter_cons, hf, decide_true, if_true, map_cons, foldr_cons]
        exact (ih he).trans (le_max_right ..)
      · simpa [hf] using ih he

theorem lastSequence_lt {period : DateTime} {rolled : List RolledFile} {n : ℕ} (hn : 0 < n)
    (h : ∀ e ∈ rolled, e.sequence < n) : p.lastSequence period rolled < n := by
  unfold lastSequence
  induction rolled with
  | nil => exact hn
  | cons f rest ih =>
    have ih := ih fun e he => h e (mem_cons_of_mem _ he)
    by_cases hf : p.formatPeriod f.timestamp = p.formatPeriod period
    · simp only [filter_cons, hf, decide_true, if_true, map_cons, foldr_cons]
      exact max_lt (h f mem_cons_self) ih
    · simpa [hf] using ih

theorem lt_nextSequence {period : DateTime} {rolled : List RolledFile}
    (hbound : ∀ e ∈ rolled, e.sequence < 2 ^ 32 - 1) (he : e ∈ rolled)
    (hperiod : p.formatPeriod e.timestamp = p.formatPeriod period) :
    e.sequence < p.nextSequence period rolled := by
  have hle := le_lastSequence he hperiod
  have hlt : p.lastSequence period rolled < 2 ^ 32 - 1 := lastSequence_lt (by decide) hbound
  rw [nextSequence, Nat.mod_eq_of_lt (by omega)]
  omega

end RollingPolicy

namespace CustomRoller

variable {digit : Char → Bool} {p : RollingPolicy} {s : CustomRoller} {order : Listing}

theorem rollTarget_free (hparses : p.ParsesBack digit s.currentPeriodStart)
    (hcomplete : order.Complete s.files)
    (hbound : ∀ e ∈ p.findRolledFiles digit s.files order, e.sequence < 2 ^ 32 - 1) :
    s.files.isFile (s.rollTarget digit p order) = false := by
  rw [Bool.eq_false_iff]
  intro hfile
  obtain ⟨hname, isCompressed, hparse⟩ := hparses (p.nextSequence s.currentPeriodStart
    (p.findRolledFiles digit s.files order)) (RollingPolicy.nextSequence_lt ..)
  -- the file at the target would be one of those found
  have hfound := (RollingPolicy.mem_findRolledFiles (p := p)
    (e := ⟨_, _, _, isCompressed⟩) hcomplete).mpr ⟨hfile, hname, hparse⟩
  exact absurd (RollingPolicy.lt_nextSequence (p := p) hbound hfound rfl) (lt_irrefl _)

theorem key_lt_of_le (hcomplete : order.Complete s.files)
    (hbound : ∀ e ∈ p.findRolledFiles digit s.files order, e.sequence < 2 ^ 32 - 1)
    {e new : RolledFile} (he : p.IsRolled digit s.files e)
    (hle : e.timestamp ≤ s.currentPeriodStart) (htime : new.timestamp = s.currentPeriodStart)
    (hsequence : new.sequence = p.nextSequence s.currentPeriodStart
      (p.findRolledFiles digit s.files order)) : e.key < new.key := by
  rw [RolledFile.key, RolledFile.key, Prod.Lex.toLex_lt_toLex, htime, hsequence]
  rcases hle.lt_or_eq with hlt | heq
  · exact .inl hlt
  · have hfound := (RollingPolicy.mem_findRolledFiles hcomplete).mpr ⟨he.file, he.name, he.parses⟩
    exact .inr ⟨heq, RollingPolicy.lt_nextSequence hbound hfound (by rw [heq])⟩

theorem cleanup_of_none (gzip : List UInt8 → List UInt8)
    (hretained : p.maxRetainedSequences = none) (hcompression : p.compression = none)
    (faults : Faults) (files : Files) (sorted : List RolledFile) :
    cleanup gzip p faults files sorted = (files, [], [], []) := by
  simp only [cleanup, RollingPolicy.toDelete, RollingPolicy.toCompress, hretained, hcompression,
    map_nil, Files.removeAll, Files.compressAll]

/-- The directory and the roller after a roll in which nothing fails, of a policy that cleans
nothing up. -/
structure Rolls (digit : Char → Bool) (p : RollingPolicy) (s : CustomRoller) (order : Listing)
    (now : DateTime) (r : Bool × CustomRoller × Effects) : Prop where
  ok : r.1
  live : r.2.1.live
  period : r.2.1.currentPeriodStart = RollingPolicy.calculatePeriodStart now p
  buffer : r.2.1.buffer = []
  base : r.2.1.files p.basePath = some (.file [])
  target : r.2.1.files (s.rollTarget digit p order) = some (.file (s.active p))
  others : ∀ n ≠ p.basePath, n ≠ s.rollTarget digit p order → r.2.1.files n = s.files n

theorem rolls_of_succeeds (gzip : List UInt8 → List UInt8) (h : s.WellFormed p) (hlive : s.live)
    (hretained : p.maxRetainedSequences = none) (hcompression : p.compression = none)
    {faults : Faults} (hfaults : faults.Succeed)
    (hdirectory : s.files (s.rollTarget digit p faults.order) ≠ some .directory) (now : DateTime) :
    s.Rolls digit p faults.order now (s.roll digit gzip p faults now) := by
  have hne : s.rollTarget digit p faults.order ≠ p.basePath :=
    rollTarget_ne_basePath s faults.order
  obtain ⟨hclosed, -, hcontent⟩ := h.closed
  -- the active file is there, and holds all that was written to it
  have hbase : (s.closed p).files p.basePath = some (.file (s.active p)) := by
    obtain ⟨bytes, hbytes⟩ := Files.isFile_iff.mp ((isFile_flush s p.basePath).trans (h.live hlive))
    have hbytes : (s.closed p).files p.basePath = some (.file bytes) := hbytes
    rw [← hcontent, Files.content, hbytes]
  have htarget : (s.closed p).files (s.rollTarget digit p faults.order) =
      s.files (s.rollTarget digit p faults.order) := flush_of_ne hne
  have hclear : ¬ s.Blocked digit p faults.order := by
    rintro ⟨-, hblocked⟩
    rw [rollTarget_closed, Files.mayRename, hbase, htarget] at hblocked
    cases hfile : s.files (s.rollTarget digit p faults.order) with
    | none => simp [hfile] at hblocked
    | some node =>
      cases node with
      | file bytes => simp [hfile] at hblocked
      | directory => exact hdirectory hfile
  have hroll := roll_of_clear digit gzip p s rfl hclear hfaults.opensNull hfaults.scans
    hfaults.renames hfaults.reopens hfaults.sizes now
  rw [cleanup_of_none gzip hretained hcompression] at hroll
  rw [hroll]
  refine ⟨rfl, rfl, rfl, h.flush.2.2, Files.put_self .., ?_, fun n hn hnt => ?_⟩
  · refine (Files.put_of_ne hne _).trans ?_
    rw [moved, rollTarget_closed, Files.rename_target hne (by rw [hbase]; rfl), hbase]
  · refine (Files.put_of_ne hn _).trans ?_
    rw [moved, rollTarget_closed, Files.rename_of_ne hn hnt]
    exact flush_of_ne hn

end CustomRoller

namespace Writing

section

variable (digit : Char → Bool) (p : RollingPolicy) (w : Writing)

/-- Nothing fails, the directory is listed in full, sequences do not run out, and periods have names
that parse back. -/
def Succeeds : WriteAction → Prop
  | .write _ now => p.ParsesBack digit (RollingPolicy.calculatePeriodStart now p)
  | .roll faults =>
    faults.Succeed ∧ faults.order.Complete w.roller.files ∧
    w.roller.files (w.roller.rollTarget digit p faults.order) ≠ some .directory ∧
    ∀ e ∈ p.findRolledFiles digit w.roller.files faults.order, e.sequence < 2 ^ 32 - 1
  | _ => True

/-- The clock does not go back. -/
def Onward : WriteAction → Prop
  | .write _ now => w.lastNow ≤ now
  | _ => True

/-- What holds at any clock. -/
structure Steady : Prop where
  roller : w.roller.WellFormed p
  live : w.roller.live
  parses : p.ParsesBack digit w.roller.currentPeriodStart
  parsesNow : p.ParsesBack digit (RollingPolicy.calculatePeriodStart w.lastNow p)
  clock : ∀ now ∈ w.phase.clock, now = w.lastNow

/-- The log was `before`, and what was written since is behind it. -/
structure Logs (before : List UInt8) : Prop extends w.Steady digit p where
  period : w.roller.currentPeriodStart ≤ RollingPolicy.calculatePeriodStart w.lastNow p
  notLater : ∀ e, p.IsRolled digit w.roller.files e → e.timestamp ≤ w.roller.currentPeriodStart
  log : ∀ order : Listing, order.Complete w.roller.files →
    p.rolledBytes digit w.roller.files order ++ w.roller.active p = before ++ w.taken

end

variable {digit : Char → Bool} {gzip : List UInt8 → List UInt8} {p : RollingPolicy}
variable {w w' : Writing} {a : WriteAction} {before : List UInt8}

/-! ### One step -/

section Roll

variable {faults : Faults} {now : DateTime} {ok : Phase} {accepted : List (List UInt8)}

theorem Steady.rolled (h : w.Steady digit p) (hretained : p.maxRetainedSequences = none)
    (hcompression : p.compression = none) (hsucceeds : w.Succeeds digit p (.roll faults))
    (hnow : now = w.lastNow) (hok : ∀ now ∈ ok.clock, now = w.lastNow) :
    (w.rolled digit gzip p faults now ok accepted).Steady digit p := by
  obtain ⟨hfaults, -, hdirectory, -⟩ := hsucceeds
  have hrolls := CustomRoller.rolls_of_succeeds gzip h.roller h.live hretained hcompression hfaults
    hdirectory now
  have hphase : (w.rolled digit gzip p faults now ok accepted).phase = ok := if_pos hrolls.ok
  refine ⟨⟨?_, fun _ => ?_, fun hdead => ?_⟩, hrolls.live, ?_, h.parsesNow, by rwa [hphase]⟩
  · exact hrolls.base.trans_ne (by simp)
  · exact Files.isFile_iff.mpr ⟨[], hrolls.base⟩
  · exact absurd (hrolls.live.symm.trans hdead) (by simp)
  · have hperiod := h.parsesNow
    rw [← hnow, ← hrolls.period] at hperiod
    exact hperiod

theorem Logs.rolled (h : w.Logs digit p before) (hretained : p.maxRetainedSequences = none)
    (hcompression : p.compression = none) (hsucceeds : w.Succeeds digit p (.roll faults))
    (hnow : now = w.lastNow) (hok : ∀ now ∈ ok.clock, now = w.lastNow) :
    (w.rolled digit gzip p faults now ok accepted).Logs digit p before := by
  have hsteady : (w.rolled digit gzip p faults now ok accepted).Steady digit p :=
    h.toSteady.rolled hretained hcompression hsucceeds hnow hok
  obtain ⟨hfaults, hcomplete, hdirectory, hbound⟩ := hsucceeds
  have hrolls := CustomRoller.rolls_of_succeeds gzip h.roller h.live hretained hcompression hfaults
    hdirectory now
  let sequence := p.nextSequence w.roller.currentPeriodStart
    (p.findRolledFiles digit w.roller.files faults.order)
  obtain ⟨hname, isCompressed, hparse⟩ :=
    h.parses sequence (RollingPolicy.nextSequence_lt _ _)
  -- the entry of the file that was rolled
  let new : RolledFile := ⟨w.roller.currentPeriodStart, sequence,
    w.roller.rollTarget digit p faults.order, isCompressed⟩
  have hnew : p.IsRolled digit (w.rolled digit gzip p faults now ok accepted).roller.files new :=
    ⟨Files.isFile_iff.mpr ⟨_, hrolls.target⟩, hname, hparse, rfl⟩
  have hperiod : w.roller.currentPeriodStart ≤
      (w.rolled digit gzip p faults now ok accepted).roller.currentPeriodStart :=
    h.period.trans (hrolls.period.trans (by rw [hnow])).ge
  refine ⟨hsteady, ?_, fun e he => ?_, fun order horder => ?_⟩
  · exact (hrolls.period.trans (by rw [hnow]; rfl)).le
  · by_cases hpath : e.path = new.path
    · have hparses := he.parses
      rw [hpath, hnew.parses] at hparses
      rw [← Option.some.inj hparses]
      exact hperiod
    · have he := he.congr (hrolls.others _ he.ne_basePath hpath).symm
      exact (h.notLater e he).trans hperiod
  · have hfree := CustomRoller.rollTarget_free h.parses hcomplete hbound
    have happend := RollingPolicy.rolledBytes_append hnew hrolls.others hfree
      (fun e he => CustomRoller.key_lt_of_le hcomplete hbound he (h.notLater e he) rfl rfl)
      hcomplete horder
    have hmoved : (w.rolled digit gzip p faults now ok accepted).roller.files.content new.path =
        w.roller.active p := Files.content_eq hrolls.target
    have hactive : (w.rolled digit gzip p faults now ok accepted).roller.active p = [] := by
      refine (congrArg (· ++ _) (Files.content_eq hrolls.base)).trans ?_
      exact hrolls.buffer
    rw [happend, hactive, hmoved, append_nil]
    exact h.log faults.order hcomplete

end Roll

theorem Steady.begun (h : w.Steady digit p) {now : DateTime} (buf : List UInt8)
    (hparses : p.ParsesBack digit (RollingPolicy.calculatePeriodStart now p)) :
    (w.begun p buf now).Steady digit p := by
  refine ⟨h.roller, h.live, h.parses, hparses, fun now' hnow' => ?_⟩
  unfold Writing.begun at hnow' ⊢
  dsimp only at hnow' ⊢
  split_ifs at hnow' <;> exact (Option.some.inj hnow').symm

theorem Logs.begun (h : w.Logs digit p before) {now : DateTime} (buf : List UInt8)
    (hparses : p.ParsesBack digit (RollingPolicy.calculatePeriodStart now p))
    (honward : w.lastNow ≤ now) : (w.begun p buf now).Logs digit p before :=
  ⟨h.toSteady.begun buf hparses,
    h.period.trans (RollingPolicy.calculatePeriodStart_mono honward), h.notLater, h.log⟩

theorem Steady.took (h : w.Steady digit p) (bytes : List UInt8) {now : DateTime}
    (hnow : now = w.lastNow) : (w.took p bytes now).Steady digit p := by
  obtain ⟨hroller, -⟩ := h.roller.append (.inl h.live) (w.roller.currentSize + bytes.length)
  have hperiod : (w.took p bytes now).roller.currentPeriodStart = w.roller.currentPeriodStart :=
    w.roller.append_currentPeriodStart bytes
  refine ⟨hroller, (w.roller.append_live bytes).trans h.live, ?_, h.parsesNow,
    fun now' hnow' => ?_⟩
  · rw [hperiod]
    exact h.parses
  · unfold Writing.took at hnow' ⊢
    dsimp only at hnow' ⊢
    split_ifs at hnow'
    · rw [← Option.some.inj hnow', hnow]
    · cases hnow'

theorem Logs.took (h : w.Logs digit p before) (bytes : List UInt8) {now : DateTime}
    (hnow : now = w.lastNow) : (w.took p bytes now).Logs digit p before := by
  obtain ⟨-, hactive⟩ := h.roller.append (.inl h.live) (w.roller.currentSize + bytes.length)
  have hactive : (w.took p bytes now).roller.active p = w.roller.active p ++ bytes := hactive
  have hfiles : (w.took p bytes now).roller.files = w.roller.files := w.roller.append_files bytes
  have hperiod : (w.took p bytes now).roller.currentPeriodStart = w.roller.currentPeriodStart :=
    w.roller.append_currentPeriodStart bytes
  refine ⟨h.toSteady.took bytes hnow, ?_, ?_, fun order horder => ?_⟩
  · rw [hperiod]
    exact h.period
  · rw [hperiod, hfiles]
    exact h.notLater
  · rw [hfiles] at horder
    rw [hfiles, hactive, ← append_assoc, h.log order horder, append_assoc]
    rfl

theorem Steady.flush (h : w.Steady digit p) :
    { w with roller := w.roller.flush p }.Steady digit p := by
  refine ⟨h.roller.flush.1, (w.roller.flush_live).trans h.live, ?_, h.parsesNow, h.clock⟩
  rw [CustomRoller.flush_currentPeriodStart]
  exact h.parses

theorem Logs.flush (h : w.Logs digit p before) :
    { w with roller := w.roller.flush p }.Logs digit p before := by
  have hsame : ∀ n ≠ p.basePath, (w.roller.flush p).files n = w.roller.files n := fun n hn =>
    CustomRoller.flush_of_ne hn
  refine ⟨h.toSteady.flush, ?_, fun e he => ?_, fun order horder => ?_⟩
  · rw [CustomRoller.flush_currentPeriodStart]
    exact h.period
  · rw [CustomRoller.flush_currentPeriodStart]
    exact h.notLater e (he.congr (hsame _ he.ne_basePath).symm)
  · have hcomplete : order.Complete w.roller.files := fun name hfile =>
      horder name ((CustomRoller.isFile_flush w.roller name).trans hfile)
    rw [RollingPolicy.rolledBytes_congr hsame hcomplete horder, h.roller.flush.2.1]
    exact h.log order hcomplete

/-! ### Runs -/

theorem Steady.step (h : w.Steady digit p) (hretained : p.maxRetainedSequences = none)
    (hcompression : p.compression = none) (hsucceeds : w.Succeeds digit p a)
    (hstep : w.step digit gzip p a = some w') : w'.Steady digit p := by
  rcases step_cases hstep with ⟨buf, now, rfl, -, rfl⟩ | ⟨faults, buf, now, rfl, hphase, rfl⟩ |
    ⟨faults, taken, now, rfl, hphase, rfl⟩ | ⟨n, buf, now, rfl, hphase, rfl⟩ |
    ⟨buf, now, rfl, -, rfl⟩ | ⟨rfl, rfl⟩
  · exact h.begun buf hsucceeds
  · have hnow := h.clock now (by rw [hphase]; rfl)
    exact h.rolled hretained hcompression hsucceeds hnow (by rintro _ ⟨⟩; exact hnow)
  · exact h.rolled hretained hcompression hsucceeds (h.clock now (by rw [hphase]; rfl))
      (by rintro _ ⟨⟩)
  · exact h.took _ (h.clock now (by rw [hphase]; rfl))
  · exact ⟨h.roller, h.live, h.parses, h.parsesNow, by rintro _ ⟨⟩⟩
  · exact h.flush

theorem Logs.step (h : w.Logs digit p before) (hretained : p.maxRetainedSequences = none)
    (hcompression : p.compression = none) (hsucceeds : w.Succeeds digit p a) (honward : w.Onward a)
    (hstep : w.step digit gzip p a = some w') : w'.Logs digit p before := by
  rcases step_cases hstep with ⟨buf, now, rfl, -, rfl⟩ | ⟨faults, buf, now, rfl, hphase, rfl⟩ |
    ⟨faults, taken, now, rfl, hphase, rfl⟩ | ⟨n, buf, now, rfl, hphase, rfl⟩ |
    ⟨buf, now, rfl, -, rfl⟩ | ⟨rfl, rfl⟩
  · exact h.begun buf hsucceeds honward
  · have hnow := h.clock now (by rw [hphase]; rfl)
    exact h.rolled hretained hcompression hsucceeds hnow (by rintro _ ⟨⟩; exact hnow)
  · exact h.rolled hretained hcompression hsucceeds (h.clock now (by rw [hphase]; rfl))
      (by rintro _ ⟨⟩)
  · exact h.took _ (h.clock now (by rw [hphase]; rfl))
  · exact ⟨⟨h.roller, h.live, h.parses, h.parsesNow, by rintro _ ⟨⟩⟩, h.period, h.notLater, h.log⟩
  · exact h.flush

section

variable {files : Files} {start : DateTime} {w₀ : Writing} {order₀ : Listing}

theorem steady_init (h₀ : init p files start = some w₀)
    (hparses : p.ParsesBack digit (RollingPolicy.calculatePeriodStart start p)) :
    w₀.Steady digit p := by
  obtain ⟨roller, hroller, rfl⟩ := map_eq_some_iff.mp h₀
  obtain ⟨size, hsize, rfl⟩ := map_eq_some_iff.mp hroller
  have hfile := CustomRoller.openFile_isFile hsize
  refine ⟨⟨fun hdir => ?_, fun _ => hfile, fun _ => rfl⟩, rfl, hparses, hparses, by rintro _ ⟨⟩⟩
  obtain ⟨bytes, hbytes⟩ := Files.isFile_iff.mp hfile
  exact absurd (hbytes.symm.trans hdir) (by simp)

theorem logs_init (h₀ : init p files start = some w₀)
    (hparses : p.ParsesBack digit (RollingPolicy.calculatePeriodStart start p))
    (horder₀ : order₀.Complete files)
    (hlater : ∀ e, p.IsRolled digit files e →
      e.timestamp ≤ RollingPolicy.calculatePeriodStart start p) :
    w₀.Logs digit p (p.rolledBytes digit files order₀ ++ files.content p.basePath) := by
  have hsteady := steady_init h₀ hparses
  obtain ⟨roller, hroller, rfl⟩ := map_eq_some_iff.mp h₀
  obtain ⟨size, hsize, rfl⟩ := map_eq_some_iff.mp hroller
  have hsame : ∀ n ≠ p.basePath, (CustomRoller.openFile p (.none ⟨[], .nil⟩) files).1 n = files n :=
    fun n hn => CustomRoller.openFile_of_ne hn
  refine ⟨hsteady, le_rfl, fun e he => hlater e (he.congr (hsame _ he.ne_basePath).symm),
    fun order horder => ?_⟩
  have hcontent := CustomRoller.openFile_content (p := p) (.none ⟨[], .nil⟩) files
  rw [RollingPolicy.rolledBytes_congr hsame horder₀ horder, CustomRoller.active, hcontent]
  exact (append_assoc ..).symm

/-- At any clock, no roll renames over a file. If the clock does not go back, and no rolled file is
of a later period than the clock at the start, the rolled files and the active one hold what they
held at the start, followed by what was written. -/
theorem log_of_succeeds (hretained : p.maxRetainedSequences = none)
    (hcompression : p.compression = none) (h₀ : init p files start = some w₀)
    (hparses : p.ParsesBack digit (RollingPolicy.calculatePeriodStart start p)) :
    (∀ w, Run (step digit gzip p) (Succeeds digit p) w₀ w →
      ∀ faults, w.Succeeds digit p (.roll faults) →
        w.roller.files.isFile (w.roller.rollTarget digit p faults.order) = false) ∧
    ((∀ e, p.IsRolled digit files e → e.timestamp ≤ RollingPolicy.calculatePeriodStart start p) →
      ∀ w, Run (step digit gzip p) (fun w a => w.Succeeds digit p a ∧ w.Onward a) w₀ w →
        ∀ order₀ order : Listing, order₀.Complete files → order.Complete w.roller.files →
          p.rolledBytes digit w.roller.files order ++ w.roller.active p =
            p.rolledBytes digit files order₀ ++ files.content p.basePath ++ w.taken) := by
  constructor
  · intro w hrun faults hsucceeds
    have hsteady : w.Steady digit p := hrun.invariant (steady_init h₀ hparses)
      fun _ _ _ hw hC hstep => hw.step hretained hcompression hC hstep
    exact CustomRoller.rollTarget_free hsteady.parses hsucceeds.2.1 hsucceeds.2.2.2
  · intro hlater w hrun order₀ order horder₀ horder
    let before := p.rolledBytes digit files order₀ ++ files.content p.basePath
    have hlogs := hrun.invariant (I := fun w : Writing => w.Logs digit p before)
      (logs_init h₀ hparses horder₀ hlater)
      fun _ _ _ hw hC hstep => hw.step hretained hcompression hC.1 hC.2 hstep
    exact hlogs.log order horder

end

theorem fourBytes_parsesBack {now : DateTime} (h : now.date.Tells) :
    fourBytes.ParsesBack Char.isDigit (RollingPolicy.calculatePeriodStart now fourBytes) := by
  have hdot : ∀ c ∈ fourBytes.fileNameSuffix.head?, Char.isDigit c = false := by
    intro c hc
    obtain rfl : '.' = c := Option.some.inj hc
    rfl
  refine RollingPolicy.parsesBack_of_name (fun _ h => h) (by decide) hdot (by decide)
    (fun s hs => ?_) h
  -- the last letters differ
  obtain ⟨t, ht⟩ := hs
  have hlast := congrArg List.getLast? ht
  simp [RollingPolicy.compressedSuffix, fourBytes] at hlast

section

variable (later : Bool)

/-- `test.2030-01-01.1.log`, or `test.2020-01-01.1.log`. -/
def oldRolled : Name :=
  ['t', 'e', 's', 't', '.', '2', '0', if later then '3' else '2', '0', '-', '0', '1', '-', '0', '1',
    '.', '1', '.', 'l', 'o', 'g']

/-- `test.2024-01-01.1.log`. -/
def dayOneRolled : Name :=
  ['t', 'e', 's', 't', '.', '2', '0', '2', '4', '-', '0', '1', '-', '0', '1', '.', '1', '.', 'l',
    'o', 'g']

def oldFiles : Files := fun name => if name = oldRolled later then some (.file [9]) else none

def oldListing : Listing where
  names := [fourBytes.basePath, oldRolled later, dayOneRolled]
  nodup := by
    revert later
    decide

def oldStart : Writing where
  roller := ⟨(oldFiles later).put fourBytes.basePath (some (.file [])), true, [], 0, dayOne⟩
  phase := .idle
  taken := []
  accepted := []
  archive := []
  cleaned := []
  lastNow := dayOne

def oldFilled : Writing :=
  ((oldStart later).begun fourBytes [1, 2, 3, 4] dayOne).took fourBytes [1, 2, 3, 4] dayOne

/-- The active file has been rolled. -/
def oldDone : Writing :=
  (oldFilled later).rolled Char.isDigit id fourBytes (.none (oldListing later)) dayOne .idle
    [[1, 2, 3, 4]]

theorem init_old : init fourBytes (oldFiles later) dayOne = some (oldStart later) := by
  cases later <;> rfl

theorem complete_oldFiles : (oldListing later).Complete (oldFiles later) := by
  intro name hfile _
  by_cases hname : name = oldRolled later
  · simp [oldListing, hname]
  · simp [Files.isFile, oldFiles, hname] at hfile

theorem complete_oldFilled : (oldListing later).Complete (oldFilled later).roller.files := by
  intro name hfile hslash
  have hfile : ((oldFiles later).put fourBytes.basePath (some (.file []))).isFile name := hfile
  by_cases hbase : name = fourBytes.basePath
  · simp [oldListing, hbase]
  · rw [Files.isFile_congr (Files.put_of_ne hbase _)] at hfile
    exact complete_oldFiles later name hfile hslash

theorem succeeds_oldFilled :
    (oldFilled later).Succeeds Char.isDigit fourBytes (.roll (.none (oldListing later))) := by
  refine ⟨⟨rfl, rfl, rfl, rfl, rfl⟩, complete_oldFilled later, ?_, ?_⟩
  · cases later <;> decide
  · cases later <;> decide

theorem run_old : Run (step Char.isDigit id fourBytes)
    (fun w a => w.Succeeds Char.isDigit fourBytes a ∧ w.Onward a) (oldStart later) (oldDone later) := by
  have hparses := @fourBytes_parsesBack dayOne ⟨by decide, by decide⟩
  refine .tail (.tail (.tail (.refl _) (a := .write [1, 2, 3, 4] dayOne) ⟨hparses, le_rfl⟩ rfl)
    (a := .take (some 4)) ⟨trivial, trivial⟩ ?_) ⟨succeeds_oldFilled later, trivial⟩ ?_
  · cases later <;> rfl
  · cases later <;> rfl

theorem complete_oldDone : (oldListing later).Complete (oldDone later).roller.files := by
  have hformed : (oldFilled later).roller.WellFormed fourBytes := by
    have hbase : (oldFilled later).roller.files fourBytes.basePath = some (.file []) := by
      cases later <;> rfl
    exact ⟨hbase.trans_ne (by simp), fun _ => Files.isFile_iff.mpr ⟨[], hbase⟩,
      fun hdead => by cases hdead⟩
  have hrolls := CustomRoller.rolls_of_succeeds id hformed rfl rfl rfl
    (succeeds_oldFilled later).1 (succeeds_oldFilled later).2.2.1 dayOne
  have htarget : (oldFilled later).roller.rollTarget Char.isDigit fourBytes (oldListing later) =
      dayOneRolled := by
    cases later <;> decide
  intro name hfile hslash
  by_cases hbase : name = fourBytes.basePath
  · simp [oldListing, hbase]
  by_cases hname : name = dayOneRolled
  · simp [oldListing, hname]
  · have hsame : (oldDone later).roller.files name = (oldFilled later).roller.files name :=
      hrolls.others name hbase fun heq => hname (heq.trans htarget)
    rw [Files.isFile_congr hsame] at hfile
    exact complete_oldFilled later name hfile hslash

end

/-- The old rolled file is of an earlier period, and stays in front. -/
theorem log_of_succeeds_old : ∃ w₀ w, init fourBytes (oldFiles false) dayOne = some w₀ ∧
    Run (step Char.isDigit id fourBytes)
      (fun w a => w.Succeeds Char.isDigit fourBytes a ∧ w.Onward a) w₀ w ∧
    fourBytes.rolledBytes Char.isDigit w.roller.files (oldListing false) ++
      w.roller.active fourBytes = [9, 1, 2, 3, 4] := by
  have hearlier : ∀ e, fourBytes.IsRolled Char.isDigit (oldFiles false) e →
      e.timestamp ≤ RollingPolicy.calculatePeriodStart dayOne fourBytes := by
    have hall : ∀ e ∈ fourBytes.ownRolled Char.isDigit (oldFiles false) (oldListing false),
        e.timestamp ≤ RollingPolicy.calculatePeriodStart dayOne fourBytes := by
      decide
    exact fun e he => hall e ((RollingPolicy.mem_ownRolled (complete_oldFiles false)).mpr he)
  have hlog := (log_of_succeeds rfl rfl (init_old false)
    (fourBytes_parsesBack ⟨by decide, by decide⟩)).2 hearlier _ (run_old false) _ _
    (complete_oldFiles false) (complete_oldDone false)
  refine ⟨_, _, init_old false, run_old false, hlog.trans ?_⟩
  decide

/-- The old rolled file is of a later period, and what is rolled now is put in front of it. -/
theorem not_log_laterPeriod :
    ¬ ∀ w₀ w : Writing, ∀ order₀ order : Listing,
      init fourBytes (oldFiles true) dayOne = some w₀ →
      Run (step Char.isDigit id fourBytes)
        (fun w a => w.Succeeds Char.isDigit fourBytes a ∧ w.Onward a) w₀ w →
      order₀.Complete (oldFiles true) → order.Complete w.roller.files →
        fourBytes.rolledBytes Char.isDigit w.roller.files order ++ w.roller.active fourBytes =
          fourBytes.rolledBytes Char.isDigit (oldFiles true) order₀ ++
            (oldFiles true).content fourBytes.basePath ++ w.taken := by
  intro hall
  have hlog := hall _ _ _ _ (init_old true) (run_old true) (complete_oldFiles true)
    (complete_oldDone true)
  revert hlog
  decide

end Writing

end Fibre.Logging
