import Fibre.Logging.NamesBack
import Fibre.Logging.Ownership
import Fibre.Logging.RolledLog

/-!
# The newest files are kept

A roll sorts the rolled files, newest first, cuts the list off at one limit and compresses what is
behind the other. The list has an entry for the file that is rolled, also when there is no active file
and so nothing is renamed. That entry takes a place then which no file has, and the files behind it
are deleted or compressed one too early.
-/

namespace Fibre.Logging

open List

namespace Files

variable {files : Files} {n : Name}

theorem removeAll_eq_or (removes : Name → Bool) (names : List Name) (files : Files) (n : Name) :
    (removeAll removes names files).1 n = none ∨ (removeAll removes names files).1 n = files n := by
  induction names generalizing files with
  | nil => exact .inr rfl
  | cons name rest ih =>
    rw [removeAll]
    rcases ih (files.remove removes name).1 with hnone | hsame
    · exact .inl hnone
    · dsimp only
      rw [hsame]
      by_cases hname : n = name
      · subst hname
        unfold remove
        split_ifs
        · exact .inl (put_self ..)
        · exact .inr rfl
      · exact .inr (remove_of_ne hname)

theorem removeAll_of_mem {names : List Name} (hmem : n ∈ names) (hfile : files.isFile n) :
    (removeAll (fun _ => true) names files).1 n = none := by
  induction names generalizing files with
  | nil => cases hmem
  | cons name rest ih =>
    rw [removeAll]
    by_cases hname : n = name
    · subst hname
      have hgone : (files.remove (fun _ => true) n).1 n = none := by
        rw [remove, hfile]
        exact put_self ..
      exact (removeAll_eq_or _ rest _ n).elim id fun heq => heq.trans hgone
    · have hsame : (files.remove (fun _ => true) name).1 n = files n := remove_of_ne hname
      refine ih ((mem_cons.mp hmem).resolve_left hname) ?_
      rwa [isFile_congr hsame]

/-- Compressing, when nothing fails and no name is another one's compressed name. -/
theorem compressAll_done (gzip : List UInt8 → List UInt8) (suffix : Name) {names : List Name}
    (files : Files)
    (hnodup : names.Nodup) (hapart : ∀ n ∈ names, ∀ m ∈ names, n ≠ m ++ suffix)
    (hclear : ∀ n ∈ names, files (n ++ suffix) ≠ some .directory) :
    (∀ n ∈ names, files.isFile n →
      (compressAll gzip suffix (fun _ => .done) names files).1 n = none ∧
      (compressAll gzip suffix (fun _ => .done) names files).1 (n ++ suffix) =
        some (.file (gzip (files.content n)))) ∧
    ∀ n, (∀ m ∈ names, files.isFile m → n ≠ m ∧ n ≠ m ++ suffix) →
      (compressAll gzip suffix (fun _ => .done) names files).1 n = files n := by
  induction names generalizing files with
  | nil => exact ⟨fun n hn => absurd hn not_mem_nil, fun _ _ => rfl⟩
  | cons name rest ih =>
    obtain ⟨hnot, hnodup⟩ := nodup_cons.mp hnodup
    have hrest : ∀ n ∈ rest, ∀ m ∈ rest, n ≠ m ++ suffix := fun n hn m hm =>
      hapart n (mem_cons_of_mem _ hn) m (mem_cons_of_mem _ hm)
    have hself' := hapart name mem_cons_self
    rw [compressAll]
    dsimp only
    by_cases hfile : files.isFile name
    · obtain ⟨bytes, hbytes⟩ := isFile_iff.mp hfile
      have hself : name ≠ name ++ suffix := hself' name mem_cons_self
      have hone : (files.compress gzip suffix (fun _ => .done) name).1 =
          (files.put (name ++ suffix) (some (.file (gzip bytes)))).put name none := by
        rw [compress, hbytes]
        dsimp only
        rw [if_neg (hclear name mem_cons_self)]
      have hother {m : Name} (hm : m ≠ name) (hput : m ≠ name ++ suffix) :
          (files.compress gzip suffix (fun _ => .done) name).1 m = files m := compress_of_ne hm hput
      -- the names of the others are not touched
      have hleft {m : Name} (hm : m ∈ rest) : m ≠ name ∧ m ≠ name ++ suffix ∧
          m ++ suffix ≠ name ∧ m ++ suffix ≠ name ++ suffix := by
        have hne : m ≠ name := fun heq => hnot (heq ▸ hm)
        exact ⟨hne, hapart m (mem_cons_of_mem _ hm) name mem_cons_self,
          (hself' m (mem_cons_of_mem _ hm)).symm, fun heq => hne (append_cancel_right heq)⟩
      obtain ⟨hdone, hsame⟩ := ih (files.compress gzip suffix (fun _ => .done) name).1 hnodup hrest
        fun m hm => by
          rw [hother (hleft hm).2.2.1 (hleft hm).2.2.2]
          exact hclear m (mem_cons_of_mem _ hm)
      refine ⟨fun n hn hnfile => ?_, fun n hn => ?_⟩
      · rcases mem_cons.mp hn with rfl | hn
        · rw [hsame n fun m hm _ => ⟨(hleft hm).1.symm, (hleft hm).2.2.1.symm⟩,
            hsame (n ++ suffix) fun m hm _ => ⟨(hleft hm).2.1.symm, (hleft hm).2.2.2.symm⟩, hone,
            put_self, put_of_ne hself.symm, put_self, content_eq hbytes]
          exact ⟨rfl, rfl⟩
        · have hkept := hother (hleft hn).1 (hleft hn).2.1
          have hdone := hdone n hn (by rwa [isFile_congr hkept])
          rwa [RollingPolicy.content_congr hkept] at hdone
      · obtain ⟨hne, hput⟩ := hn name mem_cons_self hfile
        rw [hsame n fun m hm hmfile => ?_, hother hne hput]
        rw [isFile_congr (hother (hleft hm).1 (hleft hm).2.1)] at hmfile
        exact hn m (mem_cons_of_mem _ hm) hmfile
    · -- there is nothing to compress
      have hnone : files.compress gzip suffix (fun _ => .done) name = (files, [], []) := by
        unfold compress
        split
        · next hbytes => exact absurd (isFile_iff.mpr ⟨_, hbytes⟩) hfile
        · rfl
      obtain ⟨hdone, hsame⟩ := ih files hnodup hrest fun m hm => hclear m (mem_cons_of_mem _ hm)
      rw [hnone]
      refine ⟨fun n hn hnfile => ?_, fun n hn => hsame n fun m hm => hn m (mem_cons_of_mem _ hm)⟩
      refine hdone n ((mem_cons.mp hn).resolve_left fun heq => hfile ?_) hnfile
      rwa [← heq]

end Files

namespace RollingPolicy

section

variable (p : RollingPolicy)

/-- A rolled file of the policy, plain or compressed. -/
structure IsOwn (e : RolledFile) : Prop where
  period : ∃ now : DateTime, now.date.Tells ∧ e.timestamp = calculatePeriodStart now p
  sequence : e.sequence < 2 ^ 32
  path : e.path = p.rolledName e.timestamp e.sequence e.isCompressed

/-- It is in the directory. -/
structure Has (files : Files) (e : RolledFile) : Prop where
  own : p.IsOwn e
  file : files.isFile e.path

/-- The place is within the retention limit. -/
def Retains (i : ℕ) : Prop := ∀ n ∈ p.maxRetainedSequences, i < n

/-- The place is one of those that are compressed, and the file is plain. -/
def squeezes (i : ℕ) (e : RolledFile) : Bool :=
  !e.isCompressed && p.compression.any fun c => c.maxUncompressedSequences ≤ i

def squeezed (e : RolledFile) : RolledFile :=
  { e with path := e.path ++ p.compressedSuffix, isCompressed := true }

/-- What becomes of a file that is retained. -/
def outcome (i : ℕ) (e : RolledFile) : RolledFile := if p.squeezes i e then p.squeezed e else e

/-- The rolled files after cleaning up are those whose places are retained, compressed with what they
held where that is called for, and as they were otherwise. -/
structure Cleans (gzip : List UInt8 → List UInt8) (place : RolledFile → ℕ) (before after : Files) :
    Prop where
  files : ∀ e, p.Has after e ↔
    ∃ e', p.Has before e' ∧ p.Retains (place e') ∧ e = p.outcome (place e') e'
  content : ∀ e, p.Has before e → p.Retains (place e) →
    after.content (p.outcome (place e) e).path =
      if p.squeezes (place e) e then gzip (before.content e.path) else before.content e.path

/-- The newest files are retained, and of those all but the newest are compressed. -/
def KeepsNewest (gzip : List UInt8 → List UInt8) (before after : Files) : Prop :=
  ∃ l : List RolledFile, l.Nodup ∧ (∀ e, e ∈ l ↔ p.Has before e) ∧
    (l.Pairwise fun a b => b.key ≤ a.key) ∧ p.Cleans gzip (fun e => l.idxOf e) before after

/-- A file fares the same at both places. -/
def Agrees (e : RolledFile) (i j : ℕ) : Prop :=
  (p.Retains i ↔ p.Retains j) ∧ (p.Retains i → p.squeezes i e = p.squeezes j e)

end

variable {digit : Char → Bool} {gzip : List UInt8 → List UInt8} {p : RollingPolicy}
variable {e e' : RolledFile} {before after : Files}

/-! ### The policy's own files -/

theorem IsOwn.reads (h : p.IsOwn e) (hreads : p.ReadsBack digit) :
    IsFileName e.path ∧ p.parseName digit e.path = some e := by
  obtain ⟨now, htells, htime⟩ := h.period
  have hread := hreads.reads htells h.sequence e.isCompressed
  rw [← htime, ← h.path] at hread
  exact hread

theorem IsOwn.eq_of_path (h : p.IsOwn e) (h' : p.IsOwn e') (hreads : p.ReadsBack digit)
    (hpath : e.path = e'.path) : e = e' := by
  have hparse := (h.reads hreads).2
  rw [hpath, (h'.reads hreads).2] at hparse
  exact (Option.some.inj hparse).symm

theorem IsOwn.squeezed (h : p.IsOwn e) (hplain : e.isCompressed = false) :
    p.IsOwn (p.squeezed e) := by
  refine ⟨h.period, h.sequence, ?_⟩
  rw [RollingPolicy.squeezed, h.path, hplain]
  simp [rolledName]

theorem IsOwn.ne_basePath (h : p.IsOwn e) : e.path ≠ p.basePath := by
  intro heq
  have hlen := congrArg List.length (h.path.symm.trans heq)
  simp only [rolledName, rolledPath, basePath, length_append, length_cons] at hlen
  omega

theorem suffix_path (h : p.IsOwn e) (hplain : e.isCompressed = false) :
    p.fileNameSuffix <:+ e.path := by
  refine ⟨p.fileNamePrefix ++ '.' :: (p.formatPeriod e.timestamp ++
    '.' :: Nat.toDigits 10 e.sequence), ?_⟩
  rw [h.path, hplain]
  simp [rolledName, rolledPath]

theorem key_outcome (i : ℕ) (e : RolledFile) : (p.outcome i e).key = e.key := by
  unfold outcome
  split_ifs <;> rfl

/-- The outcome tells whether the file was compressed. -/
theorem squeezes_eq_of_outcome {i j : ℕ} (h : p.outcome i e = p.outcome j e) :
    p.squeezes i e = p.squeezes j e := by
  cases hplain : e.isCompressed with
  | true => rw [squeezes, squeezes, hplain, Bool.not_true, Bool.false_and, Bool.false_and]
  | false =>
    have hflag := congrArg RolledFile.isCompressed h
    unfold outcome at hflag
    cases hi : p.squeezes i e <;> cases hj : p.squeezes j e <;>
      simp [hi, hj, squeezed, hplain] at hflag ⊢

/-- Where files are cleaned up by their places, other places would do if every file fares the same. -/
theorem Cleans.iff_agrees {place place' : RolledFile → ℕ} (h : p.Cleans gzip place before after)
    (hdistinct : ∀ e e', p.Has before e → p.Has before e' → e.key = e'.key → e = e') :
    p.Cleans gzip place' before after ↔
      ∀ e, p.Has before e → p.Agrees e (place e) (place' e) := by
  constructor
  · intro h' e he
    -- the file that comes of it comes of no other file
    have hsame {pl pl' : RolledFile → ℕ} (h : p.Cleans gzip pl before after)
        (h' : p.Cleans gzip pl' before after) (hretains : p.Retains (pl e)) :
        p.Retains (pl' e) ∧ p.outcome (pl e) e = p.outcome (pl' e) e := by
      obtain ⟨e', he', hretains', heq⟩ := (h'.files _).mp ((h.files _).mpr ⟨e, he, hretains, rfl⟩)
      have hkey := congrArg RolledFile.key heq
      rw [key_outcome, key_outcome] at hkey
      obtain rfl := hdistinct e e' he he' hkey
      exact ⟨hretains', heq⟩
    exact ⟨⟨fun hretains => (hsame h h' hretains).1, fun hretains => (hsame h' h hretains).1⟩,
      fun hretains => squeezes_eq_of_outcome (hsame h h' hretains).2⟩
  · intro hagrees
    have houtcome {e} (he : p.Has before e) (hretains : p.Retains (place e)) :
        p.outcome (place e) e = p.outcome (place' e) e := by
      rw [outcome, outcome, (hagrees e he).2 hretains]
    refine ⟨fun e => (h.files e).trans (exists_congr fun e' => and_congr_right fun he' => ?_),
      fun e he hretains' => ?_⟩
    · rw [← (hagrees e' he').1]
      exact and_congr_right fun hretains => by rw [houtcome he' hretains]
    · have hretains := (hagrees e he).1.mpr hretains'
      rw [← houtcome he hretains, ← (hagrees e he).2 hretains]
      exact h.content e he hretains

end RollingPolicy

namespace CustomRoller

section

variable (digit : Char → Bool) (p : RollingPolicy) (s : CustomRoller) (order : Listing)

/-- The directory is listed in full, and all that is found there are rolled files of the policy, one
for each period and sequence. Their names are read back, the sequences do not run out, and no
directory is in the way of the roll. -/
structure Orderly : Prop where
  complete : order.Complete s.files
  reads : p.ReadsBack digit
  own : ∀ e ∈ p.scanned digit s.files order, p.IsOwn e
  distinct : ∀ e ∈ p.scanned digit s.files order, ∀ e' ∈ p.scanned digit s.files order,
    e.key = e'.key → e = e'
  bound : ∀ e ∈ p.findRolledFiles digit s.files order, e.sequence < 2 ^ 32 - 1
  period : ∃ now : DateTime, now.date.Tells ∧
    s.currentPeriodStart = RollingPolicy.calculatePeriodStart now p
  active : s.files p.basePath ≠ some .directory
  target : s.files (s.rollTarget digit p order) ≠ some .directory
  clear : ∀ e ∈ p.toCompress ((s.closed p).allFiles digit p order),
    s.files (e.path ++ p.compressedSuffix) ≠ some .directory

/-- The active file is there, or no file fares otherwise for the place that is counted for it. -/
def Counts : Prop :=
  (s.files p.basePath).isSome ∨ ∀ e ∈ p.scanned digit s.files order,
    p.Agrees e (s.place digit p order e)
      (StableSort.rank RolledFile.key (p.scanned digit s.files order) e)

end

variable {digit : Char → Bool} {p : RollingPolicy} {s : CustomRoller} {order : Listing}
variable {e e' : RolledFile}

namespace Orderly

theorem has_iff (h : s.Orderly digit p order) :
    p.Has s.files e ↔ e ∈ p.scanned digit s.files order := by
  constructor
  · intro he
    obtain ⟨hname, hparse⟩ := he.own.reads h.reads
    have hfound := (RollingPolicy.mem_findRolledFiles h.complete).mpr ⟨he.file, hname, hparse⟩
    rwa [RollingPolicy.findRolledFiles, sortFiles, StableSort.mem_sortDesc] at hfound
  · exact fun he => ⟨h.own e he, (RollingPolicy.mem_scanned he).1⟩

theorem own_rolling (h : s.Orderly digit p order) : p.IsOwn (s.rolling digit p order) :=
  ⟨h.period, RollingPolicy.nextSequence_lt .., (append_nil _).symm⟩

theorem own_of_mem (h : s.Orderly digit p order) (he : e ∈ s.candidates digit p order) :
    p.IsOwn e := by
  rcases mem_append.mp he with hold | hnew
  · exact h.own e hold
  · exact mem_singleton.mp hnew ▸ h.own_rolling

theorem key_ne_rolling (h : s.Orderly digit p order) (he : e ∈ p.scanned digit s.files order) :
    e.key ≠ (s.rolling digit p order).key := by
  intro hkey
  obtain ⟨htime, hsequence⟩ := Prod.mk.inj (toLex.injective hkey)
  have hfound : e ∈ p.findRolledFiles digit s.files order := by
    rwa [RollingPolicy.findRolledFiles, sortFiles, StableSort.mem_sortDesc]
  have hlt := RollingPolicy.lt_nextSequence h.bound hfound (congrArg p.formatPeriod htime)
  exact absurd hsequence hlt.ne

theorem distinct_candidates (h : s.Orderly digit p order) (he : e ∈ s.candidates digit p order)
    (he' : e' ∈ s.candidates digit p order) (hkey : e.key = e'.key) : e = e' := by
  rcases mem_append.mp he with hold | hnew <;> rcases mem_append.mp he' with hold' | hnew'
  · exact h.distinct e hold e' hold' hkey
  · rw [mem_singleton.mp hnew'] at hkey
    exact absurd hkey (h.key_ne_rolling hold)
  · rw [mem_singleton.mp hnew] at hkey
    exact absurd hkey.symm (h.key_ne_rolling hold')
  · exact (mem_singleton.mp hnew).trans (mem_singleton.mp hnew').symm

theorem nodup_candidates (h : s.Orderly digit p order) : (s.candidates digit p order).Nodup := by
  refine nodup_append'.mpr ⟨RollingPolicy.nodup_scanned, nodup_singleton _, ?_⟩
  intro e he hnew
  exact h.key_ne_rolling he (congrArg RolledFile.key (mem_singleton.mp hnew))

theorem count_candidate (h : s.Orderly digit p order) (he : e ∈ s.candidates digit p order) :
    (p.findRolledFiles digit s.files order ++ [s.rolling digit p order]).count e = 1 := by
  have hperm : (p.findRolledFiles digit s.files order ++ [s.rolling digit p order]).Perm
      (s.candidates digit p order) := (StableSort.perm_sortDesc _).append_right _
  rw [hperm.count_eq]
  exact count_eq_one_of_mem h.nodup_candidates he

/-! ### What a roll cleans up -/

theorem mem_toDelete_iff (h : s.Orderly digit p order) (he : e ∈ s.candidates digit p order) :
    e ∈ p.toDelete ((s.closed p).allFiles digit p order) ↔
      ¬ p.Retains (s.place digit p order e) := by
  rw [mem_toDelete (h.count_candidate he), Deletes, RollingPolicy.Retains]
  simp

theorem mem_toCompress_iff (h : s.Orderly digit p order) (he : e ∈ s.candidates digit p order) :
    e ∈ p.toCompress ((s.closed p).allFiles digit p order) ↔
      p.Retains (s.place digit p order e) ∧ p.squeezes (s.place digit p order e) e := by
  have hown := h.own_of_mem he
  rw [mem_toCompress (h.count_candidate he) (hown.reads h.reads).1, RollingPolicy.Retains,
    RollingPolicy.squeezes]
  cases hplain : e.isCompressed with
  | true => simp
  | false =>
    have hsuffix := RollingPolicy.suffix_path hown hplain
    cases p.compression <;> simp [hsuffix]

theorem mem_candidates (he : e ∈ (s.closed p).allFiles digit p order) :
    e ∈ s.candidates digit p order := by
  rcases mem_allFiles he with hold | hnew
  · exact mem_append_left _ hold
  · exact mem_append_right _ (mem_singleton.mpr hnew)

/-! ### The directory before cleaning up -/

theorem closed_base (h : s.Orderly digit p order) (hpresent : (s.files p.basePath).isSome) :
    ∃ bytes, (s.closed p).files p.basePath = some (.file bytes) := by
  obtain ⟨node, hnode⟩ := Option.isSome_iff_exists.mp hpresent
  have hfile : s.files.isFile p.basePath := by
    cases node with
    | file bytes => exact Files.isFile_iff.mpr ⟨bytes, hnode⟩
    | directory => exact absurd hnode h.active
  exact Files.isFile_iff.mp ((isFile_flush s p.basePath).trans hfile)

theorem not_blocked (h : s.Orderly digit p order) : ¬ s.Blocked digit p order := by
  rintro ⟨hpresent, hblocked⟩
  have hpresent : (s.files p.basePath).isSome := (isSome_flush s p.basePath).symm.trans hpresent
  obtain ⟨bytes, hbase⟩ := h.closed_base hpresent
  have htarget : (s.closed p).files (s.rollTarget digit p order) =
      s.files (s.rollTarget digit p order) := flush_of_ne (rollTarget_ne_basePath s order)
  rw [rollTarget_closed, Files.mayRename, hbase, htarget] at hblocked
  cases hfile : s.files (s.rollTarget digit p order) with
  | none => simp [hfile] at hblocked
  | some node =>
    cases node with
    | file bytes => simp [hfile] at hblocked
    | directory => exact h.target hfile

theorem moved_of_ne (h : s.Orderly digit p order) (hown : p.IsOwn e)
    (hne : e ≠ s.rolling digit p order) : s.moved digit p order e.path = s.files e.path := by
  have htarget : e.path ≠ (s.closed p).rollTarget digit p order := fun heq =>
    hne (hown.eq_of_path h.own_rolling h.reads (heq.trans (rollTarget_closed s order)))
  exact (Files.rename_of_ne hown.ne_basePath htarget).trans (flush_of_ne hown.ne_basePath)

theorem has_moved (h : s.Orderly digit p order) : p.Has (s.moved digit p order) e ↔
    e ∈ p.scanned digit s.files order ∨
      (s.files p.basePath).isSome ∧ e = s.rolling digit p order := by
  by_cases hne : e = s.rolling digit p order
  · have hnot : e ∉ p.scanned digit s.files order := fun he =>
      h.key_ne_rolling he (congrArg RolledFile.key hne)
    have htarget : e.path = (s.closed p).rollTarget digit p order := by
      rw [hne, rollTarget_closed]
      rfl
    have hown : p.IsOwn e := hne ▸ h.own_rolling
    rw [or_iff_right hnot, and_iff_left hne]
    by_cases hpresent : (s.files p.basePath).isSome
    · obtain ⟨bytes, hbase⟩ := h.closed_base hpresent
      have hmoved : s.moved digit p order e.path = some (.file bytes) := by
        rw [moved, htarget, Files.rename_target (htarget ▸ hown.ne_basePath) (by rw [hbase]; rfl),
          hbase]
      exact iff_of_true ⟨hown, Files.isFile_iff.mpr ⟨bytes, hmoved⟩⟩ hpresent
    · -- nothing is renamed, and there is no file of that name
      refine iff_of_false (fun he => hnot (h.has_iff.mp ⟨hown, ?_⟩)) hpresent
      have habsent : ¬ ((s.closed p).files p.basePath).isSome := fun hsome =>
        hpresent ((isSome_flush s p.basePath).symm.trans hsome)
      have hmoved : s.moved digit p order e.path = s.files e.path := by
        rw [moved, Files.rename, if_neg habsent]
        exact flush_of_ne hown.ne_basePath
      rw [← Files.isFile_congr hmoved]
      exact he.file
  · rw [or_iff_left fun hand => hne hand.2, ← h.has_iff]
    constructor
    · exact fun he => ⟨he.own, Files.isFile_congr (h.moved_of_ne he.own hne) ▸ he.file⟩
    · exact fun he => ⟨he.own, (Files.isFile_congr (h.moved_of_ne he.own hne)).trans he.file⟩

theorem mem_of_has_moved (h : s.Orderly digit p order)
    (he : p.Has (s.moved digit p order) e) : e ∈ s.candidates digit p order := by
  rcases h.has_moved.mp he with hold | ⟨-, hnew⟩
  · exact mem_append_left _ hold
  · exact mem_append_right _ (mem_singleton.mpr hnew)

/-! ### The directory after cleaning up -/

section

variable (digit p s order)

def deletedNames : List Name :=
  (p.toDelete ((s.closed p).allFiles digit p order)).map RolledFile.path

def compressedNames : List Name :=
  (p.toCompress ((s.closed p).allFiles digit p order)).map RolledFile.path

/-- The directory when the files beyond the limit are deleted. -/
def retained : Files :=
  (Files.removeAll (fun _ => true) (deletedNames digit p s order) (s.opened digit p order)).1

end

theorem opened_of_own (hown : p.IsOwn e) :
    s.opened digit p order e.path = s.moved digit p order e.path :=
  Files.put_of_ne hown.ne_basePath _

theorem retained_of_isFile (hown : p.IsOwn e)
    (hfile : (retained digit p s order).isFile e.path) :
    retained digit p s order e.path = s.moved digit p order e.path := by
  refine Eq.trans ?_ (opened_of_own hown)
  refine (Files.removeAll_eq_or (fun _ => true) (deletedNames digit p s order)
    (s.opened digit p order) e.path).resolve_left fun hnone => ?_
  obtain ⟨bytes, hbytes⟩ := Files.isFile_iff.mp hfile
  rw [retained, hnone] at hbytes
  cases hbytes

theorem isFile_retained (h : s.Orderly digit p order) (hown : p.IsOwn e) :
    (retained digit p s order).isFile e.path ↔
      p.Has (s.moved digit p order) e ∧ p.Retains (s.place digit p order e) := by
  have hopened : s.opened digit p order e.path = s.moved digit p order e.path :=
    Files.put_of_ne hown.ne_basePath _
  constructor
  · intro hfile
    have hmoved : (s.moved digit p order).isFile e.path := by
      rwa [← Files.isFile_congr (retained_of_isFile hown hfile)]
    refine ⟨⟨hown, hmoved⟩, not_not.mp fun hnot => ?_⟩
    have hmem := (h.mem_toDelete_iff (h.mem_of_has_moved ⟨hown, hmoved⟩)).mpr hnot
    have hgone := Files.removeAll_of_mem (mem_map_of_mem (f := RolledFile.path) hmem)
      ((Files.isFile_congr hopened).trans hmoved)
    obtain ⟨bytes, hbytes⟩ := Files.isFile_iff.mp hfile
    rw [retained, deletedNames, hgone] at hbytes
    cases hbytes
  · rintro ⟨hhas, hretains⟩
    have hnot : e.path ∉ deletedNames digit p s order := by
      intro hmem
      obtain ⟨e', he', hpath⟩ := mem_map.mp hmem
      have hcandidate := mem_candidates (RollingPolicy.mem_of_mem_toDelete he')
      obtain rfl := (h.own_of_mem hcandidate).eq_of_path hown h.reads hpath
      exact (h.mem_toDelete_iff hcandidate).mp he' hretains
    rw [retained, Files.isFile_congr ((Files.removeAll_of_notMem _ _ _ hnot).trans hopened)]
    exact hhas.file

theorem squeezed_spec (h : s.Orderly digit p order)
    (he : e ∈ p.toCompress ((s.closed p).allFiles digit p order)) :
    p.IsOwn (p.squeezed e) ∧ p.squeezed e ≠ s.rolling digit p order ∧
      ∀ e' ∈ s.candidates digit p order, e'.path ≠ (p.squeezed e).path := by
  have hcandidate := mem_candidates (RollingPolicy.mem_of_mem_toCompress he)
  have hsqueezes := ((h.mem_toCompress_iff hcandidate).mp he).2
  have hplain : e.isCompressed = false := by
    rw [RollingPolicy.squeezes, Bool.and_eq_true, Bool.not_eq_true'] at hsqueezes
    exact hsqueezes.1
  have hown := (h.own_of_mem hcandidate).squeezed hplain
  refine ⟨hown, fun heq => ?_, fun e' he' hpath => ?_⟩
  · cases congrArg RolledFile.isCompressed heq
  · have heq := (h.own_of_mem he').eq_of_path hown h.reads hpath
    have hkey : e'.key = e.key := by
      rw [heq]
      rfl
    have hflag := congrArg RolledFile.isCompressed heq
    rw [h.distinct_candidates he' hcandidate hkey, hplain] at hflag
    cases hflag

theorem nodup_compressedNames (h : s.Orderly digit p order) :
    (compressedNames digit p s order).Nodup := by
  have hall : ((s.closed p).allFiles digit p order).Nodup := by
    rw [allFiles_eq, sortFiles, (StableSort.perm_sortDesc _).nodup_iff]
    exact ((StableSort.perm_sortDesc _).append_right _).nodup_iff.mpr h.nodup_candidates
  have hsub := RollingPolicy.toCompress_sublist p ((s.closed p).allFiles digit p order)
  refine (hall.sublist hsub).map_on fun e he e' he' hpath => ?_
  exact (h.own_of_mem (mem_candidates (hsub.subset he))).eq_of_path
    (h.own_of_mem (mem_candidates (hsub.subset he'))) h.reads hpath

theorem compressed_spec (h : s.Orderly digit p order) (gzip : List UInt8 → List UInt8)
    {after : Files}
    (hafter : after = (Files.compressAll gzip p.compressedSuffix (fun _ => .done)
      (compressedNames digit p s order) (retained digit p s order)).1) :
    (∀ e ∈ p.toCompress ((s.closed p).allFiles digit p order),
      (retained digit p s order).isFile e.path → after e.path = none ∧
        after (p.squeezed e).path =
          some (.file (gzip ((retained digit p s order).content e.path)))) ∧
    ∀ n, (∀ e ∈ p.toCompress ((s.closed p).allFiles digit p order),
      (retained digit p s order).isFile e.path → n ≠ e.path ∧ n ≠ (p.squeezed e).path) →
      after n = retained digit p s order n := by
  subst hafter
  have hdone := Files.compressAll_done gzip p.compressedSuffix (retained digit p s order)
    h.nodup_compressedNames ?_ ?_
  · refine ⟨fun e he => hdone.1 _ (mem_map_of_mem he), fun n hn => hdone.2 n fun m hm => ?_⟩
    obtain ⟨e, he, rfl⟩ := mem_map.mp hm
    exact hn e he
  · intro n hn m hm
    obtain ⟨e, he, rfl⟩ := mem_map.mp hn
    obtain ⟨e', he', rfl⟩ := mem_map.mp hm
    exact (h.squeezed_spec he').2.2 e (mem_candidates (RollingPolicy.mem_of_mem_toCompress he))
  · intro n hn hdirectory
    obtain ⟨e, he, rfl⟩ := mem_map.mp hn
    obtain ⟨hown, hne, -⟩ := h.squeezed_spec he
    have hkept := (Files.removeAll_eq_or (fun _ => true) (deletedNames digit p s order)
      (s.opened digit p order) (p.squeezed e).path).resolve_left
        fun hnone => by cases hnone.symm.trans hdirectory
    have hopened : s.opened digit p order (p.squeezed e).path = s.files (p.squeezed e).path :=
      (opened_of_own hown).trans (h.moved_of_ne hown hne)
    exact h.clear e he (hopened.symm.trans (hkept.symm.trans hdirectory))

/-- A roll cleans up by the places among the files it found and the one it rolls, whether that is
there or not. -/
theorem cleans_place (h : s.Orderly digit p order) (gzip : List UInt8 → List UInt8) :
    p.Cleans gzip (s.place digit p order) (s.moved digit p order)
      (cleanup gzip p (.none order) (s.opened digit p order)
        ((s.closed p).allFiles digit p order)).1 := by
  generalize hafter : (cleanup gzip p (.none order) (s.opened digit p order)
    ((s.closed p).allFiles digit p order)).1 = after
  obtain ⟨hdone, hsame⟩ := h.compressed_spec gzip hafter.symm
  -- what becomes of a file that is retained
  have houtcome : ∀ e, p.Has (s.moved digit p order) e → p.Retains (s.place digit p order e) →
      after (p.outcome (s.place digit p order e) e).path = some (.file
        (if p.squeezes (s.place digit p order e) e then gzip ((s.moved digit p order).content e.path)
          else (s.moved digit p order).content e.path)) := by
    intro e he hretains
    have hcandidate := h.mem_of_has_moved he
    have hfile := (h.isFile_retained he.own).mpr ⟨he, hretains⟩
    have hmoved := retained_of_isFile he.own hfile
    have hmem := h.mem_toCompress_iff hcandidate
    by_cases hsqueezes : p.squeezes (s.place digit p order e) e
    · rw [RollingPolicy.outcome, if_pos hsqueezes, if_pos hsqueezes,
        (hdone e (hmem.mpr ⟨hretains, hsqueezes⟩) hfile).2, RollingPolicy.content_congr hmoved]
    · rw [RollingPolicy.outcome, if_neg hsqueezes, if_neg hsqueezes, hsame e.path, hmoved]
      · obtain ⟨bytes, hbytes⟩ := Files.isFile_iff.mp he.file
        rw [hbytes, Files.content_eq hbytes]
      · intro c hc _
        refine ⟨fun hpath => ?_, (h.squeezed_spec hc).2.2 e hcandidate⟩
        obtain rfl := he.own.eq_of_path
          (h.own_of_mem (mem_candidates (RollingPolicy.mem_of_mem_toCompress hc))) h.reads hpath
        exact hsqueezes (hmem.mp hc).2
  refine ⟨fun e => ⟨fun he => ?_, ?_⟩, fun e he hretains =>
    Files.content_eq (houtcome e he hretains)⟩
  · by_cases hwritten : ∃ c ∈ p.toCompress ((s.closed p).allFiles digit p order),
        (retained digit p s order).isFile c.path ∧ e.path = (p.squeezed c).path
    · -- it was written by a compression
      obtain ⟨c, hc, hfile, hpath⟩ := hwritten
      have hcandidate := mem_candidates (RollingPolicy.mem_of_mem_toCompress hc)
      obtain ⟨hretains, hsqueezes⟩ := (h.mem_toCompress_iff hcandidate).mp hc
      refine ⟨c, ((h.isFile_retained (h.own_of_mem hcandidate)).mp hfile).1, hretains, ?_⟩
      rw [RollingPolicy.outcome, if_pos hsqueezes]
      exact he.own.eq_of_path (h.squeezed_spec hc).1 h.reads hpath
    · obtain ⟨bytes, hbytes⟩ := Files.isFile_iff.mp he.file
      have hkept : after e.path = retained digit p s order e.path := by
        refine hsame e.path fun c hc hfile => ⟨fun hpath => ?_, fun hpath =>
          hwritten ⟨c, hc, hfile, hpath⟩⟩
        rw [hpath, (hdone c hc hfile).1] at hbytes
        cases hbytes
      have hfile : (retained digit p s order).isFile e.path := by
        rw [← Files.isFile_congr hkept]
        exact he.file
      obtain ⟨hhas, hretains⟩ := (h.isFile_retained he.own).mp hfile
      refine ⟨e, hhas, hretains, ?_⟩
      rw [RollingPolicy.outcome, if_neg fun hsqueezes => ?_]
      have hmem := (h.mem_toCompress_iff (h.mem_of_has_moved hhas)).mpr ⟨hretains, hsqueezes⟩
      rw [(hdone e hmem hfile).1] at hbytes
      cases hbytes
  · rintro ⟨e', he', hretains, rfl⟩
    refine ⟨?_, Files.isFile_iff.mpr ⟨_, houtcome e' he' hretains⟩⟩
    rw [RollingPolicy.outcome]
    split_ifs with hsqueezes
    · exact (h.squeezed_spec ((h.mem_toCompress_iff (h.mem_of_has_moved he')).mpr
        ⟨hretains, hsqueezes⟩)).1
    · exact he'.own

/-! ### Places -/

/-- The rolled files that there are before cleaning up. -/
def real (digit : Char → Bool) (p : RollingPolicy) (s : CustomRoller) (order : Listing) :
    List RolledFile :=
  if (s.files p.basePath).isSome then s.candidates digit p order else p.scanned digit s.files order

theorem mem_real (h : s.Orderly digit p order) :
    e ∈ real digit p s order ↔ p.Has (s.moved digit p order) e := by
  rw [h.has_moved, real]
  split_ifs with hpresent
  · rw [candidates, mem_append, mem_singleton, and_iff_right hpresent]
  · rw [or_iff_left fun hand => hpresent hand.1]

theorem nodup_real (h : s.Orderly digit p order) : (real digit p s order).Nodup := by
  rw [real]
  split_ifs
  · exact h.nodup_candidates
  · exact RollingPolicy.nodup_scanned

theorem distinct_real (h : s.Orderly digit p order)
    (he : p.Has (s.moved digit p order) e) (he' : p.Has (s.moved digit p order) e')
    (hkey : e.key = e'.key) : e = e' :=
  h.distinct_candidates (h.mem_of_has_moved he) (h.mem_of_has_moved he') hkey

theorem keepsNewest_iff_agrees (h : s.Orderly digit p order) (gzip : List UInt8 → List UInt8)
    (now : DateTime) :
    p.KeepsNewest gzip (s.moved digit p order)
        (s.roll digit gzip p (.none order) now).2.1.files ↔
      ∀ e, p.Has (s.moved digit p order) e → p.Agrees e (s.place digit p order e)
        (StableSort.rank RolledFile.key (real digit p s order) e) := by
  have hcleans := h.cleans_place gzip
  have hroll := roll_of_clear digit gzip p s (order_none order) h.not_blocked rfl rfl rfl rfl rfl now
  rw [hroll]
  dsimp only
  have hplaces {l : List RolledFile} (hnodup : l.Nodup)
      (hmem : ∀ e, e ∈ l ↔ p.Has (s.moved digit p order) e)
      (hsorted : l.Pairwise fun a b => b.key ≤ a.key) (e : RolledFile)
      (he : p.Has (s.moved digit p order) e) :
      l.idxOf e = StableSort.rank RolledFile.key (real digit p s order) e := by
    have hperm : l.Perm (real digit p s order) :=
      (perm_ext_iff_of_nodup hnodup h.nodup_real).mpr fun e => (hmem e).trans h.mem_real.symm
    rw [StableSort.idxOf_eq_rank hsorted ((hmem e).mpr he)]
    exact StableSort.rank_of_perm hperm (h.mem_real.mpr he) fun e' he' =>
      h.distinct_real (h.mem_real.mp he') he
  constructor
  · rintro ⟨l, hnodup, hmem, hsorted, hl⟩ e he
    rw [← hplaces hnodup hmem hsorted e he]
    exact (hcleans.iff_agrees fun _ _ => h.distinct_real).mp hl e he
  · intro hagrees
    have hnodup : (StableSort.sortDesc RolledFile.key (real digit p s order)).Nodup :=
      (StableSort.perm_sortDesc _).nodup_iff.mpr h.nodup_real
    have hmem (e : RolledFile) : e ∈ StableSort.sortDesc RolledFile.key (real digit p s order) ↔
        p.Has (s.moved digit p order) e := StableSort.mem_sortDesc.trans h.mem_real
    have hsorted : (StableSort.sortDesc RolledFile.key (real digit p s order)).Pairwise
        fun a b => b.key ≤ a.key := StableSort.pairwise_sortDesc _
    refine ⟨_, hnodup, hmem, hsorted, (hcleans.iff_agrees fun _ _ => h.distinct_real).mpr ?_⟩
    intro e he
    rw [hplaces hnodup hmem hsorted e he]
    exact hagrees e he

end Orderly

/-- In a roll in which nothing fails, the newest files are kept exactly if the active file is there or
the place that is counted for it makes no difference. -/
theorem keepsNewest_iff (h : s.Orderly digit p order) (gzip : List UInt8 → List UInt8)
    (now : DateTime) :
    p.KeepsNewest gzip (s.moved digit p order)
        (s.roll digit gzip p (.none order) now).2.1.files ↔ s.Counts digit p order := by
  rw [h.keepsNewest_iff_agrees gzip now, Counts]
  by_cases hpresent : (s.files p.basePath).isSome
  · refine iff_of_true (fun e _ => ?_) (.inl hpresent)
    rw [Orderly.real, if_pos hpresent]
    exact ⟨Iff.rfl, fun _ => rfl⟩
  · rw [or_iff_right hpresent, Orderly.real, if_neg hpresent]
    refine forall_congr' fun e => ?_
    rw [h.has_moved, or_iff_left fun hand => hpresent hand.1]

/-- `app.2024-01-01.1.log`. -/
def appRolled : RolledFile where
  timestamp := .midnight ⟨2024, 1, 1, valid_dayOne⟩
  sequence := 1
  path := ['a', 'p', 'p', '.', '2', '0', '2', '4', '-', '0', '1', '-', '0', '1', '.', '1', '.', 'l',
    'o', 'g']
  isCompressed := false

def keeping (active : Bool) : CustomRoller where
  files name := if name = appRolled.path ∨ active ∧ name = keepOne.basePath then some (.file [1])
    else none
  live := true
  buffer := []
  currentSize := 1
  currentPeriodStart := .midnight ⟨2024, 1, 2, valid_dayTwo⟩

def keepingListing : Listing := ⟨[keepOne.basePath, appRolled.path], by decide⟩

theorem orderly_keeping (active : Bool) :
    (keeping active).Orderly Char.isDigit keepOne keepingListing := by
  have hscanned : keepOne.scanned Char.isDigit (keeping active).files keepingListing =
      [appRolled] := by
    cases active <;> decide
  have hclear : keepOne.Clear Char.isDigit :=
    RollingPolicy.clear_of_log rfl rfl (by decide) (by decide)
  have hnone (name : Name) : (keeping active).files name ≠ some .directory := by
    rw [keeping]
    dsimp only
    split_ifs <;> simp
  refine ⟨fun name hfile _ => ?_, hclear.readsBack (fun _ hc => hc) (by decide), ?_, ?_, ?_,
    ⟨.midnight ⟨2024, 1, 2, by decide⟩, ⟨by decide, by decide⟩, rfl⟩, hnone _, hnone _,
    fun _ _ => hnone _⟩
  · have hnames : name = appRolled.path ∨ active ∧ name = keepOne.basePath := by
      by_contra hnot
      simp [Files.isFile, keeping, hnot] at hfile
    rcases hnames with rfl | ⟨-, rfl⟩
    · decide
    · decide
  · rw [hscanned]
    intro e he
    rw [mem_singleton.mp he]
    exact ⟨⟨.midnight ⟨2024, 1, 1, by decide⟩, ⟨by decide, by decide⟩, rfl⟩, by decide, by decide⟩
  · rw [hscanned]
    intro e he e' he' _
    rw [mem_singleton.mp he, mem_singleton.mp he']
  · rw [RollingPolicy.findRolledFiles, hscanned]
    decide

theorem keepsNewest_iff_keeping : keepOne.KeepsNewest id
    ((keeping true).moved Char.isDigit keepOne keepingListing)
    ((keeping true).roll Char.isDigit id keepOne (.none keepingListing)
      (.midnight ⟨2024, 1, 3, by decide⟩)).2.1.files :=
  (keepsNewest_iff (orderly_keeping true) id _).mpr (.inl rfl)

/-- Where the active file was deleted, the only rolled file is deleted as well. -/
theorem not_keepsNewest_missing : ¬ ∀ (p : RollingPolicy) (s : CustomRoller) (order : Listing)
    (now : DateTime), s.Orderly Char.isDigit p order →
      p.KeepsNewest id (s.moved Char.isDigit p order)
        (s.roll Char.isDigit id p (.none order) now).2.1.files := by
  intro hall
  have horderly := orderly_keeping false
  have hmem : appRolled ∈ keepOne.scanned Char.isDigit (keeping false).files keepingListing := by
    decide
  have hagrees := (horderly.keepsNewest_iff_agrees id _).mp
    (hall keepOne _ _ (.midnight ⟨2024, 1, 3, by decide⟩) horderly) appRolled
    (horderly.has_moved.mpr (.inl hmem))
  -- the place counted for the file is the second, and in the directory it is the first
  have hfirst : StableSort.rank RolledFile.key (Orderly.real Char.isDigit keepOne (keeping false)
      keepingListing) appRolled = 0 := by
    decide
  have hsecond : (keeping false).place Char.isDigit keepOne keepingListing appRolled = 1 := by
    decide
  have hretains := hagrees.1.mpr (by
    rw [hfirst]
    rintro n hn
    obtain rfl := Option.some.inj hn
    exact Nat.one_pos)
  rw [hsecond] at hretains
  exact Nat.lt_irrefl 1 (hretains 1 rfl)

end CustomRoller

end Fibre.Logging
