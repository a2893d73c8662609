import Mathlib.Algebra.GroupWithZero.Nat
import Mathlib.Data.List.Infix
import Mathlib.Data.List.Nodup
import Fibre.Logging.Config

/-!
# Which appenders an event goes to

Every appender has a table of its own: the loggers that list it, and the additive ones below those.
An event is matched against every table; the most specific rule found in any of them decides whether
the others take part.

A logger that is not additive and lists no appender is in no table. An event that it is the most
specific logger of is dispatched as if that logger were not configured.
-/

namespace Fibre.Logging

open List

attribute [local instance] lawfulBEq_name

/-! ### Names of loggers -/

/-- `str::strip_prefix` -/
def stripPrefix (s pre : Name) : Option Name :=
  if pre.isPrefixOf s then some (s.drop pre.length) else none

/-- A logger's name is the target, or a module-path ancestor of it. -/
def targetMatchesPrefix (target pre : Name) : Bool :=
  match stripPrefix target pre with
  | some rest => rest.isEmpty || "::".toList.isPrefixOf rest
  | none => false

def isAncestorLogger (ancestor logger : Name) : Bool :=
  match stripPrefix logger ancestor with
  | some rest => "::".toList.isPrefixOf rest
  | none => false

/-- `str::len`, in bytes. -/
def byteLen (s : Name) : ℕ := (s.map Char.utf8Size).sum

/-! ### Tables -/

/-- A logger in a table. -/
structure Rule where
  name : Name
  level : LevelFilter
  additive : Bool
  deriving DecidableEq

structure PerAppenderFilter where
  rules : List Rule
  defaultLevel : LevelFilter

/-- The last of the entries with the greatest value of `f`, as `Iterator::max_by_key` finds it. -/
def maxByKey {α : Type*} (f : α → ℕ) : List α → Option α
  | [] => none
  | a :: as =>
    match maxByKey f as with
    | none => some a
    | some b => if f b < f a then some a else some b

namespace PerAppenderFilter

variable (filter : PerAppenderFilter) (target : Name)

def findMostSpecificRule : Option Rule :=
  maxByKey (fun r => byteLen r.name) (filter.rules.filter fun r => targetMatchesPrefix target r.name)

def levelFor : LevelFilter :=
  match filter.findMostSpecificRule target with
  | some rule => rule.level
  | none => filter.defaultLevel

def enabled (level : Level) : Bool := level.within (filter.levelFor target)

end PerAppenderFilter

def owners (appender : Name) (loggers : List LoggerInternal) : List Name :=
  (loggers.filter fun l => appender ∈ l.appenderNames).map LoggerInternal.name

/-- The rule a logger makes in the table of an appender. -/
def ruleFor (owners : List Name) (l : LoggerInternal) : Option Rule :=
  if l.name = root then none
  else if l.name ∈ owners ||
      (l.additive && owners.any fun owner => owner = root || isAncestorLogger owner l.name) then
    some ⟨l.name, l.minLevel, l.additive⟩
  else none

def buildFilterForAppender (appender : Name) (loggers : List LoggerInternal) :
    PerAppenderFilter where
  rules := loggers.filterMap (ruleFor (owners appender loggers))
  defaultLevel :=
    match loggers.find? fun l => l.name = root with
    | some r => if appender ∈ r.appenderNames then r.minLevel else .off
    | none => .off

/-! ### Dispatch -/

/-- `ActorAction`: bytes for a writer, or the event itself. -/
inductive ActorAction
  | sendBytes
  | sendEvent
  deriving DecidableEq

structure AppenderActor where
  name : Name
  filter : PerAppenderFilter
  action : ActorAction

/-- The action of an appender; without debug assertions a `debug_report` is skipped. -/
def actionOf (debugAssertions : Bool) : AppenderKind → Option ActorAction
  | .console | .file | .rollingFile => some .sendBytes
  | .custom => some .sendEvent
  | .debugReport => if debugAssertions then some .sendEvent else none

/-- The actors `build_from_file` makes. -/
def ConfigInternal.actors {S : Type*} (cfg : ConfigInternal S) (debugAssertions : Bool) :
    List AppenderActor :=
  cfg.appenders.filterMap fun a => (actionOf debugAssertions a.kind).map fun action =>
    ⟨a.name, buildFilterForAppender a.name cfg.loggers, action⟩

/-- The globally most specific rule: the first of the longest. -/
def winner : List (Option Rule) → Option Rule → Option Rule
  | [], best => best
  | none :: rules, best => winner rules best
  | some r :: rules, none => winner rules (some r)
  | some r :: rules, some w =>
    winner rules (if byteLen w.name < byteLen r.name then some r else some w)

/-- The logger only whose appenders get the event. -/
def nonAdditiveGate (actors : List AppenderActor) (target : Name) : Option Name :=
  match winner (actors.map fun a => a.filter.findMostSpecificRule target) none with
  | some w => if w.additive then none else some w.name
  | none => none

def wiredTo (gate : Option Name) (rule : Option Rule) : Bool :=
  match gate with
  | none => true
  | some g =>
    match rule with
    | some r => r.name = g
    | none => false

/-- The appenders an event is handed to: bytes first, then events. -/
def processEvent (actors : List AppenderActor) (target : Name) (level : Level) : List Name :=
  let takes := actors.filter fun a =>
    wiredTo (nonAdditiveGate actors target) (a.filter.findMostSpecificRule target) &&
      a.filter.enabled target level
  ((takes.filter fun a => a.action = .sendBytes) ++
    takes.filter fun a => a.action = .sendEvent).map AppenderActor.name

/-! ### The most specific rule -/

theorem stripPrefix_eq_some {s pre rest : Name} (h : stripPrefix s pre = some rest) :
    pre ++ rest = s := by
  unfold stripPrefix at h
  split at h
  · next hpre =>
    obtain ⟨t, rfl⟩ := isPrefixOf_iff_prefix.mp hpre
    simpa using (Option.some.inj h).symm
  · cases h

theorem isPrefix_of_matches {target pre : Name} (h : targetMatchesPrefix target pre) :
    pre <+: target := by
  unfold targetMatchesPrefix at h
  split at h
  · next rest hrest => exact ⟨rest, stripPrefix_eq_some hrest⟩
  · cases h

theorem byteLen_append (s t : Name) : byteLen (s ++ t) = byteLen s + byteLen t := by
  simp [byteLen]

theorem eq_nil_of_byteLen {s : Name} (h : byteLen s = 0) : s = [] := by
  cases s with
  | nil => rfl
  | cons c s =>
    have hpos := Char.utf8Size_pos c
    simp only [byteLen, map_cons, sum_cons] at h
    omega

/-- Of two names that match a target the longer one is the more specific one, and two of one length
are the same. -/
theorem eq_of_matches {target p q : Name} (hp : targetMatchesPrefix target p)
    (hq : targetMatchesPrefix target q) (hlen : byteLen p = byteLen q) : p = q := by
  rcases prefix_or_prefix_of_prefix (isPrefix_of_matches hp) (isPrefix_of_matches hq) with
    ⟨t, rfl⟩ | ⟨t, rfl⟩
  · rw [byteLen_append] at hlen
    rw [eq_nil_of_byteLen (s := t) (by omega), append_nil]
  · rw [byteLen_append] at hlen
    rw [eq_nil_of_byteLen (s := t) (by omega), append_nil]

theorem maxByKey_eq_none {α : Type*} {f : α → ℕ} {l : List α} (h : maxByKey f l = none) :
    l = [] := by
  cases l with
  | nil => rfl
  | cons a as =>
    unfold maxByKey at h
    split at h
    · cases h
    · split at h <;> cases h

theorem maxByKey_eq_some {α : Type*} {f : α → ℕ} {l : List α} {b : α}
    (h : maxByKey f l = some b) : b ∈ l ∧ ∀ a ∈ l, f a ≤ f b := by
  induction l generalizing b with
  | nil => cases h
  | cons a as ih =>
    unfold maxByKey at h
    split at h
    · next hnone =>
      cases h
      rw [maxByKey_eq_none hnone]
      simp
    · next c hc =>
      obtain ⟨hmem, hmax⟩ := ih hc
      split at h
      · next hlt =>
        cases h
        refine ⟨mem_cons_self, ?_⟩
        rw [forall_mem_cons]
        exact ⟨le_rfl, fun x hx => (hmax x hx).trans hlt.le⟩
      · next hle =>
        cases h
        refine ⟨mem_cons_of_mem a hmem, ?_⟩
        rw [forall_mem_cons]
        exact ⟨not_lt.mp hle, hmax⟩

theorem winner_spec {rules : List (Option Rule)} {best : Option Rule} :
    (winner rules best = none → best = none ∧ ∀ r, some r ∉ rules) ∧
    ∀ w, winner rules best = some w → (some w ∈ rules ∨ best = some w) ∧
      (∀ r, some r ∈ rules → byteLen r.name ≤ byteLen w.name) ∧
      ∀ b, best = some b → byteLen b.name ≤ byteLen w.name := by
  induction rules, best using winner.induct with
  | case1 best =>
    refine ⟨fun h => ⟨h, by simp⟩, fun w h => ⟨Or.inr h, by simp, ?_⟩⟩
    rintro b rfl
    rw [Option.some.inj h]
  | case2 rules best ih =>
    simpa [winner] using ih
  | case3 r rules ih =>
    refine ⟨fun h => (by simpa using (ih.1 h).1), fun w h => ?_⟩
    obtain ⟨hmem, hmax, hbest⟩ := ih.2 w h
    refine ⟨Or.inl ?_, ?_, by simp⟩
    · rcases hmem with hmem | hr
      · exact mem_cons_of_mem _ hmem
      · rw [hr]
        exact mem_cons_self
    · intro q hq
      rcases mem_cons.mp hq with hqr | hq
      · exact hbest q hqr.symm
      · exact hmax q hq
  | case4 r rules b ih =>
    rw [winner]
    split at ih <;> rename_i hlen
    · rw [if_pos hlen]
      refine ⟨fun h => (by simpa using (ih.1 h).1), fun w h => ?_⟩
      obtain ⟨hmem, hmax, hbest⟩ := ih.2 w h
      have hr := hbest r rfl
      refine ⟨Or.inl ?_, ?_, ?_⟩
      · rcases hmem with hmem | hrw
        · exact mem_cons_of_mem _ hmem
        · rw [hrw]
          exact mem_cons_self
      · intro q hq
        rcases mem_cons.mp hq with hqr | hq
        · exact hbest q hqr.symm
        · exact hmax q hq
      · intro c hc
        cases hc
        exact hlen.le.trans hr
    · rw [if_neg hlen]
      refine ⟨fun h => (by simpa using (ih.1 h).1), fun w h => ?_⟩
      obtain ⟨hmem, hmax, hbest⟩ := ih.2 w h
      refine ⟨hmem.imp_left (mem_cons_of_mem _), ?_, hbest⟩
      intro q hq
      rcases mem_cons.mp hq with hqr | hq
      · cases hqr
        exact (not_lt.mp hlen).trans (hbest b rfl)
      · exact hmax q hq

namespace PerAppenderFilter

variable {filter : PerAppenderFilter} {target : Name} {r : Rule}

theorem find_eq_some (h : filter.findMostSpecificRule target = some r) :
    r ∈ filter.rules ∧ targetMatchesPrefix target r.name ∧
      ∀ q ∈ filter.rules, targetMatchesPrefix target q.name → byteLen q.name ≤ byteLen r.name := by
  obtain ⟨hmem, hmax⟩ := maxByKey_eq_some h
  obtain ⟨hr, hmatch⟩ := mem_filter.mp hmem
  exact ⟨hr, hmatch, fun q hq hqm => hmax q (mem_filter.mpr ⟨hq, hqm⟩)⟩

theorem exists_find (hr : r ∈ filter.rules) (hmatch : targetMatchesPrefix target r.name) :
    ∃ q, filter.findMostSpecificRule target = some q ∧ byteLen r.name ≤ byteLen q.name := by
  cases hq : filter.findMostSpecificRule target with
  | none =>
    have hmem : r ∈ filter.rules.filter fun q => targetMatchesPrefix target q.name :=
      mem_filter.mpr ⟨hr, hmatch⟩
    rw [maxByKey_eq_none hq] at hmem
    cases hmem
  | some q => exact ⟨q, rfl, (find_eq_some hq).2.2 r hr hmatch⟩

end PerAppenderFilter

/-! ### Loggers in tables -/

def LoggerInternal.rule (l : LoggerInternal) : Rule := ⟨l.name, l.minLevel, l.additive⟩

namespace ConfigInternal

variable {S : Type*} (cfg : ConfigInternal S) (debugAssertions : Bool) (target : Name)
  (level : Level)

/-- The most specific configured logger of a target. -/
structure Decides (l : LoggerInternal) : Prop where
  mem : l ∈ cfg.loggers
  matches_target : targetMatchesPrefix target l.name
  longest : ∀ m ∈ cfg.loggers, targetMatchesPrefix target m.name → byteLen m.name ≤ byteLen l.name

/-- The event goes once to each appender the logger lists, if it is within the logger's level, and
to no other one. -/
def Gates (l : LoggerInternal) : Prop :=
  (processEvent (cfg.actors debugAssertions) target level).Nodup ∧
    ∀ a, a ∈ processEvent (cfg.actors debugAssertions) target level ↔
      a ∈ l.appenderNames ∧ a ∈ (cfg.actors debugAssertions).map AppenderActor.name ∧
        level.within l.minLevel

def Tabled (l : LoggerInternal) : Prop :=
  ∃ a ∈ cfg.actors debugAssertions, l.rule ∈ a.filter.rules

/-- No appender takes the event by its own table, or all that could are kept out by the most
specific logger that is in a table. -/
def Silent : Prop :=
  (∀ a ∈ cfg.actors debugAssertions, ¬ a.filter.enabled target level) ∨
    ∃ m ∈ cfg.loggers, m.additive = false ∧ ¬ level.within m.minLevel ∧
      targetMatchesPrefix target m.name ∧ cfg.Tabled debugAssertions m ∧
      ∀ k ∈ cfg.loggers, targetMatchesPrefix target k.name → cfg.Tabled debugAssertions k →
        byteLen k.name ≤ byteLen m.name

variable {cfg debugAssertions target level} {l m : LoggerInternal} {a : AppenderActor} {r : Rule}

theorem eq_of_name (hl : l ∈ cfg.loggers) (hm : m ∈ cfg.loggers) (h : l.name = m.name) : l = m :=
  inj_on_of_nodup_map cfg.loggers_nodup hl hm h

theorem filter_eq (ha : a ∈ cfg.actors debugAssertions) :
    a.filter = buildFilterForAppender a.name cfg.loggers := by
  obtain ⟨b, -, hb⟩ := mem_filterMap.mp ha
  obtain ⟨action, -, rfl⟩ := Option.map_eq_some_iff.mp hb
  rfl

theorem nodup_actors (debugAssertions : Bool) :
    ((cfg.actors debugAssertions).map AppenderActor.name).Nodup := by
  have hmap : (cfg.actors debugAssertions).map AppenderActor.name =
      (cfg.appenders.filter fun b => (actionOf debugAssertions b.kind).isSome).map
        AppenderInternal.name := by
    unfold actors
    induction cfg.appenders with
    | nil => rfl
    | cons b bs ih =>
      cases hb : actionOf debugAssertions b.kind with
      | none => simpa [filterMap_cons, filter_cons, hb] using ih
      | some action => simpa [filterMap_cons, filter_cons, hb] using ih
  rw [hmap]
  exact (filter_sublist.map _).nodup cfg.appenders_nodup

theorem mem_owners (hl : l ∈ cfg.loggers) {appender : Name} :
    l.name ∈ owners appender cfg.loggers ↔ appender ∈ l.appenderNames := by
  simp only [owners, mem_map, mem_filter, decide_eq_true_eq]
  constructor
  · rintro ⟨m, ⟨hm, happ⟩, hname⟩
    rwa [← eq_of_name hm hl hname]
  · intro happ
    exact ⟨l, ⟨hl, happ⟩, rfl⟩

/-- A rule in a table is the rule of a logger other than `root`; one that is not additive lists
the appender. -/
theorem exists_of_mem_rules (ha : a ∈ cfg.actors debugAssertions) (hr : r ∈ a.filter.rules) :
    ∃ l ∈ cfg.loggers, r = l.rule ∧ l.name ≠ root ∧
      (l.additive = false → a.name ∈ l.appenderNames) := by
  rw [filter_eq ha] at hr
  obtain ⟨l, hl, hrule⟩ := mem_filterMap.mp hr
  unfold ruleFor at hrule
  split at hrule
  · cases hrule
  · next hroot =>
    split at hrule
    · next howned =>
      cases hrule
      refine ⟨l, hl, rfl, hroot, fun hadd => ?_⟩
      rw [hadd, Bool.false_and, Bool.or_false, decide_eq_true_eq] at howned
      exact (mem_owners hl).mp howned
    · cases hrule

theorem rule_mem (ha : a ∈ cfg.actors debugAssertions) (hl : l ∈ cfg.loggers)
    (hroot : l.name ≠ root) (h : a.name ∈ l.appenderNames) : l.rule ∈ a.filter.rules := by
  rw [filter_eq ha]
  refine mem_filterMap.mpr ⟨l, hl, ?_⟩
  have howned : l.name ∈ owners a.name cfg.loggers := (mem_owners hl).mpr h
  rw [ruleFor, if_neg hroot, if_pos (by simp [howned])]
  rfl

theorem exists_of_find (ha : a ∈ cfg.actors debugAssertions)
    (h : a.filter.findMostSpecificRule target = some r) :
    ∃ l ∈ cfg.loggers, r = l.rule ∧ cfg.Tabled debugAssertions l ∧
      targetMatchesPrefix target l.name ∧ (l.additive = false → a.name ∈ l.appenderNames) := by
  obtain ⟨hr, hmatch, -⟩ := PerAppenderFilter.find_eq_some h
  obtain ⟨l, hl, rfl, -, hown⟩ := exists_of_mem_rules ha hr
  exact ⟨l, hl, rfl, ⟨a, ha, hr⟩, hmatch, hown⟩

theorem find_of_longest (hm : m ∈ cfg.loggers) (hmatch : targetMatchesPrefix target m.name)
    (hlong : ∀ k ∈ cfg.loggers, targetMatchesPrefix target k.name →
      cfg.Tabled debugAssertions k → byteLen k.name ≤ byteLen m.name)
    (ha : a ∈ cfg.actors debugAssertions) (hr : m.rule ∈ a.filter.rules) :
    a.filter.findMostSpecificRule target = some m.rule := by
  obtain ⟨q, hq, hle⟩ := PerAppenderFilter.exists_find hr hmatch
  obtain ⟨k, hk, rfl, htab, hkm, -⟩ := exists_of_find ha hq
  have hname : k.name = m.name :=
    eq_of_matches hkm hmatch (le_antisymm (hlong k hk hkm htab) hle)
  rw [hq, eq_of_name hk hm hname]

theorem winner_of_longest (hm : m ∈ cfg.loggers) (hmatch : targetMatchesPrefix target m.name)
    (hlong : ∀ k ∈ cfg.loggers, targetMatchesPrefix target k.name →
      cfg.Tabled debugAssertions k → byteLen k.name ≤ byteLen m.name)
    (htab : cfg.Tabled debugAssertions m) :
    winner ((cfg.actors debugAssertions).map fun a => a.filter.findMostSpecificRule target) none =
      some m.rule := by
  obtain ⟨a, ha, hr⟩ := htab
  have hfind := find_of_longest hm hmatch hlong ha hr
  have hmem : some m.rule ∈
      (cfg.actors debugAssertions).map fun a => a.filter.findMostSpecificRule target :=
    mem_map.mpr ⟨a, ha, hfind⟩
  cases hw : winner ((cfg.actors debugAssertions).map fun a =>
      a.filter.findMostSpecificRule target) none with
  | none => exact absurd hmem ((winner_spec.1 hw).2 m.rule)
  | some w =>
    obtain ⟨hin, hmax, -⟩ := winner_spec.2 w hw
    obtain ⟨b, hb, hbfind⟩ := mem_map.mp (hin.resolve_right (by simp))
    obtain ⟨k, hk, rfl, hktab, hkm, -⟩ := exists_of_find hb hbfind
    have hname : k.name = m.name := eq_of_matches hkm hmatch
      (le_antisymm (hlong k hk hkm hktab) (hmax m.rule hmem))
    rw [eq_of_name hk hm hname]

/-! ### Who takes an event -/

theorem mem_processEvent {actors : List AppenderActor} {name : Name} :
    name ∈ processEvent actors target level ↔ ∃ a ∈ actors, a.name = name ∧
      wiredTo (nonAdditiveGate actors target) (a.filter.findMostSpecificRule target) ∧
      a.filter.enabled target level := by
  simp only [processEvent, mem_map, mem_append, mem_filter, Bool.and_eq_true,
    decide_eq_true_eq]
  constructor
  · rintro ⟨a, ⟨⟨ha, hw, he⟩, -⟩ | ⟨⟨ha, hw, he⟩, -⟩, hname⟩ <;> exact ⟨a, ha, hname, hw, he⟩
  · rintro ⟨a, ha, hname, hw, he⟩
    refine ⟨a, ?_, hname⟩
    cases haction : a.action with
    | sendBytes => exact Or.inl ⟨⟨ha, hw, he⟩, rfl⟩
    | sendEvent => exact Or.inr ⟨⟨ha, hw, he⟩, rfl⟩

theorem nodup_processEvent :
    (processEvent (cfg.actors debugAssertions) target level).Nodup := by
  unfold processEvent
  extract_lets takes
  have hsplit : (takes.filter fun a => a.action = .sendEvent) =
      takes.filter fun a => !(decide (a.action = .sendBytes)) := by
    apply filter_congr
    intro a _
    cases a.action <;> rfl
  have hperm := (filter_append_perm (fun a => decide (a.action = .sendBytes)) takes).map
    AppenderActor.name
  rw [hsplit, hperm.nodup_iff]
  exact (filter_sublist.map _).nodup (nodup_actors debugAssertions)

theorem wiredTo_of_longest (hm : m ∈ cfg.loggers) (hmatch : targetMatchesPrefix target m.name)
    (hlong : ∀ k ∈ cfg.loggers, targetMatchesPrefix target k.name →
      cfg.Tabled debugAssertions k → byteLen k.name ≤ byteLen m.name)
    (htab : cfg.Tabled debugAssertions m) (hadd : m.additive = false)
    (ha : a ∈ cfg.actors debugAssertions) :
    wiredTo (nonAdditiveGate (cfg.actors debugAssertions) target)
        (a.filter.findMostSpecificRule target) ↔
      a.filter.findMostSpecificRule target = some m.rule := by
  have hgate : nonAdditiveGate (cfg.actors debugAssertions) target = some m.name := by
    rw [nonAdditiveGate, winner_of_longest hm hmatch hlong htab]
    simp [LoggerInternal.rule, hadd]
  rw [hgate]
  constructor
  · intro hw
    cases hfind : a.filter.findMostSpecificRule target with
    | none => simp [wiredTo, hfind] at hw
    | some q =>
      obtain ⟨k, hk, rfl, -⟩ := exists_of_find ha hfind
      have hname : k.name = m.name := by simpa [wiredTo, hfind, LoggerInternal.rule] using hw
      rw [eq_of_name hk hm hname]
  · intro hfind
    simp [wiredTo, hfind, LoggerInternal.rule]

theorem enabled_of_find (h : a.filter.findMostSpecificRule target = some m.rule) :
    a.filter.enabled target level = level.within m.minLevel := by
  rw [PerAppenderFilter.enabled, PerAppenderFilter.levelFor, h]
  rfl

/-! ### When a logger gates -/

theorem Decides.gates_of_listed (h : cfg.Decides target l) (hadd : l.additive = false)
    (hroot : l.name ≠ root)
    (hlisted : ∃ a ∈ cfg.actors debugAssertions, a.name ∈ l.appenderNames) :
    cfg.Gates debugAssertions target level l := by
  obtain ⟨b, hb, hbl⟩ := hlisted
  have hlong : ∀ k ∈ cfg.loggers, targetMatchesPrefix target k.name →
      cfg.Tabled debugAssertions k → byteLen k.name ≤ byteLen l.name :=
    fun k hk hkm _ => h.longest k hk hkm
  have htab : cfg.Tabled debugAssertions l := ⟨b, hb, rule_mem hb h.mem hroot hbl⟩
  refine ⟨nodup_processEvent, fun name => ?_⟩
  rw [mem_processEvent, mem_map]
  constructor
  · rintro ⟨a, ha, rfl, hw, he⟩
    have hfind := (wiredTo_of_longest h.mem h.matches_target hlong htab hadd ha).mp hw
    obtain ⟨k, hk, hrule, -, -, hown⟩ := exists_of_find ha hfind
    obtain rfl : l = k := eq_of_name h.mem hk (congrArg Rule.name hrule)
    rw [enabled_of_find hfind] at he
    exact ⟨hown hadd, ⟨a, ha, rfl⟩, he⟩
  · rintro ⟨hl, ⟨a, ha, rfl⟩, hlevel⟩
    have hfind := find_of_longest h.mem h.matches_target hlong ha (rule_mem ha h.mem hroot hl)
    refine ⟨a, ha, rfl, ?_, ?_⟩
    · exact (wiredTo_of_longest h.mem h.matches_target hlong htab hadd ha).mpr hfind
    · rwa [enabled_of_find hfind]

theorem eq_root_of_matches {name : Name} (hname : targetMatchesPrefix target name)
    (hroot : targetMatchesPrefix target root) (hlen : byteLen name ≤ byteLen root) :
    name = root := by
  rcases prefix_or_prefix_of_prefix (isPrefix_of_matches hname) (isPrefix_of_matches hroot)
    with ⟨t, ht⟩ | ⟨t, rfl⟩
  · cases t with
    | nil => rwa [append_nil] at ht
    | cons c t =>
      -- the rest of the target begins within `root`, where no `:` is
      obtain ⟨u, rfl⟩ := isPrefix_of_matches hroot
      have hc : c ∈ root := by
        rw [← ht]
        simp
      unfold targetMatchesPrefix at hname
      split at hname
      · next rest hrest =>
        have happ := stripPrefix_eq_some hrest
        rw [← ht, append_assoc] at happ
        obtain rfl : rest = c :: t ++ u := append_cancel_left happ
        simp only [cons_append, isEmpty_cons, Bool.false_or] at hname
        obtain ⟨v, hv⟩ := isPrefixOf_iff_prefix.mp hname
        have hcolon : ':' = c := (List.cons.inj hv).1
        rw [← hcolon] at hc
        exact absurd hc (by decide)
      · cases hname
  · rw [byteLen_append] at hlen
    rw [eq_nil_of_byteLen (s := t) (by omega), append_nil]

theorem Decides.find_eq_none (h : cfg.Decides target l) (hroot : l.name = root)
    (ha : a ∈ cfg.actors debugAssertions) : a.filter.findMostSpecificRule target = none := by
  cases hfind : a.filter.findMostSpecificRule target with
  | none => rfl
  | some q =>
    obtain ⟨hq, hmatch, -⟩ := PerAppenderFilter.find_eq_some hfind
    obtain ⟨k, hk, rfl, hne, -⟩ := exists_of_mem_rules ha hq
    have hlen := h.longest k hk hmatch
    have hrm := h.matches_target
    rw [hroot] at hlen hrm
    exact absurd (eq_root_of_matches hmatch hrm hlen) hne

theorem enabled_of_root (hl : l ∈ cfg.loggers) (hroot : l.name = root)
    (ha : a ∈ cfg.actors debugAssertions) (hfind : a.filter.findMostSpecificRule target = none) :
    a.filter.enabled target level ↔ a.name ∈ l.appenderNames ∧ level.within l.minLevel := by
  have hfound : (cfg.loggers.find? fun l => l.name = root) = some l := by
    cases hf : cfg.loggers.find? fun l => l.name = root with
    | none => exact absurd hroot (by simpa using List.find?_eq_none.mp hf l hl)
    | some k =>
      have hk := List.find?_some hf
      simp only [decide_eq_true_eq] at hk
      rw [eq_of_name (mem_of_find?_eq_some hf) hl (hk.trans hroot.symm)]
  have hdefault : a.filter.defaultLevel =
      if a.name ∈ l.appenderNames then l.minLevel else .off := by
    rw [filter_eq ha, buildFilterForAppender]
    simp only [hfound]
  rw [PerAppenderFilter.enabled, PerAppenderFilter.levelFor, hfind]
  dsimp only
  rw [hdefault]
  split
  · next hmem => simp [hmem]
  · next hmem => simp [hmem, Level.within]

theorem Decides.gates_of_root (h : cfg.Decides target l) (hroot : l.name = root) :
    cfg.Gates debugAssertions target level l := by
  have hnone : ∀ a ∈ cfg.actors debugAssertions, a.filter.findMostSpecificRule target = none :=
    fun a ha => h.find_eq_none hroot ha
  have hgate : nonAdditiveGate (cfg.actors debugAssertions) target = none := by
    cases hwin : winner ((cfg.actors debugAssertions).map fun a =>
        a.filter.findMostSpecificRule target) none with
    | none => rw [nonAdditiveGate, hwin]
    | some w =>
      obtain ⟨hin, -⟩ := winner_spec.2 w hwin
      obtain ⟨b, hb, hbfind⟩ := mem_map.mp (hin.resolve_right (by simp))
      rw [hnone b hb] at hbfind
      cases hbfind
  refine ⟨nodup_processEvent, fun name => ?_⟩
  rw [mem_processEvent, hgate, mem_map]
  constructor
  · rintro ⟨a, ha, rfl, -, he⟩
    obtain ⟨hl, hlevel⟩ := (enabled_of_root h.mem hroot ha (hnone a ha)).mp he
    exact ⟨hl, ⟨a, ha, rfl⟩, hlevel⟩
  · rintro ⟨hl, ⟨a, ha, rfl⟩, hlevel⟩
    exact ⟨a, ha, rfl, rfl, (enabled_of_root h.mem hroot ha (hnone a ha)).mpr ⟨hl, hlevel⟩⟩

theorem gates_iff_of_unlisted
    (hlisted : ¬ ∃ a ∈ cfg.actors debugAssertions, a.name ∈ l.appenderNames) :
    cfg.Gates debugAssertions target level l ↔
      processEvent (cfg.actors debugAssertions) target level = [] := by
  constructor
  · intro h
    rw [eq_nil_iff_forall_not_mem]
    intro name hname
    obtain ⟨hl, hact, -⟩ := (h.2 name).mp hname
    obtain ⟨a, ha, rfl⟩ := mem_map.mp hact
    exact hlisted ⟨a, ha, hl⟩
  · intro h
    rw [Gates, h]
    refine ⟨nodup_nil, fun name => ⟨fun hname => (not_mem_nil hname).elim, ?_⟩⟩
    rintro ⟨hl, hact, -⟩
    obtain ⟨a, ha, rfl⟩ := mem_map.mp hact
    exact (hlisted ⟨a, ha, hl⟩).elim

theorem processEvent_eq_nil_iff :
    processEvent (cfg.actors debugAssertions) target level = [] ↔
      cfg.Silent debugAssertions target level := by
  rw [eq_nil_iff_forall_not_mem]
  constructor
  · intro h
    by_cases hnone : ∀ a ∈ cfg.actors debugAssertions, ¬ a.filter.enabled target level
    · exact Or.inl hnone
    · right
      push Not at hnone
      obtain ⟨a, ha, he⟩ := hnone
      have hnotw : ¬ wiredTo (nonAdditiveGate (cfg.actors debugAssertions) target)
          (a.filter.findMostSpecificRule target) :=
        fun hw => h a.name (mem_processEvent.mpr ⟨a, ha, rfl, hw, he⟩)
      -- so there is a gate, the rule that won
      cases hwin : winner ((cfg.actors debugAssertions).map fun a =>
          a.filter.findMostSpecificRule target) none with
      | none => simp [nonAdditiveGate, hwin, wiredTo] at hnotw
      | some w =>
        obtain ⟨hin, hmax, -⟩ := winner_spec.2 w hwin
        obtain ⟨b, hb, hbfind⟩ := mem_map.mp (hin.resolve_right (by simp))
        obtain ⟨m, hm, rfl, htab, hmatch, -⟩ := exists_of_find hb hbfind
        have hadd : m.additive = false := by
          by_contra hadd
          rw [nonAdditiveGate, hwin] at hnotw
          simp [LoggerInternal.rule, hadd, wiredTo] at hnotw
        have hlong : ∀ k ∈ cfg.loggers, targetMatchesPrefix target k.name →
            cfg.Tabled debugAssertions k → byteLen k.name ≤ byteLen m.name := by
          rintro k - hkm ⟨c, hc, hkr⟩
          obtain ⟨q, hq, hle⟩ := PerAppenderFilter.exists_find hkr hkm
          exact hle.trans (hmax q (mem_map.mpr ⟨c, hc, hq⟩))
        refine ⟨m, hm, hadd, fun hlevel => ?_, hmatch, htab, hlong⟩
        refine h b.name (mem_processEvent.mpr ⟨b, hb, rfl, ?_, ?_⟩)
        · exact (wiredTo_of_longest hm hmatch hlong htab hadd hb).mpr hbfind
        · rwa [enabled_of_find hbfind]
  · rintro (hnone | ⟨m, hm, hadd, hlevel, hmatch, htab, hlong⟩) name hname
    · obtain ⟨a, ha, -, -, he⟩ := mem_processEvent.mp hname
      exact hnone a ha he
    · obtain ⟨a, ha, -, hw, he⟩ := mem_processEvent.mp hname
      have hfind := (wiredTo_of_longest hm hmatch hlong htab hadd ha).mp hw
      rw [enabled_of_find hfind] at he
      exact hlevel he

/-- A logger that is not additive gates the events it is the most specific one for, if an appender
it lists has an actor, or nobody would get the event without it. -/
theorem gates_iff (h : cfg.Decides target l) (hadd : l.additive = false) :
    cfg.Gates debugAssertions target level l ↔
      l.name = root ∨ (∃ a ∈ cfg.actors debugAssertions, a.name ∈ l.appenderNames) ∨
        cfg.Silent debugAssertions target level := by
  by_cases hroot : l.name = root
  · exact iff_of_true (h.gates_of_root hroot) (Or.inl hroot)
  · by_cases hlisted : ∃ a ∈ cfg.actors debugAssertions, a.name ∈ l.appenderNames
    · exact iff_of_true (h.gates_of_listed hadd hroot hlisted) (Or.inr (Or.inl hlisted))
    · rw [gates_iff_of_unlisted hlisted, processEvent_eq_nil_iff]
      simp [hroot, hlisted]

/-! ### A muted logger -/

/-- The level texts in capitals. -/
def levelNames : List (Name × Level) :=
  [("ERROR".toList, .error), ("WARN".toList, .warn), ("INFO".toList, .info),
    ("DEBUG".toList, .debug), ("TRACE".toList, .trace)]

def plainTexts : Texts where
  toUppercase := List.map Char.toUpper
  parseLevel s := (levelNames.find? fun entry => entry.1 = s).map Prod.snd
  debugKeys keys := keys.flatten

/-- `root` has the console, and `noisy`, which is not additive, has the appenders given. -/
def mutedRaw (appenders : List Name) : ConfigRaw Unit where
  appenders := ⟨[("console".toList, .console, ()), ("file".toList, .file, ())], by decide⟩
  loggers := ⟨[(root, ⟨"info".toList, ["console".toList], true⟩),
    ("noisy".toList, ⟨"info".toList, appenders, false⟩)], by simp [root]⟩
  internalErrorReporting := false

def noisy (appenders : List Name) : LoggerInternal :=
  ⟨"noisy".toList, .upTo .info, appenders, false⟩

theorem decides_noisy (cfg : ConfigInternal Unit) (appenders : List Name)
    (h : cfg.loggers = [⟨root, .upTo .info, ["console".toList], true⟩, noisy appenders]) :
    cfg.Decides "noisy::x".toList (noisy appenders) where
  mem := by simp [h]
  matches_target := by
    show targetMatchesPrefix "noisy::x".toList "noisy".toList
    decide
  longest := by
    rw [h]
    simp only [forall_mem_cons, not_mem_nil, false_implies, implies_true, and_true]
    refine ⟨fun _ => ?_, fun _ => le_rfl⟩
    show byteLen root ≤ byteLen "noisy".toList
    decide

theorem gates_iff_file : ∃ cfg : ConfigInternal Unit,
    processRawConfig plainTexts (fun _ _ s => .ok s) (mutedRaw ["file".toList]) = .ok cfg ∧
    cfg.Decides "noisy::x".toList (noisy ["file".toList]) ∧
    (cfg.Gates true "noisy::x".toList .info (noisy ["file".toList]) ↔
      (noisy ["file".toList]).name = root ∨
        (∃ a ∈ cfg.actors true, a.name ∈ (noisy ["file".toList]).appenderNames) ∨
        cfg.Silent true "noisy::x".toList .info) := by
  obtain ⟨cfg, hcfg⟩ : ∃ cfg, processRawConfig plainTexts (fun _ _ s => .ok s)
      (mutedRaw ["file".toList]) = .ok cfg := ⟨_, rfl⟩
  have hdecides := decides_noisy cfg ["file".toList] (by cases hcfg; rfl)
  exact ⟨cfg, hcfg, hdecides, gates_iff hdecides rfl⟩

/-- The console gets an event of a logger that is not additive and lists nobody. -/
theorem not_gates_unlisted : ¬ ∀ cfg : ConfigInternal Unit,
    processRawConfig plainTexts (fun _ _ s => .ok s) (mutedRaw []) = .ok cfg →
    ∀ target level l, cfg.Decides target l → l.additive = false →
      cfg.Gates true target level l := by
  intro hall
  obtain ⟨cfg, hcfg⟩ : ∃ cfg, processRawConfig plainTexts (fun _ _ s => .ok s) (mutedRaw []) =
      .ok cfg := ⟨_, rfl⟩
  have hdecides := decides_noisy cfg [] (by cases hcfg; rfl)
  have hgates := hall cfg hcfg "noisy::x".toList .info (noisy []) hdecides rfl
  have hdelivered : "console".toList ∈ processEvent (cfg.actors true) "noisy::x".toList .info := by
    cases hcfg
    decide
  have hconsole := (hgates.2 "console".toList).mp hdelivered
  exact List.not_mem_nil hconsole.1

end ConfigInternal

end Fibre.Logging
