import Fibre.Logging.Calendar

/-!
# The configuration of loggers and appenders

`process_raw_config` checks what was read from the configuration file: every appender by its own
rules, the level of every logger, and that a logger lists appenders that there are. A logger `root`
is added when there is none.

A hash map is the list of its entries, in the order its iteration takes. What is checked of the
settings of one appender is a parameter, and so are the texts the standard library makes.
-/

namespace Fibre.Logging

open List

attribute [local instance] lawfulBEq_name

/-! ### Levels -/

/-- `tracing::Level`. -/
inductive Level
  | error
  | warn
  | info
  | debug
  | trace
  deriving DecidableEq

/-- `LevelFilter`, which can also let nothing through. -/
inductive LevelFilter
  | off
  | upTo (level : Level)
  deriving DecidableEq

def Level.verbosity : Level → ℕ
  | .error => 1
  | .warn => 2
  | .info => 3
  | .debug => 4
  | .trace => 5

/-- `event_level <= level_filter` -/
def Level.within (level : Level) : LevelFilter → Bool
  | .off => false
  | .upTo l => level.verbosity ≤ l.verbosity

/-! ### Configurations as they are read -/

/-- The entries of a hash map. -/
structure Entries (α : Type*) where
  list : List (Name × α)
  nodup : (list.map Prod.fst).Nodup

inductive AppenderKind
  | console
  | file
  | rollingFile
  | custom
  | debugReport
  deriving DecidableEq

structure LoggerConfigRaw where
  level : Name
  appenders : List Name
  additive : Bool

/-- A configuration, with settings `R` of appenders beside their kinds. -/
structure ConfigRaw (R : Type*) where
  appenders : Entries (AppenderKind × R)
  loggers : Entries LoggerConfigRaw
  internalErrorReporting : Bool

/-! ### Configurations that were checked -/

structure AppenderInternal (S : Type*) where
  name : Name
  kind : AppenderKind
  settings : S

structure LoggerInternal where
  name : Name
  minLevel : LevelFilter
  appenderNames : List Name
  additive : Bool
  deriving DecidableEq

/-- The name of the logger of all that no other logger is for. -/
def root : Name := "root".toList

/-- The entries of both hash maps, by the names in them. -/
structure ConfigInternal (S : Type*) where
  appenders : List (AppenderInternal S)
  loggers : List LoggerInternal
  errorReportingEnabled : Bool
  appenders_nodup : (appenders.map AppenderInternal.name).Nodup
  loggers_nodup : (loggers.map LoggerInternal.name).Nodup
  root_mem : root ∈ loggers.map LoggerInternal.name
  /-- loggers list appenders that there are -/
  listed : ∀ l ∈ loggers, ∀ a ∈ l.appenderNames, a ∈ appenders.map AppenderInternal.name

/-- `Error::InvalidConfigValue` -/
structure InvalidConfigValue where
  field : Name
  message : Name
  deriving DecidableEq

/-- What is taken from the standard library and from `tracing`. -/
structure Texts where
  toUppercase : Name → Name
  /-- `str::parse::<Level>` -/
  parseLevel : Name → Option Level
  /-- `{:?}` of the keys of a map -/
  debugKeys : List Name → Name

/-! ### The checks -/

section

variable {R S : Type*} (texts : Texts)

def parseLevelFilter (levelStr loggerName : Name) : Except InvalidConfigValue LevelFilter :=
  -- `OFF` is not a `tracing::Level`
  if texts.toUppercase levelStr = "OFF".toList then .ok .off
  else
    match texts.parseLevel (texts.toUppercase levelStr) with
    | some level => .ok (.upTo level)
    | none => .error {
        field := "loggers.".toList ++ loggerName ++ ".level".toList
        message := "Invalid log level string '".toList ++ levelStr ++
          "'. Expected TRACE, DEBUG, INFO, WARN, ERROR, or OFF.".toList }

def checkAppenders (available : List Name) (loggerName : Name) :
    List Name → Except InvalidConfigValue Unit
  | [] => .ok ()
  | a :: as =>
    if a ∈ available then checkAppenders available loggerName as
    else .error {
      field := "loggers.".toList ++ loggerName ++ ".appenders".toList
      message := "Logger '".toList ++ loggerName ++ "' refers to undefined appender '".toList ++
        a ++ "'. Available appenders: ".toList ++ texts.debugKeys available }

def processLogger (available : List Name) (entry : Name × LoggerConfigRaw) :
    Except InvalidConfigValue LoggerInternal :=
  match parseLevelFilter texts entry.2.level entry.1 with
  | .error e => .error e
  | .ok minLevel =>
    match checkAppenders texts available entry.1 entry.2.appenders with
    | .error e => .error e
    | .ok _ => .ok ⟨entry.1, minLevel, entry.2.appenders, entry.2.additive⟩

/-- Processes the entries of a map, up to the first error. -/
def processEach {α β : Type*} (f : α → Except InvalidConfigValue β) :
    List α → Except InvalidConfigValue (List β)
  | [] => .ok []
  | a :: as =>
    match f a with
    | .error e => .error e
    | .ok b =>
      match processEach f as with
      | .error e => .error e
      | .ok bs => .ok (b :: bs)

/-- The loggers, with a default for `root`. -/
def withRoot (loggers : List (Name × LoggerConfigRaw)) : List (Name × LoggerConfigRaw) :=
  if root ∈ loggers.map Prod.fst then loggers
  else (root, ⟨"info".toList, [], true⟩) :: loggers

theorem processEach_map {α β γ : Type*} {f : α → Except InvalidConfigValue β} {g : α → γ}
    {h : β → γ} (hf : ∀ a b, f a = .ok b → h b = g a) {as : List α} {bs : List β}
    (hbs : processEach f as = .ok bs) : bs.map h = as.map g := by
  induction as generalizing bs with
  | nil =>
    cases hbs
    rfl
  | cons a as ih =>
    simp only [processEach] at hbs
    split at hbs
    · cases hbs
    · next b hb =>
      split at hbs
      · cases hbs
      · next bs' hbs' =>
        cases hbs
        rw [map_cons, map_cons, ih hbs', hf a b hb]

theorem processEach_forall {α β : Type*} {f : α → Except InvalidConfigValue β} {P : β → Prop}
    (hf : ∀ a b, f a = .ok b → P b) {as : List α} {bs : List β}
    (hbs : processEach f as = .ok bs) : ∀ b ∈ bs, P b := by
  induction as generalizing bs with
  | nil =>
    cases hbs
    simp
  | cons a as ih =>
    simp only [processEach] at hbs
    split at hbs
    · cases hbs
    · next b hb =>
      split at hbs
      · cases hbs
      · next bs' hbs' =>
        cases hbs
        rw [forall_mem_cons]
        exact ⟨hf a b hb, ih hbs'⟩

theorem mem_of_checkAppenders {available as : List Name} {loggerName : Name}
    (h : checkAppenders texts available loggerName as = .ok ()) : ∀ a ∈ as, a ∈ available := by
  induction as with
  | nil => simp
  | cons a as ih =>
    simp only [checkAppenders] at h
    split at h
    · next ha =>
      rw [forall_mem_cons]
      exact ⟨ha, ih h⟩
    · cases h

variable {texts}

theorem processLogger_ok {available : List Name} {entry : Name × LoggerConfigRaw}
    {l : LoggerInternal} (h : processLogger texts available entry = .ok l) :
    l.name = entry.1 ∧ ∀ a ∈ l.appenderNames, a ∈ available := by
  simp only [processLogger] at h
  split at h
  · cases h
  · split at h
    · cases h
    · next hcheck =>
      cases h
      exact ⟨rfl, mem_of_checkAppenders texts hcheck⟩

theorem nodup_withRoot {loggers : List (Name × LoggerConfigRaw)}
    (h : (loggers.map Prod.fst).Nodup) : ((withRoot loggers).map Prod.fst).Nodup := by
  unfold withRoot
  split
  · exact h
  · next hroot => exact nodup_cons.mpr ⟨hroot, h⟩

theorem root_mem_withRoot (loggers : List (Name × LoggerConfigRaw)) :
    root ∈ (withRoot loggers).map Prod.fst := by
  unfold withRoot
  split
  · assumption
  · exact mem_cons_self

variable (texts)

/-- The kind of an appender is kept; `processAppender` is for the rest of it. -/
def processAppenderEntry (processAppender : Name → AppenderKind → R → Except InvalidConfigValue S)
    (entry : Name × AppenderKind × R) : Except InvalidConfigValue (AppenderInternal S) :=
  match processAppender entry.1 entry.2.1 entry.2.2 with
  | .error e => .error e
  | .ok settings => .ok ⟨entry.1, entry.2.1, settings⟩

theorem processAppenderEntry_name
    {processAppender : Name → AppenderKind → R → Except InvalidConfigValue S}
    (entry : Name × AppenderKind × R) (a : AppenderInternal S)
    (h : processAppenderEntry processAppender entry = .ok a) : a.name = entry.1 := by
  simp only [processAppenderEntry] at h
  split at h <;> cases h
  rfl

def processRawConfig (processAppender : Name → AppenderKind → R → Except InvalidConfigValue S)
    (raw : ConfigRaw R) : Except InvalidConfigValue (ConfigInternal S) :=
  match hA : processEach (processAppenderEntry processAppender) raw.appenders.list with
  | .error e => .error e
  | .ok appenders =>
    match hL : processEach (processLogger texts (appenders.map AppenderInternal.name))
        (withRoot raw.loggers.list) with
    | .error e => .error e
    | .ok loggers => .ok {
        appenders := appenders
        loggers := loggers
        errorReportingEnabled := raw.internalErrorReporting
        appenders_nodup := by
          rw [processEach_map processAppenderEntry_name hA]
          exact raw.appenders.nodup
        loggers_nodup := by
          rw [processEach_map (fun _ _ h => (processLogger_ok h).1) hL]
          exact nodup_withRoot raw.loggers.nodup
        root_mem := by
          rw [processEach_map (fun _ _ h => (processLogger_ok h).1) hL]
          exact root_mem_withRoot raw.loggers.list
        listed := processEach_forall (fun _ _ h => (processLogger_ok h).2) hL }

end

end Fibre.Logging
