import Fibre.Logging.Dispatch

/-!
# What is asked before an event is made

`tracing` takes the most permissive level of any appender as a hint, and asks whether some appender
is interested; the `log` crate has the former as its limit. Neither keeps an event from an appender
that the dispatch would hand it to.
-/

namespace Fibre.Logging

def LevelFilter.rank : LevelFilter → ℕ
  | .off => 0
  | .upTo l => l.verbosity

/-- `Ord::max` -/
def LevelFilter.max (a b : LevelFilter) : LevelFilter := if b.rank < a.rank then a else b

/-- The most permissive level of a table. -/
def PerAppenderFilter.maxLevel (filter : PerAppenderFilter) : LevelFilter :=
  match maxByKey LevelFilter.rank (filter.rules.map Rule.level) with
  | none => filter.defaultLevel
  | some m => m.max filter.defaultLevel

structure EventProcessor where
  actors : List AppenderActor
  maxLevel : LevelFilter

namespace EventProcessor

def new (actors : List AppenderActor) : EventProcessor where
  actors := actors
  maxLevel := (maxByKey LevelFilter.rank (actors.map fun a => a.filter.maxLevel)).getD .off

/-- Some appender is interested. -/
def eventEnabled (p : EventProcessor) (target : Name) (level : Level) : Bool :=
  p.actors.any fun a => a.filter.enabled target level

end EventProcessor

/-! ### The `log` bridge -/

/-- `log::Level` -/
inductive LogLevel
  | error
  | warn
  | info
  | debug
  | trace
  deriving DecidableEq

/-- `log::LevelFilter` -/
inductive LogLevelFilter
  | off
  | error
  | warn
  | info
  | debug
  | trace
  deriving DecidableEq

/-- The level of the event that is made of a record. -/
def LogLevel.toTracing : LogLevel → Level
  | .error => .error
  | .warn => .warn
  | .info => .info
  | .debug => .debug
  | .trace => .trace

/-- `record.level() <= log::max_level()` -/
def LogLevel.within (level : LogLevel) (filter : LogLevelFilter) : Bool :=
  level.ctorIdx + 1 ≤ filter.ctorIdx

def tracingFilterToLogFilter (filter : LevelFilter) : LogLevelFilter :=
  if filter = .off then .off
  else if filter = .upTo .error then .error
  else if filter = .upTo .warn then .warn
  else if filter = .upTo .info then .info
  else if filter = .upTo .debug then .debug
  else .trace

/-! ### What passes -/

theorem Level.within_iff {level : Level} {filter : LevelFilter} :
    level.within filter ↔ level.verbosity ≤ filter.rank := by
  cases filter with
  | off => cases level <;> simp [Level.within, LevelFilter.rank, Level.verbosity]
  | upTo l => simp [Level.within, LevelFilter.rank]

theorem LogLevel.within_iff (level : LogLevel) (filter : LevelFilter) :
    level.within (tracingFilterToLogFilter filter) = level.toTracing.within filter := by
  cases filter with
  | off => cases level <;> rfl
  | upTo l => cases level <;> cases l <;> rfl

theorem LevelFilter.rank_le_max (a b : LevelFilter) :
    a.rank ≤ (a.max b).rank ∧ b.rank ≤ (a.max b).rank := by
  unfold LevelFilter.max
  split <;> constructor <;> omega

theorem exists_maxByKey {α : Type*} {f : α → ℕ} {l : List α} {a : α} (h : a ∈ l) :
    ∃ b, maxByKey f l = some b ∧ f a ≤ f b := by
  cases hb : maxByKey f l with
  | none =>
    rw [maxByKey_eq_none hb] at h
    cases h
  | some b => exact ⟨b, rfl, (maxByKey_eq_some hb).2 a h⟩

namespace PerAppenderFilter

variable {filter : PerAppenderFilter}

theorem rank_levelFor_le (target : Name) : (filter.levelFor target).rank ≤ filter.maxLevel.rank := by
  unfold levelFor maxLevel
  cases hfind : filter.findMostSpecificRule target with
  | none =>
    dsimp only
    split
    · exact le_rfl
    · exact (LevelFilter.rank_le_max _ _).2
  | some r =>
    have hr := (find_eq_some hfind).1
    obtain ⟨m, hm, hle⟩ := exists_maxByKey (f := LevelFilter.rank)
      (List.mem_map_of_mem (f := Rule.level) hr)
    simp only [hm]
    exact hle.trans (LevelFilter.rank_le_max _ _).1

end PerAppenderFilter

namespace EventProcessor

variable {actors : List AppenderActor} {target : Name} {level : Level}

theorem rank_maxLevel_le {a : AppenderActor} (ha : a ∈ actors) :
    a.filter.maxLevel.rank ≤ (new actors).maxLevel.rank := by
  obtain ⟨m, hm, hle⟩ := exists_maxByKey (f := LevelFilter.rank)
    (List.mem_map_of_mem (f := fun a : AppenderActor => a.filter.maxLevel) ha)
  rw [new, hm]
  exact hle

/-- An event that some appender gets is let through by all that is asked before. -/
theorem passes_of_delivered (h : processEvent actors target level ≠ []) :
    (new actors).eventEnabled target level ∧ level.within (new actors).maxLevel ∧
      ∀ l : LogLevel, l.toTracing = level →
        l.within (tracingFilterToLogFilter (new actors).maxLevel) := by
  obtain ⟨name, hname⟩ := List.exists_mem_of_ne_nil _ h
  obtain ⟨a, ha, -, -, henabled⟩ := ConfigInternal.mem_processEvent.mp hname
  have hlevel : level.within (new actors).maxLevel := by
    have hown := Level.within_iff.mp henabled
    exact Level.within_iff.mpr
      (hown.trans ((PerAppenderFilter.rank_levelFor_le target).trans (rank_maxLevel_le ha)))
  refine ⟨List.any_eq_true.mpr ⟨a, ha, henabled⟩, hlevel, ?_⟩
  rintro l rfl
  rwa [LogLevel.within_iff]

/-- A table with one logger that lets more through than `root` does. -/
def sampleActors : List AppenderActor :=
  [⟨['a'], ⟨[⟨['d', 'b'], .upTo .debug, true⟩], .upTo .warn⟩, .sendBytes⟩]

theorem passes_of_delivered_debug :
    processEvent sampleActors ['d', 'b'] .debug ≠ [] ∧
      (new sampleActors).eventEnabled ['d', 'b'] .debug ∧
      Level.within .debug (new sampleActors).maxLevel ∧ ∀ l : LogLevel, l.toTracing = .debug →
        l.within (tracingFilterToLogFilter (new sampleActors).maxLevel) :=
  ⟨by decide, passes_of_delivered (by decide)⟩

end EventProcessor

end Fibre.Logging
