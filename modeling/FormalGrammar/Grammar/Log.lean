import FormalGrammar.Term.Display

/-!
# The log of a resolution

A successful resolution reports what it did, each report at a level. A logger
with a threshold emits the reports that reach it. The threshold may be any
number, also one that no report is ever made at.
-/

namespace FormalGrammar

/-- How much attention a report deserves. -/
structure Level where
  /-- The number of the level, which is greater for more attention. -/
  rank : Int
  deriving DecidableEq, Repr

namespace Level

/-- For those who look for a fault. -/
def debug : Level := ⟨10⟩

/-- For those who want to know what goes on. -/
def info : Level := ⟨20⟩

/-- For those who can do something about it. -/
def warning : Level := ⟨30⟩

/-- For what does not work. -/
def error : Level := ⟨40⟩

/-- For what keeps everything from working. -/
def critical : Level := ⟨50⟩

/-- The levels that have a name of their own. -/
def named : List (Level × String) :=
  [(debug, "DEBUG"), (info, "INFO"), (warning, "WARNING"), (error, "ERROR"),
    (critical, "CRITICAL")]

/-- The name of a level. -/
def name (level : Level) : String :=
  (named.lookup level).getD ("Level " ++ toString level.rank)

end Level

/-- What a resolution reports. -/
inductive Report where
  /-- There were no productions. -/
  | resolvedEmpty
  /-- These productions were left out. -/
  | skipped (names : List String)
  /-- So many productions were kept although no root reaches them. -/
  | kept (count : Nat)
  /-- So many productions were resolved from these roots. -/
  | resolved (count : Nat) (roots : List String)
  deriving DecidableEq, Repr

namespace Report

/-- The level of a report. -/
def level : Report → Level
  | .skipped _ => .info
  | .resolvedEmpty | .kept _ | .resolved .. => .debug

/-- The wording of a report about a language. -/
def message (language : String) : Report → String
  | .resolvedEmpty => language ++ ": resolved an empty grammar"
  | .skipped names => language ++ ": skipping unused productions: " ++ commaSeparated names
  | .kept count => language ++ ": keeping " ++ toString count ++ " unused productions"
  | .resolved count roots =>
    language ++ ": resolved " ++ toString count ++ " productions from roots " ++ quotedList roots

/-- What a logger with a threshold emits of a report. -/
def emit (threshold : Level) (report : Report) : List Report :=
  if threshold.rank ≤ report.level.rank then [report] else []

/-- No report is made below the level for those who look for a fault. -/
theorem debug_le_level (report : Report) : Level.debug.rank ≤ report.level.rank := by
  cases report <;> simp [level, Level.debug, Level.info]

end Report

end FormalGrammar
