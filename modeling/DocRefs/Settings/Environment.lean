import DocRefs.Failure
import DocRefs.Text.Digit

/-!
# Environment

The settings that environment variables give. A number is taken from a variable only when all of its
characters are digits.
-/

namespace DocRefs

/-- The values of environment variables by name. -/
abbrev Variables := List (Text × Text)

/-- What the environment sets. -/
structure Environment where
  logLevel : Text
  logFile : Option Path
  logMaxBytes : Nat
  logBackups : Nat
  sourceRoots : List Path
  deriving DecidableEq, Repr

namespace Environment

/-- The size at which a log file is replaced, unless set. -/
def defaultMaxBytes : Nat := 1024 * 1024

/-- The number of old log files kept, unless set. -/
def defaultBackups : Nat := 3

/-- The longest number that is read, in digits. -/
def digitLimit : Nat := 4300

/-- The value of a variable. -/
def value? (vars : Variables) (name : String) : Option Text :=
  (vars.find? fun v => v.1 = name.toList).map (·.2)

/-- A number from a variable: the default unless there are digits and only digits, and a failure
when a digit is no decimal one. -/
def number (vars : Variables) (name : String) (default : Nat) : Except Failure Nat :=
  let value := (value? vars name).getD []
  if value.isEmpty || !value.all Text.isDigit then .ok default
  else if digitLimit < value.length then .error .badValue
  else (Text.decimal? value).elim (.error .badValue) .ok

/-- Reads the environment. -/
def ofVariables (vars : Variables) : Except Failure Environment := do
  let maxBytes ← number vars "TYPEREF_LOG_MAX_BYTES" defaultMaxBytes
  let backups ← number vars "TYPEREF_LOG_BACKUPS" defaultBackups
  return {
    logLevel := (value? vars "TYPEREF_LOG_LEVEL").getD "WARNING".toList
    logFile := (value? vars "TYPEREF_LOG_FILE").filter (!·.isEmpty)
    logMaxBytes := maxBytes
    logBackups := backups
    sourceRoots := (Text.splitOn ':' ((value? vars "TYPEREF_SOURCE_ROOTS").getD [])).filter
      (!·.isEmpty) }

end Environment

end DocRefs
