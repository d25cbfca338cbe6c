import DocRefs.Op
import DocRefs.Settings.Environment

/-!
# Logging

Sets up where log entries go: always to the error stream, and to a file if one is named. A level
name stands for a threshold; unknown names stand for warnings. The log file is opened at once, so it
exists from then on, and what it already holds is kept.
-/

namespace DocRefs

/-- A log file and the limits that it is kept under. -/
structure LogFile where
  path : Path
  maxBytes : Int
  backups : Int
  deriving DecidableEq, Repr

/-- Where log entries go. -/
structure Logging where
  /-- The least number of a level that is written. -/
  threshold : Nat
  file : Option LogFile
  deriving DecidableEq, Repr

namespace Logging

/-- A letter in upper case, for the letters that upper-case ASCII letters stand for. -/
def upperChar (c : Char) : Text :=
  if c = '\u0131' then ['I']
  else if c = '\u017F' then ['S']
  else if c = '\uFB05' || c = '\uFB06' then ['S', 'T']
  else [c.toUpper]

/-- A level name in upper case. -/
def upper (t : Text) : Text := t.flatMap upperChar

/-- The thresholds of the level names. -/
def thresholds : List (String × Nat) := [
  ("NOTSET", 0), ("DEBUG", 10), ("INFO", 20), ("WARNING", 30), ("WARN", 30), ("ERROR", 40),
  ("CRITICAL", 50), ("FATAL", 50)]

/-- The threshold of a level name in upper case. Two names stand for other things than levels and
are refused. -/
def thresholdOf (name : Text) : Except Failure Nat :=
  if name = "BASIC_FORMAT".toList then .error .badValue
  else if name = "_STYLES".toList then .error .wrongKind
  else .ok (((thresholds.find? fun t => t.1.toList = name).map (·.2)).getD 30)

/-- Opens a log file for appending, with the directories above it. -/
def openFile (file : Path) : Op Disk Path := fun log d =>
  match d.makePath (Route.ofPath file).parent with
  | (some why, d') => ⟨.error (.disk why), d', log⟩
  | (none, d') =>
      let p := Path.absolute d'.cwdPath file
      match d'.read p with
      | .ok _ => ⟨.ok p, d', log⟩
      | .error .notFound =>
          match d'.write p [] with
          | .ok d'' => ⟨.ok p, d'', log⟩
          | .error why => ⟨.error (.disk why), d', log⟩
      | .error why => ⟨.error (.disk why), d', log⟩

/-- Sets logging up. What is not given comes from the environment; an empty level or file name
counts as not given. -/
def setup (vars : Variables) (level file : Option Text) (maxBytes backups : Option Int) :
    Op Disk Logging := do
  let env ← Op.ofExcept (Environment.ofVariables vars)
  let name := upper ((level.filter (!·.isEmpty)).getD env.logLevel)
  let number ← Op.ofExcept (thresholdOf name)
  match file.filter (!·.isEmpty) with
  | none =>
      Op.log .debug "typeref" ("Logging at ".toList ++ name)
      return ⟨number, none⟩
  | some f =>
      let p ← openFile f
      Op.log .debug "typeref" ("Logging at ".toList ++ name ++ " to ".toList ++ f)
      return ⟨number, some ⟨p, maxBytes.getD env.logMaxBytes, backups.getD env.logBackups⟩⟩

/-- The lines of the entries that reach the threshold. -/
def lines (l : Logging) (log : Log) : Text :=
  (log.reverse.filter fun e => decide (l.threshold ≤ e.level.number)).flatMap Log.Entry.line

/-- The disk with the lines of entries at the end of the log file. -/
def append (l : Logging) (d : Disk) (log : Log) : Disk :=
  match l.file with
  | none => d
  | some f =>
      match d.read f.path with
      | .error _ => d
      | .ok content =>
          (d.write f.path (content ++ Encoding.encodeUtf8 (l.lines log))).toOption.getD d

end Logging

end DocRefs
