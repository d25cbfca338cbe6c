import DocRefs.Batch.Write
import DocRefs.Command.Arguments
import DocRefs.Json.Printer
import DocRefs.Logging
import DocRefs.Settings.Load
import DocRefs.Yaml.Reader

/-!
# Commands

What a command line does to a disk and what it prints. Failures that have a report are printed as
JSON on the error stream and end with code 2; all others escape. The parsers that the program is run
with are set at the end.
-/

namespace DocRefs

namespace Command

variable [Parsers]

/-- How a command line ends. -/
inductive Ending
  | exit (code : Nat)
  /-- The arguments start no run. -/
  | usage (u : Usage)
  /-- A failure without a report. -/
  | escaped (e : Failure)
  deriving DecidableEq, Repr

/-- What a command line did. -/
structure Effect where
  ending : Ending
  stdout : Text
  stderr : Text
  disk : Disk

/-- A number and a noun behind it. -/
def countOf (n : Nat) (noun : String) : Text := Text.ofNat n ++ ' ' :: noun.toList

/-- Module summaries as a value. -/
def modulesValue (ms : List (Text × ModuleSummary)) : Value :=
  .map (ms.map fun m =>
    (.text m.1, Report.table [("files", .texts m.2.files), ("typedefs", .texts m.2.typeNames)]))

/-- A result as a value, without the texts. -/
def resultValue (r : BatchResult) : Value :=
  Report.table [("changed", .texts r.changed), ("modules", modulesValue r.modules),
    ("stats", r.statistics.toValue)]

/-- The settings of a run: those loaded, with the roots of the command line if there are any. -/
def settings (vars : Variables) (view : View) (a : Arguments) : Logged Settings := do
  let s ← Settings.load vars view (Route.ofPath a.project).toPath a.config
  let disk ← Op.see view
  if a.roots.isEmpty then return s
  else return { s with roots := (Settings.ofRoots disk.cwdPath a.roots).roots }

/-- Loads the settings and runs over the sources. -/
def batch (vars : Variables) (view : View) (a : Arguments) : Logged (Settings × BatchResult) := do
  let s ← settings vars view a
  return (s, ← Batch.run view s none)

/-- Delivers a result as a command asks for it, and returns what is printed. -/
def deliver (a : Arguments) (s : Settings) (result : BatchResult) : Op Disk Text := do
  match a.command with
  | .modules => return Json.print (modulesValue result.modules) ++ ['\n']
  | .link =>
      match a.out.filter (!·.isEmpty) with
      | some out =>
          let written ← Batch.write s result (some out)
          return "Wrote ".toList ++ countOf written.length "files to " ++ out ++ ['\n']
      | none =>
          if a.inPlace then
            let written ← Batch.write s result none
            return "Rewrote ".toList ++ countOf written.length "files in place\n"
          else if a.stdout then
            return result.changed.flatMap fun p =>
              "==> ".toList ++ p ++ " <==\n".toList ++ (result.outputs.get? p).getD [] ++ ['\n']
          else return Json.print (resultValue result) ++ ['\n']

/-- The report of a failure as it is printed. -/
def reportText (r : Report) : Text :=
  Json.print (Report.table [("error", r.toValue)]) ++ ['\n']

/-- How a command ends, with all that was logged. -/
def conclude (logging : Logging) (answer : Except Failure Text) (log : Log) (disk : Disk) :
    Effect :=
  let lines := logging.lines log
  match answer with
  | .ok printed => ⟨.exit 0, printed, lines, disk⟩
  | .error e =>
      match e.report? with
      | some r => ⟨.exit 2, [], lines ++ reportText r, disk⟩
      | none => ⟨.escaped e, [], lines, disk⟩

/-- Runs a command once logging is set up and `log` was logged. Every entry is in the log file
before anything is read after it. -/
def perform (vars : Variables) (a : Arguments) (logging : Logging) (log : Log) (disk : Disk) :
    Effect :=
  let view : View := logging.append disk
  match batch vars view a log () with
  | ⟨.error e, _, log'⟩ => conclude logging (.error e) log' (view log')
  | ⟨.ok (s, result), _, log'⟩ =>
      let o := (deliver a s result).run (view log')
      conclude logging o.answer (o.log ++ log') (logging.append o.state o.log)

/-- Runs a command line. -/
def run (vars : Variables) (disk : Disk) (argv : List Text) : Effect :=
  match Arguments.parse argv with
  | .error u => ⟨.usage u, [], [], disk⟩
  | .ok a =>
      match Environment.ofVariables vars with
      | .error e => ⟨.escaped e, [], [], disk⟩
      | .ok env =>
          let level := (a.logLevel.filter (!·.isEmpty)).getD env.logLevel
          let file := (a.logFile.filter (!·.isEmpty)) <|> env.logFile
          match (Logging.setup vars (some level) file none none).run disk with
          | ⟨.error e, disk', _⟩ => ⟨.escaped e, [], [], disk'⟩
          | ⟨.ok logging, disk', log⟩ => perform vars a logging log disk'

/-- The parsers that the program is run with. -/
instance standardParsers : Parsers where
  json := Json.read
  yaml content :=
    match Encoding.decodeUtf8 content with
    | none => .error (.failed .undecodable)
    | some t => Yaml.read (foldNewlines t)

end Command

end DocRefs
