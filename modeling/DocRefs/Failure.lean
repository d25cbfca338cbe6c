import DocRefs.Disk
import DocRefs.Value

/-!
# Failures

The ways in which an operation can fail. Failures that belong to the job of the program have a
report with a message and details; the others are faults of the disk, of a file's content or of a
setting's kind.
-/

namespace DocRefs

/-- The phase of a run: files are taken in first, then the type names in comments are
qualified. -/
inductive Phase
  | ingest
  | qualify
  deriving DecidableEq, Repr

/-- The name of a phase. -/
def Phase.name : Phase → Text
  | ingest => "ingest".toList
  | qualify => "rewrite".toList

namespace Report

/-- The kinds of reports. -/
inductive Kind
  | general
  | configuration
  | sourceRoot
  | phaseOrder
  deriving DecidableEq, Repr

namespace Kind

/-- The title of a kind. -/
def title : Kind → String
  | general => "TyperefError"
  | configuration => "ConfigurationError"
  | sourceRoot => "SourceRootError"
  | phaseOrder => "PhaseOrderError"

/-- The more general kinds, the nearest first. -/
def ancestors : Kind → List Kind
  | general => []
  | configuration => [general]
  | sourceRoot => [configuration, general]
  | phaseOrder => [general]

end Kind

end Report

/-- A failure as it is shown to the user. -/
structure Report where
  kind : Report.Kind
  message : Value
  /-- A table of further facts. -/
  details : Value

namespace Report

/-- A table with text keys. -/
def table (entries : List (String × Value)) : Value :=
  .map (entries.map fun e => (.text e.1.toList, e.2))

/-- A report of the general kind; absent details are an empty table. -/
def general (message details : Value) : Report :=
  ⟨.general, message, if details.isPresent then details else .map []⟩

/-- A report about the configuration. -/
def configuration (message file : Value) : Report :=
  ⟨.configuration, message, table [("config_file", file)]⟩

/-- A report about a file whose module id cannot be derived. -/
def sourceRoot (file : Value) (roots : List Value) : Report :=
  let message :=
    "Cannot derive module id for ".toList ++ file.shown ++ ": not under any source root".toList
  ⟨.sourceRoot, .text message,
    table [("config_file", .null), ("file", file), ("source_roots", .list roots)]⟩

/-- A report about a call in the wrong phase. -/
def phaseOrder (message file phase : Value) : Report :=
  ⟨.phaseOrder, message, table [("file", file), ("phase", phase)]⟩

/-- The report as one table. -/
def toValue (r : Report) : Value :=
  table [("type", .text r.kind.title.toList), ("message", r.message), ("details", r.details)]

end Report

/-- What can be wrong with a configuration. -/
inductive ConfigProblem
  /-- The file that was asked for does not exist. -/
  | fileMissing (file : Path)
  | unparsable
  | unreadable
  | notAMapping
  | rootsNotAList (kind : String)
  deriving DecidableEq, Repr

/-- The message for a configuration problem. -/
def ConfigProblem.message : ConfigProblem → Text
  | fileMissing file => "Config file not found: ".toList ++ file
  | unparsable => "Failed to parse config file".toList
  | unreadable => "Failed to load config file".toList
  | notAMapping => "Config file must contain a mapping".toList
  | rootsNotAList kind => "source_roots must be a list, got ".toList ++ kind.toList

/-- Why an operation failed. -/
inductive Failure
  | configuration (problem : ConfigProblem) (file : Option Path)
  /-- A file with a module tag that names no module lies outside every source root. -/
  | outsideRoots (file : Path) (roots : List Path)
  /-- A file was to be taken in after the second phase had begun. -/
  | ingestTooLate (file : Option Path) (phase : Phase)
  /-- A comment belongs to a file that was never taken in. -/
  | unknownFile (file : Path) (phase : Phase)
  | disk (why : Disk.Refusal)
  /-- Bytes that are no text in the encoding. -/
  | undecodable
  /-- A text that the encoding cannot write. -/
  | unencodable
  | unknownEncoding
  /-- A value of a kind that cannot be used so. -/
  | wrongKind
  /-- A value of the right kind that stands for nothing. -/
  | badValue
  /-- A value without the member asked for. -/
  | noMember
  /-- A word that is not in the table. -/
  | noEntry
  /-- A text without the character asked for. -/
  | noCharacter
  /-- A number too great for its use. -/
  | tooGreat
  /-- Values nested too deeply. -/
  | tooDeep
  deriving DecidableEq, Repr

namespace Failure

/-- The report of a failure, if it has one. -/
def report? : Failure → Option Report
  | configuration problem file =>
      some (.configuration (.text problem.message) (file.elim .null .text))
  | outsideRoots file roots => some (.sourceRoot (.text file) (roots.map .text))
  | ingestTooLate file phase =>
      some (.phaseOrder (.text "Cannot pre-parse a file after comment rewriting has started".toList)
        (file.elim .null .text) (.text phase.name))
  | unknownFile file phase =>
      some (.phaseOrder
        (.text ("Comment found in ".toList ++ file ++ " before the file was pre-parsed".toList))
        (.text file) (.text phase.name))
  | _ => none

end Failure

/-- Why a parser gives no value. -/
inductive Misread
  /-- An error of the parser's own: the text is not of the format. -/
  | malformed
  /-- Another failure, as of a value that cannot be built. -/
  | failed (why : Failure)
  deriving DecidableEq, Repr

end DocRefs
