import DocRefs.Command.Run

/-!
# The program

Runs a command line on the machine's disk. What the arguments and the settings name is taken up into
a disk, the command is run on that, and whatever differs afterwards is stored. Files that lie
neither in the project nor beneath a source root are not seen; symbolic links inside a directory are
not followed.
-/

namespace DocRefs

namespace Program

/-- The environment variables that are read. -/
def variableNames : List String := [
  "TYPEREF_LOG_LEVEL", "TYPEREF_LOG_FILE", "TYPEREF_LOG_MAX_BYTES", "TYPEREF_LOG_BACKUPS",
  "TYPEREF_SOURCE_ROOTS"]

/-- Reads the environment variables. -/
def readVariables : IO Variables :=
  variableNames.filterMapM fun name => do
    return (← IO.getEnv name).map fun value => (name.toList, value.toList)

/-- The content of a file. -/
def readFile (path : String) : IO Bytes := return (← IO.FS.readBinFile path).toList

/-- Takes up everything in a directory. -/
partial def readDir (path : String) : IO Dir := do
  let entries ← ((← IO.currentDir) / path).readDir
  entries.foldlM (fun dir e => do
    let inner := path ++ "/" ++ e.fileName
    match (← e.path.symlinkMetadata).type with
    | .file => return dir.put e.fileName.toList (.file (← readFile inner))
    | .dir => return dir.put e.fileName.toList (.dir (← readDir inner))
    | _ => return dir) Dir.empty

/-- Takes up what the names lead to from a directory that is known as `dir` so far. The directories
on the way are entered into it even when the rest of the way is missing. -/
def takeUp (path : String) (dir : Dir) : List Text → IO Dir
  | [] => readDir path
  | name :: names => do
      let inner := path ++ "/" ++ String.ofList name
      let place := (← IO.currentDir) / inner
      if ← place.isDir then
        let known :=
          match dir.get? name with
          | some (.dir entries) => entries
          | _ => .empty
        return dir.put name (.dir (← takeUp inner known names))
      else if ← place.pathExists then return dir.put name (.file (← readFile inner))
      else return dir

/-- Takes up the places that paths name. -/
def takeUpAll (disk : Disk) (paths : List Path) : IO Disk := do
  let root ← paths.foldlM
    (fun root p => takeUp "" root (Route.ofPath (disk.normalize p)).steps) disk.root
  return { disk with root }

/-- The paths that arguments and environment name. -/
def namedPaths (vars : Variables) (a : Command.Arguments) : List Path :=
  let optional := [a.config, a.out, a.logFile, Environment.value? vars "TYPEREF_LOG_FILE"]
  a.project :: a.roots ++ optional.filterMap (·.filter (!·.isEmpty))

/-- The disk that a command line works on. -/
def takeUpFor (vars : Variables) (argv : List Text) : IO Disk := do
  let cwd := Route.ofPath (toString (← IO.currentDir)).toList
  let disk : Disk := { (Disk.makePath ⟨.empty, []⟩ cwd).2 with cwd := cwd.steps }
  match Command.Arguments.parse argv with
  | .error _ => return disk
  | .ok a =>
      let disk ← takeUpAll disk (namedPaths vars a)
      match ((Command.settings vars (.still disk) a).run ()).answer with
      | .error _ => return disk
      | .ok s => takeUpAll disk s.roots

/-- Stores what differs between two states of a directory. -/
def store (path : String) (before : Dir) : Dir → IO Unit
  | .empty => return ()
  | .file name content rest => do
      if before.get? name ≠ some (.file content) then
        IO.FS.writeBinFile (path ++ "/" ++ String.ofList name) ⟨content.toArray⟩
      store path before rest
  | .sub name entries rest => do
      let inner := path ++ "/" ++ String.ofList name
      match before.get? name with
      | some (.dir known) => store inner known entries
      | _ =>
          IO.FS.createDirAll inner
          store inner .empty entries
      store path before rest

/-- How the program is called. -/
def usage : String :=
  "usage: typeref [--log-level LEVEL] [--log-file FILE] rewrite|modules [ROOT ...]\n" ++
  "         [--project DIR] [--config FILE] [--out DIR | --in-place | --stdout]"

/-- What is said of a failure without a report. -/
def complaint : Failure → String
  | .disk .notFound => "no such file or directory"
  | .disk .notADirectory => "not a directory"
  | .disk .isADirectory => "is a directory"
  | .disk .alreadyExists => "file exists"
  | .disk .nameTooLong => "file name too long"
  | .disk .nulInPath => "path with a null character"
  | .undecodable => "a file is no text in its encoding"
  | .unencodable => "a text cannot be written in its encoding"
  | .unknownEncoding => "unknown encoding"
  | .wrongKind => "a value of the wrong kind"
  | .badValue => "a value that stands for nothing"
  | .noMember => "a value without the member asked for"
  | .noEntry => "a word that is not in the table"
  | .noCharacter => "a text without the character asked for"
  | .tooGreat => "a number too great for its use"
  | .tooDeep => "values nested too deeply"
  | _ => "failed"

/-- Shows how a command line ended and returns the exit code. -/
def finish : Command.Ending → IO UInt32
  | .exit code => return code.toUInt32
  | .usage u => do
      match u with
      | .help => IO.println usage
      | .wrong => IO.eprintln usage
      return u.exitCode.toUInt32
  | .escaped e => do
      IO.eprintln ("typeref: " ++ complaint e)
      return 1

/-- Runs a command line and returns the exit code. -/
def exec (args : List String) : IO UInt32 := do
  let vars ← readVariables
  let argv := args.map String.toList
  let disk ← takeUpFor vars argv
  let effect := Command.run vars disk argv
  store "" disk.root effect.disk.root
  IO.print (String.ofList effect.stdout)
  IO.eprint (String.ofList effect.stderr)
  finish effect.ending

end Program

end DocRefs

/-- The command line. -/
def main (args : List String) : IO UInt32 := DocRefs.Program.exec args
