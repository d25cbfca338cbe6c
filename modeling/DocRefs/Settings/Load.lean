import DocRefs.Disk.Texts
import DocRefs.Op
import DocRefs.Settings
import DocRefs.Settings.Environment

/-!
# Loading settings

Where settings come from: a configuration file that is asked for, the project's own configuration
file, the source roots of a jsdoc configuration, or defaults. Relative roots are seen from the
directory of the file that lists them. The parsers of configuration files belong to others, so
loading is defined for any of them.
-/

namespace DocRefs

/-- The parsers of configuration files: what they answer, and how they fail. -/
class Parsers where
  /-- Reads a text as JSON. -/
  json : Text → Except Misread Value
  /-- Reads the content of a file as YAML, and decodes it on the way. A text that breaks off because
  its bytes cannot be decoded may be found wrong before that is noticed. -/
  yaml : Bytes → Except Misread Value

/-- The parsers give a value or fail with an error of their own, apart from bytes that cannot be
decoded. -/
structure Parsers.OnlyRefuse [Parsers] : Prop where
  json : ∀ t why, Parsers.json t ≠ .error (.failed why)
  yaml : ∀ content why, Parsers.yaml content = .error (.failed why) →
    why = .undecodable ∧ Encoding.decodeUtf8 content = none

namespace Settings

variable [Parsers]

/-- The project's own configuration files, in order. -/
def configNames : List String :=
  [".typeref.config.json", ".typeref.config.yaml", ".typeref.config.yml"]

/-- The jsdoc configuration files, in order. -/
def jsdocNames : List String := ["jsdoc.json", ".jsdoc.json", "conf.json"]

/-- The part of the program that logs the loading of settings. -/
def loader : String := "typeref.config_loader"

/-- Whether an entry that passes a test is at a path. A path that cannot be looked up because it is
too long, or a name in it, is a failure. -/
def leadsTo (test : Entry → Bool) (disk : Disk) (p : Path) : Except Failure Bool :=
  match disk.entry p with
  | .ok e => .ok (test e)
  | .error .nameTooLong => .error (.disk .nameTooLong)
  | .error _ => .ok false

/-- Whether something is at a path. -/
def pathExists (disk : Disk) (p : Path) : Except Failure Bool := leadsTo (fun _ => true) disk p

/-- Whether a file is read as YAML; all others are read as JSON. -/
def isYaml (file : Route) : Bool :=
  file.suffix = ".yaml".toList || file.suffix = ".yml".toList

/-- The value that the content of a configuration file stands for; in YAML every absent value is an
empty table. -/
def parse (file : Route) (content : Bytes) : Except Misread Value :=
  if isYaml file then do
    let v ← Parsers.yaml content
    return if v.isPresent then v else .map []
  else
    match Encoding.decodeUtf8 content with
    | none => .error (.failed .undecodable)
    | some t => Parsers.json (foldNewlines t)

/-- The table in a configuration file. -/
def readTable (view : View) (file : Route) : Logged (List (Value × Value)) := do
  let p := file.toPath
  let disk ← Op.see view
  match disk.read p with
  | .error .nulInPath => Op.fail (.disk .nulInPath)
  | .error _ =>
      Op.log .error loader ("Failed to load config file ".toList ++ p)
      Op.fail (.configuration .unreadable (some p))
  | .ok content =>
      match parse file content with
      | .error .malformed =>
          Op.log .error loader ("Failed to parse config file ".toList ++ p)
          Op.fail (.configuration .unparsable (some p))
      | .error (.failed e) => Op.fail e
      | .ok (.map entries) => return entries
      | .ok _ => Op.fail (.configuration .notAMapping (some p))

/-- The directory of a file. -/
def directoryOf (disk : Disk) (file : Route) : Route :=
  (Route.ofPath (Path.absolute disk.cwdPath file.toPath)).parent

/-- Settings without a configuration file: roots from the environment, or the directory `src` of the
project, or the project. -/
def defaults (vars : Variables) (disk : Disk) (project : Route) : Except Failure Settings := do
  let env ← Environment.ofVariables vars
  if !env.sourceRoots.isEmpty then
    ofTable disk.cwdPath project [(.text rootsKey, .texts env.sourceRoots)]
  else
    let src := (project.child ['s', 'r', 'c']).toPath
    return ofRoots disk.cwdPath [if ← leadsTo Entry.isDir disk src then src else project.toPath]

/-- Settings from a configuration file; without source roots in it, those of the defaults. -/
def ofFile (vars : Variables) (view : View) (file : Route) : Logged Settings := do
  let table ← readTable view file
  let disk ← Op.see view
  let base := directoryOf disk file
  let settings ← Op.ofExcept (ofTable disk.cwdPath base table)
  let settings ←
    if settings.roots.isEmpty then do
      let d ← Op.ofExcept (defaults vars disk base)
      pure { settings with roots := d.roots }
    else pure settings
  Op.log .info loader <|
    "Loaded config with source roots: ".toList ++ (Value.texts settings.roots).quoted
  return settings

/-- The list of included sources in a jsdoc configuration; absent when it includes none. -/
def jsdocInclude (table : List (Value × Value)) : Except Failure Value := do
  let source := (Value.lookup? "source".toList table).getD .null
  let include? ←
    if source.isPresent then
      match source with
      | .map es => pure (Value.lookup? "include".toList es)
      | _ => throw .noMember
    else pure none
  return include?.getD .null

/-- Settings with the source roots that a jsdoc configuration includes. -/
def ofJsdoc (vars : Variables) (view : View) (file : Route) : Logged Settings := do
  let table ← readTable view file
  let disk ← Op.see view
  let base := directoryOf disk file
  let included ← Op.ofExcept (jsdocInclude table)
  if included.isPresent then
    Op.ofExcept (ofTable disk.cwdPath base [(.text rootsKey, included)])
  else Op.ofExcept (defaults vars disk base)

/-- The first of the names that exists in a directory. -/
def firstExisting (disk : Disk) (directory : Route) : List String →
    Except Failure (Option (String × Route))
  | [] => .ok none
  | name :: names => do
      let file := directory.child name.toList
      if ← pathExists disk file.toPath then return some (name, file)
      else firstExisting disk directory names

/-- Loads the settings of a project, from the given configuration file if there is one. -/
def load (vars : Variables) (view : View) (project : Path) (config : Option Path) :
    Logged Settings := do
  let disk ← Op.see view
  let directory := Route.ofPath (Path.absolute disk.cwdPath project)
  match config with
  | some c =>
      let file := Route.ofPath c
      if ← Op.ofExcept (pathExists disk file.toPath) then ofFile vars view file
      else Op.fail (.configuration (.fileMissing file.toPath) (some file.toPath))
  | none =>
      match ← Op.ofExcept (firstExisting disk directory configNames) with
      | some (name, file) =>
          Op.log .info loader ("Loading config from: ".toList ++ name.toList)
          ofFile vars view file
      | none =>
          match ← Op.ofExcept (firstExisting disk directory jsdocNames) with
          | some (name, file) =>
              Op.log .info loader
                ("Loading source roots from jsdoc config: ".toList ++ name.toList)
              ofJsdoc vars view file
          | none =>
              Op.log .info loader "No config file found, using default source roots".toList
              Op.ofExcept (defaults vars disk directory)

end Settings

end DocRefs
