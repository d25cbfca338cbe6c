import DocRefs.Text.Digit

/-!
# Command-line arguments

The grammar of the command line: two options before the command, then the command with its source
roots and options. Long options may be shortened as long as they stay unambiguous, a value may be
attached with `=`, and after `--` everything is a source root. The roots stand together: arguments
after a second gap between options are refused.
-/

namespace DocRefs

namespace Command

/-- Why the arguments start no run. -/
inductive Usage
  /-- Help was asked for. -/
  | help
  /-- The arguments are wrong. -/
  | wrong
  deriving DecidableEq, Repr

/-- The exit code when the arguments start no run. -/
def Usage.exitCode : Usage → Nat
  | help => 0
  | wrong => 2

/-- The commands. -/
inductive Name
  /-- Links and qualifies the comments of all sources. -/
  | link
  /-- Lists the modules. -/
  | modules
  deriving DecidableEq, Repr

/-- The arguments of a run. -/
structure Arguments where
  logLevel : Option Text := none
  logFile : Option Text := none
  command : Name
  roots : List Text := []
  project : Text := ['.']
  config : Option Text := none
  /-- The directory for the new texts. -/
  out : Option Text := none
  inPlace : Bool := false
  stdout : Bool := false
  deriving DecidableEq, Repr

/-- The options. -/
inductive Opt
  | help
  | logLevel
  | logFile
  | project
  | config
  | out
  | inPlace
  | stdout
  deriving DecidableEq, Repr

namespace Opt

/-- The long name of an option. -/
def name : Opt → Text
  | help => "--help".toList
  | logLevel => "--log-level".toList
  | logFile => "--log-file".toList
  | project => "--project".toList
  | config => "--config".toList
  | out => "--out".toList
  | inPlace => "--in-place".toList
  | stdout => "--stdout".toList

/-- Whether an option takes a value. -/
def takesValue : Opt → Bool
  | help => false
  | inPlace => false
  | stdout => false
  | _ => true

end Opt

/-- The options before the command. -/
def mainOptions : List Opt := [.help, .logLevel, .logFile]

/-- The options of a command. -/
def optionsOf : Name → List Opt
  | .link => [.help, .project, .config, .out, .inPlace, .stdout]
  | .modules => [.help, .project, .config]

/-- A word of the command line as it is read. -/
inductive Word
  | argument (t : Text)
  /-- The `--` after which everything is an argument. -/
  | separator
  /-- An option, with the value attached to it. -/
  | option (o : Opt) (attached : Option Text)
  /-- What is attached to the short option of help: the letters of further short options. -/
  | cluster (letters : Text)
  | unknown
  deriving DecidableEq, Repr

/-- Whether a word looks like a negative number and is therefore an argument; one line feed at the
end does not count. -/
def isNegativeNumber : Text → Bool
  | '-' :: w =>
      let isDecimal (c : Char) : Bool := (Text.decimalValue? c).isSome
      let t := Text.chomped w
      match t.dropWhile isDecimal with
      | [] => !t.isEmpty
      | '.' :: ds => !ds.isEmpty && ds.all isDecimal
      | _ => false
  | _ => false

/-- A word split at its first `=`. -/
def splitAttached (w : Text) : Text × Option Text :=
  match Text.cut? ['='] w with
  | some (before, after) => (before, some after)
  | none => (w, none)

/-- Reads a word where the given options are known. -/
def readWord (options : List Opt) (w : Text) : Except Usage Word :=
  let (name, attached) := splitAttached w
  match w with
  | '-' :: c :: letters =>
      if let some o := options.find? fun o => o.name = w then .ok (.option o none)
      else if w = ['-', 'h'] then .ok (.option .help none)
      else if let some o := options.find? fun o => o.name = name then .ok (.option o attached)
      else if name = ['-', 'h'] then .ok (.cluster (attached.getD []))
      else if c = '-' then
        match options.filter fun o => Text.startsWith o.name name with
        | [o] => .ok (.option o attached)
        | [] => .ok (if w.contains ' ' then .argument w else .unknown)
        | _ => .error .wrong
      else if c = 'h' then .ok (.cluster letters)
      else if isNegativeNumber w || w.contains ' ' then .ok (.argument w)
      else .ok .unknown
  | _ => .ok (.argument w)

/-- Reads words up to the separator; after it every word is an argument. -/
def readWords (options : List Opt) : List Text → Except Usage (List Word)
  | [] => .ok []
  | w :: ws =>
      if w = ['-', '-'] then .ok (.separator :: ws.map .argument)
      else do
        let word ← readWord options w
        return word :: (← readWords options ws)

/-- What a cluster of short options asks for: there has to be a letter, and help is the only option
that has one. -/
def clusterUsage (letters : Text) : Usage :=
  if !letters.isEmpty && letters.all (· = 'h') then .help else .wrong

/-- Arguments that have been read, and whether some were left over. -/
structure Progress where
  arguments : Arguments
  /-- Whether the source roots have been read. -/
  rootsRead : Bool := false
  leftOver : Bool := false

/-- Sets an option; the three ways of output exclude each other. -/
def Arguments.set (a : Arguments) (o : Opt) (value : Text) : Except Usage Arguments :=
  match o with
  | .help => .error .help
  | .logLevel => .ok { a with logLevel := some value }
  | .logFile => .ok { a with logFile := some value }
  | .project => .ok { a with project := value }
  | .config => .ok { a with config := some value }
  | .out => if a.inPlace || a.stdout then .error .wrong else .ok { a with out := some value }
  | .inPlace => if a.out.isSome || a.stdout then .error .wrong else .ok { a with inPlace := true }
  | .stdout => if a.out.isSome || a.inPlace then .error .wrong else .ok { a with stdout := true }

/-- Whether a word belongs to the source roots. -/
def Word.isPositional : Word → Bool
  | argument _ => true
  | separator => true
  | _ => false

/-- The arguments among words. -/
def argumentTexts (ws : List Word) : List Text :=
  ws.filterMap fun w =>
    match w with
    | .argument t => some t
    | _ => none

/-- Reads the words of a command; `fuel` bounds their number. -/
def readCommand : Nat → Progress → List Word → Except Usage Progress
  | 0, p, _ => .ok p
  | _, p, [] => .ok p
  | fuel + 1, p, .option o attached :: ws =>
      match o.takesValue, attached, ws with
      | true, some value, ws => do
          readCommand fuel { p with arguments := ← p.arguments.set o value } ws
      | true, none, .argument value :: ws => do
          readCommand fuel { p with arguments := ← p.arguments.set o value } ws
      | true, none, _ => .error .wrong
      | false, some _, _ => .error .wrong
      | false, none, ws => do
          readCommand fuel { p with arguments := ← p.arguments.set o [] } ws
  | _, _, .cluster letters :: _ => .error (clusterUsage letters)
  | fuel + 1, p, .unknown :: ws => readCommand fuel { p with leftOver := true } ws
  | fuel + 1, p, ws =>
      let run := ws.takeWhile Word.isPositional
      let rest := ws.dropWhile Word.isPositional
      if p.rootsRead then readCommand fuel { p with leftOver := true } rest
      else
        readCommand fuel { p with
          arguments := { p.arguments with roots := argumentTexts run }
          rootsRead := true } rest

/-- The command with a name. -/
def Name.ofText? (t : Text) : Option Name :=
  if t = "rewrite".toList then some .link
  else if t = "modules".toList then some .modules
  else none

/-- Reads the words in front of the command, which come with their text, and then the command. -/
def readMain : Progress → List (Word × Text) → Except Usage Arguments
  | _, [] => .error .wrong
  | p, (.option o attached, _) :: ws =>
      match o.takesValue, attached, ws with
      | true, some value, ws => do readMain { p with arguments := ← p.arguments.set o value } ws
      | true, none, (.argument value, _) :: ws => do
          readMain { p with arguments := ← p.arguments.set o value } ws
      | true, none, _ => .error .wrong
      | false, some _, _ => .error .wrong
      | false, none, ws => do readMain { p with arguments := ← p.arguments.set o [] } ws
  | _, (.cluster letters, _) :: _ => .error (clusterUsage letters)
  | _, (.separator, _) :: _ => .error .wrong
  | p, (.unknown, _) :: ws => readMain { p with leftOver := true } ws
  | p, (.argument t, _) :: ws =>
      match Name.ofText? t with
      | none => .error .wrong
      | some command => do
          let words ← readWords (optionsOf command) (ws.map (·.2))
          let q ← readCommand (words.length + 1)
            { p with arguments := { p.arguments with command } } words
          if q.leftOver then .error .wrong else .ok q.arguments

/-- Reads a command line. -/
def Arguments.parse (argv : List Text) : Except Usage Arguments := do
  let words ← readWords mainOptions argv
  readMain { arguments := { command := .link } } (words.zip argv)

end Command

end DocRefs
