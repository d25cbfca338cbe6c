import DocRefs.Encoding
import DocRefs.Route

/-!
# Disks

A disk is a tree of directories and files with a working directory. Looking a path up follows its
steps one by one, so every step but the last has to be an existing directory, also before a `..`.
A path that is too long as a whole is refused before any step is taken, wherever it leads.
Operations that change the disk return the disk they leave, or the reason of refusal.
-/

namespace DocRefs

/-- The entries of a directory, in no particular order. -/
inductive Dir
  | empty
  | file (name : Text) (content : Bytes) (rest : Dir)
  | sub (name : Text) (entries : Dir) (rest : Dir)
  deriving DecidableEq, Repr

/-- What a name or a path leads to. -/
inductive Entry
  | file (content : Bytes)
  | dir (entries : Dir)
  deriving DecidableEq, Repr

namespace Entry

/-- Whether an entry is a file. -/
def isFile : Entry → Bool
  | file _ => true
  | dir _ => false

/-- Whether an entry is a directory. -/
def isDir : Entry → Bool
  | file _ => false
  | dir _ => true

end Entry

namespace Dir

/-- The entry with a name. -/
def get? (name : Text) : Dir → Option Entry
  | empty => none
  | file n content rest => if n = name then some (.file content) else rest.get? name
  | sub n entries rest => if n = name then some (.dir entries) else rest.get? name

/-- The names in a directory. -/
def names : Dir → List Text
  | empty => []
  | file n _ rest => n :: rest.names
  | sub n _ rest => n :: rest.names

/-- The directory with an entry put under a name, in place of the entry there. -/
def put (name : Text) (e : Entry) : Dir → Dir
  | empty =>
      match e with
      | .file content => file name content empty
      | .dir entries => sub name entries empty
  | file n content rest =>
      if n = name then
        match e with
        | .file content' => file name content' rest
        | .dir entries => sub name entries rest
      else file n content (rest.put name e)
  | sub n entries rest =>
      if n = name then
        match e with
        | .file content => file name content rest
        | .dir entries' => sub name entries' rest
      else sub n entries (rest.put name e)

/-- The directory without the entries of a name. -/
def erase (name : Text) : Dir → Dir
  | empty => empty
  | file n content rest => if n = name then rest.erase name else file n content (rest.erase name)
  | sub n entries rest => if n = name then rest.erase name else sub n entries (rest.erase name)

theorem get?_put (d : Dir) (name other : Text) (e : Entry) :
    (d.put name e).get? other = if name = other then some e else d.get? other := by
  induction d with
  | empty => cases e <;> by_cases h : name = other <;> simp [put, get?, h]
  | file n content rest ih =>
      by_cases hn : n = name
      · subst hn
        cases e <;> by_cases h : n = other <;> simp [put, get?, h]
      · by_cases h : n = other
        · subst h
          simp [put, get?, hn, Ne.symm hn]
        · simp [put, get?, hn, h, ih]
  | sub n entries rest _ ih =>
      by_cases hn : n = name
      · subst hn
        cases e <;> by_cases h : n = other <;> simp [put, get?, h]
      · by_cases h : n = other
        · subst h
          simp [put, get?, hn, Ne.symm hn]
        · simp [put, get?, hn, h, ih]

/-- The entry at the end of a list of names. -/
def find? (d : Dir) : List Text → Option Entry
  | [] => some (.dir d)
  | n :: ns =>
      match d.get? n with
      | none => none
      | some (.file content) => if ns = [] then some (.file content) else none
      | some (.dir entries) => entries.find? ns

/-- The tree with an entry put at the end of a list of names whose directories all exist. -/
def putAt (d : Dir) (e : Entry) : List Text → Dir
  | [] => d
  | [n] => d.put n e
  | n :: m :: ns =>
      match d.get? n with
      | some (.dir entries) => d.put n (.dir (entries.putAt e (m :: ns)))
      | _ => d

/-- The tree without the entry at the end of a list of names. -/
def eraseAt (d : Dir) : List Text → Dir
  | [] => d
  | [n] => d.erase n
  | n :: m :: ns =>
      match d.get? n with
      | some (.dir entries) => d.put n (.dir (entries.eraseAt (m :: ns)))
      | _ => d

/-- Every file of a tree with the names that lead to it. -/
def files : Dir → List (List Text × Bytes)
  | empty => []
  | file n content rest => ([n], content) :: rest.files
  | sub n entries rest => (entries.files.map fun p => (n :: p.1, p.2)) ++ rest.files

end Dir

/-- The tree and the working directory. -/
structure Disk where
  root : Dir
  /-- The names that lead from the root to the working directory. -/
  cwd : List Text
  deriving DecidableEq, Repr

namespace Disk

/-- Why a disk refuses an operation. -/
inductive Refusal
  | notFound
  | notADirectory
  | isADirectory
  | alreadyExists
  /-- A name is longer than a directory can hold, or a path than can be looked up. -/
  | nameTooLong
  /-- A path contains the NUL character. -/
  | nulInPath
  deriving DecidableEq, Repr

/-- The working directory as a path. -/
def cwdPath (d : Disk) : Path := '/' :: Text.join ['/'] d.cwd

/-- The identity of a path on this disk: absolute and collapsed. -/
def normalize (d : Disk) (p : Path) : Path := Path.normalize d.cwdPath p

/-- The longest name that a directory holds, in bytes. -/
def nameLimit : Nat := 255

/-- The longest path that can be looked up, in bytes. -/
def pathLimit : Nat := 4095

/-- Whether a path is short enough to be looked up. -/
def fits (p : Path) : Bool := (Encoding.encodeUtf8 p).length ≤ pathLimit

/-- What is said against a path before a step is taken. -/
def objection? (p : Path) : Option Refusal :=
  if p.contains '\x00' then some .nulInPath
  else if !fits p then some .nameTooLong
  else if p = [] then some .notFound
  else none

/-- The names that a list of steps leads to from the names `place`: every step is taken in an
existing directory. The last name need not exist. -/
def follow (root : Dir) (place : List Text) : List Text → Except Refusal (List Text)
  | [] => .ok place
  | s :: ss =>
      match root.find? place with
      | none => .error .notFound
      | some (.file _) => .error .notADirectory
      | some (.dir _) =>
          if s = [] ∨ s = Path.here then follow root place ss
          else if s = Path.up then follow root place.dropLast ss
          else if nameLimit < (Encoding.encodeUtf8 s).length then .error .nameTooLong
          else follow root (place ++ [s]) ss

/-- The names that a path leads to. -/
def locate (d : Disk) (p : Path) : Except Refusal (List Text) :=
  match objection? p with
  | some why => .error why
  | none => follow d.root (if Path.isAbsolute p then [] else d.cwd) (Text.splitOn '/' p)

/-- The entry that a path leads to. -/
def entry (d : Disk) (p : Path) : Except Refusal Entry := do
  match d.root.find? (← d.locate p) with
  | some e => return e
  | none => throw .notFound

/-- The entry that a path leads to, if any. -/
def entry? (d : Disk) (p : Path) : Option Entry := (d.entry p).toOption

/-- Whether a path leads to a file. -/
def isFile (d : Disk) (p : Path) : Bool := (d.entry? p).any Entry.isFile

/-- Whether a path leads to a directory. -/
def isDir (d : Disk) (p : Path) : Bool := (d.entry? p).any Entry.isDir

/-- The content of the file at a path. -/
def read (d : Disk) (p : Path) : Except Refusal Bytes := do
  match ← d.entry p with
  | .file content => return content
  | .dir _ => throw .isADirectory

/-- The names in a directory, sorted. -/
def list (d : Disk) (p : Path) : Except Refusal (List Text) := do
  match ← d.entry p with
  | .file _ => throw .notADirectory
  | .dir entries => return Text.sort entries.names

/-- The steps to a path's parent and its last step; none when the last step names no new entry. -/
def target (d : Disk) (p : Path) : Except Refusal (List Text × Option Text) :=
  match objection? p with
  | some why => .error why
  | none => do
      let steps := Text.splitOn '/' p
      let parent ← follow d.root (if Path.isAbsolute p then [] else d.cwd) steps.dropLast
      match d.root.find? parent with
      | none => throw .notFound
      | some (.file _) => throw .notADirectory
      | some (.dir _) =>
          match steps.getLast? with
          | none => return (parent, none)
          | some s =>
              if s = [] ∨ s = Path.here ∨ s = Path.up then return (parent, none)
              else if nameLimit < (Encoding.encodeUtf8 s).length then throw .nameTooLong
              else return (parent, some s)

/-- Puts content into the file at a path, which is made when it is missing. -/
def write (d : Disk) (p : Path) (content : Bytes) : Except Refusal Disk := do
  match ← d.target p with
  | (_, none) => throw .isADirectory
  | (parent, some name) =>
      match d.root.find? (parent ++ [name]) with
      | some (.dir _) => throw .isADirectory
      | _ => return { d with root := d.root.putAt (.file content) (parent ++ [name]) }

/-- Makes one directory. -/
def makeDir (d : Disk) (p : Path) : Except Refusal Disk := do
  match ← d.target p with
  | (_, none) => throw .alreadyExists
  | (parent, some name) =>
      match d.root.find? (parent ++ [name]) with
      | some _ => throw .alreadyExists
      | none => return { d with root := d.root.putAt (.dir .empty) (parent ++ [name]) }

/-- Makes the directory of a route and those above it, where `depth` bounds how many. A directory
that is already there is kept. Returns the disk it leaves in any case, since the directories above
may have been made before the refusal. -/
def makeDirs (depth : Nat) (d : Disk) (r : Route) : Option Refusal × Disk :=
  match d.makeDir r.toPath with
  | .ok d' => (none, d')
  | .error .notFound =>
      match depth with
      | 0 => (some .notFound, d)
      | depth + 1 =>
          match makeDirs depth d r.parent with
          | (some why, d') => (some why, d')
          | (none, d') =>
              match d'.makeDir r.toPath with
              | .ok d'' => (none, d'')
              | .error why => if d'.isDir r.toPath then (none, d') else (some why, d')
  | .error why => if d.isDir r.toPath then (none, d) else (some why, d)

/-- Makes the directory of a route and all directories above it that are missing. -/
def makePath (d : Disk) (r : Route) : Option Refusal × Disk := makeDirs r.steps.length d r

/-- Removes the file at a path. -/
def remove (d : Disk) (p : Path) : Except Refusal Disk := do
  let place ← d.locate p
  match d.root.find? place with
  | none => throw .notFound
  | some (.dir _) => throw .isADirectory
  | some (.file _) => return { d with root := d.root.eraseAt place }

end Disk

end DocRefs
