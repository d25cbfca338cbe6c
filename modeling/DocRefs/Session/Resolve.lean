import DocRefs.Session.Basic

/-!
# Resolving imports

Which file a relative specifier names: the file itself, or a file in the same directory with that
stem, or an index file of the directory with that name. Of several candidates the importer's own
extension wins, then the order of the settings. Bare specifiers are module ids already.
-/

namespace DocRefs

/-- Whether a specifier is a path and not the name of a package. -/
def Specifier.isRelative (specifier : Text) : Bool := Text.startsWith specifier ['.']

/-- The stem of a directory's index file. -/
def indexStem : Text := ['i', 'n', 'd', 'e', 'x']

/-- The extensions that an importer prefers: its own first. -/
def preferredBy (importer : Path) (extensions : List Text) : List Text :=
  Path.extension importer :: extensions

/-- Of two names the one whose extension is preferred; the first when there is no difference. -/
def betterName (preferred : List Text) (a b : Text) : Text :=
  if preferred.idxOf (Path.extension b) < preferred.idxOf (Path.extension a) then b else a

/-- The file of a directory that has the stem and the extension most preferred. -/
def stemMatch? (disk : Disk) (preferred : List Text) (directory : Path) (stem : Text) :
    Except Failure (Option Text) := do
  let names ← disk.listOrEmpty directory
  let candidates := names.filter fun name =>
    Path.stem name = stem && preferred.contains (Path.extension name)
      && disk.isFile (Path.join directory name)
  match candidates with
  | [] => return none
  | name :: others => return some (others.foldl (betterName preferred) name)

/-- The file that a collapsed path refers to, if there is one. -/
def target? (disk : Disk) (preferred : List Text) (candidate : Path) :
    Except Failure (Option Path) := do
  if disk.isFile candidate then return some candidate
  let (directory, base) := Path.split candidate
  match ← stemMatch? disk preferred directory base with
  | some name => return some (Path.join directory name)
  | none =>
      if disk.isDir candidate then
        let name? ← stemMatch? disk preferred candidate indexStem
        return name?.map (Path.join candidate)
      else return none

namespace Session

/-- The key of a resolved import. -/
def memoKey (importer : Path) (specifier : Text) : Text := importer ++ [':', ':'] ++ specifier

/-- The path that a specifier stands for before a file is looked for. -/
def candidate (importer : Path) (specifier : Text) : Path :=
  Path.collapse (Path.join (Path.dirname importer) specifier)

/-- The absolute path of a relative specifier, of a file that may be missing; none for a bare one.
The answer for an importer and a specifier is kept. -/
def resolvePath (scope : Scope) (view : View) (filename : Path) (specifier : Text) :
    Op Session (Option Path) := do
  if Specifier.isRelative specifier then
    let importer := scope.normalize filename
    let key := memoKey importer specifier
    let s ← Op.get
    match s.memo.get? key with
    | some p => return some p
    | none =>
        let c := candidate importer specifier
        let disk ← Op.see view
        let found? ← Op.ofExcept (target? disk (preferredBy importer scope.extensions) c)
        if found?.isNone then
          Op.log .warning "typeref.resolvers.path_resolver" <|
            "Import target not found: ".toList ++ c ++ " (imported from ".toList ++ importer
              ++ ")".toList
        let p := found?.getD c
        Op.modify fun s => { s with memo := s.memo.put key p }
        Op.log .debug "typeref.resolvers.path_resolver" <|
          "Resolved '".toList ++ specifier ++ "' from ".toList ++ importer ++ " to ".toList ++ p
        return some p
  else return none

/-- The module id of an import: that of the file it names, empty if the file has no module; a bare
specifier is its own id. -/
def resolve (scope : Scope) (view : View) (filename : Path) (specifier : Text) :
    Op Session Text := do
  match ← resolvePath scope view filename specifier with
  | none => return specifier
  | some p =>
      let info ← identity scope view p none
      return info.moduleId

/-- Resolves without the answers kept so far and keeps none. -/
def resolveAfresh (scope : Scope) (view : View) (filename : Path) (specifier : Text) :
    Op Session Text := fun log s =>
  match resolve scope view filename specifier log { s with memo := [] } with
  | ⟨answer, s', log'⟩ => ⟨answer, { s' with memo := s.memo }, log'⟩

end Session

end DocRefs
