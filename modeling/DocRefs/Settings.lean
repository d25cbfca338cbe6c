import DocRefs.Failure

/-!
# Settings

The settings of a run. Source roots are absolute and collapsed from the moment settings are built;
the other three pass through as they were given and are looked at when they are used.
-/

namespace DocRefs

/-- The settings of a run. -/
structure Settings where
  /-- The source roots in order of priority, absolute and collapsed. -/
  roots : List Path
  /-- The extensions of source files, in order of preference. -/
  extensions : Value
  /-- The names of directories that are not searched for sources. -/
  exclude : Value
  /-- The name of the sources' encoding. -/
  encoding : Value

namespace Settings

/-- The extensions of source files unless others are set. -/
def defaultExtensions : List Text :=
  [".js", ".mjs", ".cjs", ".jsx", ".ts", ".tsx"].map String.toList

/-- The directories that are not searched unless others are set. -/
def defaultExclude : List Text :=
  [".git", "node_modules", "dist", "build", "coverage", ".cache"].map String.toList

/-- Settings with the given roots and defaults for the rest. -/
def ofRoots (cwd : Path) (roots : List Path) : Settings where
  roots := roots.map (Path.normalize cwd)
  extensions := .texts defaultExtensions
  exclude := .texts defaultExclude
  encoding := .text "utf-8".toList

/-- The key of the source roots. -/
def rootsKey : Text := "source_roots".toList

/-- The key of the extensions. -/
def extensionsKey : Text := "extensions".toList

/-- The key of the excluded directories. -/
def excludeKey : Text := "exclude".toList

/-- The key of the encoding. -/
def encodingKey : Text := "encoding".toList

/-- The keys of settings. -/
def keys : List Text := [rootsKey, extensionsKey, excludeKey, encodingKey]

/-- The paths that a value of source roots lists: one text, or a collection of texts. -/
def rootPaths : Value → Except Failure (List Path)
  | .text t => .ok [t]
  | v =>
      match v.elements? with
      | none => .error .wrongKind
      | some vs => vs.mapM fun r => r.text?.elim (.error .wrongKind) .ok

/-- Settings from a table that has no other keys than those of settings; what is not given has its
default. -/
def ofFields (cwd : Path) (fields : List (Value × Value)) : Except Failure Settings := do
  if fields.any fun e => !(e.1.text?.any keys.contains) then throw .wrongKind
  let roots ← rootPaths ((Value.lookup? rootsKey fields).getD (.list []))
  let base := ofRoots cwd roots
  return { base with
    extensions := (Value.lookup? extensionsKey fields).getD base.extensions
    exclude := (Value.lookup? excludeKey fields).getD base.exclude
    encoding := (Value.lookup? encodingKey fields).getD base.encoding }

/-- The source roots of a table seen from a base directory. -/
def rootsFrom (base : Route) : Value → Except Failure (List Path)
  | .text t => .ok [(base.child t).toPath]
  | .list vs =>
      vs.mapM fun r => r.text?.elim (.error .wrongKind) fun t => .ok (base.child t).toPath
  | v => .error (.configuration (.rootsNotAList v.kind) none)

/-- Settings from a table of any keys; unknown ones are dropped, and relative source roots are seen
from the base directory. -/
def ofTable (cwd : Path) (base : Route) (table : List (Value × Value)) :
    Except Failure Settings := do
  let fields := table.filter fun e => e.1.text?.any keys.contains
  match Value.lookup? rootsKey fields with
  | none => ofFields cwd fields
  | some .null => ofFields cwd fields
  | some v =>
      let roots ← rootsFrom base v
      ofFields cwd (Value.insert (.text rootsKey) (.texts roots) fields)

/-- How deeply collections may be nested in settings that are listed, before the stack that the
program is run with is used up. -/
def nestingLimit : Nat := 493

/-- The settings as a table. Values that are nested too deeply, or without end, cannot be listed. -/
def toTable (s : Settings) : Except Failure (List (Value × Value)) :=
  if [s.extensions, s.exclude, s.encoding].all (Value.nestsWithin nestingLimit) then
    .ok [(.text rootsKey, .texts s.roots), (.text extensionsKey, s.extensions),
      (.text excludeKey, s.exclude), (.text encodingKey, s.encoding)]
  else .error .tooDeep

/-- The extensions that inference prefers, in order: those set, or the default ones when none are
present. -/
def preferredExtensions (extensions : Value) : Except Failure (List Text) :=
  if extensions.isPresent then
    match extensions.elements? with
    | none => .error .wrongKind
    | some vs => .ok (vs.filterMap Value.text?)
  else .ok defaultExtensions

/-- The texts in a value that is used as a set. -/
def textSet (v : Value) : Except Failure (List Text) :=
  match v.elements? with
  | none => .error .wrongKind
  | some vs => if vs.all Value.isKey then .ok (vs.filterMap Value.text?) else .error .wrongKind

end Settings

end DocRefs
