import DocRefs.Disk
import DocRefs.Op
import DocRefs.Settings

/-!
# Discovering sources

The source files under the source roots: every root that is a file, and below every root that is a
directory the files with one of the extensions, except in directories with an excluded name.
-/

namespace DocRefs

/-- The files below a directory with one of the extensions, as the names that lead to them.
Directories with an excluded name are not entered. -/
def Dir.sources (extensions exclude : List Text) : Dir → List (List Text)
  | empty => []
  | file n _ rest =>
      if extensions.contains (Path.extension n) then [n] :: rest.sources extensions exclude
      else rest.sources extensions exclude
  | sub n entries rest =>
      if exclude.contains n then rest.sources extensions exclude
      else (entries.sources extensions exclude).map (n :: ·) ++ rest.sources extensions exclude

namespace Batch

/-- The files to be found below a root that is a directory. A directory whose path is too long to be
looked up is passed over. -/
def filesBelow (extensions exclude : List Text) (root : Path) (entries : Dir) : List Path :=
  let files := (entries.sources extensions exclude).map fun names =>
    Path.join root (Text.join ['/'] names)
  files.filter fun p => Disk.fits (Path.dirname p)

/-- The sources that one root contributes. -/
def rootSources (view : View) (extensions exclude : List Text) (root : Path) :
    Logged (List Path) := do
  let disk ← Op.see view
  match disk.entry? root with
  | some (.file _) => return [disk.normalize root]
  | some (.dir entries) => return (filesBelow extensions exclude root entries).map disk.normalize
  | none =>
      Op.log .warning "typeref.runner" ("Source root does not exist: ".toList ++ root)
      return []

/-- The source files under the roots, sorted and without repetition. -/
def discover (view : View) (settings : Settings) : Logged (List Path) := do
  let extensions ← Op.ofExcept (Settings.textSet settings.extensions)
  let exclude ← Op.ofExcept (Settings.textSet settings.exclude)
  let found ← Op.collect (rootSources view extensions exclude) settings.roots
  let sources := Text.sortedSet found.flatten
  Op.log .info "typeref.runner" <|
    "Discovered ".toList ++ Text.ofNat sources.length ++ " source files".toList
  return sources

end Batch

end DocRefs
