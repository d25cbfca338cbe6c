import DocRefs.Batch.Discover
import DocRefs.Session.Passes

/-!
# Batch runs

Both phases over a set of files. The first takes in every file and replaces import references, the
second qualifies type names in every doc comment of the texts that the first one leaves.
-/

namespace DocRefs

/-- What a run reports about a module. -/
structure ModuleSummary where
  /-- The files of the module, sorted. -/
  files : List Path
  /-- The type names of the module, sorted. -/
  typeNames : List Text
  deriving DecidableEq, Repr

/-- The outcome of a run. -/
structure BatchResult where
  /-- The texts as read, by path. -/
  sources : OrderedMap Path Text
  /-- The new texts, by path. -/
  outputs : OrderedMap Path Text
  /-- The modules by id, sorted. -/
  modules : List (Text × ModuleSummary)
  statistics : Statistics
  deriving DecidableEq, Repr

/-- The modules that a session has met, by id: their files and type names. -/
def Session.modules (s : Session) : List (Text × ModuleSummary) :=
  let infos := s.cache.map (·.2)
  let ids := Text.sortedSet ((infos.map FileIdentity.moduleId).filter (!·.isEmpty))
  ids.map fun id =>
    (id, ⟨Text.sort ((infos.filter fun i => i.moduleId = id).map FileIdentity.path),
      (s.index.names? id).getD []⟩)

namespace BatchResult

/-- The paths whose text was changed, in order. -/
def changed (r : BatchResult) : List Path :=
  (r.outputs.filter fun e => r.sources.get? e.1 != some e.2).map (·.1)

end BatchResult

namespace Batch

/-- A file after the first phase. -/
structure Staged where
  path : Path
  source : Text
  text : Text

/-- Reads a file, takes it in and replaces its import references. -/
def stage (scope : Scope) (view : View) (p : Path) : Op Session Staged := do
  let disk ← Op.see view
  let source ← Op.ofExcept (disk.readText scope.encoding p)
  let text ← Session.takeIn scope view p source
  return ⟨p, source, text⟩

/-- The replacement of one comment, if it changes. -/
def commentReplacement? (scope : Scope) (p : Path) (c : DocComment) :
    Op Session (Option Replacement) := do
  let qualified ← Session.qualifyComment scope p c.text
  return if qualified = c.text then none else some ⟨c.start, c.stop, qualified⟩

/-- Qualifies the type names in every doc comment of a text. -/
def qualifyComments (scope : Scope) (p : Path) (t : Text) : Op Session Text := do
  let found ← Op.collect (commentReplacement? scope p) (DocComment.scan t)
  return Replacement.splice t (found.filterMap id)

/-- Both phases over a list of files: the texts as read and the new ones. -/
def phases (scope : Scope) (view : View) (paths : List Path) :
    Op Session (OrderedMap Path Text × OrderedMap Path Text) := do
  let staged ← Op.collect (stage scope view) paths
  let texts := OrderedMap.ofPairs (staged.map fun f => (f.path, f.text))
  let outputs ← Op.collect (fun p => do
    let t ← qualifyComments scope p ((texts.get? p).getD [])
    return (p, t)) paths
  return (OrderedMap.ofPairs (staged.map fun f => (f.path, f.source)),
    OrderedMap.ofPairs outputs)

/-- Runs over the given files, or over all discovered sources. -/
def run (view : View) (settings : Settings) (files? : Option (List Path)) : Logged BatchResult := do
  let files ← files?.elim (discover view settings) pure
  let disk ← Op.see view
  let scope ← Op.ofExcept (Scope.ofSettings disk.cwdPath settings)
  let ((sources, outputs), session) ←
    (phases scope view (files.map scope.normalize)).within .fresh
  Op.log .info "typeref.runner" <|
    "Rewrite complete: ".toList ++ session.statistics.toValue.quoted
  return ⟨sources, outputs, session.modules, session.statistics⟩

end Batch

end DocRefs
