import DocRefs.Disk.Texts
import DocRefs.FileIdentity
import DocRefs.OrderedMap
import DocRefs.Settings
import DocRefs.TypeIndex

/-!
# Sessions

A session holds what one run has learned: the identity of every file met, the type index, the
resolved import paths, the phase, and two counters. Files enter the cache once and are never looked
at again before a reset.
-/

namespace DocRefs

/-- What stays fixed for a session. -/
structure Scope where
  /-- The working directory. -/
  cwd : Path
  /-- The source roots, absolute and collapsed. -/
  roots : List Path
  /-- The name of the sources' encoding. -/
  encoding : Value
  /-- The extensions that inference prefers, in order. -/
  extensions : List Text

/-- The scope that settings give. -/
def Scope.ofSettings (cwd : Path) (s : Settings) : Except Failure Scope := do
  let extensions ← Settings.preferredExtensions s.extensions
  return ⟨cwd, s.roots.map (Path.normalize cwd), s.encoding, extensions⟩

/-- The identity of a path: absolute and collapsed. -/
def Scope.normalize (scope : Scope) (p : Path) : Path := Path.normalize scope.cwd p

/-- What a run has learned so far. -/
structure Session where
  phase : Phase
  /-- The identity of every file met, by its absolute, collapsed path. -/
  cache : OrderedMap Path FileIdentity
  index : TypeIndex
  /-- The path that an importer and a specifier resolved to. -/
  memo : OrderedMap Text Path
  linkedReferences : Nat
  qualifiedIdentifiers : Nat
  deriving Repr

/-- The numbers that describe a session. -/
structure Statistics where
  files : Nat
  modules : Nat
  typeNames : Nat
  linkedReferences : Nat
  qualifiedIdentifiers : Nat
  deriving DecidableEq, Repr

/-- The statistics as a table. -/
def Statistics.toValue (s : Statistics) : Value :=
  Report.table [("files", .int s.files), ("modules", .int s.modules),
    ("typedefs", .int s.typeNames),
    ("rewritten_references", .int s.linkedReferences),
    ("qualified_identifiers", .int s.qualifiedIdentifiers)]

namespace Session

/-- The session that has learned nothing. -/
def fresh : Session := ⟨.ingest, [], .empty, [], 0, 0⟩

/-- The numbers that describe a session. -/
def statistics (s : Session) : Statistics :=
  ⟨s.cache.length, s.index.size, s.index.nameCount, s.linkedReferences, s.qualifiedIdentifiers⟩

/-- The identity of a file that was met, by any spelling of its path. -/
def cached? (scope : Scope) (filename : Path) (s : Session) : Option FileIdentity :=
  s.cache.get? (scope.normalize filename)

/-- Forgets everything. -/
def reset : Op Session Unit := Op.modify fun _ => fresh

/-- Forgets the files met, and nothing else. -/
def forgetFiles : Op Session Unit := Op.modify fun s => { s with cache := [] }

/-- Fails unless files may still be taken in. -/
def requireIngest (filename : Option Path) : Op Session Unit := do
  let s ← Op.get
  if s.phase = .ingest then return () else Op.fail (.ingestTooLate filename s.phase)

/-- Closes the phase in which files are taken in. -/
def beginQualify : Op Session Unit := do
  let s ← Op.get
  if s.phase = .ingest then
    Op.log .info "typeref.context" <|
      "Ingest complete: ".toList ++ Text.ofNat s.cache.length ++ " files, ".toList
        ++ Text.ofNat s.index.size ++ " modules".toList
    Op.modify fun s => { s with phase := .qualify }
  else return ()

/-- The text of a file for scanning: a file that is missing or cannot be decoded counts as empty. -/
def sourceText (scope : Scope) (view : View) (p : Path) : Op Session Text := do
  let disk ← Op.see view
  if disk.isFile p then
    match disk.readText scope.encoding p with
    | .ok t => return t
    | .error .undecodable =>
        Op.log .warning "typeref.file_info_cache" <|
          "Cannot decode ".toList ++ p ++ " as ".toList ++ scope.encoding.shown
            ++ ", treating as empty".toList
        return []
    | .error e => Op.fail e
  else
    Op.log .debug "typeref.file_info_cache" (p ++ " does not exist, treating as empty".toList)
    return []

/-- The identity of a file. On the first request it is computed, from the given source if there is
one, and its type names are added to the index. -/
def identity (scope : Scope) (view : View) (filename : Path) (source : Option Text) :
    Op Session FileIdentity := do
  let p := scope.normalize filename
  let s ← Op.get
  match s.cache.get? p with
  | some info => return info
  | none =>
      let t ← source.elim (sourceText scope view p) pure
      let info ← Op.ofExcept (FileIdentity.ofText scope.roots p t)
      Op.modify fun s => { s with
        index := s.index.record info.moduleId info.typeNames
        cache := s.cache.put p info }
      Op.log .debug "typeref.file_info_cache" <|
        "Resolved ".toList ++ p ++ " -> module '".toList ++ info.moduleId ++ "' (".toList
          ++ Text.ofNat info.typeNames.length ++ " typedefs)".toList
      return info

end Session

end DocRefs
