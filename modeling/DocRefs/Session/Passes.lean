import DocRefs.Comment.Import
import DocRefs.Comment.Slot
import DocRefs.Session.Resolve
import DocRefs.Splice

/-!
# Passes over comments

Two passes over doc comments. The first takes a file in and links its import references, that is,
replaces them by module references; the second qualifies bare type names in the slots of one comment
with the module of the comment's file. Text outside doc comments is never touched.
-/

namespace DocRefs

/-- The word that opens a module reference. -/
def moduleMark : Text := ['m', 'o', 'd', 'u', 'l', 'e', ':']

/-- The reference to a module, or to a symbol of a module. -/
def moduleReference (id : Text) (symbol : Option Text) : Text :=
  match symbol with
  | none => moduleMark ++ id
  | some [] => moduleMark ++ id
  | some name => moduleMark ++ id ++ '~' :: name

/-- What an import reference becomes when its specifier has the module id `id`: without an id the
symbol alone, and nothing without either. -/
def ImportRef.substitute? (ref : ImportRef) (id : Text) : Option Text :=
  if id.isEmpty then ref.symbol.map (ref.marker.toList ++ ·)
  else some (ref.marker.toList ++ moduleReference id ref.symbol)

/-- The replacements that qualify the bare words of a comment that are among `names`. -/
def qualifications (id : Text) (names : List Text) (comment : Text) : List Replacement :=
  (TypeSlot.scan comment).flatMap fun slot =>
    ((TypeWord.scan slot.body).filter fun word => names.contains word.token).map fun word =>
      ⟨slot.start + word.start, slot.start + word.stop, moduleReference id (some word.token)⟩

/-- The import references in the doc comments of a text, with the offset of their comment. -/
def commentRefs (t : Text) : List (Nat × ImportRef) :=
  (DocComment.scan t).flatMap fun c => (ImportRef.scan c.text).map fun ref => (c.start, ref)

namespace Session

/-- The replacement of an import reference whose comment starts at `base`. -/
def substitution? (scope : Scope) (view : View) (filename : Path) (base : Nat) (ref : ImportRef) :
    Op Session (Option Replacement) := do
  let id ← resolve scope view filename ref.specifier
  return (ref.substitute? id).map fun t => ⟨base + ref.start, base + ref.stop, t⟩

/-- Replaces the import references in the doc comments of a text without taking the text in. -/
def linkImports (scope : Scope) (view : View) (filename : Path) (t : Text) :
    Op Session Text := do
  let found ← Op.collect (fun r => substitution? scope view filename r.1 r.2) (commentRefs t)
  let replacements := found.filterMap id
  if replacements.isEmpty then return t
  Op.modify fun s => { s with
    linkedReferences := s.linkedReferences + replacements.length }
  Op.log .debug "typeref.rewriter" <|
    "Rewrote ".toList ++ Text.ofNat replacements.length ++ " import references in ".toList
      ++ filename
  return Replacement.splice t replacements

/-- Takes a file in and replaces the import references in its doc comments. -/
def takeIn (scope : Scope) (view : View) (filename : Path) (t : Text) : Op Session Text := do
  requireIngest (some filename)
  let _ ← identity scope view filename (some t)
  linkImports scope view filename t

/-- Qualifies the bare type names in the slots of one comment of a file that was taken in. -/
def qualifyComment (scope : Scope) (filename : Path) (comment : Text) : Op Session Text := do
  let s ← Op.get
  match s.cached? scope filename with
  | none => Op.fail (.unknownFile filename s.phase)
  | some info =>
      beginQualify
      if info.moduleId.isEmpty then return comment
      let replacements :=
        qualifications info.moduleId ((s.index.names? info.moduleId).getD []) comment
      if replacements.isEmpty then return comment
      Op.modify fun s => { s with
        qualifiedIdentifiers := s.qualifiedIdentifiers + replacements.length }
      return Replacement.splice comment replacements

end Session

end DocRefs
