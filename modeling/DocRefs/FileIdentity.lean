import DocRefs.Comment.Block
import DocRefs.Comment.Tag
import DocRefs.Failure

/-!
# File identities

What a source file declares: the id of its module and the type names in its doc comments. The first
module tag decides the id; a tag without a name means the path below the first source root that the
file lies under.
-/

namespace DocRefs

/-- The identity of a source file. -/
structure FileIdentity where
  /-- The absolute, collapsed path. -/
  path : Path
  /-- The module id, empty for a file without a module. -/
  moduleId : Text
  /-- The declared type names in the order of the text, repetitions kept. -/
  typeNames : List Text
  hasModuleTag : Bool
  deriving DecidableEq, Repr

namespace FileIdentity

/-- The part of `p` below the first root that it lies under. -/
def belowRoots? (roots : List Path) (p : Path) : Option Path :=
  roots.findSome? fun root => Path.below? root p

/-- The module id that a path gives: the path below its source root without the extension. -/
def derivedId (roots : List Path) (p : Path) : Except Failure Text :=
  match belowRoots? roots (Path.stem p) with
  | some id => .ok id
  | none => .error (.outsideRoots p roots)

/-- The argument of the first module tag in a list of comments. -/
def firstModuleTag? (comments : List DocComment) : Option Text :=
  comments.findSome? fun c => moduleTag? c.text

/-- The identity of the file at a path with a text. -/
def ofText (roots : List Path) (p : Path) (t : Text) : Except Failure FileIdentity := do
  let comments := DocComment.scan t
  let tag? := firstModuleTag? comments
  let id ←
    match tag? with
    | none => pure []
    | some [] => derivedId roots p
    | some name => pure name
  return ⟨p, id, comments.flatMap fun c => declaredTypes c.text, tag?.isSome⟩

end FileIdentity

end DocRefs
