import DocRefs.Path

/-!
# Routes

A route is a path read as steps: `.` steps and doubled slashes are dropped, and `..` is kept, since
the disk decides what it leads to. Targets of writes and base directories of settings are routes.
-/

namespace DocRefs

/-- The leading slashes of a path and its steps. -/
structure Route where
  slashes : Nat
  steps : List Text
  deriving DecidableEq, Repr

namespace Route

/-- Reads a path as a route. -/
def ofPath (p : Path) : Route :=
  ⟨Path.rootSlashes p, (Text.splitOn '/' p).filter fun s => s ≠ [] ∧ s ≠ Path.here⟩

/-- Writes a route as a path; a route without slashes and steps is `.`. -/
def toPath (r : Route) : Path :=
  match List.replicate r.slashes '/' ++ Text.join ['/'] r.steps with
  | [] => Path.here
  | p => p

/-- The second route as seen from the first. -/
def append (r s : Route) : Route :=
  if s.slashes = 0 then ⟨r.slashes, r.steps ++ s.steps⟩ else s

/-- The route to a path seen from a route. -/
def child (r : Route) (p : Path) : Route := r.append (ofPath p)

/-- The route without its last step. -/
def parent (r : Route) : Route := { r with steps := r.steps.dropLast }

/-- The extension of the last step: from its last dot on, unless that dot is its first or its last
character. -/
def suffix (r : Route) : Text :=
  match r.steps.getLast? with
  | none => []
  | some name =>
      let tail := (name.reverse.takeWhile (· ≠ '.')).reverse
      match name.reverse.dropWhile (· ≠ '.') with
      | _ :: _ :: _ => if tail.isEmpty then [] else '.' :: tail
      | _ => []

end Route

end DocRefs
