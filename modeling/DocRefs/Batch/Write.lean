import DocRefs.Batch.Run

/-!
# Writing results

Puts new texts on the disk: the changed ones in place, or all of them under a directory, each
at its path below the source root that it came from.
-/

namespace DocRefs

namespace Batch

/-- The path of a file below the first source root that holds it, or its last step. -/
def outputPath (roots : List Path) (p : Path) : Path :=
  (FileIdentity.belowRoots? roots p).getD (Path.basename p)

/-- Where each text goes: changed ones to their own path, or all of them under a directory. -/
def targets (roots : List Path) (result : BatchResult) : Option Path → List (Path × Path)
  | none => result.changed.map fun p => (p, p)
  | some out => result.outputs.keys.map fun p => (p, Path.join out (outputPath roots p))

/-- Writes one text; the directories above its file are made when they are missing. -/
def writeTarget (encoding : Value) (target : Path) (t : Text) : Op Disk Path := fun log d =>
  let route := Route.ofPath target
  match d.makePath route.parent with
  | (some why, d') => ⟨.error (.disk why), d', log⟩
  | (none, d') =>
      match d'.writeText encoding route.toPath t with
      | (some e, d'') => ⟨.error e, d'', log⟩
      | (none, d'') => ⟨.ok route.toPath, d'', log⟩

/-- Writes a result in place or under a directory, in the order of the paths, and returns the paths
written. -/
def write (settings : Settings) (result : BatchResult) (out : Option Path) :
    Op Disk (List Path) := do
  let ordered := (targets settings.roots result out).mergeSort fun a b => Text.le a.1 b.1
  let written ← Op.collect
    (fun e => writeTarget settings.encoding e.2 ((result.outputs.get? e.1).getD [])) ordered
  Op.log .info "typeref.runner" ("Wrote ".toList ++ Text.ofNat written.length ++ " files".toList)
  return written

end Batch

end DocRefs
