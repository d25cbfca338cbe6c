import DocRefs.Text.Basic

/-!
# Paths

Lexical operations on slash-separated paths. Normalising folds `.` and `..` steps and doubled
slashes; exactly two leading slashes are kept, three or more are one. No operation looks at a disk.
-/

namespace DocRefs

/-- A path as it is written. -/
abbrev Path := Text

namespace Path

/-- The step that stands for the directory itself. -/
def here : Text := ['.']

/-- The step that stands for the parent directory. -/
def up : Text := ['.', '.']

/-- Whether a path starts at the root. -/
def isAbsolute : Path → Bool
  | '/' :: _ => true
  | _ => false

/-- The number of leading slashes that count: two exactly when the path begins with two and no
third. -/
def rootSlashes : Path → Nat
  | '/' :: '/' :: '/' :: _ => 1
  | '/' :: '/' :: _ => 2
  | '/' :: _ => 1
  | _ => 0

/-- The steps that remain, where `kept` holds those already kept, the last first. A parent step
takes back the step before it; at the root it is dropped, and at the start of a relative path it
stays. -/
def foldSteps (rooted : Bool) (kept : List Text) : List Text → List Text
  | [] => kept.reverse
  | s :: ss =>
      if s = [] ∨ s = here then foldSteps rooted kept ss
      else if s = up then
        match kept with
        | [] => foldSteps rooted (if rooted then [] else [up]) ss
        | k :: ks => foldSteps rooted (if k = up then up :: k :: ks else ks) ss
      else foldSteps rooted (s :: kept) ss

/-- The path without `.` steps, doubled slashes and steps that `..` takes back; the empty path is
the directory itself. -/
def collapse (p : Path) : Path :=
  let slashes := rootSlashes p
  let steps := foldSteps (decide (0 < slashes)) [] (Text.splitOn '/' p)
  match List.replicate slashes '/' ++ Text.join ['/'] steps with
  | [] => here
  | q => q

/-- The second path as seen from the first; an absolute one stands for itself. -/
def join (p q : Path) : Path :=
  if isAbsolute q then q
  else if p.isEmpty || p.getLast? == some '/' then p ++ q
  else p ++ '/' :: q

/-- The collapsed path from the root, where relative paths start at `cwd`. -/
def absolute (cwd p : Path) : Path := collapse (if isAbsolute p then p else join cwd p)

/-- The identity of a path: absolute and collapsed. -/
def normalize (cwd p : Path) : Path := collapse (absolute cwd p)

/-- The part up to and with the last slash, and the last step. -/
def splitLast (p : Path) : Path × Text :=
  ((p.reverse.dropWhile (· ≠ '/')).reverse, (p.reverse.takeWhile (· ≠ '/')).reverse)

theorem splitLast_append (p : Path) : (splitLast p).1 ++ (splitLast p).2 = p := by
  rw [splitLast, ← List.reverse_append, List.takeWhile_append_dropWhile, List.reverse_reverse]

/-- The directory part of a path, without trailing slashes unless it is all slashes, and the last
step. -/
def split (p : Path) : Path × Text :=
  let (head, tail) := splitLast p
  if head.all (· = '/') then (head, tail)
  else ((head.reverse.dropWhile (· = '/')).reverse, tail)

/-- The directory part of a path. -/
def dirname (p : Path) : Path := (split p).1

/-- The last step of a path. -/
def basename (p : Path) : Text := (splitLast p).2

/-- The path without its extension, and the extension with its dot. Leading dots of the last step
start no extension. -/
def splitExt (p : Path) : Path × Text :=
  let (head, name) := splitLast p
  match name.reverse.dropWhile (· ≠ '.') with
  | [] => (p, [])
  | _ :: stem =>
      if stem.all (· = '.') then (p, [])
      else (head ++ stem.reverse, '.' :: (name.reverse.takeWhile (· ≠ '.')).reverse)

/-- The extension of a path, empty if it has none. -/
def extension (p : Path) : Text := (splitExt p).2

/-- The path without its extension. -/
def stem (p : Path) : Path := (splitExt p).1

/-- A root with the slash that every path beneath it has. -/
def rootWithSlash (root : Path) : Path :=
  if root.getLast? == some '/' then root else root ++ ['/']

/-- What remains of `p` below `root`, when it lies beneath it. -/
def below? (root p : Path) : Option Path := Text.after? (rootWithSlash root) p

end Path

end DocRefs
