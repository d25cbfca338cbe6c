import DocRefs.Comment.Identifier
import DocRefs.Text.Blank

/-!
# Tags

Standalone `@tag` words and what two of them declare: `@module` names the module of a file, and
`@typedef` declares a type name after a balanced brace group.
-/

namespace DocRefs

/-- A tag: the offset just past it and the text from there on. -/
structure Tag where
  stop : Nat
  rest : Text
  deriving DecidableEq, Repr

namespace Tag

/-- The tags named `word` in a text that stands at `offset` behind the character `before`. A tag is
standalone: no identifier character touches it on either side. -/
def scanFrom (word : Text) (before : Option Char) (offset : Nat) : Text → List Tag
  | [] => []
  | c :: cs =>
      match h : Text.after? ('@' :: word) (c :: cs) with
      | none => scanFrom word (some c) (offset + 1) cs
      | some rest =>
          have : rest.length < (c :: cs).length := Text.length_lt_of_after? h
          let stop := offset + word.length + 1
          let more := scanFrom word ('@' :: word).getLast? stop rest
          if before.any isIdentifierChar || rest.head?.any isIdentifierChar then more
          else ⟨stop, rest⟩ :: more
termination_by t => t.length
decreasing_by all_goals (simp only [List.length_cons] at *; omega)

/-- The standalone tags named `word`, in order. -/
def scan (word : Text) (t : Text) : List Tag := scanFrom word none 0 t

end Tag

/-- The text up to the brace that brings the count of open braces back to zero, counted from
`depth`, and the rest. -/
def braceGroup? (depth : Int) : Text → Option (Text × Text)
  | [] => none
  | c :: cs =>
      let depth' := if c = '{' then depth + 1 else if c = '}' then depth - 1 else depth
      if c = '}' ∧ depth' = 0 then some (['}'], cs)
      else (braceGroup? depth' cs).map fun p => (c :: p.1, p.2)

/-- The offset of the brace that balances the braces opened from `start` on. -/
def closingBrace? (t : Text) (start : Nat) : Option Nat :=
  (braceGroup? 0 (t.drop start)).map fun p => start + p.1.length - 1

/-- The name of the tag that gives a file its module. -/
def moduleWord : Text := ['m', 'o', 'd', 'u', 'l', 'e']

/-- The name of the tag that declares a type. -/
def typedefWord : Text := ['t', 'y', 'p', 'e', 'd', 'e', 'f']

/-- The name written after a module tag: blanks, an optional brace group with blanks, then the
longest run of name characters. -/
def moduleArgument (rest : Text) : Text :=
  let t := rest.dropWhile Text.isSpaceOrTab
  let t :=
    match t with
    | '{' :: _ =>
        match braceGroup? 0 t with
        | some (_, after) => after.dropWhile Text.isSpaceOrTab
        | none => t
    | _ => t
  t.takeWhile isNameChar

/-- The argument of the first module tag of a comment: none without a tag, empty for a tag without
an argument. -/
def moduleTag? (comment : Text) : Option Text :=
  (Tag.scan moduleWord comment).head?.map fun tag => moduleArgument tag.rest

/-- The name that a type declaration gives: white space, a balanced brace group, white space, and
the longest dotted identifier. -/
def declaredType? (rest : Text) : Option Text :=
  match rest.dropWhile Text.isBlank with
  | '{' :: t =>
      match braceGroup? 0 ('{' :: t) with
      | none => none
      | some (_, after) =>
          let name := (dotted (after.dropWhile Text.isBlank)).1
          if name.isEmpty then none else some name
  | _ => none

/-- The type names that a comment declares, in order. -/
def declaredTypes (comment : Text) : List Text :=
  (Tag.scan typedefWord comment).filterMap fun tag => declaredType? tag.rest

end DocRefs
