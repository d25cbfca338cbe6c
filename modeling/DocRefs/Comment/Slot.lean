import DocRefs.Comment.Identifier
import DocRefs.Text.Digit

/-!
# Type slots

A slot is the text between a `{` and the next `}`. Inside a slot the bare identifiers are the
dotted words that no quotation, qualifier or object key claims.
-/

namespace DocRefs

/-- A slot: its span between the braces, and the text there. -/
structure TypeSlot where
  start : Nat
  stop : Nat
  body : Text
  deriving DecidableEq, Repr

namespace TypeSlot

/-- The slots of a text that stands at `offset`; an opening brace that is never closed ends the
search. -/
def scanFrom (offset : Nat) : Text → List TypeSlot
  | [] => []
  | c :: cs =>
      if c = '{' then
        match h : Text.cut? ['}'] cs with
        | none => []
        | some (body, rest) =>
            have : rest.length < cs.length := Text.length_lt_of_cut? h
            ⟨offset + 1, offset + 1 + body.length, body⟩ ::
              scanFrom (offset + body.length + 2) rest
      else scanFrom (offset + 1) cs
termination_by t => t.length
decreasing_by all_goals (simp only [List.length_cons] at *; omega)

/-- The slots of a comment, from left to right and without overlap. -/
def scan (comment : Text) : List TypeSlot := scanFrom 0 comment

end TypeSlot

/-- A bare identifier of a type expression and its span. -/
structure TypeWord where
  start : Nat
  stop : Nat
  token : Text
  deriving DecidableEq, Repr

namespace TypeWord

/-- Whether a character opens and closes a quotation. -/
def isQuote (c : Char) : Bool := c = '\x27' || c = '\x22' || c = '\x60'

/-- Whether a character in front makes a word part of a larger reference. -/
def isQualifier (c : Char) : Bool :=
  c = ':' || c = '~' || c = '/' || c = '.' || c = '#' || c = '@' || c = '-'

/-- Whether a word is bare: `before` holds the characters in front of it, the nearest first, and
`rest` what follows. A spread `...` in front does not qualify a word. -/
def isBare (before : Text) (first : Char) (rest : Text) : Bool :=
  !Text.isDigit first
    && (!before.head?.any isQualifier || Text.startsWith before ['.', '.', '.'])
    && rest.head? != some ':'

/-- The bare identifiers of a text that stands at `offset`, where `before` holds the characters
already read, the nearest first. -/
def scanFrom (before : Text) (offset : Nat) : Text → List TypeWord
  | [] => []
  | c :: cs =>
      if isQuote c then
        match h : Text.cut? [c] cs with
        | none => []
        | some (quoted, rest) =>
            have : rest.length < cs.length := Text.length_lt_of_cut? h
            scanFrom (c :: (quoted.reverse ++ c :: before)) (offset + quoted.length + 2) rest
      else if hc : isIdentifierChar c then
        let p := dotted (c :: cs)
        have : p.2.length < (c :: cs).length := length_dotted_lt hc
        let stop := offset + p.1.length
        let more := scanFrom (p.1.reverse ++ before) stop p.2
        if isBare before c p.2 then ⟨offset, stop, p.1⟩ :: more else more
      else scanFrom (c :: before) (offset + 1) cs
termination_by t => t.length
decreasing_by all_goals (simp only [List.length_cons] at *; omega)

/-- The bare identifiers of a type expression, in order. -/
def scan (slot : Text) : List TypeWord := scanFrom [] 0 slot

end TypeWord

end DocRefs
