import DocRefs.Text.Basic
import DocRefs.Text.Alphanumeric

/-!
# Identifiers in comments

Identifier characters, the wider class of module names and import specifiers, and the longest
dotted identifier at the start of a text.
-/

namespace DocRefs

/-- Letters and numerals of any script, the underscore and the dollar sign. -/
def isIdentifierChar (c : Char) : Bool := Text.isAlphanumeric c || c = '_' || c = '$'

/-- The characters of an explicit module name and of an import specifier. -/
def isNameChar (c : Char) : Bool :=
  isIdentifierChar c || c = '$' || c = '/' || c = '.' || c = '-' || c = '@'

theorem isNameChar_of_isIdentifierChar {c : Char} (h : isIdentifierChar c = true) :
    isNameChar c = true := by
  simp [isNameChar, h]

/-- Inside a dotted identifier: the part that still belongs to it, and the rest. A dot belongs to it
only when an identifier character follows. -/
def dottedTail : Text → Text × Text
  | [] => ([], [])
  | c :: cs =>
      if isIdentifierChar c then
        let p := dottedTail cs
        (c :: p.1, p.2)
      else if c = '.' then
        match cs with
        | [] => ([], ['.'])
        | d :: ds =>
            if isIdentifierChar d then
              let p := dottedTail ds
              ('.' :: d :: p.1, p.2)
            else ([], '.' :: d :: ds)
      else ([], c :: cs)

/-- The longest dotted identifier at the start of a text, empty if there is none, and the rest. -/
def dotted : Text → Text × Text
  | [] => ([], [])
  | c :: cs =>
      if isIdentifierChar c then
        let p := dottedTail cs
        (c :: p.1, p.2)
      else ([], c :: cs)

theorem dottedTail_append (t : Text) : (dottedTail t).1 ++ (dottedTail t).2 = t := by
  fun_induction dottedTail t <;> simp_all +zetaDelta

/-- Nothing is lost: the identifier and the rest are the text. -/
theorem dotted_append (t : Text) : (dotted t).1 ++ (dotted t).2 = t := by
  cases t with
  | nil => rfl
  | cons c cs => by_cases h : isIdentifierChar c <;> simp [dotted, h, dottedTail_append]

theorem length_dotted (t : Text) : (dotted t).1.length + (dotted t).2.length = t.length := by
  simpa using congrArg List.length (dotted_append t)

theorem length_dotted_lt {c : Char} {cs : Text} (h : isIdentifierChar c = true) :
    (dotted (c :: cs)).2.length < (c :: cs).length := by
  rw [← length_dotted (c :: cs)]
  simp [dotted, h]

/-- The identifier is empty exactly when the text does not begin with an identifier character. -/
theorem dotted_fst_eq_nil_iff (t : Text) :
    (dotted t).1 = [] ↔ t.head?.all (fun c => !isIdentifierChar c) = true := by
  cases t with
  | nil => simp [dotted]
  | cons c cs => by_cases h : isIdentifierChar c <;> simp [dotted, h]

end DocRefs
