import DocRefs.Comment.Identifier

/-!
# Import references

The type reference `import('path').Symbol`, with an optional `!` or `?` before it. Anything that
does not have exactly this shape is no reference.
-/

namespace DocRefs

/-- An import reference and its span. -/
structure ImportRef where
  start : Nat
  stop : Nat
  /-- The nullability marker in front, if any. -/
  marker : Option Char
  /-- The path, a relative one without its `.js`. -/
  specifier : Text
  symbol : Option Text
  text : Text
  deriving DecidableEq, Repr

namespace ImportRef

/-- The seven characters that open a reference. -/
def opening : Text := ['i', 'm', 'p', 'o', 'r', 't', '(']

/-- The suffix that a relative specifier loses. -/
def scriptSuffix : Text := ['.', 'j', 's']

/-- Whether a character quotes a specifier. -/
def isQuote (c : Char) : Bool := c = '\x27' || c = '\x22'

/-- Whether a character is a nullability marker. -/
def isMarker (c : Char) : Bool := c = '!' || c = '?'

/-- A relative specifier loses one trailing `.js` unless nothing else is left; a package name such
as `highlight.js` stays whole. -/
def withoutSuffix (raw : Text) : Text :=
  if Text.startsWith raw ['.'] && Text.endsWith raw scriptSuffix
      && decide (raw.length > scriptSuffix.length) then
    raw.take (raw.length - scriptSuffix.length)
  else raw

/-- What stands after the opening: a quoted specifier, a closing parenthesis and maybe a symbol. -/
structure Body where
  /-- The specifier as written. -/
  raw : Text
  symbol : Option Text
  /-- The characters read. -/
  text : Text
  rest : Text

/-- The symbol behind a closed reference: a dot and the longest dotted identifier. -/
def readSymbol : Text → Option Text × Text
  | '.' :: t =>
      let p := dotted t
      if p.1.isEmpty then (none, '.' :: t) else (some p.1, p.2)
  | t => (none, t)

/-- Reads what follows the opening. -/
def readBody? : Text → Option Body
  | [] => none
  | q :: t =>
      if isQuote q then
        let raw := t.takeWhile isNameChar
        match t.dropWhile isNameChar with
        | q' :: ')' :: rest =>
            if q' = q ∧ raw ≠ [] then
              let s := readSymbol rest
              let written := q :: (raw ++ [q, ')'])
              some ⟨raw, s.1, written ++ (s.1.elim [] ('.' :: ·)), s.2⟩
            else none
        | _ => none
      else none

theorem length_readSymbol (t : Text) : (readSymbol t).2.length ≤ t.length := by
  unfold readSymbol
  split
  · dsimp only
    split
    · simp
    · have := length_dotted ‹Text›
      simp
      omega
  · simp

theorem length_readBody? {t : Text} {b : Body} (h : readBody? t = some b) :
    b.rest.length < t.length := by
  unfold readBody? at h
  split at h
  · simp at h
  next q t =>
    split at h
    · dsimp only at h
      split at h
      next q' rest hrest =>
        split at h
        · have h1 := length_readSymbol rest
          have h2 : (t.dropWhile isNameChar).length ≤ t.length :=
            (List.dropWhile_suffix _).length_le
          rw [hrest] at h2
          simp only [Option.some.injEq] at h
          subst h
          simp at h2 ⊢
          omega
        · simp at h
      · simp at h
    · simp at h

/-- The references of a text that stands at `offset` behind the character `before`. An opening
behind an identifier character is the end of another word. -/
def scanFrom (before : Option Char) (offset : Nat) : Text → List ImportRef
  | [] => []
  | c :: cs =>
      match h : Text.after? opening (c :: cs) with
      | none => scanFrom (some c) (offset + 1) cs
      | some t =>
          have ht : t.length < (c :: cs).length := Text.length_lt_of_after? h
          if before.any isIdentifierChar then scanFrom (some '(') (offset + opening.length) t
          else
            match hb : readBody? t with
            | none => scanFrom (some '(') (offset + opening.length) t
            | some b =>
                have : b.rest.length < (c :: cs).length := Nat.lt_trans (length_readBody? hb) ht
                let marker := before.filter isMarker
                let stop := offset + opening.length + b.text.length
                ⟨offset - marker.toList.length, stop, marker, withoutSuffix b.raw, b.symbol,
                    marker.toList ++ opening ++ b.text⟩ ::
                  scanFrom b.text.getLast? stop b.rest
termination_by t => t.length
decreasing_by all_goals (simp only [List.length_cons] at *; omega)

/-- The import references of a text, in order. -/
def scan (t : Text) : List ImportRef := scanFrom none 0 t

end ImportRef

end DocRefs
