import DocRefs.Yaml.Token

/-!
# Scalars of YAML

How the lexer reads the four kinds of scalars: plain ones, the two quoted ones, and blocks. Line
endings inside a scalar are folded as its kind demands.
-/

namespace DocRefs

namespace Yaml

namespace Lex

/-- Whether the line ahead begins or ends a document. -/
def atDocumentMark : Lex Bool := do
  let t := (← rest).take 3
  return (t = ['-', '-', '-'] || t = ['.', '.', '.']) && endsToken (← peek 3)

/-! ### Plain scalars -/

/-- The part of a plain scalar up to white space or an indicator that ends it. -/
def plainRun (inBlock : Bool) : Text → Text
  | [] => []
  | c :: cs =>
      if endsToken (some c) then []
      else if c = ':' && (endsToken cs.head?
          || (!inBlock && cs.head?.any fun d => [',', '[', ']', '{', '}'].contains d)) then []
      else if !inBlock && [',', '?', '[', ']', '{', '}'].contains c then []
      else c :: plainRun inBlock cs

/-- The line endings and leading spaces that follow the first line ending of a plain scalar; none
when a document mark follows. -/
def plainBreaks : Nat → Lex (Option Text)
  | 0 => return some []
  | fuel + 1 => do
      let _ ← takeWhile (· = ' ')
      let b ← lineBreak
      if b.isEmpty then return some []
      if ← atDocumentMark then return none
      return (← plainBreaks fuel).map (b ++ ·)

/-- The white space between two parts of a plain scalar as it counts in the scalar; empty when the
scalar ends. -/
def plainSpaces (fuel : Nat) : Lex Text := do
  let spaces ← takeWhile (· = ' ')
  let b ← lineBreak
  if b.isEmpty then return spaces
  allowKey true
  if ← atDocumentMark then return []
  match ← plainBreaks fuel with
  | none => return []
  | some breaks =>
      if b != ['\n'] then return b ++ breaks
      else if breaks.isEmpty then return [' ']
      else return breaks

/-- The parts of a plain scalar, where `gap` stands before the first. -/
def plainParts (indent : Int) (gap : Text) : Nat → Lex Text
  | 0 => return []
  | fuel + 1 => do
      let block ← inBlock
      let part := plainRun block (← rest)
      if part.isEmpty then return []
      allowKey false
      skip part.length
      let spaces ← plainSpaces fuel
      if spaces.isEmpty || (← peek 0) == some '#' || (block && decide ((← column) < indent)) then
        return gap ++ part
      return gap ++ part ++ (← plainParts indent spaces fuel)

/-- Reads a plain scalar. -/
def plainScalar : Lex Text := do
  let s ← get
  plainParts (s.indent + 1) [] (s.cursor.rest.length + 1)

/-! ### Quoted scalars -/

/-- The characters of the one-letter escapes. -/
def escapes : List (Char × Char) := [
  ('0', '\x00'), ('a', '\x07'), ('b', '\x08'), ('t', '\x09'), ('\t', '\x09'), ('n', '\x0A'),
  ('v', '\x0B'), ('f', '\x0C'), ('r', '\x0D'), ('e', '\x1B'), (' ', ' '), ('\x22', '\x22'),
  ('\\', '\\'), ('/', '/'), ('N', '\u0085'), ('_', '\u00A0'), ('L', '\u2028'), ('P', '\u2029')]

/-- The number of digits after the letter of a numeric escape. -/
def escapeWidths : List (Char × Nat) := [('x', 2), ('u', 4), ('U', 8)]

/-- The character with a code; a surrogate is the replacement character. Codes beyond those of
characters are refused, and those beyond 31 binary digits are too great even for that. -/
def charOfCode (n : Nat) : Except Misread Char :=
  if 0x80000000 ≤ n then throw (.failed .tooGreat)
  else if 0x110000 ≤ n then throw (.failed .badValue)
  else if 0xD800 ≤ n ∧ n < 0xE000 then return '\uFFFD'
  else return Char.ofNat n

/-- The line endings inside a quoted scalar after its first one. -/
def quotedBreaks : Nat → Lex Text
  | 0 => return []
  | fuel + 1 => do
      if ← atDocumentMark then fail
      let _ ← takeWhile fun c => c = ' ' || c = '\t'
      let b ← lineBreak
      if b.isEmpty then return []
      return b ++ (← quotedBreaks fuel)

/-- The white space inside a quoted scalar as it counts in the scalar. -/
def quotedSpaces (fuel : Nat) : Lex Text := do
  let spaces ← takeWhile fun c => c = ' ' || c = '\t'
  if (← peek 0).isNone then fail
  let b ← lineBreak
  if b.isEmpty then return spaces
  let breaks ← quotedBreaks fuel
  if b != ['\n'] then return b ++ breaks
  else if breaks.isEmpty then return [' ']
  else return breaks

/-- An escape after its backslash. -/
def escape (fuel : Nat) : Lex Text := do
  let some c ← peek 0 | fail
  match escapes.lookup c, escapeWidths.lookup c with
  | some d, _ =>
      skip 1
      return [d]
  | none, some width =>
      skip 1
      let digits := (← rest).take width
      if digits.length < width || !digits.all fun d => (Text.hexValue? d).isSome then fail
      skip width
      let code := digits.foldl (fun n d => n * 16 + (Text.hexValue? d).getD 0) 0
      return [← charOfCode code]
  | none, none =>
      if isBreak c then
        let _ ← lineBreak
        quotedBreaks fuel
      else fail

/-- The characters of a quoted scalar up to its closing quote. -/
def quotedParts (double : Bool) : Nat → Lex Text
  | 0 => fail
  | fuel + 1 => do
      let run ← takeWhile fun c => c != '\x27' && c != '\x22' && c != '\\' && !endsToken (some c)
      match ← peek 0, ← peek 1 with
      | none, _ => fail
      | some c, next =>
          let part ←
            if !double && c = '\x27' && next == some '\x27' then do
              skip 2
              pure (some ['\x27'])
            else if c = (if double then '\x22' else '\x27') then do
              skip 1
              pure none
            else if double && c = '\\' then do
              skip 1
              pure (some (← escape fuel))
            else if c = '\x27' || c = '\x22' || c = '\\' then do
              skip 1
              pure (some [c])
            else pure (some (← quotedSpaces fuel))
          match part with
          | none => return run
          | some t => return run ++ t ++ (← quotedParts double fuel)

/-- Reads a quoted scalar. -/
def quotedScalar (double : Bool) : Lex Text := do
  skip 1
  quotedParts double ((← rest).length + 1)

/-! ### Block scalars -/

/-- What becomes of the line endings at the end of a block scalar. -/
inductive Chomp
  | strip
  | clip
  | keep
  deriving DecidableEq

/-- The sign of a block scalar's header. -/
def chompSign : Lex (Option Chomp) := do
  match ← peek 0 with
  | some '+' => skip 1; return some .keep
  | some '-' => skip 1; return some .strip
  | _ => return none

/-- The digit of a block scalar's header. -/
def indentDigit : Lex (Option Nat) := do
  match ← peek 0 with
  | some c =>
      if c.isDigit then
        if c = '0' then fail
        skip 1
        return some (c.toNat - '0'.toNat)
      else return none
  | none => return none

/-- The rest of a line that may hold nothing but a comment. -/
def ignoredLine : Lex Unit := do
  let _ ← takeWhile (· = ' ')
  if (← peek 0) == some '#' then
    let _ ← takeWhile (!isBreak ·)
  if !endsLine (← peek 0) then fail
  let _ ← lineBreak

/-- The header of a block scalar: sign and digit in either order. -/
def blockHeader : Lex (Chomp × Option Nat) := do
  skip 1
  let sign ← chompSign
  let digit ← indentDigit
  let sign ← if sign.isNone && digit.isSome then chompSign else pure sign
  if !endsWord (← peek 0) then fail
  ignoredLine
  return (sign.getD .clip, digit)

/-- The empty lines at the start of a block scalar and the greatest column among them. -/
def blockIndentation (greatest : Nat) : Nat → Lex (Text × Nat)
  | 0 => return ([], greatest)
  | fuel + 1 => do
      match ← peek 0 with
      | some ' ' =>
          skip 1
          blockIndentation (max greatest (← column)) fuel
      | some c =>
          if isBreak c then
            let b ← lineBreak
            let (breaks, greatest) ← blockIndentation greatest fuel
            return (b ++ breaks, greatest)
          else return ([], greatest)
      | none => return ([], greatest)

/-- Passes spaces up to a column. -/
def spacesTo (column : Nat) : Lex Unit := do
  let c := (← get).cursor
  skip ((c.rest.take (column - c.column)).takeWhile (· = ' ')).length

/-- The empty lines inside a block scalar. -/
def blockBreaks (indent : Nat) : Nat → Lex Text
  | 0 => return []
  | fuel + 1 => do
      spacesTo indent
      let b ← lineBreak
      if b.isEmpty then return []
      return b ++ (← blockBreaks indent fuel)

/-- The lines of a block scalar, where `breaks` stand before the first; also the line ending of the
last line and the empty lines after it. -/
def blockLines (folded : Bool) (indent : Nat) (breaks : Text) : Nat → Lex (Text × Text × Text)
  | 0 => return ([], [], breaks)
  | fuel + 1 => do
      if (← column) = indent && (← peek 0).isSome then
        let blank (c : Option Char) : Bool := c == some ' ' || c == some '\t'
        let indented := blank (← peek 0)
        let line ← takeWhile (!isBreak ·)
        let b ← lineBreak
        let after ← blockBreaks indent fuel
        if (← column) = indent && (← peek 0).isSome then
          let joint :=
            if folded && b = ['\n'] && !indented && !blank (← peek 0) then
              if after.isEmpty then [' '] else []
            else b
          let (more, last, trailing) ← blockLines folded indent after fuel
          return (breaks ++ line ++ joint ++ more, last, trailing)
        else return (breaks ++ line, b, after)
      else return ([], [], breaks)

/-- Reads a block scalar. -/
def blockScalar (folded : Bool) : Lex Text := do
  let (chomp, digit) ← blockHeader
  let s ← get
  let fuel := s.cursor.rest.length + 1
  let least := (max (s.indent + 1) 1).toNat
  let (breaks, indent) ←
    match digit with
    | some n => do
        let indent := least + n - 1
        pure (← blockBreaks indent fuel, indent)
    | none => do
        let (breaks, greatest) ← blockIndentation 0 fuel
        pure (breaks, max least greatest)
  let (text, last, trailing) ← blockLines folded indent breaks fuel
  match chomp with
  | .strip => return text
  | .clip => return text ++ last
  | .keep => return text ++ last ++ trailing

end Lex

end Yaml

end DocRefs
