import DocRefs.Json.Reader

/-!
# Tokens of YAML

The tokens of a YAML 1.1 text, the cursor that reads characters, and the state of the lexer between
two tokens: the indentation of the open block collections, how deep the text is inside brackets, and
the places where a key may have begun that only a later colon reveals.
-/

namespace DocRefs

namespace Yaml

/-- A line that instructs the reader. -/
inductive Directive
  | version (major minor : Nat)
  | handle (name expansion : Text)
  | other
  deriving DecidableEq, Repr

/-- The tokens of a text. -/
inductive Token
  | streamEnd
  | directive (d : Directive)
  | documentStart
  | documentEnd
  | blockSequenceStart
  | blockMappingStart
  | blockEnd
  | flowSequenceStart
  | flowSequenceEnd
  | flowMappingStart
  | flowMappingEnd
  | blockEntry
  | flowEntry
  | key
  | value
  | alias (name : Text)
  | anchor (name : Text)
  | tag (handle : Option Text) (suffix : Text)
  | scalar (text : Text) (plain : Bool)
  deriving DecidableEq, Repr

/-- Whether a character ends a line. -/
def isBreak (c : Char) : Bool :=
  c = '\n' || c = '\r' || c = '\u0085' || c = '\u2028' || c = '\u2029'

/-- Whether a line ends here. -/
def endsLine (c : Option Char) : Bool := c.all isBreak

/-- Whether a word ends here, where a tab is no end. -/
def endsWord (c : Option Char) : Bool := c.all fun c => c = ' ' || isBreak c

/-- Whether a token ends here. -/
def endsToken (c : Option Char) : Bool := c.all fun c => c = ' ' || c = '\t' || isBreak c

/-- Whether a character may stand in a text at all. -/
def isAllowed (c : Char) : Bool :=
  let n := c.toNat
  n = 0x09 || n = 0x0A || n = 0x0D || (0x20 ≤ n && n ≤ 0x7E) || n = 0x85
    || (0xA0 ≤ n && n ≤ 0xD7FF) || (0xE000 ≤ n && n ≤ 0xFFFD) || 0x10000 ≤ n

/-- The characters that remain and the place reached. -/
structure Cursor where
  rest : Text
  index : Nat
  line : Nat
  column : Nat
  deriving Repr

namespace Cursor

/-- The cursor after one character. -/
def step (c : Cursor) : Cursor :=
  match c.rest with
  | [] => c
  | ch :: rest =>
      if ch = '\n' || ch = '\u0085' || ch = '\u2028' || ch = '\u2029'
          || (ch = '\r' && rest.head? != some '\n') then
        ⟨rest, c.index + 1, c.line + 1, 0⟩
      else if ch = '\uFEFF' then { c with rest, index := c.index + 1 }
      else ⟨rest, c.index + 1, c.line, c.column + 1⟩

/-- The cursor after some characters. -/
def advance (c : Cursor) : Nat → Cursor
  | 0 => c
  | n + 1 => c.step.advance n

end Cursor

/-- A place where a key without an indicator may have begun. -/
structure PossibleKey where
  /-- The number of tokens before it. -/
  tokens : Nat
  /-- Whether the text is wrong unless a key begins here. -/
  required : Bool
  index : Nat
  line : Nat
  column : Nat
  deriving Repr

/-- The state of the lexer between two tokens. -/
structure Lexer where
  cursor : Cursor
  tokens : Array Token
  /-- The column of the innermost open block collection. -/
  indent : Int
  /-- The columns of those around it. -/
  indents : List Int
  /-- How many brackets are open. -/
  flow : Nat
  /-- Whether a key may begin here. -/
  keyAllowed : Bool
  /-- The possible keys by the number of open brackets. -/
  keys : List (Nat × PossibleKey)

/-- A step of the lexer. -/
abbrev Lex := StateT Lexer (Except Misread)

namespace Lex

/-- The text is no YAML. -/
def fail {α : Type} : Lex α := throw .malformed

/-- The character some places ahead. -/
def peek (n : Nat) : Lex (Option Char) := return (← get).cursor.rest[n]?

/-- The characters ahead. -/
def rest : Lex Text := return (← get).cursor.rest

/-- Passes some characters. -/
def skip (n : Nat) : Lex Unit := modify fun s => { s with cursor := s.cursor.advance n }

/-- Passes and returns the characters of a class. -/
def takeWhile (p : Char → Bool) : Lex Text := do
  let t := (← rest).takeWhile p
  skip t.length
  return t

/-- The column reached. -/
def column : Lex Nat := return (← get).cursor.column

/-- Whether no bracket is open. -/
def inBlock : Lex Bool := return (← get).flow == 0

/-- Adds a token. -/
def emit (t : Token) : Lex Unit := modify fun s => { s with tokens := s.tokens.push t }

/-- Adds a token in front of those after the first `n`. -/
def insertAt (n : Nat) (t : Token) : Lex Unit := modify fun s =>
  { s with tokens := (s.tokens.extract 0 n).push t ++ s.tokens.extract n s.tokens.size }

/-- Sets whether a key may begin. -/
def allowKey (b : Bool) : Lex Unit := modify fun s => { s with keyAllowed := b }

/-- Passes a line ending and returns what it stands for. -/
def lineBreak : Lex Text := do
  match ← rest with
  | '\r' :: '\n' :: _ => skip 2; return ['\n']
  | c :: _ =>
      if c = '\r' || c = '\n' || c = '\u0085' then
        skip 1
        return ['\n']
      else if c = '\u2028' || c = '\u2029' then
        skip 1
        return [c]
      else return []
  | [] => return []

/-- Closes the block collections that are indented more than a column. -/
def unwind (column : Int) : Lex Unit := modify fun s =>
  if s.flow = 0 then go s.indents.length s else s
where
  /-- Closes at most `n + 1` collections. -/
  go : Nat → Lexer → Lexer
    | 0, s => s
    | n + 1, s =>
        if column < s.indent then
          go n { s with
            indent := s.indents.head?.getD (-1)
            indents := s.indents.drop 1
            tokens := s.tokens.push .blockEnd }
        else s

/-- Opens a block collection at a column unless one is open there; tells whether it did. -/
def addIndent (column : Int) : Lex Bool := do
  let s ← get
  if s.indent < column then
    set { s with indent := column, indents := s.indent :: s.indents }
    return true
  else return false

/-- Gives up the possible key of the innermost bracket. -/
def dropKey : Lex Unit := do
  let s ← get
  match s.keys.lookup s.flow with
  | some k => if k.required then fail
  | none => pure ()
  set { s with keys := s.keys.filter (·.1 != s.flow) }

/-- Notes that a key may begin here. -/
def noteKey : Lex Unit := do
  let s ← get
  if s.keyAllowed then
    dropKey
    let c := s.cursor
    let k : PossibleKey :=
      ⟨s.tokens.size, s.flow == 0 && s.indent == c.column, c.index, c.line, c.column⟩
    modify fun s => { s with keys := (s.flow, k) :: s.keys }

/-- The greatest distance between the beginning of a key and its colon. -/
def keyLimit : Nat := 1024

/-- Gives up the possible keys that are on another line or too far back. -/
def dropStaleKeys : Lex Unit := do
  let s ← get
  let stale (k : PossibleKey) : Bool :=
    k.line != s.cursor.line || decide (keyLimit < s.cursor.index - k.index)
  if s.keys.any fun k => stale k.2 && k.2.required then fail
  set { s with keys := s.keys.filter fun k => !stale k.2 }

end Lex

end Yaml

end DocRefs
