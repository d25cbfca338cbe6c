import DocRefs.Yaml.Scalar

/-!
# Lexing YAML

Turns a text into its tokens. Which character begins which token depends on whether brackets are
open; block collections are opened and closed by indentation. When the text turns out wrong, the
tokens before that place still stand, except those that a key might have begun at.
-/

namespace DocRefs

namespace Yaml

namespace Lex

/-- Whether a character may stand in the name of an anchor, a handle or a directive. -/
def isWordChar (c : Char) : Bool := c.isAlphanum || c = '-' || c = '_'

/-- Passes spaces, comments and line endings up to the next token. -/
def toNextToken : Nat → Lex Unit
  | 0 => return ()
  | fuel + 1 => do
      let _ ← takeWhile (· = ' ')
      if (← peek 0) == some '#' then
        let _ ← takeWhile (!isBreak ·)
      let b ← lineBreak
      if b.isEmpty then return ()
      if ← inBlock then allowKey true
      toNextToken fuel

/-! ### Anchors, tags and directives -/

/-- The name of an anchor or an alias after its indicator. -/
def anchorName : Lex Text := do
  skip 1
  let name ← takeWhile isWordChar
  if name.isEmpty then fail
  let next ← peek 0
  if endsToken next || next.any fun c => ['?', ':', ',', ']', '}', '%', '@', '\x60'].contains c then
    return name
  fail

/-- Whether a character may stand in the address of a tag, an escape apart. -/
def isTagChar (c : Char) : Bool :=
  c.isAlphanum || "-;/?:@&=+$,_.!~*()[]".toList.contains c || c = '\x27'

/-- The bytes of the percent escapes ahead. -/
def percentBytes : Nat → Lex Bytes
  | 0 => return []
  | fuel + 1 => do
      match ← rest with
      | '%' :: a :: b :: _ =>
          match Text.hexValue? a, Text.hexValue? b with
          | some x, some y =>
              skip 3
              return UInt8.ofNat (x * 16 + y) :: (← percentBytes fuel)
          | _, _ => fail
      | '%' :: _ => fail
      | _ => return []

/-- The address of a tag up to a character that cannot stand in it. -/
def tagParts : Nat → Lex Text
  | 0 => return []
  | fuel + 1 => do
      let run ← takeWhile isTagChar
      if (← peek 0) == some '%' then
        match Encoding.decodeUtf8 (← percentBytes fuel) with
        | none => fail
        | some t => return run ++ t ++ (← tagParts fuel)
      else return run

/-- The address of a tag. -/
def tagAddress : Lex Text := do
  let t ← tagParts ((← rest).length + 1)
  if t.isEmpty then fail
  return t

/-- A handle: one mark, or a word between two. -/
def tagHandle : Lex Text := do
  if (← peek 0) != some '!' then fail
  if (← peek 1) == some ' ' then
    skip 1
    return ['!']
  let word := ((← rest).drop 1).takeWhile isWordChar
  skip (word.length + 1)
  if (← peek 0) != some '!' then fail
  skip 1
  return '!' :: (word ++ ['!'])

/-- Whether a second mark stands in the word ahead, which then begins with a handle. -/
def hasHandle (t : Text) : Bool :=
  ((t.drop 1).takeWhile fun c => !endsWord (some c)).contains '!'

/-- A tag. -/
def tagToken : Lex Token := do
  let next ← peek 1
  let token ←
    if next == some '<' then do
      skip 2
      let address ← tagAddress
      if (← peek 0) != some '>' then fail
      skip 1
      pure (Token.tag none address)
    else if endsToken next then do
      skip 1
      pure (Token.tag none ['!'])
    else if hasHandle (← rest) then do
      let handle ← tagHandle
      pure (Token.tag (some handle) (← tagAddress))
    else do
      skip 1
      pure (Token.tag (some ['!']) (← tagAddress))
  if endsWord (← peek 0) then return token
  fail

/-- A number in a directive. -/
def directiveNumber : Lex Nat := do
  let digits ← takeWhile Char.isDigit
  if digits.isEmpty then fail
  if Text.digitLimit < digits.length then throw (.failed .badValue)
  return Text.digitsValue digits

/-- The directive of a line after its indicator. -/
def directive : Lex Directive := do
  skip 1
  let name ← takeWhile isWordChar
  if name.isEmpty then fail
  if !endsWord (← peek 0) then fail
  let d ←
    if name = ['Y', 'A', 'M', 'L'] then do
      let _ ← takeWhile (· = ' ')
      let major ← directiveNumber
      if (← peek 0) != some '.' then fail
      skip 1
      let minor ← directiveNumber
      if !endsWord (← peek 0) then fail
      pure (Directive.version major minor)
    else if name = ['T', 'A', 'G'] then do
      let _ ← takeWhile (· = ' ')
      let handle ← tagHandle
      if (← peek 0) != some ' ' then fail
      let _ ← takeWhile (· = ' ')
      let expansion ← tagAddress
      if !endsWord (← peek 0) then fail
      pure (Directive.handle handle expansion)
    else do
      let _ ← takeWhile (!isBreak ·)
      pure Directive.other
  ignoredLine
  return d

/-! ### Tokens -/

/-- Closes all block collections before a line that stands outside the document. -/
def leaveBlocks : Lex Unit := do
  unwind (-1)
  dropKey
  allowKey false

/-- A bracket that opens a collection. -/
def openBracket (t : Token) : Lex Unit := do
  noteKey
  modify fun s => { s with flow := s.flow + 1 }
  allowKey true
  skip 1
  emit t

/-- A bracket that closes a collection. -/
def closeBracket (t : Token) : Lex Unit := do
  dropKey
  modify fun s => { s with flow := s.flow - 1 }
  allowKey false
  skip 1
  emit t

/-- A comma between brackets. -/
def comma : Lex Unit := do
  allowKey true
  dropKey
  skip 1
  emit .flowEntry

/-- The indicator of an item. -/
def dash : Lex Unit := do
  if ← inBlock then
    if !(← get).keyAllowed then fail
    if ← addIndent (← column) then emit .blockSequenceStart
  allowKey true
  dropKey
  skip 1
  emit .blockEntry

/-- The indicator of a key. -/
def question : Lex Unit := do
  let block ← inBlock
  if block then
    if !(← get).keyAllowed then fail
    if ← addIndent (← column) then emit .blockMappingStart
  allowKey block
  dropKey
  skip 1
  emit .key

/-- The indicator of a value; the key before it is revealed by it. -/
def colon : Lex Unit := do
  let s ← get
  let block := s.flow == 0
  match s.keys.lookup s.flow with
  | some k =>
      modify fun s => { s with keys := s.keys.filter (·.1 != s.flow) }
      insertAt k.tokens .key
      if block then
        if ← addIndent k.column then insertAt k.tokens .blockMappingStart
      allowKey false
  | none =>
      if block then
        if !s.keyAllowed then fail
        if ← addIndent s.cursor.column then emit .blockMappingStart
      allowKey block
      dropKey
  skip 1
  emit .value

/-- A token that may be the whole of a key. -/
def keyLike (m : Lex Token) : Lex Unit := do
  noteKey
  allowKey false
  emit (← m)

/-- A block scalar. -/
def blockToken (folded : Bool) : Lex Unit := do
  allowKey true
  dropKey
  emit (.scalar (← blockScalar folded) false)

/-- Whether a plain scalar begins with the character `c` when `next` follows it. -/
def beginsPlain (block : Bool) (c : Char) (next : Option Char) : Bool :=
  (!endsToken (some c) && !"-?:,[]\x7b\x7d#&*!|>%@".toList.contains c && c != '\x27' && c != '\x22'
      && c != '\x60')
    || (!endsToken next && (c = '-' || (block && (c = '?' || c = ':'))))

/-- Reads the next token and those that go with it; tells whether there may be more. -/
def nextToken : Lex Bool := do
  let s ← get
  if s.cursor.index = 0 && (← peek 0) == some '\uFEFF' then skip 1
  toNextToken (s.cursor.rest.length + 1)
  dropStaleKeys
  unwind (← column)
  let block ← inBlock
  let next ← peek 1
  let atMargin := (← column) = 0
  match ← peek 0 with
  | none =>
      leaveBlocks
      modify fun s => { s with keys := [] }
      emit .streamEnd
      return false
  | some c =>
      if c = '%' && atMargin then
        leaveBlocks
        emit (.directive (← directive))
      else if atMargin && (c = '-' || c = '.') && (← atDocumentMark) then
        leaveBlocks
        skip 3
        emit (if c = '-' then .documentStart else .documentEnd)
      else if c = '[' then openBracket .flowSequenceStart
      else if c = '{' then openBracket .flowMappingStart
      else if c = ']' then closeBracket .flowSequenceEnd
      else if c = '}' then closeBracket .flowMappingEnd
      else if c = ',' then comma
      else if c = '-' && endsToken next then dash
      else if c = '?' && (!block || endsToken next) then question
      else if c = ':' && (!block || endsToken next) then colon
      else if c = '*' then keyLike (do return .alias (← anchorName))
      else if c = '&' then keyLike (do return .anchor (← anchorName))
      else if c = '!' then keyLike tagToken
      else if c = '|' && block then blockToken false
      else if c = '>' && block then blockToken true
      else if c = '\x27' then keyLike (do return .scalar (← quotedScalar false) false)
      else if c = '\x22' then keyLike (do return .scalar (← quotedScalar true) false)
      else if beginsPlain block c next then keyLike (do return .scalar (← plainScalar) true)
      else fail
      return true

/-- Reads the next token and gives up the keys that can no longer be. -/
def step : Lex Bool := do
  let more ← nextToken
  dropStaleKeys
  return more

end Lex

/-- The tokens that no later text can change: those before the first possible key. -/
def Lexer.settled (s : Lexer) : List Token :=
  let first := s.keys.foldl (fun n k => Nat.min n k.2.tokens) s.tokens.size
  s.tokens.toList.take first

/-- The tokens of a text as far as they can be told, and why there are no more of them. -/
structure Tokens where
  list : List Token
  failure : Option Misread

namespace Tokens

/-- Reads tokens until the text ends or fails. -/
def readFrom : Nat → Lexer → Tokens
  | 0, s => ⟨s.tokens.toList, none⟩
  | fuel + 1, s =>
      match Lex.step.run s with
      | .error e => ⟨s.settled, some e⟩
      | .ok (true, s') => readFrom fuel s'
      | .ok (false, s') => ⟨s'.tokens.toList, none⟩

/-- The tokens of a text. -/
def ofText (t : Text) : Tokens :=
  if t.all isAllowed then
    readFrom (t.length + 2) ⟨⟨t, 0, 0, 0⟩, #[], -1, [], 0, true, []⟩
  else ⟨[], some .malformed⟩

end Tokens

end Yaml

end DocRefs
