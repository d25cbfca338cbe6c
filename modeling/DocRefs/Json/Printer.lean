import DocRefs.Text.Quoted
import DocRefs.Value

/-!
# Printing JSON

Prints a value in ASCII, two spaces deeper on every level, one member on a line. Characters beyond
ASCII are written as escapes of their UTF-16 units, and empty collections take no lines.
-/

namespace DocRefs

namespace Json

/-- The escape of a code unit. -/
def unitEscape (n : Nat) : Text := '\\' :: 'u' :: Text.hex 4 n

/-- A character inside a string. -/
def escapeChar (c : Char) : Text :=
  if c = '\x22' then ['\\', '\x22']
  else if c = '\\' then ['\\', '\\']
  else if c = '\n' then ['\\', 'n']
  else if c = '\r' then ['\\', 'r']
  else if c = '\t' then ['\\', 't']
  else if c = '\x08' then ['\\', 'b']
  else if c = '\x0C' then ['\\', 'f']
  else if 0x20 ≤ c.toNat ∧ c.toNat < 0x7F then [c]
  else if c.toNat < 0x10000 then unitEscape c.toNat
  else
    let n := c.toNat - 0x10000
    unitEscape (0xD800 + n / 0x400) ++ unitEscape (0xDC00 + n % 0x400)

/-- A text as a string. -/
def string (t : Text) : Text := '\x22' :: (t.flatMap escapeChar ++ ['\x22'])

/-- The start of a line at a level. -/
def newline (level : Nat) : Text := '\n' :: List.replicate (2 * level) ' '

/-- A value that is no collection. -/
def scalar : Value → Text
  | .null => "null".toList
  | .bool true => "true".toList
  | .bool false => "false".toList
  | .int n => Text.ofInt n
  | .real .undefined => "NaN".toList
  | .real (.infinite false) => "Infinity".toList
  | .real (.infinite true) => "-Infinity".toList
  | .text t => string t
  | v => v.quoted

/-- A key of an object. -/
def key : Value → Text
  | .text t => string t
  | v => string (scalar v)

mutual

/-- A value whose first line stands at a level. -/
def printAt (level : Nat) : Value → Text
  | .list [] => ['[', ']']
  | .list (v :: vs) => '[' :: (items (level + 1) (v :: vs) ++ newline level ++ [']'])
  | .map [] => ['{', '}']
  | .map (e :: es) => '{' :: (members (level + 1) (e :: es) ++ newline level ++ ['}'])
  | v => scalar v

/-- The items of an array, each on its line. -/
def items (level : Nat) : List Value → Text
  | [] => []
  | [v] => newline level ++ printAt level v
  | v :: vs => newline level ++ printAt level v ++ [','] ++ items level vs

/-- The members of an object, each on its line. -/
def members (level : Nat) : List (Value × Value) → Text
  | [] => []
  | [(k, v)] => newline level ++ key k ++ [':', ' '] ++ printAt level v
  | (k, v) :: es =>
      newline level ++ key k ++ [':', ' '] ++ printAt level v ++ [','] ++ members level es

end

/-- Prints a value. -/
def print (v : Value) : Text := printAt 0 v

end Json

end DocRefs
