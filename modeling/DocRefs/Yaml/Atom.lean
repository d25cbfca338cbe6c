import DocRefs.Json.Reader
import DocRefs.Yaml.Tag

/-!
# Scalar values of YAML

The values that scalars of the core vocabulary stand for. A scalar with a written tag may hold any
text, so each kind also says how a text that does not fit fails.
-/

namespace DocRefs

namespace Yaml

/-- A value that cannot be built. -/
def bad {α : Type} : Except Misread α := throw (.failed .badValue)

/-- A number that may be none. -/
def numeral {α : Type} (n : Option α) : Except Misread α := n.elim bad pure

/-! ### Numbers -/

/-- A text of a number without its underscores: whether it has a minus sign, and the rest behind a
sign. There has to be a character for the sign. -/
def signedBody (written : Text) : Except Misread (Bool × Text) :=
  match written.filter (· != '_') with
  | [] => throw (.failed .noCharacter)
  | c :: t => return (c = '-', if c = '-' || c = '+' then t else c :: t)

/-- The value of digits in base sixty, the least significant last. -/
def sixtyValue (digits : List Int) : Int := digits.foldl (fun n d => n * 60 + d) 0

/-- A whole number without its sign: in base two, sixteen, eight, sixty or ten. -/
def magnitude : Text → Except Misread Int
  | [] => throw (.failed .noCharacter)
  | ['0'] => return 0
  | '0' :: 'b' :: t => numeral (Text.int? 2 t)
  | '0' :: 'x' :: t => numeral (Text.int? 16 t)
  | '0' :: t => numeral (Text.int? 8 ('0' :: t))
  | t =>
      if t.contains ':' then do
        return sixtyValue (← (Text.splitOn ':' t).mapM fun p => numeral (Text.int? 10 p))
      else numeral (Text.int? 10 t)

/-- A whole number. -/
def intValue (written : Text) : Except Misread Int := do
  let (negative, body) ← signedBody written
  let n ← magnitude body
  return if negative then -n else n

/-- The value of digits in base sixty, the least significant first, where `weight` is the place
value of the first and `total` the value of those before. Every place value has to be a number of
double precision. -/
def sixtySum (weight : Nat) (total : Double) : List Double → Except Misread Double
  | [] => return total
  | d :: ds =>
      match Double.ofNat? weight with
      | none => throw (.failed .tooGreat)
      | some w => sixtySum (weight * 60) (total.add (d.mul w)) ds

/-- A number of double precision. -/
def floatValue (written : Text) : Except Misread Double := do
  let (negative, body) ← signedBody (written.map Char.toLower)
  let x ←
    if body = ".inf".toList then pure (Double.infinite false)
    else if body = ".nan".toList then pure Double.undefined
    else if body.contains ':' then do
      let digits ← (Text.splitOn ':' body).mapM fun p => numeral (Text.double? p)
      sixtySum 1 (.finite false 0) digits.reverse
    else numeral (Text.double? body)
  return if negative then x.negate else x

/-! ### Points in time -/

/-- Whether a year has a leap day. -/
def isLeap (year : Nat) : Bool := year % 4 = 0 && (year % 100 != 0 || year % 400 = 0)

/-- The number of days of a month. -/
def monthDays (year month : Nat) : Nat :=
  if month = 2 then if isLeap year then 29 else 28
  else if [4, 6, 9, 11].contains month then 30
  else 31

/-- A point in time, which has to exist in the calendar; one line feed at the end does not count. -/
def stampValue (t : Text) : Except Misread Value :=
  match stamp? (Text.chomped t) with
  | none => throw (.failed .noMember)
  | some s =>
      let isDay := 1 ≤ s.year && 1 ≤ s.month && s.month ≤ 12 && 1 ≤ s.day
        && s.day ≤ monthDays s.year s.month
      match s.time with
      | none => if isDay then return .date else bad
      | some (hour, minute, second) =>
          if isDay && hour < 24 && minute < 60 && second < 60 && s.offset.all (· < 24 * 60) then
            return .moment
          else bad

/-! ### Bytes -/

/-- The value of a digit of base sixty-four. -/
def base64Value? (c : Char) : Option Nat :=
  if 'A' ≤ c ∧ c ≤ 'Z' then some (c.toNat - 'A'.toNat)
  else if 'a' ≤ c ∧ c ≤ 'z' then some (c.toNat - 'a'.toNat + 26)
  else if '0' ≤ c ∧ c ≤ '9' then some (c.toNat - '0'.toNat + 52)
  else if c = '+' then some 62
  else if c = '/' then some 63
  else none

/-- How far bytes in base sixty-four have been read. -/
structure Base64 where
  /-- How many digits of the current group of four have been read. -/
  digits : Nat := 0
  /-- The binary digits of the group that make no byte yet. -/
  left : Nat := 0
  /-- How many padding signs stand since the last digit. -/
  padding : Nat := 0
  /-- The bytes read, the last first. -/
  bytes : Bytes := []

/-- Adds a digit to the group. -/
def Base64.push (s : Base64) (d : Nat) : Base64 :=
  match s.digits with
  | 0 => { digits := 1, left := d, bytes := s.bytes }
  | 1 => { digits := 2, left := d % 16, bytes := UInt8.ofNat (s.left * 4 + d / 16) :: s.bytes }
  | 2 => { digits := 3, left := d % 4, bytes := UInt8.ofNat (s.left * 16 + d / 4) :: s.bytes }
  | _ => { bytes := UInt8.ofNat (s.left * 64 + d) :: s.bytes }

/-- The bytes written in base sixty-four. Padding that completes a group ends them, and other
characters that are no digits are passed over. -/
def Base64.read (s : Base64) : Text → Option Bytes
  | [] => if s.digits = 0 then some s.bytes.reverse else none
  | c :: cs =>
      if c = '=' then
        if s.digits < 2 then read s cs
        else if 4 ≤ s.digits + s.padding + 1 then some s.bytes.reverse
        else read { s with padding := s.padding + 1 } cs
      else
        match base64Value? c with
        | none => read s cs
        | some d => read (s.push d) cs

/-- Bytes in base sixty-four, written in ASCII. -/
def binaryValue (t : Text) : Except Misread Value :=
  if t.any fun c => 0x80 ≤ c.toNat then throw .malformed
  else
    match Base64.read {} t with
    | none => throw .malformed
    | some bytes => return .binary bytes

/-! ### All kinds -/

/-- A truth value, in any case of its word. -/
def boolValue (t : Text) : Except Misread Value :=
  let is (words : List String) : Bool :=
    words.any fun w => w.toList == t.map Char.toLower
  if is trueWords then return .bool true
  else if is falseWords then return .bool false
  else throw (.failed .noEntry)

/-- Whether a tag is one of those that scalars of the core vocabulary have. -/
def isAtomTag (tag : Text) : Bool :=
  ["null", "bool", "int", "float", "binary", "timestamp", "str"].any fun name => isCore name tag

/-- The value of a scalar with one of the core tags. -/
def atomValue (tag t : Text) : Except Misread Value :=
  if isCore "null" tag then return .null
  else if isCore "bool" tag then boolValue t
  else if isCore "int" tag then return .int (← intValue t)
  else if isCore "float" tag then return .real (← floatValue t)
  else if isCore "binary" tag then binaryValue t
  else if isCore "timestamp" tag then stampValue t
  else if isCore "str" tag then return .text t
  else throw .malformed

end Yaml

end DocRefs
