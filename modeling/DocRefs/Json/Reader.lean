import DocRefs.Failure
import DocRefs.Text.Numeral

/-!
# Reading JSON

Reads a text as one JSON value. Of repeated keys the last value counts, `NaN` and the infinities are
numbers, and control characters inside strings are refused. Half of a surrogate pair that stands
alone is read as the replacement character.
-/

namespace DocRefs

namespace Json

/-- How deeply values may be nested, before the stack that the program is run with is used up. -/
def depthLimit : Nat := 985

/-- Whether a character may stand between tokens. -/
def isSpace (c : Char) : Bool := c = ' ' || c = '\t' || c = '\n' || c = '\r'

/-- The number that four hexadecimal digits at the start of a text spell, and the rest. -/
def hex4? : Text → Option (Nat × Text)
  | a :: b :: c :: d :: rest => do
      let n := (← Text.hexValue? a) * 0x1000 + (← Text.hexValue? b) * 0x100
        + (← Text.hexValue? c) * 0x10 + (← Text.hexValue? d)
      return (n, rest)
  | _ => none

/-- The character of a code unit and the rest, where `rest` follows the unit's escape: two halves of
a pair are one character. -/
def unitChar (n : Nat) (rest : Text) : Char × Text :=
  if 0xD800 ≤ n ∧ n < 0xDC00 then
    match rest with
    | '\\' :: 'u' :: t =>
        match hex4? t with
        | some (m, rest') =>
            if 0xDC00 ≤ m ∧ m < 0xE000 then
              (Char.ofNat (0x10000 + (n - 0xD800) * 0x400 + (m - 0xDC00)), rest')
            else ('\uFFFD', rest)
        | none => ('\uFFFD', rest)
    | _ => ('\uFFFD', rest)
  else if 0xDC00 ≤ n ∧ n < 0xE000 then ('\uFFFD', rest)
  else (Char.ofNat n, rest)

/-- The character that a one-letter escape stands for. -/
def escaped? : Char → Option Char
  | '\x22' => some '\x22'
  | '\\' => some '\\'
  | '/' => some '/'
  | 'b' => some '\x08'
  | 'f' => some '\x0C'
  | 'n' => some '\n'
  | 'r' => some '\r'
  | 't' => some '\t'
  | _ => none

/-- The rest of a string after its opening quote, and what follows it; `fuel` bounds the
characters. -/
def readString (fuel : Nat) (t : Text) : Option (Text × Text) :=
  match fuel, t with
  | 0, _ => none
  | _, [] => none
  | fuel + 1, c :: cs =>
      if c = '\x22' then some ([], cs)
      else if c = '\\' then
        match cs with
        | 'u' :: ds => do
            let (n, rest) ← hex4? ds
            let (d, rest) := unitChar n rest
            let (s, rest) ← readString fuel rest
            return (d :: s, rest)
        | e :: ds => do
            let d ← escaped? e
            let (s, rest) ← readString fuel ds
            return (d :: s, rest)
        | [] => none
      else if c.toNat < 0x20 then none
      else (readString fuel cs).map fun p => (c :: p.1, p.2)

/-- Splits off the ASCII digits at the start. -/
def digits (t : Text) : Text × Text := (t.takeWhile Char.isDigit, t.dropWhile Char.isDigit)

/-- The fraction at the start of a text: its digits and the rest. -/
def fraction (t : Text) : Text × Text :=
  match t with
  | '.' :: rest =>
      let p := digits rest
      if p.1.isEmpty then ([], t) else p
  | _ => ([], t)

/-- A number at the start of a text and the rest. -/
def readNumber (t : Text) : Except Misread (Value × Text) :=
  let (negative, body) :=
    match t with
    | '-' :: r => (true, r)
    | r => (false, r)
  let whole :=
    match body with
    | '0' :: _ => ['0']
    | _ => (digits body).1
  if whole.isEmpty then .error .malformed
  else
    let f := fraction (body.drop whole.length)
    let e := Text.Numeral.exponent? f.2
    if f.1.isEmpty && e.isNone then
      if Text.digitLimit < whole.length then .error (.failed .badValue)
      else
        let n := Int.ofNat (Text.digitsValue whole)
        .ok (.int (if negative then -n else n), f.2)
    else
      let (exponent, rest) := e.getD (0, f.2)
      let mantissa := Text.digitsValue (whole ++ f.1)
      .ok (.real (.ofDecimal negative mantissa (exponent - Int.ofNat f.1.length)), rest)

/-- The words that are values. -/
def words : List (String × Value) := [
  ("null", .null), ("true", .bool true), ("false", .bool false), ("NaN", .real .undefined),
  ("Infinity", .real (.infinite false)), ("-Infinity", .real (.infinite true))]

/-- The word at the start of a text and the rest. -/
def readWord? (t : Text) : Option (Value × Text) :=
  words.findSome? fun w => (Text.after? w.1.toList t).map fun rest => (w.2, rest)

mutual

/-- A value at the start of a text and the rest; `depth` is how much deeper values may nest. -/
def readValue (fuel depth : Nat) (t : Text) : Except Misread (Value × Text) :=
  match fuel with
  | 0 => .error .malformed
  | fuel + 1 =>
      match t with
      | '\x22' :: rest =>
          match readString (rest.length + 1) rest with
          | none => .error .malformed
          | some (s, rest) => .ok (.text s, rest)
      | '{' :: rest =>
          match depth with
          | 0 => .error (.failed .tooDeep)
          | depth + 1 =>
              match rest.dropWhile isSpace with
              | '}' :: rest => .ok (.map [], rest)
              | rest => readMembers fuel depth [] rest
      | '[' :: rest =>
          match depth with
          | 0 => .error (.failed .tooDeep)
          | depth + 1 =>
              match rest.dropWhile isSpace with
              | ']' :: rest => .ok (.list [], rest)
              | rest => readItems fuel depth [] rest
      | t =>
          match readWord? t with
          | some p => .ok p
          | none => readNumber t
termination_by fuel

/-- The members of an object from a key on, where `done` holds those before. -/
def readMembers (fuel depth : Nat) (done : List (Value × Value)) (t : Text) :
    Except Misread (Value × Text) :=
  match fuel with
  | 0 => .error .malformed
  | fuel + 1 =>
      match t with
      | '\x22' :: rest =>
          match readString (rest.length + 1) rest with
          | none => .error .malformed
          | some (key, rest) =>
              match rest.dropWhile isSpace with
              | ':' :: rest => do
                  let (v, rest) ← readValue fuel depth (rest.dropWhile isSpace)
                  let done := Value.insert (.text key) v done
                  match rest.dropWhile isSpace with
                  | ',' :: rest => readMembers fuel depth done (rest.dropWhile isSpace)
                  | '}' :: rest => .ok (.map done, rest)
                  | _ => .error .malformed
              | _ => .error .malformed
      | _ => .error .malformed
termination_by fuel

/-- The items of an array from an item on, where `done` holds those before, the last first. -/
def readItems (fuel depth : Nat) (done : List Value) (t : Text) :
    Except Misread (Value × Text) :=
  match fuel with
  | 0 => .error .malformed
  | fuel + 1 => do
      let (v, rest) ← readValue fuel depth t
      match rest.dropWhile isSpace with
      | ',' :: rest => readItems fuel depth (v :: done) (rest.dropWhile isSpace)
      | ']' :: rest => .ok (.list (v :: done).reverse, rest)
      | _ => .error .malformed
termination_by fuel

end

/-- Reads a whole text as one value. -/
def read (t : Text) : Except Misread Value := do
  let (v, rest) ← readValue (2 * t.length + 2) depthLimit (t.dropWhile isSpace)
  if rest.all isSpace then return v else throw .malformed

end Json

end DocRefs
