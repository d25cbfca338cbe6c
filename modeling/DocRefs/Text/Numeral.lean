import DocRefs.Double
import DocRefs.Text.Blank
import DocRefs.Text.Digit

/-!
# Numerals

Reading a whole text as a number. White space around the number is allowed, a sign in front of it,
and decimal digits of any script. Whole numbers may be written in other bases, with or without the
mark of the base; decimal ones have a limit on their length.
-/

namespace DocRefs

namespace Text

/-- The value of a digit in bases up to sixteen. -/
def hexValue? (c : Char) : Option Nat :=
  if '0' ≤ c ∧ c ≤ '9' then some (c.toNat - '0'.toNat)
  else if 'a' ≤ c ∧ c ≤ 'f' then some (c.toNat - 'a'.toNat + 10)
  else if 'A' ≤ c ∧ c ≤ 'F' then some (c.toNat - 'A'.toNat + 10)
  else none

/-- The number that digits of a base spell; none without a digit. -/
def digitsIn? (base : Nat) (t : Text) : Option Nat :=
  if t.isEmpty then none
  else t.foldl (fun n c => do
    let d ← hexValue? c
    if d < base then return (← n) * base + d else none) (some 0)

/-- The number that ASCII digits spell. -/
def digitsValue (t : Text) : Nat := t.foldl (fun n c => n * 10 + (c.toNat - '0'.toNat)) 0

/-- The longest decimal whole number that is read, in digits. -/
def digitLimit : Nat := 4300

namespace Numeral

/-- A character as it counts in a numeral: white space as a space, a decimal digit as the ASCII one.
There is no other character beyond ASCII in a numeral. -/
def plainChar? (c : Char) : Option Char :=
  if c.toNat < 0x80 then some c
  else if isBlank c then some ' '
  else (decimalValue? c).map fun d => Char.ofNat ('0'.toNat + d)

/-- Whether a character may stand around a number. -/
def isMargin (c : Char) : Bool := c = ' ' || (decide ('\t' ≤ c) && decide (c ≤ '\r'))

/-- The numeral without the white space around it. -/
def trimmed? (t : Text) : Option Text := do
  let plain ← t.mapM plainChar?
  return ((plain.dropWhile isMargin).reverse.dropWhile isMargin).reverse

/-- Whether a numeral has a minus sign, and the numeral without its sign. -/
def signed : Text → Bool × Text
  | '-' :: t => (true, t)
  | '+' :: t => (false, t)
  | t => (false, t)

/-- The letter that marks a base after a zero. -/
def baseMark? : Nat → Option Char
  | 2 => some 'b'
  | 8 => some 'o'
  | 16 => some 'x'
  | _ => none

/-- The digits of a whole number without the mark of its base. -/
def unmarked (base : Nat) : Text → Text
  | '0' :: c :: t => if baseMark? base = some c.toLower then t else '0' :: c :: t
  | t => t

/-- The exponent at the start of a text and the rest; none unless there are digits. -/
def exponent? : Text → Option (Int × Text)
  | [] => none
  | e :: t =>
      let (negative, body) := signed t
      let digits := body.takeWhile Char.isDigit
      if (e = 'e' || e = 'E') && !digits.isEmpty then
        let n := Int.ofNat (digitsValue digits)
        some (if negative then -n else n, body.dropWhile Char.isDigit)
      else none

/-- The number that a decimal without a sign stands for. -/
def decimal? (negative : Bool) (t : Text) : Option Double := do
  let whole := t.takeWhile Char.isDigit
  let (fraction, rest) :=
    match t.dropWhile Char.isDigit with
    | '.' :: r => (r.takeWhile Char.isDigit, r.dropWhile Char.isDigit)
    | r => ([], r)
  if whole.isEmpty && fraction.isEmpty then none
  else
    let (e, rest) ← if rest.isEmpty then some (0, []) else exponent? rest
    if rest.isEmpty then
      return .ofDecimal negative (digitsValue (whole ++ fraction)) (e - Int.ofNat fraction.length)
    else none

end Numeral

/-- The whole number in a base that a text spells. -/
def int? (base : Nat) (t : Text) : Option Int := do
  let (negative, body) := Numeral.signed (← Numeral.trimmed? t)
  let digits := Numeral.unmarked base body
  let n ← digitsIn? base digits
  if base = 10 && digitLimit < digits.length then none
  else return if negative then -Int.ofNat n else Int.ofNat n

/-- The number of double precision that a text spells. -/
def double? (t : Text) : Option Double := do
  let (negative, body) := Numeral.signed (← Numeral.trimmed? t)
  let word := body.map Char.toLower
  if word = "inf".toList || word = "infinity".toList then return .infinite negative
  else if word = "nan".toList then return .undefined
  else Numeral.decimal? negative body

end Text

end DocRefs
