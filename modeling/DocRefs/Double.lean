import DocRefs.Text.Basic

/-!
# Numbers of double precision

Binary floating-point numbers of 53 digits, each a whole multiple of the smallest positive one,
which is `2 ^ -1074`. A result that is no such number is rounded to the nearest one, and half way
between two to the one whose last digit is even. Results beyond the greatest number are infinite.
-/

namespace DocRefs

/-- A number of double precision. -/
inductive Double
  /-- The number `units · 2 ^ -1074` with a sign, which zero has too. -/
  | finite (negative : Bool) (units : Nat)
  | infinite (negative : Bool)
  /-- The answer where there is no number. -/
  | undefined
  deriving DecidableEq, Repr

namespace Double

/-- The number of units in one. -/
def one : Nat := Nat.pow 2 1074

/-- The units of the greatest number. -/
def greatest : Nat := (Nat.pow 2 53 - 1) * Nat.pow 2 2045

/-- The whole number nearest to a quotient; half way between two, the even one. -/
def nearest (num den : Nat) : Nat :=
  if den < 2 * (num % den) || (den = 2 * (num % den) && num / den % 2 = 1) then num / den + 1
  else num / den

/-- The distance to the next greater number, in units. -/
def gap (units : Nat) : Nat :=
  if units < Nat.pow 2 53 then 1 else Nat.pow 2 (Nat.log2 units - 52)

/-- The number nearest to a quotient. -/
def ofRatio (negative : Bool) (num den : Nat) : Double :=
  let g := gap (num * one / den)
  let units := nearest (num * one) (den * g) * g
  if greatest < units then infinite negative else finite negative units

/-- The number nearest to `mantissa · 10 ^ exponent`. Four hundred places on either side of the
point are more than any number needs. -/
def ofDecimal (negative : Bool) (mantissa : Nat) (exponent : Int) : Double :=
  let places := exponent + Int.ofNat (Text.ofNat mantissa).length
  if mantissa = 0 || places < -400 then finite negative 0
  else if 400 < places then infinite negative
  else
    ofRatio negative (mantissa * Nat.pow 10 exponent.toNat) (Nat.pow 10 (-exponent).toNat)

/-- The number nearest to a whole one, unless that is beyond the greatest number. -/
def ofNat? (n : Nat) : Option Double :=
  match ofRatio false n 1 with
  | infinite _ => none
  | x => some x

/-- The number with the other sign. -/
def negate : Double → Double
  | finite s u => finite (!s) u
  | infinite s => infinite (!s)
  | undefined => undefined

/-- The sum. -/
def add : Double → Double → Double
  | finite s a, finite t b =>
      if s = t then ofRatio s (a + b) one
      else if a = b then finite false 0
      else if b < a then ofRatio s (a - b) one
      else ofRatio t (b - a) one
  | infinite s, infinite t => if s = t then infinite s else undefined
  | infinite s, finite _ _ => infinite s
  | finite _ _, infinite t => infinite t
  | _, _ => undefined

/-- The product. -/
def mul : Double → Double → Double
  | finite s a, finite t b => ofRatio (s != t) (a * b) (one * one)
  | infinite s, infinite t => infinite (s != t)
  | infinite s, finite t b => if b = 0 then undefined else infinite (s != t)
  | finite s a, infinite t => if a = 0 then undefined else infinite (s != t)
  | _, _ => undefined

/-- Whether the number is zero. -/
def isZero : Double → Bool
  | finite _ u => u = 0
  | _ => false

end Double

end DocRefs
