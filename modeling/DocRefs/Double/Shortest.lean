import DocRefs.Double

/-!
# Shortest decimals

The text of a number of double precision: the fewest digits that read back as the number, and of
those the nearest to it. Numbers from `1e-4` up to `1e16` are written without an exponent.
-/

namespace DocRefs

namespace Double

/-- Digits `d` and the place `p` of the point: the decimal `0.d · 10 ^ p`. -/
structure Decimal where
  digits : Text
  point : Int
  deriving DecidableEq, Repr

/-- The decimal `n · 10 ^ k` with as many digits as it needs. -/
def Decimal.ofScaled (n : Nat) (k : Int) : Decimal :=
  let all := Text.ofNat n
  ⟨(all.reverse.dropWhile (· = '0')).reverse, k + Int.ofNat all.length⟩

/-- The place of the point of a positive number: it lies below `10 ^ p` and not below
`10 ^ (p - 1)`. -/
def pointOf (units : Nat) : Int :=
  Int.ofNat (Text.ofNat (units * Nat.pow 10 400 / one)).length - 400

/-- Whether the decimal `n · 10 ^ k` is read as the number. -/
def readsAs (units : Nat) (n : Nat) (k : Int) : Bool :=
  ofDecimal false n k = finite false units

/-- The nearest decimal with as many digits as there are before the place `k`, if one of the two
around the number is read as it. -/
def atPlace? (units : Nat) (k : Int) : Option Decimal :=
  let num := units * Nat.pow 10 (-k).toNat
  let den := one * Nat.pow 10 k.toNat
  let low := num / den
  let near := nearest num den
  let far := if near = low then low + 1 else low
  if readsAs units near k then some (.ofScaled near k)
  else if readsAs units far k then some (.ofScaled far k)
  else none

/-- The shortest decimal of a positive number; seventeen digits always suffice. -/
def shortest (units : Nat) : Decimal :=
  let p := pointOf units
  let tries := (List.range 17).map fun n => p - Int.ofNat (n + 1)
  (tries.findSome? (atPlace? units)).getD ⟨['0'], 1⟩

/-- A decimal without an exponent. -/
def positional (d : Decimal) : Text :=
  if d.point ≤ 0 then
    ['0', '.'] ++ List.replicate (-d.point).toNat '0' ++ d.digits
  else
    let places := d.point.toNat
    if d.digits.length ≤ places then
      d.digits ++ List.replicate (places - d.digits.length) '0' ++ ['.', '0']
    else d.digits.take places ++ '.' :: d.digits.drop places

/-- A decimal with an exponent of at least two digits. -/
def scientific (d : Decimal) : Text :=
  let e := d.point - 1
  let size := Text.ofNat e.natAbs
  let mantissa :=
    match d.digits with
    | c :: c' :: cs => c :: '.' :: c' :: cs
    | cs => cs
  mantissa ++ 'e' :: (if e < 0 then '-' else '+') :: (if size.length < 2 then '0' :: size else size)

/-- The text of a number. -/
def toText : Double → Text
  | finite s u =>
      let body :=
        if u = 0 then ['0', '.', '0']
        else
          let d := shortest u
          if -4 < d.point && d.point ≤ 16 then positional d else scientific d
      if s then '-' :: body else body
  | infinite s => if s then "-inf".toList else "inf".toList
  | undefined => "nan".toList

end Double

end DocRefs
