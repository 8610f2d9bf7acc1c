import RpnTape.Number.Shortest

/-!
# Number/Written — the text of a decimal

A nonzero decimal with digits `d₀d₁…dₙ` is `d₀.d₁…dₙ · 10ᵉ`; the exponent `e` of its leading digit
says how it is written. Within a window of exponents it is written positionally, outside it with an
exponent. The window and the spelling of the exponent are a `NumberStyle`.
-/

namespace RpnTape

/-- How numbers are written. -/
structure NumberStyle where
  /-- The least leading exponent written positionally. -/
  leastPlain : Int
  /-- The greatest leading exponent written positionally. -/
  greatestPlain : Int
  /-- What follows a whole number that is written positionally. -/
  wholeMark : String
  /-- The sign of an exponent that is not negative. -/
  plusMark : String
  /-- Which of two equally near decimals is taken. -/
  tie : Tie
  deriving Repr

namespace Decimal

/-- The digits of the coefficient, most significant first. -/
def digits (d : Decimal) : List Char := Nat.toDigits 10 d.coefficient

/-- The power of ten that the leading digit counts. -/
def leadingExponent (d : Decimal) : Int := d.digits.length - 1 + d.exponent

/-- A number of zeros. -/
def zeros (count : Int) : List Char := List.replicate count.toNat '0'

/-- The digits with their point where it belongs: leading zeros for a value below one, trailing ones
for a coefficient that counts a power of ten. -/
def plain (wholeMark : List Char) (d : Decimal) : List Char :=
  let e := d.leadingExponent
  if 0 ≤ d.exponent then d.digits ++ zeros d.exponent ++ wholeMark
  else if e < 0 then '0' :: '.' :: zeros (-e - 1) ++ d.digits
  else d.digits.take (e + 1).toNat ++ '.' :: d.digits.drop (e + 1).toNat

/-- The leading digit, a point and the others if there are any. -/
def mantissa : List Char → List Char
  | [] => []
  | [c] => [c]
  | c :: cs => c :: '.' :: cs

/-- The text of a whole number with its sign. -/
def signedDigits (plusMark : List Char) (n : Int) : List Char :=
  (if n < 0 then ['-'] else plusMark) ++ Nat.toDigits 10 n.natAbs

/-- The leading digit, a point, the others, and the exponent. -/
def scientific (plusMark : List Char) (d : Decimal) : List Char :=
  mantissa d.digits ++ 'e' :: signedDigits plusMark d.leadingExponent

/-- The decimal as the style writes it. -/
def written (style : NumberStyle) (d : Decimal) : List Char :=
  if style.leastPlain ≤ d.leadingExponent ∧ d.leadingExponent ≤ style.greatestPlain then
    d.plain style.wholeMark.toList
  else d.scientific style.plusMark.toList

end Decimal

namespace Binary64

/-- The magnitude of a finite number other than zero, as the style writes it. -/
def writtenMagnitude (style : NumberStyle) (v : Binary64) : List Char :=
  (Decimal.shortest style.tie v.pattern).written style

/-- A sign, if the number has one, before its magnitude. -/
def signed (v : Binary64) (magnitude : List Char) : String :=
  String.ofList (if v.negative then '-' :: magnitude else magnitude)

end Binary64

end RpnTape
