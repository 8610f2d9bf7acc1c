import RpnTape.Number.Written

/-!
# Number/Display — numbers as equations show them

Positional from a millionth up to `10²¹`, without a fraction that holds nothing; both zeros are `0`.
-/

namespace RpnTape

/-- Equations write leading exponents from -6 to 20 positionally, whole numbers bare, exponents
without a plus sign, and of two equally near decimals the greater. -/
def displayStyle : NumberStyle where
  leastPlain := -6
  greatestPlain := 20
  wholeMark := ""
  plusMark := ""
  tie := .up

namespace Binary64

/-- The number as equations show it. -/
def display (v : Binary64) : String :=
  if v.isNaN then "NaN"
  else if v.isInfinite then v.signed ['∞']
  else if v.isZero then "0"
  else v.signed (v.writtenMagnitude displayStyle)

end Binary64

end RpnTape
