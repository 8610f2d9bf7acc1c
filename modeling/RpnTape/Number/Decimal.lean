import RpnTape.Number.Binary64

/-!
# Number/Decimal — exact decimals and the double nearest to one

A decimal is a coefficient and a power of ten. Reading one as a double rounds its exact value once,
half to even. Powers of ten far outside the range of doubles are answered without being computed:
`10⁴⁰⁰` times anything positive overflows, and a decimal below `2⁻¹⁰⁸⁰` is less than half a unit.
-/

namespace RpnTape

/-- The value `coefficient · 10 ^ exponent`. -/
structure Decimal where
  /-- The digits, as a whole number. -/
  coefficient : Nat
  /-- The power of ten they count. -/
  exponent : Int
  deriving DecidableEq, Repr

namespace Decimal

/-- Is the decimal, with a negative exponent, below `2⁻¹⁰⁸⁰`? A power `10⁻ᵏ` is at most `2⁻³ᵏ`. -/
def isTiny (d : Decimal) : Bool := d.coefficient.log2 + 1 + 3 * d.exponent < -1080

/-- The pattern of the magnitude nearest to the decimal. -/
def nearestPattern (d : Decimal) : Nat :=
  if d.coefficient = 0 then 0
  else if 400 < d.exponent then infinitePattern
  else if 0 ≤ d.exponent then
    roundUnits (d.coefficient * Nat.pow 10 d.exponent.toNat * unitsPerOne) 1
  else if d.isTiny then 0
  else roundUnits (d.coefficient * unitsPerOne) (Nat.pow 10 (-d.exponent).toNat)

theorem nearestPattern_le (d : Decimal) : d.nearestPattern ≤ infinitePattern := by
  unfold nearestPattern
  split
  · exact Nat.zero_le _
  split
  · exact Nat.le_refl _
  split
  · exact roundUnits_le _ _
  split
  · exact Nat.zero_le _
  · exact roundUnits_le _ _

/-- The number nearest to the decimal, with the given sign. -/
def nearest (negative : Bool) (d : Decimal) : Binary64 where
  negative
  pattern := d.nearestPattern
  pattern_lt := Nat.lt_of_le_of_lt d.nearestPattern_le (by decide)

/-- The same value with no zero at the end of the coefficient; the fuel
bounds how many are taken. -/
def trimmedWithin : Nat → Decimal → Decimal
  | 0, d => d
  | fuel + 1, d =>
    if d.coefficient ≠ 0 ∧ d.coefficient % 10 = 0 then
      trimmedWithin fuel ⟨d.coefficient / 10, d.exponent + 1⟩
    else d

/-- The same value with no zero at the end of the coefficient. -/
def trimmed (d : Decimal) : Decimal := d.trimmedWithin d.coefficient.log2

end Decimal

end RpnTape
