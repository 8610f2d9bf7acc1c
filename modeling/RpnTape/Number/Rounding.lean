/-!
# Number/Rounding — rounding an exact ratio to a binary64 magnitude

A binary64 magnitude is counted in **units** of `2⁻¹⁰⁷⁴`, the smallest positive double: every finite
double is a whole number of units, so exact arithmetic on doubles is arithmetic of natural numbers.

The magnitude's bit pattern is `s · 2⁵² + m`, where `2ˢ` units is the spacing of the doubles around
it and `m` the number of spacings. The two summands may carry into each other: rounding `m` up to
`2⁵³` gives the first double of the next binade, and running past the last binade gives infinity.
-/

namespace RpnTape

/-- The whole number nearest to `a / b`; halfway cases go to the even one. -/
def roundHalfEven (a b : Nat) : Nat :=
  if 2 * (a % b) < b ∨ (2 * (a % b) = b ∧ a / b % 2 = 0) then a / b else a / b + 1

/-- How many doubles there are in a binade: `2⁵²`. -/
def binadeSize : Nat := 0x10000000000000

/-- The bit pattern of the infinite magnitude. -/
def infinitePattern : Nat := 0x7FF0000000000000

/-- How many units there are in one. -/
def unitsPerOne : Nat := 1 <<< 1074

/-- The pattern of the magnitude nearest to `a / b` units. A double has 53 significant bits, so the
spacing is the number of bits of `a / b` beyond those. -/
def roundUnits (a b : Nat) : Nat :=
  let spacing := (a / b).log2 - 52
  let pattern := spacing * binadeSize + roundHalfEven a (b <<< spacing)
  if pattern < infinitePattern then pattern else infinitePattern

/-- The number of units of a finite pattern. -/
def patternUnits (pattern : Nat) : Nat :=
  let biased := pattern / binadeSize
  let fraction := pattern % binadeSize
  if biased = 0 then fraction else (binadeSize + fraction) <<< (biased - 1)

theorem roundUnits_le (a b : Nat) : roundUnits a b ≤ infinitePattern := by
  simp only [roundUnits]
  split
  · exact Nat.le_of_lt ‹_›
  · exact Nat.le_refl _

end RpnTape
