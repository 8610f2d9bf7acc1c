import RpnTape.Number.Decimal

/-!
# Number/Shortest — the fewest digits that read back

The decimals with a given last place form a **grid** `10ᵍ · ℕ`. A value has two neighbours on each
grid, and if any point of the grid reads back as the value, then one of the two does. So the search
goes from a grid coarser than the value to finer ones and stops at the first with a neighbour that
reads back; of two such neighbours the nearer is taken. What happens halfway between them is left to
the caller.

Whether a decimal reads back is decided by reading it: `Decimal.nearestPattern`.
-/

namespace RpnTape

/-- Which of two equally near neighbours is taken. -/
inductive Tie where
  /-- The greater one. -/
  | up
  /-- The one with an even last digit. -/
  | toEven
  deriving DecidableEq, Repr

namespace Decimal

/-- The value `pattern` stands for, divided by `10 ^ grid`, as an exact fraction. -/
def gridRatio (pattern : Nat) (grid : Int) : Nat × Nat :=
  if 0 ≤ grid then (patternUnits pattern, unitsPerOne * Nat.pow 10 grid.toNat)
  else (patternUnits pattern * Nat.pow 10 (-grid).toNat, unitsPerOne)

/-- Does the decimal read back as the pattern? -/
def readsAs (pattern : Nat) (d : Decimal) : Bool := d.nearestPattern = pattern

/-- Of the neighbours `below` and `below + 1` of `a / b`, the nearer, or
the one the tie rule says. -/
def nearerNeighbour (tie : Tie) (a b : Nat) : Nat :=
  let below := a / b
  let twice := 2 * (a % b)
  if twice < b ∨ (twice = b ∧ tie = .toEven ∧ below % 2 = 0) then below else below + 1

/-- The neighbour of the value on one grid that reads back, if there is one. -/
def onGrid (tie : Tie) (pattern : Nat) (grid : Int) : Option Decimal :=
  let (a, b) := gridRatio pattern grid
  let nearer := nearerNeighbour tie a b
  let farther := if nearer = a / b then a / b + 1 else a / b
  if readsAs pattern ⟨nearer, grid⟩ then some ⟨nearer, grid⟩
  else if readsAs pattern ⟨farther, grid⟩ then some ⟨farther, grid⟩
  else none

/-- The first grid with a hit, among `count` grids from `grid` down. -/
def searchGrids (tie : Tie) (pattern : Nat) : Nat → Int → Option Decimal
  | 0, _ => none
  | count + 1, grid => (onGrid tie pattern grid).or (searchGrids tie pattern count (grid - 1))

/-- A grid coarser than the value: `0.30103` is just above the decimal logarithm of two. -/
def coarsestGrid (pattern : Nat) : Int :=
  ((patternUnits pattern).log2 - 1073) * 30103 / 100000 + 1

/-- The exact value of the pattern, which always reads back. -/
def exact (pattern : Nat) : Decimal := ⟨patternUnits pattern * Nat.pow 5 1074, -1074⟩

/-- A decimal with the fewest digits that reads back as the pattern. Seventeen digits are enough for
every double, so twenty grids are. -/
def shortest (tie : Tie) (pattern : Nat) : Decimal :=
  ((searchGrids tie pattern 20 (coarsestGrid pattern)).getD (exact pattern)).trimmed

end Decimal

end RpnTape
