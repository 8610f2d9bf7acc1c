import RpnTape.Number.Display

/-!
# Formula/Basic — typeset mathematics, independent of how it is presented

A formula is a row of pieces; a piece is a leaf with its text or a construction that holds formulas.
-/

namespace RpnTape

/-- A part of a typeset formula. -/
inductive Piece where
  /-- The text of a number, without a sign. -/
  | number (text : String)
  /-- The name of a variable, function or constant. -/
  | identifier (name : String)
  /-- An operator sign, parenthesis or comma. -/
  | operator (sign : String)
  /-- Pieces held together. -/
  | row (pieces : List Piece)
  /-- One formula over another. -/
  | fraction (numerator denominator : List Piece)
  /-- A formula under a radical sign. -/
  | radical (radicand : List Piece)
  /-- A formula raised behind another. -/
  | superscript (base exponent : List Piece)

/-- A row of pieces. -/
abbrev Formula := List Piece

/-- A number in a formula: below zero, its sign is an operator held together with its magnitude. -/
def Binary64.formula (v : Binary64) : Formula :=
  if v.isBelowZero then [.row [.operator "-", .number (-v).display]] else [.number v.display]

end RpnTape
