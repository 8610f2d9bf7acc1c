import RpnTape.Formula.Basic

/-!
# Formula/Text — formulas on one line of plain text

Pieces are separated by single spaces, but brackets and commas stand flush: `(a + b)`, `sin(x, y)`.
The parts of a fraction, a radical or a superscript lose the structure that the page gave them, so
they stand in parentheses unless they are a single simple piece.
-/

namespace RpnTape

/-- Does the piece stand flush behind the one before it? -/
def Piece.hugs (previous piece : Piece) : Bool :=
  match previous, piece with
  | .operator p, .operator s => p = "(" || s = ")" || s = ","
  | .operator p, _ => p = "("
  | .identifier _, .operator s => s = ")" || s = "," || s = "("
  | _, .operator s => s = ")" || s = ","
  | _, _ => false

/-- The magnitude of a row that is a minus sign and a number. -/
def Formula.negated? : Formula → Option String
  | [.operator sign, .number magnitude] => if sign = "-" then some magnitude else none
  | _ => none

/-- Can the formula stand beside a slash, a caret or a radical sign without parentheses? -/
def Formula.isSimple : Formula → Bool
  | [.fraction _ _] | [.superscript _ _] => false
  | [_] => true
  | _ => false

/-- The text, in parentheses unless the formula is simple. -/
def Formula.grouped (formula : Formula) (text : String) : String :=
  if formula.isSimple then text else "(" ++ text ++ ")"

mutual

/-- The text of one piece. -/
def Piece.text : Piece → String
  | .number text | .identifier text | .operator text => text
  | .row pieces =>
    match Formula.negated? pieces with
    | some magnitude => "-" ++ magnitude
    | none => String.join (Formula.textParts none pieces)
  | .fraction numerator denominator =>
    Formula.grouped numerator (String.join (Formula.textParts none numerator)) ++ "/" ++
      Formula.grouped denominator (String.join (Formula.textParts none denominator))
  | .radical radicand =>
    "√" ++ Formula.grouped radicand (String.join (Formula.textParts none radicand))
  | .superscript base exponent =>
    Formula.grouped base (String.join (Formula.textParts none base)) ++ "^" ++
      Formula.grouped exponent (String.join (Formula.textParts none exponent))

/-- The texts and spaces of the pieces behind the previous one, if there is one. -/
def Formula.textParts : Option Piece → List Piece → List String
  | _, [] => []
  | none, piece :: rest => piece.text :: Formula.textParts (some piece) rest
  | some previous, piece :: rest =>
    (if previous.hugs piece then piece.text else " " ++ piece.text) ::
      Formula.textParts (some piece) rest

end

/-- The formula on one line. -/
def Formula.text (formula : Formula) : String := String.join (Formula.textParts none formula)

end RpnTape
