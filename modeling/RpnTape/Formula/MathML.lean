import RpnTape.Formula.Basic

/-!
# Formula/MathML — formulas as presentation markup

Leaves are elements with escaped text; every part of a construction but the radicand is a row of its
own, so a construction has as many children as it has parts.
-/

namespace RpnTape

/-- How one character is written in the text of an element. -/
def markupChar : Char → List Char
  | '&' => "&amp;".toList
  | '<' => "&lt;".toList
  | '>' => "&gt;".toList
  | c => [c]

/-- Text with the characters that markup is made of escaped. -/
def markupText (text : String) : String := String.ofList (text.toList.flatMap markupChar)

/-- An element around its content. -/
def element (name content : String) : String := "<" ++ name ++ ">" ++ content ++ "</" ++ name ++ ">"

mutual

/-- The element of one piece. -/
def Piece.mathML : Piece → String
  | .number text => element "mn" (markupText text)
  | .identifier name => element "mi" (markupText name)
  | .operator sign => element "mo" (markupText sign)
  | .row pieces => element "mrow" (String.join (Formula.elements pieces))
  | .fraction numerator denominator =>
    element "mfrac" (element "mrow" (String.join (Formula.elements numerator)) ++
      element "mrow" (String.join (Formula.elements denominator)))
  | .radical radicand => element "msqrt" (String.join (Formula.elements radicand))
  | .superscript base exponent =>
    element "msup" (element "mrow" (String.join (Formula.elements base)) ++
      element "mrow" (String.join (Formula.elements exponent)))

/-- The elements of the pieces. -/
def Formula.elements : List Piece → List String
  | [] => []
  | piece :: rest => piece.mathML :: Formula.elements rest

end

/-- The formula as a displayed `math` element. -/
def Formula.mathML (formula : Formula) : String :=
  "<math display=\"block\">" ++ String.join (Formula.elements formula) ++ "</math>"

end RpnTape
