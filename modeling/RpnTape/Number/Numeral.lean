import RpnTape.Number.Decimal
import RpnTape.Text.Blank

/-!
# Number/Numeral — reading the number at the start of a text

A numeral is digits with at most one point among, before or after them, and optionally an exponent:
the letter `e` in either case, an optional sign, and at least one digit. An exponent letter that no
digits follow is not part of the numeral. Reading takes the longest numeral and hands back the rest.

A number is a numeral or the word `Infinity`, behind blanks and at most one sign. Text
after it is not looked at.
-/

namespace RpnTape

namespace Numeral

/-- The digits at the start of a text, and what follows them. -/
def spanDigits (cs : List Char) : List Char × List Char :=
  (cs.takeWhile Char.isDigit, cs.dropWhile Char.isDigit)

/-- The digits after a point at the start of a text. Without a point there are none, and nothing is
read; a point needs no digits after it. -/
def fraction : List Char → List Char × List Char
  | '.' :: cs => spanDigits cs
  | cs => ([], cs)

/-- An optional sign: is it a minus, and what follows it. -/
def sign : List Char → Bool × List Char
  | '-' :: cs => (true, cs)
  | '+' :: cs => (false, cs)
  | cs => (false, cs)

/-- The exponent at the start of a text. Without digits it is zero and nothing is read. -/
def exponent (cs : List Char) : Int × List Char :=
  match cs with
  | [] => (0, [])
  | c :: afterMark =>
    if c = 'e' ∨ c = 'E' then
      let (negative, afterSign) := sign afterMark
      match spanDigits afterSign with
      | ([], _) => (0, cs)
      | (digits, rest) =>
        let size : Int := Nat.ofDigitChars 10 digits 0
        (if negative then -size else size, rest)
    else (0, cs)

/-- The longest numeral at the start of a text, and what follows it. -/
def read? (cs : List Char) : Option (Decimal × List Char) :=
  let (whole, afterWhole) := spanDigits cs
  let (fraction, afterFraction) := fraction afterWhole
  if whole.isEmpty && fraction.isEmpty then none
  else
    let (exponent, rest) := exponent afterFraction
    some (⟨Nat.ofDigitChars 10 (whole ++ fraction) 0, exponent - fraction.length⟩, rest)

end Numeral

namespace Binary64

/-- The number at the start of a text, behind blanks and at most one sign. -/
def read? (text : String) : Option Binary64 :=
  let (negative, cs) := Numeral.sign (text.toList.dropWhile isBlank)
  if "Infinity".toList.isPrefixOf cs then some (infinity.withSign negative)
  else (Numeral.read? cs).map fun (d, _) => d.nearest negative

end Binary64

end RpnTape
