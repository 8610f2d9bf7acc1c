import RpnTape.Number.Written

/-!
# Json/Basic — JSON documents and their indented text

Objects keep their fields in the order they were given. A double that is no finite number has no
text in JSON; `Json.number` writes it as `null`.
-/

namespace RpnTape

/-- A JSON document. -/
inductive Json where
  | null
  /-- A whole number. -/
  | natural (n : Nat)
  /-- A finite double. -/
  | double (value : Binary64)
  | string (text : String)
  | array (items : List Json)
  /-- Fields in order. -/
  | object (fields : List (String × Json))

/-- Documents write leading exponents from -5 to 15 positionally, whole numbers with a zero behind
the point, exponents with either sign, and of two equally near decimals the even one. -/
def documentStyle : NumberStyle where
  leastPlain := -5
  greatestPlain := 15
  wholeMark := ".0"
  plusMark := "+"
  tie := .toEven

/-- A finite double as documents write it; zero keeps its sign. -/
def Binary64.documentText (v : Binary64) : String :=
  v.signed (if v.isZero then ['0', '.', '0'] else v.writtenMagnitude documentStyle)

namespace Json

/-- The document of a double. -/
def number (v : Binary64) : Json := if v.isFinite then double v else null

/-- The document of a text that may be missing. -/
def optional : Option String → Json
  | none => null
  | some text => string text

/-- A control character by its code, in four hexadecimal digits. -/
def escapedCode (c : Char) : List Char :=
  ['\\', 'u', '0', '0', Nat.digitChar (c.toNat / 16), Nat.digitChar (c.toNat % 16)]

/-- How one character is written in a string. -/
def escapedChar (c : Char) : List Char :=
  match c with
  | '"' => ['\\', '"']
  | '\\' => ['\\', '\\']
  | '\x08' => ['\\', 'b']
  | '\x0c' => ['\\', 'f']
  | '\n' => ['\\', 'n']
  | '\r' => ['\\', 'r']
  | '\t' => ['\\', 't']
  | c => if c.toNat < 0x20 then escapedCode c else [c]

/-- A text between quotes. -/
def stringText (text : String) : String :=
  "\"" ++ String.ofList (text.toList.flatMap escapedChar) ++ "\""

/-- The margin at a depth of nesting. -/
def margin (depth : Nat) : String := String.ofList (List.replicate (2 * depth) ' ')

/-- Lines between brackets, each on its own; nothing between them if there are none. -/
def bracketed (opening closing : String) (depth : Nat) (lines : List String) : String :=
  if lines.isEmpty then opening ++ closing
  else
    opening ++ "\n" ++ ",\n".intercalate (lines.map (margin (depth + 1) ++ ·)) ++ "\n" ++
      margin depth ++ closing

mutual

/-- The document as text at a depth of nesting, without a margin before its first line. -/
def textAt : Nat → Json → String
  | _, null => "null"
  | _, natural n => n.repr
  | _, double value => value.documentText
  | _, string text => stringText text
  | depth, array items => bracketed "[" "]" depth (itemTexts (depth + 1) items)
  | depth, object fields => bracketed "\x7b" "\x7d" depth (fieldTexts (depth + 1) fields)

/-- The texts of the items of an array. -/
def itemTexts : Nat → List Json → List String
  | _, [] => []
  | depth, item :: rest => textAt depth item :: itemTexts depth rest

/-- The texts of the fields of an object. -/
def fieldTexts : Nat → List (String × Json) → List String
  | _, [] => []
  | depth, (key, value) :: rest =>
    (stringText key ++ ": " ++ textAt depth value) :: fieldTexts depth rest

end

/-- The document as text, two spaces of margin to each depth. -/
def text (document : Json) : String := document.textAt 0

end Json

end RpnTape
