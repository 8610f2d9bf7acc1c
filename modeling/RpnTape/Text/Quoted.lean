/-!
# Text/Quoted — text between double quotes

The quote and the backslash are marked by a backslash; tab, carriage return, line feed and the zero
character are written by their letters. All else stands for itself.
-/

namespace RpnTape

/-- How one character is written between quotes. -/
def quotedChar : Char → List Char
  | '"' => ['\\', '"']
  | '\\' => ['\\', '\\']
  | '\t' => ['\\', 't']
  | '\r' => ['\\', 'r']
  | '\n' => ['\\', 'n']
  | '\x00' => ['\\', '0']
  | c => [c]

/-- The text between double quotes, with the characters that would be misread marked. -/
def quoted (text : String) : String :=
  "\"" ++ String.ofList (text.toList.flatMap quotedChar) ++ "\""

end RpnTape
