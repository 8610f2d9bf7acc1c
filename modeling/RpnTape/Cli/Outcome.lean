import RpnTape.Cli.Request
import RpnTape.Formula.MathML
import RpnTape.Report

/-!
# Cli/Outcome — what the program prints and how it ends
-/

namespace RpnTape

/-- What the program leaves behind. -/
structure Outcome where
  /-- Zero on success. -/
  exit : Nat
  /-- What is written to the standard output. -/
  output : String
  /-- What is written to the standard error. -/
  errors : String
  deriving DecidableEq, Repr

/-- Each text on a line of its own, the last one too. -/
def lines (texts : List String) : String := String.join (texts.map (· ++ "\n"))

/-- The results of a run in a format. -/
def Run.printed (run : Run) : Format → String
  | .text => lines (run.equations.map Formula.text)
  | .mathML => lines (run.equations.map Formula.mathML)
  | .json => lines [run.report.text]

namespace Outcome

/-- An end without errors. -/
def success (output : String) : Outcome := ⟨0, output, ""⟩

/-- The end of a run: its results are printed also when it stopped at a fault. -/
def ofRun (format : Format) (run : Run) : Outcome :=
  match run.fault with
  | none => success (run.printed format)
  | some fault => ⟨1, run.printed format, "Error: " ++ fault.message ++ "\n"⟩

/-- The end when the standard input is no text. -/
def unreadable : Outcome :=
  ⟨1, "", "Error: failed to read program from stdin\n\nCaused by:\n" ++
    "    stream did not contain valid UTF-8\n"⟩

end Outcome

namespace Request

/-- The list of the builtins, one a line. -/
def builtinLines : List String :=
  Builtin.table.map fun b => b.name ++ "\t" ++ b.arity.repr ++ "\t" ++ b.display

/-- The words the program is made of, if it is given on the command line. Without any it is read
from the standard input. -/
def programWords : Request → Option (List String)
  | eval _ words | tokens words => some words
  | version | builtins => none

/-- Does the request read the standard input? -/
def readsInput (request : Request) : Bool := request.programWords = some []

/-- The program text: the words of the command line, or the standard input if there are none. -/
def programText? (words : List String) (input : ByteArray) : Option String :=
  if words.isEmpty then String.fromUTF8? input else some (" ".intercalate words)

/-- Does what the request asks for. -/
def outcome (request : Request) (input : ByteArray) : Outcome :=
  match request with
  | version => .success "stackmath 0.1.0\n"
  | builtins => .success (lines builtinLines)
  | eval format words =>
    match programText? words input with
    | none => .unreadable
    | some text => .ofRun format (.ofText text)
  | tokens words =>
    match programText? words input with
    | none => .unreadable
    | some text => .success (lines (RpnTape.words text))

end Request

end RpnTape
