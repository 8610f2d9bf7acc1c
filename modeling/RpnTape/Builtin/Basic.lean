import RpnTape.Builtin.Operation
import RpnTape.Builtin.Shape
import RpnTape.Fault
import RpnTape.Text.Quoted

/-!
# Builtin/Basic — operators, functions and constants

A builtin joins the word that calls it, the operation it performs and the way it is shown. Two
builtins are the same when they are called by the same word.
-/

namespace RpnTape

/-- An operator, function or constant. -/
structure Builtin where
  /-- The word that calls it. -/
  name : String
  /-- How many operands it takes from the stack. -/
  arity : Nat
  /-- What it computes. -/
  operation : Operation
  /-- How it is shown, if not by its name. -/
  glyph : Option String
  /-- How its applications are laid out. -/
  shape : Shape
  deriving DecidableEq

namespace Builtin

/-- How the builtin is shown. -/
def display (b : Builtin) : String := b.glyph.getD b.name

/-- Are the two called by the same word? -/
def isSame (a b : Builtin) : Bool := a.name = b.name

/-- Applies the builtin to values in argument order. A builtin whose arity is not what its operation
takes can be applied to nothing. -/
def apply (b : Builtin) (args : List Binary64) : Except Fault Binary64 :=
  if args.length = b.arity then
    match b.operation.eval? args with
    | some value => .ok value
    | none => .error (.unknownOperator b.name)
  else .error (.unknownOperator b.name)

/-- The glyph in the summary of a builtin. -/
def glyphSummary : Option String → String
  | none => "None"
  | some glyph => "Some(" ++ quoted glyph ++ ")"

/-- All that is known of the builtin but its operation, on one line. -/
def summary (b : Builtin) : String :=
  "Builtin \x7b name: " ++ quoted b.name ++ ", arity: " ++ b.arity.repr ++ ", glyph: " ++
    glyphSummary b.glyph ++ ", notation: " ++ b.shape.label ++ " \x7d"

end Builtin

end RpnTape
