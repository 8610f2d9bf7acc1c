/-!
# Fault — why a word of a program is rejected
-/

namespace RpnTape

/-- The cause of a rejected word. -/
inductive Fault where
  /-- An operator whose operation does not take its number of operands. -/
  | unknownOperator (name : String)
  /-- Fewer operands on the stack than the operator needs. -/
  | insufficientOperands (name : String) (needed available : Nat)
  /-- An assignment with nothing on the stack. -/
  | emptyStackOnAssignment (name : String)
  /-- A variable that no assignment has bound. -/
  | unknownVariable (name : String)
  /-- A word whose meaning is reserved. -/
  | unimplementedFeature (feature : String)
  deriving DecidableEq, Repr

/-- The fault in words. -/
def Fault.message : Fault → String
  | unknownOperator name => "Unknown operator: " ++ name
  | insufficientOperands name needed available =>
    "Not enough operands for operator: " ++ name ++ " (needs " ++ needed.repr ++ ", have " ++
      available.repr ++ ")"
  | emptyStackOnAssignment name => "Nothing on the stack to assign to " ++ name
  | unknownVariable name => "Unknown variable: " ++ name
  | unimplementedFeature feature => "Not implemented: " ++ feature

end RpnTape
