import RpnTape.Formula.Text
import RpnTape.Typesetter

/-!
# Interpret — from program text to result text
-/

namespace RpnTape

/-- The results of a program as text, one equation a line, or why it stopped. -/
def interpret (text : String) : Except Fault String :=
  let run := Run.ofText text
  match run.fault with
  | some fault => .error fault
  | none => .ok ("\n".intercalate (run.equations.map Formula.text))

/-- What is said when a program has no results because of a fault. -/
def Fault.interpretMessage (fault : Fault) : String := "Evaluation error: " ++ fault.message

end RpnTape
