import RpnTape.Machine.Basic
import RpnTape.Text.Words

/-!
# Machine/Run — running a program to its end or its first fault
-/

namespace RpnTape

/-- What a run leaves behind, also when it stopped at a fault. -/
structure Run where
  /-- Everything computed. -/
  tape : Tape
  /-- The entries left on the stack, in the order of the program. -/
  results : List NodeId
  /-- The variables at the end. -/
  environment : Environment
  /-- Why the run stopped early, if it did. -/
  fault : Option Fault
  deriving DecidableEq

/-- The values of the results. -/
def Run.resultValues (run : Run) : List Binary64 := run.results.filterMap run.tape.value?

namespace Machine

/-- Ends a run. -/
def finish (m : Machine) (fault : Option Fault) : Run :=
  ⟨m.tape, m.stack.reverse, m.environment, fault⟩

/-- Performs words until one is rejected or none is left. -/
def run (m : Machine) : List String → Run
  | [] => m.finish none
  | word :: rest =>
    match m.step word with
    | (m', .ok _) => m'.run rest
    | (m', .error fault) => m'.finish (some fault)

end Machine

namespace Run

/-- The run of a list of words. -/
def ofWords (program : List String) : Run := Machine.initial.run program

/-- The run of a program text. -/
def ofText (text : String) : Run := ofWords (words text)

end Run

end RpnTape
