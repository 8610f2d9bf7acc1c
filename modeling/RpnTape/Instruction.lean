import RpnTape.Builtin.Table
import RpnTape.Number.Numeral

/-!
# Instruction — what a word of a program says

The spelling decides, in this order: a word that starts with a number is that number; `=x` assigns;
`$x` refers; the name of a builtin calls it; any other word reads a variable. The two marks need a
name behind them, so `=` and `$` alone read variables of those names.
-/

namespace RpnTape

/-- What a word says. -/
inductive Instruction where
  /-- Push a number. -/
  | push (value : Binary64)
  /-- Name the top of the stack. -/
  | assign (name : String)
  /-- Refer to a variable. -/
  | refer (name : String)
  /-- Apply a builtin to the top of the stack. -/
  | call (builtin : Builtin)
  /-- Push the value of a variable. -/
  | read (name : String)
  deriving DecidableEq

namespace Instruction

/-- The name behind a mark, if the word starts with the mark and something follows. -/
def markedName? (mark : Char) (word : String) : Option String :=
  match word.toList with
  | [] | [_] => none
  | c :: name => if c = mark then some (String.ofList name) else none

/-- The instruction a word spells. -/
def ofWord (word : String) : Instruction :=
  match Binary64.read? word with
  | some value => push value
  | none =>
    match markedName? '=' word with
    | some name => assign name
    | none =>
      match markedName? '$' word with
      | some name => refer name
      | none =>
        match Builtin.lookup? word with
        | some builtin => call builtin
        | none => read word

end Instruction

end RpnTape
