import RpnTape.Typesetter.Layout

/-!
# Typesetter/Expansion — writing a layout out as a formula

The parts of a layout are written one after another into a row. An operand that stands bare
writes into the same row; one that stands in parentheses or inside a construction opens a row of
its own, which is folded into the row below once it is complete. What is left to do and the open
rows are both stacks, so the depth of an expression does not matter, and a long chain of bare
operands is written in one pass.
-/

namespace RpnTape

/-- How complete rows are folded into the row below them. -/
inductive Closing where
  | parentheses
  | fraction
  | radical
  | superscript

/-- Something left to do. -/
inductive Task where
  /-- Write parts into the latest row. -/
  | emit (parts : List Part)
  /-- Start a row. -/
  | openRow
  /-- Fold the latest rows. -/
  | closeRow (closing : Closing)

/-- The state of an expansion: what is left to do, the next task first, and the open rows, the
latest first and each with its latest piece first. -/
structure Expansion where
  tasks : List Task
  rows : List (List Piece)

/-- Folds the latest rows into the one below. A fraction and a superscript fold two rows, of which
the lower one was written first. -/
def Closing.close? : Closing → List (List Piece) → Option (List (List Piece))
  | parentheses, inner :: row :: rows =>
    some ((.row (.operator "(" :: inner.reverse ++ [.operator ")"]) :: row) :: rows)
  | radical, inner :: row :: rows => some ((.radical inner.reverse :: row) :: rows)
  | fraction, inner :: outer :: row :: rows =>
    some ((.fraction outer.reverse inner.reverse :: row) :: rows)
  | superscript, inner :: outer :: row :: rows =>
    some ((.superscript outer.reverse inner.reverse :: row) :: rows)
  | _, _ => none

namespace Layouts

/-- The task to write an entry that is laid out. -/
def emit? (layouts : Layouts) (id : NodeId) : Option Task :=
  layouts[id]?.map fun layout => .emit layout.parts

/-- The tasks that fill a slot. -/
def fill? (layouts : Layouts) (slot : Slot) : Option (List Task) := do
  let emit ← layouts.emit? slot.id
  return if slot.wrapped then [.openRow, emit, .closeRow .parentheses] else [emit]

end Layouts

namespace Expansion

/-- Writes one part. -/
def write? (layouts : Layouts) (part : Part) (s : Expansion) : Option Expansion :=
  match part, s.rows with
  | .piece piece, row :: rows => some { s with rows := (piece :: row) :: rows }
  | .piece _, [] => none
  | .splice slot, _ => do return { s with tasks := (← layouts.fill? slot) ++ s.tasks }
  | .fraction numerator denominator, _ => do
    let numerator ← layouts.emit? numerator
    let denominator ← layouts.emit? denominator
    let tasks := [.openRow, numerator, .openRow, denominator, .closeRow .fraction]
    return { s with tasks := tasks ++ s.tasks }
  | .radical radicand, _ => do
    let radicand ← layouts.emit? radicand
    return { s with tasks := [.openRow, radicand, .closeRow .radical] ++ s.tasks }
  | .superscript base exponent, _ => do
    let base ← layouts.fill? base
    let exponent ← layouts.emit? exponent
    let tasks := .openRow :: base ++ [.openRow, exponent, .closeRow .superscript]
    return { s with tasks := tasks ++ s.tasks }

/-- Performs one task; there is no state after a task that cannot be performed. -/
def perform? (layouts : Layouts) (task : Task) (s : Expansion) : Option Expansion :=
  match task with
  | .emit [] => some s
  | .emit (part :: parts) => write? layouts part { s with tasks := .emit parts :: s.tasks }
  | .openRow => some { s with rows := [] :: s.rows }
  | .closeRow closing => do return { s with rows := ← closing.close? s.rows }

/-- Performs the next task. When none is left, the latest row is the formula. -/
def step (layouts : Layouts) : Expansion → Expansion ⊕ Option Formula
  | ⟨[], rows⟩ => .inr (rows.head?.map List.reverse)
  | ⟨task :: tasks, rows⟩ =>
    match perform? layouts task ⟨tasks, rows⟩ with
    | none => .inr none
    | some s => .inl s

/-- Performs all tasks. There is no result if this never ends. -/
def run (layouts : Layouts) : Expansion → Option (Option Formula) := Loop.run ⟨step layouts⟩

end Expansion

/-- The formula of an entry that is laid out with all that it is made from. -/
def Layouts.expand (layouts : Layouts) (id : NodeId) : Option (Option Formula) :=
  match layouts.emit? id with
  | none => some none
  | some emit => Expansion.run layouts ⟨[emit], [[]]⟩

end RpnTape
