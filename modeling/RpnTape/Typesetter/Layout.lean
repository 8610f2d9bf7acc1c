import RpnTape.Formula.Basic
import RpnTape.Loop
import RpnTape.Tape
import Std.Data.HashMap

/-!
# Typesetter/Layout — how an entry is put together from its operands

A layout is a row of parts. A part is a piece, or it says which operands stand there and how;
operands are named by their positions, so the layout of an entry is as long as its node, however
deep the expression below it is.

Where parentheses stand is decided here, from the binding powers of the operands. So an entry is
laid out after its operands: `Laying` keeps the positions that wait on a stack, with the operands
that an entry still lacks above the entry itself.
-/

namespace RpnTape

/-- The place of an operand in the row of the entry that holds it. -/
structure Slot where
  id : NodeId
  /-- Does the operand stand in parentheses? -/
  wrapped : Bool

/-- A part of a layout. -/
inductive Part where
  /-- A finished piece. -/
  | piece (piece : Piece)
  /-- The formula of an operand, in the same row. -/
  | splice (slot : Slot)
  /-- One operand over another. -/
  | fraction (numerator denominator : NodeId)
  /-- An operand under a radical sign. -/
  | radical (radicand : NodeId)
  /-- An operand raised behind another. -/
  | superscript (base : Slot) (exponent : NodeId)

/-- The parts of an entry's formula, and how tightly it holds together. -/
structure Layout where
  parts : List Part
  power : BindingPower

/-- The arguments of a call in parentheses; a call without arguments has none. -/
def Part.arguments (args : List NodeId) : List Part :=
  if args.isEmpty then []
  else .piece (.operator "(") ::
    [Part.piece (.operator ",")].intercalate (args.map fun id => [.splice ⟨id, false⟩]) ++
      [.piece (.operator ")")]

/-- The layouts made so far. -/
abbrev Layouts := Std.HashMap NodeId Layout

namespace Layouts

/-- How tightly an entry that is laid out holds together. -/
def power? (layouts : Layouts) (id : NodeId) : Option BindingPower := layouts[id]?.map Layout.power

/-- The layout of an application. An operand of an infix operator and the base of a power stand in
parentheses when, on the side that faces the operator, they hold together less tightly than the
operator pulls. -/
def application? (layouts : Layouts) (operator : Builtin) (args : List NodeId) : Option Layout :=
  let power := operator.shape.bindingPower
  match operator.shape, args with
  | .additive, [a, b] | .multiplicative, [a, b] => do
    let left ← layouts.power? a
    let right ← layouts.power? b
    return { parts := [.splice ⟨a, left.right < power.left⟩, .piece (.operator operator.display),
               .splice ⟨b, right.left < power.right⟩]
             power }
  | .fraction, [a, b] => some { parts := [.fraction a b], power }
  | .radical, [a] => some { parts := [.radical a], power }
  | .power, [a, b] => do
    let base ← layouts.power? a
    return { parts := [.superscript ⟨a, base.right < power.left⟩ b], power }
  | _, args =>
    some { parts := .piece (.identifier operator.display) :: Part.arguments args, power := .atom }

/-- The layout of an entry whose operands are laid out. -/
def layout? (layouts : Layouts) (entry : Entry) : Option Layout :=
  match entry.node with
  | .literal => some { parts := entry.value.formula.map .piece, power := .atom }
  | .read name => some { parts := [.piece (.identifier name)], power := .atom }
  | .bind name source =>
    some { parts := [.piece (.identifier name), .piece (.operator "≔"), .splice ⟨source, false⟩]
           power := .assignment }
  | .apply operator args => layouts.application? operator args

end Layouts

/-- The state of laying out: what waits, the next position first, and what is done. -/
structure Laying where
  pending : List NodeId
  layouts : Layouts

namespace Laying

/-- Looks at the next position. One that is laid out is done with; one that lacks operands waits
below them, and the last of them comes next. The work ends when nothing waits, and it is broken off
at a position off the tape; the result says which of the two it was. -/
def step (tape : Tape) : Laying → Laying ⊕ (Bool × Layouts)
  | ⟨[], layouts⟩ => .inr (true, layouts)
  | ⟨next :: rest, layouts⟩ =>
    if layouts.contains next then .inl ⟨rest, layouts⟩
    else
      match tape.get? next with
      | none => .inr (false, layouts)
      | some entry =>
        match entry.node.operands.filter fun id => !layouts.contains id with
        | [] =>
          match layouts.layout? entry with
          | none => .inr (false, layouts)
          | some layout => .inl ⟨rest, layouts.insert next layout⟩
        | missing => .inl ⟨missing.reverse ++ next :: rest, layouts⟩

/-- Lays out what waits. There is no result if this never ends. -/
def run (tape : Tape) : Laying → Option (Bool × Layouts) := Loop.run ⟨step tape⟩

end Laying

end RpnTape
