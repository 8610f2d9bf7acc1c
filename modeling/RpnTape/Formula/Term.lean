import RpnTape.Builtin.Basic
import RpnTape.Formula.Basic

/-!
# Formula/Term — laying out an application

A term is a formula that knows how tightly it holds together. A builtin lays out its operands in its
own shape if their number fits the shape, and as a call otherwise. An operand of an infix operator
and the base of a power stand in parentheses when, on the side that faces the operator, they hold
together less tightly than the operator pulls.

How tightly an application holds together depends on the builtin and the number of its operands only
(`power_layOut`), so it is known before anything is laid out.
-/

namespace RpnTape

/-- A formula and how tightly it holds together. -/
structure Term where
  formula : Formula
  power : BindingPower

/-- The formula, as one row in parentheses if asked for. -/
def Term.wrapped (wrap : Bool) (t : Term) : Formula :=
  if wrap then [.row (.operator "(" :: t.formula ++ [.operator ")"])] else t.formula

/-- The arguments of a call in parentheses; a call without arguments has none. -/
def Formula.arguments (args : List Formula) : Formula :=
  if args.isEmpty then []
  else .operator "(" :: [Piece.operator ","].intercalate args ++ [.operator ")"]

/-- Does the shape lay out this many operands in its own way? -/
def Shape.fits : Shape → Nat → Bool
  | additive, 2 | multiplicative, 2 | fraction, 2 | radical, 1 | power, 2 => true
  | _, _ => false

/-- How tightly an application to this many operands holds together. -/
def Builtin.applicationPower (operator : Builtin) (count : Nat) : BindingPower :=
  if operator.shape.fits count then operator.shape.bindingPower else .atom

/-- The application of a builtin to laid out operands. -/
def Builtin.layOut (operator : Builtin) (args : List Term) : Term :=
  let power := operator.shape.bindingPower
  match operator.shape, args with
  | .additive, [a, b] | .multiplicative, [a, b] =>
    { formula := a.wrapped (a.power.right < power.left) ++ .operator operator.display ::
        b.wrapped (b.power.left < power.right)
      power }
  | .fraction, [a, b] => { formula := [.fraction a.formula b.formula], power }
  | .radical, [a] => { formula := [.radical a.formula], power }
  | .power, [a, b] =>
    { formula := [.superscript (a.wrapped (a.power.right < power.left)) b.formula], power }
  | _, args =>
    { formula := .identifier operator.display :: Formula.arguments (args.map Term.formula)
      power := .atom }

/-- The shapes with a layout of their own, by the number of their operands. -/
theorem Shape.eq_of_fits {shape : Shape} {count : Nat} (h : shape.fits count = true) :
    count = 2 ∧ (shape = .additive ∨ shape = .multiplicative ∨ shape = .fraction ∨ shape = .power) ∨
      count = 1 ∧ shape = .radical := by
  unfold fits at h
  split at h <;> simp_all

/-- Where the number does not fit, the layout is that of a call. -/
theorem Builtin.layOut_of_not_fits {operator : Builtin} {args : List Term}
    (h : operator.shape.fits args.length = false) :
    operator.layOut args =
      ⟨.identifier operator.display :: Formula.arguments (args.map Term.formula), .atom⟩ := by
  unfold layOut
  split
  case h_6 => rfl
  all_goals simp_all [Shape.fits]

/-- **The operands play no part in how tightly an application holds
together** — only their number. -/
theorem Builtin.power_layOut (operator : Builtin) (args : List Term) :
    (operator.layOut args).power = operator.applicationPower args.length := by
  obtain ⟨_, _, _, _, shape⟩ := operator
  match args with
  | [] | [_] | [_, _] | _ :: _ :: _ :: _ => cases shape <;> rfl

end RpnTape
