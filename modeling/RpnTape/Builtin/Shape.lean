/-!
# Builtin/Shape — how an application is laid out, and how tightly it binds

Binding powers decide where parentheses stand: a term needs them on a side where it binds less
tightly than its surroundings pull.
-/

namespace RpnTape

/-- How tightly a term holds together at its left and right end. -/
structure BindingPower where
  left : Nat
  right : Nat
  deriving DecidableEq, Repr

namespace BindingPower

/-- The power of a term that nothing pulls apart. -/
def atom : BindingPower := ⟨255, 255⟩

/-- The power of an assignment, which binds less tightly than any operator. -/
def assignment : BindingPower := ⟨1, 2⟩

end BindingPower

/-- How an application is laid out. -/
inductive Shape where
  /-- Between its operands, with sums. -/
  | additive
  /-- Between its operands, with products. -/
  | multiplicative
  /-- One operand over the other. -/
  | fraction
  /-- Under a radical sign. -/
  | radical
  /-- The second operand raised. -/
  | power
  /-- The name and the operands in parentheses, or the name alone. -/
  | call
  deriving DecidableEq, Repr

namespace Shape

/-- The name of the shape. -/
def label : Shape → String
  | additive => "Additive"
  | multiplicative => "Multiplicative"
  | fraction => "Fraction"
  | radical => "Radical"
  | power => "Power"
  | call => "Call"

/-- Both infix levels associate to the left: the right end pulls harder than the left. A fraction
bar and the parentheses of a call enclose what they hold. -/
def bindingPower : Shape → BindingPower
  | additive => ⟨3, 4⟩
  | multiplicative => ⟨5, 6⟩
  | radical => ⟨7, 8⟩
  | power => ⟨9, 10⟩
  | fraction | call => .atom

end Shape

end RpnTape
