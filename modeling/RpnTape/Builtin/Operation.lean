import RpnTape.Number.Binary64

/-!
# Builtin/Operation — what a builtin computes

Operations are data, so that builtins can be compared and listed; `Operation.eval?` gives them their
meaning on a list of operands, in argument order.
-/

namespace RpnTape

/-- The operations on one number. -/
inductive UnaryOperation where
  | abs | sin | cos | tan | asin | acos | atan | exp | log | sqrt
  deriving DecidableEq, Repr

/-- The operations on two numbers. -/
inductive BinaryOperation where
  | add | subtract | multiply | divide | remainder | power
  deriving DecidableEq, Repr

/-- An operation with its number of operands. -/
inductive Operation where
  | constant (value : Binary64)
  | unary (f : UnaryOperation)
  | binary (f : BinaryOperation)
  deriving DecidableEq

/-- The function an operation on one number stands for; `log` is the natural logarithm. -/
def UnaryOperation.eval : UnaryOperation → Binary64 → Binary64
  | abs => Binary64.abs
  | sin => Binary64.lift Float.sin
  | cos => Binary64.lift Float.cos
  | tan => Binary64.lift Float.tan
  | asin => Binary64.lift Float.asin
  | acos => Binary64.lift Float.acos
  | atan => Binary64.lift Float.atan
  | exp => Binary64.lift Float.exp
  | log => Binary64.lift Float.log
  | sqrt => Binary64.lift Float.sqrt

/-- The function an operation on two numbers stands for. -/
def BinaryOperation.eval : BinaryOperation → Binary64 → Binary64 → Binary64
  | add => (· + ·)
  | subtract => (· - ·)
  | multiply => (· * ·)
  | divide => (· / ·)
  | remainder => (· % ·)
  | power => Binary64.power

namespace Operation

/-- The operation on its operands; there is no value for a wrong number of them. -/
def eval? : Operation → List Binary64 → Option Binary64
  | constant value, [] => some value
  | unary f, [a] => some (f.eval a)
  | binary f, [a, b] => some (f.eval a b)
  | _, _ => none

end Operation

end RpnTape
