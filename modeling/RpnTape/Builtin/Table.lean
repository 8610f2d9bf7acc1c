import RpnTape.Builtin.Basic

/-!
# Builtin/Table — the builtins of the calculator

The order of the table is the order in which builtins are listed. An entry is made from its
operation by `function`, `operator` or `constant`, which give it the arity the operation takes, so
no entry is ever refused by its own operation.
-/

namespace RpnTape

namespace Builtin

/-- A function of one operand that is shown by its name. -/
def function (name : String) (f : UnaryOperation) (shape : Shape := .call) : Builtin :=
  ⟨name, 1, .unary f, none, shape⟩

/-- An operator on two operands. -/
def operator (name : String) (f : BinaryOperation) (shape : Shape) (glyph : Option String := none) :
    Builtin :=
  ⟨name, 2, .binary f, glyph, shape⟩

/-- A number with a name. -/
def constant (name : String) (bits : UInt64) (glyph : Option String := none) : Builtin :=
  ⟨name, 0, .constant (.ofBits bits), glyph, .call⟩

/-- Every builtin. The constants are the doubles nearest to π and e. -/
def table : List Builtin :=
  [operator "+" .add .additive,
    operator "-" .subtract .additive,
    operator "*" .multiply .multiplicative (some "×"),
    operator "/" .divide .fraction,
    operator "%" .remainder .multiplicative (some "mod"),
    function "abs" .abs,
    function "sin" .sin,
    function "cos" .cos,
    function "tan" .tan,
    function "asin" .asin,
    function "acos" .acos,
    function "atan" .atan,
    function "exp" .exp,
    function "log" .log,
    function "sqrt" .sqrt .radical,
    operator "pow" .power .power,
    constant "PI" 0x400921FB54442D18 (some "π"),
    constant "E" 0x4005BF0A8B145769]

/-- The builtin called by a word. -/
def lookup? (name : String) : Option Builtin := table.find? fun b => b.name = name

theorem mem_table_of_lookup? {word : String} {b : Builtin} (h : lookup? word = some b) :
    b ∈ table := List.mem_of_find?_eq_some h

end Builtin

end RpnTape
