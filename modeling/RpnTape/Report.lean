import RpnTape.Formula.Text
import RpnTape.Json.Basic
import RpnTape.Typesetter

/-!
# Report — a whole run as one JSON document

The report holds the tape, the results, the variables, the fault if there was one, and the equations
both as formulas and as text.
-/

namespace RpnTape

/-- A document that says of what kind it is. -/
def Json.tagged (kind : String) (fields : List (String × Json)) : Json :=
  .object (("kind", .string kind) :: fields)

/-- A list of positions. -/
def Json.positions (ids : List NodeId) : Json := .array (ids.map .natural)

/-- A node of the tape; a builtin is given by its name. -/
def Node.json : Node → Json
  | literal => .tagged "Literal" []
  | apply operator args =>
    .tagged "Apply" [("operator", .string operator.name), ("args", .positions args)]
  | bind name source => .tagged "Bind" [("name", .string name), ("source", .natural source)]
  | read name => .tagged "VarRef" [("name", .string name)]

/-- The name of the kind of fault. -/
def Fault.kind : Fault → String
  | unknownOperator _ => "UnknownOperator"
  | insufficientOperands _ _ _ => "InsufficientOperands"
  | emptyStackOnAssignment _ => "EmptyStackOnAssignment"
  | unknownVariable _ => "UnknownVariable"
  | unimplementedFeature _ => "UnimplementedFeature"

/-- What a fault says of itself. -/
def Fault.fields : Fault → List (String × Json)
  | unknownOperator name | emptyStackOnAssignment name | unknownVariable name =>
    [("name", .string name)]
  | insufficientOperands name needed available =>
    [("name", .string name), ("needed", .natural needed), ("have", .natural available)]
  | unimplementedFeature feature => [("feature", .string feature)]

/-- A fault with its kind. -/
def Fault.json (fault : Fault) : Json := .tagged fault.kind fault.fields

mutual

/-- A piece of a formula, under the name of its kind. -/
def Piece.json : Piece → Json
  | .number text => .object [("number", .string text)]
  | .identifier name => .object [("identifier", .string name)]
  | .operator sign => .object [("operator", .string sign)]
  | .row pieces => .object [("row", .array (Formula.jsons pieces))]
  | .fraction numerator denominator =>
    .object [("fraction", .object [("numerator", .array (Formula.jsons numerator)),
      ("denominator", .array (Formula.jsons denominator))])]
  | .radical radicand => .object [("radical", .array (Formula.jsons radicand))]
  | .superscript base exponent =>
    .object [("superscript", .object [("base", .array (Formula.jsons base)),
      ("exponent", .array (Formula.jsons exponent))])]

/-- The pieces of a formula, each under the name of its kind. -/
def Formula.jsons : List Piece → List Json
  | [] => []
  | piece :: rest => piece.json :: Formula.jsons rest

end

/-- A formula as the list of its pieces. -/
def Formula.json (formula : Formula) : Json := .array (Formula.jsons formula)

/-- The variables and their values, by name. -/
def Environment.json (env : Environment) : Json :=
  .object (env.bindings.map fun (name, value) => (name, .number value))

/-- The report of a run. -/
def Run.report (run : Run) : Json :=
  let equations := run.equations
  .object
    [("nodes", .array (run.tape.nodes.map Node.json)),
      ("values", .array (run.tape.values.map .number)),
      ("top_level", .positions run.results),
      ("environment", run.environment.json),
      ("error", (run.fault.map Fault.json).getD .null),
      ("message", .optional (run.fault.map Fault.message)),
      ("equations", .array (equations.map Formula.json)),
      ("text", .array (equations.map fun equation => .string equation.text))]

end RpnTape
