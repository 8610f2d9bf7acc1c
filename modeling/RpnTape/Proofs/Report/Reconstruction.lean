import RpnTape.Proofs.Cli.Agreement
import RpnTape.Proofs.Json.Reader
import RpnTape.Proofs.Machine.Order
import RpnTape.Proofs.Number.Scanning

/-!
# Proofs/Report/Reconstruction — what a report says of a run

A report is read by the names of its fields: each is looked up in its object, and must stand
there once. What can be read from it is a `Summary`: all of the run, except that a value which is
no finite number is missing. **The report of a run stands for one value, and its summary is read
from it** (`report_lossless`).
-/

namespace RpnTape

/-! ## Reading a value -/

namespace Json.Value

/-- The field of an object with that name, if there is one such field and no more. -/
def field? (name : String) : Value → Option Value
  | object fields =>
    match fields.filter fun field => field.1 = name with
    | [field] => some field.2
    | _ => none
  | _ => none

/-- The text of a string. -/
def string? : Value → Option String
  | string text => some text
  | _ => none

/-- A whole number, written without point, exponent and sign. -/
def natural? : Value → Option ℕ
  | number text => if text.all Char.isDigit then some (Nat.ofDigitChars 10 text 0) else none
  | _ => none

/-- A number, or nothing where there is none. -/
def double? : Value → Option (Option Binary64)
  | null => some none
  | number text => (Binary64.parseWhole? text).map some
  | _ => none

/-- What is read from each item of an array. -/
def array? {α : Type} (read : Value → Option α) : Value → Option (List α)
  | array items => items.mapM read
  | _ => none

/-- What is read from each field of an object, with its name. -/
def fields? {α : Type} (read : Value → Option α) : Value → Option (List (String × α))
  | object fields => fields.mapM fun (name, v) => (read v).map (name, ·)
  | _ => none

/-- What is read from a value that may be missing. -/
def optional? {α : Type} (read : Value → Option α) : Value → Option (Option α)
  | null => some none
  | v => (read v).map some

end Json.Value

open Json (Value)

/-- The number, if it is finite. -/
def Binary64.finite? (v : Binary64) : Option Binary64 := if v.isFinite then some v else none

/-- The node that a value of the report tells of. -/
def Node.ofValue? (v : Value) : Option Node := do
  let kind ← (← v.field? "kind").string?
  if kind = "Literal" then return .literal
  else if kind = "Apply" then
    let operator ← Builtin.lookup? (← (← v.field? "operator").string?)
    return .apply operator (← (← v.field? "args").array? Value.natural?)
  else if kind = "Bind" then
    return .bind (← (← v.field? "name").string?) (← (← v.field? "source").natural?)
  else if kind = "VarRef" then return .read (← (← v.field? "name").string?)
  else none

/-- The fault that a value of the report tells of. -/
def Fault.ofValue? (v : Value) : Option Fault := do
  let kind ← (← v.field? "kind").string?
  if kind = "UnimplementedFeature" then
    return .unimplementedFeature (← (← v.field? "feature").string?)
  else
    let name ← (← v.field? "name").string?
    if kind = "UnknownOperator" then return .unknownOperator name
    else if kind = "EmptyStackOnAssignment" then return .emptyStackOnAssignment name
    else if kind = "UnknownVariable" then return .unknownVariable name
    else if kind = "InsufficientOperands" then
      let needed ← (← v.field? "needed").natural?
      return .insufficientOperands name needed (← (← v.field? "have").natural?)
    else none

mutual

/-- The piece of a formula that a value of the report tells of: its one field names the kind. -/
def Piece.ofValue? : Value → Option Piece
  | .object [(kind, .string text)] =>
    if kind = "number" then some (.number text)
    else if kind = "identifier" then some (.identifier text)
    else if kind = "operator" then some (.operator text)
    else none
  | .object [(kind, .array items)] => do
    let pieces ← Formula.ofValues? items
    if kind = "row" then return .row pieces
    else if kind = "radical" then return .radical pieces
    else none
  | .object [(kind, .object [(key, .array items), (key', .array items')])] => do
    let pieces ← Formula.ofValues? items
    let pieces' ← Formula.ofValues? items'
    if kind = "fraction" ∧ key = "numerator" ∧ key' = "denominator" then
      return .fraction pieces pieces'
    else if kind = "superscript" ∧ key = "base" ∧ key' = "exponent" then
      return .superscript pieces pieces'
    else none
  | _ => none

/-- The pieces that values of the report tell of. -/
def Formula.ofValues? : List Value → Option (List Piece)
  | [] => some []
  | v :: vs => do return (← Piece.ofValue? v) :: (← Formula.ofValues? vs)

end

/-- The formula that a value of the report tells of. -/
def Formula.ofValue? : Value → Option Formula
  | .array items => Formula.ofValues? items
  | _ => none

/-- What can be read from the report of a run. -/
structure Summary where
  /-- The nodes of the tape, in order. -/
  nodes : List Node
  /-- The values of the tape, those that are no finite number missing. -/
  values : List (Option Binary64)
  /-- The entries left on the stack. -/
  results : List NodeId
  /-- The variables by name, with those of their values that are finite. -/
  environment : List (String × Option Binary64)
  /-- Why the run stopped early, if it did. -/
  fault : Option Fault
  /-- The fault in words. -/
  message : Option String
  /-- The equations as formulas. -/
  equations : List Formula
  /-- The equations as text. -/
  text : List String

/-- The summary of a run. -/
def Run.summary (run : Run) : Summary where
  nodes := run.tape.nodes
  values := run.tape.values.map Binary64.finite?
  results := run.results
  environment := run.environment.bindings.map fun (name, v) => (name, v.finite?)
  fault := run.fault
  message := run.fault.map Fault.message
  equations := run.equations
  text := run.equations.map Formula.text

/-- The summary that a report tells of. -/
def Summary.ofValue? (v : Value) : Option Summary := do
  return {
    nodes := ← (← v.field? "nodes").array? Node.ofValue?
    values := ← (← v.field? "values").array? Value.double?
    results := ← (← v.field? "top_level").array? Value.natural?
    environment := ← (← v.field? "environment").fields? Value.double?
    fault := ← (← v.field? "error").optional? Fault.ofValue?
    message := ← (← v.field? "message").optional? Value.string?
    equations := ← (← v.field? "equations").array? Formula.ofValue?
    text := ← (← v.field? "text").array? Value.string? }

/-! ## Reading what was written -/

theorem mapM_map_eq_some {α β γ : Type} {f : α → β} {g : β → Option γ} {k : α → γ} :
    ∀ {l : List α}, (∀ a ∈ l, g (f a) = some (k a)) → (l.map f).mapM g = some (l.map k)
  | [], _ => rfl
  | a :: l, h => by
    obtain ⟨ha, hl⟩ := List.forall_mem_cons.1 h
    rw [List.map_cons, List.mapM_cons, ha, mapM_map_eq_some hl]
    rfl

namespace Json

theorem values_eq_map : ∀ items : List Json, values items = items.map value
  | [] => rfl
  | item :: rest => congrArg (item.value :: ·) (values_eq_map rest)

theorem fieldValues_eq_map : ∀ fields : List (String × Json),
    fieldValues fields = fields.map fun field => (field.1, field.2.value)
  | [] => rfl
  | (key, item) :: rest => congrArg ((key, item.value) :: ·) (fieldValues_eq_map rest)

@[simp] theorem value_object (fields : List (String × Json)) :
    (object fields).value = .object (fieldValues fields) := rfl

@[simp] theorem value_string (text : String) : (string text).value = .string text := rfl

theorem string?_string (text : String) : (string text).value.string? = some text := rfl

@[simp] theorem value_tagged (kind : String) (fields : List (String × Json)) :
    (tagged kind fields).value = .object (("kind", .string kind) :: fieldValues fields) := rfl

@[simp] theorem fieldValues_nil : fieldValues [] = [] := rfl

@[simp] theorem fieldValues_cons (key : String) (item : Json) (fields : List (String × Json)) :
    fieldValues ((key, item) :: fields) = (key, item.value) :: fieldValues fields := rfl

@[simp] theorem natural?_natural (n : ℕ) : (natural n).value.natural? = some n := by
  have hdigits : (Nat.toDigits 10 n).all Char.isDigit = true :=
    List.all_eq_true.2 (Numeral.isDigits_toDigits n)
  rw [value, Value.natural?, Nat.repr_eq_ofList_toDigits, String.toList_ofList, if_pos hdigits,
    Nat.ofDigitChars_ten_toDigits]

/-- **A finite number reads back, bit for bit.** -/
theorem parseWhole?_documentText {v : Binary64} (h : v.isFinite = true) :
    Binary64.parseWhole? v.documentText.toList = some v := by
  obtain ⟨magnitude, x, htext, hstrict, hnearest⟩ := exists_strict_documentText v
  obtain ⟨d, hdenotes, rfl⟩ := hstrict.exists_denotes
  have hsign : Numeral.SignOf (if v.negative then ['-'] else []) v.negative := by
    cases v.negative
    · exact .none
    · exact .minus
  obtain ⟨v', hread, hrounds⟩ := Binary64.parses_parseWhole? _ _ _ _ hsign hdenotes
  rw [htext, hread, hrounds.unique ⟨rfl, hnearest h⟩]

theorem double?_number (v : Binary64) : (number v).value.double? = some v.finite? := by
  rw [number, Binary64.finite?]
  split
  · rw [value, Value.double?, parseWhole?_documentText ‹_›]
    rfl
  · rfl

theorem array?_map {α β : Type} {read : Value → Option β} {f : α → Json} {k : α → β} {l : List α}
    (h : ∀ a ∈ l, read (f a).value = some (k a)) :
    (array (l.map f)).value.array? read = some (l.map k) := by
  rw [value, Value.array?, values_eq_map, List.map_map]
  exact mapM_map_eq_some h

@[simp] theorem natural?_positions (ids : List NodeId) :
    (positions ids).value.array? Value.natural? = some ids := by
  have h := array?_map (l := ids) (f := natural) (k := id) fun id _ => natural?_natural id
  rwa [List.map_id] at h

end Json

theorem Builtin.lookup?_name : ∀ b ∈ table, lookup? b.name = some b := by decide

theorem Node.ofValue?_json {node : Node} (h : node.IsTabled) :
    ofValue? node.json.value = some node := by
  cases node with
  | literal => rfl
  | apply operator args =>
    simp [Node.ofValue?, Node.json, Value.field?, Value.string?, Builtin.lookup?_name operator h.1]
  | bind name source => simp [Node.ofValue?, Node.json, Value.field?, Value.string?]
  | read name => simp [Node.ofValue?, Node.json, Value.field?, Value.string?]

theorem Fault.ofValue?_json (fault : Fault) : ofValue? fault.json.value = some fault := by
  cases fault <;> simp [Fault.ofValue?, Fault.json, kind, fields, Value.field?, Value.string?]

mutual

theorem Piece.ofValue?_json : ∀ piece : Piece, Piece.ofValue? piece.json.value = some piece
  | .number _ => rfl
  | .identifier _ => rfl
  | .operator _ => rfl
  | .row pieces => by
    have h := Formula.ofValues?_jsons pieces
    simp [Piece.json, Json.value, Piece.ofValue?, h]
  | .fraction numerator denominator => by
    have h := Formula.ofValues?_jsons numerator
    have h' := Formula.ofValues?_jsons denominator
    simp [Piece.json, Json.value, Piece.ofValue?, h, h']
  | .radical radicand => by
    have h := Formula.ofValues?_jsons radicand
    simp [Piece.json, Json.value, Piece.ofValue?, h]
  | .superscript base exponent => by
    have h := Formula.ofValues?_jsons base
    have h' := Formula.ofValues?_jsons exponent
    simp [Piece.json, Json.value, Piece.ofValue?, h, h']

theorem Formula.ofValues?_jsons : ∀ pieces : List Piece,
    Formula.ofValues? (Json.values (Formula.jsons pieces)) = some pieces
  | [] => rfl
  | piece :: rest => by
    have h := Piece.ofValue?_json piece
    have hrest := Formula.ofValues?_jsons rest
    simp [Formula.jsons, Json.values, Formula.ofValues?, h, hrest]

end

theorem Formula.ofValue?_json (formula : Formula) :
    Formula.ofValue? formula.json.value = some formula :=
  Formula.ofValues?_jsons formula

/-! ## The report of a run -/

theorem Environment.fields?_json (env : Environment) : env.json.value.fields? Value.double? =
    some (env.bindings.map fun (name, v) => (name, v.finite?)) := by
  rw [Environment.json, Json.value, Value.fields?, Json.fieldValues_eq_map, List.map_map]
  exact mapM_map_eq_some fun binding _ => congrArg (Option.map _) (Json.double?_number binding.2)

theorem Fault.optional?_json : ∀ fault : Option Fault,
    ((fault.map Fault.json).getD .null).value.optional? ofValue? = some fault
  | none => rfl
  | some fault => congrArg (Option.map some) fault.ofValue?_json

theorem Json.optional?_optional : ∀ text : Option String,
    (optional text).value.optional? Value.string? = some text
  | none | some _ => rfl

/-- **The summary of a run is read from its report.** -/
theorem Summary.ofValue?_report {run : Run} (h : ∀ node ∈ run.tape.nodes, node.IsTabled) :
    ofValue? run.report.value = some run.summary := by
  have hnodes := Json.array?_map (f := Node.json) (k := id)
    fun node hnode => Node.ofValue?_json (h node hnode)
  have hvalues := Json.array?_map (l := run.tape.values) fun v _ => Json.double?_number v
  have hequations := Json.array?_map (l := run.equations) (k := id)
    fun equation _ => Formula.ofValue?_json equation
  have htext := Json.array?_map (l := run.equations)
    fun equation _ => Json.string?_string equation.text
  rw [List.map_id] at hnodes hequations
  -- the eight names differ, so each is found in its place
  simp [Summary.ofValue?, Run.report, Value.field?, hnodes, hvalues, Environment.fields?_json,
    Fault.optional?_json, Json.optional?_optional, hequations, htext, Run.summary]

theorem Run.isTabled_of_mem_nodes {program : List String} {node : Node}
    (h : node ∈ (ofWords program).tape.nodes) : node.IsTabled := by
  obtain ⟨performed, fault, hrun⟩ := Machine.exists_run_eq_finish_feed .initial program
  rw [ofWords, hrun, Machine.finish] at h
  obtain ⟨id, hid⟩ := List.mem_iff_getElem?.1 h
  rw [Tape.getElem?_nodes] at hid
  exact Machine.isTabled_feed performed id node hid

/-- **A report loses nothing but numbers that are not finite.** It is one JSON text and a line
break, the text stands for one value only, and the summary of the run is read from it; the variables
ascend, and the equations are the lines that are printed as text. -/
theorem Request.report_lossless {words : List String} {input : ByteArray} {text : String}
    (h : programText? words input = some text) :
    ∃ document value,
      ((eval .json words).outcome input).output = document ++ "\n" ∧
      Json.Denotes document value ∧ (∀ other, Json.Denotes document other → other = value) ∧
      Summary.ofValue? value = some (Run.ofText text).summary ∧
      ((Run.ofText text).summary.environment.map Prod.fst).Pairwise (· < ·) ∧
      ((eval .text words).outcome input).output = lines (Run.ofText text).summary.text ∧
      ∀ line ∈ (Run.ofText text).summary.text, IsOneLine line := by
  have houtput : ∀ format,
      ((eval format words).outcome input).output = (Run.ofText text).printed format := by
    intro format
    rw [outcome_eval h, Outcome.output_ofRun]
  have hdenotes := Json.denotes_text (Run.ofText text).report
  refine ⟨_, _, ?_, hdenotes, fun other hother => hother.unique hdenotes,
    Summary.ofValue?_report fun _ => Run.isTabled_of_mem_nodes, ?_, houtput .text, ?_⟩
  · rw [houtput, Run.printed, lines_cons]
    exact String.append_empty
  · rw [Run.summary, List.map_map]
    exact List.pairwise_map.2 (Run.ofText text).environment.ascending
  · exact List.forall_mem_map.2 fun equation hequation =>
      (Run.isOneLine_of_mem_equations text equation hequation).text

/-- A variable with a quote in its name has no finite value, and the variable
behind it has no value. -/
theorem Request.report_lossless_unbounded :
    programText? ["1 0 / =\"é", "$y"] .empty = some "1 0 / =\"é $y" ∧
      (∃ document value,
        ((eval .json ["1 0 / =\"é", "$y"]).outcome .empty).output = document ++ "\n" ∧
        Json.Denotes document value ∧
        Summary.ofValue? value = some (Run.ofText "1 0 / =\"é $y").summary) ∧
      (Run.ofText "1 0 / =\"é $y").summary.environment = [("\"é", none)] ∧
      (Run.ofText "1 0 / =\"é $y").summary.fault = some (.unknownVariable "y") := by
  have htext : programText? ["1 0 / =\"é", "$y"] .empty = some "1 0 / =\"é $y" := by decide
  obtain ⟨document, value, houtput, hdenotes, -, hsummary, -⟩ := report_lossless htext
  exact ⟨htext, ⟨document, value, houtput, hdenotes, hsummary⟩, by decide +kernel,
    by decide +kernel⟩

end RpnTape
