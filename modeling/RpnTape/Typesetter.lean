import RpnTape.Machine.Run
import RpnTape.Typesetter.Expansion

/-!
# Typesetter — the formulas of a tape's entries

A typesetter draws entries of one tape. It first lays out the entry and all that it is made from,
each position at most once and operands from the last to the first, and then writes the layout out
as a formula. Laying out fails at the first position that is not on the tape; what was laid out
until then is kept, and no position is ever laid out twice.

Entries made by a machine have operands before them, and drawing them ends. On other tapes a
position may lead back to itself through operands. Drawing such a position never ends: the functions
named `draw…` have no result there.
-/

namespace RpnTape

/-- A tape with the layouts made of its entries. -/
structure Typesetter where
  /-- The tape whose entries are drawn. -/
  tape : Tape
  /-- The layouts made so far. -/
  layouts : Layouts

namespace Typesetter

/-- A typesetter that has drawn nothing. -/
def ofTape (tape : Tape) : Typesetter := ⟨tape, ∅⟩

/-- The layout of an entry. -/
def layOut (t : Typesetter) (id : NodeId) : Option (Option Layout × Typesetter) := do
  let (complete, layouts) ← Laying.run t.tape ⟨[id], t.layouts⟩
  return (if complete then layouts[id]? else none, { t with layouts })

/-- The formula of an entry, without its value. -/
def drawFormula (t : Typesetter) (id : NodeId) : Option (Option Formula × Typesetter) := do
  match ← t.layOut id with
  | (none, t) => return (none, t)
  | (some _, t) => return (← t.layouts.expand id, t)

/-- The formula of an entry and its value. For a position off the tape nothing is laid out. -/
def drawEquation (t : Typesetter) (id : NodeId) : Option (Option Formula × Typesetter) :=
  match t.tape.value? id with
  | none => some (none, t)
  | some value => do
    let (formula, t) ← t.drawFormula id
    return (formula.map fun formula => formula ++ .operator "=" :: value.formula, t)

/-- How tightly the formula of an entry holds together; the formula itself is not written. -/
def drawPower (t : Typesetter) (id : NodeId) : Option (Option BindingPower × Typesetter) := do
  let (layout, t) ← t.layOut id
  return (layout.map Layout.power, t)

/-- The formula of an entry, without its value, where drawing it ends. -/
def formula? (t : Typesetter) (id : NodeId) : Option Formula × Typesetter :=
  (t.drawFormula id).getD (none, t)

/-- The formula of an entry and its value, where drawing it ends. -/
def equation? (t : Typesetter) (id : NodeId) : Option Formula × Typesetter :=
  (t.drawEquation id).getD (none, t)

/-- How tightly the formula of an entry holds together, where laying it out ends. -/
def bindingPower? (t : Typesetter) (id : NodeId) : Option BindingPower × Typesetter :=
  (t.drawPower id).getD (none, t)

/-- Has the entry been laid out? -/
def isDrawn (t : Typesetter) (id : NodeId) : Bool := t.layouts.contains id

/-- The equations of the positions that have one, in order. -/
def equations (t : Typesetter) : List NodeId → List Formula
  | [] => []
  | id :: rest =>
    match t.equation? id with
    | (none, t) => t.equations rest
    | (some formula, t) => formula :: t.equations rest

end Typesetter

/-- One equation for each result of a run. -/
def Run.equations (run : Run) : List Formula := (Typesetter.ofTape run.tape).equations run.results

end RpnTape
