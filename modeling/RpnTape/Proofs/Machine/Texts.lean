import RpnTape.Proofs.Formula.Linear
import RpnTape.Proofs.Machine.Equations

/-!
# Proofs/Machine/Texts — on a line of text no structure is lost

An expression is over the numbers and names of the tape that it comes from. If the names
on two tapes are plain, equations from the one and the other can be told apart by their
texts wherever they differ.
-/

namespace RpnTape

/-- The name in a node. -/
def Node.name? : Node → Option String
  | bind name _ | read name => some name
  | literal | apply _ _ => none

/-- Are all names on the tape plain? -/
def Tape.hasPlainNames (tape : Tape) : Bool := tape.nodes.all fun node => node.name?.all isPlainName

theorem Entry.IsOver.of_name? {numbers : Binary64 → Prop} {names names' : String → Prop}
    {entry : Entry} (h : entry.IsOver numbers names)
    (hnames : ∀ name ∈ entry.node.name?, names' name) : entry.IsOver numbers names' := by
  obtain ⟨node, value⟩ := entry
  cases node with
  | literal | apply => exact h
  | bind name source => exact hnames name rfl
  | read name => exact hnames name rfl

namespace Machine

theorem OperandsFirst.exists_equates {m : Machine} (hm : m.OperandsFirst) {id : NodeId}
    (hid : id < m.tape.size) :
    ∃ e value, m.tape.Unfolds [id] [e] ∧ m.tape.Equates id (e.equation value) := by
  obtain ⟨e, he⟩ := hm.exists_unfolds hid
  obtain ⟨value, hvalue⟩ := Typesetter.exists_value?_of_unfolds he
  exact ⟨e, value, he, e, value, he, hvalue, rfl⟩

/-- The expressions of a tape with plain names. -/
theorem isOver_of_hasPlainNames {words : List String}
    (hplain : (initial.feed words).tape.hasPlainNames = true) {id : NodeId} {e : Expr}
    (he : (initial.feed words).tape.Unfolds [id] [e]) :
    e.IsOver (·.isNaN = false) (isPlainName · = true) := by
  refine he.isOver (fun id entry hentry => ?_) e (List.mem_singleton_self e)
  refine (isOver_feed words id entry hentry).of_name? fun name hname => ?_
  have hnode : entry.node ∈ (initial.feed words).tape.nodes := by
    refine List.mem_of_getElem? (i := id) ?_
    rw [Tape.getElem?_nodes, Tape.node?, hentry, Option.map_some]
  have hall := List.all_eq_true.1 hplain _ hnode
  rw [Option.mem_def.1 hname] at hall
  exact hall

/-- **Linear text is unambiguous.** Take the equations of any two entries, from one run or from two:
if their texts are the same, then so are they. -/
theorem texts_tell_equations (words words' : List String) (fault fault' : Option Fault)
    (id : Fin (initial.feed words).tape.size) (id' : Fin (initial.feed words').tape.size) :
    let run := (initial.feed words).finish fault
    let run' := (initial.feed words').finish fault'
    run.tape.hasPlainNames = true → run'.tape.hasPlainNames = true →
      ∃ equation equation', ((Typesetter.ofTape run.tape).equation? id).1 = some equation ∧
        ((Typesetter.ofTape run'.tape).equation? id').1 = some equation' ∧
        (equation.text = equation'.text → equation = equation') := by
  intro run run' hplain hplain'
  obtain ⟨e, value, he, hequates⟩ := (operandsFirst_feed words).exists_equates id.2
  obtain ⟨e', value', he', hequates'⟩ := (operandsFirst_feed words').exists_equates id'.2
  exact ⟨e.equation value, e'.equation value',
    (operandsFirst_feed words).equation?_of_equates hequates,
    (operandsFirst_feed words').equation?_of_equates hequates',
    (isOver_of_hasPlainNames hplain he).equation_eq_of_text_eq
      (isOver_of_hasPlainNames hplain' he')⟩

/-- The root of an assignment, raised: in one run a word in between is rejected. -/
theorem texts_tell_equations_raised_root :
    let run := (initial.feed ["4", "=x_1", "sqrt", "2", "pow"]).finish none
    let run' := (initial.feed ["4", "=x_1", "$y", "sqrt", "2", "pow"]).finish none
    run.tape.hasPlainNames = true ∧ run'.tape.hasPlainNames = true ∧
      ∃ equation equation', ((Typesetter.ofTape run.tape).equation? 4).1 = some equation ∧
        ((Typesetter.ofTape run'.tape).equation? 4).1 = some equation' ∧
        (equation.text = equation'.text → equation = equation') :=
  ⟨by decide, by decide, texts_tell_equations ["4", "=x_1", "sqrt", "2", "pow"]
    ["4", "=x_1", "$y", "sqrt", "2", "pow"] none none ⟨4, by decide⟩ ⟨4, by decide⟩ (by decide)
    (by decide)⟩

end Machine

end RpnTape
