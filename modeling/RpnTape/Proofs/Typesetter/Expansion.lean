import Mathlib.Data.List.Forall2
import RpnTape.Proofs.Typesetter.Traversal
import RpnTape.Typesetter.Expansion

/-!
# Proofs/Typesetter/Expansion — expanding a layout writes the formula of the expression

Tasks *write* a formula when performing them adds its pieces to the latest row and leaves everything
else alone, whatever is left to do and whichever rows are open (`Writes`). Tasks that write can be
put one after another and inside rows of their own, which is all that a part of a layout does; so
the formula of an entry is found by induction over the expression the entry stands for.
-/

namespace RpnTape

namespace Expansion

variable {layouts : Layouts} {tasks tasks' : List Task} {f g : Formula}

/-! ## Tasks that write a formula -/

/-- Performing the tasks writes the formula into the latest row. -/
def Writes (layouts : Layouts) (tasks : List Task) (f : Formula) : Prop :=
  ∀ (rest : List Task) (row : List Piece) (rows : List (List Piece)),
    run layouts ⟨tasks ++ rest, row :: rows⟩ = run layouts ⟨rest, (f.reverse ++ row) :: rows⟩

theorem run_of_perform? {task : Task} {rest : List Task} {rows : List (List Piece)} {s : Expansion}
    (h : perform? layouts task ⟨rest, rows⟩ = some s) :
    run layouts ⟨task :: rest, rows⟩ = run layouts s :=
  Loop.run_of_inl (by simp only [step, h])

theorem run_of_no_task (rows : List (List Piece)) :
    run layouts ⟨[], rows⟩ = some (rows.head?.map List.reverse) := Loop.run_of_inr rfl

theorem run_openRow (rest : List Task) (rows : List (List Piece)) :
    run layouts ⟨.openRow :: rest, rows⟩ = run layouts ⟨rest, [] :: rows⟩ :=
  run_of_perform? rfl

theorem run_closeRow {closing : Closing} {rows rows' : List (List Piece)} (rest : List Task)
    (h : closing.close? rows = some rows') :
    run layouts ⟨.closeRow closing :: rest, rows⟩ = run layouts ⟨rest, rows'⟩ :=
  run_of_perform? (by rw [perform?, h]; rfl)

theorem Writes.append (h : Writes layouts tasks f) (h' : Writes layouts tasks' g) :
    Writes layouts (tasks ++ tasks') (f ++ g) := by
  intro rest row rows
  rw [List.append_assoc, h, h', List.reverse_append, List.append_assoc]

/-- A complete row that stands alone holds the formula that was written. -/
theorem Writes.run_openRow (h : Writes layouts tasks f) (rest : List Task)
    (rows : List (List Piece)) :
    run layouts ⟨.openRow :: tasks ++ rest, rows⟩ = run layouts ⟨rest, f.reverse :: rows⟩ := by
  rw [List.cons_append, Expansion.run_openRow, h, List.append_nil]

/-- Tasks in a row of their own write the piece that the row is folded into. -/
theorem Writes.enclosed {closing : Closing} {piece : Piece} (h : Writes layouts tasks f)
    (hclose : ∀ row rows,
      closing.close? (f.reverse :: row :: rows) = some ((piece :: row) :: rows)) :
    Writes layouts (.openRow :: tasks ++ [.closeRow closing]) [piece] := by
  intro rest row rows
  rw [List.append_assoc, h.run_openRow]
  exact run_closeRow rest (hclose row rows)

/-- The same for two rows that are folded together. -/
theorem Writes.enclosed₂ {closing : Closing} {piece : Piece} (h : Writes layouts tasks f)
    (h' : Writes layouts tasks' g)
    (hclose : ∀ row rows,
      closing.close? (g.reverse :: f.reverse :: row :: rows) = some ((piece :: row) :: rows)) :
    Writes layouts (.openRow :: tasks ++ (.openRow :: tasks' ++ [.closeRow closing])) [piece] := by
  intro rest row rows
  rw [List.append_assoc, h.run_openRow, List.append_assoc, h'.run_openRow]
  exact run_closeRow rest (hclose row rows)

/-! ## Writing the parts of a layout -/

/-- Writing the part, as a task of its own. -/
def WritesPart (layouts : Layouts) (part : Part) (f : Formula) : Prop :=
  ∃ tasks, (∀ s : Expansion, write? layouts part s = some { s with tasks := tasks ++ s.tasks }) ∧
    Writes layouts tasks f

/-- The parts of a layout write the formula. -/
def WritesParts (layouts : Layouts) (parts : List Part) (f : Formula) : Prop :=
  Writes layouts [.emit parts] f

variable {part : Part} {parts : List Part}

theorem writesParts_nil : WritesParts layouts [] [] := fun _ _ _ => run_of_perform? rfl

theorem WritesParts.piece (piece : Piece) (h : WritesParts layouts parts f) :
    WritesParts layouts (.piece piece :: parts) (piece :: f) := by
  intro rest row rows
  have hstep : run layouts ⟨[.emit (.piece piece :: parts)] ++ rest, row :: rows⟩ =
      run layouts ⟨[.emit parts] ++ rest, (piece :: row) :: rows⟩ := run_of_perform? rfl
  rw [hstep, h, List.reverse_cons, List.append_assoc]
  rfl

theorem WritesParts.cons (hpart : WritesPart layouts part f) (h : WritesParts layouts parts g) :
    WritesParts layouts (part :: parts) (f ++ g) := by
  obtain ⟨tasks, hwrite, htasks⟩ := hpart
  intro rest row rows
  have hstep : run layouts ⟨[.emit (part :: parts)] ++ rest, row :: rows⟩ =
      run layouts ⟨(tasks ++ [.emit parts]) ++ rest, row :: rows⟩ := by
    refine run_of_perform? ((hwrite _).trans ?_)
    rw [List.append_assoc]
    rfl
  rw [hstep]
  exact htasks.append h rest row rows

theorem WritesPart.alone (h : WritesPart layouts part f) : WritesParts layouts [part] f := by
  have hcons := WritesParts.cons h writesParts_nil
  rwa [List.append_nil] at hcons

theorem writesParts_pieces : ∀ f : Formula, WritesParts layouts (f.map .piece) f
  | [] => writesParts_nil
  | piece :: f => (writesParts_pieces f).piece piece

end Expansion

/-! ## Drawing the operands -/

open Expansion

/-- The entry is laid out as the expression `e`: it holds together as tightly, and its
parts write its formula. -/
def Layouts.Draws (layouts : Layouts) (id : NodeId) (e : Expr) : Prop :=
  ∃ layout, layouts[id]? = some layout ∧ layout.power = e.bindingPower ∧
    WritesParts layouts layout.parts e.formula

namespace Layouts.Draws

variable {layouts : Layouts} {id a b : NodeId} {e e' : Expr}

theorem power? (h : layouts.Draws id e) : layouts.power? id = some e.term.power := by
  obtain ⟨layout, hlayout, hpower, _⟩ := h
  rw [Layouts.power?, hlayout, Option.map_some, hpower, e.power_term]

theorem emit? (h : layouts.Draws id e) :
    ∃ task, layouts.emit? id = some task ∧ Writes layouts [task] e.formula := by
  obtain ⟨layout, hlayout, _, hparts⟩ := h
  exact ⟨.emit layout.parts, by rw [Layouts.emit?, hlayout, Option.map_some], hparts⟩

theorem fill? (h : layouts.Draws id e) (wrap : Bool) :
    ∃ tasks, layouts.fill? ⟨id, wrap⟩ = some tasks ∧
      Writes layouts tasks (e.term.wrapped wrap) := by
  obtain ⟨task, htask, hwrites⟩ := h.emit?
  cases wrap with
  | false => exact ⟨[task], by rw [Layouts.fill?, htask]; rfl, hwrites⟩
  | true =>
    refine ⟨_, by rw [Layouts.fill?, htask]; rfl, ?_⟩
    exact hwrites.enclosed fun row rows => by rw [Closing.close?, List.reverse_reverse]; rfl

theorem splice (h : layouts.Draws id e) (wrap : Bool) :
    WritesPart layouts (.splice ⟨id, wrap⟩) (e.term.wrapped wrap) := by
  obtain ⟨tasks, htasks, hwrites⟩ := h.fill? wrap
  exact ⟨tasks, fun s => by simp only [write?, htasks]; rfl, hwrites⟩

theorem radical (h : layouts.Draws id e) :
    WritesPart layouts (.radical id) [.radical e.formula] := by
  obtain ⟨task, htask, hwrites⟩ := h.emit?
  refine ⟨_, fun s => by simp only [write?, htask]; rfl, ?_⟩
  exact hwrites.enclosed fun row rows => by rw [Closing.close?, List.reverse_reverse]

theorem fraction (ha : layouts.Draws a e) (hb : layouts.Draws b e') :
    WritesPart layouts (.fraction a b) [.fraction e.formula e'.formula] := by
  obtain ⟨task, htask, hwrites⟩ := ha.emit?
  obtain ⟨task', htask', hwrites'⟩ := hb.emit?
  refine ⟨_, fun s => by simp only [write?, htask, htask']; rfl, ?_⟩
  exact hwrites.enclosed₂ hwrites' fun row rows => by
    rw [Closing.close?, List.reverse_reverse, List.reverse_reverse]

theorem superscript (ha : layouts.Draws a e) (wrap : Bool) (hb : layouts.Draws b e') :
    WritesPart layouts (.superscript ⟨a, wrap⟩ b)
      [.superscript (e.term.wrapped wrap) e'.formula] := by
  obtain ⟨tasks, htasks, hwrites⟩ := ha.fill? wrap
  obtain ⟨task, htask, hwrites'⟩ := hb.emit?
  refine ⟨_, fun s => by simp only [write?, htasks, htask]; rfl, ?_⟩
  exact hwrites.enclosed₂ hwrites' fun row rows => by
    rw [Closing.close?, List.reverse_reverse, List.reverse_reverse]

end Layouts.Draws

section

variable {layouts : Layouts} {tape : Tape}

/-! ## The arguments of a call -/

/-- Operands with commas between them write their formulas with commas between them. -/
theorem writesParts_separated {ids : List NodeId} {es : List Expr} {parts : List Part} {g : Formula}
    (hparts : WritesParts layouts parts g) (h : List.Forall₂ layouts.Draws ids es) :
    WritesParts layouts
      ([Part.piece (.operator ",")].intercalate (ids.map fun id => [.splice ⟨id, false⟩]) ++ parts)
      ([Piece.operator ","].intercalate (es.map Expr.formula) ++ g) := by
  induction h with
  | nil => exact hparts
  | @cons id e ids es hid hrest ih =>
    cases hrest with
    | nil =>
      simp only [List.map_cons, List.map_nil, List.intercalate_singleton]
      exact .cons (hid.splice false) hparts
    | cons hnext hrest =>
      simp only [List.map_cons, List.intercalate_cons_cons, List.append_assoc] at ih ⊢
      exact .cons (hid.splice false) (ih.piece _)

theorem writesParts_arguments {ids : List NodeId} {es : List Expr}
    (h : List.Forall₂ layouts.Draws ids es) :
    WritesParts layouts (Part.arguments ids) (Formula.arguments (es.map Expr.formula)) := by
  have hclosed : WritesParts layouts [.piece (.operator ")")] [.operator ")"] :=
    writesParts_nil.piece _
  have hseparated := (writesParts_separated hclosed h).piece (.operator "(")
  cases h with
  | nil => exact writesParts_nil
  | cons hid hrest => exact hseparated

/-! ## Every entry -/

/-- A call is laid out as a call. -/
theorem Layouts.application?_of_not_fits {operator : Builtin} {args : List NodeId}
    (h : operator.shape.fits args.length = false) :
    layouts.application? operator args =
      some ⟨.piece (.identifier operator.display) :: Part.arguments args, .atom⟩ := by
  unfold application?
  split
  case h_6 => rfl
  all_goals simp_all [Shape.fits]

theorem exists_single_of_forall₂ {a : NodeId} {es : List Expr}
    (h : List.Forall₂ layouts.Draws [a] es) : ∃ e, layouts.Draws a e ∧ es = [e] := by
  obtain ⟨e, rest, ha, hrest, rfl⟩ := List.forall₂_cons_left_iff.1 h
  exact ⟨e, ha, by rw [List.forall₂_nil_left_iff.1 hrest]⟩

theorem exists_pair_of_forall₂ {a b : NodeId} {es : List Expr}
    (h : List.Forall₂ layouts.Draws [a, b] es) :
    ∃ e e', layouts.Draws a e ∧ layouts.Draws b e' ∧ es = [e, e'] := by
  obtain ⟨e, rest, ha, hrest, rfl⟩ := List.forall₂_cons_left_iff.1 h
  obtain ⟨e', hb, rfl⟩ := exists_single_of_forall₂ hrest
  exact ⟨e, e', ha, hb, rfl⟩

/-- **An application is drawn if its operands are.** -/
theorem draws_application {operator : Builtin} {args : List NodeId} {es : List Expr}
    {layout : Layout} (h : List.Forall₂ layouts.Draws args es)
    (hlayout : layouts.application? operator args = some layout) :
    WritesParts layouts layout.parts (operator.layOut (es.map Expr.term)).formula ∧
      layout.power = (operator.layOut (es.map Expr.term)).power := by
  cases hfits : operator.shape.fits args.length with
  | false =>
    rw [Layouts.application?_of_not_fits hfits] at hlayout
    obtain rfl := Option.some.inj hlayout
    rw [Builtin.layOut_of_not_fits (by rwa [List.length_map, ← h.length_eq]), List.map_map]
    exact ⟨(writesParts_arguments h).piece _, rfl⟩
  | true =>
    rcases Shape.eq_of_fits hfits with ⟨hcount, hshape⟩ | ⟨hcount, hshape⟩
    · obtain ⟨a, b, rfl⟩ := List.length_eq_two.1 hcount
      obtain ⟨ea, eb, ha, hb, rfl⟩ := exists_pair_of_forall₂ h
      rcases hshape with hshape | hshape | hshape | hshape
      case inl | inr.inl =>
        simp only [Layouts.application?, hshape, ha.power?, hb.power?] at hlayout
        obtain rfl := Option.some.inj hlayout
        simp only [Builtin.layOut, List.map_cons, List.map_nil, hshape]
        exact ⟨.cons (ha.splice _) (.piece _ (hb.splice _).alone), trivial⟩
      case inr.inr.inl =>
        simp only [Layouts.application?, hshape] at hlayout
        obtain rfl := Option.some.inj hlayout
        simp only [Builtin.layOut, List.map_cons, List.map_nil, hshape]
        exact ⟨(ha.fraction hb).alone, trivial⟩
      case inr.inr.inr =>
        simp only [Layouts.application?, hshape, ha.power?] at hlayout
        obtain rfl := Option.some.inj hlayout
        simp only [Builtin.layOut, List.map_cons, List.map_nil, hshape]
        exact ⟨(ha.superscript _ hb).alone, trivial⟩
    · obtain ⟨a, rfl⟩ := List.length_eq_one_iff.1 hcount
      obtain ⟨ea, ha, rfl⟩ := exists_single_of_forall₂ h
      simp only [Layouts.application?, hshape] at hlayout
      obtain rfl := Option.some.inj hlayout
      simp only [Builtin.layOut, List.map_cons, List.map_nil, hshape]
      exact ⟨ha.radical.alone, trivial⟩

/-- **An entry is drawn as its expression if its operands are.** -/
theorem draws_entry {entry : Entry} {es : List Expr} {e : Expr} {layout : Layout}
    (h : List.Forall₂ layouts.Draws entry.node.operands es) (hexpr : entry.expr? es = some e)
    (hlayout : layouts.layout? entry = some layout) :
    WritesParts layouts layout.parts e.formula ∧ layout.power = e.bindingPower := by
  obtain ⟨node, value⟩ := entry
  cases node with
  | literal =>
    obtain rfl := List.forall₂_nil_left_iff.1 h
    obtain rfl := Option.some.inj hexpr
    obtain rfl := Option.some.inj hlayout
    exact ⟨writesParts_pieces _, rfl⟩
  | read name =>
    obtain rfl := List.forall₂_nil_left_iff.1 h
    obtain rfl := Option.some.inj hexpr
    obtain rfl := Option.some.inj hlayout
    exact ⟨writesParts_nil.piece _, rfl⟩
  | bind name source =>
    obtain ⟨e', hsource, rfl⟩ := exists_single_of_forall₂ h
    obtain rfl := Option.some.inj hexpr
    obtain rfl := Option.some.inj hlayout
    exact ⟨((hsource.splice false).alone.piece _).piece _, rfl⟩
  | apply operator args =>
    obtain rfl := Option.some.inj hexpr
    rw [← Expr.power_term, Expr.formula, Expr.term_apply]
    exact draws_application h hlayout

/-- **Sound layouts draw every entry as the expression it stands for.** -/
theorem Layouts.Sound.draws (hsound : layouts.Sound tape) {ids : List NodeId} {es : List Expr}
    (h : tape.Unfolds ids es) (hmem : ∀ id ∈ ids, id ∈ layouts) :
    List.Forall₂ layouts.Draws ids es := by
  induction h with
  | nil => exact .nil
  | cons hentry _ hexpr _ ihoperands ihrest =>
    obtain ⟨hid, hrest⟩ := List.forall_mem_cons.1 hmem
    obtain ⟨layout, hlayout⟩ := Layouts.exists_getElem?_of_mem hid
    obtain ⟨entry', hentry', hoperands, hbuilt⟩ := hsound hlayout
    obtain rfl := Option.some.inj (hentry.symm.trans hentry')
    obtain ⟨hparts, hpower⟩ := draws_entry (ihoperands hoperands) hexpr hbuilt
    exact .cons ⟨layout, hlayout, hpower, hparts⟩ (ihrest hrest)

/-- **Expanding an entry that is drawn as an expression ends with the
formula of the expression.** -/
theorem Layouts.Draws.expand {id : NodeId} {e : Expr} (h : layouts.Draws id e) :
    layouts.expand id = some (some e.formula) := by
  obtain ⟨task, htask, hwrites⟩ := h.emit?
  have hrun := hwrites [] [] []
  rw [List.append_nil, List.append_nil] at hrun
  rw [Layouts.expand, htask]
  refine hrun.trans ((run_of_no_task _).trans ?_)
  rw [List.head?_cons, Option.map_some, List.reverse_reverse]

end

end RpnTape
