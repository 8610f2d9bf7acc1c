import RpnTape.Formula.Text
import RpnTape.Proofs.Formula.Application
import RpnTape.Proofs.Formula.Markup
import RpnTape.Proofs.Machine.Names
import RpnTape.Proofs.Number.Display

/-!
# Proofs/Formula/LineBreaks — a formula without line breaks is presented on one line

Neither presentation adds a line break: there is one in the text or the markup of a formula only if
there is one in a leaf. The leaves are numbers, signs, the names of builtins and the names that the
program uses.
-/

namespace RpnTape

/-- Is there no line break in the text? -/
def IsOneLine (text : String) : Prop := '\n' ∉ text.toList

instance (text : String) : Decidable (IsOneLine text) := inferInstanceAs (Decidable (_ ∉ _))

namespace IsOneLine

variable {text text' : String}

theorem append (h : IsOneLine text) (h' : IsOneLine text') : IsOneLine (text ++ text') := by
  rw [IsOneLine, String.toList_append, List.mem_append, not_or]
  exact ⟨h, h'⟩

theorem markupText (h : IsOneLine text) : IsOneLine (markupText text) := by
  rw [IsOneLine, Markup.toList_markupText, Markup.escaped, List.mem_flatMap]
  rintro ⟨c, hc, hmem⟩
  rcases Markup.markupChar_cases c with rfl | rfl | rfl | ⟨-, -, -, hchar⟩
  · revert hmem; decide
  · revert hmem; decide
  · revert hmem; decide
  · rw [hchar, List.mem_singleton] at hmem
    exact h (hmem ▸ hc)

theorem element {name : String} (hname : name ∈ Markup.names) (h : IsOneLine text) :
    IsOneLine (element name text) := by
  have hname : IsOneLine name := by
    revert name
    decide
  have hopen : IsOneLine ("<" ++ name ++ ">") :=
    ((by decide : IsOneLine "<").append hname).append (by decide)
  exact ((hopen.append h).append (by decide)).append hname |>.append (by decide)

theorem grouped (h : IsOneLine text) (formula : Formula) : IsOneLine (formula.grouped text) := by
  unfold Formula.grouped
  split
  · exact h
  · exact ((by decide : IsOneLine "(").append h).append (by decide)

end IsOneLine

/-! ## Formulas -/

mutual

/-- Is there no line break in a leaf of the piece? -/
def Piece.IsOneLine : Piece → Prop
  | .number text | .identifier text | .operator text => RpnTape.IsOneLine text
  | .row pieces | .radical pieces => Formula.IsOneLine pieces
  | .fraction first second | .superscript first second =>
    Formula.IsOneLine first ∧ Formula.IsOneLine second

/-- Is there no line break in a leaf of the formula? -/
def Formula.IsOneLine : List Piece → Prop
  | [] => True
  | piece :: rest => piece.IsOneLine ∧ Formula.IsOneLine rest

end

theorem Formula.isOneLine_iff : ∀ {formula : Formula},
    Formula.IsOneLine formula ↔ ∀ piece ∈ formula, piece.IsOneLine
  | [] => by simp [Formula.IsOneLine]
  | piece :: rest => by rw [Formula.IsOneLine, isOneLine_iff, List.forall_mem_cons]

/-- The magnitude of a row that is a sign and a number is a leaf of the row. -/
theorem Formula.IsOneLine.of_negated? {pieces : Formula} {magnitude : String}
    (h : Formula.IsOneLine pieces) (hnegated : negated? pieces = some magnitude) :
    RpnTape.IsOneLine magnitude := by
  unfold negated? at hnegated
  split at hnegated
  · split at hnegated
    · obtain rfl := Option.some.inj hnegated
      exact h.2.1
    · cases hnegated
  · cases hnegated

mutual

theorem Piece.IsOneLine.text : ∀ {piece : Piece}, piece.IsOneLine → RpnTape.IsOneLine piece.text
  | .number _, h | .identifier _, h | .operator _, h => h
  | .row pieces, h => by
    rw [Piece.text]
    split
    · rename_i magnitude hnegated
      exact (by decide : RpnTape.IsOneLine "-").append (Formula.IsOneLine.of_negated? h hnegated)
    · exact Formula.IsOneLine.join_textParts none h
  | .fraction numerator denominator, h => by
    rw [Piece.text]
    exact (((Formula.IsOneLine.join_textParts none h.1).grouped _).append (by decide)).append
      ((Formula.IsOneLine.join_textParts none h.2).grouped _)
  | .radical radicand, h => by
    rw [Piece.text]
    exact (by decide : RpnTape.IsOneLine "√").append
      ((Formula.IsOneLine.join_textParts none h).grouped _)
  | .superscript base exponent, h => by
    rw [Piece.text]
    exact (((Formula.IsOneLine.join_textParts none h.1).grouped _).append (by decide)).append
      ((Formula.IsOneLine.join_textParts none h.2).grouped _)

theorem Formula.IsOneLine.join_textParts : ∀ (previous : Option Piece) {pieces : List Piece},
    Formula.IsOneLine pieces → RpnTape.IsOneLine (String.join (Formula.textParts previous pieces))
  | _, [], _ => by
    simp [Formula.textParts, RpnTape.IsOneLine]
  | none, piece :: rest, h => by
    rw [Formula.textParts, String.join_cons]
    exact (Piece.IsOneLine.text h.1).append (Formula.IsOneLine.join_textParts (some piece) h.2)
  | some previous, piece :: rest, h => by
    rw [Formula.textParts, String.join_cons]
    refine RpnTape.IsOneLine.append ?_ (Formula.IsOneLine.join_textParts (some piece) h.2)
    split
    · exact Piece.IsOneLine.text h.1
    · exact (by decide : RpnTape.IsOneLine " ").append (Piece.IsOneLine.text h.1)

end

mutual

theorem Piece.IsOneLine.mathML : ∀ {piece : Piece}, piece.IsOneLine → RpnTape.IsOneLine piece.mathML
  | .number _, h | .identifier _, h | .operator _, h =>
    RpnTape.IsOneLine.element (by decide) (RpnTape.IsOneLine.markupText h)
  | .row _, h | .radical _, h =>
    RpnTape.IsOneLine.element (by decide) (Formula.IsOneLine.join_elements h)
  | .fraction _ _, h | .superscript _ _, h =>
    RpnTape.IsOneLine.element (by decide)
      ((RpnTape.IsOneLine.element (by decide) (Formula.IsOneLine.join_elements h.1)).append
        (RpnTape.IsOneLine.element (by decide) (Formula.IsOneLine.join_elements h.2)))

theorem Formula.IsOneLine.join_elements : ∀ {pieces : List Piece}, Formula.IsOneLine pieces →
    RpnTape.IsOneLine (String.join (Formula.elements pieces))
  | [], _ => by simp [Formula.elements, RpnTape.IsOneLine]
  | piece :: rest, h => by
    rw [Formula.elements, String.join_cons]
    exact (Piece.IsOneLine.mathML h.1).append (Formula.IsOneLine.join_elements h.2)

end

namespace Formula.IsOneLine

variable {formula formula' : Formula}

/-- **The text of a formula is on one line.** -/
theorem text (h : Formula.IsOneLine formula) : RpnTape.IsOneLine formula.text :=
  h.join_textParts none

/-- **The markup of a formula is on one line.** -/
theorem mathML (h : Formula.IsOneLine formula) : RpnTape.IsOneLine formula.mathML :=
  have hopen : RpnTape.IsOneLine "<math display=\"block\">" := by decide
  (hopen.append h.join_elements).append (by decide)

theorem append (h : Formula.IsOneLine formula) (h' : Formula.IsOneLine formula') :
    Formula.IsOneLine (formula ++ formula') := by
  rw [Formula.isOneLine_iff] at h h' ⊢
  exact List.forall_mem_append.2 ⟨h, h'⟩

end Formula.IsOneLine

/-! ## The formulas of expressions -/

theorem IsMagnitude.isOneLine {text : String} (h : IsMagnitude text.toList) :
    IsOneLine text :=
  fun hmem => absurd (h.chars _ hmem) (by decide)

theorem Binary64.isOneLine_formula (v : Binary64) : Formula.IsOneLine v.formula := by
  rcases v.formula_cases with ⟨-, h⟩ | ⟨magnitude, hmagnitude, h | h⟩
  · rw [h]
    exact ⟨(by decide : IsOneLine "NaN"), trivial⟩
  · rw [h]
    exact ⟨hmagnitude.isOneLine, trivial⟩
  · rw [h]
    exact ⟨⟨(by decide : IsOneLine "-"), hmagnitude.isOneLine, trivial⟩, trivial⟩

theorem Term.isOneLine_wrapped {t : Term} (h : Formula.IsOneLine t.formula) (wrap : Bool) :
    Formula.IsOneLine (t.wrapped wrap) := by
  unfold wrapped
  split
  · refine ⟨⟨(by decide : IsOneLine "("), h.append ?_⟩, trivial⟩
    exact ⟨(by decide : IsOneLine ")"), trivial⟩
  · exact h

theorem Builtin.isOneLine_display : ∀ b ∈ table, IsOneLine b.display := by decide

namespace Expr

variable {numbers : Binary64 → Prop} {e : Expr}

theorem isOneLine_intercalate :
    ∀ {args : List Expr}, (∀ arg ∈ args, Formula.IsOneLine arg.formula) →
      Formula.IsOneLine ([Piece.operator ","].intercalate (args.map formula))
  | [], _ => trivial
  | [arg], h => by
    rw [List.map_singleton, List.intercalate_singleton]
    exact h arg (List.mem_singleton_self arg)
  | arg :: arg' :: args, h => by
    obtain ⟨harg, hargs⟩ := List.forall_mem_cons.1 h
    have hcomma : Formula.IsOneLine [.operator ","] :=
      ⟨(by decide : RpnTape.IsOneLine ","), trivial⟩
    rw [List.map_cons, List.map_cons, List.intercalate_cons_cons]
    exact (harg.append hcomma).append (isOneLine_intercalate hargs)

/-- **An expression whose names have no line breaks has a formula without line breaks.** -/
theorem IsOver.isOneLine (h : e.IsOver numbers RpnTape.IsOneLine) :
    Formula.IsOneLine e.formula := by
  induction h with
  | literal => exact Binary64.isOneLine_formula _
  | read hname => exact ⟨hname, trivial⟩
  | bind hname _ ih => exact ⟨hname, (by decide : RpnTape.IsOneLine "≔"), ih⟩
  | @apply operator args hmem harity _ ih =>
    have hdisplay := Builtin.isOneLine_display operator hmem
    have hlaid := Builtin.laysOut_of_mem_table hmem harity
    generalize (Expr.apply operator args).formula = laid at hlaid ⊢
    cases hlaid with
    | infixed a b =>
      obtain ⟨ha, hb⟩ : Formula.IsOneLine a.formula ∧ Formula.IsOneLine b.formula := by
        simpa using ih
      exact (Term.isOneLine_wrapped ha _).append ⟨hdisplay, Term.isOneLine_wrapped hb _⟩
    | fraction a b =>
      obtain ⟨ha, hb⟩ : Formula.IsOneLine a.formula ∧ Formula.IsOneLine b.formula := by
        simpa using ih
      exact ⟨⟨ha, hb⟩, trivial⟩
    | radical a => exact ⟨ih a (List.mem_singleton_self a), trivial⟩
    | power a b =>
      obtain ⟨ha, hb⟩ : Formula.IsOneLine a.formula ∧ Formula.IsOneLine b.formula := by
        simpa using ih
      exact ⟨⟨Term.isOneLine_wrapped ha _, hb⟩, trivial⟩
    | name => exact ⟨hdisplay, trivial⟩
    | call arg args =>
      refine ⟨hdisplay, (by decide : RpnTape.IsOneLine "("), (isOneLine_intercalate ih).append ?_⟩
      exact ⟨(by decide : RpnTape.IsOneLine ")"), trivial⟩

/-- So has its equation. -/
theorem IsOver.isOneLine_equation (h : e.IsOver numbers RpnTape.IsOneLine) (value : Binary64) :
    Formula.IsOneLine (e.equation value) :=
  h.isOneLine.append ⟨(by decide : RpnTape.IsOneLine "="), value.isOneLine_formula⟩

end Expr

end RpnTape
