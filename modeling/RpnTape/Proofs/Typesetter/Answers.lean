import RpnTape.Proofs.Typesetter.Expansion
import RpnTape.Typesetter

/-!
# Proofs/Typesetter/Answers — what a typesetter answers does not depend on what it was asked before

Questions are put to one typesetter, one after another, and each leaves layouts behind that the next
one finds. Still the answer is a matter of the tape alone: there is none if the position reaches one
that is off the tape, and otherwise the answer is read off the expression the position stands for.

The tape may be any tape. Operands may come later than the entry that holds them, be shared or be
missing, and a builtin may be applied to any number of operands. Only a circle of operands is
excluded, because there drawing does not end.
-/

namespace RpnTape

open Relation

/-- A question about an entry. -/
inductive Question where
  /-- What is its formula? -/
  | formula (id : NodeId)
  /-- What is its formula, with its value? -/
  | equation (id : NodeId)
  /-- How tightly does its formula hold together? -/
  | power (id : NodeId)
  deriving DecidableEq

/-- The answer to a question. -/
inductive Answer where
  | formula (formula : Formula)
  | power (power : BindingPower)

namespace Question

/-- The position asked about. -/
def id : Question → NodeId
  | formula id | equation id | power id => id

/-- The answer for an entry that has the value and stands for the expression. -/
def answer (e : Expr) (value : Binary64) : Question → Answer
  | formula _ => .formula e.formula
  | equation _ => .formula (e.equation value)
  | power _ => .power e.bindingPower

end Question

namespace Typesetter

/-- Puts a question. There is no result if answering it never ends. -/
def ask (t : Typesetter) : Question → Option (Option Answer × Typesetter)
  | .formula id => (t.drawFormula id).map fun (formula, t) => (formula.map .formula, t)
  | .equation id => (t.drawEquation id).map fun (formula, t) => (formula.map .formula, t)
  | .power id => (t.drawPower id).map fun (power, t) => (power.map .power, t)

/-- Puts questions, one after another. -/
def askAll (t : Typesetter) : List Question → Option (List (Option Answer) × Typesetter)
  | [] => some ([], t)
  | question :: rest => do
    let (answer, t) ← t.ask question
    let (answers, t) ← t.askAll rest
    return (answer :: answers, t)

end Typesetter

/-- Is this the answer that the tape gives to the question? -/
def Tape.Answers (tape : Tape) (question : Question) : Option Answer → Prop
  | none => ∃ b, tape.Reaches question.id b ∧ tape.get? b = none
  | some answer =>
    (∀ b, tape.Reaches question.id b → tape.get? b ≠ none) ∧
      ∃ e value, tape.Unfolds [question.id] [e] ∧ tape.value? question.id = some value ∧
        answer = question.answer e value

/-- **A question has one answer.** -/
theorem Tape.Answers.unique {tape : Tape} {question : Question} :
    ∀ {answer answer' : Option Answer}, tape.Answers question answer →
      tape.Answers question answer' → answer = answer'
  | none, none, _, _ => rfl
  | none, some _, ⟨b, hb, hoff⟩, ⟨hon, _⟩ => (hon b hb hoff).elim
  | some _, none, ⟨hon, _⟩, ⟨b, hb, hoff⟩ => (hon b hb hoff).elim
  | some answer, some answer', ⟨_, e, value, he, hvalue, ha⟩,
      ⟨_, e', value', he', hvalue', ha'⟩ => by
    obtain rfl : e = e' := (List.cons.inj (he.unique he')).1
    obtain rfl : value = value' := Option.some.inj (hvalue.symm.trans hvalue')
    rw [ha, ha']

namespace Typesetter

variable {t : Typesetter} {id : NodeId}

/-- What laying out comes to: the layout of an expression, or nothing. -/
theorem layOut_of_acyclic (hsound : t.layouts.Sound t.tape) (h : t.tape.Acyclic id) :
    ∃ layouts : Layouts, layouts.Sound t.tape ∧
      ((∃ e layout, t.tape.Unfolds [id] [e] ∧ layouts.Draws id e ∧ layout.power = e.bindingPower ∧
          t.layOut id = some (some layout, { t with layouts })) ∨
        ¬ t.tape.Complete id ∧ t.layOut id = some (none, { t with layouts })) := by
  obtain ⟨complete, layouts, hrun, hsound', hmem, hcomplete⟩ := Laying.exists_run_eq h hsound
  refine ⟨layouts, hsound', ?_⟩
  cases complete with
  | false =>
    exact .inr ⟨fun hc => Bool.false_ne_true (hcomplete.2 hc), by rw [layOut, hrun]; rfl⟩
  | true =>
    obtain ⟨e, he⟩ := (Tape.exists_unfolds_iff h).2 (hcomplete.1 rfl)
    have hdraws : layouts.Draws id e := by
      have hid : ∀ b ∈ [id], b ∈ layouts := fun b hb => List.mem_singleton.1 hb ▸ hmem rfl
      exact (List.forall₂_cons.1 (hsound'.draws he hid)).1
    have ⟨layout, hlayout, hpower, _⟩ := hdraws
    exact .inl ⟨e, layout, he, hdraws, hpower, by rw [layOut, hrun, ← hlayout]; rfl⟩

theorem drawFormula_of_draws {t' : Typesetter} {layout : Layout} {e : Expr}
    (hlaid : t.layOut id = some (some layout, t')) (hdraws : t'.layouts.Draws id e) :
    t.drawFormula id = some (some e.formula, t') := by
  rw [drawFormula, hlaid]
  simp only [Option.bind_eq_bind, Option.bind_some, hdraws.expand]
  rfl

theorem drawFormula_of_none {t' : Typesetter} (hlaid : t.layOut id = some (none, t')) :
    t.drawFormula id = some (none, t') := by
  rw [drawFormula, hlaid]
  rfl

theorem drawEquation_of_drawFormula {t' : Typesetter} {value : Binary64} {formula : Option Formula}
    (hvalue : t.tape.value? id = some value) (hdrawn : t.drawFormula id = some (formula, t')) :
    t.drawEquation id =
      some (formula.map fun formula => formula ++ .operator "=" :: value.formula, t') := by
  simp only [drawEquation, hvalue, hdrawn]
  rfl

theorem drawPower_of_layOut {t' : Typesetter} {layout : Option Layout}
    (hlaid : t.layOut id = some (layout, t')) :
    t.drawPower id = some (layout.map Layout.power, t') := by
  rw [drawPower, hlaid]
  rfl

theorem exists_value?_of_unfolds {tape : Tape} {e : Expr} (h : tape.Unfolds [id] [e]) :
    ∃ value, tape.value? id = some value := by
  cases h with
  | cons hentry _ _ _ => exact ⟨_, by rw [Tape.value?, hentry, Option.map_some]⟩

/-- The question is answered as the tape says, and sound layouts are left behind. -/
def Replies (t : Typesetter) (question : Question) : Prop :=
  ∃ answer layouts, t.ask question = some (answer, { t with layouts }) ∧
    layouts.Sound t.tape ∧ t.tape.Answers question answer

/-- **One question**: whatever was laid out before, the answer is the tape's. -/
theorem replies_of_acyclic (hsound : t.layouts.Sound t.tape) (question : Question)
    (h : t.tape.Acyclic question.id) : t.Replies question := by
  obtain ⟨layouts, hsound', hlaid⟩ := layOut_of_acyclic hsound h
  rcases hlaid with ⟨e, layout, he, hdraws, hpower, hlaid⟩ | ⟨hnot, hlaid⟩
  · -- the position stands for `e`, and the three answers are read off it
    obtain ⟨value, hvalue⟩ := exists_value?_of_unfolds he
    have hanswers : t.tape.Answers question (some (question.answer e value)) :=
      ⟨he.complete _ List.mem_cons_self, e, value, he, hvalue, rfl⟩
    refine ⟨_, layouts, ?_, hsound', hanswers⟩
    cases question with
    | formula id =>
      have hdrawn : t.drawFormula id = _ := drawFormula_of_draws hlaid hdraws
      rw [ask, hdrawn]
      rfl
    | equation id =>
      have hdrawn : t.drawEquation id = _ :=
        drawEquation_of_drawFormula hvalue (drawFormula_of_draws hlaid hdraws)
      rw [ask, hdrawn]
      rfl
    | power id =>
      have hdrawn : t.drawPower id = some (some layout.power, { t with layouts }) :=
        drawPower_of_layOut hlaid
      rw [ask, hdrawn, hpower]
      rfl
  · -- a position off the tape is reached; only an equation may notice this before laying out
    have hanswers : t.tape.Answers question none := by
      simpa [Tape.Complete, Tape.Answers] using hnot
    cases question with
    | formula id =>
      have hdrawn : t.drawFormula id = _ := drawFormula_of_none hlaid
      exact ⟨none, layouts, by rw [ask, hdrawn]; rfl, hsound', hanswers⟩
    | equation id =>
      have hdrawn : t.drawFormula id = _ := drawFormula_of_none hlaid
      cases hvalue : t.tape.value? id with
      | none => exact ⟨none, t.layouts, by rw [ask, drawEquation, hvalue]; rfl, hsound, hanswers⟩
      | some value =>
        refine ⟨none, layouts, ?_, hsound', hanswers⟩
        rw [ask, drawEquation_of_drawFormula hvalue hdrawn]
        rfl
    | power id =>
      have hdrawn : t.drawPower id = _ := drawPower_of_layOut hlaid
      exact ⟨none, layouts, by rw [ask, hdrawn]; rfl, hsound', hanswers⟩

/-- **Many questions**: each answer is the tape's. -/
theorem exists_askAll_eq : ∀ {t : Typesetter} (questions : List Question),
    t.layouts.Sound t.tape → (∀ question ∈ questions, t.tape.Acyclic question.id) →
      ∃ answers t', t.askAll questions = some (answers, t') ∧
        List.Forall₂ t.tape.Answers questions answers
  | t, [], _, _ => ⟨[], t, rfl, .nil⟩
  | t, question :: rest, hsound, h => by
    obtain ⟨hquestion, hrest⟩ := List.forall_mem_cons.1 h
    obtain ⟨answer, layouts, hask, hsound', hanswer⟩ := replies_of_acyclic hsound question hquestion
    obtain ⟨answers, t', haskAll, hanswers⟩ :=
      exists_askAll_eq (t := { t with layouts }) rest hsound' hrest
    exact ⟨answer :: answers, t', by rw [askAll, hask]; simp [haskAll], .cons hanswer hanswers⟩

/-- **Every question put to one typesetter is answered, and the answers do not depend on
the questions before**: they are those of the tape, and also those of a typesetter that
was asked nothing else. -/
theorem askAll_ofTape_of_acyclic (tape : Tape) (questions : List Question)
    (h : ∀ question ∈ questions, tape.Acyclic question.id) :
    ∃ answers t, (ofTape tape).askAll questions = some (answers, t) ∧
      List.Forall₂ (fun question answer => tape.Answers question answer ∧
        ∃ t', (ofTape tape).ask question = some (answer, t')) questions answers := by
  have hsound : (ofTape tape).layouts.Sound tape := Layouts.sound_empty tape
  obtain ⟨answers, t, haskAll, hanswers⟩ := exists_askAll_eq questions hsound h
  refine ⟨answers, t, haskAll, ?_⟩
  have hfresh : ∀ question ∈ questions, ∀ answer, tape.Answers question answer →
      ∃ t', (ofTape tape).ask question = some (answer, t') := by
    intro question hquestion answer hanswer
    obtain ⟨answer', layouts, hask, _, hanswer'⟩ :=
      replies_of_acyclic hsound question (h question hquestion)
    obtain rfl : answer' = answer := hanswer'.unique hanswer
    exact ⟨_, hask⟩
  have hboth := (List.forall₂_and_left questions answers).2 ⟨hfresh, hanswers⟩
  exact hboth.imp fun question answer ⟨hask, hanswer⟩ => ⟨hanswer, hask answer hanswer⟩

/-- A tape that no machine makes: operands that come later, are shared or are missing, and a builtin
without a table entry on too few operands. -/
def tangledTape : Tape :=
  ⟨#[⟨.apply ⟨"f", 7, .constant .zero, none, .power⟩ [2, 2], .nan⟩,
    ⟨.apply (.operator "+" .add .additive) [0, 9], .zero⟩,
    ⟨.apply (.function "sqrt" .sqrt .radical) [], .infinity⟩,
    ⟨.bind "x" 0, .nan⟩]⟩

theorem askAll_tangledTape :
    (∀ question ∈ [Question.equation 1, .formula 3, .power 0, .formula 3],
        tangledTape.Acyclic question.id) ∧
      ∃ answers t, (ofTape tangledTape).askAll [.equation 1, .formula 3, .power 0, .formula 3] =
          some (answers, t) ∧
        List.Forall₂ (fun question answer => tangledTape.Answers question answer ∧
          ∃ t', (ofTape tangledTape).ask question = some (answer, t'))
          [.equation 1, .formula 3, .power 0, .formula 3] answers := by
  have h : ∀ id, tangledTape.Acyclic id :=
    Tape.acyclic_of_ranked_entries (fun id => [2, 3, 1, 3].getD id 0) (by decide)
  exact ⟨fun question _ => h question.id,
    askAll_ofTape_of_acyclic tangledTape _ fun question _ => h question.id⟩

end Typesetter

end RpnTape
