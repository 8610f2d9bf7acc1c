import RpnTape.Proofs.Machine.Formulas
import RpnTape.Proofs.Tape.Append

/-!
# Proofs/Machine/Equations — one equation for each result

The equation of a position is the formula of the expression that it stands for, with its
value (`Tape.Equates`). It is a matter of what the position reaches: neither a longer tape
nor another tape in front changes it. A typesetter that is asked for several equations gives
this one for every position that has one, whatever it has laid out before, and on a machine's
tape every position has one.
-/

namespace RpnTape

/-! ## The equation of a position -/

namespace Tape

variable {tape tape' : Tape} {id : NodeId} {formula : Formula}

/-- Is this the formula of the expression that the position stands for, with its value? -/
def Equates (tape : Tape) (id : NodeId) (formula : Formula) : Prop :=
  ∃ e value, tape.Unfolds [id] [e] ∧ tape.value? id = some value ∧ formula = e.equation value

/-- **A position has one equation at most.** -/
theorem rightUnique_equates (tape : Tape) : Relator.RightUnique tape.Equates := by
  rintro id formula formula' ⟨e, value, he, hvalue, rfl⟩ ⟨e', value', he', hvalue', rfl⟩
  obtain rfl : e = e' := (List.cons.inj (he.unique he')).1
  obtain rfl : value = value' := Option.some.inj (hvalue.symm.trans hvalue')
  rfl

namespace Equates

theorem mono (h : tape.Equates id formula) (htape : tape.Continues tape') :
    tape'.Equates id formula := by
  obtain ⟨e, value, he, hvalue, rfl⟩ := h
  exact ⟨e, value, he.mono htape, htape.value? hvalue, rfl⟩

theorem shift (h : tape.Equates id formula) (front : Tape) :
    (front.append tape).Equates (front.size + id) formula := by
  obtain ⟨e, value, he, hvalue, rfl⟩ := h
  exact ⟨e, value, he.shift front, (value?_append_add front tape id).trans hvalue, rfl⟩

end Equates

end Tape

/-! ## What a typesetter writes -/

namespace Typesetter

variable {t : Typesetter} {id : NodeId}

theorem equation?_of_complete (hsound : t.layouts.Sound t.tape) (hacyclic : t.tape.Acyclic id)
    (hcomplete : t.tape.Complete id) :
    ∃ formula layouts, t.equation? id = (some formula, { t with layouts }) ∧
      layouts.Sound t.tape ∧ t.tape.Equates id formula := by
  obtain ⟨layouts, hsound', hlaid⟩ := layOut_of_acyclic hsound hacyclic
  rcases hlaid with ⟨e, layout, he, hdraws, -, hlaid⟩ | ⟨hnot, -⟩
  · obtain ⟨value, hvalue⟩ := exists_value?_of_unfolds he
    have hdrawn : t.drawEquation id = _ :=
      drawEquation_of_drawFormula hvalue (drawFormula_of_draws hlaid hdraws)
    refine ⟨e.equation value, layouts, ?_, hsound', e, value, he, hvalue, rfl⟩
    rw [equation?, hdrawn]
    rfl
  · exact absurd hcomplete hnot

/-- **Every position has its equation written, in order.** -/
theorem equates_equations : ∀ {t : Typesetter} {ids : List NodeId}, t.layouts.Sound t.tape →
    (∀ id ∈ ids, t.tape.Acyclic id ∧ t.tape.Complete id) →
      List.Forall₂ t.tape.Equates ids (t.equations ids)
  | _, [], _, _ => .nil
  | t, id :: ids, hsound, h => by
    obtain ⟨⟨hacyclic, hcomplete⟩, hrest⟩ := List.forall_mem_cons.1 h
    obtain ⟨formula, layouts, hformula, hsound', hequates⟩ :=
      equation?_of_complete hsound hacyclic hcomplete
    have hothers : List.Forall₂ t.tape.Equates ids (Typesetter.equations { t with layouts } ids) :=
      equates_equations (t := { t with layouts }) hsound' hrest
    rw [equations, hformula]
    exact .cons hequates hothers

end Typesetter

/-! ## The results of a run -/

/-- The equation of a position is the one that a typesetter without a history writes for it. -/
theorem Machine.OperandsFirst.equation?_of_equates {m : Machine} (hm : m.OperandsFirst)
    {id : NodeId} {equation : Formula} (h : m.tape.Equates id equation) :
    ((Typesetter.ofTape m.tape).equation? id).1 = some equation := by
  have hcomplete : m.tape.Complete id := by
    obtain ⟨e, value, he, -, -⟩ := h
    exact he.complete id List.mem_cons_self
  obtain ⟨formula, layouts, hformula, -, hequates⟩ :=
    Typesetter.equation?_of_complete (t := .ofTape m.tape) (Layouts.sound_empty _) (hm.acyclic id)
      hcomplete
  rw [hformula, Tape.rightUnique_equates _ h hequates]

theorem Machine.OperandsFirst.equates_equations {m : Machine} (hm : m.OperandsFirst)
    (fault : Option Fault) :
    List.Forall₂ m.tape.Equates (m.finish fault).results (m.finish fault).equations := by
  have hsound : (Typesetter.ofTape m.tape).layouts.Sound m.tape := Layouts.sound_empty m.tape
  refine Typesetter.equates_equations hsound fun id hid => ⟨hm.acyclic id, ?_⟩
  have hlt : id < m.tape.size := ((hm.mem_stack_iff id).1 (List.mem_reverse.1 hid)).1
  obtain ⟨e, he⟩ := hm.exists_unfolds hlt
  exact he.complete id List.mem_cons_self

/-- **A run has one equation for each result**, also when it has stopped at a fault. -/
theorem Run.equates_equations (program : List String) :
    List.Forall₂ (ofWords program).tape.Equates (ofWords program).results
      (ofWords program).equations := by
  obtain ⟨performed, fault, hrun⟩ := Machine.exists_run_eq_finish_feed .initial program
  rw [ofWords, hrun]
  exact (Machine.operandsFirst_feed performed).equates_equations fault

end RpnTape
