import RpnTape.Proofs.Formula.Parentheses
import RpnTape.Proofs.Machine.Order
import RpnTape.Proofs.Typesetter.Answers

/-!
# Proofs/Machine/Formulas — the formulas of a machine's entries

On a machine's tape every position stands for an expression over the builtins, and the typesetter
draws the formula of that expression. So what is known of such formulas holds of all that is
drawn: there is one way to read it, this gives back the expression, and it takes all the
parentheses around operands.
-/

namespace RpnTape

/-- The entry stands for the expression, and a typesetter draws the formula for it. -/
def Tape.Shows (tape : Tape) (id : NodeId) (e : Expr) (formula : Formula) : Prop :=
  tape.Unfolds [id] [e] ∧ ∃ t, (Typesetter.ofTape tape).drawFormula id = some (some formula, t)

/-- Without circles, what is drawn is the formula of the expression. -/
theorem Tape.Unfolds.shows {tape : Tape} {id : NodeId} {e : Expr} (he : tape.Unfolds [id] [e])
    (h : tape.Acyclic id) : tape.Shows id e e.formula := by
  have hsound : (Typesetter.ofTape tape).layouts.Sound tape := Layouts.sound_empty tape
  refine ⟨he, ?_⟩
  obtain ⟨layouts, _, hlaid⟩ := Typesetter.layOut_of_acyclic hsound h
  rcases hlaid with ⟨e', layout, he', hdraws, _, hlaid⟩ | ⟨hnot, _⟩
  · obtain rfl : e = e' := (List.cons.inj (he.unique he')).1
    exact ⟨_, Typesetter.drawFormula_of_draws hlaid hdraws⟩
  · exact absurd (he.complete id List.mem_cons_self) hnot

theorem Tape.Shows.formula_eq {tape : Tape} {id : NodeId} {e : Expr} {formula : Formula}
    (hshows : tape.Shows id e formula) (h : tape.Acyclic id) : formula = e.formula := by
  obtain ⟨he, t, hdrawn⟩ := hshows
  obtain ⟨-, t', hdrawn'⟩ := he.shows h
  have hboth := Option.some.inj (hdrawn.symm.trans hdrawn')
  exact Option.some.inj (Prod.ext_iff.1 hboth).1

/-- Where applications are of builtins, expressions are over the builtins. -/
theorem Tape.Unfolds.isTabled {tape : Tape} {ids : List NodeId} {es : List Expr}
    (h : tape.Unfolds ids es) (htabled : ∀ id node, tape.node? id = some node → node.IsTabled) :
    ∀ e ∈ es, e.IsTabled := by
  induction h with
  | nil => exact fun e he => absurd he List.not_mem_nil
  | @cons id entry operands e ids es hentry hoperands hexpr _ ihoperands ihrest =>
    refine List.forall_mem_cons.2 ⟨?_, ihrest⟩
    have hnode := htabled id entry.node (by rw [Tape.node?, hentry]; rfl)
    unfold Entry.expr? at hexpr
    split at hexpr
    case h_1 =>
      obtain rfl := Option.some.inj hexpr
      exact .literal _
    case h_2 =>
      obtain rfl := Option.some.inj hexpr
      exact .read _
    case h_3 =>
      obtain rfl := Option.some.inj hexpr
      exact .bind _ (ihoperands _ (List.mem_singleton_self _))
    case h_4 operator args hargs =>
      obtain rfl := Option.some.inj hexpr
      have hlength := hoperands.length_eq
      rw [hargs] at hnode hlength
      exact .apply hnode.1 (hlength.trans hnode.2) ihoperands
    case h_5 => cases hexpr

namespace Machine

variable {m : Machine}

theorem OperandsFirst.acyclic (hm : m.OperandsFirst) (id : NodeId) : m.tape.Acyclic id :=
  Tape.acyclic_of_rank (fun id => id) (fun h => hm.lt_of_holds h) id

/-- **Every position on the tape stands for an expression.** -/
theorem OperandsFirst.exists_unfolds (hm : m.OperandsFirst) {id : NodeId} (hid : id < m.tape.size) :
    ∃ e, m.tape.Unfolds [id] [e] := by
  obtain ⟨start, -, hblock⟩ := Tape.PostOrder.exists_block_range hm hid
  obtain ⟨es, hes⟩ := hblock.exists_unfolds
  obtain ⟨e, rfl⟩ := List.length_eq_one_iff.1 hes.length_eq
  exact ⟨e, hes⟩

end Machine

namespace Run

/-- The tape of a run is that of a machine in order, with applications of builtins only. -/
theorem exists_machine (program : List String) :
    ∃ m : Machine, m.tape = (ofWords program).tape ∧ m.OperandsFirst ∧ m.IsTabled := by
  obtain ⟨performed, fault, hrun⟩ := Machine.exists_run_eq_finish_feed .initial program
  refine ⟨Machine.initial.feed performed, ?_, Machine.operandsFirst_feed performed,
    Machine.isTabled_feed performed⟩
  rw [ofWords, hrun, Machine.finish]

/-- What a run shows is the formula of an expression over the builtins. -/
theorem isTabled_of_shows {program : List String} {id : NodeId} {e : Expr} {formula : Formula}
    (h : (ofWords program).tape.Shows id e formula) : e.IsTabled ∧ formula = e.formula := by
  obtain ⟨m, hm, hfirst, htabled⟩ := exists_machine program
  rw [← hm] at h
  exact ⟨h.1.isTabled htabled e List.mem_cons_self, h.formula_eq (hfirst.acyclic id)⟩

/-- **Every entry of a run has a formula, there is one way to read it, and this gives back the
expression that the entry stands for.** Hence the formulas of different expressions differ, also of
expressions from different runs. -/
theorem exists_shows_readable (program : List String) (id : Fin (ofWords program).tape.size) :
    ∃ e formula, (ofWords program).tape.Shows id e formula ∧
      (∃! d : Derivation .expression, d.pieces = formula) ∧
      (∀ d : Derivation .expression, d.pieces = formula → d.readings? = some [e.shown]) ∧
      ∀ program' id' e', (ofWords program').tape.Shows id' e' formula → e.shown = e'.shown := by
  obtain ⟨m, hm, hfirst, -⟩ := exists_machine program
  have hid : id.1 < m.tape.size := by rw [hm]; exact id.2
  obtain ⟨e, he⟩ := hfirst.exists_unfolds hid
  have hshows := he.shows (hfirst.acyclic id)
  rw [hm] at hshows
  obtain ⟨d, ⟨hd, hr⟩, -⟩ := (isTabled_of_shows hshows).1.existsUnique_derivation
  have hunique : ∀ d', d'.pieces = e.formula → d' = d := fun d' hd' =>
    Derivation.pieces_injective (hd'.trans hd.symm)
  refine ⟨e, e.formula, hshows, ⟨d, hd, hunique⟩, fun d' hd' => hunique d' hd' ▸ hr, ?_⟩
  intro program' id' e' hshows'
  obtain ⟨htabled', hformula⟩ := isTabled_of_shows hshows'
  obtain ⟨d', ⟨hd', hr'⟩, -⟩ := htabled'.existsUnique_derivation
  obtain rfl := hunique d' (hd'.trans hformula.symm)
  exact (List.cons.inj (Option.some.inj (hr.symm.trans hr'))).1

/-- **Every entry of a run has a formula with no parentheses to spare**: without those
around any one operand of an infix operator, at any depth, it cannot be read, or it is
read as another expression. -/
theorem exists_shows_minimal (program : List String) (id : Fin (ofWords program).tape.size) :
    ∃ e formula, (ofWords program).tape.Shows id e formula ∧
      ∀ formula', formula.Drops formula' →
        ∀ d : Derivation .expression, d.pieces = formula' → d.readings? ≠ some [e.shown] := by
  obtain ⟨m, hm, hfirst, -⟩ := exists_machine program
  have hid : id.1 < m.tape.size := by rw [hm]; exact id.2
  obtain ⟨e, he⟩ := hfirst.exists_unfolds hid
  have hshows := he.shows (hfirst.acyclic id)
  rw [hm] at hshows
  have htabled : e.IsTabled := (isTabled_of_shows hshows).1
  exact ⟨e, e.formula, hshows,
    fun formula' hdrops d hd => htabled.readings?_ne_of_drops hdrops d hd⟩

end Run

end RpnTape
