import RpnTape.Proofs.Formula.Reading

/-!
# Proofs/Formula/Application — the ways in which an application is laid out

A builtin of the table on as many arguments as it takes is laid out in one of six ways. What is to
be shown of all formulas is shown of these.
-/

namespace RpnTape

/-- The formula is that of the builtin on the arguments, laid out in its way. -/
inductive Builtin.LaysOut (operator : Builtin) : List Expr → Formula → Prop
  | infixed (a b : Expr)
      (hshape : operator.shape = .additive ∨ operator.shape = .multiplicative) :
      LaysOut operator [a, b]
        (a.term.wrapped (a.bindingPower.right < operator.shape.bindingPower.left) ++
          .operator operator.display ::
            b.term.wrapped (b.bindingPower.left < operator.shape.bindingPower.right))
  | fraction (a b : Expr) (hshape : operator.shape = .fraction) :
      LaysOut operator [a, b] [.fraction a.formula b.formula]
  | radical (a : Expr) (hshape : operator.shape = .radical) :
      LaysOut operator [a] [.radical a.formula]
  | power (a b : Expr) (hshape : operator.shape = .power) :
      LaysOut operator [a, b]
        [.superscript (a.term.wrapped (a.bindingPower.right < operator.shape.bindingPower.left))
          b.formula]
  | name (hshape : operator.shape = .call) : LaysOut operator [] [.identifier operator.display]
  | call (arg : Expr) (args : List Expr) (hshape : operator.shape = .call) :
      LaysOut operator (arg :: args)
        (.identifier operator.display :: .operator "(" ::
          [Piece.operator ","].intercalate ((arg :: args).map Expr.formula) ++ [.operator ")"])

/-- **The application of a builtin is laid out in one of the six ways.** -/
theorem Builtin.laysOut_of_mem_table {operator : Builtin} (hmem : operator ∈ table)
    {args : List Expr} (harity : args.length = operator.arity) :
    operator.LaysOut args (Expr.apply operator args).formula := by
  have hterm : (Expr.apply operator args).formula =
      (operator.layOut (args.map Expr.term)).formula := by
    rw [Expr.formula, Expr.term_apply]
  rw [hterm]
  by_cases hcall : operator.shape = .call
  · have hfits : operator.shape.fits (args.map Expr.term).length = false := by rw [hcall]; rfl
    rw [layOut_of_not_fits hfits, List.map_map]
    cases args with
    | nil => exact .name hcall
    | cons arg args => exact .call arg args hcall
  have hfits := fits_of_mem_table operator hmem hcall
  rw [← harity] at hfits
  rcases Shape.eq_of_fits hfits with ⟨hcount, hshape⟩ | ⟨hcount, hshape⟩
  · obtain ⟨a, b, rfl⟩ := List.length_eq_two.1 hcount
    rcases hshape with hshape | hshape | hshape | hshape
    · have h := LaysOut.infixed a b (.inl hshape)
      simpa [layOut, hshape, Expr.power_term] using h
    · have h := LaysOut.infixed a b (.inr hshape)
      simpa [layOut, hshape, Expr.power_term] using h
    · have h := LaysOut.fraction a b hshape
      simpa [layOut, hshape, Expr.formula] using h
    · have h := LaysOut.power a b hshape
      simpa [layOut, hshape, Expr.power_term, Expr.formula] using h
  · obtain ⟨a, rfl⟩ := List.length_eq_one_iff.1 hcount
    have h := LaysOut.radical a hshape
    simpa [layOut, hshape, Expr.formula] using h

/-- Laid out in its way, an application holds together as its shape does. -/
theorem Builtin.LaysOut.bindingPower_eq {operator : Builtin} {args : List Expr} {formula : Formula}
    (h : operator.LaysOut args formula) :
    (Expr.apply operator args).bindingPower = operator.shape.bindingPower := by
  rw [Expr.bindingPower, applicationPower]
  cases h with
  | infixed a b hshape => rcases hshape with hshape | hshape <;> rw [hshape] <;> rfl
  | fraction a b hshape | radical a hshape | power a b hshape | name hshape
  | call arg args hshape =>
    rw [hshape]
    rfl

end RpnTape
