import RpnTape.Formula.Term

/-!
# Expr — expression trees and their formulas

An expression is what a tape entry stands for once its operands are followed to their ends.
-/

namespace RpnTape

/-- An expression tree. -/
inductive Expr where
  /-- A number. -/
  | literal (value : Binary64)
  /-- A variable. -/
  | read (name : String)
  /-- An expression given a name. -/
  | bind (name : String) (source : Expr)
  /-- A builtin applied to its arguments. -/
  | apply (operator : Builtin) (args : List Expr)

namespace Expr

mutual

/-- The expression, laid out. -/
def term : Expr → Term
  | literal value => ⟨value.formula, .atom⟩
  | read name => ⟨[.identifier name], .atom⟩
  | bind name source => ⟨.identifier name :: .operator "≔" :: source.term.formula, .assignment⟩
  | apply operator args => operator.layOut (terms args)

/-- The expressions, each laid out. -/
def terms : List Expr → List Term
  | [] => []
  | e :: rest => e.term :: terms rest

end

/-- The formula of the expression. -/
def formula (e : Expr) : Formula := e.term.formula

/-- How tightly the formula of the expression holds together. The arguments of an application are
counted, not laid out: a tree that shares its branches can have a formula too long to write. -/
def bindingPower : Expr → BindingPower
  | literal _ | read _ => .atom
  | bind _ _ => .assignment
  | apply operator args => operator.applicationPower args.length

/-- The formula that says which value the expression has. -/
def equation (e : Expr) (value : Binary64) : Formula :=
  e.formula ++ .operator "=" :: value.formula

theorem terms_eq_map : ∀ es : List Expr, terms es = es.map term
  | [] => rfl
  | e :: rest => by rw [terms, terms_eq_map rest, List.map_cons]

/-- **An application is laid out from its laid out arguments.** -/
theorem term_apply (operator : Builtin) (args : List Expr) :
    (apply operator args).term = operator.layOut (args.map term) := by
  rw [term, terms_eq_map]

/-- **The binding power is that of the laid out expression.** -/
theorem power_term (e : Expr) : e.term.power = e.bindingPower := by
  cases e with
  | literal value => rfl
  | read name => rfl
  | bind name source => rfl
  | apply operator args =>
    rw [term_apply, Builtin.power_layOut, List.length_map, bindingPower]

end Expr

end RpnTape
