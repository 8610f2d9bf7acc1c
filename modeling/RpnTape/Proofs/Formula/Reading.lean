import Mathlib.Data.List.Basic
import RpnTape.Builtin.Table
import RpnTape.Expr
import RpnTape.Proofs.Formula.Grammar

/-!
# Proofs/Formula/Reading — reading a formula gives back the expression

A reading is an expression as far as its formula can show it (`Expr.shown`): a number is its pieces,
and a variable and a constant of the same name are one. A derivation is read by looking its signs
and function names up among the builtins.

`IsTabled.isReadable`: the formula of an expression over the builtins has a derivation that is read
as the expression. The induction carries where the formula may stand bare. A formula that an
operator on its right does not pull apart is a sum or a product, one that an operator on its left
does not pull apart is a product or a primary; these are the categories that the grammar has there,
and all other formulas stand in parentheses.
-/

namespace RpnTape

/-- What a formula shows of an expression. -/
inductive Reading where
  /-- A number, by its pieces. -/
  | number (shown : Formula)
  /-- A variable or a constant. -/
  | name (shown : String)
  /-- An expression given a name. -/
  | bind (name : String) (source : Reading)
  /-- A builtin applied to one argument or more. -/
  | apply (operator : Builtin) (args : List Reading)

namespace Expr

mutual

/-- What the formula of the expression shows. -/
def shown : Expr → Reading
  | literal value => .number value.formula
  | read name => .name name
  | bind name source => .bind name source.shown
  | apply operator [] => .name operator.display
  | apply operator (arg :: args) => .apply operator (arg.shown :: shownAll args)

/-- What the formulas of expressions show. -/
def shownAll : List Expr → List Reading
  | [] => []
  | e :: rest => e.shown :: shownAll rest

end

theorem shownAll_eq_map : ∀ es : List Expr, shownAll es = es.map shown
  | [] => rfl
  | e :: rest => by rw [shownAll, shownAll_eq_map rest, List.map_cons]

theorem shown_apply {operator : Builtin} {args : List Expr} (h : args ≠ []) :
    (apply operator args).shown = .apply operator (args.map shown) := by
  obtain ⟨arg, args, rfl⟩ := List.exists_cons_of_ne_nil h
  rw [shown, shownAll_eq_map, List.map_cons]

end Expr

namespace Builtin

/-- The builtin with a shape of its own. -/
def ofShape? (shape : Shape) : Option Builtin := table.find? fun b => b.shape = shape

/-- The builtin that is shown this way in the shape. -/
def ofDisplay? (shape : Shape) (text : String) : Option Builtin :=
  table.find? fun b => b.shape = shape ∧ b.display = text

/-- **The builtins are told apart by their shapes and the way they are shown.** -/
theorem ofDisplay?_of_mem_table : ∀ b ∈ table, ofDisplay? b.shape b.display = some b := by decide

theorem ofShape?_of_mem_table :
    ∀ b ∈ table, b.shape = .fraction ∨ b.shape = .radical ∨ b.shape = .power →
      ofShape? b.shape = some b := by decide

theorem fits_of_mem_table : ∀ b ∈ table, b.shape ≠ .call → b.shape.fits b.arity = true := by decide

theorem display_of_additive : ∀ b ∈ table, b.shape = .additive →
    b.display = SumSign.plus.text ∨ b.display = SumSign.minus.text := by decide

theorem display_of_multiplicative : ∀ b ∈ table, b.shape = .multiplicative →
    b.display = ProductSign.times.text ∨ b.display = ProductSign.mod.text := by decide

end Builtin

/-! ## Reading a derivation -/

/-- What a derivation is read as: the arguments in their order, and otherwise one expression. A call
of an unknown function is read as nothing. -/
def Derivation.readings? {c : Category} : Derivation c → Option (List Reading)
  | number text => some [.number [.number text]]
  | negative text => some [.number [.row [.operator "-", .number text]]]
  | identifier name => some [.name name]
  | call name args => do return [.apply (← Builtin.ofDisplay? .call name) (← args.readings?)]
  | parenthesized inner => inner.readings?
  | fraction numerator denominator => do
    return [.apply (← Builtin.ofShape? .fraction)
      ((← numerator.readings?) ++ (← denominator.readings?))]
  | radical radicand => do return [.apply (← Builtin.ofShape? .radical) (← radicand.readings?)]
  | superscript base exponent => do
    return [.apply (← Builtin.ofShape? .power) ((← base.readings?) ++ (← exponent.readings?))]
  | primary operand => operand.readings?
  | multiply left sign right => do
    return [.apply (← Builtin.ofDisplay? .multiplicative sign.text)
      ((← left.readings?) ++ (← right.readings?))]
  | product operand => operand.readings?
  | add left sign right => do
    return [.apply (← Builtin.ofDisplay? .additive sign.text)
      ((← left.readings?) ++ (← right.readings?))]
  | sum value => value.readings?
  | assignment name source => return (← source.readings?).map (.bind name)
  | single arg => arg.readings?
  | snoc args arg => return (← args.readings?) ++ (← arg.readings?)

/-- Does the formula have a derivation in the category that is read this way? -/
def Category.Reads (c : Category) (formula : Formula) (readings : List Reading) : Prop :=
  ∃ d : Derivation c, d.pieces = formula ∧ d.readings? = some readings

namespace Category.Reads

variable {formula formula' : Formula} {readings readings' : List Reading}

theorem product (h : Category.primary.Reads formula readings) :
    Category.product.Reads formula readings :=
  let ⟨d, hd, hr⟩ := h
  ⟨.primary d, hd, hr⟩

theorem sum (h : Category.product.Reads formula readings) : Category.sum.Reads formula readings :=
  let ⟨d, hd, hr⟩ := h
  ⟨.product d, hd, hr⟩

theorem expression (h : Category.sum.Reads formula readings) :
    Category.expression.Reads formula readings :=
  let ⟨d, hd, hr⟩ := h
  ⟨.sum d, hd, hr⟩

theorem parenthesized (h : Category.expression.Reads formula readings) :
    Category.primary.Reads [.row (.operator "(" :: formula ++ [.operator ")"])] readings :=
  let ⟨d, hd, hr⟩ := h
  ⟨.parenthesized d, by rw [Derivation.pieces, hd]; rfl, hr⟩

theorem infix_sum {operator : Builtin} (hmem : operator ∈ Builtin.table)
    (hshape : operator.shape = .additive) (hleft : Category.sum.Reads formula readings)
    (hright : Category.product.Reads formula' readings') :
    Category.sum.Reads (formula ++ .operator operator.display :: formula')
      [.apply operator (readings ++ readings')] := by
  obtain ⟨left, rfl, hl⟩ := hleft
  obtain ⟨right, rfl, hr⟩ := hright
  have hop : Builtin.ofDisplay? .additive operator.display = some operator :=
    hshape ▸ Builtin.ofDisplay?_of_mem_table operator hmem
  obtain ⟨sign, hsign⟩ : ∃ sign : SumSign, operator.display = sign.text :=
    (Builtin.display_of_additive operator hmem hshape).elim (⟨_, ·⟩) (⟨_, ·⟩)
  rw [hsign] at hop ⊢
  refine ⟨.add left sign right, by simp, ?_⟩
  simp [Derivation.readings?, hop, hl, hr]

theorem infix_product {operator : Builtin} (hmem : operator ∈ Builtin.table)
    (hshape : operator.shape = .multiplicative) (hleft : Category.product.Reads formula readings)
    (hright : Category.primary.Reads formula' readings') :
    Category.product.Reads (formula ++ .operator operator.display :: formula')
      [.apply operator (readings ++ readings')] := by
  obtain ⟨left, rfl, hl⟩ := hleft
  obtain ⟨right, rfl, hr⟩ := hright
  have hop : Builtin.ofDisplay? .multiplicative operator.display = some operator :=
    hshape ▸ Builtin.ofDisplay?_of_mem_table operator hmem
  obtain ⟨sign, hsign⟩ : ∃ sign : ProductSign, operator.display = sign.text :=
    (Builtin.display_of_multiplicative operator hmem hshape).elim (⟨_, ·⟩) (⟨_, ·⟩)
  rw [hsign] at hop ⊢
  refine ⟨.multiply left sign right, by simp, ?_⟩
  simp [Derivation.readings?, hop, hl, hr]

theorem fraction {operator : Builtin} (hmem : operator ∈ Builtin.table)
    (hshape : operator.shape = .fraction) (hn : Category.expression.Reads formula readings)
    (hd : Category.expression.Reads formula' readings') :
    Category.primary.Reads [.fraction formula formula']
      [.apply operator (readings ++ readings')] := by
  obtain ⟨numerator, rfl, hn⟩ := hn
  obtain ⟨denominator, rfl, hd⟩ := hd
  have hop : Builtin.ofShape? .fraction = some operator :=
    hshape ▸ Builtin.ofShape?_of_mem_table operator hmem (.inl hshape)
  exact ⟨.fraction numerator denominator, rfl, by simp [Derivation.readings?, hop, hn, hd]⟩

theorem radical {operator : Builtin} (hmem : operator ∈ Builtin.table)
    (hshape : operator.shape = .radical) (h : Category.expression.Reads formula readings) :
    Category.primary.Reads [.radical formula] [.apply operator readings] := by
  obtain ⟨radicand, rfl, h⟩ := h
  have hop : Builtin.ofShape? .radical = some operator :=
    hshape ▸ Builtin.ofShape?_of_mem_table operator hmem (.inr (.inl hshape))
  exact ⟨.radical radicand, rfl, by simp [Derivation.readings?, hop, h]⟩

theorem superscript {operator : Builtin} (hmem : operator ∈ Builtin.table)
    (hshape : operator.shape = .power) (hb : Category.expression.Reads formula readings)
    (he : Category.expression.Reads formula' readings') :
    Category.primary.Reads [.superscript formula formula']
      [.apply operator (readings ++ readings')] := by
  obtain ⟨base, rfl, hb⟩ := hb
  obtain ⟨exponent, rfl, he⟩ := he
  have hop : Builtin.ofShape? .power = some operator :=
    hshape ▸ Builtin.ofShape?_of_mem_table operator hmem (.inr (.inr hshape))
  exact ⟨.superscript base exponent, rfl, by simp [Derivation.readings?, hop, hb, he]⟩

theorem call {operator : Builtin} (hmem : operator ∈ Builtin.table)
    (hshape : operator.shape = .call) (h : Category.arguments.Reads formula readings) :
    Category.primary.Reads
      (.identifier operator.display :: .operator "(" :: formula ++ [.operator ")"])
      [.apply operator readings] := by
  obtain ⟨args, rfl, h⟩ := h
  have hop : Builtin.ofDisplay? .call operator.display = some operator :=
    hshape ▸ Builtin.ofDisplay?_of_mem_table operator hmem
  exact ⟨.call operator.display args, rfl, by simp [Derivation.readings?, hop, h]⟩

end Category.Reads

/-! ## The formula of an expression -/

namespace Expr

/-- Is every builtin in the expression one of the table, and applied to as
many arguments as it takes? -/
inductive IsTabled : Expr → Prop
  | literal (value : Binary64) : IsTabled (literal value)
  | read (name : String) : IsTabled (read name)
  | bind {source : Expr} (name : String) (hsource : IsTabled source) : IsTabled (bind name source)
  | apply {operator : Builtin} {args : List Expr} (hmem : operator ∈ Builtin.table)
      (harity : args.length = operator.arity) (hargs : ∀ arg ∈ args, IsTabled arg) :
      IsTabled (apply operator args)

/-- Is the formula read as the expression, on its own and at every place where it stands bare? -/
structure IsReadable (e : Expr) : Prop where
  alone : Category.expression.Reads e.formula [e.shown]
  leftOfSum : ¬ e.bindingPower.right < Shape.additive.bindingPower.left →
    Category.sum.Reads e.formula [e.shown]
  rightOfSum : ¬ e.bindingPower.left < Shape.additive.bindingPower.right →
    Category.product.Reads e.formula [e.shown]
  leftOfProduct : ¬ e.bindingPower.right < Shape.multiplicative.bindingPower.left →
    Category.product.Reads e.formula [e.shown]
  rightOfProduct : ¬ e.bindingPower.left < Shape.multiplicative.bindingPower.right →
    Category.primary.Reads e.formula [e.shown]

variable {e : Expr}

theorem isReadable_of_primary (h : Category.primary.Reads e.formula [e.shown]) : e.IsReadable where
  alone := h.product.sum.expression
  leftOfSum _ := h.product.sum
  rightOfSum _ := h.product
  leftOfProduct _ := h.product
  rightOfProduct _ := h

theorem isReadable_of_product (hpower : e.bindingPower = Shape.multiplicative.bindingPower)
    (h : Category.product.Reads e.formula [e.shown]) : e.IsReadable where
  alone := h.sum.expression
  leftOfSum _ := h.sum
  rightOfSum _ := h
  leftOfProduct _ := h
  rightOfProduct hbare := absurd (by rw [hpower]; decide) hbare

theorem isReadable_of_sum (hpower : e.bindingPower = Shape.additive.bindingPower)
    (h : Category.sum.Reads e.formula [e.shown]) : e.IsReadable where
  alone := h.expression
  leftOfSum _ := h
  rightOfSum hbare := absurd (by rw [hpower]; decide) hbare
  leftOfProduct hbare := absurd (by rw [hpower]; decide) hbare
  rightOfProduct hbare := absurd (by rw [hpower]; decide) hbare

theorem isReadable_of_expression (hpower : e.bindingPower = .assignment)
    (h : Category.expression.Reads e.formula [e.shown]) : e.IsReadable where
  alone := h
  leftOfSum hbare := absurd (by rw [hpower]; decide) hbare
  rightOfSum hbare := absurd (by rw [hpower]; decide) hbare
  leftOfProduct hbare := absurd (by rw [hpower]; decide) hbare
  rightOfProduct hbare := absurd (by rw [hpower]; decide) hbare

/-- In parentheses a formula is read wherever a primary is. -/
theorem IsReadable.reads_wrapped (h : e.IsReadable) {c : Category}
    (hprimary : ∀ {formula readings}, Category.primary.Reads formula readings →
      c.Reads formula readings)
    {wrap : Prop} [Decidable wrap] (hbare : ¬ wrap → c.Reads e.formula [e.shown]) :
    c.Reads (e.term.wrapped wrap) [e.shown] := by
  by_cases hwrap : wrap
  · simp only [Term.wrapped, hwrap, decide_true, if_true]
    exact hprimary h.alone.parenthesized
  · simp only [Term.wrapped, hwrap, decide_false, Bool.false_eq_true, if_false]
    exact hbare hwrap

/-- Further arguments come behind commas. -/
theorem reads_arguments_cons : ∀ {args : List Expr} {formula : Formula} {readings : List Reading},
    (∀ arg ∈ args, arg.IsReadable) → Category.arguments.Reads formula readings →
      Category.arguments.Reads
        ([Piece.operator ","].intercalate (formula :: args.map Expr.formula))
        (readings ++ args.map shown)
  | [], formula, readings, _, h => by
    rwa [List.map_nil, List.map_nil, List.intercalate_singleton, List.append_nil]
  | arg :: args, formula, readings, hargs, ⟨front, hfront, hr⟩ => by
    obtain ⟨harg, hargs⟩ := List.forall_mem_cons.1 hargs
    obtain ⟨last, hlast, hr'⟩ := harg.alone
    have hsnoc : Category.arguments.Reads (formula ++ [.operator ","] ++ arg.formula)
        (readings ++ [arg.shown]) :=
      ⟨.snoc front last, by rw [Derivation.pieces, hfront, hlast],
        by simp [Derivation.readings?, hr, hr']⟩
    have hjoin :
        [Piece.operator ","].intercalate (formula :: arg.formula :: args.map Expr.formula) =
          [Piece.operator ","].intercalate
            ((formula ++ [.operator ","] ++ arg.formula) :: args.map Expr.formula) := by
      cases args <;> simp
    rw [List.map_cons, List.map_cons, hjoin, List.append_cons readings]
    exact reads_arguments_cons hargs hsnoc

theorem reads_arguments {args : List Expr} (hne : args ≠ [])
    (hargs : ∀ arg ∈ args, arg.IsReadable) :
    Category.arguments.Reads ([Piece.operator ","].intercalate (args.map Expr.formula))
      (args.map shown) := by
  obtain ⟨arg, args, rfl⟩ := List.exists_cons_of_ne_nil hne
  obtain ⟨harg, hargs⟩ := List.forall_mem_cons.1 hargs
  obtain ⟨d, hd, hr⟩ := harg.alone
  exact reads_arguments_cons hargs ⟨.single d, hd, hr⟩

/-! ### One case per kind of expression -/

theorem isReadable_literal (value : Binary64) : (literal value).IsReadable := by
  refine isReadable_of_primary ?_
  rw [formula, term, shown, Binary64.formula]
  split
  · exact ⟨.negative (-value).display, rfl, rfl⟩
  · exact ⟨.number value.display, rfl, rfl⟩

theorem isReadable_read (name : String) : (read name).IsReadable :=
  isReadable_of_primary ⟨.identifier name, rfl, rfl⟩

theorem isReadable_bind {source : Expr} (name : String) (hsource : source.IsReadable) :
    (bind name source).IsReadable := by
  obtain ⟨d, hd, hr⟩ := hsource.alone
  refine isReadable_of_expression rfl ⟨.assignment name d, ?_, ?_⟩
  · rw [Derivation.pieces, hd]
    rfl
  · rw [Derivation.readings?, hr]
    rfl

theorem isReadable_infix {operator : Builtin} {a b : Expr} (hmem : operator ∈ Builtin.table)
    (hshape : operator.shape = .additive ∨ operator.shape = .multiplicative) (ha : a.IsReadable)
    (hb : b.IsReadable) : (apply operator [a, b]).IsReadable := by
  have hpower : (apply operator [a, b]).bindingPower = operator.shape.bindingPower := by
    rcases hshape with hshape | hshape <;>
      simp [bindingPower, Builtin.applicationPower, Shape.fits, hshape]
  have hformula : (apply operator [a, b]).formula =
      a.term.wrapped (a.bindingPower.right < operator.shape.bindingPower.left) ++
        .operator operator.display ::
          b.term.wrapped (b.bindingPower.left < operator.shape.bindingPower.right) := by
    rw [formula, term_apply, ← power_term, ← power_term]
    rcases hshape with hshape | hshape <;> simp [Builtin.layOut, hshape]
  rcases hshape with hshape | hshape <;> rw [hshape] at hpower hformula
  · refine isReadable_of_sum hpower ?_
    rw [hformula]
    exact .infix_sum hmem hshape (ha.reads_wrapped (·.product.sum) ha.leftOfSum)
      (hb.reads_wrapped (·.product) hb.rightOfSum)
  · refine isReadable_of_product hpower ?_
    rw [hformula]
    exact .infix_product hmem hshape (ha.reads_wrapped (·.product) ha.leftOfProduct)
      (hb.reads_wrapped (·) hb.rightOfProduct)

theorem isReadable_fraction {operator : Builtin} {a b : Expr} (hmem : operator ∈ Builtin.table)
    (hshape : operator.shape = .fraction) (ha : a.IsReadable) (hb : b.IsReadable) :
    (apply operator [a, b]).IsReadable := by
  have hformula : (apply operator [a, b]).formula = [.fraction a.formula b.formula] := by
    simp [formula, term_apply, Builtin.layOut, hshape]
  refine isReadable_of_primary ?_
  rw [hformula]
  exact .fraction hmem hshape ha.alone hb.alone

theorem isReadable_radical {operator : Builtin} {a : Expr} (hmem : operator ∈ Builtin.table)
    (hshape : operator.shape = .radical) (ha : a.IsReadable) : (apply operator [a]).IsReadable := by
  have hformula : (apply operator [a]).formula = [.radical a.formula] := by
    simp [formula, term_apply, Builtin.layOut, hshape]
  refine isReadable_of_primary ?_
  rw [hformula]
  exact .radical hmem hshape ha.alone

/-- The base of a power is read in parentheses and without them. -/
theorem isReadable_power {operator : Builtin} {a b : Expr} (hmem : operator ∈ Builtin.table)
    (hshape : operator.shape = .power) (ha : a.IsReadable) (hb : b.IsReadable) :
    (apply operator [a, b]).IsReadable := by
  have hformula : (apply operator [a, b]).formula =
      [.superscript (a.term.wrapped (a.term.power.right < Shape.power.bindingPower.left))
        b.formula] := by
    simp [formula, term_apply, Builtin.layOut, hshape]
  refine isReadable_of_primary ?_
  rw [hformula]
  exact .superscript hmem hshape (ha.reads_wrapped (·.product.sum.expression) fun _ => ha.alone)
    hb.alone

theorem isReadable_call {operator : Builtin} {args : List Expr} (hmem : operator ∈ Builtin.table)
    (hshape : operator.shape = .call) (hargs : ∀ arg ∈ args, arg.IsReadable) :
    (apply operator args).IsReadable := by
  have hformula : (apply operator args).formula =
      .identifier operator.display :: Formula.arguments (args.map formula) := by
    have hfits : operator.shape.fits (args.map term).length = false := by rw [hshape]; rfl
    rw [formula, term_apply, Builtin.layOut_of_not_fits hfits, List.map_map]
    rfl
  refine isReadable_of_primary ?_
  rw [hformula]
  by_cases hne : args = []
  · subst hne
    exact ⟨.identifier operator.display, rfl, rfl⟩
  · rw [shown_apply hne, Formula.arguments, if_neg (by simpa using hne)]
    exact .call hmem hshape (reads_arguments hne hargs)

theorem isReadable_apply {operator : Builtin} {args : List Expr} (hmem : operator ∈ Builtin.table)
    (harity : args.length = operator.arity) (hargs : ∀ arg ∈ args, arg.IsReadable) :
    (apply operator args).IsReadable := by
  by_cases hcall : operator.shape = .call
  · exact isReadable_call hmem hcall hargs
  have hfits := Builtin.fits_of_mem_table operator hmem hcall
  rw [← harity] at hfits
  rcases Shape.eq_of_fits hfits with ⟨hcount, hshape⟩ | ⟨hcount, hshape⟩
  · obtain ⟨a, b, rfl⟩ := List.length_eq_two.1 hcount
    obtain ⟨ha, hb⟩ : a.IsReadable ∧ b.IsReadable := by simpa using hargs
    rcases hshape with hshape | hshape | hshape | hshape
    · exact isReadable_infix hmem (.inl hshape) ha hb
    · exact isReadable_infix hmem (.inr hshape) ha hb
    · exact isReadable_fraction hmem hshape ha hb
    · exact isReadable_power hmem hshape ha hb
  · obtain ⟨a, rfl⟩ := List.length_eq_one_iff.1 hcount
    exact isReadable_radical hmem hshape (hargs a (List.mem_singleton_self a))

/-- **The formula of an expression over the builtins can be read**, and is
read as the expression. -/
theorem IsTabled.isReadable (h : e.IsTabled) : e.IsReadable := by
  induction h with
  | literal value => exact isReadable_literal value
  | read name => exact isReadable_read name
  | bind name _ ih => exact isReadable_bind name ih
  | apply hmem harity _ ih => exact isReadable_apply hmem harity ih

/-- **There is one way to read the formula, and it gives back what is shown of the expression.** -/
theorem IsTabled.existsUnique_derivation (h : e.IsTabled) :
    ∃! d : Derivation .expression, d.pieces = e.formula ∧ d.readings? = some [e.shown] := by
  obtain ⟨d, hd, hr⟩ := h.isReadable.alone
  exact ⟨d, ⟨hd, hr⟩, fun d' ⟨hd', _⟩ => Derivation.pieces_injective (hd'.trans hd.symm)⟩

end Expr

end RpnTape
