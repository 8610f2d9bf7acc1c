import RpnTape.Proofs.Formula.Application

/-!
# Proofs/Formula/Parentheses — no parentheses around an infix operand can be dropped

Dropping a pair of parentheses may change the reading of everything around it, so it is not followed
through the formula. Instead the rows are counted: dropping a pair takes one row away
(`Formula.Drops.rows_eq`), and whatever is read as an expression has at least the rows that the
formula of the expression has (`Derivation.hasRows`, `Derivation.Covers.formula_rows_le`).

The base of a superscript is the one place where a formula may have parentheses that reading does
not need. There a row is counted in any case, whether the base is one or not.
-/

namespace RpnTape

/-! ## Counting rows -/

/-- Is the formula a single row? -/
def Formula.isRow : Formula → Bool
  | [.row _] => true
  | _ => false

mutual

/-- The number of rows in a piece; the base of a superscript counts as one. -/
def Piece.rows : Piece → Nat
  | .number _ | .identifier _ | .operator _ => 0
  | .row pieces => Formula.rows pieces + 1
  | .fraction numerator denominator => Formula.rows numerator + Formula.rows denominator
  | .radical radicand => Formula.rows radicand
  | .superscript base exponent =>
    Formula.rows base + (if Formula.isRow base then 0 else 1) + Formula.rows exponent

/-- The number of rows in a formula; the base of a superscript counts as one. -/
def Formula.rows : Formula → Nat
  | [] => 0
  | piece :: rest => piece.rows + Formula.rows rest

end

namespace Formula

@[simp] theorem rows_nil : rows [] = 0 := by rw [rows]

@[simp] theorem rows_cons (piece : Piece) (rest : Formula) :
    rows (piece :: rest) = piece.rows + rows rest := by rw [rows]

@[simp] theorem rows_append (front back : Formula) :
    rows (front ++ back) = rows front + rows back := by
  induction front with
  | nil => simp
  | cons piece front ih => rw [List.cons_append, rows_cons, rows_cons, ih, Nat.add_assoc]

end Formula

@[simp] theorem Piece.rows_operator (sign : String) : (Piece.operator sign).rows = 0 := by rw [rows]

@[simp] theorem Piece.rows_row (pieces : Formula) : (Piece.row pieces).rows = pieces.rows + 1 := by
  rw [rows]

/-- Parentheses are a row. -/
theorem Term.rows_wrapped (t : Term) (wrap : Bool) :
    (t.wrapped wrap).rows = t.formula.rows + if wrap then 1 else 0 := by
  cases wrap <;> simp [wrapped]

/-! ## Dropping parentheses -/

/-- The signs that stand between two operands. -/
def infixSigns : List String := ["+", "-", "×", "mod"]

/-- The second formula is the first with one pair of parentheses dropped, at any depth.
The parentheses are those of an operand of an infix operator: its sign stands right
before or right behind them. -/
inductive Formula.Drops : Formula → Formula → Prop
  | behind (before inner after : Formula) {sign : String} (hsign : sign ∈ infixSigns) :
      Drops (before ++ .operator sign :: .row (.operator "(" :: inner ++ [.operator ")"]) :: after)
        (before ++ .operator sign :: inner ++ after)
  | inFront (before inner after : Formula) {sign : String} (hsign : sign ∈ infixSigns) :
      Drops (before ++ .row (.operator "(" :: inner ++ [.operator ")"]) :: .operator sign :: after)
        (before ++ inner ++ .operator sign :: after)
  | row {pieces pieces' : Formula} (before after : Formula) (h : Drops pieces pieces') :
      Drops (before ++ .row pieces :: after) (before ++ .row pieces' :: after)
  | numerator {numerator numerator' : Formula} (denominator before after : Formula)
      (h : Drops numerator numerator') :
      Drops (before ++ .fraction numerator denominator :: after)
        (before ++ .fraction numerator' denominator :: after)
  | denominator {denominator denominator' : Formula} (numerator before after : Formula)
      (h : Drops denominator denominator') :
      Drops (before ++ .fraction numerator denominator :: after)
        (before ++ .fraction numerator denominator' :: after)
  | radicand {radicand radicand' : Formula} (before after : Formula)
      (h : Drops radicand radicand') :
      Drops (before ++ .radical radicand :: after) (before ++ .radical radicand' :: after)
  | base {base base' : Formula} (exponent before after : Formula) (h : Drops base base') :
      Drops (before ++ .superscript base exponent :: after)
        (before ++ .superscript base' exponent :: after)
  | exponent {exponent exponent' : Formula} (base before after : Formula)
      (h : Drops exponent exponent') :
      Drops (before ++ .superscript base exponent :: after)
        (before ++ .superscript base exponent' :: after)

namespace Formula

/-- A formula that is a single row has no other piece. -/
theorem isRow_eq_false_of_mem {formula : Formula} (piece : Piece) (hmem : piece ∈ formula)
    (hpiece : ∀ pieces, piece ≠ .row pieces) : formula.isRow = false := by
  unfold isRow
  split
  · exact absurd (List.mem_singleton.1 hmem) (hpiece _)
  · rfl

theorem isRow_of_row (before after pieces pieces' : Formula) :
    isRow (before ++ .row pieces :: after) = isRow (before ++ .row pieces' :: after) := by
  match before, after with
  | [], [] => rfl
  | [], _ :: _ | [_], _ | _ :: _ :: _, _ => simp [isRow]

/-- A single row stays one, and nothing else becomes one. -/
theorem Drops.isRow_eq {formula formula' : Formula} (h : Drops formula formula') :
    formula.isRow = formula'.isRow := by
  cases h with
  | row before after => exact isRow_of_row before after _ _
  | behind before inner after hsign | inFront before inner after hsign =>
    rw [isRow_eq_false_of_mem (.operator _) (by simp; tauto) (by simp),
      isRow_eq_false_of_mem (.operator _) (by simp; tauto) (by simp)]
  | _ =>
    rw [isRow_eq_false_of_mem _ (List.mem_append_right _ List.mem_cons_self) (by simp),
      isRow_eq_false_of_mem _ (List.mem_append_right _ List.mem_cons_self) (by simp)]

/-- **Dropping a pair of parentheses takes one row away.** -/
theorem Drops.rows_eq {formula formula' : Formula} (h : Drops formula formula') :
    formula.rows = formula'.rows + 1 := by
  induction h with
  | behind before inner after hsign | inFront before inner after hsign => simp; omega
  | row before after h ih => simp; omega
  | numerator denominator before after h ih | denominator numerator before after h ih =>
    simp [Piece.rows]; omega
  | radicand before after h ih => simp [Piece.rows]; omega
  | base exponent before after h ih =>
    simp [Piece.rows, h.isRow_eq]; omega
  | exponent base before after h ih => simp [Piece.rows]; omega

end Formula

/-! ## Where a formula stands in parentheses -/

/-- Does a formula with the binding power need parentheses to be of the category? -/
def Category.wraps (power : BindingPower) : Category → Bool
  | primary => power.left < Shape.multiplicative.bindingPower.right
  | product => power.left < Shape.additive.bindingPower.right
  | sum => power.right < Shape.additive.bindingPower.left
  | expression | arguments => false

/-- The rows that the formula of the expression has where the category is asked for. -/
def Category.rows (c : Category) (e : Expr) : Nat :=
  e.formula.rows + if c.wraps e.bindingPower then 1 else 0

/-- The binding powers that there are. -/
def bindingPowers : List BindingPower :=
  [.assignment, Shape.additive.bindingPower, Shape.multiplicative.bindingPower,
    Shape.radical.bindingPower, Shape.power.bindingPower, .atom]

theorem Expr.bindingPower_mem (e : Expr) : e.bindingPower ∈ bindingPowers := by
  cases e with
  | literal value | read name | bind name source => simp [bindingPower, bindingPowers]
  | apply operator args =>
    rw [bindingPower, Builtin.applicationPower]
    split
    · cases operator.shape <;> decide
    · decide

/-- On the left of a product and on the right of a sum the same formulas stand bare. -/
theorem right_lt_iff_left_lt : ∀ power ∈ bindingPowers,
    power.right < Shape.multiplicative.bindingPower.left ↔
      power.left < Shape.additive.bindingPower.right := by decide

theorem Category.wraps_of_inner : ∀ power ∈ bindingPowers,
    (sum.wraps power = true → product.wraps power = true) ∧
      (product.wraps power = true → primary.wraps power = true) := by decide

/-- A category inside another one asks for at least the rows that that one asks for. -/
theorem Category.rows_mono {c c' : Category} {e : Expr}
    (h : c'.wraps e.bindingPower = true → c.wraps e.bindingPower = true) :
    c'.rows e ≤ c.rows e := by
  refine Nat.add_le_add_left ?_ _
  split
  · rename_i hwraps
    exact Nat.le_of_eq (if_pos (h hwraps)).symm
  · exact Nat.zero_le _

theorem Category.rows_le_succ (c : Category) (e : Expr) : c.rows e ≤ e.formula.rows + 1 := by
  refine Nat.add_le_add_left ?_ _
  split <;> decide

/-! ## The rows of an application -/

/-- The rows in the formula of an application that is laid out in the shape. -/
def Shape.rows : Shape → List Expr → Nat
  | additive, [a, b] => Category.sum.rows a + Category.product.rows b
  | multiplicative, [a, b] => Category.product.rows a + Category.primary.rows b
  | power, [a, b] =>
    let base := a.term.wrapped (a.bindingPower.right < power.bindingPower.left)
    base.rows + (if base.isRow then 0 else 1) + b.formula.rows
  | _, args => Formula.rows (args.flatMap Expr.formula)

theorem Formula.rows_intercalate : ∀ formulas : List Formula,
    rows ([Piece.operator ","].intercalate formulas) = rows formulas.flatten
  | [] => by simp
  | [formula] => by simp
  | formula :: formula' :: formulas => by
    rw [List.intercalate_cons_cons, rows_append, rows_append,
      rows_intercalate (formula' :: formulas), List.flatten_cons, rows_append]
    simp

theorem Builtin.LaysOut.rows_eq {operator : Builtin} {args : List Expr} {formula : Formula}
    (h : operator.LaysOut args formula) : formula.rows = operator.shape.rows args := by
  cases h with
  | infixed a b hshape =>
    rcases hshape with hshape | hshape
    · simp [hshape, Shape.rows, Term.rows_wrapped, Category.rows, Category.wraps, Expr.formula]
    · simp [hshape, Shape.rows, Term.rows_wrapped, Category.rows, Category.wraps, Expr.formula,
        right_lt_iff_left_lt _ a.bindingPower_mem]
  | fraction a b hshape | radical a hshape | power a b hshape | name hshape =>
    simp [hshape, Shape.rows, Piece.rows]
  | call arg args hshape =>
    simp [hshape, Shape.rows, Piece.rows, Formula.rows_intercalate, List.flatMap_def]

namespace Expr

variable {e : Expr} {operator : Builtin} {args : List Expr}

theorem IsTabled.laysOut (h : (Expr.apply operator args).IsTabled) :
    operator.LaysOut args (Expr.apply operator args).formula := by
  cases h with
  | apply hmem harity _ => exact Builtin.laysOut_of_mem_table hmem harity

theorem exists_of_shown_eq_apply {readings : List Reading}
    (h : e.shown = .apply operator readings) :
    ∃ args, e = apply operator args ∧ args.map shown = readings := by
  cases e with
  | literal | read | bind => rw [shown] at h; cases h
  | apply operator' args =>
    cases args with
    | nil => rw [shown] at h; cases h
    | cons arg args =>
      rw [shown_apply (List.cons_ne_nil _ _)] at h
      obtain ⟨rfl, rfl⟩ := Reading.apply.inj h
      exact ⟨_, rfl, rfl⟩

theorem exists_of_shown_eq_number {pieces : Formula} (h : e.shown = .number pieces) :
    ∃ value, e = literal value ∧ pieces = (literal value).formula := by
  cases e with
  | literal value =>
    rw [shown] at h
    exact ⟨value, rfl, (Reading.number.inj h).symm⟩
  | read | bind => rw [shown] at h; cases h
  | apply operator args => cases args <;> (rw [shown] at h; cases h)

theorem exists_of_shown_eq_bind {name : String} {reading : Reading}
    (h : e.shown = .bind name reading) :
    ∃ source, e = bind name source ∧ source.shown = reading := by
  cases e with
  | bind name' source =>
    rw [shown] at h
    obtain ⟨rfl, rfl⟩ := Reading.bind.inj h
    exact ⟨source, rfl, rfl⟩
  | literal | read => rw [shown] at h; cases h
  | apply operator args => cases args <;> (rw [shown] at h; cases h)

/-- What is read as a name is shown as one identifier. -/
theorem IsTabled.formula_eq_of_shown_eq_name (he : e.IsTabled) {name : String}
    (h : e.shown = .name name) : e.bindingPower = .atom ∧ e.formula = [.identifier name] := by
  cases e with
  | read name' =>
    rw [shown] at h
    obtain rfl := Reading.name.inj h
    exact ⟨rfl, rfl⟩
  | literal | bind => rw [shown] at h; cases h
  | apply operator args =>
    cases args with
    | cons arg args => rw [shown] at h; cases h
    | nil =>
      rw [shown] at h
      obtain rfl := Reading.name.inj h
      have hlays := he.laysOut
      rw [hlays.bindingPower_eq]
      generalize (Expr.apply operator []).formula = formula at hlays ⊢
      cases hlays with
      | name hshape => exact ⟨by rw [hshape]; rfl, rfl⟩

end Expr

theorem Builtin.shape_of_ofDisplay? {shape : Shape} {text : String} {operator : Builtin}
    (h : ofDisplay? shape text = some operator) : operator.shape = shape := by
  have hfound := List.find?_some h
  exact (of_decide_eq_true hfound).1

theorem Builtin.shape_of_ofShape? {shape : Shape} {operator : Builtin}
    (h : ofShape? shape = some operator) : operator.shape = shape := by
  have hfound := List.find?_some h
  exact of_decide_eq_true hfound

/-! ## What is read has the rows of its formula -/

namespace Derivation

/-- Only arguments are read as more than one expression. -/
theorem exists_reading_eq {c : Category} {d : Derivation c} {readings : List Reading}
    (h : d.readings? = some readings) : c = .arguments ∨ ∃ reading, readings = [reading] := by
  induction d generalizing readings with
  | number | negative | identifier =>
    obtain rfl := Option.some.inj h
    exact .inr ⟨_, rfl⟩
  | call | radical =>
    simp only [readings?, Option.bind_eq_bind, Option.bind_eq_some_iff, Option.pure_def,
      Option.some.injEq] at h
    obtain ⟨_, _, _, _, rfl⟩ := h
    exact .inr ⟨_, rfl⟩
  | fraction | superscript | multiply | add =>
    simp only [readings?, Option.bind_eq_bind, Option.bind_eq_some_iff, Option.pure_def,
      Option.some.injEq] at h
    obtain ⟨_, _, _, _, _, _, rfl⟩ := h
    exact .inr ⟨_, rfl⟩
  | parenthesized _ ih | sum _ ih => exact .inr ((ih h).resolve_left Category.noConfusion)
  | primary _ ih | product _ ih => exact .inr ((ih h).resolve_left Category.noConfusion)
  | assignment name source ih =>
    simp only [readings?, Option.bind_eq_bind, Option.bind_eq_some_iff, Option.pure_def,
      Option.some.injEq] at h
    obtain ⟨_, hsource, rfl⟩ := h
    obtain ⟨reading, rfl⟩ := (ih hsource).resolve_left Category.noConfusion
    exact .inr ⟨_, rfl⟩
  | single | snoc => exact .inl rfl

/-- The derivation has the rows of the expression's formula, with those of the parentheses that its
category asks for. If it is a single row, then it is that of a negative number or it is there for
the sake of parentheses. -/
structure Covers {c : Category} (d : Derivation c) (e : Expr) : Prop where
  rows_le : c.rows e ≤ d.pieces.rows
  lt_of_isRow : d.pieces.isRow = true →
    (∃ value, e = .literal value) ∧ d.pieces = e.formula ∨ e.formula.rows < d.pieces.rows

/-- Whatever the derivation is read as, it has the rows of that. -/
def HasRows : {c : Category} → Derivation c → Prop
  | .arguments, d => ∀ args : List Expr, (∀ arg ∈ args, arg.IsTabled) →
    d.readings? = some (args.map Expr.shown) →
      Formula.rows (args.flatMap Expr.formula) ≤ d.pieces.rows
  | .primary, d | .product, d | .sum, d | .expression, d => ∀ e : Expr, e.IsTabled →
    d.readings? = some [e.shown] → d.Covers e

theorem Covers.formula_rows_le {c : Category} {d : Derivation c} {e : Expr} (h : d.Covers e) :
    e.formula.rows ≤ d.pieces.rows := Nat.le_trans (Nat.le_add_right _ _) h.rows_le

/-- A formula that is no single row and needs no parentheses. -/
theorem covers_of_rows_le {c : Category} {d : Derivation c} {e : Expr}
    (hwraps : c.wraps e.bindingPower = false) (hrow : d.pieces.isRow = false)
    (h : e.formula.rows ≤ d.pieces.rows) : d.Covers e where
  rows_le := by rwa [Category.rows, if_neg (by simp [hwraps])]
  lt_of_isRow hrow' := absurd hrow' (by simp [hrow])

/-- An application in a shape that needs no parentheses. -/
theorem covers_of_shape {c : Category} {d : Derivation c} {operator : Builtin} {args : List Expr}
    {shape : Shape} (he : (Expr.apply operator args).IsTabled) (hshape : operator.shape = shape)
    (hwraps : c.wraps shape.bindingPower = false) (hrow : d.pieces.isRow = false)
    (h : shape.rows args ≤ d.pieces.rows) : d.Covers (.apply operator args) := by
  refine covers_of_rows_le ?_ hrow ?_
  · rwa [he.laysOut.bindingPower_eq, hshape]
  · rwa [he.laysOut.rows_eq, hshape]

/-- A category around another one has the same formulas, and asks for no more parentheses. -/
theorem Covers.of_inner {c c' : Category} {d : Derivation c} {d' : Derivation c'} {e : Expr}
    (h : d.Covers e) (hpieces : d'.pieces = d.pieces)
    (hwraps : c'.wraps e.bindingPower = true → c.wraps e.bindingPower = true) : d'.Covers e where
  rows_le := by
    rw [hpieces]
    exact Nat.le_trans (Category.rows_mono hwraps) h.rows_le
  lt_of_isRow := by
    rw [hpieces]
    exact h.lt_of_isRow

/-- What is read as the application of a builtin to arguments is the application to expressions that
the arguments are read as. -/
theorem exists_arguments {c : Category} {d : Derivation c} {f : Option Builtin} {e : Expr}
    (he : e.IsTabled)
    (hreads : (do return [Reading.apply (← f) (← d.readings?)]) = some [e.shown]) :
    ∃ operator args, f = some operator ∧ e = .apply operator args ∧ (∀ arg ∈ args, arg.IsTabled) ∧
      d.readings? = some (args.map Expr.shown) := by
  simp only [Option.bind_eq_bind, Option.bind_eq_some_iff, Option.pure_def, Option.some.injEq,
    List.cons.injEq, and_true] at hreads
  obtain ⟨operator, hop, readings, hr, hshown⟩ := hreads
  obtain ⟨args, rfl, rfl⟩ := Expr.exists_of_shown_eq_apply hshown.symm
  cases he with
  | apply _ _ hall => exact ⟨operator, args, hop, rfl, hall, hr⟩

/-- The same with two arguments that are read apart. -/
theorem exists_operands {c c' : Category} {left : Derivation c} {right : Derivation c'}
    (hc : c ≠ .arguments) (hc' : c' ≠ .arguments) {f : Option Builtin} {e : Expr} (he : e.IsTabled)
    (hreads : (do return [Reading.apply (← f) ((← left.readings?) ++ (← right.readings?))]) =
      some [e.shown]) :
    ∃ operator a b, f = some operator ∧ e = .apply operator [a, b] ∧ a.IsTabled ∧ b.IsTabled ∧
      left.readings? = some [a.shown] ∧ right.readings? = some [b.shown] := by
  simp only [Option.bind_eq_bind, Option.bind_eq_some_iff, Option.pure_def, Option.some.injEq,
    List.cons.injEq, and_true] at hreads
  obtain ⟨operator, hop, l, hl, r, hr, hshown⟩ := hreads
  obtain ⟨x, rfl⟩ := (exists_reading_eq hl).resolve_left hc
  obtain ⟨y, rfl⟩ := (exists_reading_eq hr).resolve_left hc'
  obtain ⟨args, rfl, hargs⟩ := Expr.exists_of_shown_eq_apply hshown.symm
  obtain ⟨a, rest, rfl, rfl, hrest⟩ := List.map_eq_cons_iff.1 hargs
  obtain ⟨b, rfl, rfl⟩ := List.map_eq_singleton_iff.1 hrest
  cases he with
  | apply _ _ hall =>
    obtain ⟨ha, hb⟩ : a.IsTabled ∧ b.IsTabled := by simpa using hall
    exact ⟨operator, a, b, hop, rfl, ha, hb, hl, hr⟩

/-! ### One case per rule -/

theorem hasRows_number (text : String) : (number text).HasRows := by
  intro e he hr
  obtain ⟨value, rfl, hvalue⟩ := Expr.exists_of_shown_eq_number (by simpa [readings?] using hr.symm)
  exact covers_of_rows_le rfl rfl (by rw [← hvalue]; exact Nat.le_refl _)

theorem hasRows_negative (text : String) : (negative text).HasRows := by
  intro e he hr
  obtain ⟨value, rfl, hvalue⟩ := Expr.exists_of_shown_eq_number (by simpa [readings?] using hr.symm)
  refine ⟨?_, fun _ => .inl ⟨⟨value, rfl⟩, hvalue⟩⟩
  rw [pieces, hvalue]
  exact Nat.le_refl _

theorem hasRows_identifier (name : String) : (identifier name).HasRows := by
  intro e he hr
  obtain ⟨hpower, hformula⟩ := he.formula_eq_of_shown_eq_name (by simpa [readings?] using hr.symm)
  exact covers_of_rows_le (by rw [hpower]; rfl) rfl (by rw [hformula]; exact Nat.le_refl _)

theorem hasRows_parenthesized {inner : Derivation .expression} (hinner : inner.HasRows) :
    (parenthesized inner).HasRows := by
  intro e he hr
  have hrows : (parenthesized inner).pieces.rows = inner.pieces.rows + 1 := by simp
  have hlt : e.formula.rows < (parenthesized inner).pieces.rows := by
    rw [hrows]
    exact Nat.lt_succ_of_le (hinner e he hr).formula_rows_le
  exact ⟨Nat.le_trans (Category.rows_le_succ _ e) hlt, fun _ => .inr hlt⟩

theorem hasRows_call {args : Derivation .arguments} (name : String) (hargs : args.HasRows) :
    (call name args).HasRows := by
  intro e he hreads
  obtain ⟨operator, es, hop, rfl, hes, hr⟩ := exists_arguments he hreads
  refine covers_of_shape he (Builtin.shape_of_ofDisplay? hop) rfl rfl ?_
  have hrows : (call name args).pieces.rows = args.pieces.rows := by simp [Piece.rows]
  rw [hrows]
  exact hargs es hes hr

theorem hasRows_fraction {numerator denominator : Derivation .expression} (hn : numerator.HasRows)
    (hd : denominator.HasRows) : (fraction numerator denominator).HasRows := by
  intro e he hreads
  obtain ⟨operator, a, b, hop, rfl, ha, hb, hla, hrb⟩ := exists_operands Category.noConfusion
    Category.noConfusion he hreads
  refine covers_of_shape he (Builtin.shape_of_ofShape? hop) rfl rfl ?_
  have hrows : (fraction numerator denominator).pieces.rows =
      numerator.pieces.rows + denominator.pieces.rows := by simp [Piece.rows]
  have hoperands : Shape.fraction.rows [a, b] = a.formula.rows + b.formula.rows := by
    simp [Shape.rows]
  rw [hrows, hoperands]
  exact Nat.add_le_add (hn a ha hla).formula_rows_le (hd b hb hrb).formula_rows_le

theorem hasRows_radical {radicand : Derivation .expression} (hradicand : radicand.HasRows) :
    (radical radicand).HasRows := by
  intro e he hreads
  obtain ⟨operator, es, hop, rfl, hes, hr⟩ := exists_arguments he hreads
  obtain ⟨reading, hreading⟩ := (exists_reading_eq hr).resolve_left Category.noConfusion
  obtain ⟨a, rfl, -⟩ := List.map_eq_singleton_iff.1 hreading
  refine covers_of_shape he (Builtin.shape_of_ofShape? hop) rfl rfl ?_
  have hrows : (radical radicand).pieces.rows = radicand.pieces.rows := by simp [Piece.rows]
  have hoperand : Shape.radical.rows [a] = a.formula.rows := by simp [Shape.rows]
  rw [hrows, hoperand]
  exact (hradicand a (hes a List.mem_cons_self) hr).formula_rows_le

/-- A base may stand in parentheses that reading does not need, or lack those that it has in the
formula of the expression; with the row that it counts as, this makes no difference. -/
theorem rows_base_le {base : Derivation .expression} {a : Expr} (h : base.Covers a) (wrap : Bool)
    (hwrap : a.bindingPower = .atom → wrap = false) :
    (a.term.wrapped wrap).rows + (if (a.term.wrapped wrap).isRow then 0 else 1) ≤
      base.pieces.rows + (if base.pieces.isRow then 0 else 1) := by
  have hle : (a.term.wrapped wrap).rows + (if (a.term.wrapped wrap).isRow then 0 else 1) ≤
      a.formula.rows + 1 := by
    cases wrap with
    | true => exact Nat.le_of_eq (by simp [Term.wrapped, Formula.isRow, Expr.formula])
    | false =>
      simp only [Term.wrapped, Bool.false_eq_true, if_false, Expr.formula]
      split <;> omega
  have hrows := h.formula_rows_le
  by_cases hrow : base.pieces.isRow = true
  · rcases h.lt_of_isRow hrow with ⟨⟨value, rfl⟩, hpieces⟩ | hlt
    · obtain rfl := hwrap rfl
      rw [hpieces]
      exact Nat.le_refl _
    · omega
  · rw [if_neg hrow]
    omega

theorem hasRows_superscript {base exponent : Derivation .expression} (hbase : base.HasRows)
    (hexponent : exponent.HasRows) : (superscript base exponent).HasRows := by
  intro e he hreads
  obtain ⟨operator, a, b, hop, rfl, ha, hb, hla, hrb⟩ := exists_operands Category.noConfusion
    Category.noConfusion he hreads
  refine covers_of_shape he (Builtin.shape_of_ofShape? hop) rfl rfl ?_
  have hrows : (superscript base exponent).pieces.rows =
      base.pieces.rows + (if base.pieces.isRow then 0 else 1) + exponent.pieces.rows := by
    simp [Piece.rows]
  rw [hrows]
  refine Nat.add_le_add (rows_base_le (hbase a ha hla) _ ?_) (hexponent b hb hrb).formula_rows_le
  intro hpower
  rw [hpower]
  rfl

theorem hasRows_multiply {left : Derivation .product} {right : Derivation .primary}
    (sign : ProductSign) (hleft : left.HasRows) (hright : right.HasRows) :
    (multiply left sign right).HasRows := by
  intro e he hreads
  obtain ⟨operator, a, b, hop, rfl, ha, hb, hla, hrb⟩ := exists_operands Category.noConfusion
    Category.noConfusion he hreads
  refine covers_of_shape he (Builtin.shape_of_ofDisplay? hop) rfl ?_ ?_
  · exact Formula.isRow_eq_false_of_mem (.operator sign.text) (by simp) (by simp)
  · have hrows : (multiply left sign right).pieces.rows = left.pieces.rows + right.pieces.rows := by
      simp
    rw [hrows]
    exact Nat.add_le_add (hleft a ha hla).rows_le (hright b hb hrb).rows_le

theorem hasRows_add {left : Derivation .sum} {right : Derivation .product} (sign : SumSign)
    (hleft : left.HasRows) (hright : right.HasRows) : (add left sign right).HasRows := by
  intro e he hreads
  obtain ⟨operator, a, b, hop, rfl, ha, hb, hla, hrb⟩ := exists_operands Category.noConfusion
    Category.noConfusion he hreads
  refine covers_of_shape he (Builtin.shape_of_ofDisplay? hop) rfl ?_ ?_
  · exact Formula.isRow_eq_false_of_mem (.operator sign.text) (by simp) (by simp)
  · have hrows : (add left sign right).pieces.rows = left.pieces.rows + right.pieces.rows := by
      simp
    rw [hrows]
    exact Nat.add_le_add (hleft a ha hla).rows_le (hright b hb hrb).rows_le

theorem hasRows_assignment {source : Derivation .expression} (name : String)
    (hsource : source.HasRows) : (assignment name source).HasRows := by
  intro e he hreads
  simp only [readings?, Option.bind_eq_bind, Option.bind_eq_some_iff, Option.pure_def,
    Option.some.injEq, List.map_eq_singleton_iff] at hreads
  obtain ⟨readings, hr, reading, rfl, hshown⟩ := hreads
  obtain ⟨s, rfl, rfl⟩ := Expr.exists_of_shown_eq_bind hshown.symm
  have hs : s.IsTabled := by
    cases he with
    | bind _ hs => exact hs
  refine covers_of_rows_le rfl ?_ ?_
  · exact Formula.isRow_eq_false_of_mem (.operator "≔") (by simp) (by simp)
  · have hrows : (assignment name source).pieces.rows = source.pieces.rows := by
      simp [Piece.rows]
    have hrows' : (Expr.bind name s).formula.rows = s.formula.rows := by
      simp [Expr.formula, Expr.term, Piece.rows]
    rw [hrows, hrows']
    exact (hsource s hs hr).formula_rows_le

theorem hasRows_single {arg : Derivation .expression} (harg : arg.HasRows) :
    (single arg).HasRows := by
  intro es hes hreads
  obtain ⟨reading, hreading⟩ :=
    (exists_reading_eq (d := arg) hreads).resolve_left Category.noConfusion
  obtain ⟨e, rfl, -⟩ := List.map_eq_singleton_iff.1 hreading
  have hrows := (harg e (hes e List.mem_cons_self) hreads).formula_rows_le
  simpa using hrows

theorem hasRows_snoc {args : Derivation .arguments} {arg : Derivation .expression}
    (hargs : args.HasRows) (harg : arg.HasRows) : (snoc args arg).HasRows := by
  intro es hes hreads
  simp only [readings?, Option.bind_eq_bind, Option.bind_eq_some_iff, Option.pure_def,
    Option.some.injEq] at hreads
  obtain ⟨l, hl, r, hr, happend⟩ := hreads
  obtain ⟨front, back, rfl, rfl, rfl⟩ := List.map_eq_append_iff.1 happend.symm
  obtain ⟨reading, hreading⟩ := (exists_reading_eq hr).resolve_left Category.noConfusion
  obtain ⟨e, rfl, -⟩ := List.map_eq_singleton_iff.1 hreading
  have hfront := hargs front (fun e he => hes e (List.mem_append_left _ he)) hl
  have hback := (harg e (hes e (by simp)) hr).formula_rows_le
  simpa using Nat.add_le_add hfront hback

/-- **What is read as an expression has at least the rows of its formula.** -/
theorem hasRows {c : Category} (d : Derivation c) : d.HasRows := by
  induction d with
  | number text => exact hasRows_number text
  | negative text => exact hasRows_negative text
  | identifier name => exact hasRows_identifier name
  | call name args hargs => exact hasRows_call name hargs
  | parenthesized inner hinner => exact hasRows_parenthesized hinner
  | fraction numerator denominator hn hd => exact hasRows_fraction hn hd
  | radical radicand hradicand => exact hasRows_radical hradicand
  | superscript base exponent hbase hexponent => exact hasRows_superscript hbase hexponent
  | primary operand hoperand =>
    intro e he hr
    exact (hoperand e he hr).of_inner rfl (Category.wraps_of_inner _ e.bindingPower_mem).2
  | multiply left sign right hleft hright => exact hasRows_multiply sign hleft hright
  | product operand hoperand =>
    intro e he hr
    exact (hoperand e he hr).of_inner rfl (Category.wraps_of_inner _ e.bindingPower_mem).1
  | add left sign right hleft hright => exact hasRows_add sign hleft hright
  | sum value hvalue => exact fun e he hr => (hvalue e he hr).of_inner rfl fun h => nomatch h
  | assignment name source hsource => exact hasRows_assignment name hsource
  | single arg harg => exact hasRows_single harg
  | snoc args arg hargs harg => exact hasRows_snoc hargs harg

end Derivation

/-- **No parentheses around an infix operand can be dropped**: what is left is read as another
expression, or not at all. -/
theorem Expr.IsTabled.readings?_ne_of_drops {e : Expr} (he : e.IsTabled) {formula : Formula}
    (h : e.formula.Drops formula) (d : Derivation .expression) (hd : d.pieces = formula) :
    d.readings? ≠ some [e.shown] := by
  intro hr
  have hle : e.formula.rows ≤ d.pieces.rows := (d.hasRows e he hr).formula_rows_le
  rw [h.rows_eq, hd] at hle
  exact Nat.not_succ_le_self _ hle

end RpnTape
