import Mathlib.Data.List.Induction
import Mathlib.Logic.Function.Basic
import RpnTape.Formula.Basic

/-!
# Proofs/Formula/Grammar — the ordinary grammar of formulas, and that it is unambiguous

    E := identifier ≔ E | A
    A := A (+ | -) M | M
    M := M (× | mod) P | P
    P := number | row(- number) | identifier | identifier ( E , … , E ) | row( ( E ) )
       | fraction(E, E) | radical(E) | superscript(E, E)

A derivation is a tree over these rules and its `pieces` are what it derives. `pieces_injective`
says that a formula has one derivation at most.

Both infix levels associate to the left, so formulas are compared from their right ends: in
`before ++ pieces` the last operand of a chain comes off first, whatever stands in front of it. What
may stand there is limited (`Category.Clear`): the piece in front of a sum is no infix sign, or the
sum would go on to the left. Assignments associate to the right. They are treated by taking the sum
that ends them off, together with all their targets (`exists_eq_assignments`).
-/

namespace RpnTape

/-- The syntactic categories. -/
inductive Category where
  /-- `P`. -/
  | primary
  /-- `M`. -/
  | product
  /-- `A`. -/
  | sum
  /-- `E`. -/
  | expression
  /-- One or more `E`, separated by commas. -/
  | arguments

/-- The signs between the operands of a sum. -/
inductive SumSign where
  | plus | minus

/-- The signs between the operands of a product. -/
inductive ProductSign where
  | times | mod

/-- The sign as it is written. -/
def SumSign.text : SumSign → String
  | plus => "+"
  | minus => "-"

/-- The sign as it is written. -/
def ProductSign.text : ProductSign → String
  | times => "×"
  | mod => "mod"

theorem SumSign.text_injective : Function.Injective text := by
  intro sign sign' h
  cases sign <;> cases sign' <;> first | rfl | exact absurd h (by decide)

theorem ProductSign.text_injective : Function.Injective text := by
  intro sign sign' h
  cases sign <;> cases sign' <;> first | rfl | exact absurd h (by decide)

/-- The derivations of a category. -/
inductive Derivation : Category → Type
  | number (text : String) : Derivation .primary
  | negative (text : String) : Derivation .primary
  | identifier (name : String) : Derivation .primary
  | call (name : String) (args : Derivation .arguments) : Derivation .primary
  | parenthesized (inner : Derivation .expression) : Derivation .primary
  | fraction (numerator denominator : Derivation .expression) : Derivation .primary
  | radical (radicand : Derivation .expression) : Derivation .primary
  | superscript (base exponent : Derivation .expression) : Derivation .primary
  | primary (operand : Derivation .primary) : Derivation .product
  | multiply (left : Derivation .product) (sign : ProductSign) (right : Derivation .primary) :
    Derivation .product
  | product (operand : Derivation .product) : Derivation .sum
  | add (left : Derivation .sum) (sign : SumSign) (right : Derivation .product) : Derivation .sum
  | sum (value : Derivation .sum) : Derivation .expression
  | assignment (name : String) (source : Derivation .expression) : Derivation .expression
  | single (arg : Derivation .expression) : Derivation .arguments
  | snoc (args : Derivation .arguments) (arg : Derivation .expression) : Derivation .arguments

namespace Derivation

/-- The formula that is derived. -/
@[simp] def pieces {c : Category} : Derivation c → Formula
  | number text => [.number text]
  | negative text => [.row [.operator "-", .number text]]
  | identifier name => [.identifier name]
  | call name args => [.identifier name, .operator "("] ++ args.pieces ++ [.operator ")"]
  | parenthesized inner => [.row ([.operator "("] ++ inner.pieces ++ [.operator ")"])]
  | fraction numerator denominator => [.fraction numerator.pieces denominator.pieces]
  | radical radicand => [.radical radicand.pieces]
  | superscript base exponent => [.superscript base.pieces exponent.pieces]
  | primary operand => operand.pieces
  | multiply left sign right => left.pieces ++ [.operator sign.text] ++ right.pieces
  | product operand => operand.pieces
  | add left sign right => left.pieces ++ [.operator sign.text] ++ right.pieces
  | sum value => value.pieces
  | assignment name source => [.identifier name, .operator "≔"] ++ source.pieces
  | single arg => arg.pieces
  | snoc args arg => args.pieces ++ [.operator ","] ++ arg.pieces

end Derivation

/-! ## What may stand in front -/

namespace Category

/-- The signs that would make a formula of the category go on to the left. -/
def joins : Category → List String
  | primary => []
  | product => ["×", "mod"]
  | sum => ["×", "mod", "+", "-"]
  | expression => ["×", "mod", "+", "-", "≔"]
  | arguments => ["×", "mod", "+", "-", "≔", ","]

/-- Does the formula in front end in none of these signs? -/
def Clear (c : Category) (before : Formula) : Prop :=
  ∀ sign ∈ c.joins, before.getLast? ≠ some (.operator sign)

variable {c c' : Category} {before : Formula}

theorem clear_nil (c : Category) : c.Clear [] := fun _ _ h => nomatch h

theorem Clear.mono (h : c'.Clear before) (hjoins : c.joins ⊆ c'.joins) : c.Clear before :=
  fun sign hsign => h sign (hjoins hsign)

theorem clear_append_operator {sign : String} :
    c.Clear (before ++ [.operator sign]) ↔ sign ∉ c.joins := by
  simp only [Clear, List.getLast?_concat, ne_eq, Option.some.injEq, Piece.operator.injEq]
  exact ⟨fun h hsign => h sign hsign rfl, fun h other hother heq => h (heq ▸ hother)⟩

theorem Clear.ne_append_operator (h : c.Clear before) {sign : String} (hsign : sign ∈ c.joins)
    (front : Formula) : before ≠ front ++ [.operator sign] := by
  rintro rfl
  exact clear_append_operator.1 h hsign

end Category

namespace Derivation

open Category

/-! ## Assignments

An expression is a sum with targets in front. -/

/-- Assigns the value of an expression to names, the last one first. -/
def assignments (names : List String) (e : Derivation .expression) : Derivation .expression :=
  names.foldr assignment e

/-- The targets of assignments. -/
def targets (names : List String) : Formula :=
  names.flatMap fun name => [.identifier name, .operator "≔"]

@[simp] theorem targets_nil : targets [] = [] := rfl

theorem targets_concat (names : List String) (name : String) :
    targets (names ++ [name]) = targets names ++ [.identifier name] ++ [.operator "≔"] := by
  simp [targets]

theorem pieces_assignments (names : List String) (e : Derivation .expression) :
    (assignments names e).pieces = targets names ++ e.pieces := by
  induction names with
  | nil => rfl
  | cons name names ih =>
    have hpieces : (assignments (name :: names) e).pieces =
        [.identifier name, .operator "≔"] ++ (assignments names e).pieces := rfl
    rw [hpieces, ih]
    rfl

theorem exists_eq_assignments :
    ∀ e : Derivation .expression, ∃ names value, e = assignments names (sum value)
  | sum value => ⟨[], value, rfl⟩
  | assignment name source => by
    obtain ⟨names, value, h⟩ := exists_eq_assignments source
    exact ⟨name :: names, value, by rw [h]; rfl⟩

/-- Behind targets the category matters no more: they end in `≔`. -/
theorem clear_append_targets {c : Category} (hc : "≔" ∉ c.joins) {before : Formula}
    (h : c.Clear before) (names : List String) : c.Clear (before ++ targets names) := by
  rcases List.eq_nil_or_concat names with rfl | ⟨names, name, rfl⟩
  · rwa [targets_nil, List.append_nil]
  · rw [List.concat_eq_append, targets_concat, ← List.append_assoc]
    exact clear_append_operator.2 hc

/-- What ends in targets does not end clear of them. -/
theorem ne_append_targets {before : Formula} (h : Category.expression.Clear before)
    (front : Formula) (names : List String) (name : String) :
    before ≠ front ++ targets (names ++ [name]) := by
  rw [targets_concat, ← List.append_assoc]
  exact h.ne_append_operator (by decide) _

/-- Targets come off from the right as long as there are any. -/
theorem targets_inj {before before' : Formula} (h : Category.expression.Clear before)
    (h' : Category.expression.Clear before') {names names' : List String}
    (heq : before ++ targets names = before' ++ targets names') :
    before = before' ∧ names = names' := by
  induction names using List.reverseRecOn generalizing names' with
  | nil =>
    rw [targets_nil, List.append_nil] at heq
    rcases List.eq_nil_or_concat names' with rfl | ⟨names', name', rfl⟩
    · exact ⟨by rw [heq, targets_nil, List.append_nil], rfl⟩
    · exact absurd (by rw [heq, List.concat_eq_append]) (ne_append_targets h before' names' name')
  | append_singleton names name ih =>
    rcases List.eq_nil_or_concat names' with rfl | ⟨names', name', rfl⟩
    · rw [targets_nil, List.append_nil] at heq
      exact absurd heq.symm (ne_append_targets h' before names name)
    · rw [List.concat_eq_append, targets_concat, targets_concat] at heq
      simp only [← List.append_assoc, List.append_singleton_inj, Piece.identifier.injEq, and_true]
        at heq
      obtain ⟨rfl, rfl⟩ := ih heq.1
      exact ⟨rfl, by rw [heq.2, List.concat_eq_append]⟩

/-! ## Reading from the right -/

/-- Does the right end of what is derived tell the derivation, and so what stands in front? -/
def IsDetermined {c : Category} (d : Derivation c) : Prop :=
  ∀ ⦃before before' : Formula⦄ ⦃d' : Derivation c⦄, c.Clear before → c.Clear before' →
    before ++ d.pieces = before' ++ d'.pieces → before = before' ∧ d = d'

/-- Does the right end of the expression tell the sum that it ends in? -/
def EndsInSum (e : Derivation .expression) : Prop :=
  ∀ ⦃before before' : Formula⦄ ⦃value : Derivation .sum⦄, Category.sum.Clear before →
    Category.sum.Clear before' → before ++ e.pieces = before' ++ value.pieces →
      ∃ names, e = assignments names (sum value) ∧ before ++ targets names = before'

theorem IsDetermined.eq_of_pieces {c : Category} {d d' : Derivation c} (h : d.IsDetermined)
    (heq : d.pieces = d'.pieces) : d = d' :=
  (h (clear_nil c) (clear_nil c) (by rw [heq])).2

/-- **An expression is told by its sum and the targets in front of it.** -/
theorem EndsInSum.isDetermined {e : Derivation .expression} (h : e.EndsInSum) :
    e.IsDetermined := by
  intro before before' e' hclear hclear' heq
  -- the targets of the other expression stand in front of its sum
  obtain ⟨names', value, rfl⟩ := exists_eq_assignments e'
  have hsum : ∀ {before}, Category.expression.Clear before → Category.sum.Clear before :=
    fun h => h.mono (by decide)
  rw [pieces_assignments, ← List.append_assoc, pieces] at heq
  obtain ⟨names, rfl, htargets⟩ :=
    h (hsum hclear) (clear_append_targets (by decide) (hsum hclear') names') heq
  obtain ⟨rfl, rfl⟩ := targets_inj hclear hclear' htargets
  exact ⟨rfl, rfl⟩

/-! ### Primaries -/

/-- Only a call has more than one piece, and it ends in a parenthesis. -/
theorem primary_cases (d : Derivation .primary) :
    (∃ name args, d = call name args) ∨ ∃ piece, piece ≠ .operator ")" ∧ d.pieces = [piece] := by
  cases d with
  | call name args => exact .inl ⟨name, args, rfl⟩
  | number | negative | identifier | parenthesized | fraction | radical | superscript =>
    exact .inr ⟨_, Piece.noConfusion, rfl⟩

theorem isDetermined_of_piece {d : Derivation .primary} {piece : Piece}
    (hpiece : piece ≠ .operator ")") (hd : d.pieces = [piece])
    (h : ∀ d' : Derivation .primary, d'.pieces = [piece] → d = d') : d.IsDetermined := by
  intro before before' d' _ _ heq
  rw [hd] at heq
  rcases d'.primary_cases with ⟨name, args, rfl⟩ | ⟨piece', -, hd'⟩
  · rw [pieces, ← List.append_assoc, List.append_singleton_inj] at heq
    exact absurd heq.2 hpiece
  · rw [hd', List.append_singleton_inj] at heq
    exact ⟨heq.1, h d' (by rw [hd', heq.2])⟩

theorem isDetermined_number (text : String) : (number text).IsDetermined := by
  refine isDetermined_of_piece Piece.noConfusion rfl fun d' h => ?_
  cases d' with
  | number text' =>
    simp only [pieces, List.cons.injEq, Piece.number.injEq, and_true] at h
    rw [h]
  | _ => simp at h

theorem isDetermined_negative (text : String) : (negative text).IsDetermined := by
  refine isDetermined_of_piece Piece.noConfusion rfl fun d' h => ?_
  cases d' with
  | negative text' =>
    simp only [pieces, List.cons.injEq, Piece.row.injEq, Piece.number.injEq, true_and,
      and_true] at h
    rw [h]
  | _ => simp at h

theorem isDetermined_identifier (name : String) : (identifier name).IsDetermined := by
  refine isDetermined_of_piece Piece.noConfusion rfl fun d' h => ?_
  cases d' with
  | identifier name' =>
    simp only [pieces, List.cons.injEq, Piece.identifier.injEq, and_true] at h
    rw [h]
  | _ => simp at h

theorem isDetermined_parenthesized {inner : Derivation .expression} (hinner : inner.IsDetermined) :
    (parenthesized inner).IsDetermined := by
  refine isDetermined_of_piece Piece.noConfusion rfl fun d' h => ?_
  cases d' with
  | parenthesized inner' =>
    simp only [pieces, List.cons.injEq, Piece.row.injEq, and_true, List.append_left_inj,
      List.append_right_inj] at h
    rw [hinner.eq_of_pieces h.symm]
  | _ => simp at h

theorem isDetermined_fraction {numerator denominator : Derivation .expression}
    (hnumerator : numerator.IsDetermined) (hdenominator : denominator.IsDetermined) :
    (fraction numerator denominator).IsDetermined := by
  refine isDetermined_of_piece Piece.noConfusion rfl fun d' h => ?_
  cases d' with
  | fraction numerator' denominator' =>
    simp only [pieces, List.cons.injEq, Piece.fraction.injEq, and_true] at h
    rw [hnumerator.eq_of_pieces h.1.symm, hdenominator.eq_of_pieces h.2.symm]
  | _ => simp at h

theorem isDetermined_radical {radicand : Derivation .expression}
    (hradicand : radicand.IsDetermined) : (radical radicand).IsDetermined := by
  refine isDetermined_of_piece Piece.noConfusion rfl fun d' h => ?_
  cases d' with
  | radical radicand' =>
    simp only [pieces, List.cons.injEq, Piece.radical.injEq, and_true] at h
    rw [hradicand.eq_of_pieces h.symm]
  | _ => simp at h

theorem isDetermined_superscript {base exponent : Derivation .expression}
    (hbase : base.IsDetermined) (hexponent : exponent.IsDetermined) :
    (superscript base exponent).IsDetermined := by
  refine isDetermined_of_piece Piece.noConfusion rfl fun d' h => ?_
  cases d' with
  | superscript base' exponent' =>
    simp only [pieces, List.cons.injEq, Piece.superscript.injEq, and_true] at h
    rw [hbase.eq_of_pieces h.1.symm, hexponent.eq_of_pieces h.2.symm]
  | _ => simp at h

/-- The arguments of a call begin behind its opening parenthesis. -/
theorem isDetermined_call {name : String} {args : Derivation .arguments}
    (hargs : args.IsDetermined) : (call name args).IsDetermined := by
  intro before before' d' _ _ heq
  rcases d'.primary_cases with ⟨name', args', rfl⟩ | ⟨piece, hpiece, hd'⟩
  · have hclear : ∀ (front : Formula) (name : String),
        Category.arguments.Clear (front ++ [.identifier name, .operator "("]) := by
      intro front name
      rw [List.append_cons]
      exact clear_append_operator.2 (by decide)
    simp only [pieces, ← List.append_assoc, List.append_singleton_inj, and_true] at heq
    obtain ⟨hfront, rfl⟩ := hargs (hclear before name) (hclear before' name') heq
    rw [List.append_cons, List.append_cons before', List.append_singleton_inj,
      List.append_singleton_inj, Piece.identifier.injEq] at hfront
    obtain ⟨⟨rfl, rfl⟩, -⟩ := hfront
    exact ⟨rfl, rfl⟩
  · rw [hd', pieces, ← List.append_assoc, List.append_singleton_inj] at heq
    exact absurd heq.2.symm hpiece

/-! ### Chains

Sums, products and arguments are chains: one link, or a chain with a sign and a link behind it. -/

/-- The derivations of the category `chain` are chains of links with signs between them, and the
signs tell a chain that goes on from a link. -/
structure IsChain {chain link : Category} {Sign : Type} (one : Derivation link → Derivation chain)
    (more : Derivation chain → Sign → Derivation link → Derivation chain) (text : Sign → String) :
    Prop where
  eq_one_or_more : ∀ d, (∃ last, d = one last) ∨ ∃ rest sign last, d = more rest sign last
  pieces_one : ∀ last, (one last).pieces = last.pieces
  pieces_more : ∀ rest sign last,
    (more rest sign last).pieces = rest.pieces ++ [.operator (text sign)] ++ last.pieces
  text_injective : Function.Injective text
  joins_subset : link.joins ⊆ chain.joins
  text_mem : ∀ sign, text sign ∈ chain.joins
  text_not_mem : ∀ sign, text sign ∉ link.joins

namespace IsChain

variable {chain link : Category} {Sign : Type} {one : Derivation link → Derivation chain}
  {more : Derivation chain → Sign → Derivation link → Derivation chain} {text : Sign → String}

/-- One link: where the other chain goes on, this one would not be clear. -/
theorem isDetermined_one (h : IsChain one more text) {last : Derivation link}
    (hlast : last.IsDetermined) : (one last).IsDetermined := by
  intro before before' d' hclear hclear' heq
  have hlink : link.Clear before := hclear.mono h.joins_subset
  rcases h.eq_one_or_more d' with ⟨last', rfl⟩ | ⟨rest, sign, last', rfl⟩
  · rw [h.pieces_one, h.pieces_one] at heq
    obtain ⟨rfl, rfl⟩ := hlast hlink (hclear'.mono h.joins_subset) heq
    exact ⟨rfl, rfl⟩
  · rw [h.pieces_one, h.pieces_more, ← List.append_assoc, ← List.append_assoc] at heq
    have hfront := (hlast hlink (clear_append_operator.2 (h.text_not_mem sign)) heq).1
    exact absurd hfront (hclear.ne_append_operator (h.text_mem sign) _)

/-- More links: the last ones are the same, then the signs, then the rest. -/
theorem isDetermined_more (h : IsChain one more text) {rest : Derivation chain} (sign : Sign)
    {last : Derivation link} (hrest : rest.IsDetermined) (hlast : last.IsDetermined) :
    (more rest sign last).IsDetermined := by
  intro before before' d' hclear hclear' heq
  have hfront : link.Clear (before ++ rest.pieces ++ [.operator (text sign)]) :=
    clear_append_operator.2 (h.text_not_mem sign)
  rw [h.pieces_more, ← List.append_assoc, ← List.append_assoc] at heq
  rcases h.eq_one_or_more d' with ⟨last', rfl⟩ | ⟨rest', sign', last', rfl⟩
  · rw [h.pieces_one] at heq
    have hfront' := (hlast hfront (hclear'.mono h.joins_subset) heq).1
    exact absurd hfront'.symm (hclear'.ne_append_operator (h.text_mem sign) _)
  · rw [h.pieces_more, ← List.append_assoc, ← List.append_assoc] at heq
    obtain ⟨hsigns, rfl⟩ := hlast hfront (clear_append_operator.2 (h.text_not_mem sign')) heq
    rw [List.append_singleton_inj, Piece.operator.injEq] at hsigns
    obtain rfl := h.text_injective hsigns.2
    obtain ⟨rfl, rfl⟩ := hrest hclear hclear' hsigns.1
    exact ⟨rfl, rfl⟩

end IsChain

theorem isChain_product : IsChain primary multiply ProductSign.text where
  eq_one_or_more d := by
    cases d with
    | primary operand => exact .inl ⟨operand, rfl⟩
    | multiply left sign right => exact .inr ⟨left, sign, right, rfl⟩
  pieces_one _ := rfl
  pieces_more _ _ _ := rfl
  text_injective := ProductSign.text_injective
  joins_subset := by decide
  text_mem sign := by cases sign <;> decide
  text_not_mem sign := by cases sign <;> decide

theorem isChain_sum : IsChain product add SumSign.text where
  eq_one_or_more d := by
    cases d with
    | product operand => exact .inl ⟨operand, rfl⟩
    | add left sign right => exact .inr ⟨left, sign, right, rfl⟩
  pieces_one _ := rfl
  pieces_more _ _ _ := rfl
  text_injective := SumSign.text_injective
  joins_subset := by decide
  text_mem sign := by cases sign <;> decide
  text_not_mem sign := by cases sign <;> decide

theorem isChain_arguments : IsChain single (fun args () arg => snoc args arg) fun () => "," where
  eq_one_or_more d := by
    cases d with
    | single arg => exact .inl ⟨arg, rfl⟩
    | snoc args arg => exact .inr ⟨args, (), arg, rfl⟩
  pieces_one _ := rfl
  pieces_more _ _ _ := rfl
  text_injective _ _ _ := rfl
  joins_subset := by decide
  text_mem _ := by decide
  text_not_mem _ := by decide

/-! ### Expressions -/

theorem endsInSum_sum {value : Derivation .sum} (hvalue : value.IsDetermined) :
    (sum value).EndsInSum := by
  intro before before' value' hclear hclear' heq
  obtain ⟨rfl, rfl⟩ := hvalue hclear hclear' heq
  exact ⟨[], rfl, by rw [targets_nil, List.append_nil]⟩

theorem endsInSum_assignment {name : String} {source : Derivation .expression}
    (hsource : source.EndsInSum) : (assignment name source).EndsInSum := by
  intro before before' value hclear hclear' heq
  rw [pieces, ← List.append_assoc] at heq
  have hclear : Category.sum.Clear (before ++ [.identifier name, .operator "≔"]) :=
    clear_append_targets (by decide) hclear [name]
  obtain ⟨names, rfl, htargets⟩ := hsource hclear hclear' heq
  exact ⟨name :: names, rfl, by rw [← htargets, List.append_assoc]; rfl⟩

/-! ## Unambiguity -/

/-- What the induction over derivations carries. -/
def Ends : {c : Category} → Derivation c → Prop
  | .expression, e => e.EndsInSum
  | .primary, d | .product, d | .sum, d | .arguments, d => d.IsDetermined

theorem ends {c : Category} (d : Derivation c) : d.Ends := by
  induction d with
  | number text => exact isDetermined_number text
  | negative text => exact isDetermined_negative text
  | identifier name => exact isDetermined_identifier name
  | call name args hargs => exact isDetermined_call hargs
  | parenthesized inner hinner => exact isDetermined_parenthesized hinner.isDetermined
  | fraction numerator denominator hnumerator hdenominator =>
    exact isDetermined_fraction hnumerator.isDetermined hdenominator.isDetermined
  | radical radicand hradicand => exact isDetermined_radical hradicand.isDetermined
  | superscript base exponent hbase hexponent =>
    exact isDetermined_superscript hbase.isDetermined hexponent.isDetermined
  | primary operand hoperand => exact isChain_product.isDetermined_one hoperand
  | multiply left sign right hleft hright =>
    exact isChain_product.isDetermined_more sign hleft hright
  | product operand hoperand => exact isChain_sum.isDetermined_one hoperand
  | add left sign right hleft hright => exact isChain_sum.isDetermined_more sign hleft hright
  | sum value hvalue => exact endsInSum_sum hvalue
  | assignment name source hsource => exact endsInSum_assignment hsource
  | single arg harg => exact isChain_arguments.isDetermined_one harg.isDetermined
  | snoc args arg hargs harg => exact isChain_arguments.isDetermined_more () hargs harg.isDetermined

/-- **The grammar is unambiguous**: a formula has one derivation at most. -/
theorem pieces_injective : Function.Injective (pieces : Derivation .expression → Formula) :=
  fun e _ heq => IsDetermined.eq_of_pieces (EndsInSum.isDetermined e.ends) heq

end Derivation

end RpnTape
