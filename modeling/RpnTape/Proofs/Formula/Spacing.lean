import RpnTape.Formula.Text
import RpnTape.Proofs.Formula.Line

/-!
# Proofs/Formula/Spacing — formulas that are written as lines

The text of a formula is the texts of its pieces with spaces in between, and whether there is a
space depends on the two pieces beside it only (`text_append`). So the text of an expression can be
put together from the texts of its parts.

A phrase shows a formula if it is what is written of it and the formula is what it stands for
(`Line.Shows`). Each way to make a formula from others has its way to make a phrase: parentheses
that the formula has, and those that only the text has, are both parentheses of the phrase.
-/

namespace RpnTape

/-! ## Spaces -/

namespace Piece

theorem hugs_parenthesis (piece : Piece) : (operator "(").hugs piece = true := by
  cases piece with
  | operator sign => simp [hugs]
  | _ => rfl

theorem hugs_closing (previous : Piece) {sign : String} (h : sign = ")" ∨ sign = ",") :
    previous.hugs (operator sign) = true := by
  rcases h with rfl | rfl <;> cases previous <;> simp [hugs]

theorem hugs_spaced {previous : Piece} (hprevious : previous ≠ operator "(") {sign : String}
    (hsign : sign ∉ ["(", ")", ","]) : previous.hugs (operator sign) = false := by
  cases previous <;> simp_all [hugs]

theorem hugs_of_not_operator {sign : String} (hsign : sign ≠ "(") {piece : Piece}
    (hpiece : ∀ sign, piece ≠ operator sign) : (operator sign).hugs piece = false := by
  cases piece <;> simp_all [hugs]

end Piece

namespace Formula

/-- The space between two formulas that stand side by side. -/
def gap (before after : Formula) : String :=
  match before.getLast?, after.head? with
  | some previous, some piece => if previous.hugs piece then "" else " "
  | _, _ => ""

theorem textParts_append : ∀ (previous : Option Piece) (before after : Formula),
    textParts previous (before ++ after) =
      textParts previous before ++ textParts (before.getLast?.or previous) after
  | previous, [], after => by rw [textParts]; rfl
  | none, piece :: before, after => by
    rw [List.cons_append, textParts, textParts, textParts_append, List.cons_append]
    simp [List.getLast?_cons]
  | some previous, piece :: before, after => by
    rw [List.cons_append, textParts, textParts, textParts_append, List.cons_append]
    simp [List.getLast?_cons]

theorem join_textParts_some (previous : Piece) : ∀ formula : Formula,
    String.join (textParts (some previous) formula) = gap [previous] formula ++ formula.text
  | [] => rfl
  | piece :: rest => by
    rw [textParts, text, textParts, String.join_cons, String.join_cons, ← String.append_assoc]
    congr 1
    simp only [gap, List.getLast?_singleton, List.head?_cons]
    split <;> simp

/-- **The text of two formulas side by side.** -/
theorem text_append (before after : Formula) :
    (before ++ after).text = before.text ++ gap before after ++ after.text := by
  rw [text, textParts_append, String.join_append, Option.or_none]
  cases hlast : before.getLast? with
  | none =>
    obtain rfl := List.getLast?_eq_none_iff.1 hlast
    exact String.empty_append.symm
  | some previous =>
    rw [join_textParts_some, ← String.append_assoc]
    congr 2
    simp only [gap, hlast, List.getLast?_singleton]

theorem gap_eq {before after : Formula} {previous piece : Piece}
    (hprevious : previous ∈ before.getLast?) (hpiece : piece ∈ after.head?) :
    gap before after = if previous.hugs piece then "" else " " := by
  rw [Option.mem_def] at hprevious hpiece
  simp only [gap, hprevious, hpiece]

theorem gap_singleton (previous : Piece) {after : Formula} {piece : Piece}
    (hpiece : piece ∈ after.head?) :
    gap [previous] after = if previous.hugs piece then "" else " " := gap_eq rfl hpiece

theorem gap_parenthesis (after : Formula) : gap [.operator "("] after = "" := by
  cases after with
  | nil => rfl
  | cons piece after => rw [gap_singleton _ rfl, if_pos piece.hugs_parenthesis]

theorem gap_closing (before : Formula) {sign : String} (h : sign = ")" ∨ sign = ",")
    (after : Formula) : gap before (.operator sign :: after) = "" := by
  cases hlast : before.getLast? with
  | none => simp [gap, hlast]
  | some previous => rw [gap_eq hlast rfl, if_pos (previous.hugs_closing h)]

theorem text_singleton (piece : Piece) : text [piece] = piece.text := by
  simp [text, textParts]

theorem text_enclosed (formula : Formula) :
    text (.operator "(" :: formula ++ [.operator ")"]) = "(" ++ formula.text ++ ")" := by
  have hopen : Piece.operator "(" :: formula ++ [.operator ")"] =
      [.operator "("] ++ (formula ++ [.operator ")"]) := rfl
  rw [hopen, text_append, text_append, gap_parenthesis, gap_closing _ (.inl rfl), text_singleton,
    text_singleton, Piece.text, Piece.text, String.append_empty, String.append_empty,
    String.append_assoc]

/-- The formula begins with no sign, and does not end in an opening parenthesis. -/
structure IsBounded (formula : Formula) : Prop where
  opens : ∃ piece ∈ formula.head?, ∀ sign, piece ≠ .operator sign
  closes : ∃ piece ∈ formula.getLast?, piece ≠ .operator "("

variable {before after : Formula}

theorem isBounded_singleton {piece : Piece} (h : ∀ sign, piece ≠ .operator sign) :
    IsBounded [piece] := ⟨⟨piece, rfl, h⟩, piece, rfl, h "("⟩

theorem isBounded_append (hbefore : IsBounded before) (hafter : IsBounded after)
    (between : Formula) : IsBounded (before ++ between ++ after) := by
  obtain ⟨piece, hpiece, hopen⟩ := hbefore.opens
  obtain ⟨last, hlast, hclosed⟩ := hafter.closes
  refine ⟨⟨piece, ?_, hopen⟩, last, List.mem_getLast?_append_of_mem_getLast? hlast, hclosed⟩
  exact List.mem_head?_append_of_mem_head? (List.mem_head?_append_of_mem_head? hpiece)

theorem text_append_operator (before after : Formula) (sign : String) :
    text (before ++ .operator sign :: after) =
      before.text ++ gap before [.operator sign] ++ sign ++ gap [.operator sign] after ++
        after.text := by
  rw [← List.singleton_append, text_append, text_append, text_singleton, Piece.text]
  simp only [← String.append_assoc]
  rfl

/-- A sign stands between spaces. -/
theorem text_spaced (hbefore : before.IsBounded) (hafter : after.IsBounded) {sign : String}
    (hsign : sign ∉ ["(", ")", ","]) :
    text (before ++ .operator sign :: after) = before.text ++ " " ++ sign ++ " " ++ after.text := by
  obtain ⟨previous, hprevious, hclosed⟩ := hbefore.closes
  obtain ⟨piece, hpiece, hopen⟩ := hafter.opens
  have hne : sign ≠ "(" := fun h => hsign (h ▸ List.mem_cons_self)
  rw [text_append_operator, gap_eq hprevious rfl, gap_singleton _ hpiece,
    Piece.hugs_spaced hclosed hsign, Piece.hugs_of_not_operator hne hopen]
  rfl

/-- A comma stands before a space. -/
theorem text_comma (before : Formula) (hafter : after.IsBounded) :
    text (before ++ .operator "," :: after) = before.text ++ "," ++ " " ++ after.text := by
  obtain ⟨piece, hpiece, hopen⟩ := hafter.opens
  rw [text_append_operator, gap_closing before (.inr rfl), gap_singleton _ hpiece,
    Piece.hugs_of_not_operator (by decide) hopen, String.append_empty]
  rfl

end Formula

/-! ## Lines -/

namespace Line

open Formula

theorem Word.piece_ne_operator (w : Word) (sign : String) : w.piece ≠ .operator sign := by
  rw [piece]
  split
  · exact Piece.noConfusion
  split <;> exact Piece.noConfusion

theorem isBounded_enclosed {inner : Formula} (h : IsBounded inner) (role : Role) (firm : Bool) :
    IsBounded (role.enclosed firm inner) := by
  unfold Role.enclosed
  split
  · exact h
  · exact h
  · exact isBounded_singleton fun _ => Piece.noConfusion
  · exact isBounded_singleton fun _ => Piece.noConfusion

theorem isBounded_pieces {level : Level} : ∀ (line : Line level) (role : Role),
    IsBounded (line.pieces role)
  | word w, _ => isBounded_singleton w.piece_ne_operator
  | root _, _ => isBounded_singleton fun _ => Piece.noConfusion
  | parens inner, role => isBounded_enclosed (inner.isBounded_pieces .operand) role _
  | block b, _ => b.isBounded_pieces .operand
  | beside left mark right, _ => isBounded_singleton fun _ => by
    cases mark <;> exact Piece.noConfusion
  | call name args, _ => ⟨⟨name.piece, rfl, name.piece_ne_operator⟩, .operator ")",
    List.getLast?_concat, by simp⟩
  | unit u, _ => u.isBounded_pieces .operand
  | more u sign rest, _ => by
    rw [pieces, ← List.singleton_append, ← List.append_assoc]
    exact isBounded_append (u.isBounded_pieces .operand) (rest.isBounded_pieces .operand) _

/-! ## Formulas written as lines -/

/-- **The phrase is what is written of the formula, and the formula what the phrase stands for.** -/
structure Shows (p : Line .phrase) (formula : Formula) : Prop where
  pieces_eq : p.pieces .operand = formula
  chars_eq : p.chars = formula.text.toList

/-- The same of a block that is a part of a construction. -/
structure StandsFor (b : Line .block) (role : Role) (formula : Formula) : Prop where
  pieces_eq : b.pieces role = formula
  chars_eq : b.chars = (formula.grouped formula.text).toList

variable {p q : Line .phrase} {formula formula' : Formula}

theorem Word.text_piece (w : Word) : w.piece.text.toList = w.chars := by
  rw [piece]
  split <;> rename_i hhead
  · have hchars : w.chars = '-' :: w.chars.tail := by rw [← hhead, head, List.cons_head_tail]
    rw [hchars]
    simp [Piece.text, negated?]
  · split <;> simp [Piece.text]

theorem shows_word (w : Word) : (unit (block (word w))).Shows [w.piece] :=
  ⟨rfl, by rw [text_singleton, w.text_piece]; rfl⟩

theorem text_row_enclosed (formula : Formula) :
    (Piece.row (.operator "(" :: formula ++ [.operator ")"])).text =
      "(" ++ formula.text ++ ")" := by
  have hsigned : negated? (.operator "(" :: formula ++ [.operator ")"]) = none := by
    unfold negated?
    split
    · rename_i h
      obtain rfl := Piece.operator.inj (List.cons.inj h).1
      exact if_neg (by decide)
    · rfl
  rw [Piece.text, hsigned]
  exact text_enclosed formula

theorem Shows.parens (h : p.Shows formula) :
    (unit (block (parens p))).Shows [.row (.operator "(" :: formula ++ [.operator ")"])] where
  pieces_eq := by rw [pieces, pieces, pieces, h.pieces_eq, Role.enclosed]
  chars_eq := by
    rw [text_singleton, text_row_enclosed, chars, chars, chars, h.chars_eq]
    simp

theorem Shows.call (h : p.Shows formula) {name : Word} {text : String}
    (hname : name.piece = .identifier text) :
    (unit (call name p)).Shows
      (.identifier text :: .operator "(" :: formula ++ [.operator ")"]) where
  pieces_eq := by rw [pieces, pieces, h.pieces_eq, hname]
  chars_eq := by
    have htext : name.chars = text.toList := by rw [← name.text_piece, hname, Piece.text]
    have hgap : gap [.identifier text] (.operator "(" :: formula ++ [.operator ")"]) = "" := by
      rw [gap_singleton _ rfl, Piece.hugs]
      rfl
    rw [List.cons_append, ← List.singleton_append, text_append, hgap, text_enclosed, text_singleton,
      Piece.text, chars, chars, h.chars_eq, htext]
    simp

/-- Two phrases with a sign between them. -/
def join : Line .phrase → Sign → Line .phrase → Line .phrase
  | unit u, sign, q => more u sign q
  | more u sign' rest, sign, q => more u sign' (rest.join sign q)

theorem pieces_join (sign : Sign) : ∀ p q : Line .phrase,
    (p.join sign q).pieces .operand = p.pieces .operand ++ .operator sign.text :: q.pieces .operand
  | unit u, q => by rw [join, pieces, pieces]
  | more u sign' rest, q => by
    rw [join, pieces, pieces_join sign rest q, pieces, List.append_assoc, List.cons_append]

theorem chars_join (sign : Sign) : ∀ p q : Line .phrase,
    (p.join sign q).chars = p.chars ++ (sign.spaced ++ q.chars)
  | unit u, q => by rw [join, chars, chars]
  | more u sign' rest, q => by
    rw [join, chars, chars_join sign rest q, chars, List.append_assoc, List.append_assoc]

theorem Shows.join (h : p.Shows formula) (h' : q.Shows formula') (sign : Sign) :
    (p.join sign q).Shows (formula ++ .operator sign.text :: formula') where
  pieces_eq := by rw [pieces_join, h.pieces_eq, h'.pieces_eq]
  chars_eq := by
    have hformula : IsBounded formula := h.pieces_eq ▸ p.isBounded_pieces .operand
    have hformula' : IsBounded formula' := h'.pieces_eq ▸ q.isBounded_pieces .operand
    rw [chars_join, h.chars_eq, h'.chars_eq]
    cases sign with
    | comma =>
      rw [Sign.text, text_comma formula hformula']
      simp [Sign.spaced]
    | plus | minus | times | mod | assign =>
      rw [text_spaced hformula hformula' (by decide)]
      simp [Sign.spaced, Sign.text]

/-! ### Parts of constructions -/

/-- The phrase as a block, in parentheses if it is none. -/
def part : Line .phrase → Line .block
  | unit (block b) => b
  | p => parens p

/-- Is the phrase not one that stands in parentheses? -/
def isBare : Line .phrase → Bool
  | unit (block (parens _)) => false
  | _ => true

theorem isSimple_pieces_block (b : Line .block) : isSimple (b.pieces .operand) = true := by
  cases b with
  | word w =>
    rw [pieces, Word.piece]
    split
    · rfl
    · split <;> rfl
  | root | parens => rfl

theorem isSimple_cons_cons (piece piece' : Piece) (rest : Formula) :
    isSimple (piece :: piece' :: rest) = false := by cases piece <;> rfl

/-- **Only a block is simple.** -/
theorem Shows.chars_part (h : p.Shows formula) :
    p.part.chars = (formula.grouped formula.text).toList := by
  obtain ⟨rfl, hchars⟩ := h
  -- whatever is not simple is grouped, and what is no block is put in
  -- parentheses: these are the same
  have hparens : isSimple (p.pieces .operand) = false → (Line.parens p).chars =
      (grouped (p.pieces .operand) (text (p.pieces .operand))).toList := by
    intro hsimple
    rw [grouped, hsimple, chars, hchars]
    simp
  cases p with
  | unit u =>
    cases u with
    | block b => rw [grouped, pieces, pieces, isSimple_pieces_block b, part]; exact hchars
    | beside left mark right => exact hparens (by cases mark <;> rfl)
    | call => exact hparens (by rw [pieces, pieces]; exact isSimple_cons_cons _ _ _)
  | more u sign rest =>
    -- before the sign stands a piece at least
    obtain ⟨piece, hpiece, -⟩ := (u.isBounded_pieces .operand).opens
    obtain ⟨others, hothers⟩ := List.head?_eq_some_iff.1 hpiece
    refine hparens ?_
    rw [pieces, hothers]
    cases others with
    | nil => exact isSimple_cons_cons _ _ _
    | cons => exact isSimple_cons_cons _ _ _

/-- A phrase as a part of a construction. -/
theorem Shows.part (h : p.Shows formula) (hbare : p.isBare = true) :
    p.part.StandsFor .part formula where
  pieces_eq := by
    rw [← h.pieces_eq]
    match p, hbare with
    | unit (block (word w)), _ => rfl
    | unit (block (root radicand)), _ => rfl
    | unit (beside left mark right), _ => rfl
    | unit (Line.call name args), _ => rfl
    | more u sign rest, _ => rfl
  chars_eq := h.chars_part

/-- A firm phrase as the base of a power. -/
theorem Shows.base (h : p.Shows formula) (hfirm : p.isFirm = true) :
    p.part.StandsFor .base formula where
  pieces_eq := by
    rw [← h.pieces_eq]
    match p, hfirm with
    | unit (block (word w)), _ => rfl
    | unit (beside left mark right), _ => rfl
    | unit (Line.call name args), _ => rfl
  chars_eq := h.chars_part

/-- Any other phrase as the base of a power. -/
theorem Shows.base_enclosed (h : p.Shows formula) (hfirm : p.isFirm = false) :
    (Line.parens p).StandsFor .base [.row (.operator "(" :: formula ++ [.operator ")"])] where
  pieces_eq := by rw [pieces, hfirm, h.pieces_eq, Role.enclosed]
  chars_eq := by
    rw [grouped, text_singleton, text_row_enclosed, chars, h.chars_eq]
    simp [isSimple]

theorem StandsFor.radical {b : Line .block} (h : b.StandsFor .part formula) :
    (unit (block (root b))).Shows [.radical formula] where
  pieces_eq := by rw [pieces, pieces, pieces, h.pieces_eq]
  chars_eq := by
    rw [text_singleton, chars, chars, chars, h.chars_eq, Piece.text, ← Formula.text]
    simp

theorem StandsFor.beside {left right : Line .block} (mark : Mark)
    (h : left.StandsFor mark.role formula) (h' : right.StandsFor .part formula') :
    (unit (beside left mark right)).Shows [mark.piece formula formula'] where
  pieces_eq := by rw [pieces, pieces, h.pieces_eq, h'.pieces_eq]
  chars_eq := by
    rw [text_singleton, chars, chars, h.chars_eq, h'.chars_eq]
    cases mark with
    | slash => rw [Mark.piece, Piece.text, ← Formula.text, ← Formula.text]; simp [Mark.char]
    | caret => rw [Mark.piece, Piece.text, ← Formula.text, ← Formula.text]; simp [Mark.char]

end Line

end RpnTape
