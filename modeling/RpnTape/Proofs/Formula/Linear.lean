import RpnTape.Proofs.Formula.Application
import RpnTape.Proofs.Formula.Spacing
import RpnTape.Proofs.Machine.Names

/-!
# Proofs/Formula/Linear — an equation over plain names is told by its text

Where all names are plain, every expression has a phrase that shows its formula
(`IsOver.exists_line`). Lines are told by their characters, so two equations with the same text have
the same formula in front of the equals sign. Behind it stands a number, which is told by its text
too, also where it is `NaN` and could be taken for a name.
-/

namespace RpnTape

/-! ## Words -/

/-- Is the name a letter or an underscore, and letters, digits and underscores behind it? -/
def isPlainName (name : String) : Bool :=
  match name.toList with
  | [] => false
  | c :: rest => (c.isAlpha || c = '_') && rest.all fun d => d.isAlphanum || d = '_'

namespace Line

/-- Can the text be taken for a name only? -/
def isName (text : String) : Bool :=
  match text.toList with
  | [] => false
  | c :: rest => c ≠ '-' && !startsMagnitude c && (c :: rest).all (!isMark ·)

theorem exists_word_of_isName {text : String} (h : isName text = true) :
    ∃ w : Word, w.piece = .identifier text := by
  unfold isName at h
  split at h
  · cases h
  · rename_i c rest htext
    simp only [Bool.and_eq_true, List.all_eq_true, decide_eq_true_eq, Bool.not_eq_true'] at h
    obtain ⟨⟨hminus, hmagnitude⟩, hclear⟩ := h
    have htext' : String.ofList (c :: rest) = text := by rw [← htext, String.ofList_toList]
    refine ⟨⟨c :: rest, List.cons_ne_nil c rest, hclear⟩, ?_⟩
    rw [Word.piece, Word.head, List.head_cons, if_neg hminus, hmagnitude,
      if_neg Bool.false_ne_true, htext']

/-- A character of a kind that no mark is of. -/
theorem isMark_eq_false (kind : Char → Bool) (hmarks : marks.any kind = false) {c : Char}
    (h : kind c = true) : isMark c = false := by
  rw [← Bool.not_eq_true, isMark, List.contains_iff_mem]
  intro hmark
  exact List.any_eq_false.1 hmarks c hmark h

/-- Letters come behind the digits. -/
theorem isDigit_of_isAlpha {c : Char} (h : c.isAlpha = true) : c.isDigit = false := by
  rw [← Bool.not_eq_true]
  intro hdigit
  have hnine : c.val ≤ '9'.val := of_decide_eq_true (Bool.and_eq_true_iff.1 hdigit).2
  rcases Bool.or_eq_true_iff.1 h with hupper | hlower
  · have hletter : 'A'.val ≤ c.val := (of_decide_eq_true hupper).1
    exact absurd (UInt32.le_trans hletter hnine) (by decide)
  · have hletter : 'a'.val ≤ c.val := of_decide_eq_true (Bool.and_eq_true_iff.1 hlower).1
    exact absurd (UInt32.le_trans hletter hnine) (by decide)

/-- A plain name begins like a name. -/
theorem starts_of_isAlpha {c : Char} (h : (c.isAlpha || c = '_') = true) :
    c ≠ '-' ∧ startsMagnitude c = false := by
  rw [Bool.or_eq_true, decide_eq_true_eq] at h
  rcases h with h | rfl
  · refine ⟨by rintro rfl; revert h; decide, ?_⟩
    have hdigit : c.isDigit = false := isDigit_of_isAlpha h
    have hinfinity : c ≠ '∞' := by rintro rfl; revert h; decide
    rw [startsMagnitude, hdigit, decide_eq_false hinfinity, Bool.or_false]
  · decide

theorem isName_of_isPlainName {name : String} (h : isPlainName name = true) :
    isName name = true := by
  have hmarks : marks.any (fun c => c.isAlphanum || c = '_') = false := by decide
  unfold isPlainName at h
  unfold isName
  split at h
  · cases h
  · rename_i c rest hname
    obtain ⟨hc, hrest⟩ := Bool.and_eq_true_iff.1 h
    obtain ⟨hminus, hmagnitude⟩ := starts_of_isAlpha hc
    have hhead : (c.isAlphanum || c = '_') = true := by
      rw [Char.isAlphanum, Bool.or_right_comm, hc, Bool.true_or]
    simp only [Bool.and_eq_true, List.all_eq_true, decide_eq_true_eq, Bool.not_eq_true']
    refine ⟨⟨hminus, hmagnitude⟩,
      List.forall_mem_cons.2 ⟨isMark_eq_false _ hmarks hhead, fun d hd => ?_⟩⟩
    exact isMark_eq_false _ hmarks (List.all_eq_true.1 hrest d hd)

variable {magnitude : String}

theorem clear_of_isMagnitude (h : IsMagnitude magnitude.toList) :
    ∀ c ∈ magnitude.toList, isMark c = false :=
  fun c hc => isMark_eq_false isMagnitudeChar (by decide) (h.chars c hc)

theorem exists_word_of_isMagnitude (h : IsMagnitude magnitude.toList) :
    ∃ w : Word, w.piece = .number magnitude := by
  obtain ⟨c, rest, htext, hc⟩ := h.head
  have hminus : c ≠ '-' := by rintro rfl; revert hc; decide
  refine ⟨⟨magnitude.toList, by rw [htext]; exact List.cons_ne_nil _ _, clear_of_isMagnitude h⟩, ?_⟩
  simp only [Word.piece, Word.head, htext, List.head_cons]
  rw [if_neg hminus, if_pos hc, ← htext, String.ofList_toList]

theorem exists_word_of_isMagnitude_negative (h : IsMagnitude magnitude.toList) :
    ∃ w : Word, w.piece = .row [.operator "-", .number magnitude] := by
  refine ⟨⟨'-' :: magnitude.toList, List.cons_ne_nil _ _,
    List.forall_mem_cons.2 ⟨by decide, clear_of_isMagnitude h⟩⟩, ?_⟩
  rw [Word.piece, Word.head, List.head_cons, if_pos rfl, List.tail_cons, String.ofList_toList]

end Line

/-- **A number is a word.** -/
theorem Binary64.formula_word_cases (v : Binary64) :
    v.isNaN = true ∧ v.formula = [.number "NaN"] ∨ ∃ w : Line.Word, v.formula = [w.piece] := by
  rcases v.formula_cases with h | ⟨magnitude, hmagnitude, h | h⟩
  · exact .inl h
  · obtain ⟨w, hw⟩ := Line.exists_word_of_isMagnitude hmagnitude
    exact .inr ⟨w, by rw [h, hw]⟩
  · obtain ⟨w, hw⟩ := Line.exists_word_of_isMagnitude_negative hmagnitude
    exact .inr ⟨w, by rw [h, hw]⟩

theorem Builtin.isName_display :
    ∀ b ∈ table, b.shape = .call → Line.isName b.display = true := by decide

theorem Builtin.exists_sign {b : Builtin} (hb : b ∈ table)
    (hshape : b.shape = .additive ∨ b.shape = .multiplicative) :
    ∃ sign : Line.Sign, sign.text = b.display := by
  rcases hshape with hshape | hshape
  · rcases display_of_additive b hb hshape with h | h
    · exact ⟨.plus, h.symm⟩
    · exact ⟨.minus, h.symm⟩
  · rcases display_of_multiplicative b hb hshape with h | h
    · exact ⟨.times, h.symm⟩
    · exact ⟨.mod, h.symm⟩

theorem Binary64.formula_ne_identifier (v : Binary64) (name : String) :
    v.formula ≠ [.identifier name] := by
  rw [formula]
  split <;> simp

/-- **A number in a formula is told by its text.** -/
theorem Binary64.formula_eq_of_text_eq {v v' : Binary64} (h : v.formula.text = v'.formula.text) :
    v.formula = v'.formula := by
  -- the text `NaN` is a name where it is a word, and no number is shown as a name
  have hword : ∀ {u : Binary64} {w : Line.Word}, u.formula = [w.piece] → w.piece.text ≠ "NaN" := by
    intro u w hu htext
    have hchars : w.chars = ['N', 'a', 'N'] := by rw [← w.text_piece, htext]; rfl
    have hpiece : w.piece = .identifier "NaN" := by
      simp [Line.Word.piece, Line.Word.head, hchars, startsMagnitude]
    rw [hpiece] at hu
    exact u.formula_ne_identifier "NaN" hu
  rcases v.formula_word_cases with ⟨-, hv⟩ | ⟨w, hv⟩ <;>
    rcases v'.formula_word_cases with ⟨-, hv'⟩ | ⟨w', hv'⟩ <;>
    simp only [hv, hv', Formula.text_singleton] at h ⊢
  · exact absurd h.symm (hword hv')
  · exact absurd h (hword hv)
  · obtain rfl : w = w' := Line.Word.ext (by rw [← w.text_piece, h, w'.text_piece])
    rfl

/-! ## Expressions as lines -/

namespace Line

/-- **The phrase is what is written of the expression.** Whether it can be the base of a power says
the binding power of the expression. -/
structure Writes (p : Line .phrase) (e : Expr) : Prop where
  shows : p.Shows e.formula
  isBare : p.isBare = true
  isFirm : p.isFirm = decide (Shape.power.bindingPower.left ≤ e.bindingPower.right)

variable {p q : Line .phrase} {e e' : Expr}

/-- The phrase as an operand, in parentheses where the expression is. -/
theorem Writes.operand (h : p.Writes e) (wrap : Bool) :
    ∃ q : Line .phrase, q.Shows (e.term.wrapped wrap) := by
  cases wrap with
  | true => exact ⟨_, h.shows.parens⟩
  | false => exact ⟨_, h.shows⟩

/-- The phrase as the base of a power. -/
theorem Writes.base (h : p.Writes e) : ∃ b : Line .block, b.StandsFor .base
    (e.term.wrapped (e.bindingPower.right < Shape.power.bindingPower.left)) := by
  cases hfirm : p.isFirm with
  | true =>
    have hle : Shape.power.bindingPower.left ≤ e.bindingPower.right :=
      of_decide_eq_true (h.isFirm ▸ hfirm)
    rw [decide_eq_false (Nat.not_lt.2 hle)]
    exact ⟨_, h.shows.base hfirm⟩
  | false =>
    have hlt : ¬ Shape.power.bindingPower.left ≤ e.bindingPower.right :=
      of_decide_eq_false (h.isFirm ▸ hfirm)
    rw [decide_eq_true (Nat.not_le.1 hlt)]
    exact ⟨_, h.shows.base_enclosed hfirm⟩

theorem isBare_join (p q : Line .phrase) (sign : Sign) : (p.join sign q).isBare = true := by
  cases p with
  | unit u => rw [join]; rfl
  | more u sign' rest => rw [join]; rfl

theorem isFirm_join (p q : Line .phrase) (sign : Sign) : (p.join sign q).isFirm = false := by
  cases p with
  | unit u => rw [join]; rfl
  | more u sign' rest => rw [join]; rfl

/-- The arguments of a call are a phrase with commas in it. -/
theorem exists_shows_arguments : ∀ {arg : Expr} {args : List Expr},
    (∀ arg' ∈ arg :: args, ∃ p : Line .phrase, p.Writes arg') →
      ∃ p : Line .phrase,
        p.Shows ([Piece.operator ","].intercalate ((arg :: args).map Expr.formula))
  | arg, [], h => by
    obtain ⟨p, hp⟩ := h arg (List.mem_singleton_self arg)
    exact ⟨p, by rw [List.map_singleton, List.intercalate_singleton]; exact hp.shows⟩
  | arg, arg' :: args, h => by
    obtain ⟨⟨p, hp⟩, hargs⟩ := List.forall_mem_cons.1 h
    obtain ⟨q, hq⟩ := exists_shows_arguments hargs
    refine ⟨p.join .comma q, ?_⟩
    rw [List.map_cons, List.map_cons, List.intercalate_cons_cons, List.append_assoc,
      List.singleton_append]
    exact hp.shows.join hq .comma

end Line

namespace Expr

open Line

variable {e e' : Expr}

/-- The application of a builtin is written as a line if its arguments are. -/
theorem exists_line_of_laysOut {operator : Builtin} (hmem : operator ∈ Builtin.table)
    {args : List Expr} {formula : Formula} (h : operator.LaysOut args formula)
    (hargs : ∀ arg ∈ args, ∃ p : Line .phrase, p.Writes arg) :
    ∃ p : Line .phrase, p.Shows formula ∧ p.isBare = true ∧
      p.isFirm =
        decide (Shape.power.bindingPower.left ≤ (apply operator args).bindingPower.right) := by
  rw [h.bindingPower_eq]
  cases h with
  | infixed a b hshape =>
    obtain ⟨⟨p, hp⟩, hrest⟩ := List.forall_mem_cons.1 hargs
    obtain ⟨q, hq⟩ := hrest b (List.mem_singleton_self b)
    obtain ⟨sign, hsign⟩ := Builtin.exists_sign hmem hshape
    obtain ⟨left, hleft⟩ := hp.operand (a.bindingPower.right < operator.shape.bindingPower.left)
    obtain ⟨right, hright⟩ := hq.operand (b.bindingPower.left < operator.shape.bindingPower.right)
    refine ⟨left.join sign right, hsign ▸ hleft.join hright sign, isBare_join _ _ _, ?_⟩
    rw [isFirm_join]
    rcases hshape with hshape | hshape <;> rw [hshape] <;> rfl
  | fraction a b hshape =>
    obtain ⟨⟨p, hp⟩, hrest⟩ := List.forall_mem_cons.1 hargs
    obtain ⟨q, hq⟩ := hrest b (List.mem_singleton_self b)
    rw [hshape]
    exact ⟨_, StandsFor.beside .slash (hp.shows.part hp.isBare) (hq.shows.part hq.isBare), rfl, rfl⟩
  | radical a hshape =>
    obtain ⟨p, hp⟩ := hargs a (List.mem_singleton_self a)
    rw [hshape]
    exact ⟨_, (hp.shows.part hp.isBare).radical, rfl, rfl⟩
  | power a b hshape =>
    obtain ⟨⟨p, hp⟩, hrest⟩ := List.forall_mem_cons.1 hargs
    obtain ⟨q, hq⟩ := hrest b (List.mem_singleton_self b)
    obtain ⟨base, hbase⟩ := hp.base
    rw [hshape]
    exact ⟨_, StandsFor.beside .caret hbase (hq.shows.part hq.isBare), rfl, rfl⟩
  | name hshape =>
    obtain ⟨w, hw⟩ := exists_word_of_isName (Builtin.isName_display operator hmem hshape)
    rw [hshape]
    exact ⟨unit (block (word w)), hw ▸ shows_word w, rfl, rfl⟩
  | call arg args hshape =>
    obtain ⟨w, hw⟩ := exists_word_of_isName (Builtin.isName_display operator hmem hshape)
    obtain ⟨p, hp⟩ := exists_shows_arguments hargs
    rw [hshape]
    exact ⟨_, hp.call hw, rfl, rfl⟩

/-- **Every expression over numbers and plain names is written as a line.** -/
theorem IsOver.exists_line (h : e.IsOver (·.isNaN = false) (isPlainName · = true)) :
    ∃ p : Line .phrase, p.Writes e := by
  induction h with
  | @literal value hvalue =>
    rcases value.formula_word_cases with ⟨hnan, -⟩ | ⟨w, hw⟩
    · rw [hvalue] at hnan
      cases hnan
    · refine ⟨unit (block (word w)), ?_, rfl, rfl⟩
      have hshows := shows_word w
      rwa [← hw] at hshows
  | @read name hname =>
    obtain ⟨w, hw⟩ := exists_word_of_isName (isName_of_isPlainName hname)
    refine ⟨unit (block (word w)), ?_, rfl, rfl⟩
    have hshows := shows_word w
    rwa [hw] at hshows
  | @bind name source hname _ ih =>
    obtain ⟨w, hw⟩ := exists_word_of_isName (isName_of_isPlainName hname)
    obtain ⟨p, hp⟩ := ih
    exact ⟨_, hw ▸ (shows_word w).join hp.shows .assign, isBare_join _ _ _, isFirm_join _ _ _⟩
  | @apply operator args hmem harity _ ih =>
    obtain ⟨p, hshows, hbare, hfirm⟩ :=
      exists_line_of_laysOut hmem (Builtin.laysOut_of_mem_table hmem harity) ih
    exact ⟨p, hshows, hbare, hfirm⟩

/-- No sign begins like an equals sign. -/
theorem ends_phrase_equals (rest : List Char) : Level.phrase.Ends (" = ".toList ++ rest) := by
  refine ⟨fun c hc => ?_, fun sign hsign => ?_⟩
  · obtain rfl := Option.some.inj hc
    decide
  · cases sign <;> simp [Sign.spaced, Sign.text] at hsign

theorem text_equation {p : Line .phrase} (hp : p.Shows e.formula) (value : Binary64) :
    (e.equation value).text.toList = p.chars ++ (" = ".toList ++ value.formula.text.toList) := by
  have hformula : Formula.IsBounded e.formula := hp.pieces_eq ▸ p.isBounded_pieces .operand
  have hvalue : Formula.IsBounded value.formula := by
    rw [Binary64.formula]
    split <;> exact Formula.isBounded_singleton fun _ => Piece.noConfusion
  rw [equation, Formula.text_spaced hformula hvalue (by decide), hp.chars_eq]
  simp

/-- **Equations over plain names are told by their texts.** -/
theorem IsOver.equation_eq_of_text_eq (h : e.IsOver (·.isNaN = false) (isPlainName · = true))
    (h' : e'.IsOver (·.isNaN = false) (isPlainName · = true)) {value value' : Binary64}
    (htext : (e.equation value).text = (e'.equation value').text) :
    e.equation value = e'.equation value' := by
  obtain ⟨p, hp⟩ := h.exists_line
  obtain ⟨p', hp'⟩ := h'.exists_line
  rw [← String.toList_inj, text_equation hp.shows, text_equation hp'.shows] at htext
  obtain ⟨rfl, hbehind⟩ := p.isDetermined (ends_phrase_equals _) (ends_phrase_equals _) htext
  have hformula : e.formula = e'.formula := hp.shows.pieces_eq.symm.trans hp'.shows.pieces_eq
  have hvalue : value.formula = value'.formula :=
    Binary64.formula_eq_of_text_eq (String.toList_inj.1 (List.append_cancel_left hbehind))
  rw [equation, equation, hformula, hvalue]

end Expr

end RpnTape
