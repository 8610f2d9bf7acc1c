import RpnTape.Proofs.Formula.Spacing
import RpnTape.Proofs.Number.Comparison
import RpnTape.Proofs.Number.Display

/-!
# Proofs/Formula/Signs — a number has one minus sign in its text, and only below zero

A number becomes text in two ways: as its display, which keeps the sign, and as a formula, which
takes the sign off and whose text puts it back. **Both end in the same text** (`text_formula`),
since the sign shows below zero only (`display_eq`). A magnitude begins with a digit, with `∞` or
with `NaN`, so no sign is written twice and none gets lost (`displays_agree`).
-/

namespace RpnTape

/-- A minus sign stands flush before the number it is held together with. -/
theorem Piece.text_negated (magnitude : String) :
    (Piece.row [.operator "-", .number magnitude]).text = "-" ++ magnitude := by
  rw [Piece.text]
  rfl

namespace Binary64

/-- **The text of a number in a formula is its display.** -/
theorem text_formula (v : Binary64) : v.formula.text = v.display := by
  rw [formula_eq]
  split
  · rename_i hbelow
    rw [Formula.text_singleton, Piece.text_negated, v.display_eq, if_pos hbelow]
  · rw [Formula.text_singleton, Piece.text]

/-- A magnitude is displayed without a sign in front. -/
theorem head?_display_abs (v : Binary64) : v.abs.display.toList.head? ≠ some '-' := by
  cases hnan : v.isNaN with
  | true =>
    rw [display_abs, hnan, if_pos rfl]
    decide
  | false =>
    obtain ⟨c, rest, htext, hc⟩ := (isMagnitude_display_abs hnan).head
    rw [htext, List.head?_cons]
    rintro ⟨⟩
    revert hc
    decide

/-- The signs in front of a display: one below zero, and none elsewhere. -/
theorem takeWhile_minus_display (v : Binary64) :
    v.display.toList.takeWhile (· = '-') = if v.isBelowZero then ['-'] else [] := by
  have hmagnitude : v.abs.display.toList.takeWhile (· = '-') = [] := by
    have hhead := v.head?_display_abs
    cases htext : v.abs.display.toList with
    | nil => rfl
    | cons c rest =>
      rw [htext, List.head?_cons] at hhead
      exact List.takeWhile_cons_of_neg fun h => hhead (congrArg some (of_decide_eq_true h))
  rw [v.display_eq]
  split
  · rw [String.toList_append]
    exact congrArg ('-' :: ·) hmagnitude
  · exact hmagnitude

/-- **The two displays of a number agree**, whatever its bits. The text of its formula is its
display. The formula is one piece: the display as it is, unless the machine calls the number less
than zero, and then a minus sign held together with the display of the magnitude, which has no sign
in front. So there is one minus sign in front of a number less than zero, and none in front of any
other: not of the negative zero, and not of what is not a number. -/
theorem displays_agree (v : Binary64) :
    v.formula.text = v.display ∧
      v.formula = (if v.toFloat < 0 then [.row [.operator "-", .number v.abs.display]]
        else [.number v.display]) ∧
      v.abs.display.toList.head? ≠ some '-' ∧
      v.display.toList.takeWhile (· = '-') = if v.toFloat < 0 then ['-'] else [] := by
  refine ⟨v.text_formula, ?_, v.head?_display_abs, ?_⟩
  · simp only [toFloat_lt_zero_iff, formula_eq]
  · simp only [toFloat_lt_zero_iff, takeWhile_minus_display]

example : [0x8000000000000000, 0xFFF8000000000000, 0xFFF0000000000000, 0xBEB0C6F7A0B5ED8D].map
    (fun bits => (ofBits bits).formula.text) = ["0", "NaN", "-∞", "-0.000001"] := by decide +kernel

end Binary64

end RpnTape
