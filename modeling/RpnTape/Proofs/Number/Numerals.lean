import Mathlib.Data.List.Infix
import Mathlib.Data.List.TakeWhile
import RpnTape.Number.Numeral
import RpnTape.Proofs.Number.Rounding

/-!
# Proofs/Number/Numerals — the longest numeral at the start of a text

`Denotes text d` is the grammar of numerals, with the decimal that a numeral stands for. What is
read is a numeral (`denotes_of_read?`), and whatever numeral a text begins with, reading goes on at
least to its end (`exists_read?_append`); so **the longest one is read, and there is none only where
no text at the start is a numeral** (`read?_eq_some_iff`, `read?_eq_none_iff`).
-/

namespace RpnTape

namespace Numeral

/-! ## The grammar -/

/-- Are these all digits? -/
def IsDigits (cs : List Char) : Prop := ∀ c ∈ cs, c.isDigit = true

/-- An optional sign, and whether it is a minus. -/
inductive SignOf : List Char → Bool → Prop
  | none : SignOf [] false
  | plus : SignOf ['+'] false
  | minus : SignOf ['-'] true

/-- An optional point with digits after it. -/
inductive FractionOf : List Char → List Char → Prop
  | none : FractionOf [] []
  | point {digits : List Char} (hdigits : IsDigits digits) : FractionOf ('.' :: digits) digits

/-- An optional exponent: a mark, an optional sign and digits, at least one. -/
inductive ExponentOf : List Char → Int → Prop
  | none : ExponentOf [] 0
  | marked {mark : Char} {sign digits : List Char} {negative : Bool}
      (hmark : mark = 'e' ∨ mark = 'E')
      (hsign : SignOf sign negative) (hdigits : IsDigits digits) (hne : digits ≠ []) :
      ExponentOf (mark :: (sign ++ digits))
        (if negative then -(Nat.ofDigitChars 10 digits 0 : Int) else Nat.ofDigitChars 10 digits 0)

/-- A numeral and its decimal: digits, an optional point with digits after it, and an optional
exponent, with a digit before or after the point. -/
inductive Denotes : List Char → Decimal → Prop
  | mk {whole point fraction mark : List Char} {exponent : Int} (hwhole : IsDigits whole)
      (hpoint : FractionOf point fraction) (hdigit : whole ++ fraction ≠ [])
      (hmark : ExponentOf mark exponent) :
      Denotes (whole ++ (point ++ mark))
        ⟨Nat.ofDigitChars 10 (whole ++ fraction) 0, exponent - fraction.length⟩

/-! ## What is read is a numeral -/

section Parts

variable {cs rest digits : List Char}

theorem isDigits_takeWhile (cs : List Char) : IsDigits (cs.takeWhile Char.isDigit) :=
  fun _ h => List.mem_takeWhile_imp h

theorem exists_sign_eq (cs : List Char) :
    ∃ text, cs = text ++ (sign cs).2 ∧ SignOf text (sign cs).1 := by
  unfold sign
  split
  · exact ⟨['-'], rfl, .minus⟩
  · exact ⟨['+'], rfl, .plus⟩
  · exact ⟨[], rfl, .none⟩

theorem exists_fraction_eq (cs : List Char) :
    ∃ text, cs = text ++ (fraction cs).2 ∧ FractionOf text (fraction cs).1 := by
  unfold fraction
  split
  · rename_i cs
    refine ⟨'.' :: cs.takeWhile Char.isDigit, ?_, .point (isDigits_takeWhile cs)⟩
    exact congrArg ('.' :: ·) List.takeWhile_append_dropWhile.symm
  · exact ⟨[], rfl, .none⟩

theorem exists_exponent_eq (cs : List Char) :
    ∃ text, cs = text ++ (exponent cs).2 ∧ ExponentOf text (exponent cs).1 := by
  unfold exponent
  split
  · exact ⟨[], rfl, .none⟩
  rename_i mark afterMark
  split
  · rename_i hmark
    obtain ⟨signText, htext, hsign⟩ := exists_sign_eq afterMark
    generalize sign afterMark = signed at *
    obtain ⟨negative, afterSign⟩ := signed
    have hspan : afterSign = (spanDigits afterSign).1 ++ (spanDigits afterSign).2 :=
      List.takeWhile_append_dropWhile.symm
    have hdigits : IsDigits (spanDigits afterSign).1 := isDigits_takeWhile afterSign
    simp only at htext ⊢
    split
    · exact ⟨[], rfl, .none⟩
    · rename_i digits rest hne heq
      rw [heq] at hspan hdigits
      refine ⟨mark :: (signText ++ digits), ?_, .marked hmark hsign hdigits hne⟩
      rw [htext, hspan, List.cons_append, List.append_assoc]
  · exact ⟨[], rfl, .none⟩

end Parts

/-- **What is read is a numeral at the start of the text.** -/
theorem denotes_of_read? {cs rest : List Char} {d : Decimal} (h : read? cs = some (d, rest)) :
    ∃ text, cs = text ++ rest ∧ Denotes text d := by
  have hspan : cs = (spanDigits cs).1 ++ (spanDigits cs).2 := List.takeWhile_append_dropWhile.symm
  have hwhole : IsDigits (spanDigits cs).1 := isDigits_takeWhile cs
  obtain ⟨point, hafter, hpoint⟩ := exists_fraction_eq (spanDigits cs).2
  obtain ⟨mark, hafter', hmark⟩ := exists_exponent_eq (fraction (spanDigits cs).2).2
  simp only [read?] at h
  split at h
  · cases h
  · rename_i hdigit
    obtain ⟨rfl, rfl⟩ := Prod.mk.inj (Option.some.inj h)
    refine ⟨_, ?_, .mk hwhole hpoint ?_ hmark⟩
    · rw [List.append_assoc, List.append_assoc, ← hafter', ← hafter, ← hspan]
    · simpa [List.append_eq_nil_iff] using hdigit

/-! ## A numeral is read to its end at least -/

section Longest

variable {text digits rest : List Char}

theorem spanDigits_append (hdigits : IsDigits digits) (rest : List Char) :
    spanDigits (digits ++ rest) = (digits ++ (spanDigits rest).1, (spanDigits rest).2) := by
  rw [spanDigits, List.takeWhile_append_of_pos hdigits, List.dropWhile_append_of_pos hdigits]
  rfl

theorem spanDigits_cons {c : Char} (h : c.isDigit = false) (rest : List Char) :
    spanDigits (c :: rest) = ([], c :: rest) := by
  rw [spanDigits, List.takeWhile_cons_of_neg (by simp [h]),
    List.dropWhile_cons_of_neg (by simp [h])]

theorem spanDigits_suffix (cs : List Char) : (spanDigits cs).2 <:+ cs := List.dropWhile_suffix _

theorem fraction_suffix (cs : List Char) : (fraction cs).2 <:+ cs := by
  obtain ⟨text, htext, -⟩ := exists_fraction_eq cs
  exact ⟨text, htext.symm⟩

theorem exponent_suffix (cs : List Char) : (exponent cs).2 <:+ cs := by
  obtain ⟨text, htext, -⟩ := exists_exponent_eq cs
  exact ⟨text, htext.symm⟩

theorem sign_append {negative : Bool} (hsign : SignOf text negative)
    (hrest : ∀ c ∈ rest.head?, c ≠ '+' ∧ c ≠ '-') : sign (text ++ rest) = (negative, rest) := by
  cases hsign with
  | plus | minus => rfl
  | none =>
    rw [List.nil_append]
    unfold sign
    split
    · exact absurd rfl (hrest _ rfl).2
    · exact absurd rfl (hrest _ rfl).1
    · rfl

/-- After a mark, a sign and a digit, reading goes on through the digits. -/
theorem exponent_marked {mark : Char} {negative : Bool} (hmark : mark = 'e' ∨ mark = 'E')
    (hsign : SignOf text negative) (hdigits : IsDigits digits) (hne : digits ≠ [])
    (rest : List Char) :
    exponent (mark :: (text ++ digits) ++ rest) =
      (if negative then -(Nat.ofDigitChars 10 (digits ++ (spanDigits rest).1) 0 : Int)
        else Nat.ofDigitChars 10 (digits ++ (spanDigits rest).1) 0, (spanDigits rest).2) := by
  obtain ⟨c, cs, rfl⟩ := List.exists_cons_of_ne_nil hne
  have hc : c.isDigit = true := hdigits c List.mem_cons_self
  have hsigned : sign (text ++ (c :: cs ++ rest)) = (negative, c :: cs ++ rest) := by
    refine sign_append hsign fun c' hc' => ?_
    obtain rfl := Option.some.inj hc'
    constructor <;> rintro rfl <;> exact absurd hc (by decide)
  rw [List.cons_append, List.append_assoc, exponent, if_pos hmark, hsigned]
  simp only [spanDigits_append hdigits]
  rfl

theorem read?_of_digit {cs : List Char}
    (h : (spanDigits cs).1 ++ (fraction (spanDigits cs).2).1 ≠ []) :
    read? cs = some (⟨Nat.ofDigitChars 10 ((spanDigits cs).1 ++ (fraction (spanDigits cs).2).1) 0,
      (exponent (fraction (spanDigits cs).2).2).1 - (fraction (spanDigits cs).2).1.length⟩,
      (exponent (fraction (spanDigits cs).2).2).2) := by
  simp only [read?]
  rw [if_neg]
  simpa [List.append_eq_nil_iff] using h

theorem isDigit_of_mark {mark : Char} (h : mark = 'e' ∨ mark = 'E') : mark.isDigit = false := by
  rcases h with rfl | rfl <;> decide

theorem fraction_of_mark {mark : Char} (h : mark = 'e' ∨ mark = 'E') (rest : List Char) :
    fraction (mark :: rest) = ([], mark :: rest) := by
  rcases h with rfl | rfl <;> rfl

/-- Past an exponent, what is left is left of the text behind it. -/
theorem ExponentOf.suffix {e : Int} (h : ExponentOf text e) (rest : List Char) :
    (exponent (spanDigits (text ++ rest)).2).2 <:+ rest ∧
      (exponent (fraction (spanDigits (text ++ rest)).2).2).2 <:+ rest := by
  cases h with
  | none =>
    have hspan := spanDigits_suffix rest
    exact ⟨(exponent_suffix _).trans hspan,
      ((exponent_suffix _).trans (fraction_suffix _)).trans hspan⟩
  | marked hmark hsign hdigits hne =>
    have hspan := spanDigits_cons (isDigit_of_mark hmark)
    have hread := congrArg Prod.snd (exponent_marked hmark hsign hdigits hne rest)
    simp only [List.cons_append] at hread ⊢
    rw [hspan, fraction_of_mark hmark, hread]
    exact ⟨spanDigits_suffix rest, spanDigits_suffix rest⟩

/-- After the digits before a point, the point is read with the digits after it. -/
theorem fraction_spanDigits {whole : List Char} (hwhole : IsDigits whole)
    (hdigits : IsDigits digits) (rest : List Char) :
    spanDigits (whole ++ '.' :: (digits ++ rest)) = (whole, '.' :: (digits ++ rest)) ∧
      fraction ('.' :: (digits ++ rest)) =
        (digits ++ (spanDigits rest).1, (spanDigits rest).2) := by
  refine ⟨?_, spanDigits_append hdigits rest⟩
  rw [spanDigits_append hwhole, spanDigits_cons (by decide), List.append_nil]

/-- **A numeral is read to its end at least**, whatever stands behind it. -/
theorem exists_read?_append {d : Decimal} (h : Denotes text d) (rest : List Char) :
    ∃ d' rest', read? (text ++ rest) = some (d', rest') ∧ rest' <:+ rest := by
  cases h with
  | mk hwhole hpoint hdigit hmark =>
    cases hpoint with
    | none =>
      rw [List.append_nil] at hdigit
      rw [List.nil_append, List.append_assoc]
      refine ⟨_, _, read?_of_digit ?_, ?_⟩ <;> rw [spanDigits_append hwhole]
      · simp [hdigit]
      · exact (hmark.suffix rest).2
    | point hdigits =>
      rw [List.append_assoc, List.append_assoc, List.cons_append]
      obtain ⟨hspan, hfraction⟩ := fraction_spanDigits hwhole hdigits (_ ++ rest)
      refine ⟨_, _, read?_of_digit ?_, ?_⟩ <;> rw [hspan, hfraction]
      · simpa using fun hw hd _ => hdigit (by rw [hw, hd]; rfl)
      · exact (hmark.suffix rest).1

/-! ## The longest numeral -/

/-- Can what stands here not go on a numeral? -/
def Ends (rest : List Char) : Prop :=
  ∀ c ∈ rest.head?, c.isDigit = false ∧ c ≠ '.' ∧ c ≠ 'e' ∧ c ≠ 'E'

theorem Ends.spanDigits (h : Ends rest) : spanDigits rest = ([], rest) := by
  cases rest with
  | nil => rfl
  | cons c rest => exact spanDigits_cons (h c rfl).1 rest

theorem Ends.fraction (h : Ends rest) : fraction rest = ([], rest) := by
  unfold Numeral.fraction
  split
  · exact absurd rfl (h '.' rfl).2.1
  · rfl

theorem Ends.exponent (h : Ends rest) : exponent rest = (0, rest) := by
  cases rest with
  | nil => rfl
  | cons c rest => exact if_neg fun hmark => hmark.elim (h c rfl).2.2.1 (h c rfl).2.2.2

theorem ExponentOf.read {e : Int} (h : ExponentOf text e) (hrest : Ends rest) :
    Numeral.spanDigits (text ++ rest) = ([], text ++ rest) ∧
      Numeral.fraction (text ++ rest) = ([], text ++ rest) ∧
      Numeral.exponent (text ++ rest) = (e, rest) := by
  cases h with
  | none => exact ⟨hrest.spanDigits, hrest.fraction, hrest.exponent⟩
  | marked hmark hsign hdigits hne =>
    refine ⟨spanDigits_cons (isDigit_of_mark hmark) _, fraction_of_mark hmark _, ?_⟩
    rw [exponent_marked hmark hsign hdigits hne, hrest.spanDigits, List.append_nil]

/-- **A numeral is read as the decimal that it denotes**, unless what stands behind it goes on. -/
theorem read?_append {d : Decimal} (h : Denotes text d) (hrest : Ends rest) :
    read? (text ++ rest) = some (d, rest) := by
  cases h with
  | @mk _ _ _ mark _ hwhole hpoint hdigit hmark =>
    obtain ⟨hspan, hfraction, hexponent⟩ := hmark.read hrest
    cases hpoint with
    | none =>
      have hread := spanDigits_append hwhole (mark ++ rest)
      rw [hspan, List.append_nil] at hread
      rw [List.nil_append, List.append_assoc, read?_of_digit] <;> rw [hread, hfraction]
      · rw [hexponent]
      · exact hdigit
    | point hdigits =>
      obtain ⟨hread, hpoint⟩ := fraction_spanDigits hwhole hdigits (mark ++ rest)
      rw [hspan, List.append_nil] at hpoint
      rw [List.append_assoc, List.append_assoc, List.cons_append, read?_of_digit] <;>
        rw [hread, hpoint]
      · rw [hexponent]
      · exact hdigit

theorem Denotes.unique {d d' : Decimal} (h : Denotes text d) (h' : Denotes text d') : d = d' := by
  have hnil : Ends [] := fun _ h => by cases h
  have hread := (read?_append h hnil).symm.trans (read?_append h' hnil)
  exact (Prod.mk.inj (Option.some.inj hread)).1

/-- A numeral begins with a digit or a point. -/
theorem Denotes.head {text : List Char} {d : Decimal} (h : Denotes text d) :
    ∃ c rest, text = c :: rest ∧ (c.isDigit = true ∨ c = '.') := by
  cases h with
  | @mk whole _ _ _ _ hwhole hpoint hdigit _ =>
    cases whole with
    | cons c cs => exact ⟨c, _, rfl, .inl (hwhole c List.mem_cons_self)⟩
    | nil =>
      cases hpoint with
      | none => exact absurd rfl hdigit
      | point => exact ⟨'.', _, rfl, .inr rfl⟩

end Longest

/-- Is this the longest numeral at the start of the text? -/
structure IsLongest (cs text : List Char) (d : Decimal) : Prop where
  isPrefix : text <+: cs
  denotes : Denotes text d
  longest : ∀ other d', other <+: cs → Denotes other d' → other.length ≤ text.length

variable {cs rest : List Char} {d : Decimal}

/-- **The longest numeral is read.** -/
theorem read?_eq_some_iff :
    read? cs = some (d, rest) ↔ ∃ text, cs = text ++ rest ∧ IsLongest cs text d := by
  constructor
  · intro h
    obtain ⟨text, rfl, hdenotes⟩ := denotes_of_read? h
    refine ⟨text, rfl, List.prefix_append text rest, hdenotes, ?_⟩
    rintro other d' ⟨after, hafter⟩ hother
    obtain ⟨d'', rest', hread, hsuffix⟩ := exists_read?_append hother after
    rw [hafter, h] at hread
    obtain ⟨-, rfl⟩ := Prod.mk.inj (Option.some.inj hread)
    have hlength := congrArg List.length hafter
    have := hsuffix.length_le
    simp only [List.length_append] at hlength
    omega
  · rintro ⟨text, rfl, -, hdenotes, hlongest⟩
    obtain ⟨d', rest', hread, hsuffix⟩ := exists_read?_append hdenotes rest
    obtain ⟨text', htext', hdenotes'⟩ := denotes_of_read? hread
    have hlength := congrArg List.length htext'
    have hle := hlongest text' d' ⟨rest', htext'.symm⟩ hdenotes'
    have := hsuffix.length_le
    simp only [List.length_append] at hlength
    obtain ⟨rfl, rfl⟩ := List.append_inj htext' (by omega)
    rw [hread, hdenotes.unique hdenotes']

/-- **There is nothing to read exactly where no numeral begins.** -/
theorem read?_eq_none_iff : read? cs = none ↔ ∀ text d, text <+: cs → ¬Denotes text d := by
  constructor
  · rintro h text d ⟨rest, rfl⟩ hdenotes
    obtain ⟨d', rest', hread, -⟩ := exists_read?_append hdenotes rest
    cases h.symm.trans hread
  · intro h
    cases hread : read? cs with
    | none => rfl
    | some result =>
      obtain ⟨text, rfl, hdenotes⟩ := denotes_of_read? hread
      exact absurd hdenotes (h text _ (List.prefix_append text _))

end Numeral

end RpnTape
