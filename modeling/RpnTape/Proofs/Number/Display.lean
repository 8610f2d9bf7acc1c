import RpnTape.Formula.Basic

/-!
# Proofs/Number/Display — the characters of a displayed number

A number in a formula is `NaN` or a magnitude, with a minus sign before it if the number is below
zero; its display is the same magnitude behind the same sign (`display_eq`). A magnitude begins with
a digit or is `∞`; a minus sign stands in it only before an exponent. So it cannot be taken for a
name, and no sign can be taken for a part of it.
-/

namespace RpnTape

/-- Can the character stand in a magnitude? -/
def isMagnitudeChar (c : Char) : Bool := c.isDigit || ['.', 'e', '-', '∞'].contains c

/-- Can the character begin a magnitude? -/
def startsMagnitude (c : Char) : Bool := c.isDigit || c = '∞'

/-- Can this be the text of a magnitude? -/
structure IsMagnitude (text : List Char) : Prop where
  head : ∃ c rest, text = c :: rest ∧ startsMagnitude c = true
  chars : ∀ c ∈ text, isMagnitudeChar c = true

theorem IsMagnitude.append {text rest : List Char} (h : IsMagnitude text)
    (hrest : ∀ c ∈ rest, isMagnitudeChar c = true) : IsMagnitude (text ++ rest) where
  head := by
    obtain ⟨c, cs, rfl, hc⟩ := h.head
    exact ⟨c, cs ++ rest, rfl, hc⟩
  chars := List.forall_mem_append.2 ⟨h.chars, hrest⟩

/-! ## Decimals -/

namespace Decimal

theorem isDigit_of_mem_toDigits {n : Nat} {c : Char} (h : c ∈ Nat.toDigits 10 n) :
    c.isDigit = true :=
  Nat.isDigit_of_mem_toDigits (by decide) (by decide) h

theorem isMagnitudeChar_of_mem_toDigits {n : Nat} {c : Char} (h : c ∈ Nat.toDigits 10 n) :
    isMagnitudeChar c = true := by
  rw [isMagnitudeChar, isDigit_of_mem_toDigits h, Bool.true_or]

theorem isMagnitudeChar_of_mem_zeros {count : Int} {c : Char} (h : c ∈ zeros count) :
    isMagnitudeChar c = true := by
  rw [List.eq_of_mem_replicate h]
  decide

variable (d : Decimal)

theorem exists_digits_eq : ∃ c rest, d.digits = c :: rest ∧ startsMagnitude c = true := by
  have hne : d.digits ≠ [] := Nat.toDigits_ne_nil
  obtain ⟨c, rest, h⟩ := List.exists_cons_of_ne_nil hne
  refine ⟨c, rest, h, ?_⟩
  rw [startsMagnitude, isDigit_of_mem_toDigits (h ▸ List.mem_cons_self), Bool.true_or]

/-- The digits, or those at the front of them, are a magnitude. -/
theorem isMagnitude_take_digits {count : Nat} (h : 0 < count) :
    IsMagnitude (d.digits.take count) where
  head := by
    obtain ⟨c, rest, hdigits, hc⟩ := d.exists_digits_eq
    obtain ⟨count, rfl⟩ := Nat.exists_eq_succ_of_ne_zero (Nat.ne_of_gt h)
    exact ⟨c, rest.take count, by rw [hdigits, List.take_succ_cons], hc⟩
  chars _ hc := isMagnitudeChar_of_mem_toDigits (List.mem_of_mem_take hc)

theorem isMagnitude_digits : IsMagnitude d.digits where
  head := d.exists_digits_eq
  chars _ hc := isMagnitudeChar_of_mem_toDigits hc

theorem isMagnitude_plain : IsMagnitude (d.plain []) := by
  have hdigits : ∀ c ∈ d.digits, isMagnitudeChar c = true := d.isMagnitude_digits.chars
  have hzeros : ∀ count, ∀ c ∈ zeros count, isMagnitudeChar c = true := fun _ _ hc =>
    isMagnitudeChar_of_mem_zeros hc
  simp only [plain]
  split
  · rw [List.append_nil]
    exact d.isMagnitude_digits.append (hzeros _)
  split
  · have hzero : IsMagnitude ['0'] :=
      ⟨⟨'0', [], rfl, by decide⟩, List.forall_mem_singleton.2 (by decide)⟩
    refine hzero.append (List.forall_mem_cons.2 ⟨by decide, ?_⟩)
    exact List.forall_mem_append.2 ⟨hzeros _, hdigits⟩
  · refine (d.isMagnitude_take_digits (by omega)).append (List.forall_mem_cons.2 ⟨by decide, ?_⟩)
    exact fun c hc => hdigits c (List.mem_of_mem_drop hc)

theorem isMagnitude_mantissa : IsMagnitude (mantissa d.digits) := by
  obtain ⟨c, rest, hdigits, hc⟩ := d.exists_digits_eq
  have hchars := d.isMagnitude_digits.chars
  rw [hdigits] at hchars ⊢
  obtain ⟨hfirst, hrest⟩ := List.forall_mem_cons.1 hchars
  cases rest with
  | nil => exact ⟨⟨c, [], rfl, hc⟩, hchars⟩
  | cons e rest =>
    refine ⟨⟨c, '.' :: e :: rest, rfl, hc⟩, ?_⟩
    exact List.forall_mem_cons.2 ⟨hfirst, List.forall_mem_cons.2 ⟨by decide, hrest⟩⟩

theorem isMagnitude_scientific : IsMagnitude (d.scientific []) := by
  refine d.isMagnitude_mantissa.append (List.forall_mem_cons.2 ⟨by decide, ?_⟩)
  refine List.forall_mem_append.2 ⟨?_, fun c hc => isMagnitudeChar_of_mem_toDigits hc⟩
  split
  · exact List.forall_mem_singleton.2 (by decide)
  · exact List.forall_mem_nil _

theorem isMagnitude_written : IsMagnitude (d.written displayStyle) := by
  unfold written
  split
  · exact d.isMagnitude_plain
  · exact d.isMagnitude_scientific

end Decimal

/-! ## The sign of a displayed number -/

namespace Binary64

variable {v : Binary64}

theorem isInfinite_of_isZero (h : v.isZero = true) : v.isInfinite = false := by
  have hpattern : v.pattern = 0 := of_decide_eq_true h
  rw [isInfinite, hpattern]
  decide

theorem neg_eq_abs (h : v.isBelowZero = true) : -v = v.abs := by
  simp only [isBelowZero, Bool.and_eq_true] at h
  change v.withSign (!v.negative) = v.withSign false
  rw [h.1.1, Bool.not_true]

theorem signed_eq (v : Binary64) (magnitude : List Char) :
    v.signed magnitude =
      if v.negative then "-" ++ String.ofList magnitude else String.ofList magnitude := by
  have hminus : String.ofList ('-' :: magnitude) = "-" ++ String.ofList magnitude :=
    String.ofList_cons
  rw [signed, ← hminus]
  split <;> rfl

/-- The display of a magnitude: what is displayed of the number is decided by the same questions. -/
theorem display_abs (v : Binary64) : v.abs.display =
    if v.isNaN then "NaN"
    else if v.isInfinite then String.ofList ['∞']
    else if v.isZero then "0"
    else String.ofList (v.writtenMagnitude displayStyle) := rfl

/-- **The sign shows below zero only**: a number is displayed as its magnitude, behind a minus
sign if it is below zero. -/
theorem display_eq (v : Binary64) :
    v.display = if v.isBelowZero then "-" ++ v.abs.display else v.abs.display := by
  rw [display, display_abs, signed_eq, signed_eq, isBelowZero]
  -- zero is apart: its sign counts for nothing, and it is never infinite, where
  -- the sign would be shown
  cases hzero : v.isZero with
  | true => cases v.isNaN <;> simp [isInfinite_of_isZero hzero]
  | false => cases v.isNaN <;> cases v.isInfinite <;> cases v.negative <;> simp

theorem isMagnitude_display_abs (hnan : v.isNaN = false) : IsMagnitude v.abs.display.toList := by
  rw [display_abs, hnan, if_neg Bool.false_ne_true]
  split
  · rw [String.toList_ofList]
    exact ⟨⟨'∞', [], rfl, by decide⟩, List.forall_mem_singleton.2 (by decide)⟩
  split
  · exact ⟨⟨'0', [], rfl, by decide⟩, List.forall_mem_singleton.2 (by decide)⟩
  · rw [String.toList_ofList]
    exact Decimal.isMagnitude_written _

/-! ## Numbers in a formula -/

theorem formula_eq (v : Binary64) :
    v.formula =
      if v.isBelowZero then [.row [.operator "-", .number v.abs.display]]
      else [.number v.display] := by
  rw [formula]
  split
  · rename_i hbelow
    rw [neg_eq_abs hbelow]
  · rfl

/-- **A number is shown as a magnitude, with a minus sign if it is below
zero**, or as not a number. -/
theorem formula_cases (v : Binary64) :
    v.isNaN = true ∧ v.formula = [.number "NaN"] ∨
      ∃ magnitude : String, IsMagnitude magnitude.toList ∧
        (v.formula = [.number magnitude] ∨
          v.formula = [.row [.operator "-", .number magnitude]]) := by
  cases hnan : v.isNaN with
  | true =>
    have hbelow : v.isBelowZero = false := by rw [isBelowZero, hnan, Bool.not_true, Bool.and_false]
    have hdisplay : v.display = "NaN" := by rw [display, hnan, if_pos rfl]
    exact .inl ⟨rfl, by rw [formula_eq, hbelow, hdisplay, if_neg Bool.false_ne_true]⟩
  | false =>
    refine .inr ⟨v.abs.display, isMagnitude_display_abs hnan, ?_⟩
    rw [formula_eq, v.display_eq]
    split
    · exact .inr rfl
    · exact .inl rfl

end Binary64

end RpnTape
