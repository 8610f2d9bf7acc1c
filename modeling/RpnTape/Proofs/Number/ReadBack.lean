import RpnTape.Number.Display
import RpnTape.Proofs.Number.Scanning
import RpnTape.Proofs.Number.Written

/-!
# Proofs/Number/ReadBack — a displayed number reads back

A finite number other than zero is displayed as a minus sign, if it has one, and a numeral
of its shortest digits. Reading takes the whole of it (`parts_display`), and the shortest
digits have the number as their nearest, so **every finite number reads back bit for
bit**; only zero loses its sign.

Whether there is an exponent is decided by the digits, but it could as well be decided by the
number: nearest magnitudes are in the order of what they are nearest to (`IsNearest.mono`), so the
digits reach a power of ten where the number reaches the magnitude nearest to that power
(`le_leadingExponent_iff`).
-/

namespace RpnTape

/-! ## Where the leading digit stands -/

/-- **Nearest magnitudes are in the order of what they are nearest to.** -/
theorem IsNearest.mono {x y : ℚ} {p q : ℕ} (hp : IsNearest x p) (hq : IsNearest y q) (hxy : x ≤ y) :
    p ≤ q := by
  by_contra hlt
  rw [Nat.not_le] at hlt
  have hx := (abs_sub_le_abs_sub_iff_add_le (patternUnits_lt hlt)).1 (hp.nearest q hq.le_infinite)
  have hy := (abs_sub_le_abs_sub_iff_le_add (patternUnits_lt hlt)).1 (hq.nearest p hp.le_infinite)
  -- both are halfway between the two magnitudes, so they are the same and have one nearest
  obtain rfl : x = y := by linarith
  exact hlt.ne' (hp.unique hq)

namespace Decimal

variable {d : Decimal}

theorem coefficient_lt (d : Decimal) : d.coefficient < 10 ^ d.digits.length :=
  (Nat.length_toDigits_le_iff (by decide) d.length_digits_pos).1 le_rfl

theorem pow_le_coefficient (hd : d.coefficient ≠ 0) :
    10 ^ (d.digits.length - 1) ≤ d.coefficient := by
  by_contra hlt
  rw [Nat.not_le] at hlt
  have hpos := d.length_digits_pos
  rcases Nat.eq_zero_or_pos (d.digits.length - 1) with hzero | hcount
  · rw [hzero, Nat.pow_zero] at hlt
    omega
  · have hle : d.digits.length ≤ d.digits.length - 1 :=
      (Nat.length_toDigits_le_iff (by decide) hcount).2 hlt
    omega

/-- The leading digit counts the greatest power of ten in the value. -/
theorem value_bounds (hd : d.coefficient ≠ 0) :
    (10 : ℚ) ^ d.leadingExponent ≤ d.value ∧ d.value < 10 ^ (d.leadingExponent + 1) := by
  have hpos := d.length_digits_pos
  have hten : (0 : ℚ) < 10 ^ d.exponent := zpow_pos (by norm_num) _
  have hlength : (10 : ℚ) ^ (d.leadingExponent + 1) = 10 ^ d.digits.length * 10 ^ d.exponent := by
    rw [← zpow_natCast, ← zpow_add₀ (by norm_num), leadingExponent]
    ring_nf
  have hlength' : (10 : ℚ) ^ d.leadingExponent = 10 ^ (d.digits.length - 1) * 10 ^ d.exponent := by
    rw [← zpow_natCast, ← zpow_add₀ (by norm_num), leadingExponent, Nat.cast_sub hpos, Nat.cast_one]
  rw [hlength, hlength', value]
  constructor
  · exact mul_le_mul_of_nonneg_right (by exact_mod_cast pow_le_coefficient hd) hten.le
  · exact mul_lt_mul_of_pos_right (by exact_mod_cast d.coefficient_lt) hten

/-- The value of a power of ten. -/
theorem value_one (e : ℤ) : (⟨1, e⟩ : Decimal).value = 10 ^ e := by
  rw [value, Nat.cast_one, one_mul]

/-- **The shortest digits reach a power of ten exactly where the number does**, provided that the
number nearest to the power is written as the power. -/
theorem le_leadingExponent_iff (tie : Tie) (e : ℤ)
    (hpower : (shortest tie (nearestPattern ⟨1, e⟩)).leadingExponent = e) {pattern : ℕ}
    (hpattern : pattern ≤ infinitePattern) (hne : pattern ≠ 0) :
    e ≤ (shortest tie pattern).leadingExponent ↔ nearestPattern ⟨1, e⟩ ≤ pattern := by
  obtain ⟨hlower, hupper⟩ := value_bounds (coefficient_shortest_ne_zero tie hne)
  have hnearest := isNearest_shortest tie hpattern
  have hnearest' := nearestPattern_isNearest ⟨1, e⟩
  rw [value_one] at hnearest'
  constructor
  · intro hle
    have hvalue : (10 : ℚ) ^ e ≤ (shortest tie pattern).value :=
      (zpow_le_zpow_right₀ (by norm_num) hle).trans hlower
    exact hnearest'.mono hnearest (mul_le_mul_of_nonneg_right hvalue unitsPerOne_pos.le)
  · intro hle
    by_contra hlt
    rw [Int.not_le] at hlt
    have hvalue : (shortest tie pattern).value ≤ 10 ^ e :=
      hupper.le.trans (zpow_le_zpow_right₀ (by norm_num) (Int.add_one_le_of_lt hlt))
    have hle' := hnearest.mono hnearest' (mul_le_mul_of_nonneg_right hvalue unitsPerOne_pos.le)
    rw [hle.antisymm hle'] at hpower
    exact hlt.ne hpower

/-! ## The mark of an exponent -/

theorem not_mem_of_isDigits {c : Char} (hc : c.isDigit = false) {cs : List Char}
    (hcs : Numeral.IsDigits cs) : c ∉ cs := fun hmem => by
  rw [hcs c hmem] at hc
  cases hc

/-- A number written positionally has no exponent. -/
theorem mark_not_mem_plain (d : Decimal) : 'e' ∉ d.plain [] := by
  have hdigits : Numeral.IsDigits d.digits := Numeral.isDigits_toDigits _
  have hmark : ∀ {cs}, Numeral.IsDigits cs → 'e' ∉ cs := not_mem_of_isDigits (by decide)
  simp only [plain]
  split
  · rw [List.append_nil, List.mem_append, not_or]
    exact ⟨hmark hdigits, hmark (isDigits_zeros _)⟩
  split
  · simp only [List.cons_append, List.mem_cons, List.mem_append, not_or]
    exact ⟨by decide, by decide, hmark (isDigits_zeros _), hmark hdigits⟩
  · simp only [List.mem_append, List.mem_cons, not_or]
    exact ⟨fun h => hmark hdigits (List.mem_of_mem_take h), by decide,
      fun h => hmark hdigits (List.mem_of_mem_drop h)⟩

theorem mark_mem_scientific (plusMark : List Char) (d : Decimal) : 'e' ∈ d.scientific plusMark :=
  List.mem_append_right _ List.mem_cons_self

theorem mark_mem_written_iff (d : Decimal) : 'e' ∈ d.written displayStyle ↔
    ¬(-6 ≤ d.leadingExponent) ∨ 21 ≤ d.leadingExponent := by
  rw [written]
  split
  · rename_i hplain
    simp only [displayStyle] at hplain
    exact iff_of_false d.mark_not_mem_plain (by omega)
  · rename_i hplain
    simp only [displayStyle] at hplain
    exact iff_of_true (d.mark_mem_scientific _) (by omega)

end Decimal

/-! ## Displayed numbers -/

theorem isReadable_displayStyle : displayStyle.IsReadable := ⟨.inl rfl, .inl rfl⟩

namespace Binary64

open Numeral

variable {v w : Binary64}

/-- The magnitude at which numbers begin to be written positionally: the one nearest to `10⁻⁶`. -/
def firstPlain : ℕ := Decimal.nearestPattern ⟨1, -6⟩

/-- The magnitude at which they are written with an exponent again: `10²¹`. -/
def firstLarge : ℕ := Decimal.nearestPattern ⟨1, 21⟩

theorem display_of_isZero (h : v.isZero = true) : v.display = "0" := by
  have hpattern : v.pattern = 0 := of_decide_eq_true h
  have hnan : v.isNaN = false := by rw [isNaN, hpattern]; decide
  have hinfinite : v.isInfinite = false := by rw [isInfinite, hpattern]; decide
  rw [display, hnan, hinfinite, h]
  rfl

theorem display_of_isFinite (h : v.isFinite = true) (hzero : v.isZero = false) :
    v.display = v.signed (v.writtenMagnitude displayStyle) := by
  have hpattern : v.pattern < infinitePattern := of_decide_eq_true h
  have hnan : v.isNaN = false := decide_eq_false (Nat.not_lt.2 hpattern.le)
  have hinfinite : v.isInfinite = false := decide_eq_false hpattern.ne
  rw [display, hnan, hinfinite, hzero]
  rfl

/-- **A displayed number is a sign and a numeral**, and the number nearest to the numeral is
the one that is displayed. -/
theorem parts_display (h : v.isFinite = true) : ∃ sign negative numeral d,
    v.display.toList = sign ++ numeral ∧ SignOf sign negative ∧ Denotes numeral d ∧
      d.nearest negative = if v.isZero then zero else v := by
  by_cases hzero : v.isZero = true
  · refine ⟨[], false, ['0'], ⟨0, 0⟩, by rw [display_of_isZero hzero]; rfl, .none, ?_, ?_⟩
    · have hdigit : IsDigits ['0'] := List.forall_mem_singleton.2 (by decide)
      exact .mk hdigit .none (List.cons_ne_nil _ _) .none
    · rw [if_pos hzero]
      rfl
  · rw [Bool.not_eq_true] at hzero
    obtain ⟨d, hdenotes, hvalue⟩ :=
      (strict_writtenMagnitude isReadable_displayStyle hzero).exists_denotes
    have hpattern : d.nearestPattern = v.pattern := by
      rw [Decimal.nearestPattern_congr hvalue]
      exact Decimal.nearestPattern_shortest _ (of_decide_eq_true h : v.pattern < infinitePattern).le
    refine ⟨if v.negative then ['-'] else [], v.negative, _, d, ?_, ?_, hdenotes, ?_⟩
    · rw [display_of_isFinite h hzero, signed, String.toList_ofList]
      split <;> rfl
    · cases v.negative
      · exact .none
      · exact .minus
    · obtain ⟨negative, pattern, hlt⟩ := v
      rw [if_neg (by rw [hzero]; exact Bool.false_ne_true)]
      simp only [Decimal.nearest, mk.injEq, true_and]
      exact hpattern

theorem mark_mem_display_iff (h : v.isFinite = true) :
    'e' ∈ v.display.toList ↔
      v.isZero = false ∧ (v.pattern < firstPlain ∨ firstLarge ≤ v.pattern) := by
  by_cases hzero : v.isZero = true
  · rw [display_of_isZero hzero, hzero]
    exact iff_of_false (by decide) fun hfalse => absurd hfalse.1 Bool.false_ne_true.symm
  · rw [Bool.not_eq_true] at hzero
    have hpattern : v.pattern < infinitePattern := of_decide_eq_true h
    have hne : v.pattern ≠ 0 := of_decide_eq_false hzero
    have hsmall := Decimal.le_leadingExponent_iff .up (-6) (by decide +kernel) hpattern.le hne
    have hlarge := Decimal.le_leadingExponent_iff .up 21 (by decide +kernel) hpattern.le hne
    have hsigned : 'e' ∈ v.display.toList ↔ 'e' ∈ v.writtenMagnitude displayStyle := by
      rw [display_of_isFinite h hzero, signed, String.toList_ofList]
      split
      · rw [List.mem_cons, or_iff_right (by decide)]
      · rfl
    rw [hsigned, writtenMagnitude, Decimal.mark_mem_written_iff, displayStyle, hsmall, hlarge,
      Nat.not_le, hzero, and_iff_right rfl]
    rfl

/-- A numeral is read to its end. -/
theorem read?_numeral {numeral : List Char} {d : Decimal} (hnumeral : Denotes numeral d) :
    Numeral.read? numeral = some (d, []) := by
  have hread : Numeral.read? (numeral ++ []) = some (d, []) :=
    read?_append hnumeral fun _ h => by cases h
  rwa [List.append_nil] at hread

theorem isBlank_of_isDigit {c : Char} (h : c.isDigit = true) : isBlank c = false := by
  obtain ⟨hlower, hupper⟩ := (isDigit_iff c).1 h
  simp [isBlank, blankRanges]
  omega

/-- A sign and a numeral are read as the number nearest to the numeral. -/
theorem read?_of_denotes {text : String} {sign numeral : List Char} {negative : Bool} {d : Decimal}
    (htext : text.toList = sign ++ numeral) (hsign : SignOf sign negative)
    (hnumeral : Denotes numeral d) :
    read? text = some (d.nearest negative) := by
  have hlongest : IsLongest numeral numeral d :=
    ⟨List.prefix_rfl, hnumeral, fun _ _ hother _ => hother.length_le⟩
  have hblank : text.toList.dropWhile isBlank = sign ++ numeral := by
    obtain ⟨c, rest, rfl, hc⟩ := hnumeral.head
    have hfirst : isBlank c = false := by
      rcases hc with hc | rfl
      · exact isBlank_of_isDigit hc
      · decide
    rw [htext]
    cases hsign with
    | none => exact List.dropWhile_cons_of_neg (Bool.eq_false_iff.1 hfirst)
    | plus | minus => exact List.dropWhile_cons_of_neg (by decide)
  rw [read?_eq_some_iff_begins, hblank]
  exact .numeral hsign hlongest (rounds_nearest negative d)

theorem read?_display (h : v.isFinite = true) :
    read? v.display = some (if v.isZero then zero else v) := by
  obtain ⟨sign, negative, numeral, d, htext, hsign, hnumeral, hnearest⟩ := parts_display h
  rw [read?_of_denotes htext hsign hnumeral, hnearest]

/-- **A displayed number reads back.** A finite number is what is read from its display, bit for bit
but for the sign of zero. The display is a sign and a numeral which is read to its end, so nothing
of it goes unread; it has an exponent where the number is below `10⁻⁶`, and from `10²¹` on. So no
two finite numbers are displayed alike, but for the zeros. -/
theorem display_reads_back (h : v.isFinite = true) :
    read? v.display = some (if v.isZero then zero else v) ∧
      (∃ sign negative numeral d, v.display.toList = sign ++ numeral ∧ SignOf sign negative ∧
        Numeral.read? numeral = some (d, []) ∧
        numeralLength? (bytesOf numeral) = some (some (bytesOf numeral).length)) ∧
      ('e' ∈ v.display.toList ↔
        v.isZero = false ∧ (v.pattern < firstPlain ∨ firstLarge ≤ v.pattern)) ∧
      ∀ w : Binary64, w.isFinite = true →
        (v.display = w.display ↔ v = w ∨ v.isZero = true ∧ w.isZero = true) := by
  refine ⟨read?_display h, ?_, mark_mem_display_iff h, fun w hw => ⟨fun heq => ?_, ?_⟩⟩
  · obtain ⟨sign, negative, numeral, d, htext, hsign, hnumeral, -⟩ := parts_display h
    refine ⟨sign, negative, numeral, d, htext, hsign, read?_numeral hnumeral, ?_⟩
    rw [numeralLength?_bytesOf, read?_numeral hnumeral]
    rfl
  · have hsame := Option.some.inj ((read?_display h).symm.trans (heq ▸ read?_display hw))
    by_cases hv : v.isZero = true <;> by_cases hw : w.isZero = true
    · exact .inr ⟨hv, hw⟩
    · rw [if_pos hv, if_neg hw] at hsame
      exact absurd (hsame ▸ rfl : w.isZero = true) hw
    · rw [if_neg hv, if_pos hw] at hsame
      exact absurd (hsame ▸ rfl : v.isZero = true) hv
    · rw [if_neg hv, if_neg hw] at hsame
      exact .inl hsame
  · rintro (rfl | ⟨hv, hw⟩)
    · rfl
    · rw [display_of_isZero hv, display_of_isZero hw]

theorem display_reads_back_subnormal : (ofBits 0x8000000000000001).isFinite = true ∧
    (ofBits 0x8000000000000001).display = "-5e-324" ∧
    read? "-5e-324" = some (ofBits 0x8000000000000001) := by
  have hfinite : (ofBits 0x8000000000000001).isFinite = true := by decide
  have hdisplay : (ofBits 0x8000000000000001).display = "-5e-324" := by decide +kernel
  refine ⟨hfinite, hdisplay, ?_⟩
  have hread := (display_reads_back hfinite).1
  rwa [hdisplay] at hread

end Binary64

end RpnTape
