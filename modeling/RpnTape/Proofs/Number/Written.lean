import RpnTape.Number.Written
import RpnTape.Proofs.Number.Numerals

/-!
# Proofs/Number/Written — a decimal is written as a numeral of the same value

A numeral is strict if it has no superfluous zero in front and a digit behind every point
(`Strict`). A decimal is written as a strict numeral, positionally or with an exponent, and **the
numeral has the value of the decimal** (`strict_written`). With the fewest digits that read back, a
number is thus written as a numeral that reads back.
-/

namespace RpnTape

namespace Numeral

/-- Are these digits with no superfluous zero in front? -/
def IsWhole (whole : List Char) : Prop :=
  IsDigits whole ∧ (whole = ['0'] ∨ ∃ c rest, whole = c :: rest ∧ c ≠ '0')

/-- A strict numeral and its value. -/
inductive Strict : List Char → ℚ → Prop
  | mk {whole point fraction mark : List Char} {exponent : Int} (hwhole : IsWhole whole)
      (hpoint : FractionOf point fraction) (hfraction : point ≠ [] → fraction ≠ [])
      (hmark : ExponentOf mark exponent) :
      Strict (whole ++ (point ++ mark))
        (Decimal.value ⟨Nat.ofDigitChars 10 (whole ++ fraction) 0, exponent - fraction.length⟩)

theorem IsWhole.ne_nil {whole : List Char} (h : IsWhole whole) : whole ≠ [] := by
  rcases h.2 with rfl | ⟨c, rest, rfl, -⟩ <;> exact List.cons_ne_nil _ _

theorem Strict.exists_denotes {text : List Char} {x : ℚ} (h : Strict text x) :
    ∃ d, Denotes text d ∧ d.value = x := by
  obtain ⟨hwhole, hpoint, -, hmark⟩ := h
  exact ⟨_, .mk hwhole.1 hpoint (List.append_ne_nil_of_left_ne_nil hwhole.ne_nil _) hmark, rfl⟩

theorem Strict.of_eq {text whole point fraction mark : List Char} {exponent : Int} {x : ℚ}
    (htext : text = whole ++ (point ++ mark)) (hwhole : IsWhole whole)
    (hpoint : FractionOf point fraction) (hfraction : point ≠ [] → fraction ≠ [])
    (hmark : ExponentOf mark exponent)
    (hx : Decimal.value
      ⟨Nat.ofDigitChars 10 (whole ++ fraction) 0, exponent - fraction.length⟩ = x) :
    Strict text x := by
  subst htext hx
  exact .mk hwhole hpoint hfraction hmark

/-! ## Digits -/

theorem isDigits_toDigits (n : ℕ) : IsDigits (Nat.toDigits 10 n) :=
  fun _ h => Nat.isDigit_of_mem_toDigits (by decide) (by decide) h

theorem digitChar_ne_zero : ∀ n < 10, n ≠ 0 → Nat.digitChar n ≠ '0' := by decide

/-- The digits of a number other than zero do not begin with a zero. -/
theorem exists_toDigits_eq {n : ℕ} (hn : n ≠ 0) :
    ∃ c rest, Nat.toDigits 10 n = c :: rest ∧ c ≠ '0' := by
  induction n using Nat.strongRecOn with
  | ind n ih =>
    rcases Nat.lt_or_ge n 10 with hlt | hge
    · exact ⟨_, [], Nat.toDigits_of_lt_base hlt, digitChar_ne_zero n hlt hn⟩
    · obtain ⟨c, rest, hdigits, hc⟩ := ih (n / 10) (by omega) (by omega)
      exact ⟨c, rest ++ [_], by rw [Nat.toDigits_of_base_le (by decide) hge, hdigits]; rfl, hc⟩

/-- A number is written as a strict numeral. -/
theorem isWhole_toDigits (n : ℕ) : IsWhole (Nat.toDigits 10 n) := by
  refine ⟨isDigits_toDigits n, ?_⟩
  rcases Nat.eq_zero_or_pos n with rfl | hn
  · exact .inl (Nat.toDigits_zero 10)
  · exact .inr (exists_toDigits_eq hn.ne')

end Numeral

/-! ## Decimals -/

/-- A style that writes numerals: a whole number may end in `.0`, and an
exponent may have a plus. -/
structure NumberStyle.IsReadable (style : NumberStyle) : Prop where
  wholeMark : style.wholeMark = "" ∨ style.wholeMark = ".0"
  plusMark : style.plusMark = "" ∨ style.plusMark = "+"

namespace Decimal

open Numeral

variable {d : Decimal}

theorem isDigits_zeros (count : ℤ) : IsDigits (zeros count) := by
  intro c hc
  rw [List.eq_of_mem_replicate hc]
  decide

theorem length_zeros (count : ℤ) : (zeros count).length = count.toNat := List.length_replicate

theorem length_digits_pos (d : Decimal) : 0 < d.digits.length := Nat.length_toDigits_pos

/-- What is read from the digits, with zeros behind them. -/
theorem ofDigitChars_digits_zeros (d : Decimal) (count : ℕ) :
    Nat.ofDigitChars 10 (d.digits ++ List.replicate count '0') 0 = d.coefficient * 10 ^ count := by
  rw [Nat.ofDigitChars_append, Nat.ofDigitChars_replicate_zero, digits,
    Nat.ofDigitChars_ten_toDigits, Nat.mul_comm]

/-- Digits that begin like those of a decimal other than zero have no superfluous zero in front. -/
theorem isWhole_of_digits (hd : d.coefficient ≠ 0) {whole : List Char} (hdigits : IsDigits whole)
    (hhead : whole.head? = d.digits.head?) : IsWhole whole := by
  obtain ⟨c, rest, heq, hc⟩ := exists_toDigits_eq hd
  rw [digits, heq, List.head?_cons, List.head?_eq_some_iff] at hhead
  obtain ⟨after, rfl⟩ := hhead
  exact ⟨hdigits, .inr ⟨c, after, rfl, hc⟩⟩

/-- A whole number: zeros stand for the power of ten. -/
theorem strict_whole {wholeMark : List Char} (hmark : wholeMark = [] ∨ wholeMark = ['.', '0'])
    (hd : d.coefficient ≠ 0) (hexponent : 0 ≤ d.exponent) :
    Strict (d.digits ++ zeros d.exponent ++ wholeMark) d.value := by
  obtain ⟨n, hn⟩ := Int.eq_ofNat_of_zero_le hexponent
  have hzeros : zeros d.exponent = List.replicate n '0' := by rw [zeros, hn, Int.toNat_natCast]
  have hwhole : IsWhole (d.digits ++ zeros d.exponent) := by
    refine isWhole_of_digits hd
      (List.forall_mem_append.2 ⟨isDigits_toDigits _, isDigits_zeros _⟩) ?_
    exact List.head?_append_of_ne_nil _ Nat.toDigits_ne_nil
  rw [value_of_exponent_eq hn]
  rcases hmark with rfl | rfl
  · refine .of_eq (by rw [List.nil_append]) hwhole .none (absurd rfl) .none ?_
    rw [List.append_nil, hzeros, ofDigitChars_digits_zeros, value_of_exponent_eq (n := 0) rfl]
    push_cast
    ring
  · refine .of_eq (by rw [List.append_nil]) hwhole
      (.point (List.forall_mem_singleton.2 (by decide))) (fun _ => List.cons_ne_nil _ _) .none ?_
    rw [List.append_assoc, hzeros, ← List.replicate_succ', ofDigitChars_digits_zeros,
      value_of_exponent_eq_neg (n := 1) rfl]
    push_cast
    ring

/-- A number below one: zeros stand between the point and the digits. -/
theorem strict_below_one {count : ℤ} (hcount : 0 ≤ count)
    (hexponent : -d.exponent = count + d.digits.length) :
    Strict ('0' :: '.' :: (zeros count ++ d.digits)) d.value := by
  have hfraction : IsDigits (zeros count ++ d.digits) :=
    List.forall_mem_append.2 ⟨isDigits_zeros _, isDigits_toDigits _⟩
  have hzero : IsWhole ['0'] := ⟨List.forall_mem_singleton.2 (by decide), .inl rfl⟩
  refine .of_eq (by rw [List.append_nil]; rfl) hzero (.point hfraction)
    (fun _ => List.append_ne_nil_of_right_ne_nil _ Nat.toDigits_ne_nil) .none ?_
  have hread : Nat.ofDigitChars 10 (['0'] ++ (zeros count ++ d.digits)) 0 = d.coefficient := by
    rw [Nat.ofDigitChars_append, Nat.ofDigitChars_append, zeros, Nat.ofDigitChars_replicate_zero]
    exact Nat.ofDigitChars_ten_toDigits
  have hlength : (0 : ℤ) - (zeros count ++ d.digits).length = d.exponent := by
    rw [List.length_append, length_zeros]
    omega
  rw [hread, hlength]

/-- Any other number has its point among the digits. -/
theorem strict_mixed (hd : d.coefficient ≠ 0) {count : ℕ} (hcount : 0 < count)
    (hexponent : -d.exponent = d.digits.length - count) (hneg : d.exponent < 0) :
    Strict (d.digits.take count ++ '.' :: d.digits.drop count) d.value := by
  have hall : IsDigits d.digits := isDigits_toDigits _
  have hwhole : IsWhole (d.digits.take count) := by
    refine isWhole_of_digits hd (fun c hc => hall c (List.mem_of_mem_take hc)) ?_
    rw [List.head?_take, if_neg (by omega)]
  have hfraction : IsDigits (d.digits.drop count) := fun c hc => hall c (List.mem_of_mem_drop hc)
  have hlength : (0 : ℤ) - (d.digits.drop count).length = d.exponent := by
    rw [List.length_drop]
    omega
  refine .of_eq (by rw [List.append_nil]) hwhole (.point hfraction) (fun _ h => ?_) .none ?_
  · rw [h, List.length_nil] at hlength
    omega
  · rw [List.take_append_drop, hlength, digits, Nat.ofDigitChars_ten_toDigits]

theorem strict_plain {wholeMark : List Char} (hmark : wholeMark = [] ∨ wholeMark = ['.', '0'])
    (hd : d.coefficient ≠ 0) : Strict (d.plain wholeMark) d.value := by
  have hpos := d.length_digits_pos
  by_cases hexponent : 0 ≤ d.exponent
  · rw [plain, if_pos hexponent]
    exact strict_whole hmark hd hexponent
  by_cases hleading : d.leadingExponent < 0
  · rw [plain, if_neg hexponent, if_pos hleading]
    rw [leadingExponent] at hleading ⊢
    exact strict_below_one (by omega) (by omega)
  · rw [plain, if_neg hexponent, if_neg hleading]
    rw [leadingExponent] at hleading ⊢
    exact strict_mixed hd (by omega) (by omega) (by omega)

theorem exponentOf_signedDigits {plusMark : List Char} (hplus : SignOf plusMark false) (n : ℤ) :
    ExponentOf ('e' :: signedDigits plusMark n) n := by
  have hdigits := isDigits_toDigits n.natAbs
  rw [signedDigits]
  split
  · have h := ExponentOf.marked (.inl rfl) .minus hdigits Nat.toDigits_ne_nil
    rwa [if_pos rfl, Nat.ofDigitChars_ten_toDigits, ← Int.eq_neg_natAbs_of_nonpos (by omega)] at h
  · have h := ExponentOf.marked (.inl rfl) hplus hdigits Nat.toDigits_ne_nil
    rwa [if_neg Bool.false_ne_true, Nat.ofDigitChars_ten_toDigits,
      Int.natAbs_of_nonneg (by omega)] at h

theorem strict_scientific {plusMark : List Char} (hplus : SignOf plusMark false)
    (hd : d.coefficient ≠ 0) : Strict (d.scientific plusMark) d.value := by
  have hall : IsDigits d.digits := isDigits_toDigits _
  have hread : Nat.ofDigitChars 10 d.digits 0 = d.coefficient := Nat.ofDigitChars_ten_toDigits
  have hmark := exponentOf_signedDigits hplus d.leadingExponent
  obtain ⟨c, rest, hdigits, hc⟩ : ∃ c rest, d.digits = c :: rest ∧ c ≠ '0' := exists_toDigits_eq hd
  have hexponent : d.leadingExponent - rest.length = d.exponent := by
    rw [leadingExponent, hdigits, List.length_cons]
    omega
  rw [hdigits] at hall hread
  obtain ⟨hfirst, hrest⟩ := List.forall_mem_cons.1 hall
  have hwhole : IsWhole [c] := ⟨List.forall_mem_singleton.2 hfirst, .inr ⟨c, [], rfl, hc⟩⟩
  rw [scientific, hdigits]
  cases rest with
  | nil =>
    refine .of_eq rfl hwhole .none (absurd rfl) hmark ?_
    rw [List.append_nil, hread]
    exact congrArg (fun e => value ⟨_, e⟩) hexponent
  | cons c' rest =>
    refine .of_eq rfl hwhole (.point hrest) (fun _ => List.cons_ne_nil _ _) hmark ?_
    rw [List.singleton_append, hread, hexponent]

/-- **A decimal is written as a strict numeral of its value.** -/
theorem strict_written {style : NumberStyle} (hstyle : style.IsReadable) (hd : d.coefficient ≠ 0) :
    Strict (d.written style) d.value := by
  rw [written]
  split
  · refine strict_plain (hstyle.wholeMark.imp ?_ ?_) hd <;> (intro h; rw [h]; rfl)
  · refine strict_scientific ?_ hd
    rcases hstyle.plusMark with h | h <;> rw [h]
    · exact .none
    · exact .plus

end Decimal

namespace Binary64

open Numeral

variable {v : Binary64}

theorem strict_writtenMagnitude {style : NumberStyle} (hstyle : style.IsReadable)
    (hzero : v.isZero = false) :
    Strict (v.writtenMagnitude style) (Decimal.shortest style.tie v.pattern).value :=
  Decimal.strict_written hstyle (Decimal.coefficient_shortest_ne_zero _ (of_decide_eq_false hzero))

end Binary64

end RpnTape
