import RpnTape.Proofs.Number.Numerals

/-!
# Proofs/Number/Scanning — a number read by positions in its bytes

A number can be read without taking a text apart into characters: the numeral's end is found
by counting bytes (`numeralLength?`), and what stands before the end is cut off and handed
to a parser (`scan?`). Counting may run past the last byte, and cutting may divide a
character; either leaves no result.

Neither happens: **the bytes before a position are those of the characters read so far**, and a
character beyond ASCII begins with a byte that no digit and no mark has (`utf8EncodeChar_cases`). So
the end is that of the longest numeral, and the parser gets a text of the grammar.
-/

namespace RpnTape

/-! ## Characters and bytes -/

/-- The bytes of a text. -/
def bytesOf (cs : List Char) : List UInt8 := cs.flatMap String.utf8EncodeChar

theorem bytesOf_append (cs ds : List Char) : bytesOf (cs ++ ds) = bytesOf cs ++ bytesOf ds :=
  List.flatMap_append

theorem bytesOf_cons (c : Char) (cs : List Char) :
    bytesOf (c :: cs) = String.utf8EncodeChar c ++ bytesOf cs :=
  List.flatMap_cons

/-- A character is its own byte, or begins with one that is no character. -/
theorem utf8EncodeChar_cases (c : Char) :
    c.toNat < 128 ∧ String.utf8EncodeChar c = [c.toUInt8] ∨
      128 ≤ c.toNat ∧
        ∃ first rest, String.utf8EncodeChar c = first :: rest ∧ 128 ≤ first.toNat := by
  have hval : c.toNat = c.val.toNat := rfl
  rw [String.utf8EncodeChar, hval]
  by_cases h : c.val.toNat ≤ 127
  · exact .inl ⟨by omega, if_pos h⟩
  · refine .inr ⟨by omega, ?_⟩
    simp only [if_neg h]
    split
    · exact ⟨_, _, rfl, by rw [UInt8.toNat_ofNat']; omega⟩
    split
    · exact ⟨_, _, rfl, by rw [UInt8.toNat_ofNat']; omega⟩
    · exact ⟨_, _, rfl, by rw [UInt8.toNat_ofNat']; omega⟩

theorem toNat_toUInt8 {c : Char} (h : c.toNat < 128) : c.toUInt8.toNat = c.toNat :=
  Nat.mod_eq_of_lt (h.trans (by decide))

theorem bytesOf_eq_nil {cs : List Char} : bytesOf cs = [] ↔ cs = [] := by
  refine ⟨fun h => ?_, fun h => h ▸ rfl⟩
  cases cs with
  | nil => rfl
  | cons c cs =>
    rw [bytesOf_cons] at h
    rcases utf8EncodeChar_cases c with ⟨-, hc⟩ | ⟨-, first, rest, hc, -⟩ <;>
      rw [hc] at h <;> cases h

/-- **A byte of ASCII is that of a character.** -/
theorem head?_bytesOf {a : Char} (ha : a.toNat < 128) (cs : List Char) :
    (bytesOf cs).head? = some a.toUInt8 ↔ cs.head? = some a := by
  have hbyte := toNat_toUInt8 ha
  cases cs with
  | nil => exact iff_of_false nofun nofun
  | cons c cs =>
    rw [bytesOf_cons, List.head?_cons, Option.some_inj]
    rcases utf8EncodeChar_cases c with ⟨hlt, hc⟩ | ⟨hge, first, rest, hc, hfirst⟩
    · rw [hc, List.singleton_append, List.head?_cons, Option.some_inj]
      refine ⟨fun h => Char.toNat_inj.1 ?_, fun h => h ▸ rfl⟩
      have h' := congrArg UInt8.toNat h
      rwa [hbyte, toNat_toUInt8 hlt] at h'
    · rw [hc, List.cons_append, List.head?_cons, Option.some_inj]
      constructor
      · rintro rfl
        omega
      · rintro rfl
        omega

theorem getElem?_bytesOf {a : Char} (ha : a.toNat < 128) (cs rest : List Char) :
    (bytesOf (cs ++ rest))[(bytesOf cs).length]? = some a.toUInt8 ↔ rest.head? = some a := by
  rw [bytesOf_append, List.getElem?_append_right (Nat.le_refl _), Nat.sub_self,
    ← List.head?_eq_getElem?, head?_bytesOf ha]

/-- Is the byte that of a digit? -/
def isDigitByte (b : UInt8) : Bool := 48 ≤ b.toNat && b.toNat ≤ 57

theorem isDigit_iff (c : Char) : c.isDigit = true ↔ 48 ≤ c.toNat ∧ c.toNat ≤ 57 := by
  rw [Char.isDigit, Bool.and_eq_true, decide_eq_true_iff, decide_eq_true_iff]
  exact Iff.rfl

/-- **Digits are counted alike** in the bytes and in the characters. -/
theorem takeWhile_bytesOf (cs : List Char) :
    (bytesOf cs).takeWhile isDigitByte = bytesOf (cs.takeWhile Char.isDigit) := by
  induction cs with
  | nil => rfl
  | cons c cs ih =>
    rw [bytesOf_cons]
    rcases utf8EncodeChar_cases c with ⟨hlt, hc⟩ | ⟨hge, first, rest, hc, hfirst⟩
    · have hsame : isDigitByte c.toUInt8 = c.isDigit := by
        rw [Bool.eq_iff_iff, isDigit_iff, isDigitByte, toNat_toUInt8 hlt, Bool.and_eq_true,
          decide_eq_true_iff, decide_eq_true_iff]
      rw [hc, List.singleton_append, List.takeWhile_cons, List.takeWhile_cons, hsame, ih]
      split
      · rw [bytesOf_cons, hc, List.singleton_append]
      · rfl
    · have hbyte : ¬isDigitByte first = true := by
        rw [isDigitByte, Bool.and_eq_true, decide_eq_true_iff, decide_eq_true_iff]
        omega
      have hchar : ¬c.isDigit = true := by
        rw [isDigit_iff]
        omega
      rw [hc, List.cons_append, List.takeWhile_cons_of_neg hbyte, List.takeWhile_cons_of_neg hchar]
      rfl

/-! ## The length of a numeral -/

namespace Numeral

/-- How many digits there are from a position on; there is no answer behind the end. -/
def digitsFrom? (bytes : List UInt8) (start : Nat) : Option Nat :=
  if start ≤ bytes.length then some ((bytes.drop start).takeWhile isDigitByte).length else none

/-- How many digits stand after a point at the position, and where they end. -/
def fractionAt? (bytes : List UInt8) (start : Nat) : Option (Nat × Nat) :=
  if bytes[start]? = some '.'.toUInt8 then do
    let count ← digitsFrom? bytes (start + 1)
    return (count, start + 1 + count)
  else some (0, start)

/-- How many bytes a sign at the position takes. -/
def signAt (bytes : List UInt8) (start : Nat) : Nat :=
  if bytes[start]? = some '+'.toUInt8 ∨ bytes[start]? = some '-'.toUInt8 then 1 else 0

/-- Where an exponent at the position ends, if there is one. -/
def exponentAt? (bytes : List UInt8) (start : Nat) : Option Nat :=
  if bytes[start]? = some 'e'.toUInt8 ∨ bytes[start]? = some 'E'.toUInt8 then do
    let digits := start + 1 + signAt bytes (start + 1)
    let count ← digitsFrom? bytes digits
    return if 0 < count then digits + count else start
  else some start

/-- How many bytes the numeral at the start takes, if there is one. -/
def numeralLength? (bytes : List UInt8) : Option (Option Nat) := do
  let whole ← digitsFrom? bytes 0
  let (fraction, mantissa) ← fractionAt? bytes whole
  if whole + fraction = 0 then return none
  else some <$> exponentAt? bytes mantissa

variable (before rest : List Char)

theorem digitsFrom?_bytesOf : digitsFrom? (bytesOf (before ++ rest)) (bytesOf before).length =
    some (bytesOf (spanDigits rest).1).length := by
  rw [digitsFrom?, bytesOf_append, if_pos (by simp), List.drop_left, takeWhile_bytesOf]
  rfl

/-- Past a character of ASCII, the next position is that of the text behind it. -/
theorem length_bytesOf_succ {c : Char} (hc : c.toNat < 128) :
    (bytesOf before).length + 1 = (bytesOf (before ++ [c])).length := by
  rcases utf8EncodeChar_cases c with ⟨-, h⟩ | ⟨hge, -⟩
  · rw [bytesOf_append, List.length_append, bytesOf_cons, h]
    rfl
  · omega

theorem fractionAt?_bytesOf : ∃ text, rest = text ++ (fraction rest).2 ∧
    fractionAt? (bytesOf (before ++ rest)) (bytesOf before).length =
      some ((bytesOf (fraction rest).1).length, (bytesOf (before ++ text)).length) := by
  have hpoint := getElem?_bytesOf (a := '.') (by decide) before rest
  rw [fractionAt?]
  by_cases h : rest.head? = some '.'
  · rw [if_pos (hpoint.2 h)]
    obtain ⟨after, rfl⟩ : ∃ after, rest = '.' :: after := List.head?_eq_some_iff.1 h
    have hcount := digitsFrom?_bytesOf (before ++ ['.']) after
    rw [← List.append_cons] at hcount
    refine ⟨'.' :: (spanDigits after).1, ?_, ?_⟩
    · exact congrArg ('.' :: ·) List.takeWhile_append_dropWhile.symm
    · rw [length_bytesOf_succ before (c := '.') (by decide), hcount,
        List.append_cons before '.' (spanDigits after).1, bytesOf_append (before ++ ['.']),
        List.length_append]
      rfl
  · rw [if_neg (mt hpoint.1 h)]
    have hfraction : fraction rest = ([], rest) := by
      unfold fraction
      split
      · exact absurd rfl h
      · rfl
    rw [hfraction]
    exact ⟨[], rfl, by rw [List.append_nil]; rfl⟩

theorem signAt_bytesOf : ∃ text, rest = text ++ (sign rest).2 ∧
    (bytesOf before).length + signAt (bytesOf (before ++ rest)) (bytesOf before).length =
      (bytesOf (before ++ text)).length := by
  have hsign := or_congr (getElem?_bytesOf (a := '+') (by decide) before rest)
    (getElem?_bytesOf (a := '-') (by decide) before rest)
  rw [signAt]
  unfold sign
  split
  · exact ⟨['-'], rfl, (if_pos (hsign.2 (.inr rfl))).symm ▸ length_bytesOf_succ before (by decide)⟩
  · exact ⟨['+'], rfl, (if_pos (hsign.2 (.inl rfl))).symm ▸ length_bytesOf_succ before (by decide)⟩
  · rename_i hminus hplus
    refine ⟨[], rfl, ?_⟩
    rw [if_neg (mt hsign.1 ?_), List.append_nil, Nat.add_zero]
    rintro (h | h) <;> obtain ⟨after, rfl⟩ := List.head?_eq_some_iff.1 h
    · exact hplus after rfl
    · exact hminus after rfl

theorem exponentAt?_bytesOf : ∃ text, rest = text ++ (exponent rest).2 ∧
    exponentAt? (bytesOf (before ++ rest)) (bytesOf before).length =
      some (bytesOf (before ++ text)).length := by
  have hletter := or_congr (getElem?_bytesOf (a := 'e') (by decide) before rest)
    (getElem?_bytesOf (a := 'E') (by decide) before rest)
  rw [exponentAt?]
  cases rest with
  | nil => exact ⟨[], rfl, by rw [if_neg (mt hletter.1 (by simp)), List.append_nil]⟩
  | cons mark after =>
    rw [List.head?_cons, Option.some_inj, Option.some_inj] at hletter
    rw [exponent]
    by_cases hmark : mark = 'e' ∨ mark = 'E'
    · have hascii : mark.toNat < 128 := by rcases hmark with rfl | rfl <;> decide
      rw [if_pos hmark, if_pos (hletter.2 hmark), length_bytesOf_succ before hascii]
      obtain ⟨signText, hafter, hsign⟩ := signAt_bytesOf (before ++ [mark]) after
      have hcount := digitsFrom?_bytesOf (before ++ [mark] ++ signText) (sign after).2
      rw [List.append_assoc (before ++ [mark]), ← hafter] at hcount
      rw [← List.append_cons] at hsign hcount
      have hspan :
          (sign after).2 = (spanDigits (sign after).2).1 ++ (spanDigits (sign after).2).2 :=
        List.takeWhile_append_dropWhile.symm
      rw [hspan, ← List.append_assoc] at hafter
      simp only [hsign, hcount]
      generalize spanDigits (sign after).2 = span at *
      obtain ⟨digits, tail⟩ := span
      cases digits with
      | nil => exact ⟨[], rfl, by rw [List.append_nil]; rfl⟩
      | cons c cs =>
        have hpos : 0 < (bytesOf (c :: cs)).length :=
          List.length_pos_iff.2 (mt bytesOf_eq_nil.1 (List.cons_ne_nil c cs))
        refine ⟨mark :: (signText ++ c :: cs), congrArg (mark :: ·) hafter, ?_⟩
        rw [List.append_cons before mark (signText ++ c :: cs),
          ← List.append_assoc (before ++ [mark]), bytesOf_append (before ++ [mark] ++ signText),
          List.length_append]
        exact congrArg some (if_pos hpos)
    · rw [if_neg hmark, if_neg (mt hletter.1 hmark)]
      exact ⟨[], rfl, by rw [List.append_nil]⟩

/-- **The length is that of the numeral that is read**, and no position lies behind the end. -/
theorem numeralLength?_bytesOf (cs : List Char) : numeralLength? (bytesOf cs) =
    some ((read? cs).map fun (_, rest) => (bytesOf cs).length - (bytesOf rest).length) := by
  have hspan : (spanDigits cs).1 ++ (spanDigits cs).2 = cs := List.takeWhile_append_dropWhile
  obtain ⟨point, hpoint, hfraction⟩ := fractionAt?_bytesOf (spanDigits cs).1 (spanDigits cs).2
  obtain ⟨mark, hmark, hexponent⟩ :=
    exponentAt?_bytesOf ((spanDigits cs).1 ++ point) (fraction (spanDigits cs).2).2
  rw [List.append_assoc, ← hpoint, hspan] at hexponent
  rw [hspan] at hfraction
  have hwhole : digitsFrom? (bytesOf cs) 0 = _ := digitsFrom?_bytesOf [] cs
  have hcount :
      (bytesOf (spanDigits cs).1).length + (bytesOf (fraction (spanDigits cs).2).1).length = 0 ↔
        (spanDigits cs).1 ++ (fraction (spanDigits cs).2).1 = [] := by
    rw [← List.length_append, ← bytesOf_append, List.length_eq_zero_iff, bytesOf_eq_nil]
  simp only [numeralLength?, hwhole, hfraction, Option.bind_eq_bind, Option.bind_some]
  by_cases hdigit : (spanDigits cs).1 ++ (fraction (spanDigits cs).2).1 = []
  · have hread : read? cs = none := by
      simp only [read?]
      exact if_pos (by simpa [List.append_eq_nil_iff] using hdigit)
    rw [if_pos (hcount.2 hdigit), hread]
    rfl
  · have hcs : cs = (spanDigits cs).1 ++ point ++ mark ++
        (exponent (fraction (spanDigits cs).2).2).2 := by
      rw [List.append_assoc, ← hmark, List.append_assoc, ← hpoint, hspan]
    have hlength := congrArg (fun text => (bytesOf text).length) hcs
    simp only [bytesOf_append _ (exponent _).2, List.length_append] at hlength
    rw [if_neg (mt hcount.1 hdigit), hexponent, read?_of_digit hdigit]
    refine congrArg (some ∘ some) ?_
    simp only
    omega

theorem numeralLength?_eq_some_iff (cs : List Char) :
    ∃ length, numeralLength? (bytesOf cs) = some length ∧
      ∀ n, length = some n ↔ ∃ text d, IsLongest cs text d ∧ (bytesOf text).length = n := by
  refine ⟨_, numeralLength?_bytesOf cs, fun n => ?_⟩
  rw [Option.map_eq_some_iff]
  constructor
  · rintro ⟨⟨d, rest⟩, hread, rfl⟩
    obtain ⟨text, rfl, hlongest⟩ := read?_eq_some_iff.1 hread
    exact ⟨text, d, hlongest, by simp only [bytesOf_append, List.length_append, Nat.add_sub_cancel]⟩
  · rintro ⟨text, d, hlongest, rfl⟩
    obtain ⟨rest, rfl⟩ := hlongest.isPrefix
    refine ⟨(d, rest), read?_eq_some_iff.2 ⟨text, rfl, hlongest⟩, ?_⟩
    simp only [bytesOf_append, List.length_append, Nat.add_sub_cancel]

end Numeral

/-! ## Cutting off the number -/

/-- The text up to a position, if that is the end of a character. -/
def sliceTo? : List Char → Nat → Option (List Char)
  | _, 0 => some []
  | [], _ + 1 => none
  | c :: cs, n + 1 =>
    if c.utf8Size ≤ n + 1 then (sliceTo? cs (n + 1 - c.utf8Size)).map (c :: ·) else none

/-- A text is cut off whole, before whatever stands behind it. -/
theorem sliceTo?_append :
    ∀ text rest : List Char, sliceTo? (text ++ rest) (bytesOf text).length = some text
  | [], rest => by cases rest <;> rfl
  | c :: cs, rest => by
    have hlength : (bytesOf (c :: cs)).length = c.utf8Size + (bytesOf cs).length := by
      rw [bytesOf_cons, List.length_append, String.length_utf8EncodeChar]
    have hpos := c.utf8Size_pos
    obtain ⟨n, hn⟩ := Nat.exists_eq_succ_of_ne_zero (by omega : (bytesOf (c :: cs)).length ≠ 0)
    rw [hn, List.cons_append, sliceTo?, if_pos (by omega),
      show n + 1 - c.utf8Size = (bytesOf cs).length by omega, sliceTo?_append cs rest]
    rfl

namespace Binary64

open Numeral

/-- Is the number the correctly rounded one of that sign? -/
structure Rounds (negative : Bool) (x : ℚ) (v : Binary64) : Prop where
  negative_eq : v.negative = negative
  isNearest : IsNearest (x * unitsPerOne) v.pattern

theorem rounds_nearest (negative : Bool) (d : Decimal) :
    (d.nearest negative).Rounds negative d.value :=
  ⟨rfl, d.nearestPattern_isNearest⟩

/-- There is one correctly rounded number. -/
theorem Rounds.unique {negative : Bool} {x : ℚ} {v w : Binary64} (hv : v.Rounds negative x)
    (hw : w.Rounds negative x) : v = w := by
  obtain ⟨_, pattern, _⟩ := v
  obtain ⟨_, pattern', _⟩ := w
  obtain rfl := hv.negative_eq
  obtain rfl := hw.negative_eq
  obtain rfl : pattern = pattern' := hv.isNearest.unique hw.isNearest
  rfl

/-- The number that a text begins with: an infinity, or the longest numeral, correctly rounded. -/
inductive Begins : List Char → Binary64 → Prop
  | infinity {sign : List Char} {negative : Bool} (hsign : SignOf sign negative)
      (rest : List Char) :
      Begins (sign ++ ("Infinity".toList ++ rest)) (infinity.withSign negative)
  | numeral {sign body text : List Char} {negative : Bool} {d : Decimal} {v : Binary64}
      (hsign : SignOf sign negative) (htext : IsLongest body text d)
      (hv : v.Rounds negative d.value) :
      Begins (sign ++ body) v

/-- Reads a number by positions: the text up to the end of the numeral is cut off and parsed. -/
def scan? (parse : List Char → Option Binary64) (text : String) : Option (Option Binary64) :=
  let token := text.toList.dropWhile isBlank
  let unsigned := (sign token).2
  let signLength := (bytesOf token).length - (bytesOf unsigned).length
  if "Infinity".toList.isPrefixOf unsigned then
    some (some (infinity.withSign (token.head? = some '-')))
  else do
    match ← numeralLength? (bytesOf unsigned) with
    | none => return none
    | some length =>
      let numeral ← sliceTo? token (signLength + length)
      return parse numeral

/-- Does the parser take every numeral, with or without a sign, and round it correctly? -/
def Parses (parse : List Char → Option Binary64) : Prop :=
  ∀ sign negative text d, SignOf sign negative → Denotes text d →
    ∃ v, parse (sign ++ text) = some v ∧ v.Rounds negative d.value

theorem sign_fst (cs : List Char) : (sign cs).1 = decide (cs.head? = some '-') := by
  unfold sign
  split
  · rfl
  · rfl
  · rename_i hminus _
    refine (decide_eq_false fun h => ?_).symm
    obtain ⟨rest, rfl⟩ := List.head?_eq_some_iff.1 h
    exact hminus rest rfl

/-- **Every position is the end of a character, and what is cut off there is parsed**: reading by
positions comes to the same. -/
theorem scan?_eq {parse : List Char → Option Binary64} (hparse : Parses parse) (text : String) :
    scan? parse text = some (read? text) := by
  simp only [scan?, read?, ← sign_fst]
  obtain ⟨signText, htoken, hsign⟩ := exists_sign_eq (text.toList.dropWhile isBlank)
  generalize text.toList.dropWhile isBlank = token at *
  split
  · rfl
  rw [numeralLength?_bytesOf]
  cases hread : Numeral.read? (sign token).2 with
  | none => rfl
  | some result =>
    obtain ⟨numeral, hunsigned, hnumeral⟩ := denotes_of_read? hread
    obtain ⟨v, hv, hrounds⟩ := hparse signText _ numeral _ hsign hnumeral
    have hcut := sliceTo?_append (signText ++ numeral) result.2
    rw [List.append_assoc, ← hunsigned, ← htoken] at hcut
    have hlength := congrArg (fun cs => (bytesOf cs).length) htoken
    have hlength' := congrArg (fun cs => (bytesOf cs).length) hunsigned
    simp only [bytesOf_append, List.length_append] at hlength hlength'
    have hposition : (bytesOf token).length - (bytesOf (sign token).2).length +
        ((bytesOf (sign token).2).length - (bytesOf result.2).length) =
          (bytesOf (signText ++ numeral)).length := by
      rw [bytesOf_append, List.length_append]
      omega
    simp only [Option.map_some, Option.bind_eq_bind, Option.bind_some, hposition, hcut, hv,
      hrounds.unique (rounds_nearest _ _)]
    rfl

/-! ## The number at the start of a text -/

/-- What stands behind a sign is no sign. -/
theorem sign_append_of_denotes {signText body text : List Char} {negative : Bool} {d : Decimal}
    (hsign : SignOf signText negative) (hstart : text <+: body) (htext : Denotes text d) :
    sign (signText ++ body) = (negative, body) := by
  obtain ⟨rest, rfl⟩ := hstart
  obtain ⟨c, cs, rfl, hc⟩ := htext.head
  refine sign_append hsign fun c' hc' => ?_
  obtain rfl : c = c' := Option.some.inj hc'
  constructor <;> rintro rfl <;> exact absurd hc (by decide)

/-- No numeral begins an infinity. -/
theorem not_infinity_of_denotes {body text : List Char} {d : Decimal} (hstart : text <+: body)
    (htext : Denotes text d) : ¬"Infinity".toList.isPrefixOf body = true := by
  obtain ⟨rest, rfl⟩ := hstart
  obtain ⟨c, cs, rfl, hc⟩ := htext.head
  rw [List.isPrefixOf_iff_prefix, List.cons_append]
  intro h
  obtain rfl : 'I' = c := (List.cons_prefix_cons.1 h).1
  exact absurd hc (by decide)

/-- **What is read is what the text begins with**, behind the blanks. -/
theorem read?_eq_some_iff_begins (text : String) (v : Binary64) :
    read? text = some v ↔ Begins (text.toList.dropWhile isBlank) v := by
  rw [read?]
  generalize text.toList.dropWhile isBlank = token
  constructor
  · intro h
    obtain ⟨signText, htoken, hsign⟩ := exists_sign_eq token
    rw [htoken]
    generalize sign token = signed at *
    obtain ⟨negative, body⟩ := signed
    simp only at h hsign ⊢
    split at h
    · rename_i hinfinity
      obtain ⟨rest, rfl⟩ := List.isPrefixOf_iff_prefix.1 hinfinity
      exact Option.some.inj h ▸ .infinity hsign rest
    · obtain ⟨⟨d, rest⟩, hread, rfl⟩ := Option.map_eq_some_iff.1 h
      obtain ⟨numeral, -, hlongest⟩ := read?_eq_some_iff.1 hread
      exact .numeral hsign hlongest (rounds_nearest _ _)
  · intro h
    cases h with
    | infinity hsign rest =>
      have hsigned : sign (_ ++ ("Infinity".toList ++ rest)) = _ := sign_append hsign fun c hc => by
        obtain rfl : 'I' = c := Option.some.inj hc
        decide
      simp only [hsigned]
      exact if_pos (List.isPrefixOf_iff_prefix.2 (List.prefix_append _ _))
    | numeral hsign htext hv =>
      obtain ⟨rest, hbody⟩ := htext.isPrefix
      have hread := read?_eq_some_iff.2 ⟨_, hbody.symm, htext⟩
      simp only [sign_append_of_denotes hsign htext.isPrefix htext.denotes]
      rw [if_neg (not_infinity_of_denotes htext.isPrefix htext.denotes), hread, Option.map_some,
        hv.unique (rounds_nearest _ _)]

theorem exists_begins_iff (cs : List Char) : (∃ v, Begins cs v) ↔
    ∃ sign negative body, SignOf sign negative ∧ cs = sign ++ body ∧
      ("Infinity".toList <+: body ∨ ∃ text d, text <+: body ∧ Denotes text d) := by
  constructor
  · rintro ⟨v, h⟩
    cases h with
    | infinity hsign rest => exact ⟨_, _, _, hsign, rfl, .inl (List.prefix_append _ _)⟩
    | numeral hsign htext => exact ⟨_, _, _, hsign, rfl, .inr ⟨_, _, htext.isPrefix, htext.denotes⟩⟩
  · rintro ⟨signText, negative, body, hsign, rfl, ⟨rest, rfl⟩ | ⟨text, d, hstart, htext⟩⟩
    · exact ⟨_, .infinity hsign rest⟩
    · cases hread : Numeral.read? body with
      | none => exact absurd htext (read?_eq_none_iff.1 hread text d hstart)
      | some result =>
        obtain ⟨numeral, -, hlongest⟩ := read?_eq_some_iff.1 hread
        exact ⟨_, .numeral hsign hlongest (rounds_nearest negative _)⟩

/-- **A number is read from the longest numeral.** What is read is what the text begins with behind
its blanks, and there is nothing to read only where the text begins with no infinity and no numeral;
the length of a numeral in bytes is that of the longest one. Reading by positions never leaves the
bytes nor divides a character, and the parser refuses nothing that it is given. -/
theorem read?_longest {parse : List Char → Option Binary64} (hparse : Parses parse)
    (text : String) :
    (∀ v, read? text = some v ↔ Begins (text.toList.dropWhile isBlank) v) ∧
      ((∃ v, read? text = some v) ↔
        ∃ sign negative body, SignOf sign negative ∧ text.toList.dropWhile isBlank = sign ++ body ∧
          ("Infinity".toList <+: body ∨ ∃ numeral d, numeral <+: body ∧ Denotes numeral d)) ∧
      (∀ cs, ∃ length, numeralLength? (bytesOf cs) = some length ∧
        ∀ n, length = some n ↔ ∃ numeral d, IsLongest cs numeral d ∧ (bytesOf numeral).length = n) ∧
      scan? parse text = some (read? text) := by
  refine ⟨read?_eq_some_iff_begins text, ?_, numeralLength?_eq_some_iff, scan?_eq hparse text⟩
  rw [← exists_begins_iff]
  exact exists_congr (read?_eq_some_iff_begins text)

/-- The number that a whole text is: an optional sign, and a numeral with nothing behind it. -/
def parseWhole? (cs : List Char) : Option Binary64 :=
  match Numeral.read? (sign cs).2 with
  | some (d, []) => some (d.nearest (sign cs).1)
  | _ => none

theorem parses_parseWhole? : Parses parseWhole? := by
  intro signText negative text d hsign htext
  have hsigned := sign_append_of_denotes hsign (List.prefix_rfl (l := text)) htext
  have hread : Numeral.read? (text ++ []) = _ := read?_append htext fun _ h => by cases h
  rw [List.append_nil] at hread
  refine ⟨d.nearest negative, ?_, rounds_nearest negative d⟩
  rw [parseWhole?, hsigned, hread]

theorem read?_longest_behind_blank : Parses parseWhole? ∧
    scan? parseWhole? "\u2003-.5E-1é" = some (read? "\u2003-.5E-1é") ∧
    (read? "\u2003-.5E-1é").map toBits = some 0xBFA999999999999A :=
  ⟨parses_parseWhole?, (read?_longest parses_parseWhole? "\u2003-.5E-1é").2.2.2, by decide +kernel⟩

end Binary64

end RpnTape
