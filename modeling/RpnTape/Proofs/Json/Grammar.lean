import RpnTape.Json.Basic
import RpnTape.Proofs.Number.Written

/-!
# Proofs/Json/Grammar — the grammar of JSON, and that documents are printed in it

`Denotes text value` is the grammar of JSON texts together with what they stand for. Its relations
have the text that is left as their last argument, so that no text has to be taken apart: an item,
for instance, is read up to the comma behind it.

A number stands for the text that it is written as; what it counts is for its reader to say.
**Whatever is printed is in the grammar**, and stands for the document (`denotes_text`).
-/

namespace RpnTape

namespace Json

/-- What a JSON text stands for. -/
inductive Value where
  | null
  | boolean (b : Bool)
  /-- A number, as it is written. -/
  | number (text : List Char)
  | string (text : String)
  | array (items : List Value)
  /-- Fields in order. -/
  | object (fields : List (String × Value))

/-! ## The grammar -/

/-- Can the character stand between the parts of a document? -/
def isSpace (c : Char) : Bool := [' ', '\t', '\n', '\r'].contains c

/-- Is there nothing but space before the rest? -/
def Skips (cs rest : List Char) : Prop :=
  ∃ space, (∀ c ∈ space, isSpace c = true) ∧ cs = space ++ rest

/-- A strict numeral, with a minus sign or without. -/
inductive IsNumber : List Char → Prop
  | plain {text : List Char} {x : ℚ} (h : Numeral.Strict text x) : IsNumber text
  | negative {text : List Char} {x : ℚ} (h : Numeral.Strict text x) : IsNumber ('-' :: text)

/-- The letters that stand for a character behind a backslash. -/
def escapes : List (Char × Char) :=
  [('"', '"'), ('\\', '\\'), ('/', '/'), ('b', '\x08'), ('f', '\x0c'), ('n', '\n'), ('r', '\r'),
    ('t', '\t')]

/-- The value of a hexadecimal digit. -/
def hexValue? (c : Char) : Option Nat :=
  if c.isDigit then some (c.toNat - '0'.toNat)
  else if 'a' ≤ c ∧ c ≤ 'f' then some (c.toNat - 'a'.toNat + 10)
  else if 'A' ≤ c ∧ c ≤ 'F' then some (c.toNat - 'A'.toNat + 10)
  else none

/-- The code of four hexadecimal digits. -/
def code? (a b c d : Char) : Option Nat := do
  return (((← hexValue? a) * 16 + (← hexValue? b)) * 16 + (← hexValue? c)) * 16 + (← hexValue? d)

/-- Is this the first half of a pair of codes? -/
def isHighHalf (n : Nat) : Bool := 0xD800 ≤ n && n < 0xDC00

/-- Is this the second half of a pair of codes? -/
def isLowHalf (n : Nat) : Bool := 0xDC00 ≤ n && n < 0xE000

/-- How one character is written in a string: as itself, by a letter, by its
code, or by two halves. -/
inductive CharOf : List Char → Char → Prop
  | plain {c : Char} (hcode : 0x20 ≤ c.toNat) (hquote : c ≠ '"') (hbackslash : c ≠ '\\') :
      CharOf [c] c
  | letter {e c : Char} (h : (e, c) ∈ escapes) : CharOf ['\\', e] c
  | code {a b c d : Char} {n : Nat} (hcode : code? a b c d = some n) (hhigh : isHighHalf n = false)
      (hlow : isLowHalf n = false) : CharOf ['\\', 'u', a, b, c, d] (Char.ofNat n)
  | pair {a b c d a' b' c' d' : Char} {n n' : Nat} (hcode : code? a b c d = some n)
      (hhigh : isHighHalf n = true) (hcode' : code? a' b' c' d' = some n')
      (hlow : isLowHalf n' = true) :
      CharOf ['\\', 'u', a, b, c, d, '\\', 'u', a', b', c', d']
        (Char.ofNat (0x10000 + (n - 0xD800) * 0x400 + (n' - 0xDC00)))

/-- The characters of a string, up to its closing quote. -/
inductive Chars : List Char → List Char → List Char → Prop
  | close {rest : List Char} : Chars ('"' :: rest) [] rest
  | next {text cs ds rest : List Char} {c : Char} (hc : CharOf text c) (h : Chars cs ds rest) :
      Chars (text ++ cs) (c :: ds) rest

/-- The name of a field, up to its value. -/
inductive Key : List Char → String → List Char → Prop
  | mk {cs ds es fs rest text : List Char} (hbefore : Skips cs ('"' :: ds))
      (htext : Chars ds text es) (hcolon : Skips es (':' :: fs)) (hafter : Skips fs rest) :
      Key cs (String.ofList text) rest

mutual

/-- A value, and what is left behind it. -/
inductive Reads : List Char → Value → List Char → Prop
  | null {rest : List Char} : Reads ("null".toList ++ rest) .null rest
  | boolean {b : Bool} {rest : List Char} :
      Reads ((if b then "true".toList else "false".toList) ++ rest) (.boolean b) rest
  | number {text rest : List Char} (h : IsNumber text) : Reads (text ++ rest) (.number text) rest
  | string {cs text rest : List Char} (h : Chars cs text rest) :
      Reads ('"' :: cs) (.string (String.ofList text)) rest
  | noItems {cs rest : List Char} (h : Skips cs (']' :: rest)) : Reads ('[' :: cs) (.array []) rest
  | array {cs rest : List Char} {items : List Value} (h : Items cs items rest) :
      Reads ('[' :: cs) (.array items) rest
  | noFields {cs rest : List Char} (h : Skips cs ('\x7d' :: rest)) :
      Reads ('\x7b' :: cs) (.object []) rest
  | object {cs rest : List Char} {fields : List (String × Value)} (h : Fields cs fields rest) :
      Reads ('\x7b' :: cs) (.object fields) rest

/-- The items of an array, at least one, up to its closing bracket. -/
inductive Items : List Char → List Value → List Char → Prop
  | last {cs ds es rest : List Char} {v : Value} (hbefore : Skips cs ds) (h : Reads ds v es)
      (hafter : Skips es (']' :: rest)) : Items cs [v] rest
  | more {cs ds es fs rest : List Char} {v : Value} {vs : List Value} (hbefore : Skips cs ds)
      (h : Reads ds v es) (hafter : Skips es (',' :: fs)) (hrest : Items fs vs rest) :
      Items cs (v :: vs) rest

/-- The fields of an object, at least one, up to its closing brace. -/
inductive Fields : List Char → List (String × Value) → List Char → Prop
  | last {cs ds es rest : List Char} {key : String} {v : Value} (hkey : Key cs key ds)
      (h : Reads ds v es) (hafter : Skips es ('\x7d' :: rest)) : Fields cs [(key, v)] rest
  | more {cs ds es fs rest : List Char} {key : String} {v : Value} {fields : List (String × Value)}
      (hkey : Key cs key ds) (h : Reads ds v es) (hafter : Skips es (',' :: fs))
      (hrest : Fields fs fields rest) : Fields cs ((key, v) :: fields) rest

end

/-- A JSON text, and what it stands for. -/
def Denotes (text : String) (value : Value) : Prop :=
  ∃ cs rest, Skips text.toList cs ∧ Reads cs value rest ∧ Skips rest []

/-! ## What is printed is in the grammar -/

mutual

/-- What the text of a document stands for. -/
def value : Json → Value
  | null => .null
  | natural n => .number n.repr.toList
  | double v => .number v.documentText.toList
  | string text => .string text
  | array items => .array (values items)
  | object fields => .object (fieldValues fields)

/-- What the texts of the items stand for. -/
def values : List Json → List Value
  | [] => []
  | item :: rest => item.value :: values rest

/-- What the texts of the fields stand for. -/
def fieldValues : List (String × Json) → List (String × Value)
  | [] => []
  | (key, item) :: rest => (key, item.value) :: fieldValues rest

end

theorem code?_control : ∀ n < 0x20,
    code? '0' '0' (Nat.digitChar (n / 16)) (Nat.digitChar (n % 16)) = some n := by
  decide

theorem charOf_escapedChar (c : Char) : CharOf (escapedChar c) c := by
  unfold escapedChar
  split
  case h_8 hquote hbackslash _ _ _ _ _ =>
    split
    · rename_i hlt
      have h := CharOf.code (code?_control c.toNat hlt) (by simp [isHighHalf]; omega)
        (by simp [isLowHalf]; omega)
      rwa [Char.ofNat_toNat] at h
    · exact .plain (by omega) hquote hbackslash
  all_goals exact .letter (by decide)

theorem chars_escaped : ∀ cs rest : List Char, Chars (cs.flatMap escapedChar ++ '"' :: rest) cs rest
  | [], _ => .close
  | c :: cs, rest => by
    rw [List.flatMap_cons, List.append_assoc]
    exact .next (charOf_escapedChar c) (chars_escaped cs rest)

theorem toList_stringText (text : String) (rest : List Char) :
    (stringText text).toList ++ rest = '"' :: (text.toList.flatMap escapedChar ++ '"' :: rest) := by
  simp [stringText]

theorem reads_stringText (text : String) (rest : List Char) :
    Reads ((stringText text).toList ++ rest) (.string text) rest := by
  have h := Reads.string (chars_escaped text.toList rest)
  rwa [String.ofList_toList, ← toList_stringText] at h

theorem isReadable_documentStyle : documentStyle.IsReadable := ⟨.inr rfl, .inr rfl⟩

theorem isNumber_repr (n : ℕ) : IsNumber n.repr.toList := by
  rw [Nat.repr_eq_ofList_toDigits, String.toList_ofList, ← List.append_nil (Nat.toDigits 10 n)]
  exact .plain (.mk (Numeral.isWhole_toDigits n) .none (absurd rfl) .none)

/-- A zero has a digit behind its point. -/
theorem strict_zero : Numeral.Strict ['0', '.', '0'] 0 := by
  have hzero : Numeral.IsWhole ['0'] := ⟨List.forall_mem_singleton.2 (by decide), .inl rfl⟩
  refine .of_eq rfl hzero (.point hzero.1) (fun _ => List.cons_ne_nil _ _) .none ?_
  exact mul_eq_zero_of_left Nat.cast_zero _

/-- A double is written as a sign and a strict numeral; if it is finite, it is the nearest to it. -/
theorem exists_strict_documentText (v : Binary64) : ∃ magnitude x,
    v.documentText.toList = (if v.negative then ['-'] else []) ++ magnitude ∧
      Numeral.Strict magnitude x ∧ (v.isFinite = true → IsNearest (x * unitsPerOne) v.pattern) := by
  have hsigned : ∀ magnitude, (v.signed magnitude).toList =
      (if v.negative then ['-'] else []) ++ magnitude := by
    intro magnitude
    rw [Binary64.signed, String.toList_ofList]
    split <;> rfl
  rw [Binary64.documentText, hsigned]
  by_cases hzero : v.isZero = true
  · rw [if_pos hzero]
    refine ⟨_, 0, rfl, strict_zero, fun _ => ?_⟩
    have hself := IsNearest.self (Nat.zero_le infinitePattern)
    rwa [patternUnits_zero, Nat.cast_zero, ← zero_mul (unitsPerOne : ℚ),
      ← of_decide_eq_true hzero] at hself
  · rw [if_neg hzero]
    rw [Bool.not_eq_true] at hzero
    refine ⟨_, _, rfl, Binary64.strict_writtenMagnitude isReadable_documentStyle hzero,
      fun hfinite => ?_⟩
    exact Decimal.isNearest_shortest _ (of_decide_eq_true hfinite).le

theorem isNumber_documentText (v : Binary64) : IsNumber v.documentText.toList := by
  obtain ⟨magnitude, x, htext, hstrict, -⟩ := exists_strict_documentText v
  rw [htext]
  split
  · exact .negative hstrict
  · exact .plain hstrict

theorem skips_margin (depth : ℕ) (rest : List Char) :
    Skips ('\n' :: ((margin depth).toList ++ rest)) rest := by
  refine ⟨'\n' :: (margin depth).toList, List.forall_mem_cons.2 ⟨by decide, fun c hc => ?_⟩, rfl⟩
  rw [margin, String.toList_ofList] at hc
  rw [List.eq_of_mem_replicate hc]
  decide

theorem skips_self (cs : List Char) : Skips cs cs := ⟨[], List.forall_mem_nil _, rfl⟩

/-- What is printed behind an opening bracket, and what follows. -/
def behindBracket (closing : Char) (depth : ℕ) (lines : List String) (rest : List Char) :
    List Char :=
  '\n' :: ((",\n".intercalate (lines.map (margin (depth + 1) ++ ·))).toList ++
    '\n' :: ((margin depth).toList ++ closing :: rest))

section Brackets

variable (closing : Char) (depth : ℕ) (line : String) (rest : List Char)

theorem behindBracket_singleton : behindBracket closing depth [line] rest =
    '\n' :: ((margin (depth + 1)).toList ++
      (line.toList ++ '\n' :: ((margin depth).toList ++ closing :: rest))) := by
  simp [behindBracket]

theorem behindBracket_cons_cons (line' : String) (lines : List String) :
    behindBracket closing depth (line :: line' :: lines) rest =
      '\n' :: ((margin (depth + 1)).toList ++
        (line.toList ++ ',' :: behindBracket closing depth (line' :: lines) rest)) := by
  simp [behindBracket, String.intercalate_cons_cons]

theorem toList_bracketed_nil (opening : Char) :
    (bracketed (String.singleton opening) (String.singleton closing) depth []).toList ++ rest =
      opening :: closing :: rest := by
  simp [bracketed]

theorem toList_bracketed (opening : Char) {lines : List String} (hlines : lines ≠ []) :
    (bracketed (String.singleton opening) (String.singleton closing) depth lines).toList ++ rest =
      opening :: behindBracket closing depth lines rest := by
  have hempty : lines.isEmpty = false := by simpa using hlines
  simp [bracketed, hempty, behindBracket]

end Brackets

/-- A field's name, with its colon and the space behind it. -/
theorem key_stringText (key : String) (depth : ℕ) (rest : List Char) :
    Key ('\n' :: ((margin depth).toList ++ ((stringText key).toList ++ ':' :: ' ' :: rest)))
      key rest := by
  have hspace : Skips (' ' :: rest) rest := ⟨[' '], List.forall_mem_singleton.2 (by decide), rfl⟩
  have h := Key.mk (skips_margin depth _) (chars_escaped key.toList _) (skips_self _) hspace
  rwa [String.ofList_toList, ← toList_stringText] at h

mutual

/-- **A document is printed in the grammar**, whatever follows it. -/
theorem reads_textAt : ∀ (document : Json) (depth : ℕ) (rest : List Char),
    Reads ((textAt depth document).toList ++ rest) document.value rest
  | null, _, _ => .null
  | natural n, _, _ => .number (isNumber_repr n)
  | double v, _, _ => .number (isNumber_documentText v)
  | string text, _, rest => reads_stringText text rest
  | array items, depth, rest => by
    have h := items_behindBracket items
    rw [textAt, value]
    cases items with
    | nil => exact toList_bracketed_nil ']' depth rest '[' ▸ .noItems (skips_self _)
    | cons item items =>
      have hlines : itemTexts (depth + 1) (item :: items) ≠ [] := List.cons_ne_nil _ _
      have hprinted := toList_bracketed ']' depth rest '[' hlines
      exact hprinted ▸ .array (h (List.cons_ne_nil _ _) depth rest)
  | object fields, depth, rest => by
    have h := fields_behindBracket fields
    rw [textAt, value]
    cases fields with
    | nil => exact toList_bracketed_nil '\x7d' depth rest '\x7b' ▸ .noFields (skips_self _)
    | cons field fields =>
      have hlines : fieldTexts (depth + 1) (field :: fields) ≠ [] := List.cons_ne_nil _ _
      have hprinted := toList_bracketed '\x7d' depth rest '\x7b' hlines
      exact hprinted ▸ .object (h (List.cons_ne_nil _ _) depth rest)

theorem items_behindBracket : ∀ (items : List Json), items ≠ [] → ∀ (depth : ℕ) (rest : List Char),
    Items (behindBracket ']' depth (itemTexts (depth + 1) items) rest) (values items) rest
  | [], h, _, _ => absurd rfl h
  | [item], _, depth, rest => by
    have h := reads_textAt item (depth + 1)
    rw [itemTexts, itemTexts, behindBracket_singleton]
    exact .last (skips_margin _ _) (h _) (skips_margin _ _)
  | item :: item' :: items, _, depth, rest => by
    have h := reads_textAt item (depth + 1)
    have hrest := items_behindBracket (item' :: items) (List.cons_ne_nil _ _) depth rest
    rw [itemTexts] at hrest ⊢
    rw [itemTexts, behindBracket_cons_cons]
    exact .more (skips_margin _ _) (h _) (skips_self _) hrest

theorem fields_behindBracket : ∀ (fields : List (String × Json)), fields ≠ [] →
    ∀ (depth : ℕ) (rest : List Char),
      Fields (behindBracket '\x7d' depth (fieldTexts (depth + 1) fields) rest)
        (fieldValues fields) rest
  | [], h, _, _ => absurd rfl h
  | [(key, item)], _, depth, rest => by
    have h := reads_textAt item (depth + 1)
    rw [fieldTexts, fieldTexts, behindBracket_singleton, String.toList_append, String.toList_append,
      List.append_assoc, List.append_assoc]
    exact .last (key_stringText _ _ _) (h _) (skips_margin _ _)
  | (key, item) :: field :: fields, _, depth, rest => by
    have h := reads_textAt item (depth + 1)
    have hrest := fields_behindBracket (field :: fields) (List.cons_ne_nil _ _) depth rest
    rw [fieldTexts] at hrest ⊢
    rw [fieldTexts, behindBracket_cons_cons, String.toList_append, String.toList_append,
      List.append_assoc, List.append_assoc]
    exact .more (key_stringText _ _ _) (h _) (skips_self _) hrest

end

/-- **The text of a document stands for it.** -/
theorem denotes_text (document : Json) : Denotes document.text document.value := by
  have h := reads_textAt document 0 []
  rw [List.append_nil] at h
  exact ⟨_, _, skips_self _, h, skips_self _⟩

end Json

end RpnTape
