import Mathlib.Data.List.Basic
import RpnTape.Formula.Basic
import RpnTape.Proofs.Number.Display

/-!
# Proofs/Formula/Line — the grammar of lines of text, and that it is unambiguous

    block  := word | √ block | ( phrase )
    unit   := block | block (/ | ^) block | word ( phrase )
    phrase := unit | unit sign phrase

A sign has a space on either side; a comma has one behind it only. A line is a tree over
these rules, `chars` is how it is written, and `Line.isDetermined` says that a line can be
read from the left: with something behind it that cannot belong to it (`Level.Ends`), it
is told by its characters.

The grammar knows nothing of binding powers, and parentheses are just parentheses. What formula they
stand for depends on the place they have in the line (`Role`), and that is read off the tree.
-/

namespace RpnTape

/-! ## Lines -/

namespace Line

/-- The characters that are no part of a word. -/
def marks : List Char := [' ', '(', ')', ',', '/', '^', '√']

def isMark (c : Char) : Bool := marks.contains c

/-- A word of a line. -/
structure Word where
  chars : List Char
  ne_nil : chars ≠ []
  clear : ∀ c ∈ chars, isMark c = false

/-- What stands between two units. -/
inductive Sign where
  | plus | minus | times | mod | assign | comma

/-- What stands between two blocks. -/
inductive Mark where
  | slash | caret

/-- The syntactic categories. -/
inductive Level where
  /-- What can stand beside a slash, a caret or a radical sign. -/
  | block
  /-- What can stand beside a sign. -/
  | unit
  /-- Units with signs between them. -/
  | phrase

/-- The sign without spaces. -/
def Sign.text : Sign → String
  | plus => "+"
  | minus => "-"
  | times => "×"
  | mod => "mod"
  | assign => "≔"
  | comma => ","

/-- The sign with the spaces around it. -/
def Sign.spaced : Sign → List Char
  | comma => [',', ' ']
  | sign => ' ' :: sign.text.toList ++ [' ']

def Mark.char : Mark → Char
  | slash => '/'
  | caret => '^'

end Line

open Line in
/-- The lines of a category. -/
inductive Line : Level → Type
  | word (word : Word) : Line .block
  | root (radicand : Line .block) : Line .block
  | parens (inner : Line .phrase) : Line .block
  | block (block : Line .block) : Line .unit
  | beside (left : Line .block) (mark : Mark) (right : Line .block) : Line .unit
  | call (name : Word) (args : Line .phrase) : Line .unit
  | unit (unit : Line .unit) : Line .phrase
  | more (unit : Line .unit) (sign : Sign) (rest : Line .phrase) : Line .phrase

namespace Line

variable {level : Level}

/-- How the line is written. -/
def chars {level : Level} : Line level → List Char
  | word w => w.chars
  | root radicand => '√' :: radicand.chars
  | parens inner => '(' :: (inner.chars ++ [')'])
  | block b => b.chars
  | beside left mark right => left.chars ++ mark.char :: right.chars
  | call name args => name.chars ++ '(' :: (args.chars ++ [')'])
  | unit u => u.chars
  | more u sign rest => u.chars ++ (sign.spaced ++ rest.chars)

/-! ## Where a line ends -/

/-- Can this stand behind a line of the category, and be no part of it? -/
def Level.Ends : Level → List Char → Prop
  | block, rest => ∀ c ∈ rest.head?, isMark c = true
  | unit, rest => ∀ c ∈ rest.head?, c ∈ [' ', ')', ',']
  | phrase, rest => (∀ c ∈ rest.head?, c ∈ [' ', ')', ',']) ∧ ∀ sign : Sign, ¬ sign.spaced <+: rest

theorem ends_block_cons {c : Char} (h : isMark c = true) (rest : List Char) :
    Level.block.Ends (c :: rest) := by
  rintro d ⟨⟩
  exact h

theorem ends_block_of_ends_unit {rest : List Char} (h : Level.unit.Ends rest) :
    Level.block.Ends rest :=
  have hmarks : [' ', ')', ','].all isMark = true := by decide
  fun c hc => List.all_eq_true.1 hmarks c (h c hc)

/-- No sign begins with a closing parenthesis. -/
theorem ends_phrase_parenthesis (rest : List Char) : Level.phrase.Ends (')' :: rest) := by
  refine ⟨fun c hc => ?_, fun sign hsign => ?_⟩
  · obtain rfl := Option.some.inj hc
    decide
  · cases sign <;> simp [Sign.spaced] at hsign

theorem ends_unit_spaced (sign : Sign) (rest : List Char) :
    Level.unit.Ends (sign.spaced ++ rest) := by
  intro c hc
  cases sign <;> (obtain rfl := Option.some.inj hc; decide)

/-- **Signs are told apart by how they begin.** -/
theorem Sign.eq_of_spaced_append {sign sign' : Sign} {rest rest' : List Char}
    (h : sign.spaced ++ rest = sign'.spaced ++ rest') : sign = sign' ∧ rest = rest' := by
  cases sign <;> cases sign' <;> simp_all [spaced, text]

/-! ## Reading from the left -/

/-- A word is what stands before the first mark. -/
theorem Word.takeWhile_append (w : Word) {rest : List Char} (hrest : Level.block.Ends rest) :
    (w.chars ++ rest).takeWhile (!isMark ·) = w.chars := by
  rw [List.takeWhile_append_of_pos fun c hc => by rw [w.clear c hc]; rfl]
  cases rest with
  | nil => rw [List.takeWhile_nil, List.append_nil]
  | cons c rest => rw [List.takeWhile_cons_of_neg (by simp [hrest c rfl]), List.append_nil]

@[ext] theorem Word.ext {w w' : Word} (h : w.chars = w'.chars) : w = w' := by
  obtain ⟨chars, _, _⟩ := w
  obtain rfl : chars = w'.chars := h
  rfl

/-- **Words are told by their characters**, up to the first mark. -/
theorem Word.eq_of_append {w w' : Word} {rest rest' : List Char} (hrest : Level.block.Ends rest)
    (hrest' : Level.block.Ends rest') (h : w.chars ++ rest = w'.chars ++ rest') :
    w = w' ∧ rest = rest' := by
  obtain rfl : w = w' := by
    ext1
    rw [← w.takeWhile_append hrest, h, w'.takeWhile_append hrest']
  exact ⟨rfl, List.append_cancel_left h⟩

/-- A word begins with none of the marks. -/
theorem Word.append_ne_cons (w : Word) {c : Char} (hc : isMark c = true) (rest rest' : List Char) :
    w.chars ++ rest ≠ c :: rest' := by
  obtain ⟨d, cs, hchars⟩ := List.exists_cons_of_ne_nil w.ne_nil
  have hd : isMark d = false := w.clear d (hchars ▸ List.mem_cons_self)
  rw [hchars]
  rintro h
  obtain rfl := (List.cons.inj h).1
  rw [hc] at hd
  cases hd

/-- Does the left end of what is written tell the line, and so what stands behind? -/
def IsDetermined (line : Line level) : Prop :=
  ∀ ⦃line' : Line level⦄ ⦃rest rest' : List Char⦄, level.Ends rest → level.Ends rest' →
    line.chars ++ rest = line'.chars ++ rest' → line = line' ∧ rest = rest'

theorem isDetermined_word (w : Word) : (word w).IsDetermined := by
  intro line' rest rest' hrest hrest' h
  cases line' with
  | word w' =>
    obtain ⟨rfl, hrest⟩ := Word.eq_of_append hrest hrest' h
    exact ⟨rfl, hrest⟩
  | root => exact absurd h (w.append_ne_cons (by decide) _ _)
  | parens => exact absurd h (w.append_ne_cons (by decide) _ _)

theorem isDetermined_root {radicand : Line .block} (hradicand : radicand.IsDetermined) :
    (root radicand).IsDetermined := by
  intro line' rest rest' hrest hrest' h
  cases line' with
  | word w' => exact absurd h.symm (w'.append_ne_cons (by decide) _ _)
  | root radicand' =>
    obtain ⟨rfl, hrest⟩ := hradicand hrest hrest' (List.cons.inj h).2
    exact ⟨rfl, hrest⟩
  | parens => exact absurd (List.cons.inj h).1 (by decide)

theorem isDetermined_parens {inner : Line .phrase} (hinner : inner.IsDetermined) :
    (parens inner).IsDetermined := by
  intro line' rest rest' hrest hrest' h
  cases line' with
  | word w' => exact absurd h.symm (w'.append_ne_cons (by decide) _ _)
  | root => exact absurd (List.cons.inj h).1 (by decide)
  | parens inner' =>
    have htail : inner.chars ++ ')' :: rest = inner'.chars ++ ')' :: rest' := by
      simpa [chars] using h
    obtain ⟨rfl, hparenthesis⟩ :=
      hinner (ends_phrase_parenthesis _) (ends_phrase_parenthesis _) htail
    exact ⟨rfl, (List.cons.inj hparenthesis).2⟩

/-! ### Units

A unit begins with a block, and the character behind it says of what kind the unit is. -/

/-- The block that the unit begins with. -/
def first : Line .unit → Line .block
  | block b => b
  | beside left _ _ => left
  | call name _ => word name

/-- What is written behind it. -/
def behind : Line .unit → List Char
  | block _ => []
  | beside _ mark right => mark.char :: right.chars
  | call _ args => '(' :: (args.chars ++ [')'])

theorem chars_eq (u : Line .unit) : u.chars = u.first.chars ++ u.behind := by
  cases u with
  | block b => exact (List.append_nil _).symm
  | beside | call => rfl

theorem ends_behind (u : Line .unit) {rest : List Char} (hrest : Level.unit.Ends rest) :
    Level.block.Ends (u.behind ++ rest) := by
  cases u with
  | block => exact ends_block_of_ends_unit hrest
  | beside left mark right => exact ends_block_cons (by cases mark <;> decide) _
  | call => exact ends_block_cons (by decide) _

/-- Nothing that a unit goes on with ends a unit. -/
theorem Level.Ends.ne_cons {rest rest' : List Char} (h : Level.unit.Ends rest) {c : Char}
    (hc : c ∉ [' ', ')', ',']) : rest ≠ c :: rest' := by
  rintro rfl
  exact hc (h c rfl)

theorem Mark.char_not_mem (mark : Mark) : mark.char ∉ [' ', ')', ','] := by cases mark <;> decide

theorem first_eq {u u' : Line .unit} (hfirst : u.first.IsDetermined) {rest rest' : List Char}
    (hrest : Level.unit.Ends rest) (hrest' : Level.unit.Ends rest')
    (h : u.chars ++ rest = u'.chars ++ rest') :
    u.first = u'.first ∧ u.behind ++ rest = u'.behind ++ rest' := by
  rw [chars_eq, chars_eq, List.append_assoc, List.append_assoc] at h
  exact hfirst (u.ends_behind hrest) (u'.ends_behind hrest') h

theorem isDetermined_block {b : Line .block} (hb : b.IsDetermined) : (block b).IsDetermined := by
  intro u' rest rest' hrest hrest' h
  obtain ⟨hfirst, hbehind⟩ := first_eq (u := block b) hb hrest hrest' h
  cases u' with
  | block => exact ⟨congrArg block hfirst, hbehind⟩
  | beside left mark right => exact absurd hbehind (hrest.ne_cons mark.char_not_mem)
  | call => exact absurd hbehind (hrest.ne_cons (by decide))

theorem isDetermined_beside {left right : Line .block} (hleft : left.IsDetermined)
    (hright : right.IsDetermined) (mark : Mark) : (beside left mark right).IsDetermined := by
  intro u' rest rest' hrest hrest' h
  obtain ⟨hfirst, hbehind⟩ := first_eq (u := beside left mark right) hleft hrest hrest' h
  cases u' with
  | block => exact absurd hbehind.symm (hrest'.ne_cons mark.char_not_mem)
  | beside left' mark' right' =>
    obtain ⟨hmark, hright'⟩ := List.cons.inj hbehind
    obtain rfl : mark = mark' := by
      cases mark <;> cases mark' <;> first | rfl | exact absurd hmark (by decide)
    obtain ⟨rfl, hrest⟩ :=
      hright (ends_block_of_ends_unit hrest) (ends_block_of_ends_unit hrest') hright'
    obtain rfl : left = left' := hfirst
    exact ⟨rfl, hrest⟩
  | call => exact absurd (List.cons.inj hbehind).1 (by cases mark <;> decide)

theorem isDetermined_call (name : Word) {args : Line .phrase} (hargs : args.IsDetermined) :
    (call name args).IsDetermined := by
  intro u' rest rest' hrest hrest' h
  obtain ⟨hfirst, hbehind⟩ := first_eq (u := call name args) (isDetermined_word name) hrest hrest' h
  cases u' with
  | block => exact absurd hbehind.symm (hrest'.ne_cons (by decide))
  | beside left mark right => exact absurd (List.cons.inj hbehind).1 (by cases mark <;> decide)
  | call name' args' =>
    obtain rfl : name = name' := word.inj hfirst
    have htail : args.chars ++ ')' :: rest = args'.chars ++ ')' :: rest' := by
      simpa [behind] using hbehind
    obtain ⟨rfl, hparenthesis⟩ :=
      hargs (ends_phrase_parenthesis _) (ends_phrase_parenthesis _) htail
    exact ⟨rfl, (List.cons.inj hparenthesis).2⟩

/-! ### Phrases -/

theorem isDetermined_unit {u : Line .unit} (hu : u.IsDetermined) : (unit u).IsDetermined := by
  intro p' rest rest' hrest hrest' h
  cases p' with
  | unit u' =>
    obtain ⟨rfl, hrest⟩ := hu hrest.1 hrest'.1 h
    exact ⟨rfl, hrest⟩
  | more u' sign p' =>
    -- the units agree, so what is behind the one phrase begins with the sign of the other
    rw [chars, chars, List.append_assoc, List.append_assoc] at h
    obtain ⟨-, hsign⟩ := hu hrest.1 (ends_unit_spaced sign _) h
    exact absurd ⟨_, hsign.symm⟩ (hrest.2 sign)

theorem isDetermined_more {u : Line .unit} (hu : u.IsDetermined) {p : Line .phrase}
    (hp : p.IsDetermined) (sign : Sign) : (more u sign p).IsDetermined := by
  intro p' rest rest' hrest hrest' h
  cases p' with
  | unit u' =>
    rw [chars, chars, List.append_assoc, List.append_assoc] at h
    obtain ⟨-, hsign⟩ := hu (ends_unit_spaced sign _) hrest'.1 h
    exact absurd ⟨_, hsign⟩ (hrest'.2 sign)
  | more u' sign' p' =>
    rw [chars, chars, List.append_assoc, List.append_assoc, List.append_assoc,
      List.append_assoc] at h
    obtain ⟨rfl, hbehind⟩ := hu (ends_unit_spaced sign _) (ends_unit_spaced sign' _) h
    obtain ⟨rfl, htail⟩ := Sign.eq_of_spaced_append hbehind
    obtain ⟨rfl, hrest⟩ := hp hrest hrest' htail
    exact ⟨rfl, hrest⟩

/-- **A line is told by its characters.** -/
theorem isDetermined {level : Level} : ∀ line : Line level, line.IsDetermined
  | word w => isDetermined_word w
  | root radicand => isDetermined_root radicand.isDetermined
  | parens inner => isDetermined_parens inner.isDetermined
  | block b => isDetermined_block b.isDetermined
  | beside left mark right => isDetermined_beside left.isDetermined right.isDetermined mark
  | call name args => isDetermined_call name args.isDetermined
  | unit u => isDetermined_unit u.isDetermined
  | more u sign rest => isDetermined_more u.isDetermined rest.isDetermined sign

/-! ## The formula of a line -/

/-- The place that a block has. -/
inductive Role where
  /-- Beside a sign. -/
  | operand
  /-- In a fraction, under a radical sign or behind a caret. -/
  | part
  /-- Before a caret. -/
  | base

/-- The first character of a word says what it is. -/
def Word.head (w : Word) : Char := w.chars.head w.ne_nil

/-- A word is a number, with a minus sign before it or without, or a name. -/
def Word.piece (w : Word) : Piece :=
  if w.head = '-' then .row [.operator "-", .number (.ofList w.chars.tail)]
  else if startsMagnitude w.head then .number (.ofList w.chars)
  else .identifier (.ofList w.chars)

/-- Can the phrase be the base of a power without parentheses around its formula? -/
def isFirm : Line .phrase → Bool
  | unit (block (word _)) | unit (beside _ _ _) | unit (call _ _) => true
  | _ => false

/-- The formula of a phrase in parentheses. In a fraction and the like they
only stand in the text. -/
def Role.enclosed (role : Role) (firm : Bool) (inner : Formula) : Formula :=
  match role, firm with
  | part, _ | base, true => inner
  | operand, _ | base, false => [.row (.operator "(" :: inner ++ [.operator ")"])]

/-- The place before the mark. -/
def Mark.role : Mark → Role
  | slash => .part
  | caret => .base

/-- What the mark makes of the formulas beside it. -/
def Mark.piece : Mark → Formula → Formula → Piece
  | slash => .fraction
  | caret => .superscript

/-- The formula that the line stands for. -/
def pieces {level : Level} : Line level → Role → Formula
  | word w, _ => [w.piece]
  | root radicand, _ => [.radical (radicand.pieces .part)]
  | parens inner, role => role.enclosed inner.isFirm (inner.pieces .operand)
  | block b, _ => b.pieces .operand
  | beside left mark right, _ => [mark.piece (left.pieces mark.role) (right.pieces .part)]
  | call name args, _ => name.piece :: .operator "(" :: args.pieces .operand ++ [.operator ")"]
  | unit u, _ => u.pieces .operand
  | more u sign rest, _ => u.pieces .operand ++ .operator sign.text :: rest.pieces .operand

end Line

end RpnTape
