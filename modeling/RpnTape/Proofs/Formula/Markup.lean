import Mathlib.Data.List.Basic
import RpnTape.Formula.MathML

/-!
# Proofs/Formula/Markup — markup is properly nested, and nothing of a formula is lost in it

Markup is read from left to right with a stack of the elements that are open. A start tag opens an
element, an end tag closes the innermost one, and what was closed is a piece of the element around
it. Only `<` begins a tag and only `>` ends one. Escaped text has neither, so a name that is itself
written like a tag or an entity comes back as it was (`unescaped_escaped`).

Which markup shows which pieces is a relation (`Shows`) with one rule for leaves and one for
everything else. By induction over it markup is properly nested, and reading it adds the pieces to
the innermost open element, whatever is open and whatever comes behind (`Reader.adds_of_shows`).
-/

namespace RpnTape

namespace Markup

/-! ## Text -/

/-- The characters of a text with those that markup is made of escaped. -/
def escaped (text : List Char) : List Char := text.flatMap markupChar

/-- Every occurrence of a character replaced. -/
def replaced (c : Char) (replacement : String) (text : List Char) : List Char :=
  text.flatMap fun d => if d = c then replacement.toList else [d]

/-- The text that an escaped text stands for. -/
def unescaped : List Char → List Char
  | '&' :: 'a' :: 'm' :: 'p' :: ';' :: rest => '&' :: unescaped rest
  | '&' :: 'l' :: 't' :: ';' :: rest => '<' :: unescaped rest
  | '&' :: 'g' :: 't' :: ';' :: rest => '>' :: unescaped rest
  | c :: rest => c :: unescaped rest
  | [] => []

/-- What stands behind the `&` of an entity. -/
def entities : List String := ["amp;", "lt;", "gt;"]

/-- Is the text free of tags, and is every `&` in it the start of an entity? -/
structure IsEscaped (text : List Char) : Prop where
  not_mem_lt : '<' ∉ text
  not_mem_gt : '>' ∉ text
  entity : ∀ behind, '&' :: behind <:+ text → ∃ name ∈ entities, name.toList <+: behind

theorem toList_markupText (text : String) : (markupText text).toList = escaped text.toList := by
  rw [markupText, String.toList_ofList, escaped]

/-- A character is one of the three that markup is made of, or it stands for itself. -/
theorem markupChar_cases (c : Char) :
    c = '&' ∨ c = '<' ∨ c = '>' ∨ c ≠ '&' ∧ c ≠ '<' ∧ c ≠ '>' ∧ markupChar c = [c] := by
  unfold markupChar
  split <;> simp_all

/-- **Escaping each character once is escaping `&`, then `<`, then `>`.** In this order the `&` of
an entity is not escaped again. -/
theorem escaped_eq_replaced (text : List Char) :
    escaped text = replaced '>' "&gt;" (replaced '<' "&lt;" (replaced '&' "&amp;" text)) := by
  simp only [escaped, replaced, List.flatMap_assoc]
  refine List.flatMap_congr fun c _ => ?_
  rcases markupChar_cases c with rfl | rfl | rfl | ⟨hamp, hlt, hgt, hc⟩
  · decide
  · decide
  · decide
  · simp [hamp, hlt, hgt, hc]

theorem unescaped_markupChar_append (c : Char) (rest : List Char) :
    unescaped (markupChar c ++ rest) = c :: unescaped rest := by
  rcases markupChar_cases c with rfl | rfl | rfl | ⟨hamp, -, -, hc⟩
  · rfl
  · rfl
  · rfl
  · rw [hc, List.singleton_append, unescaped]
    all_goals simp [hamp]

/-- **Unescaping undoes escaping.** -/
theorem unescaped_escaped (text : List Char) : unescaped (escaped text) = text := by
  induction text with
  | nil => rfl
  | cons c text ih =>
    rw [escaped, List.flatMap_cons, unescaped_markupChar_append, ← escaped, ih]

theorem isEscaped_nil : IsEscaped [] where
  not_mem_lt := List.not_mem_nil
  not_mem_gt := List.not_mem_nil
  entity _ h := absurd (List.suffix_nil.1 h) (List.cons_ne_nil _ _)

theorem IsEscaped.cons {rest : List Char} (h : IsEscaped rest) {c : Char} (hlt : c ≠ '<')
    (hgt : c ≠ '>') (hentity : c = '&' → ∃ name ∈ entities, name.toList <+: rest) :
    IsEscaped (c :: rest) where
  not_mem_lt := List.not_mem_cons_of_ne_of_not_mem hlt.symm h.not_mem_lt
  not_mem_gt := List.not_mem_cons_of_ne_of_not_mem hgt.symm h.not_mem_gt
  entity behind hbehind := by
    rcases List.suffix_cons_iff.1 hbehind with heq | hrest
    · obtain ⟨rfl, rfl⟩ := List.cons.inj heq
      exact hentity rfl
    · exact h.entity behind hrest

theorem IsEscaped.markupChar_append {rest : List Char} (h : IsEscaped rest) (c : Char) :
    IsEscaped (markupChar c ++ rest) := by
  -- the letters of an entity are plain, and its `&` has them behind it
  have hname : ∀ name : List Char, (∀ c ∈ name, c ≠ '<' ∧ c ≠ '>' ∧ c ≠ '&') →
      IsEscaped (name ++ rest) := by
    intro name hname
    induction name with
    | nil => exact h
    | cons c name ih =>
      obtain ⟨⟨hlt, hgt, hamp⟩, hname⟩ := List.forall_mem_cons.1 hname
      exact (ih hname).cons hlt hgt fun hc => absurd hc hamp
  have hplain : ∀ name ∈ entities,
      name.toList.all (fun c => c ≠ '<' ∧ c ≠ '>' ∧ c ≠ '&') = true := by decide
  have hentity : ∀ name ∈ entities, IsEscaped ('&' :: name.toList ++ rest) := by
    intro name hmem
    have hall := List.all_eq_true.1 (hplain name hmem)
    exact (hname name.toList fun c hc => of_decide_eq_true (hall c hc)).cons
      (by decide) (by decide) fun _ => ⟨name, hmem, List.prefix_append _ _⟩
  rcases markupChar_cases c with rfl | rfl | rfl | ⟨hamp, hlt, hgt, hc⟩
  · exact hentity "amp;" (by decide)
  · exact hentity "lt;" (by decide)
  · exact hentity "gt;" (by decide)
  · rw [hc]
    exact hname [c] (List.forall_mem_singleton.2 ⟨hlt, hgt, hamp⟩)

theorem isEscaped_escaped (text : List Char) : IsEscaped (escaped text) := by
  induction text with
  | nil => exact isEscaped_nil
  | cons c text ih => exact ih.markupChar_append c

/-! ## Elements -/

/-- The names of the elements. -/
def names : List String := ["mn", "mi", "mo", "mrow", "mfrac", "msqrt", "msup"]

/-- The piece that an element is, from its name, what it holds and its text. -/
def piece? (name : List Char) (pieces : List Piece) (text : List Char) : Option Piece :=
  match String.ofList name, pieces, text with
  | "mn", [], text => some (.number (String.ofList (unescaped text)))
  | "mi", [], text => some (.identifier (String.ofList (unescaped text)))
  | "mo", [], text => some (.operator (String.ofList (unescaped text)))
  | "mrow", pieces, [] => some (.row pieces)
  | "mfrac", [.row numerator, .row denominator], [] => some (.fraction numerator denominator)
  | "msqrt", pieces, [] => some (.radical pieces)
  | "msup", [.row base, .row exponent], [] => some (.superscript base exponent)
  | _, _, _ => none

/-- The markup shows the pieces: leaves with escaped text, and elements around markup that shows the
pieces they hold. -/
inductive Shows : String → List Piece → Prop
  | nil : Shows "" []
  | leaf {name text : String} {piece : Piece} (hname : name ∈ names)
      (hpiece : piece? name.toList [] (escaped text.toList) = some piece) :
      Shows (element name (markupText text)) [piece]
  | construction {name content : String} {pieces : List Piece} {piece : Piece}
      (hname : name ∈ names)
      (hcontent : Shows content pieces) (hpiece : piece? name.toList pieces [] = some piece) :
      Shows (element name content) [piece]
  | append {markup markup' : String} {pieces pieces' : List Piece} (h : Shows markup pieces)
      (h' : Shows markup' pieces') : Shows (markup ++ markup') (pieces ++ pieces')

theorem Shows.row {content : String} {pieces : List Piece} (h : Shows content pieces) :
    Shows (element "mrow" content) [.row pieces] := .construction (by decide) h rfl

mutual

theorem shows_mathML : ∀ piece : Piece, Shows piece.mathML [piece]
  | .number text => .leaf (by decide) (by simp [piece?, unescaped_escaped])
  | .identifier name => .leaf (by decide) (by simp [piece?, unescaped_escaped])
  | .operator sign => .leaf (by decide) (by simp [piece?, unescaped_escaped])
  | .row pieces => (shows_elements pieces).row
  | .fraction numerator denominator =>
    .construction (by decide)
      ((shows_elements numerator).row.append (shows_elements denominator).row) rfl
  | .radical radicand => .construction (by decide) (shows_elements radicand) rfl
  | .superscript base exponent =>
    .construction (by decide) ((shows_elements base).row.append (shows_elements exponent).row) rfl

/-- **The elements of pieces show the pieces.** -/
theorem shows_elements : ∀ pieces : List Piece, Shows (String.join (Formula.elements pieces)) pieces
  | [] => .nil
  | piece :: rest => by
    rw [Formula.elements, String.join_cons]
    exact (shows_mathML piece).append (shows_elements rest)

end

theorem toList_element (name content : String) : (element name content).toList =
    ['<'] ++ name.toList ++ ['>'] ++ content.toList ++ ['<', '/'] ++ name.toList ++ ['>'] := by
  simp [element]

/-! ## Nesting -/

/-- Can this be the name of an element? -/
def IsName (name : List Char) : Prop := name ≠ [] ∧ name.all Char.isAlpha = true

instance (name : List Char) : Decidable (IsName name) := inferInstanceAs (Decidable (_ ∧ _))

theorem isName_of_mem_names : ∀ name ∈ names, IsName name.toList := by decide

/-- May this stand behind the name in a start tag? -/
def IsAttributes (attributes : List Char) : Prop :=
  (attributes = [] ∨ attributes.head? = some ' ') ∧ '<' ∉ attributes ∧ '>' ∉ attributes

instance (attributes : List Char) : Decidable (IsAttributes attributes) :=
  inferInstanceAs (Decidable (_ ∧ _))

/-- Is the markup made of escaped text and of elements around such markup? The end tag of an element
repeats the name of its start tag. -/
inductive IsNested : List Char → Prop
  | text {text : List Char} (htext : IsEscaped text) : IsNested text
  | element {name attributes content : List Char} (hname : IsName name)
      (hattributes : IsAttributes attributes) (hcontent : IsNested content) :
      IsNested (['<'] ++ name ++ attributes ++ ['>'] ++ content ++ ['<', '/'] ++ name ++ ['>'])
  | append {left right : List Char} (hleft : IsNested left) (hright : IsNested right) :
      IsNested (left ++ right)

theorem isNested_element {name content : String} (hname : name ∈ names)
    (hcontent : IsNested content.toList) : IsNested (element name content).toList := by
  have hattributes : IsAttributes [] := by decide
  have h := IsNested.element (isName_of_mem_names name hname) hattributes hcontent
  rwa [List.append_nil, ← toList_element] at h

/-- **Markup that shows pieces is properly nested.** -/
theorem Shows.isNested {markup : String} {pieces : List Piece} (h : Shows markup pieces) :
    IsNested markup.toList := by
  induction h with
  | nil => exact .text isEscaped_nil
  | @leaf name text piece hname _ =>
    refine isNested_element hname (.text ?_)
    rw [toList_markupText]
    exact isEscaped_escaped _
  | construction hname _ _ ih => exact isNested_element hname ih
  | append _ _ ih ih' =>
    rw [String.toList_append]
    exact ih.append ih'

/-! ## Reading -/

/-- An element that is open. -/
structure OpenElement where
  name : List Char
  /-- The pieces it holds so far, the latest first. -/
  pieces : List Piece
  /-- Its text so far as it is written, the latest character first. -/
  text : List Char

/-- The state of reading: the tag that is being read, if one is, with its latest character first,
and the elements that are open, the innermost first. -/
structure Reader where
  tag : Option (List Char)
  elements : List OpenElement

namespace Reader

/-- Closes the innermost element, if it has the name; it is a piece of the one around it. -/
def close? (name : List Char) : List OpenElement → Option Reader
  | inner :: outer :: rest =>
    if inner.name = name then
      (piece? name inner.pieces.reverse inner.text.reverse).map fun piece =>
        ⟨none, { outer with pieces := piece :: outer.pieces } :: rest⟩
    else none
  | _ => none

/-- Does what a tag says. -/
def perform? (elements : List OpenElement) : List Char → Option Reader
  | '/' :: name => close? name elements
  | name => some ⟨none, ⟨name, [], []⟩ :: elements⟩

/-- Reads one character. -/
def step? : Reader → Char → Option Reader
  | ⟨none, inner :: rest⟩, c =>
    if c = '<' then some ⟨some [], inner :: rest⟩
    else some ⟨none, { inner with text := c :: inner.text } :: rest⟩
  | ⟨none, []⟩, _ => none
  | ⟨some tag, elements⟩, c =>
    if c = '>' then perform? elements tag.reverse else some ⟨some (c :: tag), elements⟩

/-- Reads markup. -/
def read? (s : Reader) (markup : List Char) : Option Reader := markup.foldlM step? s

theorem read?_cons (s : Reader) (c : Char) (markup : List Char) :
    s.read? (c :: markup) = (s.step? c).bind fun s => s.read? markup :=
  List.foldlM_cons

/-- Text is kept as it is written. -/
theorem read?_text_append : ∀ {text : List Char}, '<' ∉ text → ∀ (inner : OpenElement)
    (elements : List OpenElement) (markup : List Char),
    read? ⟨none, inner :: elements⟩ (text ++ markup) =
      read? ⟨none, { inner with text := text.reverse ++ inner.text } :: elements⟩ markup
  | [], _, _, _, _ => rfl
  | c :: text, h, inner, elements, markup => by
    obtain ⟨hc, htext⟩ := not_or.1 (mt List.mem_cons.2 h)
    rw [List.cons_append, read?_cons, step?, if_neg (Ne.symm hc), Option.bind_some,
      read?_text_append htext, List.reverse_cons, List.append_assoc, List.singleton_append]

theorem read?_within_tag : ∀ {tag : List Char}, '>' ∉ tag → ∀ (front : List Char)
    (elements : List OpenElement) (markup : List Char),
    read? ⟨some front, elements⟩ (tag ++ '>' :: markup) =
      (perform? elements (front.reverse ++ tag)).bind fun s => s.read? markup
  | [], _, front, elements, markup => by
    rw [List.nil_append, List.append_nil, read?_cons, step?, if_pos rfl]
  | c :: tag, h, front, elements, markup => by
    obtain ⟨hc, htag⟩ := not_or.1 (mt List.mem_cons.2 h)
    rw [List.cons_append, read?_cons, step?, if_neg (Ne.symm hc), Option.bind_some,
      read?_within_tag htag, List.reverse_cons, List.append_assoc, List.singleton_append]

/-- A tag is performed when it has been read. -/
theorem read?_tag {tag : List Char} (h : '>' ∉ tag) (inner : OpenElement)
    (elements : List OpenElement) (markup : List Char) :
    read? ⟨none, inner :: elements⟩ ('<' :: tag ++ '>' :: markup) =
      (perform? (inner :: elements) tag).bind fun s => s.read? markup := by
  rw [List.cons_append, read?_cons, step?, if_pos rfl, Option.bind_some, read?_within_tag h]
  rfl

/-- Reading the markup, whatever is open and whatever comes behind, adds the pieces to the innermost
open element. -/
def Adds (markup : List Char) (pieces : List Piece) : Prop :=
  ∀ (inner : OpenElement) (elements : List OpenElement) (behind : List Char),
    read? ⟨none, inner :: elements⟩ (markup ++ behind) =
      read? ⟨none, { inner with pieces := pieces.reverse ++ inner.pieces } :: elements⟩ behind

theorem adds_nil : Adds [] [] := fun _ _ _ => rfl

theorem Adds.append {markup markup' : List Char} {pieces pieces' : List Piece}
    (h : Adds markup pieces) (h' : Adds markup' pieces') :
    Adds (markup ++ markup') (pieces ++ pieces') := by
  intro inner elements behind
  rw [List.append_assoc, h, h', List.reverse_append, List.append_assoc]

/-- An element adds the piece that it is, once its content has been read. -/
theorem adds_element {name content : String} {pieces : List Piece} {text : List Char}
    {piece : Piece} (hname : name ∈ names)
    (hcontent : ∀ (elements : List OpenElement) (behind : List Char),
      read? ⟨none, ⟨name.toList, [], []⟩ :: elements⟩ (content.toList ++ behind) =
        read? ⟨none, ⟨name.toList, pieces.reverse, text.reverse⟩ :: elements⟩ behind)
    (hpiece : piece? name.toList pieces text = some piece) :
    Adds (element name content).toList [piece] := by
  intro inner elements behind
  have hletters := List.all_eq_true.1 (isName_of_mem_names name hname).2
  have hgt : '>' ∉ name.toList := fun h => absurd (hletters _ h) (by decide)
  have hopen : ∀ elements, perform? elements name.toList =
      some ⟨none, ⟨name.toList, [], []⟩ :: elements⟩ := by
    intro elements
    unfold perform?
    split
    · rename_i htag
      exact absurd (hletters '/' (htag ▸ List.mem_cons_self)) (by decide)
    · rfl
  have hclose : perform? (⟨name.toList, pieces.reverse, text.reverse⟩ :: inner :: elements)
      ('/' :: name.toList) =
      some ⟨none, { inner with pieces := [piece].reverse ++ inner.pieces } :: elements⟩ := by
    simp [perform?, close?, hpiece]
  have hmarkup : (element name content).toList ++ behind =
      '<' :: name.toList ++ '>' :: (content.toList ++
        ('<' :: ('/' :: name.toList) ++ '>' :: behind)) := by
    simp [toList_element]
  rw [hmarkup, read?_tag hgt, hopen, Option.bind_some, hcontent, read?_tag (by simpa using hgt),
    hclose, Option.bind_some]

/-- **Reading markup that shows pieces adds the pieces.** -/
theorem adds_of_shows {markup : String} {pieces : List Piece} (h : Shows markup pieces) :
    Adds markup.toList pieces := by
  induction h with
  | nil => exact adds_nil
  | @leaf name text piece hname hpiece =>
    refine adds_element hname (fun elements behind => ?_) hpiece
    rw [toList_markupText, read?_text_append (isEscaped_escaped _).not_mem_lt, List.append_nil]
    rfl
  | construction hname _ hpiece ih =>
    refine adds_element hname (fun elements behind => ?_) hpiece
    rw [ih, List.append_nil]
    rfl
  | append _ _ ih ih' =>
    rw [String.toList_append]
    exact ih.append ih'

end Reader

end Markup

open Markup

namespace Formula

/-- The formula that markup shows, if it is the markup of one. -/
def ofMathML? (markup : String) : Option Formula := do
  let behind ← markup.toList.dropPrefix? "<math display=\"block\">".toList
  let content ← behind.dropSuffix? "</math>".toList
  match ← Reader.read? ⟨none, [⟨[], [], []⟩]⟩ content with
  | ⟨none, [⟨_, pieces, []⟩]⟩ => some pieces.reverse
  | _ => none

theorem toList_mathML (formula : Formula) : formula.mathML.toList =
    "<math display=\"block\">".toList ++
      ((String.join (elements formula)).toList ++ "</math>".toList) := by
  have happend : ∀ front content back : String,
      (front ++ content ++ back).toList = front.toList ++ (content.toList ++ back.toList) := by
    intro front content back
    rw [String.toList_append, String.toList_append, List.append_assoc]
  exact happend _ _ _

theorem isNested_toList_mathML (formula : Formula) : IsNested formula.mathML.toList := by
  have hname : IsName "math".toList := by decide
  have hattributes : IsAttributes " display=\"block\"".toList := by decide
  have h := IsNested.element hname hattributes (shows_elements formula).isNested
  rw [toList_mathML]
  simpa using h

/-- **The markup of a formula is read as the formula.** -/
theorem ofMathML?_mathML (formula : Formula) : ofMathML? formula.mathML = some formula := by
  have hfront : formula.mathML.toList.dropPrefix? "<math display=\"block\">".toList =
      some ((String.join (elements formula)).toList ++ "</math>".toList) :=
    List.dropPrefix?_eq_some_iff.2 ⟨_, toList_mathML formula, beq_self_eq_true _⟩
  have hback : ((String.join (elements formula)).toList ++ "</math>".toList).dropSuffix?
      "</math>".toList = some (String.join (elements formula)).toList :=
    List.dropSuffix?_eq_some_iff.2 ⟨_, rfl, beq_self_eq_true _⟩
  have hread := Reader.adds_of_shows (shows_elements formula) ⟨[], [], []⟩ [] []
  rw [List.append_nil, List.append_nil] at hread
  simp only [ofMathML?, hfront, hback, hread, Option.bind_eq_bind, Option.bind_some]
  simp [Reader.read?]

/-- **Markup loses nothing.** The markup of any formula is properly nested with escaped text, and it
is read as the formula; so no two formulas have the same markup. Escaping is the same as replacing
`&`, `<` and `>` one after the other, and it can be undone for every text. -/
theorem mathML_lossless :
    (∀ formula : Formula,
        IsNested formula.mathML.toList ∧ ofMathML? formula.mathML = some formula) ∧
      Function.Injective mathML ∧
      ∀ text : String,
        (markupText text).toList =
            replaced '>' "&gt;" (replaced '<' "&lt;" (replaced '&' "&amp;" text.toList)) ∧
          IsEscaped (markupText text).toList ∧
          String.ofList (unescaped (markupText text).toList) = text := by
  refine ⟨fun formula => ⟨isNested_toList_mathML formula, ofMathML?_mathML formula⟩, ?_,
    fun text => ?_⟩
  · intro formula formula' h
    have hread := ofMathML?_mathML formula'
    rw [← h, ofMathML?_mathML, Option.some.injEq] at hread
    exact hread
  · rw [toList_markupText]
    exact ⟨escaped_eq_replaced _, isEscaped_escaped _, by
      rw [unescaped_escaped, String.ofList_toList]⟩

end Formula

end RpnTape
