import RpnTape.Proofs.Text.Words

/-!
# Proofs/Text/Grammar — the words of a program by a grammar

A `Pattern` is matched at a place in a text and either fails or moves on, always in one way:
repetition takes as much as it can, and nothing is tried again. The grammar of programs says
`start word* end`, where a word is as many characters as there are before a blank, and leaves the
blanks between the parts to a rule for all grammars: blanks may stand between the parts of a
sequence and between the turns of a repetition (`Pattern.spaced`), but not inside a word.

Matching might fail, and a repetition might go on forever. **The grammar does neither**, on any
text, and it finds the words that cutting at the blanks finds (`grammarWords?_eq`).
-/

namespace RpnTape

/-- A pattern for a part of a text. -/
inductive Pattern where
  /-- The start of the text. -/
  | start
  /-- The end of the text. -/
  | finish
  /-- Any character. -/
  | any
  /-- A blank. -/
  | blank
  /-- Nothing, at a place where the pattern fails. -/
  | without (p : Pattern)
  /-- One pattern and then the other. -/
  | both (p q : Pattern)
  /-- The pattern, or nothing where it fails. -/
  | optional (p : Pattern)
  /-- The pattern as often as it matches. -/
  | many (p : Pattern)
  /-- The pattern, without blanks between its parts; what it matches is a word. -/
  | capture (p : Pattern)

/-- A place in a text, and the words found before it. -/
structure Place where
  passed : List Char
  rest : List Char
  found : List String

namespace Place

/-- The place behind the next character, if that is of the kind. -/
def next (kind : Char → Bool) (place : Place) : Option Place :=
  match place.rest with
  | [] => none
  | c :: rest => if kind c then some ⟨place.passed ++ [c], rest, place.found⟩ else none

/-- The place with one more word found: what was passed since an earlier place. -/
def findSince (earlier place : Place) : Place :=
  { place with found := place.found ++ [String.ofList (place.passed.drop earlier.passed.length)] }

end Place

namespace Pattern

/-- Matches the pattern at a place: the place behind what it matches, or none where it fails. There
is no result if a repetition does not come to an end. -/
def match? : Pattern → Place → Option (Option Place)
  | start, place => some (if place.passed.isEmpty then some place else none)
  | finish, place => some (if place.rest.isEmpty then some place else none)
  | any, place => some (place.next fun _ => true)
  | blank, place => some (place.next isBlank)
  | without p, place => do
    match ← p |>.match? place with
    | none => some (some place)
    | some _ => some none
  | both p q, place => do
    match ← p |>.match? place with
    | none => some none
    | some place' => q |>.match? place'
  | optional p, place => do
    match ← p |>.match? place with
    | none => some (some place)
    | some place' => some (some place')
  | many p, place => do
    match ← p |>.match? place with
    | none => some (some place)
    | some place' => many p |>.match? place'
  | capture p, place => do
    match ← p |>.match? place with
    | none => some none
    | some place' => some (some (place.findSince place'))
partial_fixpoint

/-- Blanks, as many as there are. -/
def blanks : Pattern := many blank

/-- The pattern with blanks between its parts: those of a sequence, and
the turns of a repetition. -/
def spaced : Pattern → Pattern
  | without p => without p.spaced
  | both p q => both p.spaced (both blanks q.spaced)
  | optional p => optional p.spaced
  | many p => optional (both p.spaced (many (both blanks p.spaced)))
  | p => p

/-- A character that is no blank. -/
def letter : Pattern := both (without blank) any

/-- A word: at least one letter, and as many as there are. -/
def word : Pattern := capture (both letter (many letter))

/-- A program: words, from the start of the text to its end. -/
def program : Pattern := (both (both start (many word)) finish).spaced

end Pattern

/-- The words that the grammar finds in the text, or none where the text is no program. There is no
result if matching does not come to an end. -/
def grammarWords? (text : String) : Option (Option (List String)) := do
  let place ← Pattern.program.match? ⟨[], text.toList, []⟩
  return place.map Place.found

namespace Pattern

/-! ## One step of matching -/

section Steps

variable {p q : Pattern} {place place' : Place}

theorem match?_both (h : p.match? place = some (some place')) :
    (both p q).match? place = q.match? place' := by
  rw [match?, h]
  rfl

theorem match?_both_of_fails (h : p.match? place = some none) :
    (both p q).match? place = some none := by
  rw [match?, h]
  rfl

theorem match?_optional (h : p.match? place = some (some place')) :
    (optional p).match? place = some (some place') := by
  rw [match?, h]
  rfl

theorem match?_optional_of_fails (h : p.match? place = some none) :
    (optional p).match? place = some (some place) := by
  rw [match?, h]
  rfl

theorem match?_many (h : p.match? place = some (some place')) :
    (many p).match? place = (many p).match? place' := by
  rw [match?, h]
  rfl

theorem match?_many_of_fails (h : p.match? place = some none) :
    (many p).match? place = some (some place) := by
  rw [match?, h]
  rfl

end Steps

/-! ## Characters of one kind -/

variable {kind : Char → Bool} {passed front behind : List Char} {found : List String}

/-- Can no more characters of the kind be taken? -/
def Stops (kind : Char → Bool) (behind : List Char) : Prop := ∀ c ∈ behind.head?, kind c = false

theorem stops_nil (kind : Char → Bool) : Stops kind [] := fun _ h => by cases h

theorem stops_cons {c : Char} (h : kind c = false) : Stops kind (c :: behind) := fun d hd => by
  obtain rfl : c = d := Option.some.inj hd
  exact h

theorem match?_letter (place : Place) :
    letter.match? place = some (place.next fun c => !isBlank c) := by
  obtain ⟨passed, rest, found⟩ := place
  cases rest with
  | nil => simp [letter, match?, Place.next]
  | cons c rest => cases hc : isBlank c <;> simp [letter, match?, Place.next, hc]

/-- **As many characters are taken as there are of the kind.** -/
theorem match?_many_next {p : Pattern} (hp : ∀ place, p.match? place = some (place.next kind))
    (hbehind : Stops kind behind) : ∀ {front passed : List Char}, (∀ c ∈ front, kind c = true) →
      (many p).match? ⟨passed, front ++ behind, found⟩ =
        some (some ⟨passed ++ front, behind, found⟩)
  | [], passed, _ => by
    rw [List.nil_append, List.append_nil]
    refine match?_many_of_fails ?_
    rw [hp, Place.next]
    cases behind with
    | nil => rfl
    | cons c behind => simp [hbehind c rfl]
  | c :: front, passed, hfront => by
    obtain ⟨hc, hfront⟩ := List.forall_mem_cons.1 hfront
    have hstep : p.match? ⟨passed, c :: front ++ behind, found⟩ =
        some (some ⟨passed ++ [c], front ++ behind, found⟩) := by
      rw [hp, List.cons_append, Place.next]
      simp [hc]
    rw [match?_many hstep, match?_many_next hp hbehind hfront, List.append_assoc,
      List.singleton_append]

theorem match?_blanks (hfront : ∀ c ∈ front, isBlank c = true) (hbehind : Stops isBlank behind) :
    blanks.match? ⟨passed, front ++ behind, found⟩ = some (some ⟨passed ++ front, behind, found⟩) :=
  match?_many_next (fun place => by rw [match?]) hbehind hfront

/-- A word is taken to its end. -/
theorem match?_word {text : String} (htext : IsWord text)
    (hbehind : Stops (fun c => !isBlank c) behind) :
    word.match? ⟨passed, text.toList ++ behind, found⟩ =
      some (some ⟨passed ++ text.toList, behind, found ++ [text]⟩) := by
  obtain ⟨c, cs, hchars⟩ := List.exists_cons_of_ne_nil (mt String.toList_eq_nil_iff.1 htext.1)
  have hletters : ∀ d ∈ c :: cs, (!isBlank d) = true := fun d hd => by
    rw [htext.2 d (hchars ▸ hd)]
    rfl
  obtain ⟨hc, hcs⟩ := List.forall_mem_cons.1 hletters
  have hfirst : letter.match? ⟨passed, c :: (cs ++ behind), found⟩ =
      some (some ⟨passed ++ [c], cs ++ behind, found⟩) := by
    rw [match?_letter, Place.next]
    simp [hc]
  have hmatch : (both letter (many letter)).match? ⟨passed, c :: (cs ++ behind), found⟩ =
      some (some ⟨passed ++ c :: cs, behind, found⟩) := by
    rw [match?_both hfirst, match?_many_next match?_letter hbehind hcs, List.append_assoc,
      List.singleton_append]
  have hfound : String.ofList (c :: cs) = text := by rw [← hchars, String.ofList_toList]
  rw [hchars, List.cons_append, word, match?, hmatch]
  simp [Place.findSince, hfound]

/-- There is no word at the end of the text or before a blank. -/
theorem match?_word_of_stops (hbehind : Stops (fun c => !isBlank c) behind) :
    word.match? ⟨passed, behind, found⟩ = some none := by
  have hfails : letter.match? ⟨passed, behind, found⟩ = some none := by
    rw [match?_letter, Place.next]
    cases behind with
    | nil => rfl
    | cons c behind =>
      have hc : isBlank c = true := by simpa using hbehind c rfl
      simp [hc]
  rw [word, match?, match?_both_of_fails hfails]
  rfl

/-! ## From word to word -/

section Turns

variable {place : Place} {rest : List String}

/-- The place behind all of the text. -/
def atEnd (place : Place) : Place := ⟨place.passed ++ place.rest, [], place.found⟩

theorem match?_blanks_atEnd (h : ∀ c ∈ place.rest, isBlank c = true) :
    blanks.match? place = some (some (atEnd place)) := by
  have hmatch :
      blanks.match? ⟨place.passed, place.rest ++ [], place.found⟩ = some (some (atEnd place)) :=
    match?_blanks h (stops_nil _)
  rwa [List.append_nil] at hmatch

/-- **Blanks are taken, and the word behind them.** -/
theorem exists_turn {text : String} (h : words (String.ofList place.rest) = text :: rest) :
    ∃ before behind, blanks.match? place = some (some before) ∧
      word.match? before = some (some behind) ∧
      behind.found = place.found ++ [text] ∧ words (String.ofList behind.rest) = rest := by
  obtain ⟨passed, chars, found⟩ := place
  obtain ⟨htext, lead, behind, hchars, hlead, hbehind⟩ := exists_first_word h
  obtain rfl : chars = lead ++ text.toList ++ behind := hchars
  obtain ⟨c, cs, hcs⟩ := List.exists_cons_of_ne_nil (mt String.toList_eq_nil_iff.1 htext.1)
  have hstart : Stops isBlank (text.toList ++ behind) := by
    rw [hcs]
    exact stops_cons (htext.2 c (hcs ▸ List.mem_cons_self))
  have hblanks : blanks.match? ⟨passed, lead ++ (text.toList ++ behind), found⟩ =
      some (some ⟨passed ++ lead, text.toList ++ behind, found⟩) := match?_blanks hlead hstart
  rw [← List.append_assoc] at hblanks
  rcases hbehind with ⟨rfl, rfl⟩ | ⟨d, after, rfl, hd, rfl⟩
  · exact ⟨_, _, hblanks, match?_word htext (stops_nil _), rfl, rfl⟩
  · exact ⟨_, _, hblanks, match?_word htext (stops_cons (congrArg not hd)), rfl,
      words_append_blank hd [] after⟩

/-- **Turn by turn, the words of a text are taken**, and what is left is blank. -/
theorem exists_turns : ∀ {rest : List String} {place : Place},
    words (String.ofList place.rest) = rest → ∃ behind,
      (many (both blanks word)).match? place = some (some behind) ∧
      behind.found = place.found ++ rest ∧ ∀ c ∈ behind.rest, isBlank c = true
  | [], place, h => by
    have hblank := isBlank_of_words_eq_nil h
    have hfails : (both blanks word).match? place = some none := by
      rw [match?_both (match?_blanks_atEnd hblank)]
      exact match?_word_of_stops (stops_nil _)
    exact ⟨place, match?_many_of_fails hfails, (List.append_nil _).symm, hblank⟩
  | text :: rest, place, h => by
    obtain ⟨before, behind, hblanks, hword, hfound, hrest⟩ := exists_turn h
    obtain ⟨behind', hturns, hfound', hblank⟩ := exists_turns hrest
    have hturn : (both blanks word).match? place = some (some behind) := by
      rw [match?_both hblanks, hword]
    refine ⟨behind', by rw [match?_many hturn, hturns], ?_, hblank⟩
    rw [hfound', hfound, List.append_assoc, List.singleton_append]

/-- **A program has its words between blanks.** Blanks at the front are taken before the first word,
those at the end behind the last one. -/
theorem exists_program (text : List Char) :
    ∃ behind, program.match? ⟨[], text, []⟩ = some (some behind) ∧
      behind.found = words (String.ofList text) := by
  have hstart : start.match? ⟨[], text, []⟩ = some (some ⟨[], text, []⟩) := by
    rw [match?]
    rfl
  -- once the words are taken, blanks are left, and the end behind them
  suffices h : ∃ last, (both blanks (optional (both word (many (both blanks word))))).match?
      ⟨[], text, []⟩ = some (some last) ∧ last.found = words (String.ofList text) ∧
        ∀ c ∈ last.rest, isBlank c = true by
    obtain ⟨last, hlast, hfound, hblank⟩ := h
    refine ⟨atEnd last, ?_, hfound⟩
    have hfinish : finish.match? (atEnd last) = some (some (atEnd last)) := by
      rw [match?]
      rfl
    have hwords := (match?_both hstart).trans hlast
    exact (match?_both hwords).trans ((match?_both (match?_blanks_atEnd hblank)).trans hfinish)
  cases hwords : words (String.ofList text) with
  | nil =>
    have hblanks : blanks.match? ⟨[], text, []⟩ = some (some ⟨text, [], []⟩) :=
      match?_blanks_atEnd (isBlank_of_words_eq_nil hwords)
    have hfails : (both word (many (both blanks word))).match? ⟨text, [], []⟩ = some none :=
      match?_both_of_fails (match?_word_of_stops (stops_nil _))
    exact ⟨_, (match?_both hblanks).trans (match?_optional_of_fails hfails), rfl,
      List.forall_mem_nil _⟩
  | cons first rest =>
    obtain ⟨before, behind, hblanks, hword, hfound, hrest⟩ := @exists_turn ⟨[], text, []⟩ _ _ hwords
    obtain ⟨last, hturns, hfound', hblank⟩ := exists_turns hrest
    have htaken := match?_optional ((match?_both hword).trans hturns)
    refine ⟨last, (match?_both hblanks).trans htaken, ?_, hblank⟩
    rw [hfound', hfound]
    rfl

end Turns

end Pattern

/-- **The grammar accepts every text, and the words it finds are the words of the text.** -/
theorem grammarWords?_eq (text : String) : grammarWords? text = some (some (words text)) := by
  obtain ⟨behind, hprogram, hfound⟩ := Pattern.exists_program text.toList
  rw [String.ofList_toList] at hfound
  rw [grammarWords?, hprogram, ← hfound]
  rfl

end RpnTape
