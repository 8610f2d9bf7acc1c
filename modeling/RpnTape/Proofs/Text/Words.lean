import RpnTape.Text.Words

/-!
# Proofs/Text/Words — taking a text apart at its words

A text with words in it begins with blanks and its first word, and then it is at its end or at a
blank (`exists_first_word`). Everything else goes from word to word: no word has a blank in it, and
a text can be cut right before any of its words (`exists_cut`).
-/

namespace RpnTape

/-- Does the text have characters, and no blank among them? -/
def IsWord (text : String) : Prop := text ≠ "" ∧ ∀ c ∈ text.toList, isBlank c = false

theorem words_of_blanks {blanks : List Char} (h : ∀ c ∈ blanks, isBlank c = true) :
    words (String.ofList blanks) = [] := by
  rw [← List.append_nil blanks, words_blanks_append h]
  rfl

theorem IsWord.words_eq {word : String} (h : IsWord word) : words word = [word] := by
  have hne : word.toList ≠ [] := mt String.toList_eq_nil_iff.1 h.1
  have hpieces : word.toList.splitOnP isBlank = [word.toList] :=
    List.splitOnP_eq_singleton fun c hc => h.2 c hc
  rw [words, hpieces]
  simp [hne, String.ofList_toList]

/-- A text up to its first blank, and what is left. -/
theorem exists_span : ∀ text : List Char, ∃ front behind, text = front ++ behind ∧
    (∀ c ∈ front, isBlank c = false) ∧
      (behind = [] ∨ ∃ c after, behind = c :: after ∧ isBlank c = true)
  | [] => ⟨[], [], rfl, List.forall_mem_nil _, .inl rfl⟩
  | c :: text => by
    cases hc : isBlank c with
    | true => exact ⟨[], c :: text, rfl, List.forall_mem_nil _, .inr ⟨c, text, rfl, hc⟩⟩
    | false =>
      obtain ⟨front, behind, rfl, hfront, hbehind⟩ := exists_span text
      exact ⟨c :: front, behind, rfl, List.forall_mem_cons.2 ⟨hc, hfront⟩, hbehind⟩

/-- **A text that does not begin with a blank begins with a word**, which ends at a
blank or with the text. -/
theorem exists_word_of_not_isBlank {c : Char} (hc : isBlank c = false) (text : List Char) :
    ∃ word behind, IsWord word ∧ c :: text = word.toList ++ behind ∧
      (behind = [] ∨ ∃ d after, behind = d :: after ∧ isBlank d = true) ∧
      words (String.ofList (c :: text)) = word :: words (String.ofList behind) := by
  obtain ⟨front, behind, rfl, hfront, hbehind⟩ := exists_span text
  have hword : IsWord (String.ofList (c :: front)) := by
    refine ⟨fun heq => ?_, ?_⟩
    · rw [← String.toList_eq_nil_iff, String.toList_ofList] at heq
      cases heq
    · rw [String.toList_ofList]
      exact List.forall_mem_cons.2 ⟨hc, hfront⟩
  refine ⟨String.ofList (c :: front), behind, hword, by rw [String.toList_ofList]; rfl, hbehind, ?_⟩
  rcases hbehind with rfl | ⟨d, after, rfl, hd⟩
  · rw [List.append_nil, hword.words_eq]
    rfl
  · rw [← List.cons_append, words_append_blank hd, hword.words_eq, List.singleton_append]
    exact congrArg _ (words_append_blank hd [] after).symm

/-- A text without words is blank. -/
theorem isBlank_of_words_eq_nil : ∀ {text : List Char}, words (String.ofList text) = [] →
    ∀ c ∈ text, isBlank c = true
  | [], _ => List.forall_mem_nil _
  | c :: text, h => by
    cases hc : isBlank c with
    | true =>
      have hblank : ∀ d ∈ [c], isBlank d = true := List.forall_mem_singleton.2 hc
      rw [← List.singleton_append, words_blanks_append hblank] at h
      exact List.forall_mem_cons.2 ⟨hc, isBlank_of_words_eq_nil h⟩
    | false =>
      obtain ⟨word, behind, -, -, -, hwords⟩ := exists_word_of_not_isBlank hc text
      cases h.symm.trans hwords

/-- **The first word of a text**, with the blanks before it and what comes behind. -/
theorem exists_first_word {word : String} {rest : List String} : ∀ {text : List Char},
    words (String.ofList text) = word :: rest →
      IsWord word ∧ ∃ blanks behind, text = blanks ++ word.toList ++ behind ∧
        (∀ c ∈ blanks, isBlank c = true) ∧
        (behind = [] ∧ rest = [] ∨ ∃ c after, behind = c :: after ∧ isBlank c = true ∧
          words (String.ofList after) = rest)
  | [], h => by cases h
  | c :: text, h => by
    cases hc : isBlank c with
    | true =>
      have hblank : ∀ d ∈ [c], isBlank d = true := List.forall_mem_singleton.2 hc
      rw [← List.singleton_append, words_blanks_append hblank] at h
      obtain ⟨hword, blanks, behind, rfl, hblanks, hrest⟩ := exists_first_word h
      exact ⟨hword, c :: blanks, behind, rfl, List.forall_mem_cons.2 ⟨hc, hblanks⟩, hrest⟩
    | false =>
      obtain ⟨first, behind, hfirst, htext, hbehind, hwords⟩ := exists_word_of_not_isBlank hc text
      obtain ⟨rfl, rfl⟩ := List.cons.inj (h.symm.trans hwords)
      refine ⟨hfirst, [], behind, htext, List.forall_mem_nil _, ?_⟩
      rcases hbehind with rfl | ⟨d, after, rfl, hd⟩
      · exact .inl ⟨rfl, rfl⟩
      · exact .inr ⟨d, after, rfl, hd, (words_append_blank hd [] after).symm⟩

/-- **Words have characters, and no blank among them.** -/
theorem isWord_of_mem_words {text word : String} (h : word ∈ words text) : IsWord word := by
  rw [← String.ofList_toList (s := text)] at h
  generalize text.toList = chars at h
  generalize hwords : words (String.ofList chars) = listed at h
  induction listed generalizing chars with
  | nil => exact absurd h List.not_mem_nil
  | cons first rest ih =>
    obtain ⟨hfirst, blanks, behind, -, -, hbehind⟩ := exists_first_word hwords
    rcases List.mem_cons.1 h with rfl | h
    · exact hfirst
    · rcases hbehind with ⟨-, rfl⟩ | ⟨c, after, -, -, hafter⟩
      · exact absurd h List.not_mem_nil
      · exact ih after hafter h

/-- A list of characters is cut right before one of its words. -/
theorem exists_cut_toList {word : String} {after : List String} :
    ∀ {before : List String} {text : List Char},
      words (String.ofList text) = before ++ word :: after →
        ∃ left right, text = left ++ word.toList ++ right ∧ words (String.ofList left) = before ∧
          words (String.ofList right) = after
  | [], text, h => by
    obtain ⟨-, blanks, behind, rfl, hblanks, hbehind⟩ := exists_first_word h
    refine ⟨blanks, behind, rfl, words_of_blanks hblanks, ?_⟩
    rcases hbehind with ⟨rfl, rfl⟩ | ⟨c, behind, rfl, hc, rfl⟩
    · rfl
    · exact words_append_blank hc [] behind
  | first :: before, text, h => by
    obtain ⟨hfirst, blanks, behind, rfl, hblanks, hbehind⟩ := exists_first_word h
    rcases hbehind with ⟨-, hnil⟩ | ⟨c, behind, rfl, hc, hbehind⟩
    · exact absurd hnil (List.append_ne_nil_of_right_ne_nil _ (List.cons_ne_nil _ _))
    obtain ⟨left, right, rfl, hleft, hright⟩ := exists_cut_toList hbehind
    refine ⟨blanks ++ first.toList ++ c :: left, right, ?_, ?_, hright⟩
    · simp only [List.append_assoc, List.cons_append]
    · rw [words_append_blank hc, words_blanks_append hblanks, String.ofList_toList, hfirst.words_eq,
        hleft, List.singleton_append]

/-- **A text can be cut right before any of its words**: what is in front has the words before, and
what is behind has the words after. -/
theorem exists_cut {text word : String} {before after : List String}
    (h : words text = before ++ word :: after) :
    ∃ left right, text = left ++ word ++ right ∧ words left = before ∧ words right = after := by
  rw [← String.ofList_toList (s := text)] at h
  obtain ⟨left, right, htext, hleft, hright⟩ := exists_cut_toList h
  refine ⟨String.ofList left, String.ofList right, ?_, hleft, hright⟩
  rw [← String.toList_inj, String.toList_append, String.toList_append, String.toList_ofList,
    String.toList_ofList, htext]

/-- **Texts joined by blanks have their words one after the other.** -/
theorem words_intercalate :
    ∀ texts : List String, words (" ".intercalate texts) = texts.flatMap words
  | [] => rfl
  | [text] => by rw [String.intercalate_singleton, List.flatMap_singleton]
  | text :: text' :: texts => by
    have hblank : ∀ c ∈ " ".toList, isBlank c = true := List.forall_mem_singleton.2 (by decide)
    rw [String.intercalate_cons_cons, words_append_blanks (by decide) hblank,
      words_intercalate (text' :: texts)]
    rfl

end RpnTape
