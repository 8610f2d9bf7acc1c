import RpnTape.Text.Blank

/-!
# Text/Words — a program text as its words

The text is cut at every blank and the empty pieces are dropped, so runs of blanks count as one
separator and blanks at either end count for nothing. Every text has words: nothing is rejected.
-/

namespace RpnTape

/-- The maximal blank-free pieces of a text, in order. -/
def words (text : String) : List String :=
  ((text.toList.splitOnP isBlank).filter fun piece => !piece.isEmpty).map String.ofList

/-- **A blank cuts the words of a text in two** — every law of `words` follows from this one. -/
theorem words_append_blank {c : Char} (hc : isBlank c = true) (left right : List Char) :
    words (String.ofList (left ++ c :: right)) =
      words (String.ofList left) ++ words (String.ofList right) := by
  simp only [words, String.toList_ofList, List.splitOnP_append_cons left right hc,
    List.filter_append, List.map_append]

/-- Blanks before a text count for nothing. -/
theorem words_blanks_append : ∀ {blanks : List Char}, (∀ c ∈ blanks, isBlank c = true) →
    ∀ text : List Char, words (String.ofList (blanks ++ text)) = words (String.ofList text)
  | [], _, _ => rfl
  | c :: blanks, h, text => by
    obtain ⟨hc, hblanks⟩ := List.forall_mem_cons.1 h
    have hcut := words_append_blank hc [] (blanks ++ text)
    rw [words_blanks_append hblanks text] at hcut
    exact hcut

/-- **Texts with blanks between them have their words one after the other.** -/
theorem words_append_blanks {blanks : String} (hne : blanks ≠ "")
    (h : ∀ c ∈ blanks.toList, isBlank c = true) (left right : String) :
    words (left ++ blanks ++ right) = words left ++ words right := by
  obtain ⟨c, rest, hblanks⟩ := List.exists_cons_of_ne_nil (mt String.toList_eq_nil_iff.1 hne)
  rw [hblanks] at h
  obtain ⟨hc, hrest⟩ := List.forall_mem_cons.1 h
  have htext : left ++ blanks ++ right =
      String.ofList (left.toList ++ c :: (rest ++ right.toList)) := by
    rw [← String.toList_inj, String.toList_ofList, String.toList_append, String.toList_append,
      hblanks, List.append_assoc, List.cons_append]
  rw [htext, words_append_blank hc, words_blanks_append hrest, String.ofList_toList,
    String.ofList_toList]

end RpnTape
