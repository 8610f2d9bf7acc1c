import RpnTape.Proofs.Text.Words

/-!
# Proofs/Text/Splitting — a text splits into words in one way

A text is blanks, a word, blanks, a word and so on, where blanks may be missing in front
of the first word and behind the last one only. **There is one way to see a text like
this** (`splits_iff`), so how the blanks between the words are chosen makes no
difference to what the words are.
-/

namespace RpnTape

/-- Is the text made of blanks alone? It may be empty. -/
def IsGap (text : String) : Prop := ∀ c ∈ text.toList, isBlank c = true

/-- Is the text made of these words, with a gap in front of the first and one behind each? A gap
between two words is not empty. -/
def Splits (text : String) (parts : List String) : Prop :=
  ∃ lead gaps, text = lead ++ String.join (List.zipWith (· ++ ·) parts gaps) ∧
    gaps.length = parts.length ∧ (∀ part ∈ parts, IsWord part) ∧
    IsGap lead ∧ (∀ gap ∈ gaps, IsGap gap) ∧ ∀ gap ∈ gaps.dropLast, gap ≠ ""

theorem words_empty : words "" = [] := words_of_blanks (List.forall_mem_nil _)

theorem words_gap_append {gap : String} (h : IsGap gap) (text : String) :
    words (gap ++ text) = words text := by
  have hwords := words_blanks_append h text.toList
  rwa [← String.toList_append, String.ofList_toList, String.ofList_toList] at hwords

/-- A word with a gap behind it, at the end of the text or with something after the gap. -/
theorem words_part_append {part gap : String} (hpart : IsWord part) (hgap : IsGap gap)
    (text : String) (h : gap = "" → text = "") :
    words (part ++ gap ++ text) = part :: words text := by
  by_cases hempty : gap = ""
  · rw [hempty, h hempty, words_empty, String.append_empty, String.append_empty, hpart.words_eq]
  · rw [words_append_blanks hempty hgap, hpart.words_eq, List.singleton_append]

/-- Words with gaps behind them are the words of their text. -/
theorem words_join_zipWith : ∀ {parts gaps : List String}, gaps.length = parts.length →
    (∀ part ∈ parts, IsWord part) → (∀ gap ∈ gaps, IsGap gap) → (∀ gap ∈ gaps.dropLast, gap ≠ "") →
      words (String.join (List.zipWith (· ++ ·) parts gaps)) = parts
  | [], [], _, _, _, _ => words_empty
  | part :: parts, gap :: gaps, hlength, hparts, hgaps, hne => by
    obtain ⟨hpart, hparts⟩ := List.forall_mem_cons.1 hparts
    obtain ⟨hgap, hgaps⟩ := List.forall_mem_cons.1 hgaps
    have hlength : gaps.length = parts.length := Nat.succ.inj hlength
    rw [List.zipWith_cons_cons, String.join_cons]
    cases gaps with
    | nil =>
      obtain rfl : parts = [] := List.length_eq_zero_iff.1 hlength.symm
      exact (words_part_append hpart hgap "" fun _ => rfl).trans (by rw [words_empty])
    | cons gap' gaps =>
      obtain ⟨hempty, hne⟩ := List.forall_mem_cons.1 hne
      rw [words_part_append hpart hgap _ fun h => absurd h hempty,
        words_join_zipWith hlength hparts hgaps hne]

theorem Splits.eq_words {text : String} {parts : List String} (h : Splits text parts) :
    parts = words text := by
  obtain ⟨lead, gaps, rfl, hlength, hparts, hlead, hgaps, hne⟩ := h
  rw [words_gap_append hlead, words_join_zipWith hlength hparts hgaps hne]

/-- The words of a text are found in it one after the other. -/
theorem splits_of_words : ∀ {parts : List String} {text : List Char},
    words (String.ofList text) = parts → Splits (String.ofList text) parts
  | [], text, h => by
    refine ⟨String.ofList text, [], ?_, rfl, List.forall_mem_nil _, ?_, List.forall_mem_nil _,
      List.forall_mem_nil _⟩
    · exact (String.append_empty).symm
    · rw [IsGap, String.toList_ofList]
      exact isBlank_of_words_eq_nil h
  | part :: parts, text, h => by
    obtain ⟨hpart, lead, behind, rfl, hlead, hbehind⟩ := exists_first_word h
    have hlead' : IsGap (String.ofList lead) := by rwa [IsGap, String.toList_ofList]
    rcases hbehind with ⟨rfl, rfl⟩ | ⟨c, after, rfl, hc, hafter⟩
    · refine ⟨String.ofList lead, [""], ?_, rfl, List.forall_mem_singleton.2 hpart, hlead',
        List.forall_mem_singleton.2 (List.forall_mem_nil _), List.forall_mem_nil _⟩
      simp
    · -- the blank behind the word and those in front of the next one are one gap
      obtain ⟨lead', gaps, htext, hlength, hparts, hgap, hgaps, hne⟩ := splits_of_words hafter
      refine ⟨String.ofList lead, (String.ofList [c] ++ lead') :: gaps, ?_,
        congrArg Nat.succ hlength, List.forall_mem_cons.2 ⟨hpart, hparts⟩, hlead',
        List.forall_mem_cons.2 ⟨?_, hgaps⟩, ?_⟩
      · have hchars := congrArg String.toList htext
        rw [String.toList_ofList] at hchars
        simp [← String.toList_inj, hchars]
      · rw [IsGap, String.toList_append, String.toList_ofList]
        exact List.forall_mem_append.2 ⟨List.forall_mem_singleton.2 hc, hgap⟩
      · intro gap hmem
        cases gaps with
        | nil => cases hmem
        | cons gap' gaps =>
          rcases List.mem_cons.1 hmem with rfl | hmem
          · simp [← String.toList_inj]
          · exact hne gap hmem

/-- **A text splits into its words, and in no other way.** -/
theorem splits_iff {text : String} {parts : List String} :
    Splits text parts ↔ parts = words text := by
  refine ⟨Splits.eq_words, fun h => ?_⟩
  have hwords : words (String.ofList text.toList) = parts := by rw [String.ofList_toList, h]
  have hsplits := splits_of_words hwords
  rwa [String.ofList_toList] at hsplits

/-- **Words joined by blanks are the words of what they are joined to**,
whichever blanks are chosen. -/
theorem words_joined : ∀ {first : String} {others : List (String × String)}, IsWord first →
    (∀ pair ∈ others, (pair.1 ≠ "" ∧ IsGap pair.1) ∧ IsWord pair.2) →
      words (first ++ String.join (others.map fun pair => pair.1 ++ pair.2)) =
        first :: others.map Prod.snd
  | first, [], hfirst, _ => by
    rw [List.map_nil, List.map_nil, String.join_nil, String.append_empty, hfirst.words_eq]
  | first, (gap, word) :: others, hfirst, hothers => by
    obtain ⟨⟨⟨hempty, hgap⟩, hword⟩, hothers⟩ := List.forall_mem_cons.1 hothers
    rw [List.map_cons, String.join_cons, List.map_cons, ← words_joined hword hothers,
      ← String.append_assoc, ← String.append_assoc, String.append_assoc,
      words_append_blanks hempty hgap, hfirst.words_eq, List.singleton_append]

end RpnTape
