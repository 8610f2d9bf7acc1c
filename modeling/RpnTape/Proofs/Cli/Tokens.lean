import RpnTape.Proofs.Cli.Agreement
import RpnTape.Proofs.Text.Grammar
import RpnTape.Proofs.Text.Splitting

/-!
# Proofs/Cli/Tokens — the words of a program, printed and read again

The words of a text are what the grammar of programs finds in it and what it splits into. The
command line prints them on lines, and a line break is a blank: **what is printed has the same
words** (`words_lines`), so it can be given to the program again in place of the text.
-/

namespace RpnTape

/-- **Words on lines are the words of the lines.** -/
theorem words_lines :
    ∀ {texts : List String}, (∀ text ∈ texts, IsWord text) → words (lines texts) = texts
  | [], _ => words_empty
  | text :: texts, h => by
    obtain ⟨htext, htexts⟩ := List.forall_mem_cons.1 h
    have hbreak : IsGap "\n" := List.forall_mem_singleton.2 (by decide)
    rw [lines_cons, words_append_blanks (by decide) hbreak, htext.words_eq, words_lines htexts,
      List.singleton_append]

theorem words_lines_words (text : String) : words (lines (words text)) = words text :=
  words_lines fun _ => isWord_of_mem_words

namespace Request

variable {program program' : List String} {input input' : ByteArray} {text text' : String}

theorem outcome_tokens (h : programText? program input = some text) :
    (tokens program).outcome input = .success (lines (words text)) := by
  rw [outcome, h]

/-- Programs with the same words have the same outcomes. -/
theorem outcome_eq_of_words_eq (h : programText? program input = some text)
    (h' : programText? program' input' = some text') (hwords : words text' = words text) :
    (tokens program').outcome input' = (tokens program).outcome input ∧
      ∀ format, (eval format program').outcome input' = (eval format program).outcome input := by
  refine ⟨by rw [outcome_tokens h, outcome_tokens h', hwords], fun format => ?_⟩
  rw [outcome_eval h, outcome_eval h', Run.ofText, Run.ofText, hwords]

end Request

/-- **The words of a text are exactly what it splits into.** The grammar accepts the text and finds
them, and they are the one list of words that the text is made of with blanks between. So texts with
blanks between them have their words one after the other, and words with any blanks between them are
the words of the result. What the command line prints as the words of a program has the same words
and the same run, however it is given to the program again. -/
theorem words_exact (text : String) :
    grammarWords? text = some (some (words text)) ∧
      (∀ parts, Splits text parts ↔ parts = words text) ∧
      (∀ gap right, gap ≠ "" → IsGap gap →
        words (text ++ gap ++ right) = words text ++ words right) ∧
      (∀ first (others : List (String × String)), IsWord first →
        (∀ pair ∈ others, (pair.1 ≠ "" ∧ IsGap pair.1) ∧ IsWord pair.2) →
          words (first ++ String.join (others.map fun pair => pair.1 ++ pair.2)) =
            first :: others.map Prod.snd) ∧
      Run.ofText (lines (words text)) = Run.ofText text ∧
      Request.programText? [] (lines (words text)).toUTF8 = some (lines (words text)) ∧
      ∀ program input, Request.programText? program input = some text →
        (Request.tokens program).outcome input = .success (lines (words text)) ∧
          ∀ program' input', Request.programText? program' input' = some (lines (words text)) →
            (Request.tokens program').outcome input' = (Request.tokens program).outcome input ∧
              ∀ format, (Request.eval format program').outcome input' =
                (Request.eval format program).outcome input := by
  refine ⟨grammarWords?_eq text, fun _ => splits_iff, ?_, fun _ _ => words_joined, ?_,
    Request.programText?_toUTF8 _, ?_⟩
  · exact fun gap right hempty hgap => words_append_blanks hempty hgap text right
  · rw [Run.ofText, words_lines_words, Run.ofText]
  · intro program input htext
    refine ⟨Request.outcome_tokens htext, fun program' input' htext' => ?_⟩
    exact Request.outcome_eq_of_words_eq htext htext' (words_lines_words text)

end RpnTape
