import RpnTape.Cli.Outcome
import RpnTape.Interpret
import RpnTape.Proofs.Formula.LineBreaks
import RpnTape.Proofs.Machine.Equations
import RpnTape.Proofs.Text.Words

/-!
# Proofs/Cli/Agreement — the ways to ask for the results of a program agree

The results of a program can be had as formulas, as one text, and as lines that the command
line prints, each line an equation as text or as markup. All of them present one run, and no
equation is broken over two lines: a line break is a blank, so no word holds one, and the names
in a formula come from words.

A program that stops prints what it would have printed had it ended before
the word that it stopped at.
-/

namespace RpnTape

/-! ## Lines -/

theorem lines_cons (text : String) (texts : List String) :
    lines (text :: texts) = text ++ "\n" ++ lines texts := by
  rw [lines, List.map_cons, String.join_cons, lines]

/-- Lines are their texts and an empty one, joined by line breaks. -/
theorem lines_eq_intercalate : ∀ texts : List String, lines texts = "\n".intercalate (texts ++ [""])
  | [] => by rw [List.nil_append, String.intercalate_singleton]; rfl
  | text :: texts => by
    have hne : texts ++ [""] ≠ [] := List.append_ne_nil_of_right_ne_nil _ (List.cons_ne_nil _ _)
    rw [lines_cons, lines_eq_intercalate texts, List.cons_append,
      String.intercalate_cons_of_ne_nil hne]

theorem lines_of_ne_nil {texts : List String} (h : texts ≠ []) :
    lines texts = "\n".intercalate texts ++ "\n" := by
  rw [lines_eq_intercalate, String.intercalate_append_of_ne_nil h (List.cons_ne_nil _ _),
    String.intercalate_singleton, String.append_empty]

/-- **Split at the line breaks, lines give back their texts**, and an empty
text behind the last break. -/
theorem split_lines {texts : List String} (h : ∀ text ∈ texts, IsOneLine text) :
    ((lines texts).split '\n').toList.map String.Slice.copy = texts ++ [""] := by
  have hmem : ∀ text ∈ texts ++ [""], '\n' ∉ text.toList :=
    List.forall_mem_append.2 ⟨h, List.forall_mem_singleton.2 (by decide)⟩
  have hsplit := String.toList_split_intercalate hmem
  rw [if_neg (List.append_ne_nil_of_right_ne_nil texts (List.cons_ne_nil "" []))] at hsplit
  rw [lines_eq_intercalate]
  exact hsplit

/-! ## The equations of a text -/

namespace Run

/-- **Every equation of a program text is free of line breaks.** -/
theorem isOneLine_of_mem_equations (text : String) :
    ∀ equation ∈ (ofText text).equations, Formula.IsOneLine equation := by
  -- a line break is a blank, and there is no blank in a word
  have hname : ∀ name, FromWords (words text) name → IsOneLine name := by
    rintro name ⟨word, hword, hname⟩ hbreak
    exact absurd ((isWord_of_mem_words hword).2 _ (hname hbreak)) (by decide)
  have hline : ∀ id equation, (ofText text).tape.Equates id equation →
      Formula.IsOneLine equation := by
    rintro id equation ⟨e, value, he, -, rfl⟩
    have hover : e.IsOver (·.isNaN = false) IsOneLine :=
      he.isOver (fun _ _ hentry => (isOver_of_get? hentry).mono hname) e (List.mem_singleton_self e)
    exact hover.isOneLine_equation value
  have hall := (equates_equations (words text)).flip.imp fun equation id h =>
    And.intro (hline id equation h) h
  exact ((List.forall₂_and_left _ _).1 hall).1

theorem equation?_of_equates {program : List String} {id : NodeId} {equation : Formula}
    (h : (ofWords program).tape.Equates id equation) :
    ((Typesetter.ofTape (ofWords program).tape).equation? id).1 = some equation := by
  obtain ⟨performed, -, htape⟩ := exists_feed_eq program
  rw [htape] at h ⊢
  exact (Machine.operandsFirst_feed performed).equation?_of_equates h

/-- **A run that stops has the equations of the text in front of the word that it stops at.** -/
theorem exists_cut_of_fault {text : String} {fault : Fault} (h : (ofText text).fault = some fault) :
    ∃ left word right, text = left ++ word ++ right ∧
      words text = words left ++ word :: words right ∧
      ((Machine.initial.feed (words left)).step word).2 = .error fault ∧
      (ofText left).fault = none ∧ (ofText left).equations = (ofText text).equations := by
  rw [ofText, ofWords] at h ⊢
  rcases Machine.run_eq_cases .initial (words text) with
    hrun | ⟨before, word, after, fault', hwords, hstep, hleft, hrun⟩
  · rw [hrun] at h
    cases h
  · obtain rfl : fault' = fault := by
      rw [hrun] at h
      exact Option.some.inj h
    obtain ⟨left, right, rfl, rfl, rfl⟩ := exists_cut hwords
    refine ⟨left, word, right, rfl, hwords, by rw [hstep], ?_, ?_⟩
    · rw [ofText, ofWords, hleft, Machine.finish]
    · rw [ofText, ofWords, hleft, hrun]
      rfl

end Run

/-! ## What is said of a program as a whole -/

theorem interpret_eq_ok_iff {text result : String} : interpret text = .ok result ↔
    (Run.ofText text).fault = none ∧
      result = "\n".intercalate ((Run.ofText text).equations.map Formula.text) := by
  cases hfault : (Run.ofText text).fault with
  | none => simp [interpret, hfault, eq_comm]
  | some fault => simp [interpret, hfault]

theorem interpret_eq_error_iff {text : String} {fault : Fault} :
    interpret text = .error fault ↔ (Run.ofText text).fault = some fault := by
  cases hfault : (Run.ofText text).fault with
  | none => simp [interpret, hfault]
  | some fault' => simp [interpret, hfault]

/-! ## What the command line prints -/

/-- Does the format print each equation on a line, written like this? -/
inductive Format.Writes : Format → (Formula → String) → Prop
  | text : Writes .text Formula.text
  | mathML : Writes .mathML Formula.mathML

namespace Format.Writes

variable {format : Format} {write : Formula → String}

theorem printed_eq (h : format.Writes write) (run : Run) :
    run.printed format = lines (run.equations.map write) := by
  cases h with
  | text => rfl
  | mathML => rfl

theorem isOneLine (h : format.Writes write) {formula : Formula}
    (hformula : Formula.IsOneLine formula) : IsOneLine (write formula) := by
  cases h with
  | text => exact hformula.text
  | mathML => exact hformula.mathML

end Format.Writes

namespace Request

/-- A program text can be given as one word. -/
theorem programText?_singleton (text : String) (input : ByteArray) :
    programText? [text] input = some text := by
  rw [programText?, String.intercalate_singleton]
  rfl

/-- It can also be given as the standard input. -/
theorem programText?_toUTF8 (text : String) : programText? [] text.toUTF8 = some text :=
  dif_pos text.isValidUTF8

theorem outcome_eval {words : List String} {input : ByteArray} {text : String}
    (h : programText? words input = some text) (format : Format) :
    (eval format words).outcome input = .ofRun format (.ofText text) := by
  rw [outcome, h]

/-- **Words on the command line are run one after the other.** -/
theorem outcome_eval_cons (format : Format) (word : String) (rest : List String)
    (input : ByteArray) :
    (eval format (word :: rest)).outcome input =
      .ofRun format (.ofWords ((word :: rest).flatMap words)) := by
  have htext : programText? (word :: rest) input = some (" ".intercalate (word :: rest)) := rfl
  rw [outcome_eval htext, Run.ofText, words_intercalate]

end Request

namespace Outcome

/-- **The outcome presents the run of the text**: its equations line by line, and whether and
where the run has stopped. -/
structure Presents (outcome : Outcome) (format : Format) (write : Formula → String)
    (text : String) : Prop where
  /-- The equations are printed, each with a line break behind it. -/
  output_eq : outcome.output = lines ((Run.ofText text).equations.map write)
  /-- There are no other line breaks. -/
  isOneLine : ∀ equation ∈ (Run.ofText text).equations, '\n' ∉ (write equation).toList
  /-- So the lines of the output are the equations, and nothing stands behind the last break. -/
  split_output : (outcome.output.split '\n').toList.map String.Slice.copy =
    (Run.ofText text).equations.map write ++ [""]
  /-- The program ends well if and only if the text has a result. -/
  exit_eq_zero_iff : outcome.exit = 0 ↔ ∃ result, interpret text = .ok result
  /-- A run that stops is cut off before one of its words: the output is
  that of the text in front. -/
  of_fault : ∀ fault, (Run.ofText text).fault = some fault →
    outcome.exit = 1 ∧ ∃ left word right, text = left ++ word ++ right ∧
      words text = words left ++ word :: words right ∧
      ((Machine.initial.feed (words left)).step word).2 = .error fault ∧
      ∀ input, (Request.eval format [left]).outcome input = success outcome.output

theorem output_ofRun (format : Format) (run : Run) :
    (ofRun format run).output = run.printed format := by
  unfold ofRun
  split <;> rfl

theorem exit_ofRun_eq_zero_iff (format : Format) (text : String) :
    (ofRun format (.ofText text)).exit = 0 ↔ ∃ result, interpret text = .ok result := by
  cases hfault : (Run.ofText text).fault with
  | none => simp [ofRun, success, interpret_eq_ok_iff, hfault]
  | some fault => simp [ofRun, interpret_eq_ok_iff, hfault]

/-- **A run printed line by line is presented.** -/
theorem presents_ofRun {format : Format} {write : Formula → String} (h : format.Writes write)
    (text : String) : (ofRun format (.ofText text)).Presents format write text := by
  have houtput : (ofRun format (.ofText text)).output =
      lines ((Run.ofText text).equations.map write) := by
    rw [output_ofRun, h.printed_eq]
  have hlines : ∀ equation ∈ (Run.ofText text).equations, IsOneLine (write equation) :=
    fun equation hmem => h.isOneLine (Run.isOneLine_of_mem_equations text equation hmem)
  refine ⟨houtput, hlines, ?_, exit_ofRun_eq_zero_iff format text, fun fault hfault => ?_⟩
  · rw [houtput]
    exact split_lines (List.forall_mem_map.2 hlines)
  · obtain ⟨left, word, right, htext, hwords, hstep, hleft, hequations⟩ :=
      Run.exists_cut_of_fault hfault
    refine ⟨by rw [ofRun, hfault], left, word, right, htext, hwords, hstep, fun input => ?_⟩
    rw [Request.outcome_eval (Request.programText?_singleton left input), ofRun, hleft, houtput,
      h.printed_eq, hequations]

end Outcome

/-- **The ways to ask for the results of the text agree.** -/
structure FrontEndsAgree (text : String) : Prop where
  /-- There is one equation for each result, in order, also when the run has stopped at a fault. -/
  equations : List.Forall₂
    (fun id equation =>
      ((Typesetter.ofTape (Run.ofText text).tape).equation? id).1 = some equation)
    (Run.ofText text).results (Run.ofText text).equations
  /-- A text whose run does not stop has a result: the texts of the
  equations, joined by line breaks. -/
  interpret_ok : ∀ result, interpret text = .ok result ↔ (Run.ofText text).fault = none ∧
    result = "\n".intercalate ((Run.ofText text).equations.map Formula.text)
  /-- A text whose run stops has none. -/
  interpret_error : ∀ fault, interpret text = .error fault ↔ (Run.ofText text).fault = some fault
  /-- The command line takes the text as a word. -/
  as_word : ∀ input, Request.programText? [text] input = some text
  /-- It takes the text as its input. -/
  as_input : Request.programText? [] text.toUTF8 = some text
  /-- However it is given the text, it presents the run, as text or as markup. -/
  presents : ∀ format write words input, format.Writes write →
    Request.programText? words input = some text →
      ((Request.eval format words).outcome input).Presents format write text
  /-- Where the text has a result, the lines of text are the result with a line break behind it, but
  for the result of nothing. -/
  output_text : ∀ result words input, interpret text = .ok result →
    Request.programText? words input = some text →
      ((Request.eval .text words).outcome input).output =
        if (Run.ofText text).results = [] then "" else result ++ "\n"

/-- **The front ends agree**, and a program given in several words on the command line is
that of the words in them. -/
theorem frontEnds_agree (text word : String) (rest : List String) :
    FrontEndsAgree text ∧ ∀ format input, (Request.eval format (word :: rest)).outcome input =
      .ofRun format (.ofWords ((word :: rest).flatMap words)) := by
  have hequations : List.Forall₂ (Run.ofText text).tape.Equates (Run.ofText text).results
      (Run.ofText text).equations := Run.equates_equations (words text)
  refine ⟨⟨hequations.imp fun _ _ h => Run.equation?_of_equates h, fun _ => interpret_eq_ok_iff,
    fun _ => interpret_eq_error_iff, Request.programText?_singleton text,
    Request.programText?_toUTF8 text, ?_, ?_⟩,
    fun format input => Request.outcome_eval_cons format word rest input⟩
  · intro format write words input hwrites htext
    rw [Request.outcome_eval htext]
    exact Outcome.presents_ofRun hwrites text
  · intro result words input hresult htext
    obtain ⟨-, rfl⟩ := interpret_eq_ok_iff.1 hresult
    rw [Request.outcome_eval htext, (Outcome.presents_ofRun .text text).output_eq]
    generalize (Run.ofText text).results = results,
      (Run.ofText text).equations = equations at hequations ⊢
    cases hequations with
    | nil => rfl
    | cons _ _ => exact lines_of_ne_nil (List.cons_ne_nil _ _)

end RpnTape
