import RpnTape.Proofs.Machine.Equations

/-!
# Proofs/Machine/Stability — what is on the tape stays as it is, and so does what is drawn of it

A machine only ever adds to its tape (`continues_feed`). An entry stands for an expression
through the entries that it reaches, all of which came before it, so nothing that is logged
later has a say in what is drawn: not an assignment to a variable that the entry reads, and not
an entry that consumes it.
-/

namespace RpnTape

/-! ## Longer tapes -/

namespace Tape

variable {tape tape' : Tape} {question : Question} {answer : Answer}

/-- **An answer is still the answer on a longer tape.** -/
theorem Answers.mono (h : tape.Answers question (some answer)) (htape : tape.Continues tape') :
    tape'.Answers question (some answer) := by
  obtain ⟨-, e, value, he, hvalue, hanswer⟩ := h
  have he' := he.mono htape
  exact ⟨he'.complete _ List.mem_cons_self, e, value, he', htape.value? hvalue, hanswer⟩

/-- The answer to a question that is put to a typesetter after others. There is no result if the
typesetter does not get to the end of them. -/
def answerAfter (tape : Tape) (before : List Question) (question : Question) :
    Option (Option Answer) := do
  let (answers, _) ← (Typesetter.ofTape tape).askAll (before ++ [question])
  answers.getLast?

/-- Where operands never run in a circle, the questions before make no difference. -/
theorem answerAfter_of_answers {answer : Option Answer} (hacyclic : ∀ id, tape.Acyclic id)
    (h : tape.Answers question answer) (before : List Question) :
    tape.answerAfter before question = some answer := by
  have hsound : (Typesetter.ofTape tape).layouts.Sound tape := Layouts.sound_empty tape
  obtain ⟨answers, t, hasked, hanswers⟩ := Typesetter.exists_askAll_eq (before ++ [question]) hsound
    fun asked _ => hacyclic asked.id
  -- the last answer is the answer to the last question
  have hreversed := List.forall₂_reverse_iff.2 hanswers
  rw [List.reverse_append, List.reverse_singleton, List.singleton_append] at hreversed
  obtain ⟨last, others, hlast, -, hothers⟩ := List.forall₂_cons_left_iff.1 hreversed
  have hanswer : answers.getLast? = some answer := by
    rw [← List.head?_reverse, hothers, List.head?_cons, hlast.unique h]
  rw [answerAfter, hasked, Option.bind_eq_bind, Option.bind_some]
  exact hanswer

end Tape

namespace Machine

/-! ## Longer runs -/

/-- **A machine only adds to its tape.** -/
theorem continues_feed (m : Machine) (words : List String) : m.tape.Continues (m.feed words).tape :=
  feed_induction (P := fun m' => m.tape.Continues m'.tape)
    (fun h _ => h.trans (Tape.continues_push _ _ _)) words List.prefix_rfl

theorem OperandsFirst.feed {m : Machine} (hm : m.OperandsFirst) (words : List String) :
    (m.feed words).OperandsFirst :=
  feed_induction (fun hm h => hm.extend h) words hm

/-- Every question about an entry has an answer. -/
theorem OperandsFirst.exists_answers {m : Machine} (hm : m.OperandsFirst) {question : Question}
    (hid : question.id < m.tape.size) : ∃ answer, m.tape.Answers question (some answer) := by
  obtain ⟨e, he⟩ := hm.exists_unfolds hid
  obtain ⟨value, hvalue⟩ := Typesetter.exists_value?_of_unfolds he
  exact ⟨_, he.complete _ List.mem_cons_self, e, value, he, hvalue, rfl⟩

/-- **An entry keeps its node, its value and all that is drawn of it, however the run goes on.** The
words that come later may assign, consume and fail as they like, and the two typesetters may have
drawn anything else before. -/
theorem entries_are_stable (words more : List String) (fault fault' : Option Fault)
    (id : Fin (initial.feed words).tape.size) :
    let run := (initial.feed words).finish fault
    let run' := ((initial.feed words).feed more).finish fault'
    run'.tape.node? id = run.tape.node? id ∧
      run'.tape.value? id = run.tape.value? id ∧
      ∀ question : Question, question.id = id → ∀ before before' : List Question,
        ∃ answer, run.tape.answerAfter before question = some (some answer) ∧
          run'.tape.answerAfter before' question = some (some answer) := by
  intro run run'
  have hfirst := operandsFirst_feed words
  have hcontinues := continues_feed (initial.feed words) more
  have hentry : run'.tape.get? id = run.tape.get? id := by
    have hget : run.tape.get? id = some _ := Array.getElem?_eq_getElem id.2
    rw [hget]
    exact hcontinues.get? hget
  refine ⟨by rw [Tape.node?, hentry, Tape.node?], by rw [Tape.value?, hentry, Tape.value?], ?_⟩
  intro question hquestion before before'
  obtain ⟨answer, hanswer⟩ := hfirst.exists_answers (hquestion ▸ id.2)
  exact ⟨answer, Tape.answerAfter_of_answers hfirst.acyclic hanswer before,
    Tape.answerAfter_of_answers (hfirst.feed more).acyclic (hanswer.mono hcontinues) before'⟩

end Machine

end RpnTape
