import RpnTape.Proofs.Typesetter.Answers

/-!
# Proofs/Typesetter/Layouts — which entries are laid out, at every moment

Laying out goes on in steps, and at every one of them the layouts are in order
(`Laying.InOrder`): they are closed under operands, and each is the one that a typesetter would
make that has drawn nothing. A step adds the layout of an entry that has none, or no layout at
all (`Laying.step_cases`).

What a question leaves behind is told by a recursion that knows nothing of layouts (`Tape.Visits`):
it goes through operands from the last to the first, finishes an entry after its operands, skips
what is finished and breaks off at the first position off the tape. Where it is not broken off, it
finishes all that the position reaches.
-/

namespace RpnTape

open Relation

/-! ## Going through the tape -/

namespace Tape

/-- Finishing the positions one after another, operands from the last to the first before the entry
that holds them, leads from the first finished positions to the second. What is finished is skipped,
and the flag says whether the work was not broken off at a position off the tape. -/
inductive Visits (tape : Tape) : List NodeId → Set NodeId → Bool → Set NodeId → Prop
  | done {seen : Set NodeId} : Visits tape [] seen true seen
  | skip {id : NodeId} {ids : List NodeId} {seen seen' : Set NodeId} {complete : Bool}
      (hmem : id ∈ seen) (hrest : Visits tape ids seen complete seen') :
      Visits tape (id :: ids) seen complete seen'
  | missing {id : NodeId} {ids : List NodeId} {seen : Set NodeId} (hmem : id ∉ seen)
      (hentry : tape.get? id = none) : Visits tape (id :: ids) seen false seen
  | brokenOff {id : NodeId} {ids : List NodeId} {entry : Entry} {seen seen' : Set NodeId}
      (hmem : id ∉ seen) (hentry : tape.get? id = some entry)
      (hoperands : Visits tape entry.node.operands.reverse seen false seen') :
      Visits tape (id :: ids) seen false seen'
  | finish {id : NodeId} {ids : List NodeId} {entry : Entry} {seen below seen' : Set NodeId}
      {complete : Bool} (hmem : id ∉ seen) (hentry : tape.get? id = some entry)
      (hoperands : Visits tape entry.node.operands.reverse seen true below)
      (hrest : Visits tape ids (insert id below) complete seen') :
      Visits tape (id :: ids) seen complete seen'

/-- **There is one way to go through the tape.** -/
theorem Visits.unique {tape : Tape} {ids : List NodeId} {seen seen' : Set NodeId} {complete : Bool}
    (h : tape.Visits ids seen complete seen') : ∀ {complete' : Bool} {seen'' : Set NodeId},
      tape.Visits ids seen complete' seen'' → complete = complete' ∧ seen' = seen'' := by
  induction h with
  | done =>
    intro complete' seen'' h'
    cases h'
    exact ⟨rfl, rfl⟩
  | skip hmem _ ih =>
    intro complete' seen'' h'
    cases h' with
    | skip _ hrest' => exact ih hrest'
    | missing hmem' | brokenOff hmem' | finish hmem' => exact absurd hmem hmem'
  | missing hmem hentry =>
    intro complete' seen'' h'
    cases h' with
    | skip hmem' => exact absurd hmem' hmem
    | missing => exact ⟨rfl, rfl⟩
    | brokenOff _ hentry' | finish _ hentry' => cases hentry.symm.trans hentry'
  | brokenOff hmem hentry _ ih =>
    intro complete' seen'' h'
    cases h' with
    | skip hmem' => exact absurd hmem' hmem
    | missing _ hentry' => cases hentry.symm.trans hentry'
    | brokenOff _ hentry' hoperands' =>
      obtain rfl := Option.some.inj (hentry.symm.trans hentry')
      exact ih hoperands'
    | finish _ hentry' hoperands' =>
      obtain rfl := Option.some.inj (hentry.symm.trans hentry')
      exact absurd (ih hoperands').1 Bool.false_ne_true
  | finish hmem hentry _ _ ihoperands ihrest =>
    intro complete' seen'' h'
    cases h' with
    | skip hmem' => exact absurd hmem' hmem
    | missing _ hentry' => cases hentry.symm.trans hentry'
    | brokenOff _ hentry' hoperands' =>
      obtain rfl := Option.some.inj (hentry.symm.trans hentry')
      exact absurd (ihoperands hoperands').1.symm Bool.false_ne_true
    | finish _ hentry' hoperands' hrest' =>
      obtain rfl := Option.some.inj (hentry.symm.trans hentry')
      obtain ⟨-, rfl⟩ := ihoperands hoperands'
      exact ihrest hrest'

end Tape

/-- The positions that are laid out. -/
def Layouts.positions (layouts : Layouts) : Set NodeId := { id | id ∈ layouts }

theorem Layouts.positions_insert (layouts : Layouts) (id : NodeId) (layout : Layout) :
    positions (layouts.insert id layout) = insert id layouts.positions := by
  ext other
  exact Std.HashMap.mem_insert.trans (or_congr_left (beq_iff_eq.trans eq_comm))

/-- **Laying out goes through the tape.** -/
theorem Traverses.visits {tape : Tape} {ids : List NodeId} {layouts layouts' : Layouts}
    {complete : Bool} (h : Traverses tape ids layouts complete layouts') :
    tape.Visits ids layouts.positions complete layouts'.positions := by
  induction h with
  | done => exact .done
  | skip hmem _ ih => exact .skip hmem ih
  | missing hmem hentry => exact .missing hmem hentry
  | brokenOff hmem hentry _ ih => exact .brokenOff hmem hentry ih
  | layOut hmem hentry _ _ _ _ ihoperands ihrest =>
    rw [Layouts.positions_insert] at ihrest
    exact .finish hmem hentry ihoperands ihrest

/-! ## A layout is that of a fresh typesetter -/

namespace Layouts

variable {tape : Tape} {layouts layouts' : Layouts} {id : NodeId}

/-- A layout depends on the layouts of the operands only. -/
theorem layout?_congr {entry : Entry}
    (h : ∀ b ∈ entry.node.operands, layouts.power? b = layouts'.power? b) :
    layouts.layout? entry = layouts'.layout? entry := by
  obtain ⟨node, value⟩ := entry
  cases node with
  | literal | read | bind => rfl
  | apply operator args =>
    simp only [layout?, application?]
    split
    case h_1 a b _ | h_2 a b _ => rw [h a (by simp [Node.operands]), h b (by simp [Node.operands])]
    case h_5 a b _ => rw [h a (by simp [Node.operands])]
    all_goals rfl

/-- **Sound layouts of a position are the same**, whatever else is laid out. -/
theorem Sound.getElem?_eq (h : layouts.Sound tape) (h' : layouts'.Sound tape)
    (hid : tape.Acyclic id) (hmem : id ∈ layouts) (hmem' : id ∈ layouts') :
    layouts[id]? = layouts'[id]? := by
  induction hid.acc with
  | intro id _ ih =>
    obtain ⟨layout, hlayout⟩ := exists_getElem?_of_mem hmem
    obtain ⟨layout', hlayout'⟩ := exists_getElem?_of_mem hmem'
    obtain ⟨entry, hentry, hoperands, hmade⟩ := h hlayout
    obtain ⟨entry', hentry', hoperands', hmade'⟩ := h' hlayout'
    obtain rfl := Option.some.inj (hentry.symm.trans hentry')
    have hpowers : ∀ b ∈ entry.node.operands, layouts.power? b = layouts'.power? b := by
      intro b hb
      have hholds : tape.Holds id b := ⟨entry, hentry, hb⟩
      rw [power?, power?, ih b hholds (hid.of_holds hholds) (hoperands b hb) (hoperands' b hb)]
    rw [hlayout, hlayout', ← hmade, ← hmade', layout?_congr hpowers]

end Layouts

/-- **A sound layout is the one that a typesetter makes that has drawn nothing.** -/
theorem Layouts.Sound.layOut_ofTape {tape : Tape} {layouts : Layouts} {id : NodeId}
    {layout : Layout} (h : layouts.Sound tape) (hid : tape.Acyclic id)
    (hlayout : layouts[id]? = some layout) :
    ∃ t, (Typesetter.ofTape tape).layOut id = some (some layout, t) := by
  obtain ⟨complete, layouts', hrun, hsound', hmem', hcomplete⟩ :=
    Laying.exists_run_eq hid (Layouts.sound_empty tape)
  obtain rfl : complete = true := hcomplete.2 (h.complete (mem_of_getElem? hlayout))
  have hsame := h.getElem?_eq hsound' hid (mem_of_getElem? hlayout) (hmem' rfl)
  refine ⟨⟨tape, layouts'⟩, ?_⟩
  rw [Typesetter.layOut, Typesetter.ofTape, hrun, ← hlayout, hsame]
  rfl

/-! ## Every moment of laying out -/

namespace Laying

variable {tape : Tape} {s s' : Laying}

/-- Does the first state lead to the second, in any number of steps? -/
def Passes (tape : Tape) : Laying → Laying → Prop :=
  ReflTransGen fun s s' => step tape s = .inl s'

/-- **What a step can do**: it changes only what waits, or it lays out one entry that waits, is not
laid out and has all its operands laid out. -/
theorem step_cases (h : step tape s = .inl s') :
    s'.layouts = s.layouts ∧
        (∀ id ∈ s'.pending, id ∈ s.pending ∨ ∃ a ∈ s.pending, tape.Holds a id) ∨
      ∃ id ∈ s.pending, ∃ entry layout, id ∉ s.layouts ∧ tape.get? id = some entry ∧
        (∀ b ∈ entry.node.operands, b ∈ s.layouts) ∧ s.layouts.layout? entry = some layout ∧
        s'.layouts = s.layouts.insert id layout ∧ ∀ a ∈ s'.pending, a ∈ s.pending := by
  obtain ⟨pending, layouts⟩ := s
  cases pending with
  | nil => cases h
  | cons next rest =>
    simp only [step] at h
    split at h
    · obtain rfl := Sum.inl.inj h
      exact .inl ⟨rfl, fun id hid => .inl (List.mem_cons_of_mem _ hid)⟩
    rename_i hnext
    split at h
    · cases h
    rename_i entry hentry
    split at h
    · rename_i hlacking
      split at h
      · cases h
      rename_i layout hlayout
      obtain rfl := Sum.inl.inj h
      have hoperands : ∀ b ∈ entry.node.operands, b ∈ layouts := fun b hb => by
        simpa using List.filter_eq_nil_iff.1 hlacking b hb
      exact .inr ⟨next, List.mem_cons_self, entry, layout, by simpa using hnext, hentry, hoperands,
        hlayout, rfl, fun a ha => List.mem_cons_of_mem _ ha⟩
    · obtain rfl := Sum.inl.inj h
      refine .inl ⟨rfl, fun id hid => ?_⟩
      rcases List.mem_append.1 hid with hid | hid
      · have hoperand := List.mem_of_mem_filter (List.mem_reverse.1 hid)
        exact .inr ⟨next, List.mem_cons_self, entry, hentry, hoperand⟩
      · exact .inl hid

/-- A loop ends with the layouts that it has. -/
theorem eq_of_step_eq_inr {complete : Bool} {layouts : Layouts}
    (h : step tape s = .inr (complete, layouts)) : layouts = s.layouts := by
  obtain ⟨pending, made⟩ := s
  cases pending with
  | nil =>
    cases h
    rfl
  | cons next rest =>
    simp only [step] at h
    split at h
    · cases h
    split at h
    · cases h
      rfl
    split at h
    · split at h
      · cases h
        rfl
      · cases h
    · cases h

/-- The layouts are sound, and neither they nor what waits lead into a circle. -/
structure InOrder (tape : Tape) (s : Laying) : Prop where
  sound : s.layouts.Sound tape
  acyclic_layouts : ∀ id ∈ s.layouts, tape.Acyclic id
  acyclic_pending : ∀ id ∈ s.pending, tape.Acyclic id

theorem InOrder.step (hs : s.InOrder tape) (h : step tape s = .inl s') : s'.InOrder tape := by
  rcases step_cases h with ⟨hlayouts, hpending⟩ |
    ⟨id, hid, entry, layout, hnew, hentry, hoperands, hlayout, hlayouts, hpending⟩
  · refine ⟨hlayouts ▸ hs.sound, hlayouts ▸ hs.acyclic_layouts, fun b hb => ?_⟩
    rcases hpending b hb with hb | ⟨a, ha, hab⟩
    · exact hs.acyclic_pending b hb
    · exact (hs.acyclic_pending a ha).of_holds hab
  · refine ⟨hlayouts ▸ hs.sound.insert hnew hentry hoperands hlayout, fun b hb => ?_,
      fun b hb => hs.acyclic_pending b (hpending b hb)⟩
    rw [hlayouts, Std.HashMap.mem_insert] at hb
    rcases hb with heq | hb
    · obtain rfl : id = b := by simpa using heq
      exact hs.acyclic_pending id hid
    · exact hs.acyclic_layouts b hb

/-- **Layouts stay in order at every moment.** -/
theorem InOrder.passes (hs : s.InOrder tape) (h : Passes tape s s') : s'.InOrder tape := by
  induction h with
  | refl => exact hs
  | tail _ hstep ih => exact ih.step hstep

end Laying

/-! ## What a question leaves behind -/

namespace Typesetter

variable {t t' : Typesetter} {question : Question} {answer : Option Answer}

theorem run_of_layOut {id : NodeId} {layout : Option Layout} (h : t.layOut id = some (layout, t')) :
    ∃ complete, Laying.run t.tape ⟨[id], t.layouts⟩ = some (complete, t'.layouts) := by
  simp only [layOut, Option.bind_eq_bind, Option.bind_eq_some_iff, Option.pure_def,
    Option.some.injEq, Prod.mk.injEq] at h
  obtain ⟨⟨complete, layouts⟩, hrun, -, rfl⟩ := h
  exact ⟨complete, hrun⟩

theorem exists_layOut_of_drawFormula {id : NodeId} {formula : Option Formula}
    (h : t.drawFormula id = some (formula, t')) : ∃ layout, t.layOut id = some (layout, t') := by
  simp only [drawFormula, Option.bind_eq_bind, Option.bind_eq_some_iff] at h
  obtain ⟨⟨layout, made⟩, hlaid, h⟩ := h
  refine ⟨layout, ?_⟩
  cases layout with
  | none =>
    obtain ⟨-, rfl⟩ := Prod.mk.inj (Option.some.inj h)
    exact hlaid
  | some layout =>
    simp only [Option.bind_eq_some_iff, Option.pure_def, Option.some.injEq, Prod.mk.injEq] at h
    obtain ⟨formula, -, -, rfl⟩ := h
    exact hlaid

theorem ask_of_missing {id : NodeId} (h : t.tape.get? id = none) :
    t.ask (.equation id) = some (none, t) := by
  have hvalue : t.tape.value? id = none := Option.map_eq_none_iff.2 h
  rw [ask, drawEquation, hvalue]
  rfl

/-- Any other question leaves behind what laying out its position leaves. -/
theorem run_of_ask (h : t.ask question = some (answer, t'))
    (hquestion : ∀ id, question = .equation id → t.tape.get? id ≠ none) :
    ∃ complete, Laying.run t.tape ⟨[question.id], t.layouts⟩ = some (complete, t'.layouts) := by
  cases question with
  | formula id =>
    obtain ⟨⟨formula, made⟩, hdrawn, heq⟩ := Option.map_eq_some_iff.1 h
    obtain ⟨-, rfl⟩ := Prod.mk.inj heq
    obtain ⟨layout, hlaid⟩ := exists_layOut_of_drawFormula hdrawn
    exact run_of_layOut hlaid
  | equation id =>
    obtain ⟨⟨formula, made⟩, hdrawn, heq⟩ := Option.map_eq_some_iff.1 h
    obtain ⟨-, rfl⟩ := Prod.mk.inj heq
    unfold drawEquation at hdrawn
    split at hdrawn
    · rename_i hvalue
      exact absurd (Option.map_eq_none_iff.1 hvalue) (hquestion id rfl)
    · simp only [Option.bind_eq_bind, Option.bind_eq_some_iff, Option.pure_def, Option.some.injEq,
        Prod.mk.injEq] at hdrawn
      obtain ⟨⟨formula', made'⟩, hdrawn, -, rfl⟩ := hdrawn
      obtain ⟨layout, hlaid⟩ := exists_layOut_of_drawFormula hdrawn
      exact run_of_layOut hlaid
  | power id =>
    obtain ⟨⟨power, made⟩, hdrawn, heq⟩ := Option.map_eq_some_iff.1 h
    obtain ⟨-, rfl⟩ := Prod.mk.inj heq
    simp only [drawPower, Option.bind_eq_bind, Option.bind_eq_some_iff, Option.pure_def,
      Option.some.injEq, Prod.mk.injEq] at hdrawn
    obtain ⟨⟨layout, made'⟩, hlaid, -, rfl⟩ := hdrawn
    exact run_of_layOut hlaid

/-- Are the layouts sound, and do none of them lead into a circle? -/
def InOrder (t : Typesetter) : Prop := Laying.InOrder t.tape ⟨[], t.layouts⟩

end Typesetter

/-- What a question leaves behind, given the layouts there were and the answer. -/
structure Question.Leaves (question : Question) (tape : Tape) (layouts : Layouts)
    (answer : Option Answer) (layouts' : Layouts) : Prop where
  /-- Every layout is kept as it was. -/
  kept : layouts.Extends layouts'
  /-- The positions that are laid out are those finished by going through the tape, which is broken
  off where there is no answer. -/
  visits : tape.Visits [question.id] layouts.positions answer.isSome layouts'.positions
  /-- There is no other way to go through the tape. -/
  unique : ∀ complete seen, tape.Visits [question.id] layouts.positions complete seen →
    complete = answer.isSome ∧ seen = layouts'.positions
  /-- Where there is an answer, all that the position reaches is laid out, and
  nothing else was added. -/
  reached : answer ≠ none → ∀ b, b ∈ layouts' ↔ b ∈ layouts ∨ tape.Reaches question.id b
  /-- The equation of a position off the tape leaves all as it was. -/
  untouched : ∀ id, question = .equation id → tape.get? id = none → layouts' = layouts

/-- The traversal from the position says what a question leaves behind. -/
theorem Traverses.leaves {tape : Tape} {question : Question} {layouts layouts' : Layouts}
    {answer : Option Answer} (h : Traverses tape [question.id] layouts answer.isSome layouts')
    (hsound : layouts.Sound tape)
    (huntouched : ∀ id, question = .equation id → tape.get? id = none → layouts' = layouts) :
    question.Leaves tape layouts answer layouts' where
  kept := h.kept
  visits := h.visits
  unique complete seen hvisits := by
    obtain ⟨hcomplete, hseen⟩ := h.visits.unique hvisits
    exact ⟨hcomplete.symm, hseen.symm⟩
  reached hanswer b := by
    have hid : question.id ∈ layouts' :=
      h.mem (Option.isSome_iff_ne_none.2 hanswer) _ List.mem_cons_self
    refine ⟨fun hb => ?_, fun hb => hb.elim (h.kept.mem ·) ((h.sound hsound).mem_of_reaches hid)⟩
    refine (h.mem_or_reaches hb).imp_right ?_
    rintro ⟨a, ha, hab⟩
    exact List.mem_singleton.1 ha ▸ hab
  untouched := huntouched

namespace Typesetter

variable {t : Typesetter}

/-- A question has an answer exactly where no position off the tape is reached. -/
theorem isSome_iff_complete {tape : Tape} {question : Question} {answer : Option Answer}
    (h : tape.Answers question answer) : answer.isSome = true ↔ tape.Complete question.id := by
  cases answer with
  | none =>
    obtain ⟨b, hb, hoff⟩ := h
    exact ⟨fun hsome => absurd hsome Bool.false_ne_true,
      fun hcomplete => absurd hoff (hcomplete b hb)⟩
  | some answer => exact ⟨fun _ => h.1, fun _ => rfl⟩

/-- **A question makes a traversal from its position.** -/
theorem exists_traverses_of_ask (ht : t.InOrder) {question : Question}
    (hacyclic : t.tape.Acyclic question.id) :
    ∃ answer layouts', t.ask question = some (answer, { t with layouts := layouts' }) ∧
      Traverses t.tape [question.id] t.layouts answer.isSome layouts' ∧
      ∀ id, question = .equation id → t.tape.get? id = none → layouts' = t.layouts := by
  by_cases hquestion : ∃ id, question = .equation id ∧ t.tape.get? id = none
  · obtain ⟨id, rfl, hoff⟩ := hquestion
    have hid : id ∉ t.layouts := fun hid => ht.sound.complete hid id ReflTransGen.refl hoff
    exact ⟨none, t.layouts, ask_of_missing hoff, .missing hid hoff, fun _ _ _ => rfl⟩
  · obtain ⟨answer, layouts', hask, -, hanswer⟩ := replies_of_acyclic ht.sound question hacyclic
    obtain ⟨complete, made, htraverses⟩ := exists_traverses hacyclic t.layouts
    obtain ⟨complete', hrun⟩ := run_of_ask hask fun id hid hoff => hquestion ⟨id, hid, hoff⟩
    obtain ⟨-, rfl⟩ := Prod.mk.inj (Option.some.inj (hrun.symm.trans htraverses.run_singleton))
    have hflag : complete = answer.isSome := Bool.eq_iff_iff.2
      ((htraverses.complete_iff ht.sound).trans (isSome_iff_complete hanswer).symm)
    exact ⟨answer, layouts', hask, hflag ▸ htraverses,
      fun id hid hoff => absurd ⟨id, hid, hoff⟩ hquestion⟩

/-- **One question**: it leaves the layouts in order. -/
theorem exists_leaves (ht : t.InOrder) {question : Question} (h : t.tape.Acyclic question.id) :
    ∃ answer layouts', t.ask question = some (answer, { t with layouts := layouts' }) ∧
      question.Leaves t.tape t.layouts answer layouts' ∧
      InOrder { t with layouts := layouts' } := by
  obtain ⟨answer, layouts', hask, htraverses, huntouched⟩ := exists_traverses_of_ask ht h
  refine ⟨answer, layouts', hask, htraverses.leaves ht.sound huntouched,
    htraverses.sound ht.sound, ?_, fun _ h => absurd h List.not_mem_nil⟩
  intro b hb
  rcases htraverses.mem_or_reaches hb with hb | ⟨a, ha, hab⟩
  · exact ht.acyclic_layouts b hb
  · obtain rfl := List.mem_singleton.1 ha
    exact fun c hc => h c (hab.trans hc)

/-- The state of laying out at a moment while the questions are put. -/
inductive Moment : Typesetter → List Question → Laying → Prop
  | during {t : Typesetter} {question : Question} {rest : List Question} {s : Laying}
      (h : Laying.Passes t.tape ⟨[question.id], t.layouts⟩ s) : Moment t (question :: rest) s
  | later {t t' : Typesetter} {question : Question} {rest : List Question} {answer : Option Answer}
      {s : Laying} (hask : t.ask question = some (answer, t')) (h : Moment t' rest s) :
      Moment t (question :: rest) s

theorem Moment.inOrder {questions : List Question} {s : Laying} (h : t.Moment questions s)
    (ht : t.InOrder) (hacyclic : ∀ question ∈ questions, t.tape.Acyclic question.id) :
    s.InOrder t.tape := by
  induction h with
  | @during t question _ _ hpasses =>
    have hstart : Laying.InOrder t.tape ⟨[question.id], t.layouts⟩ :=
      ⟨ht.sound, ht.acyclic_layouts, List.forall_mem_singleton.2 (hacyclic _ List.mem_cons_self)⟩
    exact hstart.passes hpasses
  | later hask _ ih =>
    obtain ⟨hquestion, hrest⟩ := List.forall_mem_cons.1 hacyclic
    obtain ⟨answer, layouts', hask', -, ht'⟩ := exists_leaves ht hquestion
    obtain ⟨-, rfl⟩ := Prod.mk.inj (Option.some.inj (hask.symm.trans hask'))
    exact ih ht' hrest

end Typesetter

/-- What holds at a moment, and of the moment after it. -/
structure Laying.IsIntact (tape : Tape) (s : Laying) : Prop where
  /-- What is laid out has its operands laid out. -/
  closed : ∀ id ∈ s.layouts, ∀ b, tape.Holds id b → b ∈ s.layouts
  /-- What is laid out is on the tape. -/
  onTape : ∀ id ∈ s.layouts, tape.get? id ≠ none
  /-- Every layout is the one that a typesetter makes that has drawn nothing. -/
  fresh : ∀ id layout, s.layouts[id]? = some layout →
    ∃ t, (Typesetter.ofTape tape).layOut id = some (some layout, t)
  /-- A step leaves the layouts as they are, or adds one for an entry that has none. -/
  next : ∀ s', step tape s = .inl s' → s'.layouts = s.layouts ∨
    ∃ id layout, id ∉ s.layouts ∧ s'.layouts = s.layouts.insert id layout
  /-- The end leaves the layouts as they are. -/
  last : ∀ complete layouts, step tape s = .inr (complete, layouts) → layouts = s.layouts

theorem Laying.InOrder.isIntact {tape : Tape} {s : Laying} (hs : s.InOrder tape) :
    s.IsIntact tape where
  closed _ hid _ hb := hs.sound.mem_of_reaches hid (.single hb)
  onTape id hid := hs.sound.complete hid id ReflTransGen.refl
  fresh id _ hlayout :=
    hs.sound.layOut_ofTape (hs.acyclic_layouts id (Layouts.mem_of_getElem? hlayout)) hlayout
  next _ hstep := by
    rcases step_cases hstep with ⟨hlayouts, -⟩ | ⟨id, -, -, layout, hnew, -, -, -, hlayouts, -⟩
    · exact .inl hlayouts
    · exact .inr ⟨id, layout, hnew, hlayouts⟩
  last _ _ hstep := eq_of_step_eq_inr hstep

namespace Typesetter

/-- **Many questions**: one after another, each leaves the layouts in order. -/
theorem exists_askAll_inOrder : ∀ {t : Typesetter} (questions : List Question), t.InOrder →
    (∀ question ∈ questions, t.tape.Acyclic question.id) →
      ∃ answers layouts', t.askAll questions = some (answers, { t with layouts := layouts' }) ∧
        InOrder { t with layouts := layouts' }
  | t, [], ht, _ => ⟨[], t.layouts, rfl, ht⟩
  | t, question :: rest, ht, h => by
    obtain ⟨hquestion, hrest⟩ := List.forall_mem_cons.1 h
    obtain ⟨answer, layouts, hask, -, ht'⟩ := exists_leaves ht hquestion
    obtain ⟨answers, layouts', haskAll, ht''⟩ :=
      exists_askAll_inOrder (t := { t with layouts }) rest ht' hrest
    exact ⟨answer :: answers, layouts', by rw [askAll, hask]; simp [haskAll], ht''⟩

theorem inOrder_ofTape (tape : Tape) : (ofTape tape).InOrder where
  sound := Layouts.sound_empty tape
  acyclic_layouts _ h := absurd h (by simp [ofTape])
  acyclic_pending _ h := absurd h List.not_mem_nil

/-- **Which layouts there are.** While questions are put one after another, at every moment what is
laid out is on the tape with all its operands, each layout is that of a typesetter that has drawn
nothing, and none is ever changed, made anew or taken away. An answer leaves what the position
reaches laid out; where there is none, what was finished before the traversal was broken off. -/
theorem layouts_of_questions (tape : Tape) (questions : List Question)
    (h : ∀ question ∈ questions, tape.Acyclic question.id) :
    (∀ s, (ofTape tape).Moment questions s → s.IsIntact tape) ∧
      ∀ before question after, questions = before ++ question :: after →
        ∃ answers layouts answer layouts',
          (ofTape tape).askAll before = some (answers, ⟨tape, layouts⟩) ∧
          ask ⟨tape, layouts⟩ question = some (answer, ⟨tape, layouts'⟩) ∧
          question.Leaves tape layouts answer layouts' := by
  refine ⟨fun s hs => (hs.inOrder (inOrder_ofTape tape) h).isIntact, ?_⟩
  rintro before question after rfl
  obtain ⟨hbefore, hbehind⟩ := List.forall_mem_append.1 h
  obtain ⟨answers, layouts, haskAll, ht⟩ :=
    exists_askAll_inOrder before (inOrder_ofTape tape) hbefore
  obtain ⟨answer, layouts', hask, hleaves, -⟩ :=
    exists_leaves ht (hbehind question List.mem_cons_self)
  exact ⟨answers, layouts, answer, layouts', haskAll, hask, hleaves⟩

theorem layouts_of_questions_tangled :
    (∀ question ∈ [Question.equation 1, .formula 3, .equation 9, .power 0],
        tangledTape.Acyclic question.id) ∧
      (∀ s, (ofTape tangledTape).Moment [.equation 1, .formula 3, .equation 9, .power 0] s →
        s.IsIntact tangledTape) ∧
      ∀ before question after,
        [.equation 1, .formula 3, .equation 9, .power 0] = before ++ question :: after →
          ∃ answers layouts answer layouts',
            (ofTape tangledTape).askAll before = some (answers, ⟨tangledTape, layouts⟩) ∧
            ask ⟨tangledTape, layouts⟩ question = some (answer, ⟨tangledTape, layouts'⟩) ∧
            question.Leaves tangledTape layouts answer layouts' := by
  have h : ∀ id, tangledTape.Acyclic id :=
    Tape.acyclic_of_ranked_entries (fun id => [2, 3, 1, 3].getD id 0) (by decide)
  exact ⟨fun question _ => h question.id,
    layouts_of_questions tangledTape _ fun question _ => h question.id⟩

end Typesetter

end RpnTape
