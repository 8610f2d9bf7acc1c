import RpnTape.Proofs.Machine.Compilation
import RpnTape.Proofs.Machine.Names
import RpnTape.Proofs.Number.Scanning

/-!
# Proofs/Machine/Variables — which variables can be read back

Any word but `=` that begins with an equals sign assigns, so a variable can have any name but the
empty one. A variable is read by its name, however, and a name that spells something else first — a
number, an assignment, a reference or a builtin — never comes to that. `IsReadableName` says which
names are left, and `ofWord_eq_read_iff` that they are those that spell a reading.

Whether a variable can be read is thus a matter of its name alone: nothing but an assignment to it
changes its value (`get?_feed_of_not_assigned`), and no run has an entry that reads a variable with
another name (`wellNamed_feed`).
-/

namespace RpnTape

open Numeral

/-! ## The names that can be read -/

/-- Can a variable with this name be read? -/
structure IsReadableName (name : String) : Prop where
  /-- The name does not begin with a number: behind blanks and a sign, there is no infinity and no
  numeral. -/
  not_number : ∀ sign negative body, SignOf sign negative →
    name.toList.dropWhile isBlank = sign ++ body →
      ¬"Infinity".toList <+: body ∧ ∀ numeral d, numeral <+: body → ¬Denotes numeral d
  /-- It is not that of a builtin. -/
  not_builtin : ∀ b ∈ Builtin.table, b.name ≠ name
  /-- It is not written like an assignment. -/
  not_assignment : ∀ other, other ≠ "" → name ≠ "=" ++ other
  /-- It is not written like a reference. -/
  not_reference : ∀ other, other ≠ "" → name ≠ "$" ++ other

theorem Binary64.read?_eq_none_iff (text : String) : read? text = none ↔
    ∀ sign negative body, SignOf sign negative → text.toList.dropWhile isBlank = sign ++ body →
      ¬"Infinity".toList <+: body ∧ ∀ numeral d, numeral <+: body → ¬Denotes numeral d := by
  rw [Option.eq_none_iff_forall_ne_some, ← not_exists, exists_congr (read?_eq_some_iff_begins text),
    exists_begins_iff]
  constructor
  · intro h sign negative body hsign htext
    refine ⟨fun hinfinity => ?_, fun numeral d hstart hnumeral => ?_⟩
    · exact h ⟨sign, negative, body, hsign, htext, .inl hinfinity⟩
    · exact h ⟨sign, negative, body, hsign, htext, .inr ⟨numeral, d, hstart, hnumeral⟩⟩
  · rintro h ⟨sign, negative, body, hsign, htext, hinfinity | ⟨numeral, d, hstart, hnumeral⟩⟩
    · exact (h sign negative body hsign htext).1 hinfinity
    · exact (h sign negative body hsign htext).2 numeral d hstart hnumeral

theorem Builtin.lookup?_eq_none_iff {word : String} :
    lookup? word = none ↔ ∀ b ∈ table, b.name ≠ word := by
  simp only [lookup?, List.find?_eq_none, decide_eq_true_eq, ne_eq]

namespace Instruction

theorem ne_of_markedName? {mark : Char} {word name : String}
    (h : markedName? mark word = some name) : name ≠ "" := by
  rintro rfl
  have hword := eq_mark_append_of_markedName? h
  rw [String.append_empty] at hword
  rw [hword, markedName?, String.toList_singleton] at h
  cases h

theorem markedName?_eq_some_iff {mark : Char} {word name : String} :
    markedName? mark word = some name ↔ name ≠ "" ∧ word = String.singleton mark ++ name := by
  refine ⟨fun h => ⟨ne_of_markedName? h, eq_mark_append_of_markedName? h⟩, ?_⟩
  rintro ⟨hname, rfl⟩
  obtain ⟨c, cs, hchars⟩ := List.exists_cons_of_ne_nil (mt String.toList_eq_nil_iff.1 hname)
  have hword : (String.singleton mark ++ name).toList = mark :: c :: cs := by
    rw [String.toList_append, String.toList_singleton, hchars, List.singleton_append]
  rw [markedName?, hword]
  simp [← hchars, String.ofList_toList]

theorem markedName?_eq_none_iff {mark : Char} {word : String} : markedName? mark word = none ↔
    ∀ name, name ≠ "" → word ≠ String.singleton mark ++ name := by
  rw [Option.eq_none_iff_forall_ne_some]
  exact forall_congr' fun name => by rw [ne_eq, markedName?_eq_some_iff, not_and]

/-- **The words that read a variable are the readable names.** -/
theorem ofWord_eq_read_iff {word : String} : ofWord word = read word ↔ IsReadableName word := by
  rw [ofWord_eq_iff]
  constructor
  · intro h
    cases h with
    | read hnumber hassign hrefer hcall =>
      exact ⟨(Binary64.read?_eq_none_iff word).1 hnumber, Builtin.lookup?_eq_none_iff.1 hcall,
        markedName?_eq_none_iff.1 hassign, markedName?_eq_none_iff.1 hrefer⟩
  · rintro ⟨hnumber, hcall, hassign, hrefer⟩
    exact .read ((Binary64.read?_eq_none_iff word).2 hnumber) (markedName?_eq_none_iff.2 hassign)
      (markedName?_eq_none_iff.2 hrefer) (Builtin.lookup?_eq_none_iff.2 hcall)

/-- An assignment has a name. -/
theorem ne_of_ofWord_eq_assign {word name : String} (h : ofWord word = assign name) :
    name ≠ "" := by
  cases ofWord_eq_iff.1 h with
  | assign _ hassign => exact ne_of_markedName? hassign

end Instruction

namespace Machine

variable {m : Machine} {word name : String} {node : Node} {value : Binary64} {below : List NodeId}
  {env : Environment}

/-! ## What reading a variable gives -/

/-- Does the name, as a word, push the value as that of the variable? -/
def ReadsBack (m : Machine) (name : String) (value : Binary64) : Prop :=
  ∃ id, (m.step name).2 = .ok id ∧ (m.step name).1.tape.get? id = some ⟨.read name, value⟩ ∧
    (m.step name).1.stack = id :: m.stack

/-- Only a word that reads the variable logs a reading of it. -/
theorem Performs.ofWord_eq_read (h : m.Performs (.ofWord word) (.read name) value below env) :
    Instruction.ofWord word = .read name := by
  generalize Instruction.ofWord word = instruction at h
  cases h with
  | read => rfl

/-- **A bound variable reads back exactly if its name is readable.** -/
theorem readsBack_iff (h : m.environment.get? name = some value) :
    m.ReadsBack name value ↔ IsReadableName name := by
  rw [← Instruction.ofWord_eq_read_iff]
  constructor
  · rintro ⟨id, hid, hentry, -⟩
    rcases m.step_cases name with ⟨node, value', below, env, hperforms, hstep⟩ | ⟨fault, hstep⟩
    · rw [hstep] at hid hentry
      obtain rfl := Except.ok.inj hid
      rw [extend, Tape.get?_push_self] at hentry
      obtain ⟨rfl, rfl⟩ := Entry.mk.inj (Option.some.inj hentry)
      exact hperforms.ofWord_eq_read
    · rw [hstep] at hid
      cases hid
  · intro hword
    have hperforms : m.Performs (.ofWord name) (.read name) value m.stack m.environment :=
      hword ▸ .read h
    rw [ReadsBack, hperforms.step_eq]
    exact ⟨_, rfl, Tape.get?_push_self _ _ _, rfl⟩

/-! ## Nothing but an assignment changes a variable -/

/-- Only an assignment logs an assignment. -/
theorem Performs.ofWord_eq_assign {source : NodeId}
    (h : m.Performs (.ofWord word) (.bind name source) value below env) :
    Instruction.ofWord word = .assign name := by
  generalize Instruction.ofWord word = instruction at h
  cases h with
  | assign => rfl

/-- **A variable keeps its value as long as nothing is assigned to it.** -/
theorem get?_feed_of_not_assigned {more : List String}
    (hmore : ∀ word ∈ m.accepted more, Instruction.ofWord word ≠ .assign name) :
    (m.feed more).environment.get? name = m.environment.get? name := by
  have hkept := @feed_induction_accepted
    (fun done m' => (∀ word ∈ done, Instruction.ofWord word ≠ .assign name) →
      m'.environment.get? name = m.environment.get? name)
    (fun {done m' word node value below env} ih h hdone => ?_) [] m more fun _ => rfl
  · exact hkept hmore
  · obtain ⟨hdone, hword⟩ := List.forall_mem_append.1 hdone
    have hnode : ∀ source, node ≠ .bind name source := by
      rintro source rfl
      exact hword word (List.mem_singleton_self word) h.ofWord_eq_assign
    exact (h.get?_of_ne hnode).trans (ih hdone)

/-! ## No run reads another variable -/

/-- The variables have names, and those that entries read have readable ones. -/
structure WellNamed (m : Machine) : Prop where
  bound : ∀ name value, m.environment.get? name = some value → name ≠ ""
  read : ∀ id name, m.tape.node? id = some (.read name) → name ≠ "" ∧ IsReadableName name

theorem wellNamed_initial : WellNamed initial where
  bound _ _ h := by cases h
  read _ _ h := by cases h

theorem WellNamed.extend (hm : m.WellNamed) (h : m.Performs (.ofWord word) node value below env) :
    (m.extend node value below env).WellNamed where
  bound name value' hvalue := by
    by_cases hbind : ∃ source, node = .bind name source
    · obtain ⟨source, rfl⟩ := hbind
      exact Instruction.ne_of_ofWord_eq_assign h.ofWord_eq_assign
    · have hkept := h.get?_of_ne fun source hnode => hbind ⟨source, hnode⟩
      exact hm.bound name value' (hkept.symm.trans hvalue)
  read id name hnode := by
    rw [Machine.extend, Tape.node?, Tape.get?_push] at hnode
    split at hnode
    · obtain rfl := Option.some.inj hnode
      have hread := h.ofWord_eq_read
      obtain rfl := Instruction.eq_of_ofWord_eq_read hread
      rw [hread] at h
      cases h with
      | read hvalue => exact ⟨hm.bound _ _ hvalue, Instruction.ofWord_eq_read_iff.1 hread⟩
    · exact hm.read id name hnode

theorem wellNamed_feed (words : List String) : (initial.feed words).WellNamed :=
  feed_induction (fun hm h => hm.extend h) words wellNamed_initial

/-- **Which variables can be read back.** After any words that leave something on the stack, any
name but the empty one can be given to it, and the variable then has its value. However the run goes
on without an accepted assignment to the variable, its name pushes just that value, as a reading of
the variable, exactly if the name is readable. No run ever reads a variable with another name, and
all that is read has a name which spells a reading of itself. -/
theorem variables_read_back (words : List String) {name : String} (hname : name ≠ "") :
    (∀ top below, (initial.feed words).stack = top :: below → ∃ value m' id,
      (initial.feed words).tape.value? top = some value ∧
      (initial.feed words).step ("=" ++ name) = (m', .ok id) ∧
      m'.tape.get? id = some ⟨.bind name top, value⟩ ∧
      m'.environment.get? name = some value ∧
      ∀ more, (∀ word ∈ m'.accepted more, Instruction.ofWord word ≠ .assign name) →
        ((m'.feed more).ReadsBack name value ↔ IsReadableName name)) ∧
    (¬IsReadableName name →
      ∀ program id, (initial.feed program).tape.node? id ≠ some (.read name)) ∧
    ∀ id other, (initial.feed words).tape.node? id = some (.read other) →
      other ≠ "" ∧ Instruction.ofWord other = .read other := by
  refine ⟨fun top below hstack => ?_, fun hunreadable program id hnode => ?_,
    fun id other hnode => ?_⟩
  · have hvalue := (operandsFirst_feed words).value?_of_mem_stack (hstack ▸ List.mem_cons_self)
    have hperforms : (initial.feed words).Performs (.assign name) _ _ _ _ := .assign hstack
    rw [← Instruction.ofWord_assignment hname] at hperforms
    refine ⟨_, _, _, hvalue, hperforms.step_eq, Tape.get?_push_self _ _ _, ?_, fun more hmore => ?_⟩
    · exact hperforms.get?_of_bind
    · refine readsBack_iff ?_
      rw [get?_feed_of_not_assigned hmore]
      exact hperforms.get?_of_bind
  · exact hunreadable ((wellNamed_feed program).read id name hnode).2
  · obtain ⟨hne, hreadable⟩ := (wellNamed_feed words).read id other hnode
    exact ⟨hne, Instruction.ofWord_eq_read_iff.2 hreadable⟩

theorem variables_read_back_mark_and_number :
    ("$" ≠ "" ∧ IsReadableName "$" ∧
      (((initial.feed ["2"]).step "=$").1.feed ["7", "oops"]).ReadsBack "$"
        (.ofBits 0x4000000000000000)) ∧
    "3x" ≠ "" ∧ (initial.feed ["2", "=3x"]).environment.contains "3x" = true ∧
      ∀ program id, (initial.feed program).tape.node? id ≠ some (.read "3x") := by
  have hmark : IsReadableName "$" := Instruction.ofWord_eq_read_iff.1 (by decide +kernel)
  have hnumber : ¬IsReadableName "3x" := mt Instruction.ofWord_eq_read_iff.2 (by decide +kernel)
  refine ⟨⟨by decide, hmark, ?_⟩, by decide, by decide +kernel,
    (variables_read_back ["2"] (by decide : "3x" ≠ "")).2.1 hnumber⟩
  obtain ⟨value, m', id, hvalue, hstep, -, -, hread⟩ :=
    (variables_read_back ["2"] (by decide : "$" ≠ "")).1 0 [] (by decide +kernel)
  have htwo : (initial.feed ["2"]).tape.value? 0 = some (.ofBits 0x4000000000000000) := by
    decide +kernel
  obtain rfl := Option.some.inj (hvalue.symm.trans htwo)
  have hword : ∀ word ∈ ["7", "oops"], Instruction.ofWord word ≠ .assign "$" := by decide +kernel
  rw [show "=$" = "=" ++ "$" by decide, hstep]
  exact (hread _ fun word hmem => hword word (accepted_subset _ _ hmem)).2 hmark

end Machine

end RpnTape
