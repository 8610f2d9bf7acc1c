import RpnTape.Proofs.Machine.Formulas
import RpnTape.Proofs.Machine.Outline
import RpnTape.Proofs.Machine.Values

/-!
# Proofs/Machine/Names — the numbers and names on a machine's tape

What stands at the ends of an expression comes from the words of the program. A number is what a
word spells, and no word spells `NaN`; a name is a word, or what is behind the mark of an
assignment. So the characters of a name are characters of a word (`isOver_feed`), and what holds of
the entries of a tape holds of the expressions that they stand for (`Tape.Unfolds.isOver`).
-/

namespace RpnTape

/-! ## Numbers are numbers -/

theorem Decimal.isNaN_nearest (negative : Bool) (d : Decimal) :
    (d.nearest negative).isNaN = false :=
  decide_eq_false (Nat.not_lt.2 d.nearestPattern_le)

/-- **No word spells not-a-number.** -/
theorem Binary64.isNaN_of_read? {text : String} {value : Binary64} (h : read? text = some value) :
    value.isNaN = false := by
  simp only [read?] at h
  split at h
  · obtain rfl := Option.some.inj h
    exact decide_eq_false (Nat.lt_irrefl _)
  · obtain ⟨d, -, rfl⟩ := Option.map_eq_some_iff.1 h
    exact d.1.isNaN_nearest _

/-! ## Expressions over numbers and names -/

/-- Are the numbers and names in the expression of these kinds, and its
applications those of builtins? -/
inductive Expr.IsOver (numbers : Binary64 → Prop) (names : String → Prop) : Expr → Prop
  | literal {value : Binary64} (hvalue : numbers value) : IsOver numbers names (literal value)
  | read {name : String} (hname : names name) : IsOver numbers names (read name)
  | bind {name : String} {source : Expr} (hname : names name)
      (hsource : IsOver numbers names source) :
      IsOver numbers names (bind name source)
  | apply {operator : Builtin} {args : List Expr} (hmem : operator ∈ Builtin.table)
      (harity : args.length = operator.arity) (hargs : ∀ arg ∈ args, IsOver numbers names arg) :
      IsOver numbers names (apply operator args)

/-- The same of an entry. -/
def Entry.IsOver (numbers : Binary64 → Prop) (names : String → Prop) (entry : Entry) : Prop :=
  match entry.node with
  | .literal => numbers entry.value
  | .read name | .bind name _ => names name
  | .apply operator args => operator ∈ Builtin.table ∧ args.length = operator.arity

variable {numbers : Binary64 → Prop} {names names' : String → Prop}

theorem Entry.IsOver.mono {entry : Entry} (h : entry.IsOver numbers names)
    (hnames : ∀ name, names name → names' name) : entry.IsOver numbers names' := by
  obtain ⟨node, value⟩ := entry
  cases node with
  | literal | apply => exact h
  | bind name source => exact hnames name h
  | read name => exact hnames name h

/-- **What holds of the entries of a tape holds of the expressions they stand for.** -/
theorem Tape.Unfolds.isOver {tape : Tape} {ids : List NodeId} {es : List Expr}
    (h : tape.Unfolds ids es)
    (hover : ∀ id entry, tape.get? id = some entry → entry.IsOver numbers names) :
    ∀ e ∈ es, e.IsOver numbers names := by
  induction h with
  | nil => exact fun e he => absurd he List.not_mem_nil
  | @cons id entry operands e ids es hentry hoperands hexpr _ ihoperands ihrest =>
    refine List.forall_mem_cons.2 ⟨?_, ihrest⟩
    have hentry' := hover id entry hentry
    obtain ⟨node, value⟩ := entry
    have hlength := hoperands.length_eq
    cases node with
    | literal =>
      obtain rfl := List.length_eq_zero_iff.1 hlength
      obtain rfl := Option.some.inj hexpr
      exact .literal hentry'
    | read name =>
      obtain rfl := List.length_eq_zero_iff.1 hlength
      obtain rfl := Option.some.inj hexpr
      exact .read hentry'
    | bind name source =>
      obtain ⟨operand, rfl⟩ := List.length_eq_one_iff.1 hlength
      obtain rfl := Option.some.inj hexpr
      exact .bind hentry' (ihoperands operand (List.mem_singleton_self operand))
    | apply operator args =>
      obtain rfl := Option.some.inj hexpr
      exact .apply hentry'.1 (hlength.trans hentry'.2) ihoperands

/-! ## The words that names come from -/

/-- Are the characters of the name characters of one of the words? -/
def FromWords (words : List String) (name : String) : Prop :=
  ∃ word ∈ words, name.toList ⊆ word.toList

theorem FromWords.mono {words words' : List String} (hwords : words ⊆ words') {name : String}
    (h : FromWords words name) : FromWords words' name :=
  let ⟨word, hword, hname⟩ := h
  ⟨word, hwords hword, hname⟩

/-- An assignment is written with an equals sign before the name. -/
theorem Instruction.eq_of_ofWord_eq_assign {word name : String} (h : ofWord word = assign name) :
    word = "=" ++ name := by
  cases ofWord_eq_iff.1 h with
  | assign _ hassign => exact eq_mark_append_of_markedName? hassign

/-- A variable is read by its name. -/
theorem Instruction.eq_of_ofWord_eq_read {word name : String} (h : ofWord word = read name) :
    word = name := by
  cases ofWord_eq_iff.1 h with
  | read => rfl

namespace Machine

variable {m : Machine}

/-- The entry that a word adds has its number or its name from the word. -/
theorem Performs.isOver {word : String} {node : Node} {value : Binary64} {below : List NodeId}
    {env : Environment} (h : m.Performs (.ofWord word) node value below env) :
    Entry.IsOver (·.isNaN = false) (FromWords [word]) ⟨node, value⟩ := by
  have htabled := h.isTabled
  generalize hword : Instruction.ofWord word = instruction at h
  cases h with
  | push => exact Binary64.isNaN_of_read? (Instruction.read?_of_ofWord_eq_push hword)
  | @assign name =>
    refine ⟨word, List.mem_singleton_self word, ?_⟩
    rw [Instruction.eq_of_ofWord_eq_assign hword, String.toList_append]
    exact List.subset_append_right _ _
  | call => exact htabled
  | @read name =>
    refine ⟨word, List.mem_singleton_self word, ?_⟩
    rw [Instruction.eq_of_ofWord_eq_read hword]
    exact List.Subset.refl _

/-- Do the numbers and names on the tape come from these words? -/
def IsOver (m : Machine) (words : List String) : Prop :=
  ∀ id entry, m.tape.get? id = some entry → entry.IsOver (·.isNaN = false) (FromWords words)

theorem IsOver.extend {words : List String} (hm : m.IsOver words) {word : String} {node : Node}
    {value : Binary64} {below : List NodeId} {env : Environment}
    (h : m.Performs (.ofWord word) node value below env) :
    (m.extend node value below env).IsOver (words ++ [word]) := by
  intro id entry hentry
  rw [Machine.extend, Tape.get?_push] at hentry
  split at hentry
  · obtain rfl := Option.some.inj hentry
    exact h.isOver.mono fun _ => FromWords.mono (List.subset_append_right _ _)
  · exact (hm id entry hentry).mono fun _ => FromWords.mono (List.subset_append_left _ _)

theorem accepted_subset (m : Machine) (words : List String) : m.accepted words ⊆ words := by
  intro word hword
  obtain ⟨⟨_, outcome⟩, hmem, rfl⟩ := List.mem_map.1 hword
  exact (List.of_mem_zip (List.mem_of_mem_filter hmem)).1

/-- **After any words, the numbers and names on the tape come from these words.** -/
theorem isOver_feed (words : List String) : (initial.feed words).IsOver words := by
  have haccepted : (initial.feed words).IsOver ([] ++ initial.accepted words) :=
    feed_induction_accepted (P := fun done m => m.IsOver done) (fun hm h => hm.extend h) words
      fun id entry hentry => by cases hentry
  intro id entry hentry
  exact (haccepted id entry hentry).mono fun _ => FromWords.mono (accepted_subset initial words)

/-- **A run performs all its words, or those before the first that is rejected**, and
leaves what they leave. -/
theorem run_eq_cases (m : Machine) (words : List String) :
    m.run words = (m.feed words).finish none ∨
      ∃ before word after fault, words = before ++ word :: after ∧
        (m.feed before).step word = (m.feed before, .error fault) ∧
        m.run before = (m.feed before).finish none ∧
        m.run words = (m.feed before).finish (some fault) := by
  rcases run_cases m words with hfault | ⟨before, word, after, fault, rfl, hfault, hstep⟩
  · exact .inl (run_of_fault_eq_none hfault)
  · refine .inr ⟨before, word, after, fault, rfl, hstep, run_of_fault_eq_none hfault, ?_⟩
    rw [run_append_of_fault_eq_none hfault, run, hstep]

end Machine

namespace Run

/-- The tape of a run is that of a machine that has been fed words of the program. -/
theorem exists_feed_eq (program : List String) :
    ∃ performed ⊆ program, (ofWords program).tape = (Machine.initial.feed performed).tape := by
  rcases Machine.run_eq_cases .initial program with
    hrun | ⟨before, word, after, fault, rfl, -, -, hrun⟩
  · exact ⟨program, List.Subset.refl _, by rw [ofWords, hrun, Machine.finish]⟩
  · exact ⟨before, List.subset_append_left _ _, by rw [ofWords, hrun, Machine.finish]⟩

theorem isOver_of_get? {program : List String} {id : NodeId} {entry : Entry}
    (h : (ofWords program).tape.get? id = some entry) :
    entry.IsOver (·.isNaN = false) (FromWords program) := by
  obtain ⟨performed, hsubset, htape⟩ := exists_feed_eq program
  rw [htape] at h
  exact (Machine.isOver_feed performed id entry h).mono fun _ => FromWords.mono hsubset

end Run

end RpnTape
