import Mathlib.Data.Finset.Insert
import RpnTape.Proofs.Machine.Rejection
import RpnTape.Proofs.Machine.Source

/-!
# Proofs/Machine/Outline — what becomes of a program does not depend on its numbers

Which words are accepted, and with which fault the others are rejected, can be told without
computing anything: it is enough to know how many entries are on the stack and which variables are
bound. An `Outline` holds just this, and it is changed by the *class* of a word, which forgets the
number that the word spells. `followsOutline` says that a machine and its outline keep in step.

So two programs that differ in their numbers only have the same outlines throughout. They log the
same nodes, too (`Alike`), because a node says where its value came from and not what it is.
-/

namespace RpnTape

/-! ## Words without their numbers -/

/-- What a word says, but for the number it spells. -/
inductive WordClass where
  /-- A number. -/
  | number
  /-- An assignment. -/
  | assign (name : String)
  /-- A reference, with the whole word. -/
  | refer (name word : String)
  /-- A builtin. -/
  | call (builtin : Builtin)
  /-- A variable. -/
  | read (name : String)
  deriving DecidableEq

/-- The class of a word. -/
def WordClass.ofWord (word : String) : WordClass :=
  match Instruction.ofWord word with
  | .push _ => number
  | .assign name => assign name
  | .refer name => refer name word
  | .call builtin => call builtin
  | .read name => read name

/-- Are the words the same, or do both spell numbers? -/
def SameButNumber (word word' : String) : Prop :=
  word = word' ∨
    (∃ value, Instruction.ofWord word = .push value) ∧
      ∃ value, Instruction.ofWord word' = .push value

theorem SameButNumber.ofWord_eq {word word' : String} (h : SameButNumber word word') :
    WordClass.ofWord word = WordClass.ofWord word' := by
  rcases h with rfl | ⟨⟨value, h⟩, value', h'⟩
  · rfl
  · rw [WordClass.ofWord, WordClass.ofWord, h, h']

theorem Instruction.eq_mark_append_of_markedName? {mark : Char} {word name : String}
    (h : markedName? mark word = some name) : word = String.singleton mark ++ name := by
  unfold markedName? at h
  split at h
  · cases h
  · cases h
  rename_i c cs _ hword
  split at h
  · rename_i hc
    obtain rfl := Option.some.inj h
    rw [← String.toList_inj, String.toList_append, hword, hc]
    simp
  · cases h

/-- A reference is written with a dollar sign. -/
theorem Instruction.eq_of_ofWord_eq_refer {word name : String} (h : ofWord word = refer name) :
    word = "$" ++ name := by
  cases ofWord_eq_iff.1 h with
  | refer _ _ hrefer => exact eq_mark_append_of_markedName? hrefer

/-! ## The names of the variables -/

theorem Bindings.isSome_get?_iff (name : String) : ∀ bindings : List (String × Binary64),
    (get? name bindings).isSome = true ↔ name ∈ bindings.map Prod.fst
  | [] => by simp [get?]
  | (key, value) :: rest => by
    rw [get?, List.map_cons, List.mem_cons]
    split
    · rename_i hkey
      simp [hkey]
    · rename_i hkey
      rw [isSome_get?_iff name rest]
      exact ⟨.inr, fun h => h.resolve_left fun heq => hkey heq.symm⟩

namespace Environment

/-- The variables that are bound. -/
def names (env : Environment) : Finset String := (env.bindings.map Prod.fst).toFinset

theorem mem_names {env : Environment} {name : String} :
    name ∈ env.names ↔ env.contains name = true := by
  rw [names, List.mem_toFinset, contains, get?, Bindings.isSome_get?_iff]

theorem mem_names_iff_exists_get? {env : Environment} {name : String} :
    name ∈ env.names ↔ ∃ value, env.get? name = some value := by
  rw [mem_names, contains, Option.isSome_iff_exists]

theorem names_assign (env : Environment) (name : String) (value : Binary64) :
    (env.assign name value).names = insert name env.names := by
  ext other
  rw [mem_names, contains_assign, Finset.mem_insert, mem_names, Bool.or_eq_true, decide_eq_true_iff,
    eq_comm]

end Environment

/-! ## Outlines -/

/-- How many entries are on the stack, and which variables are bound. -/
structure Outline where
  depth : Nat
  names : Finset String
  deriving DecidableEq

/-- What can be told of a run without its numbers. -/
structure Forecast where
  /-- How many words are accepted. -/
  count : Nat
  /-- The outline at the end. -/
  outline : Outline
  /-- Why the next word is rejected, if it is. -/
  fault : Option Fault
  deriving DecidableEq

namespace Outline

/-- Nothing is on the stack and no variable is bound. -/
def empty : Outline := ⟨0, ∅⟩

/-- The outline after a word of the class, or why the word is rejected. -/
def perform (o : Outline) : WordClass → Except Fault Outline
  | .number => .ok { o with depth := o.depth + 1 }
  | .assign name =>
    if o.depth = 0 then .error (.emptyStackOnAssignment name)
    else .ok { o with names := insert name o.names }
  | .refer name word =>
    if name ∈ o.names then .error (.unimplementedFeature word) else .error (.unknownVariable name)
  | .call builtin =>
    if o.depth < builtin.arity then
      .error (.insufficientOperands builtin.name builtin.arity o.depth)
    else .ok { o with depth := o.depth - builtin.arity + 1 }
  | .read name =>
    if name ∈ o.names then .ok { o with depth := o.depth + 1 } else .error (.unknownVariable name)

/-- What is foretold of words of the classes. -/
def forecast (o : Outline) : List WordClass → Forecast
  | [] => ⟨0, o, none⟩
  | first :: rest =>
    match o.perform first with
    | .error fault => ⟨0, o, some fault⟩
    | .ok o =>
      let forecast := o.forecast rest
      { forecast with count := forecast.count + 1 }

theorem perform_ne_unknownOperator (o : Outline) (c : WordClass) (name : String) :
    o.perform c ≠ .error (.unknownOperator name) := by
  intro h
  cases c with
  | number => cases h
  | assign | refer | call | read =>
    rw [perform] at h
    split at h <;> cases h

/-- No operator is unknown. -/
theorem fault_forecast_ne_unknownOperator (name : String) :
    ∀ (o : Outline) (classes : List WordClass),
      (o.forecast classes).fault ≠ some (.unknownOperator name)
  | _, [], h => by cases h
  | o, first :: rest, h => by
    rw [forecast] at h
    split at h
    · rename_i fault hfault
      obtain rfl := Option.some.inj h
      exact o.perform_ne_unknownOperator first name hfault
    · exact fault_forecast_ne_unknownOperator name _ rest h

end Outline

/-- What is foretold of a program. -/
def Forecast.ofWords (program : List String) : Forecast :=
  Outline.empty.forecast (program.map WordClass.ofWord)

/-- How many entries a run has logged, how many are results, which variables
are bound, and the fault. -/
def Run.forecast (run : Run) : Forecast :=
  ⟨run.tape.nodes.length, ⟨run.results.length, run.environment.names⟩, run.fault⟩

/-- The runs have the same nodes, results, fault and variables, and may differ in values. -/
structure Run.SameButValues (run run' : Run) : Prop where
  nodes : run.tape.nodes = run'.tape.nodes
  results : run.results = run'.results
  fault : run.fault = run'.fault
  names : run.environment.names = run'.environment.names

namespace Machine

variable {m m' : Machine} {word word' : String}

/-- The outline of a machine. -/
def outline (m : Machine) : Outline := ⟨m.stack.length, m.environment.names⟩

/-! ## One word -/

/-- Does the machine do with the word what its outline does with the class of the word? -/
def FollowsOutline (m : Machine) (word : String) : Prop :=
  match m.outline.perform (.ofWord word) with
  | .error fault => m.step word = (m, .error fault)
  | .ok outline => ∃ node value below env, m.Performs (.ofWord word) node value below env ∧
      (m.extend node value below env).outline = outline

theorem followsOutline_assign {name : String} (h : Instruction.ofWord word = .assign name) :
    m.FollowsOutline word := by
  rw [FollowsOutline, WordClass.ofWord, h, Outline.perform]
  cases hstack : m.stack with
  | nil =>
    have hdepth : m.outline.depth = 0 := by rw [outline, hstack, List.length_nil]
    simp only [hdepth, if_true]
    rw [step, h, perform, assign, hstack]
    rfl
  | cons source below =>
    have hdepth : m.outline.depth = below.length + 1 := by rw [outline, hstack, List.length_cons]
    simp only [hdepth, Nat.add_one_ne_zero, if_false]
    refine ⟨_, _, _, _, .assign hstack, ?_⟩
    rw [extend, outline, outline, Environment.names_assign, hstack]
    rfl

theorem followsOutline_refer {name : String} (h : Instruction.ofWord word = .refer name) :
    m.FollowsOutline word := by
  have hnames : name ∈ m.outline.names ↔ m.environment.contains name = true := Environment.mem_names
  have hword := Instruction.eq_of_ofWord_eq_refer h
  rw [FollowsOutline, WordClass.ofWord, h, Outline.perform]
  by_cases hbound : m.environment.contains name = true
  · simp only [hnames, hbound, if_true]
    simp only [step, h, perform, refer, hbound, if_true, ← hword]
    rfl
  · simp only [hnames, hbound]
    simp only [step, h, perform, refer, hbound]
    rfl

theorem followsOutline_call {builtin : Builtin} (h : Instruction.ofWord word = .call builtin) :
    m.FollowsOutline word := by
  rw [FollowsOutline, WordClass.ofWord, h, Outline.perform]
  by_cases hdepth : m.stack.length < builtin.arity
  · have htake : m.stack.take builtin.arity = m.stack := List.take_of_length_le hdepth.le
    have houtline : m.outline.depth < builtin.arity := hdepth
    simp only [houtline, if_true]
    simp only [step, h, perform, call, htake, List.length_reverse, hdepth, if_true]
    rfl
  · have houtline : ¬ m.outline.depth < builtin.arity := hdepth
    simp only [houtline, if_false]
    -- a builtin of the table has a value on as many operands as it takes, whatever they are
    have hlength : (m.stack.take builtin.arity).reverse.length = builtin.arity := by
      rw [List.length_reverse, List.length_take, Nat.min_eq_left (Nat.not_lt.1 hdepth)]
    have hvalue : builtin.apply ((m.stack.take builtin.arity).reverse.map m.valueAt) = .ok _ :=
      Builtin.apply_of_mem_table (Instruction.mem_table_of_ofWord h)
        (by rw [List.length_map, hlength])
    refine ⟨_, _, m.stack.drop builtin.arity, _, .call ?_ hlength hvalue, ?_⟩
    · rw [List.reverse_reverse, List.take_append_drop]
    · rw [extend, outline, outline, List.length_cons, List.length_drop]

theorem followsOutline_read {name : String} (h : Instruction.ofWord word = .read name) :
    m.FollowsOutline word := by
  rw [FollowsOutline, WordClass.ofWord, h, Outline.perform]
  cases hvalue : m.environment.get? name with
  | none =>
    have hnames : name ∉ m.outline.names := fun hmem => by
      obtain ⟨value, hsome⟩ := Environment.mem_names_iff_exists_get?.1 hmem
      exact absurd (hvalue.symm.trans hsome) (Option.some_ne_none value).symm
    simp only [hnames, if_false]
    rw [step, h, perform, read, hvalue]
    rfl
  | some value =>
    have hnames : name ∈ m.outline.names := Environment.mem_names_iff_exists_get?.2 ⟨value, hvalue⟩
    simp only [hnames, if_true]
    exact ⟨_, _, _, _, .read hvalue, rfl⟩

/-- **A machine and its outline keep in step.** -/
theorem followsOutline (m : Machine) (word : String) : m.FollowsOutline word := by
  cases h : Instruction.ofWord word with
  | push value =>
    rw [FollowsOutline, WordClass.ofWord, h]
    exact ⟨_, _, _, _, .push value, rfl⟩
  | assign name => exact followsOutline_assign h
  | refer name => exact followsOutline_refer h
  | call builtin => exact followsOutline_call h
  | read name => exact followsOutline_read h

/-! ## Whole runs -/

theorem forecast_finish (m : Machine) (fault : Option Fault) :
    (m.finish fault).forecast = ⟨m.tape.nodes.length, m.outline, fault⟩ := by
  rw [Run.forecast, finish, outline, List.length_reverse]

theorem forecast_run : ∀ (m : Machine) (words : List String), (m.run words).forecast =
    { m.outline.forecast (words.map WordClass.ofWord) with
      count := m.tape.nodes.length + (m.outline.forecast (words.map WordClass.ofWord)).count }
  | m, [] => m.forecast_finish none
  | m, word :: rest => by
    have hfollows := m.followsOutline word
    rw [FollowsOutline] at hfollows
    rw [List.map_cons, Outline.forecast]
    cases hperform : m.outline.perform (.ofWord word) with
    | error fault =>
      rw [hperform] at hfollows
      rw [run, hfollows]
      exact m.forecast_finish (some fault)
    | ok outline =>
      rw [hperform] at hfollows
      obtain ⟨node, value, below, env, hperforms, rfl⟩ := hfollows
      rw [run, hperforms.step_eq]
      simp only [forecast_run (m.extend node value below env) rest, Forecast.mk.injEq, and_true]
      rw [extend, Tape.nodes_push, List.length_append, List.length_singleton]
      omega

/-! ## Two programs -/

/-- The machines have logged the same nodes, and may differ in values. -/
structure Alike (m m' : Machine) : Prop where
  nodes : m.tape.nodes = m'.tape.nodes
  stack : m.stack = m'.stack
  names : m.environment.names = m'.environment.names

namespace Alike

theorem refl (m : Machine) : m.Alike m := ⟨rfl, rfl, rfl⟩

theorem outline_eq (h : m.Alike m') : m.outline = m'.outline := by
  rw [outline, outline, h.stack, h.names]

theorem size_eq (h : m.Alike m') : m.tape.size = m'.tape.size := by
  rw [← Tape.length_nodes, h.nodes, Tape.length_nodes]

theorem finish (h : m.Alike m') (fault : Option Fault) :
    (m.finish fault).SameButValues (m'.finish fault) :=
  ⟨h.nodes, congrArg List.reverse h.stack, rfl, h.names⟩

theorem extend (h : m.Alike m') {env env' : Environment} (hnames : env.names = env'.names)
    (node : Node) (value value' : Binary64) (below : List NodeId) :
    (m.extend node value below env).Alike (m'.extend node value' below env') := by
  refine ⟨?_, ?_, hnames⟩
  · rw [Machine.extend, Machine.extend, Tape.nodes_push, Tape.nodes_push, h.nodes]
  · rw [Machine.extend, Machine.extend, h.size_eq]

/-- **Words that differ in their numbers only log the same node.** -/
theorem performs (h : m.Alike m') (hword : SameButNumber word word') {node : Node}
    {value : Binary64} {below : List NodeId} {env : Environment}
    (hperforms : m.Performs (.ofWord word) node value below env) :
    ∃ value' env', m'.Performs (.ofWord word') node value' below env' ∧ env.names = env'.names := by
  rcases hword with rfl | ⟨⟨number, hword⟩, number', hword'⟩
  · generalize hword : Instruction.ofWord word = instruction at hperforms ⊢
    cases hperforms with
    | push value =>
      rw [h.stack]
      exact ⟨_, _, .push value, h.names⟩
    | assign hstack =>
      refine ⟨_, _, .assign (h.stack ▸ hstack), ?_⟩
      rw [Environment.names_assign, Environment.names_assign, h.names]
    | @call builtin args below value hstack harity hvalue =>
      have hvalue' : builtin.apply (args.map m'.valueAt) = .ok _ :=
        Builtin.apply_of_mem_table (Instruction.mem_table_of_ofWord hword)
          (by rw [List.length_map, harity])
      exact ⟨_, _, .call (h.stack ▸ hstack) harity hvalue', h.names⟩
    | @read name value hvalue =>
      have hmem : name ∈ m'.environment.names :=
        h.names ▸ Environment.mem_names_iff_exists_get?.2 ⟨value, hvalue⟩
      obtain ⟨value', hvalue'⟩ := Environment.mem_names_iff_exists_get?.1 hmem
      rw [h.stack]
      exact ⟨_, _, .read hvalue', h.names⟩
  · rw [hword] at hperforms
    rw [hword']
    cases hperforms with
    | push =>
      rw [h.stack]
      exact ⟨_, _, .push number', h.names⟩

/-- **Programs that differ in their numbers only have runs that differ in values only.** -/
theorem run {words words' : List String} (hwords : List.Forall₂ SameButNumber words words') :
    ∀ {m m' : Machine}, m.Alike m' → (m.run words).SameButValues (m'.run words') := by
  induction hwords with
  | nil => exact fun h => h.finish none
  | @cons word word' rest rest' hword _ ih =>
    intro m m' h
    have hfollows := m.followsOutline word
    have hfollows' := m'.followsOutline word'
    rw [FollowsOutline] at hfollows hfollows'
    -- both outlines come to the same, so the words are accepted together
    rw [← h.outline_eq, ← hword.ofWord_eq] at hfollows'
    cases hperform : m.outline.perform (.ofWord word) with
    | error fault =>
      rw [hperform] at hfollows hfollows'
      rw [Machine.run, Machine.run, hfollows, hfollows']
      exact h.finish (some fault)
    | ok outline =>
      rw [hperform] at hfollows
      obtain ⟨node, value, below, env, hperforms, -⟩ := hfollows
      obtain ⟨value', env', hperforms', hnames⟩ := h.performs hword hperforms
      rw [Machine.run, Machine.run, hperforms.step_eq, hperforms'.step_eq]
      exact ih (h.extend hnames node value value' below)

end Alike

end Machine

namespace Run

/-- **The numbers of a program decide about values and about nothing else.** How many words are
accepted, the fault, how many results there are and which variables are bound is foretold from the
classes of the words; no operator is ever unknown; and programs that differ in their numbers only
have runs that differ in values only. -/
theorem forecast_ofWords (program : List String) :
    (ofWords program).forecast = Forecast.ofWords program ∧
      (∀ name, (ofWords program).fault ≠ some (.unknownOperator name)) ∧
      ∀ program', List.Forall₂ SameButNumber program program' →
        (ofWords program).SameButValues (ofWords program') := by
  have hforecast : (ofWords program).forecast = Forecast.ofWords program := by
    have hrun := Machine.initial.forecast_run program
    rwa [show Machine.initial.tape.nodes.length = 0 from rfl, Nat.zero_add] at hrun
  refine ⟨hforecast, fun name h => ?_, fun program' h => Machine.Alike.run h (.refl _)⟩
  have hfault : (Forecast.ofWords program).fault = some (.unknownOperator name) := by
    rw [← hforecast]
    exact h
  exact Outline.fault_forecast_ne_unknownOperator name _ _ hfault

/-- One program computes `2 / 2` and the other divides an infinity by itself. -/
theorem forecast_ofWords_quotients :
    List.Forall₂ SameButNumber ["2", "=x", "x", "/"] ["-Infinity", "=x", "x", "/"] ∧
      (ofWords ["2", "=x", "x", "/"]).SameButValues (ofWords ["-Infinity", "=x", "x", "/"]) := by
  have hnumbers : SameButNumber "2" "-Infinity" := .inr ⟨⟨_, rfl⟩, _, rfl⟩
  have hwords : List.Forall₂ SameButNumber ["2", "=x", "x", "/"] ["-Infinity", "=x", "x", "/"] :=
    .cons hnumbers (List.forall₂_same.2 fun _ _ => .inl rfl)
  exact ⟨hwords, (forecast_ofWords _).2.2 _ hwords⟩

end Run

end RpnTape
