import RpnTape.Machine.Run

/-!
# Proofs/Machine/Steps — what a word can do to a machine

An accepted instruction takes the operands of one new node off the stack, logs the node and puts its
position in their place; `Performs` names the node, its value and what is left untouched. A rejected
instruction does nothing. `perform_cases` says that there is nothing else, and every invariant of a
run is proved from it by `feed_induction`.
-/

namespace RpnTape

namespace Instruction

/-- The instruction is what the word spells: of the five spellings, the first that the word has. -/
inductive Spells (word : String) : Instruction → Prop
  | push {value : Binary64} (hnumber : Binary64.read? word = some value) : Spells word (.push value)
  | assign {name : String} (hnumber : Binary64.read? word = none)
      (hassign : markedName? '=' word = some name) : Spells word (.assign name)
  | refer {name : String} (hnumber : Binary64.read? word = none)
      (hassign : markedName? '=' word = none) (hrefer : markedName? '$' word = some name) :
      Spells word (.refer name)
  | call {builtin : Builtin} (hnumber : Binary64.read? word = none)
      (hassign : markedName? '=' word = none) (hrefer : markedName? '$' word = none)
      (hcall : Builtin.lookup? word = some builtin) : Spells word (.call builtin)
  | read (hnumber : Binary64.read? word = none) (hassign : markedName? '=' word = none)
      (hrefer : markedName? '$' word = none) (hcall : Builtin.lookup? word = none) :
      Spells word (.read word)

/-- **A word spells one instruction.** -/
theorem ofWord_eq_iff {word : String} {instruction : Instruction} :
    ofWord word = instruction ↔ Spells word instruction := by
  constructor
  · rintro rfl
    unfold ofWord
    split
    · exact .push ‹_›
    split
    · exact .assign ‹_› ‹_›
    split
    · exact .refer ‹_› ‹_› ‹_›
    split
    · exact .call ‹_› ‹_› ‹_› ‹_›
    · exact .read ‹_› ‹_› ‹_› ‹_›
  · intro h
    cases h with
    | push hnumber => rw [ofWord, hnumber]
    | assign hnumber hassign => rw [ofWord, hnumber, hassign]
    | refer hnumber hassign hrefer => rw [ofWord, hnumber, hassign, hrefer]
    | call hnumber hassign hrefer hcall => rw [ofWord, hnumber, hassign, hrefer, hcall]
    | read hnumber hassign hrefer hcall => rw [ofWord, hnumber, hassign, hrefer, hcall]

/-- A word calls builtins of the table only. -/
theorem mem_table_of_ofWord {word : String} {b : Builtin} (h : ofWord word = call b) :
    b ∈ Builtin.table := by
  cases ofWord_eq_iff.1 h with
  | call _ _ _ hcall => exact Builtin.mem_table_of_lookup? hcall

end Instruction

namespace Machine

/-! ## One instruction -/

/-- The instruction is accepted: it logs the node with the value, leaves the rest of the stack
`below` and the variables `env`. -/
inductive Performs (m : Machine) :
    Instruction → Node → Binary64 → (below : List NodeId) → (env : Environment) → Prop
  | push (value : Binary64) : Performs m (.push value) .literal value m.stack m.environment
  | assign {name : String} {source : NodeId} {below : List NodeId}
      (hstack : m.stack = source :: below) :
      Performs m (.assign name) (.bind name source) (m.valueAt source) below
        (m.environment.assign name (m.valueAt source))
  | call {builtin : Builtin} {args below : List NodeId} {value : Binary64}
      (hstack : m.stack = args.reverse ++ below) (harity : args.length = builtin.arity)
      (hvalue : builtin.apply (args.map m.valueAt) = .ok value) :
      Performs m (.call builtin) (.apply builtin args) value below m.environment
  | read {name : String} {value : Binary64} (hvalue : m.environment.get? name = some value) :
      Performs m (.read name) (.read name) value m.stack m.environment

/-- The machine after an accepted instruction. -/
def extend (m : Machine) (node : Node) (value : Binary64) (below : List NodeId)
    (env : Environment) : Machine :=
  ⟨m.tape.push node value, m.tape.size :: below, env⟩

variable {m : Machine} {instruction : Instruction} {node : Node} {value : Binary64}
  {below : List NodeId} {env : Environment}

/-- **The operands of the new node are what it takes off the stack**, the last one from the top. -/
theorem Performs.stack_eq (h : m.Performs instruction node value below env) :
    m.stack = node.operands.reverse ++ below := by
  cases h with
  | push | read => rfl
  | assign hstack => exact hstack
  | call hstack => exact hstack

theorem Performs.perform_eq (h : m.Performs instruction node value below env) :
    m.perform instruction = (m.extend node value below env, .ok m.tape.size) := by
  cases h with
  | push => rfl
  | assign hstack =>
    rw [perform, Machine.assign, hstack]
    rfl
  | @call builtin args below value hstack harity hvalue =>
    have htake : m.stack.take builtin.arity = args.reverse := by
      rw [hstack, ← harity, ← List.length_reverse, List.take_left]
    have hdrop : m.stack.drop builtin.arity = below := by
      rw [hstack, ← harity, ← List.length_reverse, List.drop_left]
    simp only [perform, Machine.call, htake, hdrop, List.reverse_reverse, harity, hvalue,
      Nat.lt_irrefl, if_false]
    rfl
  | read hvalue =>
    rw [perform, Machine.read, hvalue]
    rfl

/-- **What an instruction can do.** -/
theorem perform_cases (m : Machine) (instruction : Instruction) :
    (∃ node value below env, m.Performs instruction node value below env) ∨
      ∃ fault, m.perform instruction = (m, .error fault) := by
  cases hresult : (m.perform instruction).2 with
  | error fault => exact .inr ⟨fault, Prod.ext (fst_perform_of_error hresult) hresult⟩
  | ok id =>
    refine .inl ?_
    cases instruction with
    | push value => exact ⟨_, _, _, _, .push value⟩
    | assign name =>
      cases hstack : m.stack with
      | nil =>
        rw [perform, Machine.assign, hstack] at hresult
        cases hresult
      | cons source below => exact ⟨_, _, _, _, .assign hstack⟩
    | refer name =>
      rw [perform, refer] at hresult
      split at hresult <;> cases hresult
    | call builtin =>
      simp only [perform, Machine.call] at hresult
      split at hresult
      · cases hresult
      rename_i hargs
      split at hresult
      · cases hresult
      rename_i value hvalue
      refine ⟨_, value, m.stack.drop builtin.arity, _, .call ?_ ?_ hvalue⟩
      · rw [List.reverse_reverse, List.take_append_drop]
      · rw [List.length_reverse] at hargs ⊢
        exact Nat.le_antisymm (List.length_take_le _ _) (Nat.not_lt.1 hargs)
    | read name =>
      cases hvalue : m.environment.get? name with
      | none =>
        rw [perform, Machine.read, hvalue] at hresult
        cases hresult
      | some value => exact ⟨_, _, _, _, .read hvalue⟩

theorem Performs.step_eq {word : String} (h : m.Performs (.ofWord word) node value below env) :
    m.step word = (m.extend node value below env, .ok m.tape.size) := h.perform_eq

/-- What a word can do: it is accepted or it changes nothing. -/
theorem step_cases (m : Machine) (word : String) :
    (∃ node value below env, m.Performs (.ofWord word) node value below env ∧
        m.step word = (m.extend node value below env, .ok m.tape.size)) ∨
      ∃ fault, m.step word = (m, .error fault) := by
  rcases m.perform_cases (.ofWord word) with ⟨node, value, below, env, h⟩ | hfault
  · exact .inl ⟨node, value, below, env, h, h.step_eq⟩
  · exact .inr hfault

/-! ## Many words -/

/-- The machine after words, rejected ones included. -/
def feed (m : Machine) : List String → Machine
  | [] => m
  | word :: rest => (m.step word).1.feed rest

/-- What each word came to: a new entry or a fault. -/
def outcomes (m : Machine) : List String → List (Except Fault NodeId)
  | [] => []
  | word :: rest => (m.step word).2 :: (m.step word).1.outcomes rest

/-- How many of the words were accepted. -/
def acceptedCount (m : Machine) (words : List String) : Nat :=
  (m.outcomes words).countP Except.isOk

/-- **What every accepted word keeps, every run keeps.** -/
theorem feed_induction {P : Machine → Prop}
    (hstep : ∀ {m : Machine} {word : String} {node value below env}, P m →
      m.Performs (.ofWord word) node value below env → P (m.extend node value below env)) :
    ∀ {m : Machine} (words : List String), P m → P (m.feed words)
  | _, [], hm => hm
  | m, word :: rest, hm => by
    refine feed_induction hstep rest ?_
    rcases m.perform_cases (.ofWord word) with ⟨node, value, below, env, h⟩ | ⟨fault, h⟩
    · rw [step, h.perform_eq]
      exact hstep hm h
    · rw [step, h]
      exact hm

/-- Every accepted word logs one entry. -/
theorem size_tape_feed : ∀ (m : Machine) (words : List String),
    (m.feed words).tape.size = m.tape.size + m.acceptedCount words
  | m, [] => rfl
  | m, word :: rest => by
    rw [feed, size_tape_feed, acceptedCount, acceptedCount, outcomes, List.countP_cons]
    rcases m.perform_cases (.ofWord word) with ⟨node, value, below, env, h⟩ | ⟨fault, h⟩
    · rw [step, h.perform_eq]
      simp only [extend, Tape.size_push, Except.isOk, Except.toBool, if_true]
      omega
    · rw [step, h]
      simp only [Except.isOk, Except.toBool, Bool.false_eq_true, if_false]
      omega

/-- **A run that stops at its first fault leaves what feeding the words up to there leaves.** -/
theorem exists_run_eq_finish_feed : ∀ (m : Machine) (words : List String),
    ∃ performed fault, m.run words = (m.feed performed).finish fault
  | m, [] => ⟨[], none, rfl⟩
  | m, word :: rest => by
    cases h : m.step word with
    | mk m' outcome =>
      have hfed : ∀ performed, m.feed (word :: performed) = m'.feed performed := by
        intro performed
        rw [feed, h]
      cases outcome with
      | error fault => exact ⟨[word], some fault, by rw [run, h, hfed, feed]⟩
      | ok id =>
        obtain ⟨performed, fault, hrun⟩ := exists_run_eq_finish_feed m' rest
        exact ⟨word :: performed, fault, by rw [run, h, hfed, ← hrun]⟩

end Machine

end RpnTape
