import RpnTape.Proofs.Machine.Order

/-!
# Proofs/Machine/Rejection — a rejected word is as if it had not been written

Going on after faults leaves what the accepted words alone leave (`run_accepted`), and a run that
stops at a fault leaves what the words before it leave (`run_cases`). Neither needs more than that a
rejected word changes nothing.

That a word is always either accepted or rejected needs more: a value is looked up for
every operand, and a machine with a stack that points off its tape would find none there.
`step?` performs a word without a value to fall back on, and on a machine's own tape it
comes to the same (`step?_eq`).
-/

namespace RpnTape

namespace Machine

/-! ## No value is missing -/

/-- Performs an instruction; there is no result where a value is looked up
that is not on the tape. -/
def perform? (m : Machine) : Instruction → Option (Machine × Except Fault NodeId)
  | .push value => some (m.push .literal value)
  | .assign name =>
    match m.stack with
    | [] => some (m.reject (.emptyStackOnAssignment name))
    | source :: below => do
      let value ← m.tape.value? source
      return push { m with stack := below, environment := m.environment.assign name value }
        (.bind name source) value
  | .refer name => some (m.refer name)
  | .call builtin =>
    let args := (m.stack.take builtin.arity).reverse
    if args.length < builtin.arity then
      some (m.reject (.insufficientOperands builtin.name builtin.arity args.length))
    else do
      let values ← args.mapM m.tape.value?
      match builtin.apply values with
      | .error fault => return m.reject fault
      | .ok value =>
        return push { m with stack := m.stack.drop builtin.arity } (.apply builtin args) value
  | .read name => some (m.read name)

/-- Performs a word and looks up the value of the entry it adds; there is no result where a value is
looked up that is not on the tape. -/
def step? (m : Machine) (word : String) : Option (Machine × Except Fault NodeId) := do
  let (m', outcome) ← m.perform? (.ofWord word)
  match outcome with
  | .error fault => return (m', .error fault)
  | .ok id =>
    let _ ← m'.tape.value? id
    return (m', .ok id)

variable {m : Machine}

theorem OperandsFirst.value?_of_mem_stack (hm : m.OperandsFirst) {id : NodeId}
    (hid : id ∈ m.stack) : m.tape.value? id = some (m.valueAt id) := by
  have hlt : id < m.tape.entries.size := ((hm.mem_stack_iff id).1 hid).1
  rw [valueAt, Tape.value?, Tape.get?, Array.getElem?_eq_getElem hlt]
  rfl

theorem mapM_value?_eq :
    ∀ {ids : List NodeId}, (∀ id ∈ ids, m.tape.value? id = some (m.valueAt id)) →
      ids.mapM m.tape.value? = some (ids.map m.valueAt)
  | [], _ => rfl
  | id :: ids, h => by
    obtain ⟨hid, hids⟩ := List.forall_mem_cons.1 h
    rw [List.mapM_cons, hid, mapM_value?_eq hids]
    rfl

theorem OperandsFirst.perform?_eq (hm : m.OperandsFirst) (instruction : Instruction) :
    m.perform? instruction = some (m.perform instruction) := by
  cases instruction with
  | push | refer | read => rfl
  | assign name =>
    rw [perform?, perform, assign]
    cases hstack : m.stack with
    | nil => rfl
    | cons source below =>
      have hsource : source ∈ m.stack := hstack ▸ List.mem_cons_self
      simp only [hm.value?_of_mem_stack hsource]
      rfl
  | call builtin =>
    have hvalues : (m.stack.take builtin.arity).reverse.mapM m.tape.value? =
        some ((m.stack.take builtin.arity).reverse.map m.valueAt) := by
      refine mapM_value?_eq fun id hid => hm.value?_of_mem_stack ?_
      exact List.mem_of_mem_take (List.mem_reverse.1 hid)
    simp only [perform?, perform, call, hvalues]
    split
    · rfl
    · simp only [Option.bind_eq_bind, Option.bind_some]
      cases builtin.apply ((m.stack.take builtin.arity).reverse.map m.valueAt) with
      | error fault => rfl
      | ok value => rfl

/-- **Every value that a word looks up is there.** -/
theorem OperandsFirst.step?_eq (hm : m.OperandsFirst) (word : String) :
    m.step? word = some (m.step word) := by
  rw [step?, hm.perform?_eq, Option.bind_eq_bind, Option.bind_some]
  rcases m.step_cases word with ⟨node, value, below, env, -, hstep⟩ | ⟨fault, hstep⟩
  · have hvalue : (m.extend node value below env).tape.value? m.tape.size = some value := by
      rw [Machine.extend, Tape.value?, Tape.get?_push, if_pos rfl, Option.map_some]
    rw [step] at hstep
    simp only [step, hstep, hvalue]
    rfl
  · rw [step] at hstep
    simp only [step, hstep]
    rfl

/-! ## Going on after faults -/

/-- The words that are accepted when the machine goes on after those that are not. -/
def accepted (m : Machine) (words : List String) : List String :=
  ((words.zip (m.outcomes words)).filter fun (_, outcome) => outcome.isOk).map Prod.fst

theorem accepted_cons_of_ok {m' : Machine} {word : String} {id : NodeId}
    (h : m.step word = (m', .ok id)) (rest : List String) :
    m.accepted (word :: rest) = word :: m'.accepted rest := by
  simp [accepted, outcomes, h, Except.isOk, Except.toBool]

theorem accepted_cons_of_error {m' : Machine} {word : String} {fault : Fault}
    (h : m.step word = (m', .error fault)) (rest : List String) :
    m.accepted (word :: rest) = m'.accepted rest := by
  simp [accepted, outcomes, h, Except.isOk, Except.toBool]

/-- **Going on after faults leaves what the accepted words alone leave**, and none of these is
rejected when the others are not there. -/
theorem run_accepted : ∀ (m : Machine) (words : List String),
    m.run (m.accepted words) = (m.feed words).finish none
  | m, [] => rfl
  | m, word :: rest => by
    rcases m.step_cases word with ⟨node, value, below, env, -, hstep⟩ | ⟨fault, hstep⟩
    · rw [accepted_cons_of_ok hstep, run, feed, hstep]
      exact run_accepted _ rest
    · rw [accepted_cons_of_error hstep, feed, hstep]
      exact run_accepted m rest

/-- **What every accepted word keeps, every run keeps**, with the accepted words at hand. -/
theorem feed_induction_accepted {P : List String → Machine → Prop}
    (hstep : ∀ {done : List String} {m : Machine} {word : String} {node value below env}, P done m →
      m.Performs (.ofWord word) node value below env →
        P (done ++ [word]) (m.extend node value below env)) :
    ∀ {done : List String} {m : Machine} (words : List String), P done m →
      P (done ++ m.accepted words) (m.feed words)
  | done, m, [], hm => by
    rw [show m.accepted [] = [] from rfl, List.append_nil]
    exact hm
  | done, m, word :: rest, hm => by
    rcases m.step_cases word with ⟨node, value, below, env, h, hword⟩ | ⟨fault, hword⟩
    · rw [accepted_cons_of_ok hword, feed, hword, List.append_cons]
      exact feed_induction_accepted hstep rest (hstep hm h)
    · rw [accepted_cons_of_error hword, feed, hword]
      exact feed_induction_accepted hstep rest hm

/-! ## Stopping at the first fault -/

theorem exists_performs_of_fault_eq_none {word : String} {rest : List String}
    (h : (m.run (word :: rest)).fault = none) :
    ∃ node value below env, m.Performs (.ofWord word) node value below env ∧
      m.step word = (m.extend node value below env, .ok m.tape.size) ∧
      ((m.extend node value below env).run rest).fault = none := by
  rcases m.step_cases word with ⟨node, value, below, env, hperforms, hstep⟩ | ⟨fault, hstep⟩
  · rw [run, hstep] at h
    exact ⟨node, value, below, env, hperforms, hstep, h⟩
  · rw [run, hstep] at h
    cases h

/-- A run without a fault has performed all its words, and goes on as if it
had started after them. -/
theorem run_append_of_fault_eq_none : ∀ {m : Machine} {words : List String},
    (m.run words).fault = none → ∀ rest, m.run (words ++ rest) = (m.feed words).run rest
  | _, [], _, _ => rfl
  | m, word :: words, h, rest => by
    obtain ⟨node, value, below, env, -, hstep, h⟩ := exists_performs_of_fault_eq_none h
    rw [List.cons_append, run, feed, hstep]
    exact run_append_of_fault_eq_none h rest

theorem run_of_fault_eq_none {words : List String} (h : (m.run words).fault = none) :
    m.run words = (m.feed words).finish none := by
  have hrun := run_append_of_fault_eq_none h []
  rwa [List.append_nil] at hrun

/-- Where no word is rejected, every word adds an entry. -/
theorem size_tape_of_fault_eq_none : ∀ {m : Machine} {words : List String},
    (m.run words).fault = none → (m.feed words).tape.size = m.tape.size + words.length
  | _, [], _ => rfl
  | m, word :: words, h => by
    obtain ⟨node, value, below, env, -, hstep, h⟩ := exists_performs_of_fault_eq_none h
    rw [feed, hstep, size_tape_of_fault_eq_none h, extend, Tape.size_push, List.length_cons]
    omega

/-- **A run performs all its words, or those before the first that is rejected.** -/
theorem run_cases : ∀ (m : Machine) (words : List String), (m.run words).fault = none ∨
    ∃ before word after fault, words = before ++ word :: after ∧ (m.run before).fault = none ∧
      (m.feed before).step word = (m.feed before, .error fault)
  | m, [] => .inl rfl
  | m, word :: rest => by
    rcases m.step_cases word with ⟨node, value, below, env, -, hstep⟩ | ⟨fault, hstep⟩
    · rw [run, hstep]
      refine (run_cases (m.extend node value below env) rest).imp_right ?_
      rintro ⟨before, word', after, fault, rfl, hbefore, hfault⟩
      refine ⟨word :: before, word', after, fault, rfl, ?_, ?_⟩
      · rw [run, hstep]
        exact hbefore
      · rw [feed, hstep]
        exact hfault
    · exact .inr ⟨[], word, rest, fault, rfl, rfl, hstep⟩

/-- **A rejected word is as if it had not been written.** After any words, every word is performed
without a missing value, and if it is rejected it changes nothing. So the machine is the one that
the accepted words alone lead to, without a fault, and a run that a word stops leaves what the words
before it leave, with one entry for each of them. -/
theorem rejections_without_trace (words : List String) :
    (∀ word, (initial.feed words).step? word = some ((initial.feed words).step word) ∧
        ∀ fault, ((initial.feed words).step word).2 = .error fault →
          ((initial.feed words).step word).1 = initial.feed words) ∧
      Run.ofWords (initial.accepted words) = (initial.feed words).finish none ∧
      ∀ fault, (Run.ofWords words).fault = some fault →
        ∃ before word after, words = before ++ word :: after ∧
          ((initial.feed before).step word).2 = .error fault ∧
          Run.ofWords before = { Run.ofWords words with fault := none } ∧
          (Run.ofWords words).tape.nodes.length = before.length := by
  refine ⟨fun word => ⟨(operandsFirst_feed words).step?_eq word, fun fault h => ?_⟩,
    run_accepted initial words, fun fault h => ?_⟩
  · exact fst_perform_of_error h
  · rcases run_cases initial words with hnone | ⟨before, word, after, fault', rfl, hbefore, hstep⟩
    · exact absurd (hnone.symm.trans h) (Option.some_ne_none _).symm
    -- the words before the rejected one run without a fault, so both runs end in the same machine
    have hrun : Run.ofWords (before ++ word :: after) =
        (initial.feed before).finish (some fault') := by
      rw [Run.ofWords, run_append_of_fault_eq_none hbefore, run, hstep]
    have hsize : (initial.feed before).tape.size = before.length := by
      rw [size_tape_of_fault_eq_none hbefore]
      exact Nat.zero_add _
    rw [hrun] at h ⊢
    obtain rfl : fault' = fault := Option.some.inj h
    refine ⟨before, word, after, rfl, by rw [hstep], run_of_fault_eq_none hbefore, ?_⟩
    rw [finish, Tape.length_nodes, hsize]

end Machine

end RpnTape
