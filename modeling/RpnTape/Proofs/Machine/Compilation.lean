import RpnTape.Proofs.Machine.Source
import RpnTape.Proofs.Machine.Steps
import RpnTape.Proofs.Tape.PostOrder

/-!
# Proofs/Machine/Compilation — a machine computes what is written, on top of what it holds

The words of a source, fed to a machine in any state, evaluate the source. What is on the stack
stays where it is: the operands a word takes are those that the words before it have put there.
So the proof is an induction over sources that says, for all machines and for all words that come
after, what has been gained when the words of the source are through (`Gains`). The arguments of
a builtin are gained one after the other (`Gains.trans`), and then its own word takes them
together (`Gains.extend`).
-/

namespace RpnTape

/-! ## What the words of a source say -/

theorem Instruction.ofWord_name : ∀ b ∈ Builtin.table, ofWord b.name = call b := by decide

theorem toList_assignment (name : String) : ("=" ++ name).toList = '=' :: name.toList := by
  rw [String.toList_append]
  rfl

/-- A number does not begin with `=`. -/
theorem Binary64.read?_assignment (name : String) : read? ("=" ++ name) = none := by
  simp only [read?, toList_assignment]
  rfl

theorem Instruction.ofWord_assignment {name : String} (h : name ≠ "") :
    ofWord ("=" ++ name) = assign name := by
  obtain ⟨c, cs, hname⟩ := List.exists_cons_of_ne_nil (mt String.toList_eq_nil_iff.1 h)
  have hmarked : markedName? '=' ("=" ++ name) = some name := by
    simp only [markedName?, toList_assignment, hname, if_true]
    rw [← hname, String.ofList_toList]
  rw [ofWord, Binary64.read?_assignment, hmarked]

namespace Machine

variable {m m' m'' : Machine} {ids ids' : List NodeId} {es es' : List Expr}
  {values values' : List Binary64} {count count' : Nat}

/-! ## What is gained -/

/-- On top of the first machine, the second holds entries that stand for the expressions and have
the values. They and their operands, in this order, are all that it has logged. -/
structure Gains (m m' : Machine) (ids : List NodeId) (es : List Expr) (values : List Binary64)
    (count : Nat) : Prop where
  stack : m'.stack = ids.reverse ++ m.stack
  tape : m.tape.Continues m'.tape
  size : m'.tape.size = m.tape.size + count
  unfolds : m'.tape.Unfolds ids es
  postOrder : m'.tape.PostOrder ids (List.range' m.tape.size count)
  values : List.Forall₂ (fun id value => m'.tape.value? id = some value) ids values

namespace Gains

theorem refl (m : Machine) : m.Gains m [] [] [] 0 where
  stack := rfl
  tape := List.prefix_refl _
  size := rfl
  unfolds := .nil
  postOrder := .nil
  values := .nil

theorem trans (h : m.Gains m' ids es values count) (h' : m'.Gains m'' ids' es' values' count') :
    m.Gains m'' (ids ++ ids') (es ++ es') (values ++ values') (count + count') where
  stack := by rw [h'.stack, h.stack, List.reverse_append, List.append_assoc]
  tape := h.tape.trans h'.tape
  size := by rw [h'.size, h.size, Nat.add_assoc]
  unfolds := (h.unfolds.mono h'.tape).append h'.unfolds
  postOrder := by
    have hlisting := (h.postOrder.mono h'.tape).append h'.postOrder
    rwa [h.size, List.range'_append_1] at hlisting
  values := List.rel_append (h.values.imp fun _ _ hvalue => h'.tape.value? hvalue) h'.values

theorem map_valueAt (h : m.Gains m' ids es values count) : ids.map m'.valueAt = values := by
  have heq : List.Forall₂ (fun id value => m'.valueAt id = value) ids values :=
    h.values.imp fun id value hvalue => by rw [valueAt, hvalue, Option.getD_some]
  rwa [← List.forall₂_map_left_iff, List.forall₂_eq_eq_eq] at heq

/-- **An instruction that takes all that was gained gains its own entry instead.** -/
theorem extend (h : m.Gains m' ids es values count) {node : Node} {value : Binary64}
    {env : Environment} {e : Expr} (hoperands : node.operands = ids)
    (he : Entry.expr? ⟨node, value⟩ es = some e) :
    m.Gains (m'.extend node value m.stack env) [m'.tape.size] [e] [value] (count + 1) := by
  subst hoperands
  have htape : m'.tape.Continues (m'.tape.push node value) := m'.tape.continues_push node value
  have hentry : (m'.tape.push node value).get? m'.tape.size = some ⟨node, value⟩ := by
    rw [Tape.get?_push, if_pos rfl]
  have hvalue : (m'.tape.push node value).value? m'.tape.size = some value := by
    rw [Tape.value?, hentry, Option.map_some]
  refine ⟨rfl, h.tape.trans htape, ?_, .cons hentry (h.unfolds.mono htape) he .nil, ?_,
    .cons hvalue .nil⟩
  · rw [Machine.extend, Tape.size_push, h.size, Nat.add_assoc]
  · have hlisting := Tape.PostOrder.singleton hentry (h.postOrder.mono htape)
    rw [List.range'_1_concat, ← h.size]
    exact hlisting

end Gains

/-! ## What words achieve -/

theorem run_of_performs {word : String} {node : Node} {value : Binary64} {below : List NodeId}
    {env : Environment} (h : m.Performs (.ofWord word) node value below env) (rest : List String) :
    m.run (word :: rest) = (m.extend node value below env).run rest := by
  rw [run, step, h.perform_eq]

/-- Do the words, whatever comes after them, leave the machine with the values of the expressions
and the variables, or stop at the variable that is not bound? -/
def Achieves (m : Machine) (words : List String) (es : List Expr) (count : Nat) :
    Except String (List Binary64 × Environment) → Prop
  | .ok (values, env) => ∃ m' ids, (∀ rest, m.run (words ++ rest) = m'.run rest) ∧
      m.Gains m' ids es values count ∧ m'.environment = env
  | .error name => ∃ m' : Machine, ∀ rest,
      m.run (words ++ rest) = m'.finish (some (.unknownVariable name))

theorem achieves_nil (m : Machine) : m.Achieves [] [] 0 (.ok ([], m.environment)) :=
  ⟨m, [], fun _ => rfl, .refl m, rfl⟩

/-- A word that takes nothing off the stack. -/
theorem achieves_word {word : String} {node : Node} {value : Binary64} {env : Environment}
    {e : Expr} (h : m.Performs (.ofWord word) node value m.stack env)
    (hoperands : node.operands = []) (he : Entry.expr? ⟨node, value⟩ [] = some e) :
    m.Achieves [word] [e] 1 (.ok ([value], env)) :=
  ⟨m.extend node value m.stack env, [m.tape.size], run_of_performs h,
    (Gains.refl m).extend hoperands he, rfl⟩

/-- Where words stop, those after them are not performed. -/
theorem Achieves.append_of_error {words : List String} {name : String}
    (h : m.Achieves words es count (.error name)) (words' : List String) :
    m.Achieves (words ++ words') es' count' (.error name) := by
  obtain ⟨m', hrun⟩ := h
  exact ⟨m', fun rest => by rw [List.append_assoc, hrun]⟩

/-- **The last word of a source takes what the others have gained.** -/
theorem Achieves.concat {words : List String} {word : String} {e : Expr} {values : List Binary64}
    {value : Binary64} {env env' : Environment}
    (h : m.Achieves words es count (.ok (values, env)))
    (hword : ∀ m' ids, m.Gains m' ids es values count → m'.environment = env →
      ∃ node, m'.Performs (.ofWord word) node value m.stack env' ∧ node.operands = ids ∧
        Entry.expr? ⟨node, value⟩ es = some e) :
    m.Achieves (words ++ [word]) [e] (count + 1) (.ok ([value], env')) := by
  obtain ⟨m', ids, hrun, hgains, henv⟩ := h
  obtain ⟨node, hperforms, hoperands, he⟩ := hword m' ids hgains henv
  refine ⟨m'.extend node value m.stack env', [m'.tape.size], fun rest => ?_,
    hgains.extend hoperands he, rfl⟩
  rw [List.append_assoc, hrun, List.singleton_append, run_of_performs hperforms]

/-- Does a machine in any state achieve what the source means? -/
def Compiles (source : Source) : Prop :=
  ∀ m : Machine, m.Achieves source.words [source.expr] source.size
    ((source.eval m.environment).map fun (value, env) => ([value], env))

/-- Sources are computed one after the other, each on top of those before it. -/
theorem achieves_inOrder : ∀ {sources : List Source}, (∀ source ∈ sources, Compiles source) →
    ∀ m : Machine, m.Achieves (sources.flatMap Source.words) (sources.map Source.expr)
      ((sources.map Source.size).foldr (· + ·) 0)
      (Effect.inOrder (sources.map Source.eval) m.environment)
  | [], _, m => m.achieves_nil
  | first :: sources, h, m => by
    obtain ⟨hfirst, hrest⟩ := List.forall_mem_cons.1 h
    have hfirst := hfirst m
    rw [List.map_cons, List.map_cons, List.map_cons, List.flatMap_cons, List.foldr_cons,
      Effect.inOrder]
    cases hvalue : first.eval m.environment with
    | error name =>
      rw [hvalue] at hfirst
      exact Achieves.append_of_error hfirst _
    | ok result =>
      rw [hvalue] at hfirst
      -- the others start from the variables that the first one leaves
      obtain ⟨m', ids, hrun, hgains, henv⟩ := hfirst
      have hothers := achieves_inOrder hrest m'
      rw [henv] at hothers
      simp only [bind, Except.bind]
      cases hvalues : Effect.inOrder (sources.map Source.eval) result.2 with
      | error name =>
        rw [hvalues] at hothers
        obtain ⟨m'', hrun'⟩ := hothers
        exact ⟨m'', fun rest => by rw [List.append_assoc, hrun, hrun']⟩
      | ok results =>
        rw [hvalues] at hothers
        obtain ⟨m'', ids', hrun', hgains', henv'⟩ := hothers
        exact ⟨m'', ids ++ ids', fun rest => by rw [List.append_assoc, hrun, hrun'],
          hgains.trans hgains', henv'⟩

/-! ## One case per kind of source -/

theorem compiles_number {word : String} {value : Binary64}
    (hword : Instruction.ofWord word = .push value) : Compiles (.number word value hword) := by
  intro m
  have hperforms : m.Performs (.ofWord word) .literal value m.stack m.environment :=
    hword ▸ .push value
  exact achieves_word hperforms rfl rfl

theorem compiles_read {name : String} (hname : Instruction.ofWord name = .read name) :
    Compiles (.read name hname) := by
  intro m
  cases hvalue : m.environment.get? name with
  | none =>
    rw [Source.eval_read_of_none hname hvalue]
    refine ⟨m, fun rest => ?_⟩
    rw [Source.words, List.singleton_append, run, step, hname, perform, Machine.read, hvalue]
    rfl
  | some value =>
    rw [Source.eval_read_of_some hname hvalue]
    have hperforms : m.Performs (.ofWord name) (.read name) value m.stack m.environment :=
      hname ▸ .read hvalue
    exact achieves_word hperforms rfl rfl

theorem compiles_assign {name : String} (hname : name ≠ "") {source : Source}
    (hsource : Compiles source) : Compiles (.assign name hname source) := by
  intro m
  have hsource := hsource m
  rw [Source.eval_assign, Source.words]
  cases hvalue : source.eval m.environment with
  | error name =>
    rw [hvalue] at hsource
    exact Achieves.append_of_error hsource _
  | ok result =>
    rw [hvalue] at hsource
    refine Achieves.concat hsource fun m' ids hgains henv => ?_
    obtain ⟨id, rfl⟩ := List.length_eq_one_iff.1 hgains.unfolds.length_eq.symm
    have hid : m'.valueAt id = result.1 := (List.cons.inj hgains.map_valueAt).1
    have hperforms : m'.Performs (.ofWord ("=" ++ name)) (.bind name id) (m'.valueAt id) m.stack
        (m'.environment.assign name (m'.valueAt id)) :=
      Instruction.ofWord_assignment hname ▸ .assign hgains.stack
    rw [hid, henv] at hperforms
    exact ⟨.bind name id, hperforms, rfl, rfl⟩

theorem compiles_call {builtin : Builtin} (hmem : builtin ∈ Builtin.table)
    {args : Fin builtin.arity → Source} (hargs : ∀ i, Compiles (args i)) :
    Compiles (.call builtin hmem args) := by
  intro m
  have hargs := achieves_inOrder (List.forall_mem_ofFn_iff.2 hargs) m
  rw [Source.eval_call, Source.words_call, Source.expr_call, Source.size_call]
  cases hvalues : Effect.inOrder ((List.ofFn args).map Source.eval) m.environment with
  | error name =>
    rw [hvalues] at hargs
    exact Achieves.append_of_error hargs _
  | ok results =>
    rw [hvalues] at hargs
    -- the builtin takes all that its arguments have gained, and finds the stack of `m` below
    refine Achieves.concat hargs fun m' ids hgains henv => ?_
    have harity : ids.length = builtin.arity := by
      rw [← hgains.unfolds.length_eq, List.length_map, List.length_ofFn]
    have hvalue : builtin.apply (ids.map m'.valueAt) = .ok (builtin.value results.1) := by
      rw [Builtin.apply_of_mem_table hmem (by rw [List.length_map, harity]), hgains.map_valueAt]
    have hperforms : m'.Performs (.ofWord builtin.name) (.apply builtin ids)
        (builtin.value results.1) m.stack m'.environment :=
      Instruction.ofWord_name builtin hmem ▸ .call hgains.stack harity hvalue
    rw [henv] at hperforms
    exact ⟨.apply builtin ids, hperforms, rfl, rfl⟩

theorem compiles (source : Source) : Compiles source := by
  induction source with
  | number word value hword => exact compiles_number hword
  | call builtin hmem args ih => exact compiles_call hmem ih
  | assign name hname source ih => exact compiles_assign hname ih
  | read name hname => exact compiles_read hname

/-! ## From any state -/

/-- The second machine has computed the source on top of what the first one holds. -/
structure Computes (m : Machine) (source : Source) (m' : Machine) (id : NodeId) : Prop where
  /-- One position is new on the stack. -/
  stack : m'.stack = id :: m.stack
  /-- The tape is the old one with one entry for each node. -/
  tape : m.tape.Continues m'.tape
  size : m'.tape.size = m.tape.size + source.size
  /-- The new entries are the tree of the source, operands first. -/
  unfolds : m'.tape.Unfolds [id] [source.expr]
  postOrder : m'.tape.PostOrder [id] (List.range' m.tape.size source.size)
  /-- The value and the variables are those of the source. -/
  eval : ∃ value, m'.tape.value? id = some value ∧
    source.eval m.environment = .ok (value, m'.environment)

/-- **A machine in any state computes the words of a source exactly if every read finds its variable
bound**, and otherwise stops at the first read that does not. -/
theorem run_words_source (m : Machine) (source : Source) :
    ((m.run source.words).fault = none ↔
        Access.AllBound m.environment.contains source.accesses) ∧
      (∀ fault, (m.run source.words).fault = some fault → ∃ name, fault = .unknownVariable name ∧
        Access.FirstUnbound m.environment.contains source.accesses name) ∧
      ((m.run source.words).fault = none → ∃ m' id, m.run source.words = m'.finish none ∧
        m.Computes source m' id) := by
  have haccesses := source.accesses_eval m.environment []
  have hachieves := compiles source m
  rw [List.append_nil] at haccesses
  cases hvalue : source.eval m.environment with
  | error name =>
    rw [hvalue] at haccesses hachieves
    obtain ⟨m', hrun⟩ := hachieves
    have hunbound := Access.firstUnbound_of_firstUnbound? haccesses
    have hfault : (m.run source.words).fault = some (.unknownVariable name) := by
      rw [← List.append_nil source.words, hrun, finish]
    have hne : (m.run source.words).fault ≠ none := hfault ▸ Option.some_ne_none _
    refine ⟨⟨fun h => absurd h hne, fun h => absurd h hunbound.not_allBound⟩, ?_,
      fun h => absurd h hne⟩
    intro fault h
    exact ⟨name, Option.some.inj (h.symm.trans hfault), hunbound⟩
  | ok result =>
    obtain ⟨value, env⟩ := result
    rw [hvalue] at haccesses hachieves
    obtain ⟨m', ids, hrun, hgains, rfl⟩ := hachieves
    obtain ⟨id, rfl⟩ := List.length_eq_one_iff.1 hgains.unfolds.length_eq.symm
    have hfinish : m.run source.words = m'.finish none := by
      rw [← List.append_nil source.words, hrun, run]
    have hall := Access.allBound_of_firstUnbound? haccesses
    rw [hfinish]
    refine ⟨⟨fun _ => hall, fun _ => rfl⟩, fun _ h => absurd h.symm (Option.some_ne_none _),
      fun _ => ⟨m', id, rfl, ?_⟩⟩
    exact ⟨hgains.stack, hgains.tape, hgains.size, hgains.unfolds, hgains.postOrder, value,
      (List.forall₂_cons.1 hgains.values).1, hvalue⟩

end Machine

end RpnTape
