import RpnTape.Proofs.Machine.Equations
import RpnTape.Proofs.Machine.Rejection

/-!
# Proofs/Machine/Concatenation — one program after another

A program that runs without a fault from the beginning does the same on top of any machine. It never
reaches below the stack it starts with, because it did not have to, and it never sees a variable
that was left behind, because each of its reads has found a variable of its own. So the machine on
top of another is the machine alone, moved back by the length of the other's tape (`OnTop`), and
this is kept by every word (`OnTop.performs`).
-/

namespace RpnTape

theorem Environment.get?_or (env env' : Environment) (name : String) :
    (env.get? name).or (env'.get? name) =
      if env.contains name then env.get? name else env'.get? name := by
  rw [contains]
  cases env.get? name with
  | none => simp
  | some value => simp

namespace Machine

variable {base m m' : Machine}

/-! ## On top of another machine -/

/-- The machine `m'` is `m` on top of `base`: the tape and the stack of `m` come after those of
`base`, and the variables of `m` hide those of `base`. -/
structure OnTop (base m m' : Machine) : Prop where
  tape : m'.tape = base.tape.append m.tape
  stack : m'.stack = m.stack.map (base.tape.size + ·) ++ base.stack
  get? : ∀ name, m'.environment.get? name =
    (m.environment.get? name).or (base.environment.get? name)

theorem onTop_initial (base : Machine) : OnTop base initial base where
  tape := base.tape.append_empty.symm
  stack := rfl
  get? _ := rfl

namespace OnTop

theorem valueAt (h : OnTop base m m') (id : NodeId) :
    m'.valueAt (base.tape.size + id) = m.valueAt id := by
  rw [Machine.valueAt, h.tape, Tape.value?_append_add, Machine.valueAt]

/-- **What is accepted alone is accepted on top of another machine**, with the same value and with
the operands moved back. -/
theorem performs (h : OnTop base m m') {instruction : Instruction} {node : Node} {value : Binary64}
    {below : List NodeId} {env : Environment}
    (hperforms : m.Performs instruction node value below env) :
    ∃ env', m'.Performs instruction (node.shift base.tape.size) value
        (below.map (base.tape.size + ·) ++ base.stack) env' ∧
      ∀ name, env'.get? name = (env.get? name).or (base.environment.get? name) := by
  cases hperforms with
  | push value =>
    rw [← h.stack]
    exact ⟨_, .push value, h.get?⟩
  | @assign name source below hstack =>
    have hstack' : m'.stack = (base.tape.size + source) ::
        (below.map (base.tape.size + ·) ++ base.stack) := by
      rw [h.stack, hstack]
      rfl
    rw [← h.valueAt]
    refine ⟨_, .assign hstack', fun other => ?_⟩
    rw [Environment.get?_assign, Environment.get?_assign, h.get?]
    split
    · rw [Option.some_or]
    · rfl
  | @call builtin args below value hstack harity hvalue =>
    have hstack' : m'.stack = (args.map (base.tape.size + ·)).reverse ++
        (below.map (base.tape.size + ·) ++ base.stack) := by
      rw [h.stack, hstack, List.map_append, List.map_reverse, List.append_assoc]
    have hvalues : (args.map (base.tape.size + ·)).map m'.valueAt = args.map m.valueAt := by
      rw [List.map_map]
      exact List.map_congr_left fun id _ => h.valueAt id
    refine ⟨_, .call hstack' (by rw [List.length_map, harity]) (by rw [hvalues, hvalue]), h.get?⟩
  | @read name value hvalue =>
    have hvalue' : m'.environment.get? name = some value := by rw [h.get?, hvalue, Option.some_or]
    rw [← h.stack]
    exact ⟨_, .read hvalue', h.get?⟩

theorem extend (h : OnTop base m m') {node : Node} {value : Binary64} {below : List NodeId}
    {env env' : Environment}
    (henv : ∀ name, env'.get? name = (env.get? name).or (base.environment.get? name)) :
    OnTop base (m.extend node value below env)
      (m'.extend (node.shift base.tape.size) value
        (below.map (base.tape.size + ·) ++ base.stack) env') where
  tape := by rw [Machine.extend, Machine.extend, Tape.append_push, h.tape]
  stack := by
    rw [Machine.extend, Machine.extend, h.tape, Tape.size_append, List.map_cons, List.cons_append]
  get? := henv

/-- **A run without a fault goes the same way on top of another machine.** -/
theorem feed : ∀ {words : List String} {m m' : Machine}, OnTop base m m' →
    (m.run words).fault = none →
      (m'.run words).fault = none ∧ OnTop base (m.feed words) (m'.feed words)
  | [], _, _, h, _ => ⟨rfl, h⟩
  | word :: words, m, m', h, hfault => by
    obtain ⟨node, value, below, env, hperforms, hstep, hfault⟩ :=
      exists_performs_of_fault_eq_none hfault
    obtain ⟨env', hperforms', henv⟩ := h.performs hperforms
    rw [run, Machine.feed, Machine.feed, hstep, hperforms'.step_eq]
    exact (h.extend henv).feed hfault

end OnTop

end Machine

/-! ## Two programs -/

namespace Run

/-- The run `both` is the run `second` after the run `first`. -/
structure Joins (first second both : Run) : Prop where
  fault : both.fault = none
  nodes : both.tape.nodes =
    first.tape.nodes ++ second.tape.nodes.map (Node.shift first.tape.nodes.length)
  values : both.tape.values = first.tape.values ++ second.tape.values
  results : both.results = first.results ++ second.results.map (first.tape.nodes.length + ·)
  /-- The second run decides about the variables that it assigns, the first one about all others. -/
  get? : ∀ name, both.environment.get? name =
    if second.environment.contains name then second.environment.get? name
    else first.environment.get? name
  equations : both.equations = first.equations ++ second.equations

theorem joins_ofWords {first second : List String} (hfirst : (ofWords first).fault = none)
    (hsecond : (ofWords second).fault = none) :
    (ofWords first).Joins (ofWords second) (ofWords (first ++ second)) := by
  obtain ⟨hfault, hontop⟩ := (Machine.onTop_initial (Machine.initial.feed first)).feed hsecond
  have hrun₁ : ofWords first = _ := Machine.run_of_fault_eq_none hfirst
  have hrun₂ : ofWords second = _ := Machine.run_of_fault_eq_none hsecond
  have hrun : ofWords (first ++ second) =
      ((Machine.initial.feed first).feed second).finish none := by
    rw [ofWords, Machine.run_append_of_fault_eq_none hfirst, Machine.run_of_fault_eq_none hfault]
  have hresults : (ofWords (first ++ second)).results = (ofWords first).results ++
      (ofWords second).results.map ((ofWords first).tape.nodes.length + ·) := by
    rw [hrun, hrun₁, hrun₂]
    simp only [Machine.finish, hontop.stack, List.reverse_append, List.map_reverse,
      Tape.length_nodes]
  have htape : (ofWords (first ++ second)).tape =
      (ofWords first).tape.append (ofWords second).tape := by
    rw [hrun, hrun₁, hrun₂]
    exact hontop.tape
  refine ⟨by rw [hrun]; rfl, ?_, ?_, hresults, fun name => ?_, ?_⟩
  · rw [htape, Tape.nodes_append, Tape.length_nodes]
  · rw [htape, Tape.values_append]
  · rw [hrun, hrun₁, hrun₂]
    exact (hontop.get? name).trans (Environment.get?_or _ _ name)
  · -- every result of either program keeps its equation, and no result has another one
    have hboth := equates_equations (first ++ second)
    have hfront := (equates_equations first).imp fun _ _ h =>
      h.mono ((ofWords first).tape.continues_append (ofWords second).tape)
    have hback := (equates_equations second).imp fun _ _ h => h.shift (ofWords first).tape
    rw [hresults, htape, Tape.length_nodes] at hboth
    rw [← List.forall₂_map_left_iff] at hback
    exact (Tape.rightUnique_equates _).forall₂ hboth (List.rel_append hfront hback)

/-- **Programs that run without a fault run one after the other as they run alone.** So texts with
blanks between them have the equations of the first and then those of the second. -/
theorem concatenation :
    (∀ first second : List String, (ofWords first).fault = none → (ofWords second).fault = none →
        (ofWords first).Joins (ofWords second) (ofWords (first ++ second))) ∧
      ∀ left blanks right : String, blanks ≠ "" → (∀ c ∈ blanks.toList, isBlank c = true) →
        (ofText left).fault = none → (ofText right).fault = none →
          (ofText (left ++ blanks ++ right)).fault = none ∧
            (ofText (left ++ blanks ++ right)).equations =
              (ofText left).equations ++ (ofText right).equations := by
  refine ⟨fun first second => joins_ofWords, ?_⟩
  intro left blanks right hne hblanks hleft hright
  have hjoins := joins_ofWords hleft hright
  rw [ofText, words_append_blanks hne hblanks]
  exact ⟨hjoins.fault, hjoins.equations⟩

/-- The second program assigns the variable of the first one anew and reads its own. -/
theorem concatenation_reassigned :
    (ofWords ["2", "=x"]).fault = none ∧ (ofWords ["3", "=x", "x"]).fault = none ∧
      (ofWords ["2", "=x"]).Joins (ofWords ["3", "=x", "x"]) (ofWords ["2", "=x", "3", "=x", "x"]) ∧
      (ofText "2 =x\t3 =x x").equations =
        (ofText "2 =x").equations ++ (ofText "3 =x x").equations := by
  have hfirst : (ofWords ["2", "=x"]).fault = none := by decide
  have hsecond : (ofWords ["3", "=x", "x"]).fault = none := by decide
  have hblank : ∀ c ∈ "\t".toList, isBlank c = true := List.forall_mem_singleton.2 (by decide)
  refine ⟨hfirst, hsecond, concatenation.1 _ _ hfirst hsecond, ?_⟩
  exact (concatenation.2 "2 =x" "\t" "3 =x x" (by decide) hblank (by decide) (by decide)).2

end Run

end RpnTape
