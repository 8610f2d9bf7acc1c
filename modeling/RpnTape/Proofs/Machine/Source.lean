import Mathlib.Data.List.OfFn
import RpnTape.Environment
import RpnTape.Expr
import RpnTape.Instruction

/-!
# Proofs/Machine/Source — expressions as they are written in programs

A source is an expression over the words of a program. It is evaluated from left to right: an
assignment is seen by all reads that come after it, and the first read of a variable that is not
bound by then stops the evaluation. Which read this is can be told without evaluating anything, from
the order in which variables are read and assigned (`accesses`).

What a word of the calculator means on numbers (`Builtin.value`) is written down word by word,
without the table of builtins and without their operations; `Builtin.apply_of_mem_table` says that
every builtin of the table computes exactly this.
-/

namespace RpnTape

/-! ## The meaning of a word on numbers -/

namespace Builtin

/-- **The value of a builtin on operands**, told by the word that calls it alone. The second operand
of a sign is the one on its right. -/
def value (builtin : Builtin) (args : List Binary64) : Binary64 :=
  match builtin.name, args with
  | "+", [a, b] => a + b
  | "-", [a, b] => a - b
  | "*", [a, b] => a * b
  | "/", [a, b] => a / b
  | "%", [a, b] => a % b
  | "pow", [a, b] => a.power b
  | "abs", [a] => a.abs
  | "sin", [a] => a.lift Float.sin
  | "cos", [a] => a.lift Float.cos
  | "tan", [a] => a.lift Float.tan
  | "asin", [a] => a.lift Float.asin
  | "acos", [a] => a.lift Float.acos
  | "atan", [a] => a.lift Float.atan
  | "exp", [a] => a.lift Float.exp
  | "log", [a] => a.lift Float.log
  | "sqrt", [a] => a.lift Float.sqrt
  | "PI", [] => .ofBits 0x400921FB54442D18
  | "E", [] => .ofBits 0x4005BF0A8B145769
  | _, _ => .nan

/-- On as many operands as it takes, the builtin computes what its word says. -/
def IsFaithful (builtin : Builtin) : Prop :=
  ∀ args : List Binary64, args.length = builtin.arity →
    builtin.apply args = .ok (builtin.value args)

theorem isFaithful_constant {name : String} {bits : UInt64} {glyph : Option String}
    (h : (constant name bits glyph).value [] = .ofBits bits) :
    (constant name bits glyph).IsFaithful
  | [], _ => congrArg Except.ok h.symm

theorem isFaithful_function {name : String} {f : UnaryOperation} {shape : Shape}
    (h : ∀ a, (function name f shape).value [a] = f.eval a) : (function name f shape).IsFaithful
  | [a], _ => congrArg Except.ok (h a).symm

theorem isFaithful_operator {name : String} {f : BinaryOperation} {shape : Shape}
    {glyph : Option String} (h : ∀ a b, (operator name f shape glyph).value [a, b] = f.eval a b) :
    (operator name f shape glyph).IsFaithful
  | [a, b], _ => congrArg Except.ok (h a b).symm

/-- **Every builtin of the table computes what its word says.** -/
theorem isFaithful_of_mem_table : ∀ builtin ∈ table, builtin.IsFaithful := by
  simp only [table, List.forall_mem_cons]
  -- In the order of the table: five signs, ten functions, `pow` and the two constants.
  exact ⟨isFaithful_operator fun _ _ => rfl, isFaithful_operator fun _ _ => rfl,
    isFaithful_operator fun _ _ => rfl, isFaithful_operator fun _ _ => rfl,
    isFaithful_operator fun _ _ => rfl,
    isFaithful_function fun _ => rfl, isFaithful_function fun _ => rfl,
    isFaithful_function fun _ => rfl, isFaithful_function fun _ => rfl,
    isFaithful_function fun _ => rfl, isFaithful_function fun _ => rfl,
    isFaithful_function fun _ => rfl, isFaithful_function fun _ => rfl,
    isFaithful_function fun _ => rfl, isFaithful_function fun _ => rfl,
    isFaithful_operator fun _ _ => rfl,
    isFaithful_constant rfl, isFaithful_constant rfl,
    List.forall_mem_nil _⟩

theorem apply_of_mem_table {builtin : Builtin} (hmem : builtin ∈ table) {args : List Binary64}
    (h : args.length = builtin.arity) : builtin.apply args = .ok (builtin.value args) :=
  isFaithful_of_mem_table builtin hmem args h

end Builtin

/-! ## Sources -/

/-- What reads and assigns variables: a value and new variables, or the name
of one that is not bound. -/
abbrev Effect (α : Type) : Type := Environment → Except String (α × Environment)

/-- One effect after the other. -/
def Effect.inOrder {α : Type} : List (Effect α) → Effect (List α)
  | [], env => .ok ([], env)
  | first :: rest, env => do
    let (value, env) ← first env
    let (values, env) ← inOrder rest env
    return (value :: values, env)

/-- A variable is read or assigned. -/
inductive Access where
  | read (name : String)
  | assign (name : String)
  deriving DecidableEq

/-- An expression over the words of a program. -/
inductive Source where
  /-- A word that spells a number. -/
  | number (word : String) (value : Binary64) (hword : Instruction.ofWord word = .push value)
  /-- A builtin with as many arguments as it takes. -/
  | call (builtin : Builtin) (hmem : builtin ∈ Builtin.table) (args : Fin builtin.arity → Source)
  /-- An assignment of a value to a name. -/
  | assign (name : String) (hname : name ≠ "") (value : Source)
  /-- A variable whose name spells nothing else. -/
  | read (name : String) (hname : Instruction.ofWord name = .read name)

namespace Source

/-- The words of a source, operands first. -/
def words : Source → List String
  | number word _ _ => [word]
  | call builtin _ args => (List.ofFn fun i => (args i).words).flatten ++ [builtin.name]
  | assign name _ value => value.words ++ ["=" ++ name]
  | read name _ => [name]

/-- The expression that is written. -/
def expr : Source → Expr
  | number _ value _ => .literal value
  | call builtin _ args => .apply builtin (List.ofFn fun i => (args i).expr)
  | assign name _ value => .bind name value.expr
  | read name _ => .read name

/-- The number of nodes. -/
def size : Source → Nat
  | number _ _ _ => 1
  | call _ _ args => (List.ofFn fun i => (args i).size).foldr (· + ·) 0 + 1
  | assign _ _ value => value.size + 1
  | read _ _ => 1

/-- The value of a source, from left to right. -/
def eval : Source → Effect Binary64
  | number _ value _ => fun env => .ok (value, env)
  | call builtin _ args => fun env => do
    let (values, env) ← Effect.inOrder (List.ofFn fun i => (args i).eval) env
    return (builtin.value values, env)
  | assign name _ value => fun env => do
    let (value, env) ← value.eval env
    return (value, env.assign name value)
  | read name _ => fun env =>
    match env.get? name with
    | some value => .ok (value, env)
    | none => .error name

/-- What is read and assigned, from left to right. -/
def accesses : Source → List Access
  | number _ _ _ => []
  | call _ _ args => (List.ofFn fun i => (args i).accesses).flatten
  | assign name _ value => value.accesses ++ [.assign name]
  | read name _ => [.read name]

theorem eval_assign (name : String) (hname : name ≠ "") (source : Source) (env : Environment) :
    (assign name hname source).eval env =
      (source.eval env).map fun (value, env) => (value, env.assign name value) := rfl

theorem eval_read_of_none {name : String} (hname : Instruction.ofWord name = .read name)
    {env : Environment} (h : env.get? name = none) : (read name hname).eval env = .error name := by
  simp only [eval, h]

theorem eval_read_of_some {name : String} (hname : Instruction.ofWord name = .read name)
    {env : Environment} {value : Binary64} (h : env.get? name = some value) :
    (read name hname).eval env = .ok (value, env) := by
  simp only [eval, h]

section call

variable (builtin : Builtin) (hmem : builtin ∈ Builtin.table) (args : Fin builtin.arity → Source)

theorem words_call :
    (call builtin hmem args).words = (List.ofFn args).flatMap words ++ [builtin.name] := by
  rw [words, List.flatMap_def, List.map_ofFn]
  rfl

theorem expr_call :
    (call builtin hmem args).expr = .apply builtin ((List.ofFn args).map expr) := by
  rw [expr, List.map_ofFn]
  rfl

theorem size_call :
    (call builtin hmem args).size = ((List.ofFn args).map size).foldr (· + ·) 0 + 1 := by
  rw [size, List.map_ofFn]
  rfl

theorem eval_call (env : Environment) : (call builtin hmem args).eval env =
    (Effect.inOrder ((List.ofFn args).map eval) env).map fun (values, env) =>
      (builtin.value values, env) := by
  rw [eval, List.map_ofFn]
  rfl

theorem accesses_call : (call builtin hmem args).accesses = (List.ofFn args).flatMap accesses := by
  rw [accesses, List.flatMap_def, List.map_ofFn]
  rfl

end call

end Source

/-! ## Reads of variables that are not bound -/

namespace Access

/-- Does every read find its variable bound, from the beginning or by an assignment before it? -/
def AllBound (isBound : String → Bool) (accesses : List Access) : Prop :=
  ∀ before name after, accesses = before ++ .read name :: after →
    isBound name = true ∨ .assign name ∈ before

/-- Is this the variable of the first read that finds its variable not bound? -/
def FirstUnbound (isBound : String → Bool) (accesses : List Access) (name : String) : Prop :=
  ∃ before after, accesses = before ++ .read name :: after ∧ AllBound isBound before ∧
    isBound name = false ∧ .assign name ∉ before

/-- The first variable that is read and not bound by then. -/
def firstUnbound? (isBound : String → Bool) : List Access → Option String
  | [] => none
  | .read name :: rest => if isBound name then firstUnbound? isBound rest else some name
  | .assign name :: rest => firstUnbound? (fun other => name = other || isBound other) rest

variable {isBound : String → Bool} {name : String} {accesses rest : List Access}

theorem FirstUnbound.not_allBound (h : FirstUnbound isBound accesses name) :
    ¬ AllBound isBound accesses := by
  obtain ⟨before, after, heq, -, hname, hassign⟩ := h
  intro hall
  rcases hall before name after heq with hbound | hmem
  · exact absurd (hname.symm.trans hbound) Bool.false_ne_true
  · exact hassign hmem

theorem allBound_nil (isBound : String → Bool) : AllBound isBound [] := by
  intro before name after heq
  exact absurd heq.symm (List.append_ne_nil_of_right_ne_nil _ (List.cons_ne_nil _ _))

theorem AllBound.cons_read (hname : isBound name = true) (h : AllBound isBound rest) :
    AllBound isBound (.read name :: rest) := by
  intro before other after heq
  rcases List.cons_eq_append_iff.1 heq with ⟨rfl, hcons⟩ | ⟨before', rfl, hrest⟩
  · obtain rfl : other = name := Access.read.inj (List.cons.inj hcons).1
    exact .inl hname
  · exact (h before' other after hrest).imp_right (List.mem_cons_of_mem _)

theorem AllBound.cons_assign (h : AllBound (fun other => name = other || isBound other) rest) :
    AllBound isBound (.assign name :: rest) := by
  intro before other after heq
  rcases List.cons_eq_append_iff.1 heq with ⟨rfl, hcons⟩ | ⟨before', rfl, hrest⟩
  · exact Access.noConfusion (List.cons.inj hcons).1
  rcases h before' other after hrest with hbound | hmem
  · rcases Bool.or_eq_true_iff.1 hbound with heq | hbound
    · obtain rfl : name = other := of_decide_eq_true heq
      exact .inr List.mem_cons_self
    · exact .inl hbound
  · exact .inr (List.mem_cons_of_mem _ hmem)

theorem allBound_of_firstUnbound? : ∀ {accesses : List Access} {isBound : String → Bool},
    firstUnbound? isBound accesses = none → AllBound isBound accesses
  | [], isBound, _ => allBound_nil isBound
  | .read name :: rest, isBound, h => by
    rw [firstUnbound?] at h
    split at h
    · rename_i hname
      exact (allBound_of_firstUnbound? h).cons_read hname
    · cases h
  | .assign name :: rest, isBound, h => by
    rw [firstUnbound?] at h
    exact (allBound_of_firstUnbound? h).cons_assign

theorem firstUnbound_of_firstUnbound? : ∀ {accesses : List Access} {isBound : String → Bool}
    {name : String}, firstUnbound? isBound accesses = some name → FirstUnbound isBound accesses name
  | .read first :: rest, isBound, name, h => by
    rw [firstUnbound?] at h
    split at h
    · rename_i hfirst
      obtain ⟨before, after, rfl, hall, hname, hassign⟩ := firstUnbound_of_firstUnbound? h
      exact ⟨.read first :: before, after, rfl, hall.cons_read hfirst, hname,
        by simpa using hassign⟩
    · rename_i hfirst
      obtain rfl := Option.some.inj h
      exact ⟨[], rest, rfl, allBound_nil isBound, Bool.eq_false_iff.2 hfirst, List.not_mem_nil⟩
  | .assign first :: rest, isBound, name, h => by
    rw [firstUnbound?] at h
    obtain ⟨before, after, rfl, hall, hname, hassign⟩ := firstUnbound_of_firstUnbound? h
    obtain ⟨hne, hbound⟩ : ¬ first = name ∧ isBound name = false := by simpa using hname
    refine ⟨.assign first :: before, after, rfl, hall.cons_assign, hbound, ?_⟩
    intro hmem
    rcases List.mem_cons.1 hmem with heq | hmem
    · exact hne (Access.assign.inj heq).symm
    · exact hassign hmem

end Access

/-! ## Evaluation stops at the first of them -/

theorem Environment.contains_assign (env : Environment) (name : String) (value : Binary64) :
    (env.assign name value).contains = fun other => name = other || env.contains other := by
  funext other
  rw [contains, get?_assign]
  split
  · rename_i h
    simp [h]
  · rename_i h
    simp [h, contains]

/-- The effect makes exactly these accesses: if all variables are bound, those after it see what it
assigns, and otherwise it stops at the first that is not. -/
def Effect.Accesses {α : Type} (effect : Effect α) (accesses : List Access) : Prop :=
  ∀ env rest, Access.firstUnbound? env.contains (accesses ++ rest) =
    match effect env with
    | .ok (_, env) => Access.firstUnbound? env.contains rest
    | .error name => some name

namespace Source

theorem accesses_inOrder : ∀ {sources : List Source},
    (∀ source ∈ sources, source.eval.Accesses source.accesses) →
      (Effect.inOrder (sources.map eval)).Accesses (sources.flatMap accesses)
  | [], _ => fun _ _ => rfl
  | first :: sources, h => by
    obtain ⟨hfirst, hrest⟩ := List.forall_mem_cons.1 h
    intro env rest
    rw [List.flatMap_cons, List.append_assoc, hfirst, List.map_cons, Effect.inOrder]
    cases first.eval env with
    | error name => rfl
    | ok result =>
      obtain ⟨value, env'⟩ := result
      have hinner := accesses_inOrder hrest env' rest
      simp only [bind, Except.bind]
      cases hresult : Effect.inOrder (sources.map eval) env' with
      | error name => rwa [hresult] at hinner
      | ok result => rwa [hresult] at hinner

/-- **Evaluating reads and assigns as `accesses` says.** -/
theorem accesses_eval (source : Source) : source.eval.Accesses source.accesses := by
  induction source with
  | number word value hword => exact fun _ _ => rfl
  | call builtin hmem args ih =>
    have hargs := accesses_inOrder (List.forall_mem_ofFn_iff.2 ih)
    intro env rest
    rw [accesses_call, eval_call, hargs]
    cases Effect.inOrder ((List.ofFn args).map eval) env with
    | error name => rfl
    | ok result => rfl
  | assign name hname source ih =>
    intro env rest
    rw [accesses, List.append_assoc, ih, eval_assign]
    cases source.eval env with
    | error name => rfl
    | ok result =>
      simp only [Except.map, Environment.contains_assign]
      rfl
  | read name hname =>
    intro env rest
    rw [accesses, List.singleton_append, Access.firstUnbound?, Environment.contains]
    cases h : env.get? name with
    | none => simp [eval_read_of_none hname h]
    | some value => simp [eval_read_of_some hname h]

end Source

end RpnTape
