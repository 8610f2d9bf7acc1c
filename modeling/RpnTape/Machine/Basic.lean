import RpnTape.Environment
import RpnTape.Instruction
import RpnTape.Tape

/-!
# Machine/Basic — the stack machine

The machine holds a tape, a stack of positions on it and the variables. A step performs one word. It
either adds one entry to the tape and puts its position on the stack, or it reports a fault and
leaves the machine as it was.
-/

namespace RpnTape

/-- The state of a run. -/
structure Machine where
  /-- Everything computed so far. -/
  tape : Tape
  /-- The entries no other entry has consumed, the latest first. -/
  stack : List NodeId
  /-- The variables. -/
  environment : Environment
  deriving DecidableEq

namespace Machine

/-- The machine before a run. -/
def initial : Machine := ⟨.empty, [], .empty⟩

instance : Inhabited Machine := ⟨initial⟩

/-- The value of an entry. Positions on the stack are on the tape, so the
other case does not arise. -/
def valueAt (m : Machine) (id : NodeId) : Binary64 := (m.tape.value? id).getD .nan

/-- Adds an entry and puts its position on the stack. -/
def push (m : Machine) (node : Node) (value : Binary64) : Machine × Except Fault NodeId :=
  let id := m.tape.size
  ({ m with tape := m.tape.push node value, stack := id :: m.stack }, .ok id)

/-- Reports a fault. -/
def reject (m : Machine) (fault : Fault) : Machine × Except Fault NodeId := (m, .error fault)

/-- Names the top of the stack: the entry that names it takes its place. -/
def assign (m : Machine) (name : String) : Machine × Except Fault NodeId :=
  match m.stack with
  | [] => m.reject (.emptyStackOnAssignment name)
  | source :: below =>
    let value := m.valueAt source
    push { m with stack := below, environment := m.environment.assign name value }
      (.bind name source) value

/-- References are reserved: one to a bound variable is refused as not implemented. -/
def refer (m : Machine) (name : String) : Machine × Except Fault NodeId :=
  if m.environment.contains name then m.reject (.unimplementedFeature ("$" ++ name))
  else m.reject (.unknownVariable name)

/-- Applies a builtin to the top of the stack; the deepest operand is the first argument. -/
def call (m : Machine) (builtin : Builtin) : Machine × Except Fault NodeId :=
  let args := (m.stack.take builtin.arity).reverse
  if args.length < builtin.arity then
    m.reject (.insufficientOperands builtin.name builtin.arity args.length)
  else
    match builtin.apply (args.map m.valueAt) with
    | .error fault => m.reject fault
    | .ok value => push { m with stack := m.stack.drop builtin.arity } (.apply builtin args) value

/-- Pushes the value a variable has now. -/
def read (m : Machine) (name : String) : Machine × Except Fault NodeId :=
  match m.environment.get? name with
  | none => m.reject (.unknownVariable name)
  | some value => m.push (.read name) value

/-- Performs one instruction. -/
def perform (m : Machine) : Instruction → Machine × Except Fault NodeId
  | .push value => m.push .literal value
  | .assign name => m.assign name
  | .refer name => m.refer name
  | .call builtin => m.call builtin
  | .read name => m.read name

/-- Performs one word: the machine after it, and the new entry or the fault. -/
def step (m : Machine) (word : String) : Machine × Except Fault NodeId :=
  m.perform (.ofWord word)

/-! ## What a rejected word leaves behind -/

theorem fst_assign_of_error {m : Machine} {name : String} {fault : Fault}
    (h : (m.assign name).2 = .error fault) : (m.assign name).1 = m := by
  unfold assign at h ⊢
  split at h
  · rfl
  · cases h

theorem fst_refer (m : Machine) (name : String) : (m.refer name).1 = m := by
  unfold refer
  split <;> rfl

theorem fst_call_of_error {m : Machine} {builtin : Builtin} {fault : Fault}
    (h : (m.call builtin).2 = .error fault) : (m.call builtin).1 = m := by
  simp only [call] at h ⊢
  split
  · rfl
  · rename_i hargs
    rw [if_neg hargs] at h
    split at h
    · rfl
    · cases h

theorem fst_read_of_error {m : Machine} {name : String} {fault : Fault}
    (h : (m.read name).2 = .error fault) : (m.read name).1 = m := by
  unfold read at h ⊢
  split at h
  · rfl
  · cases h

/-- **A rejected instruction leaves the machine as it was.** -/
theorem fst_perform_of_error {m : Machine} {instruction : Instruction} {fault : Fault}
    (h : (m.perform instruction).2 = .error fault) : (m.perform instruction).1 = m := by
  cases instruction with
  | push value => cases h
  | assign name => exact fst_assign_of_error h
  | refer name => exact fst_refer m name
  | call builtin => exact fst_call_of_error h
  | read name => exact fst_read_of_error h

end Machine

end RpnTape
