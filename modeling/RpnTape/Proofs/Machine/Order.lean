import RpnTape.Proofs.Machine.Steps
import RpnTape.Proofs.Tape.PostOrder

/-!
# Proofs/Machine/Order — the order of a machine's tape

A machine logs an entry when its operands have just been taken off the stack. So the trees of the
stack, from the bottom to the top, list the tape from its first entry to its last
(`OperandsFirst`). Rejected words do not disturb this, and all that is said of the positions on a
machine's tape follows from it.
-/

namespace RpnTape

/-- Is the node an application of a builtin of the table to as many entries as it takes, if it is an
application at all? -/
def Node.IsTabled : Node → Prop
  | .apply operator args => operator ∈ Builtin.table ∧ args.length = operator.arity
  | .literal | .bind _ _ | .read _ => True

namespace Machine

variable {m : Machine}

/-! ## What every accepted word keeps -/

/-- The trees of the stack list the tape in order. -/
def OperandsFirst (m : Machine) : Prop :=
  m.tape.PostOrder m.stack.reverse (List.range m.tape.size)

theorem operandsFirst_initial : initial.OperandsFirst := .nil

/-- **An accepted instruction keeps the order**: its node comes last, right after its operands. -/
theorem OperandsFirst.extend (hm : m.OperandsFirst) {instruction : Instruction} {node : Node}
    {value : Binary64} {below : List NodeId} {env : Environment}
    (h : m.Performs instruction node value below env) :
    (m.extend node value below env).OperandsFirst := by
  have hstack : m.stack.reverse = below.reverse ++ node.operands := by
    rw [h.stack_eq, List.reverse_append, List.reverse_reverse]
  unfold OperandsFirst at hm
  rw [hstack] at hm
  simp only [OperandsFirst, Machine.extend, List.reverse_cons, Tape.size_push, List.range_succ]
  exact hm.push_operands value

/-- Every application on the tape is one of a builtin to as many entries as it takes. -/
def IsTabled (m : Machine) : Prop := ∀ id node, m.tape.node? id = some node → node.IsTabled

theorem isTabled_initial : initial.IsTabled := by
  intro id node h
  cases h

theorem Performs.isTabled {word : String} {node : Node} {value : Binary64} {below : List NodeId}
    {env : Environment} (h : m.Performs (.ofWord word) node value below env) : node.IsTabled := by
  generalize hword : Instruction.ofWord word = instruction at h
  cases h with
  | push | assign | read => trivial
  | call _ harity => exact ⟨Instruction.mem_table_of_ofWord hword, harity⟩

theorem IsTabled.extend (hm : m.IsTabled) {word : String} {node : Node} {value : Binary64}
    {below : List NodeId} {env : Environment}
    (h : m.Performs (.ofWord word) node value below env) :
    (m.extend node value below env).IsTabled := by
  intro id node' hid
  rw [Machine.extend, Tape.node?, Tape.get?_push] at hid
  split at hid
  · obtain rfl := Option.some.inj hid
    exact h.isTabled
  · exact hm id node' hid

/-! ## What every run keeps -/

theorem operandsFirst_feed (words : List String) : (initial.feed words).OperandsFirst :=
  feed_induction (fun hm h => hm.extend h) words operandsFirst_initial

theorem isTabled_feed (words : List String) : (initial.feed words).IsTabled :=
  feed_induction (fun hm h => hm.extend h) words isTabled_initial

namespace OperandsFirst

theorem lt_of_holds (hm : m.OperandsFirst) {a b : NodeId} (h : m.tape.Holds a b) : b < a := by
  obtain ⟨entry, hentry, hb⟩ := id h
  exact Tape.PostOrder.lt_of_holds hm List.pairwise_lt_range
    (List.mem_range.2 (Tape.lt_size_of_get? hentry)) h

/-- The positions of the tape are the stack and the operands, each of them once. -/
theorem perm (hm : m.OperandsFirst) :
    (List.range m.tape.size).Perm (m.stack.reverse ++ m.tape.nodes.flatMap Node.operands) := by
  have hperm := Tape.PostOrder.perm hm
  rwa [Tape.flatMap_operandsAt_range] at hperm

theorem nodup (hm : m.OperandsFirst) :
    (m.stack.reverse ++ m.tape.nodes.flatMap Node.operands).Nodup :=
  hm.perm.nodup List.nodup_range

/-- **The stack is what no entry has consumed.** -/
theorem mem_stack_iff (hm : m.OperandsFirst) (id : NodeId) :
    id ∈ m.stack ↔ id < m.tape.size ∧ id ∉ m.tape.nodes.flatMap Node.operands := by
  have hmem : id < m.tape.size ↔ id ∈ m.stack ∨ id ∈ m.tape.nodes.flatMap Node.operands := by
    rw [← List.mem_range, hm.perm.mem_iff, List.mem_append, List.mem_reverse]
  have hdisjoint : id ∈ m.stack → id ∉ m.tape.nodes.flatMap Node.operands := fun hid hid' =>
    (List.nodup_append.1 hm.nodup).2.2 id (List.mem_reverse.2 hid) id hid' rfl
  tauto

end OperandsFirst

/-! ## The structure of a machine's tape -/

/-- How the entries of a tape, the operands they hold and the stack lie to one another. -/
structure Orderly (m : Machine) : Prop where
  /-- A builtin is applied to as many entries as it takes. -/
  arity : ∀ operator args, .apply operator args ∈ m.tape.nodes → args.length = operator.arity
  /-- Operands come before the entry that holds them. -/
  operands_lt : ∀ id node, m.tape.node? id = some node → ∀ b ∈ node.operands, b < id
  /-- No position is an operand twice, of two entries or of one. -/
  operands_nodup : (m.tape.nodes.flatMap Node.operands).Nodup
  /-- The trees of the stack, from bottom to top and operands first, list the tape in order. -/
  postOrder_iff : ∀ listing, m.tape.PostOrder m.stack.reverse listing ↔
    listing = List.range m.tape.size
  /-- The stack ascends. -/
  ascending : m.stack.reverse.Pairwise (· < ·)
  /-- The stack is what no entry has consumed. -/
  mem_stack_iff : ∀ id, id ∈ m.stack ↔
    id < m.tape.size ∧ id ∉ m.tape.nodes.flatMap Node.operands
  /-- The tree of a stack entry is a block of the tape, and the entry ends it. -/
  block : ∀ id ∈ m.stack, ∃ start ≤ id,
    m.tape.PostOrder [id] (List.range' start (id + 1 - start))

theorem OperandsFirst.orderly (hm : m.OperandsFirst) (htabled : m.IsTabled) : m.Orderly where
  arity operator args hmem := by
    obtain ⟨id, hid⟩ := List.mem_iff_getElem?.1 hmem
    have hnode : m.tape.node? id = some (.apply operator args) := by
      simpa [Tape.nodes, Tape.node?, Tape.get?] using hid
    exact (htabled id _ hnode).2
  operands_lt id node hnode b hb := by
    obtain ⟨entry, hentry, rfl⟩ := Option.map_eq_some_iff.1 hnode
    exact hm.lt_of_holds ⟨entry, hentry, hb⟩
  operands_nodup := (List.nodup_append.1 hm.nodup).2.1
  postOrder_iff listing := ⟨fun h => h.unique hm, fun h => h ▸ hm⟩
  ascending := List.pairwise_lt_range.sublist (Tape.PostOrder.sublist hm)
  mem_stack_iff := hm.mem_stack_iff
  block id hid := Tape.PostOrder.exists_block_range hm ((hm.mem_stack_iff id).1 hid).1

/-- **After any words, the rejected ones included, the tape has one entry for each accepted
word and is in order.** -/
theorem orderly_feed (words : List String) :
    (initial.feed words).tape.nodes.length = initial.acceptedCount words ∧
      (initial.feed words).tape.values.length = initial.acceptedCount words ∧
      (initial.feed words).Orderly := by
  have hsize : (initial.feed words).tape.entries.toList.length = initial.acceptedCount words := by
    have hfed := size_tape_feed initial words
    rwa [show initial.tape.size = 0 from rfl, Nat.zero_add, Tape.size,
      ← Array.length_toList] at hfed
  refine ⟨?_, ?_, (operandsFirst_feed words).orderly (isTabled_feed words)⟩
  · rw [Tape.nodes, List.length_map, hsize]
  · rw [Tape.values, List.length_map, hsize]

end Machine

end RpnTape
