import RpnTape.Proofs.Tape.Unfolding

/-!
# Proofs/Tape/Append — one tape after another

Entries that are logged after others stand further back, and their operands with them. `append` puts
a tape after another one in this way. The entries of the first tape keep their positions; those of
the second are found by adding the length of the first, and there they stand for the same
expressions (`Unfolds.shift`), since an expression does not say where on the tape it is.
-/

namespace RpnTape

/-- The node with its operands moved back by `n` positions. -/
def Node.shift (n : Nat) : Node → Node
  | .literal => .literal
  | .apply operator args => .apply operator (args.map (n + ·))
  | .bind name source => .bind name (n + source)
  | .read name => .read name

theorem Node.operands_shift (n : Nat) (node : Node) :
    (node.shift n).operands = node.operands.map (n + ·) := by
  cases node with
  | literal | apply | bind | read => rfl

/-- The entry with its operands moved back by `n` positions. -/
def Entry.shift (n : Nat) (entry : Entry) : Entry := ⟨entry.node.shift n, entry.value⟩

theorem Entry.expr?_shift (n : Nat) (entry : Entry) (operands : List Expr) :
    (entry.shift n).expr? operands = entry.expr? operands := by
  obtain ⟨node, value⟩ := entry
  cases node with
  | literal | read => cases operands <;> rfl
  | apply => rfl
  | bind =>
    match operands with
    | [] | [_] | _ :: _ :: _ => rfl

namespace Tape

/-- The second tape after the first. -/
def append (front back : Tape) : Tape :=
  ⟨front.entries ++ back.entries.map (Entry.shift front.size)⟩

variable (front back : Tape)

@[simp] theorem append_empty : front.append empty = front := by
  rw [append, empty, Array.map_empty, Array.append_empty]

theorem size_append : (front.append back).size = front.size + back.size := by
  rw [append, size, Array.size_append, Array.size_map, size, size]

theorem append_push (node : Node) (value : Binary64) :
    front.append (back.push node value) =
      (front.append back).push (node.shift front.size) value := by
  rw [append, push, Array.map_push, Array.append_push, push, append]
  rfl

theorem nodes_append :
    (front.append back).nodes = front.nodes ++ back.nodes.map (Node.shift front.size) := by
  rw [nodes, append, Array.toList_append, List.map_append, Array.toList_map, List.map_map, nodes,
    nodes, List.map_map]
  rfl

theorem values_append : (front.append back).values = front.values ++ back.values := by
  rw [values, append, Array.toList_append, List.map_append, Array.toList_map, List.map_map, values,
    values]
  rfl

theorem continues_append : front.Continues (front.append back) := by
  rw [Continues, append, Array.toList_append]
  exact List.prefix_append _ _

theorem get?_append_add (id : NodeId) :
    (front.append back).get? (front.size + id) = (back.get? id).map (Entry.shift front.size) := by
  have hle : front.entries.size ≤ front.size + id := Nat.le_add_right _ _
  simp only [get?, append]
  rw [Array.getElem?_append_right hle, Array.getElem?_map, size, Nat.add_sub_cancel_left]

theorem value?_append_add (id : NodeId) :
    (front.append back).value? (front.size + id) = back.value? id := by
  rw [value?, get?_append_add, Option.map_map, value?]
  rfl

/-- **Behind another tape, entries stand for the same expressions.** -/
theorem Unfolds.shift {back : Tape} {ids : List NodeId} {es : List Expr} (h : back.Unfolds ids es) :
    (front.append back).Unfolds (ids.map (front.size + ·)) es := by
  induction h with
  | nil => exact .nil
  | @cons id entry operands e ids es hentry _ hexpr _ ihoperands ihrest =>
    have hshifted : (front.append back).get? (front.size + id) = some (entry.shift front.size) := by
      rw [get?_append_add, hentry, Option.map_some]
    rw [← Node.operands_shift] at ihoperands
    exact .cons hshifted ihoperands ((entry.expr?_shift front.size operands).trans hexpr) ihrest

end Tape

end RpnTape
