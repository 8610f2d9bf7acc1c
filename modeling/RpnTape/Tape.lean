import RpnTape.Builtin.Basic

/-!
# Tape — the log of everything a run has computed

Every accepted word of a program adds one entry: a node, which says where the entry came from, and
its value. An entry is named by its position, which never changes.
-/

namespace RpnTape

/-- The position of an entry on the tape. -/
abbrev NodeId := Nat

/-- The position as it is written in messages. -/
def NodeId.label (id : NodeId) : String := "#" ++ id.repr

/-- Where an entry came from. -/
inductive Node where
  /-- A number in the program. -/
  | literal
  /-- A builtin applied to earlier entries, in argument order. -/
  | apply (operator : Builtin) (args : List NodeId)
  /-- An entry given a name. -/
  | bind (name : String) (source : NodeId)
  /-- The value a variable had. -/
  | read (name : String)
  deriving DecidableEq

/-- The entries a node was made from, in argument order. -/
def Node.operands : Node → List NodeId
  | literal | read _ => []
  | apply _ args => args
  | bind _ source => [source]

/-- A node and its value. -/
structure Entry where
  node : Node
  value : Binary64
  deriving DecidableEq

/-- A log of entries. -/
structure Tape where
  entries : Array Entry
  deriving DecidableEq

namespace Tape

/-- The tape without entries. -/
def empty : Tape := ⟨#[]⟩

instance : Inhabited Tape := ⟨empty⟩

/-- The number of entries, which is also the position of the next one. -/
def size (tape : Tape) : Nat := tape.entries.size

/-- Is nothing on the tape? -/
def isEmpty (tape : Tape) : Bool := tape.entries.isEmpty

/-- The tape with one more entry, at position `tape.size`. -/
def push (tape : Tape) (node : Node) (value : Binary64) : Tape := ⟨tape.entries.push ⟨node, value⟩⟩

/-- The entry at a position. -/
def get? (tape : Tape) (id : NodeId) : Option Entry := tape.entries[id]?

/-- The node at a position. -/
def node? (tape : Tape) (id : NodeId) : Option Node := (tape.get? id).map Entry.node

/-- The value at a position. -/
def value? (tape : Tape) (id : NodeId) : Option Binary64 := (tape.get? id).map Entry.value

/-- The nodes in the order of the tape. -/
def nodes (tape : Tape) : List Node := tape.entries.toList.map Entry.node

/-- The values in the order of the tape. -/
def values (tape : Tape) : List Binary64 := tape.entries.toList.map Entry.value

/-- The positions with their nodes and values, in the order of the tape. -/
def listing (tape : Tape) : List (NodeId × Node × Binary64) :=
  tape.entries.toList.zipIdx.map fun (entry, id) => (id, entry.node, entry.value)

@[simp] theorem size_push (tape : Tape) (node : Node) (value : Binary64) :
    (tape.push node value).size = tape.size + 1 := by simp [size, push]

/-- **Pushing changes no entry that is already there.** -/
theorem get?_push (tape : Tape) (node : Node) (value : Binary64) (id : NodeId) :
    (tape.push node value).get? id =
      if id = tape.size then some ⟨node, value⟩ else tape.get? id :=
  Array.getElem?_push

theorem get?_push_self (tape : Tape) (node : Node) (value : Binary64) :
    (tape.push node value).get? tape.size = some ⟨node, value⟩ := by rw [get?_push, if_pos rfl]

theorem nodes_push (tape : Tape) (node : Node) (value : Binary64) :
    (tape.push node value).nodes = tape.nodes ++ [node] := by
  rw [nodes, push, Array.toList_push, List.map_append, nodes]
  rfl

@[simp] theorem length_nodes (tape : Tape) : tape.nodes.length = tape.size := by
  rw [nodes, List.length_map, Array.length_toList, size]

theorem getElem?_nodes (tape : Tape) (id : NodeId) : tape.nodes[id]? = tape.node? id := by
  rw [nodes, List.getElem?_map, Array.getElem?_toList]
  rfl

theorem getElem?_values (tape : Tape) (id : NodeId) : tape.values[id]? = tape.value? id := by
  rw [values, List.getElem?_map, Array.getElem?_toList]
  rfl

end Tape

end RpnTape
