import RpnTape.Proofs.Machine.Rejection

/-!
# Proofs/Machine/Values — the values of a machine follow from its nodes

A node says where the value of its entry came from: from the word of a number, from a builtin and
the values of its arguments, from the entry that is given a name, or from the latest assignment to a
variable *before it*. `Explains` says so for one entry and looks only at entries that come earlier,
so nothing that is logged later can change it. The variables are no more than a view of the tape:
the value of a variable is the value of the latest assignment to it.
-/

namespace RpnTape

theorem Instruction.read?_of_ofWord_eq_push {word : String} {value : Binary64}
    (h : ofWord word = push value) : Binary64.read? word = some value := by
  cases ofWord_eq_iff.1 h with
  | push hnumber => exact hnumber

namespace Tape

variable {tape tape' : Tape} {id : NodeId} {name : String}

theorem map_value?_of_forall₂ {ids : List NodeId} {values : List Binary64}
    (h : List.Forall₂ (fun id value => tape.value? id = some value) ids values) :
    ids.map tape.value? = values.map some := by
  rwa [← List.forall₂_eq_eq_eq, List.forall₂_map_left_iff, List.forall₂_map_right_iff]

/-! ## The latest assignment -/

/-- Among the entries before `limit`, this is the last that gives the name to something. -/
structure LatestBind (tape : Tape) (name : String) (limit id : NodeId) : Prop where
  lt : id < limit
  binds : ∃ source, tape.node? id = some (.bind name source)
  last : ∀ c source, id < c → c < limit → tape.node? c ≠ some (.bind name source)

namespace LatestBind

variable {limit : NodeId}

theorem unique {id' : NodeId} (h : tape.LatestBind name limit id)
    (h' : tape.LatestBind name limit id') : id = id' := by
  obtain ⟨source, hsource⟩ := h.binds
  obtain ⟨source', hsource'⟩ := h'.binds
  rcases Nat.lt_trichotomy id id' with hlt | heq | hlt
  · exact absurd hsource' (h.last id' source' hlt h'.lt)
  · exact heq
  · exact absurd hsource (h'.last id source hlt h.lt)

/-- Only the nodes before the limit matter. -/
theorem congr (h : tape.LatestBind name limit id)
    (heq : ∀ c < limit, tape.node? c = tape'.node? c) : tape'.LatestBind name limit id := by
  refine ⟨h.lt, ?_, fun c source hc hlimit => ?_⟩
  · rw [← heq id h.lt]
    exact h.binds
  · rw [← heq c hlimit]
    exact h.last c source hc hlimit

/-- An entry that does not give the name to anything leaves the latest assignment the latest. -/
theorem succ (h : tape.LatestBind name limit id)
    (hlimit : ∀ source, tape.node? limit ≠ some (.bind name source)) :
    tape.LatestBind name (limit + 1) id := by
  refine ⟨h.lt.trans (Nat.lt_succ_self limit), h.binds, fun c source hc hlt => ?_⟩
  rcases Nat.lt_succ_iff_lt_or_eq.1 hlt with hlt | rfl
  · exact h.last c source hc hlt
  · exact hlimit source

end LatestBind

/-! ## One entry -/

/-- Does the value of the entry at `id` follow from its node, the words
and the entries before it? -/
def Explains (tape : Tape) (words : List String) (id : NodeId) : Node → Binary64 → Prop
  | .literal, value => ∃ word, words[id]? = some word ∧ Binary64.read? word = some value
  | .apply operator args, value => ∃ values,
      List.Forall₂ (fun arg value => tape.value? arg = some value) args values ∧
        operator.apply values = .ok value
  | .bind _ source, value => tape.value? source = some value
  | .read name, value => ∃ b, tape.LatestBind name id b ∧ tape.value? b = some value

theorem Continues.node?_eq (h : tape.Continues tape') (hid : id < tape.size) :
    tape.node? id = tape'.node? id := by
  obtain ⟨entry, hentry⟩ : ∃ entry, tape.get? id = some entry := ⟨_, Array.getElem?_eq_getElem hid⟩
  rw [node?, node?, hentry, h.get? hentry]

/-- **Later words and entries change nothing.** -/
theorem Explains.mono {words words' : List String} {node : Node} {value : Binary64}
    (h : tape.Explains words id node value) (hwords : words <+: words')
    (htape : tape.Continues tape') (hid : id ≤ tape.size) :
    tape'.Explains words' id node value := by
  cases node with
  | literal =>
    obtain ⟨word, hword, hvalue⟩ := h
    obtain ⟨hlt, rfl⟩ := List.getElem?_eq_some_iff.1 hword
    exact ⟨_, List.getElem?_eq_some_iff.2 ⟨_, (hwords.getElem hlt).symm⟩, hvalue⟩
  | apply operator args =>
    obtain ⟨values, hvalues, hvalue⟩ := h
    exact ⟨values, hvalues.imp fun _ _ harg => htape.value? harg, hvalue⟩
  | bind name source => exact htape.value? h
  | read name =>
    obtain ⟨b, hlatest, hvalue⟩ := h
    exact ⟨b, hlatest.congr fun c hc => htape.node?_eq (hc.trans_le hid), htape.value? hvalue⟩

/-- **The nodes and values before an entry leave no choice for its
value**, unless it is a number. -/
theorem Explains.value_unique {words words' : List String} {node : Node} {value value' : Binary64}
    (h : tape.Explains words id node value) (h' : tape'.Explains words' id node value')
    (hnode : node ≠ .literal) (hoperands : ∀ b ∈ node.operands, b < id)
    (hnodes : ∀ c < id, tape.node? c = tape'.node? c)
    (hvalues : ∀ c < id, tape.value? c = tape'.value? c) : value = value' := by
  cases node with
  | literal => exact absurd rfl hnode
  | apply operator args =>
    obtain ⟨values, hargs, hvalue⟩ := h
    obtain ⟨values', hargs', hvalue'⟩ := h'
    have heq : args.map tape.value? = args.map tape'.value? :=
      List.map_congr_left fun b hb => hvalues b (hoperands b hb)
    rw [map_value?_of_forall₂ hargs, map_value?_of_forall₂ hargs'] at heq
    obtain rfl := List.map_injective_iff.2 (Option.some_injective _) heq
    exact Except.ok.inj (hvalue.symm.trans hvalue')
  | bind name source =>
    have heq := hvalues source (hoperands source (List.mem_singleton_self source))
    exact Option.some.inj (h.symm.trans (heq.trans h'))
  | read name =>
    obtain ⟨b, hlatest, hvalue⟩ := h
    obtain ⟨b', hlatest', hvalue'⟩ := h'
    obtain rfl := (hlatest.congr hnodes).unique hlatest'
    exact Option.some.inj (hvalue.symm.trans ((hvalues b hlatest.lt).trans hvalue'))

end Tape

namespace Machine

variable {m m' : Machine} {instruction : Instruction} {node : Node} {value : Binary64}
  {below : List NodeId} {env : Environment} {name : String}

theorem Performs.get?_of_bind {source : NodeId}
    (h : m.Performs instruction (.bind name source) value below env) :
    env.get? name = some value := by
  cases h with
  | assign => rw [Environment.get?_assign, if_pos rfl]

theorem Performs.get?_of_ne (h : m.Performs instruction node value below env)
    (hne : ∀ source, node ≠ .bind name source) : env.get? name = m.environment.get? name := by
  cases h with
  | push | call | read => rfl
  | @assign other source =>
    have hother : ¬ other = name := fun heq => hne source (heq ▸ rfl)
    rw [Environment.get?_assign, if_neg hother]

/-! ## All entries, and the variables -/

/-- The values on the tape follow from the nodes and the accepted words, and the variables are those
that the tape assigns. -/
structure Explained (words : List String) (m : Machine) : Prop where
  /-- Every accepted word has added an entry. -/
  length_eq : words.length = m.tape.size
  /-- The value of every entry follows from its node. -/
  explains : ∀ id entry, m.tape.get? id = some entry →
    m.tape.Explains words id entry.node entry.value
  /-- A variable that is bound has the value of the latest assignment to it. -/
  bound : ∀ name value, m.environment.get? name = some value →
    ∃ b, m.tape.LatestBind name m.tape.size b ∧ m.tape.value? b = some value
  /-- A variable that is not bound has never been assigned. -/
  unbound : ∀ name, m.environment.get? name = none →
    ∀ id source, m.tape.node? id ≠ some (.bind name source)

theorem explained_initial : Explained [] initial where
  length_eq := rfl
  explains _ _ h := by cases h
  bound _ _ h := by cases h
  unbound _ _ _ _ h := by cases h

namespace Explained

variable {words : List String} {word : String}

/-- **An accepted word explains the value it logs.** -/
theorem explains_new (hm : m.Explained words) (hfirst : m.OperandsFirst)
    (h : m.Performs (.ofWord word) node value below env) :
    m.tape.Explains (words ++ [word]) m.tape.size node value := by
  generalize hword : Instruction.ofWord word = instruction at h
  cases h with
  | push value =>
    refine ⟨word, ?_, Instruction.read?_of_ofWord_eq_push hword⟩
    rw [← hm.length_eq, List.getElem?_concat_length]
  | assign hstack =>
    exact hfirst.value?_of_mem_stack (hstack ▸ List.mem_cons_self)
  | @call builtin args below value hstack harity hvalue =>
    refine ⟨args.map m.valueAt, ?_, hvalue⟩
    rw [List.forall₂_map_right_iff, List.forall₂_same]
    intro arg harg
    refine hfirst.value?_of_mem_stack ?_
    rw [hstack]
    exact List.mem_append_left _ (List.mem_reverse.2 harg)
  | read hvalue => exact hm.bound _ _ hvalue

theorem extend (hm : m.Explained words) (hfirst : m.OperandsFirst)
    (h : m.Performs (.ofWord word) node value below env) :
    (m.extend node value below env).Explained (words ++ [word]) where
  length_eq := by
    rw [List.length_append, List.length_singleton, hm.length_eq, Machine.extend, Tape.size_push]
  explains id entry hentry := by
    have htape := m.tape.continues_push node value
    rw [Machine.extend, Tape.get?_push] at hentry
    split at hentry
    · rename_i hid
      obtain rfl := Option.some.inj hentry
      rw [hid]
      exact (hm.explains_new hfirst h).mono (List.prefix_refl _) htape (Nat.le_refl _)
    · exact (hm.explains id entry hentry).mono (List.prefix_append _ _) htape
        (Tape.lt_size_of_get? hentry).le
  bound other value' hvalue := by
    have htape := m.tape.continues_push node value
    have hnode : (m.tape.push node value).node? m.tape.size = some node := by
      rw [Tape.node?, Tape.get?_push_self, Option.map_some]
    rw [Machine.extend, Tape.size_push]
    -- an assignment to the variable is now the latest, and any other entry
    -- leaves the latest as it was
    by_cases hbind : ∃ source, node = .bind other source
    · obtain ⟨source, rfl⟩ := hbind
      obtain rfl : value' = value := Option.some.inj (hvalue.symm.trans h.get?_of_bind)
      refine ⟨m.tape.size, ⟨Nat.lt_succ_self _, ⟨source, hnode⟩, fun c _ hc hlt => ?_⟩, ?_⟩
      · exact absurd hc (Nat.not_lt.2 (Nat.lt_succ_iff.1 hlt))
      · rw [Tape.value?, Tape.get?_push_self, Option.map_some]
    · have hne : ∀ source, node ≠ .bind other source := fun source heq => hbind ⟨source, heq⟩
      obtain ⟨b, hlatest, hb⟩ := hm.bound other value' ((h.get?_of_ne hne).symm.trans hvalue)
      refine ⟨b, (hlatest.congr fun c hc => htape.node?_eq hc).succ fun source heq => ?_,
        htape.value? hb⟩
      exact hne source (Option.some.inj (hnode.symm.trans heq))
  unbound other hvalue id source hid := by
    have hne : ∀ source, node ≠ .bind other source := by
      rintro source rfl
      exact absurd (hvalue.symm.trans h.get?_of_bind) (Option.some_ne_none value).symm
    rw [Machine.extend, Tape.node?, Tape.get?_push] at hid
    split at hid
    · exact hne source (Option.some.inj hid)
    · exact hm.unbound other ((h.get?_of_ne hne).symm.trans hvalue) id source hid

theorem get?_eq_some_iff (hm : m.Explained words) (name : String) (value : Binary64) :
    m.environment.get? name = some value ↔
      ∃ b, m.tape.LatestBind name m.tape.size b ∧ m.tape.value? b = some value := by
  refine ⟨hm.bound name value, ?_⟩
  rintro ⟨b, hlatest, hvalue⟩
  cases hget : m.environment.get? name with
  | none =>
    obtain ⟨source, hsource⟩ := hlatest.binds
    exact absurd hsource (hm.unbound name hget b source)
  | some value' =>
    obtain ⟨b', hlatest', hvalue'⟩ := hm.bound name value' hget
    obtain rfl := hlatest.unique hlatest'
    exact hvalue'.symm.trans hvalue

theorem get?_eq_none_iff (hm : m.Explained words) (name : String) :
    m.environment.get? name = none ↔ ∀ id source, m.tape.node? id ≠ some (.bind name source) := by
  refine ⟨hm.unbound name, fun hnone => ?_⟩
  cases hget : m.environment.get? name with
  | none => rfl
  | some value =>
    obtain ⟨b, hlatest, -⟩ := hm.bound name value hget
    obtain ⟨source, hsource⟩ := hlatest.binds
    exact absurd hsource (hnone b source)

section determined

variable {words' : List String}

/-- Machines with the same nodes and the same numbers have the same values. -/
theorem value?_eq (hm : m.Explained words) (hm' : m'.Explained words') (hfirst : m.OperandsFirst)
    (hnodes : ∀ id, m.tape.node? id = m'.tape.node? id)
    (hnumbers : ∀ id, m.tape.node? id = some .literal → m.tape.value? id = m'.tape.value? id)
    (id : NodeId) : m.tape.value? id = m'.tape.value? id := by
  -- an explanation looks only at entries that come earlier, so positions are gone through in order
  induction id using Nat.strong_induction_on with
  | _ id ih =>
    by_cases hliteral : m.tape.node? id = some .literal
    · exact hnumbers id hliteral
    have hnode := hnodes id
    rw [Tape.node?] at hliteral
    rw [Tape.node?, Tape.node?] at hnode
    rw [Tape.value?, Tape.value?]
    cases hentry : m.tape.get? id with
    | none =>
      rw [hentry, Option.map_none, eq_comm, Option.map_eq_none_iff] at hnode
      rw [hnode]
    | some entry =>
      rw [hentry, Option.map_some, eq_comm, Option.map_eq_some_iff] at hnode
      obtain ⟨entry', hentry', hnode⟩ := hnode
      have hoperands : ∀ b ∈ entry.node.operands, b < id := fun b hb =>
        hfirst.lt_of_holds ⟨entry, hentry, hb⟩
      have hexplains' := hm'.explains id entry' hentry'
      rw [hnode] at hexplains'
      rw [hentry] at hliteral
      rw [hentry', Option.map_some, Option.map_some, (hm.explains id entry hentry).value_unique
        hexplains' (fun heq => hliteral (congrArg some heq)) hoperands (fun c _ => hnodes c) ih]

/-- …and so the same variables. -/
theorem get?_eq (hm : m.Explained words) (hm' : m'.Explained words')
    (hsize : m.tape.size = m'.tape.size) (hnodes : ∀ id, m.tape.node? id = m'.tape.node? id)
    (hvalues : ∀ id, m.tape.value? id = m'.tape.value? id) (name : String) :
    m.environment.get? name = m'.environment.get? name := by
  refine Option.ext fun value => ?_
  rw [hm.get?_eq_some_iff, hm'.get?_eq_some_iff, hsize]
  refine exists_congr fun b => and_congr ⟨fun h => ?_, fun h => ?_⟩ (by rw [hvalues])
  · exact h.congr fun c _ => hnodes c
  · exact h.congr fun c _ => (hnodes c).symm

end determined

end Explained

/-! ## Whole runs -/

theorem explained_feed (words : List String) :
    (initial.feed words).Explained (initial.accepted words) := by
  have hkept : (initial.feed words).Explained ([] ++ initial.accepted words) ∧
      (initial.feed words).OperandsFirst :=
    feed_induction_accepted (P := fun done m => m.Explained done ∧ m.OperandsFirst)
      (fun hm h => ⟨hm.1.extend hm.2 h, hm.2.extend h⟩) words
      ⟨explained_initial, operandsFirst_initial⟩
  exact hkept.1

/-- **After any words, the rejected ones included, the values on the tape and the variables follow
from the nodes and the words of the numbers.** A read finds the latest assignment before it, and a
variable has the value of the latest assignment on the whole tape. Nothing else can make a
difference: the same nodes with the same numbers have the same values and variables. -/
theorem nodes_determine_values (words : List String) :
    (∀ id entry, (initial.feed words).tape.get? id = some entry →
        (initial.feed words).tape.Explains (initial.accepted words) id entry.node entry.value) ∧
      (∀ name value, (initial.feed words).environment.get? name = some value ↔
        ∃ b, (initial.feed words).tape.LatestBind name (initial.feed words).tape.size b ∧
          (initial.feed words).tape.value? b = some value) ∧
      (∀ name, (initial.feed words).environment.get? name = none ↔
        ∀ id source, (initial.feed words).tape.node? id ≠ some (.bind name source)) ∧
      ∀ words', (initial.feed words).tape.nodes = (initial.feed words').tape.nodes →
        (∀ id, (initial.feed words).tape.node? id = some .literal →
          (initial.feed words).tape.value? id = (initial.feed words').tape.value? id) →
        (initial.feed words).tape.values = (initial.feed words').tape.values ∧
          ∀ name, (initial.feed words).environment.get? name =
            (initial.feed words').environment.get? name := by
  have hm := explained_feed words
  refine ⟨hm.explains, hm.get?_eq_some_iff, hm.get?_eq_none_iff, fun words' hnodes hnumbers => ?_⟩
  have hm' := explained_feed words'
  have hnode : ∀ id, (initial.feed words).tape.node? id = (initial.feed words').tape.node? id := by
    intro id
    rw [← Tape.getElem?_nodes, hnodes, Tape.getElem?_nodes]
  have hvalue := hm.value?_eq hm' (operandsFirst_feed words) hnode hnumbers
  have hsize : (initial.feed words).tape.size = (initial.feed words').tape.size := by
    rw [← Tape.length_nodes, hnodes, Tape.length_nodes]
  refine ⟨List.ext_getElem? fun id => ?_, hm.get?_eq hm' hsize hnode hvalue⟩
  rw [Tape.getElem?_values, Tape.getElem?_values, hvalue]

end Machine

end RpnTape
