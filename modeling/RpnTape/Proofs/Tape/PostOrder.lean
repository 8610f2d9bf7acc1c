import Mathlib.Data.List.Nodup
import Mathlib.Data.List.Perm.Basic
import RpnTape.Proofs.Tape.Unfolding

/-!
# Proofs/Tape/PostOrder — trees listed operands first

`PostOrder ids listing` walks the trees of positions one after the other, each with its operands'
trees before it. Where such a listing comes to `0, 1, …` the whole tape is laid out in this order,
and the rest follows: operands come before their holder and are held once (`PostOrder.lt_of_holds`,
`PostOrder.perm`), and the tree of an entry is a block of the tape that ends at it
(`PostOrder.exists_block_range`).
-/

namespace RpnTape

namespace Tape

/-- The trees of the positions, listed one after the other: first the trees of an entry's operands,
in argument order, then the entry. -/
inductive PostOrder (tape : Tape) : List NodeId → List NodeId → Prop
  | nil : PostOrder tape [] []
  | cons {id : NodeId} {entry : Entry} {inner ids after : List NodeId}
      (hentry : tape.get? id = some entry) (hinner : PostOrder tape entry.node.operands inner)
      (hrest : PostOrder tape ids after) : PostOrder tape (id :: ids) (inner ++ id :: after)

/-- The operands of the entry at a position. -/
def operandsAt (tape : Tape) (id : NodeId) : List NodeId := (tape.node? id).elim [] Node.operands

variable {tape : Tape} {id : NodeId}

theorem operandsAt_of_get? {entry : Entry} (h : tape.get? id = some entry) :
    tape.operandsAt id = entry.node.operands := by rw [operandsAt, node?, h]; rfl

/-- Going through the positions of a tape goes through its nodes. -/
theorem flatMap_operandsAt_range (tape : Tape) :
    (List.range tape.size).flatMap tape.operandsAt = tape.nodes.flatMap Node.operands := by
  have hmap : (List.range tape.size).map tape.operandsAt = tape.nodes.map Node.operands := by
    refine List.ext_getElem (by simp [nodes, size]) fun i hi hi' => ?_
    have hsize : i < tape.entries.size := by simpa [size] using hi
    rw [List.getElem_map, List.getElem_range, List.getElem_map]
    simp [operandsAt, node?, get?, nodes, hsize]
  rw [List.flatMap_def, hmap, List.flatMap_def]

namespace PostOrder

variable {ids listing : List NodeId}

/-- **There is one listing.** -/
theorem unique (h : tape.PostOrder ids listing) :
    ∀ {listing'}, tape.PostOrder ids listing' → listing = listing' := by
  induction h with
  | nil =>
    intro listing' h'
    cases h'
    rfl
  | cons hentry _ _ ihinner ihrest =>
    intro listing' h'
    cases h' with
    | cons hentry' hinner' hrest' =>
      obtain rfl := Option.some.inj (hentry.symm.trans hentry')
      rw [ihinner hinner', ihrest hrest']

theorem append {ids' listing' : List NodeId} (h : tape.PostOrder ids listing)
    (h' : tape.PostOrder ids' listing') : tape.PostOrder (ids ++ ids') (listing ++ listing') := by
  induction h with
  | nil => exact h'
  | cons hentry hinner _ _ ih =>
    rw [List.append_assoc, List.cons_append, List.cons_append]
    exact .cons hentry hinner ih

theorem of_append : ∀ {ids ids' listing : List NodeId}, tape.PostOrder (ids ++ ids') listing →
    ∃ first second, tape.PostOrder ids first ∧ tape.PostOrder ids' second ∧
      listing = first ++ second
  | [], _, listing, h => ⟨[], listing, .nil, h, rfl⟩
  | _ :: ids, ids', _, .cons hentry hinner hrest => by
    obtain ⟨first, second, hfirst, hsecond, rfl⟩ := of_append hrest
    exact ⟨_, second, .cons hentry hinner hfirst, hsecond, by simp⟩

theorem singleton {entry : Entry} {inner : List NodeId} (hentry : tape.get? id = some entry)
    (hinner : tape.PostOrder entry.node.operands inner) : tape.PostOrder [id] (inner ++ [id]) :=
  .cons hentry hinner .nil

/-- What can be listed can be unfolded. -/
theorem exists_unfolds (h : tape.PostOrder ids listing) : ∃ es, tape.Unfolds ids es := by
  induction h with
  | nil => exact ⟨[], .nil⟩
  | cons hentry _ _ ihinner ihrest =>
    obtain ⟨operands, hoperands⟩ := ihinner
    obtain ⟨es, hes⟩ := ihrest
    obtain ⟨e, he⟩ := Entry.exists_expr? hoperands.length_eq
    exact ⟨e :: es, .cons hentry hoperands he hes⟩

/-- A longer tape changes nothing. -/
theorem mono {tape' : Tape} (h : tape.PostOrder ids listing) (htape : tape.Continues tape') :
    tape'.PostOrder ids listing := by
  induction h with
  | nil => exact .nil
  | cons hentry _ _ ihinner ihrest => exact .cons (htape.get? hentry) ihinner ihrest

/-- **A new entry goes last**, in place of its operands. -/
theorem push_operands {below : List NodeId} {node : Node}
    (h : tape.PostOrder (below ++ node.operands) listing) (value : Binary64) :
    (tape.push node value).PostOrder (below ++ [tape.size]) (listing ++ [tape.size]) := by
  obtain ⟨first, second, hfirst, hsecond, rfl⟩ := h.of_append
  have hentry : (tape.push node value).get? tape.size = some ⟨node, value⟩ := by
    rw [get?_push, if_pos rfl]
  have htape := tape.continues_push node value
  rw [List.append_assoc]
  exact (hfirst.mono htape).append (singleton hentry (hsecond.mono htape))

/-- The roots are listed in their order. -/
theorem sublist (h : tape.PostOrder ids listing) : ids.Sublist listing := by
  induction h with
  | nil => exact .slnil
  | cons _ _ _ _ ihrest => exact (ihrest.cons_cons _).trans (List.sublist_append_right _ _)

/-- **What is listed is the roots and the operands of what is listed**,
each as often as it is one. -/
theorem perm (h : tape.PostOrder ids listing) :
    listing.Perm (ids ++ listing.flatMap tape.operandsAt) := by
  induction h with
  | nil => exact .nil
  | @cons id entry inner ids after hentry _ _ ihinner ihrest =>
    have hoperands : tape.operandsAt id = entry.node.operands := operandsAt_of_get? hentry
    rw [List.flatMap_append, List.flatMap_cons, hoperands, List.cons_append]
    calc (inner ++ id :: after).Perm (id :: (inner ++ after)) := List.perm_middle
      _ |>.Perm (id :: ((entry.node.operands ++ inner.flatMap tape.operandsAt) ++
          (ids ++ after.flatMap tape.operandsAt))) := (ihinner.append ihrest).cons id
      _ |>.Perm _ := by
        refine List.Perm.cons id ?_
        rw [List.perm_iff_count]
        intro x
        simp only [List.count_append]
        omega

/-- The tree of a listed entry is listed in one piece. -/
theorem exists_block (h : tape.PostOrder ids listing) :
    ∀ id ∈ listing, ∃ block, tape.PostOrder [id] block ∧ block <:+: listing := by
  induction h with
  | nil => exact fun id hid => absurd hid List.not_mem_nil
  | @cons root entry inner ids after hentry hinner _ ihinner ihrest =>
    intro id hid
    rcases List.mem_append.1 hid with hid | hid
    · obtain ⟨block, hblock, hinfix⟩ := ihinner id hid
      exact ⟨block, hblock, hinfix.trans (List.prefix_append _ _).isInfix⟩
    rcases List.mem_cons.1 hid with rfl | hid
    · exact ⟨inner ++ [id], singleton hentry hinner, [], after, by simp⟩
    · obtain ⟨block, hblock, hinfix⟩ := ihrest id hid
      refine ⟨block, hblock, hinfix.trans ?_⟩
      exact ((List.suffix_cons root after).trans (List.suffix_append _ _)).isInfix

/-- The listing of one tree ends at its root. -/
theorem singleton_cases {block : List NodeId} (h : tape.PostOrder [id] block) :
    ∃ entry inner, tape.get? id = some entry ∧ tape.PostOrder entry.node.operands inner ∧
      block = inner ++ [id] := by
  cases h with
  | cons hentry hinner hrest =>
    cases hrest
    exact ⟨_, _, hentry, hinner, rfl⟩

/-- **In an ascending listing operands come before their holder.** -/
theorem lt_of_holds (h : tape.PostOrder ids listing) (hascending : listing.Pairwise (· < ·))
    (hid : id ∈ listing) {b : NodeId} (hb : tape.Holds id b) : b < id := by
  obtain ⟨block, hblock, hinfix⟩ := h.exists_block id hid
  obtain ⟨entry, inner, hentry, hinner, rfl⟩ := hblock.singleton_cases
  obtain ⟨entry', hentry', hmem⟩ := hb
  obtain rfl := Option.some.inj (hentry.symm.trans hentry')
  have hordered := hascending.sublist hinfix.sublist
  exact (List.pairwise_append.1 hordered).2.2 b (hinner.sublist.subset hmem) id
    (List.mem_singleton_self id)

/-- **If the positions of a tape are listed from first to last, the tree of each is a
block that ends at it.** -/
theorem exists_block_range {n : Nat} (h : tape.PostOrder ids (List.range n)) (hid : id < n) :
    ∃ start ≤ id, tape.PostOrder [id] (List.range' start (id + 1 - start)) := by
  obtain ⟨block, hblock, before, after, hrange⟩ := h.exists_block id (List.mem_range.2 hid)
  -- the block lies in a range, so it is one
  rw [List.range_eq_range', List.append_assoc, eq_comm, List.range'_eq_append_iff] at hrange
  obtain ⟨start, -, -, hrange⟩ := hrange
  rw [eq_comm, List.range'_eq_append_iff, Nat.zero_add, Nat.mul_one] at hrange
  obtain ⟨count, -, hcount, -⟩ := hrange
  -- it ends at the root, which tells how long it is
  obtain ⟨_, inner, _, _, hroot⟩ := hblock.singleton_cases
  obtain ⟨below, hbelow, -, hlast⟩ := List.range'_eq_append_iff.1 (hcount.symm.trans hroot)
  obtain ⟨hid, hlength⟩ : start + below * 1 = id ∧ count - below = 1 :=
    List.range'_eq_singleton_iff.1 hlast.symm
  have hend : count = id + 1 - start := by omega
  rw [hcount, hend] at hblock
  exact ⟨start, hid ▸ Nat.le_add_right start _, hblock⟩

end PostOrder

end Tape

end RpnTape
