import Mathlib.Data.Finite.Prod
import Mathlib.Logic.Relation
import RpnTape.Expr
import RpnTape.Tape

/-!
# Proofs/Tape/Unfolding — the expression a position stands for

Following operands to their ends turns a position into an expression. On a tape that no machine made
this can fail in two ways: an operand is off the tape, or a path of operands runs in a circle.
`exists_unfolds_iff` says that there is no third way, and `Unfolds.unique` that a position stands
for one expression at most.

`Unfolds` relates *lists* of positions to lists of expressions: an entry's operands are such a list,
so one inductive predicate with one rule for a position covers both the entry and what is below it.
-/

namespace RpnTape

open Relation

/-- The expression of an entry, given those of its operands. -/
def Entry.expr? (entry : Entry) (operands : List Expr) : Option Expr :=
  match entry.node, operands with
  | .literal, [] => some (.literal entry.value)
  | .read name, [] => some (.read name)
  | .bind name _, [source] => some (.bind name source)
  | .apply operator _, args => some (.apply operator args)
  | _, _ => none

theorem Entry.exists_expr? {entry : Entry} {operands : List Expr}
    (h : operands.length = entry.node.operands.length) : ∃ e, entry.expr? operands = some e := by
  obtain ⟨node, value⟩ := entry
  cases node with
  | literal =>
    obtain rfl : operands = [] := List.length_eq_zero_iff.1 h
    exact ⟨_, rfl⟩
  | read name =>
    obtain rfl : operands = [] := List.length_eq_zero_iff.1 h
    exact ⟨_, rfl⟩
  | bind name source =>
    obtain ⟨e, rfl⟩ := List.length_eq_one_iff.1 h
    exact ⟨_, rfl⟩
  | apply operator args => exact ⟨_, rfl⟩

namespace Tape

variable {tape : Tape} {id : NodeId}

/-! ## Paths of operands -/

/-- Is `b` an operand of the entry at `a`? -/
def Holds (tape : Tape) (a b : NodeId) : Prop :=
  ∃ entry, tape.get? a = some entry ∧ b ∈ entry.node.operands

/-- Do operands lead from `a` to `b`, in any number of steps? -/
def Reaches (tape : Tape) : NodeId → NodeId → Prop := ReflTransGen tape.Holds

/-- Does the position reach no position that leads back to itself? -/
def Acyclic (tape : Tape) (id : NodeId) : Prop :=
  ∀ c, tape.Reaches id c → ¬ TransGen tape.Holds c c

/-- Does the position reach no position off the tape? -/
def Complete (tape : Tape) (id : NodeId) : Prop :=
  ∀ b, tape.Reaches id b → tape.get? b ≠ none

theorem lt_size_of_get? {entry : Entry} (h : tape.get? id = some entry) : id < tape.size :=
  (Array.getElem?_eq_some_iff.1 h).1

theorem Acyclic.of_holds {a b : NodeId} (h : tape.Acyclic a) (hab : tape.Holds a b) :
    tape.Acyclic b := fun c hbc => h c (hbc.head hab)

theorem Complete.of_holds {a b : NodeId} (h : tape.Complete a) (hab : tape.Holds a b) :
    tape.Complete b := fun c hbc => h c (hbc.head hab)

/-- **A rank that falls from entries to their operands excludes circles.** -/
theorem acyclic_of_rank (rank : NodeId → Nat) (h : ∀ {a b}, tape.Holds a b → rank b < rank a)
    (id : NodeId) : tape.Acyclic id := by
  have hfalls : ∀ {a b}, TransGen tape.Holds a b → rank b < rank a := by
    intro a b hab
    induction hab with
    | single hab => exact h hab
    | tail _ hbc ih => exact (h hbc).trans ih
  exact fun c _ hcc => Nat.lt_irrefl _ (hfalls hcc)

/-- The same, in a form that can be checked entry by entry. -/
theorem acyclic_of_ranked_entries (rank : NodeId → Nat)
    (h : ∀ p ∈ tape.entries.toList.zipIdx, ∀ b ∈ p.1.node.operands, rank b < rank p.2)
    (id : NodeId) : tape.Acyclic id := by
  refine acyclic_of_rank rank ?_ id
  rintro a b ⟨entry, hentry, hb⟩
  have hmem : (entry, a) ∈ tape.entries.toList.zipIdx := by
    rw [List.mk_mem_zipIdx_iff_getElem?, Array.getElem?_toList]
    exact hentry
  exact h _ hmem b hb

/-- **Completeness goes from the operands to the entry that holds them.** -/
theorem complete_of_operands {entry : Entry} (hentry : tape.get? id = some entry)
    (h : ∀ b ∈ entry.node.operands, tape.Complete b) : tape.Complete id := by
  intro c hc
  rcases hc.cases_head with rfl | ⟨b, ⟨entry', hentry', hb⟩, hbc⟩
  · rw [hentry]
    exact Option.some_ne_none _
  · obtain rfl : entry = entry' := Option.some.inj (hentry.symm.trans hentry')
    exact h b hb c hbc

/-- The entries that a position reaches. There are only finitely many. -/
abbrev Reached (tape : Tape) (id : NodeId) : Type := { x : Fin tape.size // tape.Reaches id x }

theorem Acyclic.wellFounded_reached (h : tape.Acyclic id) :
    WellFounded fun x y : tape.Reached id => TransGen tape.Holds y.1 x.1 := by
  have : IsTrans (tape.Reached id) fun x y => TransGen tape.Holds y.1 x.1 :=
    ⟨fun _ _ _ hxy hyz => hyz.trans hxy⟩
  have : Std.Irrefl fun x y : tape.Reached id => TransGen tape.Holds y.1 x.1 :=
    ⟨fun x hx => h x.1 x.2 hx⟩
  exact Finite.wellFounded_of_trans_of_irrefl _

/-- A position off the tape has no operands to follow. -/
theorem acc_of_size_le (h : tape.size ≤ id) : Acc (fun b a => tape.Holds a b) id :=
  Acc.intro _ fun _ ⟨_, hentry, _⟩ => absurd (lt_size_of_get? hentry) (Nat.not_lt.2 h)

/-- **Without circles, following operands comes to an end** — there are only as many positions as
the tape has entries, and none can be met twice on a path. -/
theorem Acyclic.acc (h : tape.Acyclic id) : Acc (fun b a => tape.Holds a b) id := by
  have hreached : ∀ x : tape.Reached id, Acc (fun b a => tape.Holds a b) x.1.1 := by
    intro x
    induction x using h.wellFounded_reached.induction with
    | _ x ih =>
      refine Acc.intro _ fun b hb => ?_
      by_cases hlt : b < tape.size
      · exact ih ⟨⟨b, hlt⟩, x.2.tail hb⟩ (TransGen.single hb)
      · exact acc_of_size_le (Nat.not_lt.1 hlt)
  by_cases hlt : id < tape.size
  · exact hreached ⟨⟨id, hlt⟩, ReflTransGen.refl⟩
  · exact acc_of_size_le (Nat.not_lt.1 hlt)

/-! ## Longer tapes -/

/-- Does the second tape begin with the entries of the first? -/
def Continues (tape tape' : Tape) : Prop := tape.entries.toList <+: tape'.entries.toList

theorem continues_push (tape : Tape) (node : Node) (value : Binary64) :
    tape.Continues (tape.push node value) :=
  ⟨[⟨node, value⟩], by rw [push, Array.toList_push]⟩

theorem Continues.trans {tape tape' tape'' : Tape} (h : tape.Continues tape')
    (h' : tape'.Continues tape'') : tape.Continues tape'' := List.IsPrefix.trans h h'

theorem Continues.get? {tape' : Tape} (h : tape.Continues tape') {entry : Entry}
    (hentry : tape.get? id = some entry) : tape'.get? id = some entry := by
  obtain ⟨more, hmore⟩ := h
  have hlt : id < tape.entries.toList.length := lt_size_of_get? hentry
  rw [Tape.get?, ← Array.getElem?_toList] at hentry ⊢
  rw [← hmore, List.getElem?_append_left hlt, hentry]

theorem Continues.value? {tape' : Tape} (h : tape.Continues tape') {value : Binary64}
    (hvalue : tape.value? id = some value) : tape'.value? id = some value := by
  obtain ⟨entry, hentry, rfl⟩ := Option.map_eq_some_iff.1 hvalue
  rw [Tape.value?, h.get? hentry, Option.map_some]

/-! ## Unfolding -/

/-- The positions stand for the expressions, one for one. -/
inductive Unfolds (tape : Tape) : List NodeId → List Expr → Prop
  | nil : Unfolds tape [] []
  | cons {id : NodeId} {entry : Entry} {operands : List Expr} {e : Expr} {ids : List NodeId}
      {es : List Expr} (hentry : tape.get? id = some entry)
      (hoperands : Unfolds tape entry.node.operands operands)
      (hexpr : entry.expr? operands = some e) (hrest : Unfolds tape ids es) :
      Unfolds tape (id :: ids) (e :: es)

namespace Unfolds

variable {ids : List NodeId} {es : List Expr}

theorem length_eq (h : tape.Unfolds ids es) : es.length = ids.length := by
  induction h with
  | nil => rfl
  | cons _ _ _ _ _ ih => rw [List.length_cons, List.length_cons, ih]

/-- **A position stands for one expression at most.** -/
theorem unique (h : tape.Unfolds ids es) : ∀ {es'}, tape.Unfolds ids es' → es = es' := by
  induction h with
  | nil =>
    intro es' h'
    cases h'
    rfl
  | cons hentry _ hexpr _ ihoperands ihrest =>
    intro es' h'
    cases h' with
    | cons hentry' hoperands' hexpr' hrest' =>
      obtain rfl := Option.some.inj (hentry.symm.trans hentry')
      obtain rfl := ihoperands hoperands'
      obtain rfl := Option.some.inj (hexpr.symm.trans hexpr')
      rw [ihrest hrest']

theorem append {ids' : List NodeId} {es' : List Expr} (h : tape.Unfolds ids es)
    (h' : tape.Unfolds ids' es') : tape.Unfolds (ids ++ ids') (es ++ es') := by
  induction h with
  | nil => exact h'
  | cons hentry hoperands hexpr _ _ ih => exact .cons hentry hoperands hexpr ih

/-- A longer tape changes nothing. -/
theorem mono {tape' : Tape} (h : tape.Unfolds ids es) (htape : tape.Continues tape') :
    tape'.Unfolds ids es := by
  induction h with
  | nil => exact .nil
  | cons hentry _ hexpr _ ihoperands ihrest =>
    exact .cons (htape.get? hentry) ihoperands hexpr ihrest

theorem complete (h : tape.Unfolds ids es) : ∀ id ∈ ids, tape.Complete id := by
  induction h with
  | nil => exact fun id hid => absurd hid List.not_mem_nil
  | cons hentry _ _ _ ihoperands ihrest =>
    intro id hid
    rcases List.mem_cons.1 hid with rfl | hid
    · exact complete_of_operands hentry ihoperands
    · exact ihrest id hid

end Unfolds

/-- Positions that each stand for an expression stand for a list of expressions. -/
theorem exists_unfolds_of_forall : ∀ {ids : List NodeId},
    (∀ id ∈ ids, ∃ e, tape.Unfolds [id] [e]) → ∃ es, tape.Unfolds ids es
  | [], _ => ⟨[], .nil⟩
  | id :: ids, h => by
    obtain ⟨e, he⟩ := h id List.mem_cons_self
    obtain ⟨es, hes⟩ := exists_unfolds_of_forall fun id hid => h id (List.mem_cons_of_mem _ hid)
    exact ⟨e :: es, he.append hes⟩

/-- **A position without circles stands for an expression exactly when it reaches no
position off the tape.** -/
theorem exists_unfolds_iff (h : tape.Acyclic id) :
    (∃ e, tape.Unfolds [id] [e]) ↔ tape.Complete id := by
  refine ⟨fun ⟨e, he⟩ => he.complete id List.mem_cons_self, fun hcomplete => ?_⟩
  induction h.acc with
  | intro id _ ih =>
    obtain ⟨entry, hentry⟩ := Option.ne_none_iff_exists'.1 (hcomplete id ReflTransGen.refl)
    have hbelow : ∀ b ∈ entry.node.operands, ∃ e, tape.Unfolds [b] [e] := by
      intro b hb
      have hholds : tape.Holds id b := ⟨entry, hentry, hb⟩
      exact ih b hholds (h.of_holds hholds) (hcomplete.of_holds hholds)
    obtain ⟨operands, hoperands⟩ := exists_unfolds_of_forall hbelow
    obtain ⟨e, he⟩ := Entry.exists_expr? hoperands.length_eq
    exact ⟨e, .cons hentry hoperands he .nil⟩

end Tape

end RpnTape
