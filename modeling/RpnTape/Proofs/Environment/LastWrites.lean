import RpnTape.Proofs.Machine.Outline
import RpnTape.Proofs.Text.ByteOrder

/-!
# Proofs/Environment/LastWrites — the last write to a name wins

An environment after a sequence of writes is the map from each name to the value that was written to
it last (`lastWrite?`), and its bindings are that map listed by name. They do not depend on how the
map is kept: a `Listing` is the entries of a table in an order of its own, which every write may
change. The listings are the permutations of the bindings (`listing_iff_perm`), and sorting any of
them by the bytes of the names gives the bindings.
-/

namespace RpnTape

/-! ## Ascending bindings -/

namespace Bindings

variable {bindings bindings' : List (String × Binary64)} {name : String} {value : Binary64}

/-- **A name is bound once**, to the value that is found. -/
theorem filter_eq : ∀ {bindings : List (String × Binary64)}, Ascending bindings →
    bindings.filter (·.1 = name) = ((get? name bindings).map fun value => (name, value)).toList
  | [], _ => rfl
  | (key, old) :: rest, h => by
    obtain ⟨hkey, hrest⟩ := List.pairwise_cons.1 h
    have ih := filter_eq hrest
    rw [get?]
    split
    · rename_i heq
      have hnone : rest.filter (·.1 = name) = [] := by
        rw [List.filter_eq_nil_iff]
        intro entry hentry hname
        exact String.ne_of_lt (hkey entry hentry) (heq.trans (of_decide_eq_true hname).symm)
      rw [List.filter_cons_of_pos (by simpa using heq), hnone, heq]
      rfl
    · rename_i hne
      rw [List.filter_cons_of_neg (by simpa using hne), ih]

theorem mem_iff_get?_eq_some (h : Ascending bindings) :
    (name, value) ∈ bindings ↔ get? name bindings = some value := by
  have hmem : (name, value) ∈ bindings ↔ (name, value) ∈ bindings.filter (·.1 = name) := by simp
  rw [hmem, filter_eq h, Option.mem_toList]
  simp

namespace Ascending

theorem nodup (h : Ascending bindings) : (bindings.map Prod.fst).Nodup :=
  List.pairwise_map.2 (h.imp String.ne_of_lt)

theorem ordered (h : Ascending bindings) : bindings.Pairwise fun a b => a.1 ≤ b.1 :=
  h.imp fun hlt => String.not_lt.1 (String.lt_asymm hlt)

theorem eq_of_mem {a b : String × Binary64} (h : Ascending bindings) (ha : a ∈ bindings)
    (hb : b ∈ bindings) (hname : a.1 = b.1) : a = b := by
  have hget := (mem_iff_get?_eq_some h).1 ha
  rw [hname, (mem_iff_get?_eq_some h).1 hb, Option.some_inj] at hget
  exact Prod.ext hname hget.symm

/-- **There is one way to put bindings in order.** -/
theorem eq_of_perm (h : Ascending bindings) (hperm : bindings'.Perm bindings)
    (hordered : bindings'.Pairwise fun a b => a.1 ≤ b.1) : bindings' = bindings := by
  refine hperm.eq_of_pairwise (fun a b ha hb hle hge => ?_) hordered h.ordered
  exact h.eq_of_mem (hperm.mem_iff.1 ha) hb (String.le_antisymm hle hge)

theorem insert_perm (h : Ascending bindings) (name : String) (value : Binary64) :
    (insert name value bindings).Perm ((name, value) :: bindings.filter (·.1 ≠ name)) := by
  have hinsert := ascending_insert name value h
  refine (List.perm_ext_iff_of_nodup hinsert.nodup.of_map ?_).2 fun ⟨other, new⟩ => ?_
  · exact List.nodup_cons.2 ⟨by simp, h.nodup.of_map.filter _⟩
  · rw [mem_iff_get?_eq_some hinsert, get?_insert, List.mem_cons, List.mem_filter,
      mem_iff_get?_eq_some h]
    by_cases heq : name = other
    · simp [heq, eq_comm]
    · simp [heq, Ne.symm heq]

end Ascending

end Bindings

/-! ## Writes -/

/-- The value that was written to a name last. -/
def lastWrite? (writes : List (String × Binary64)) (name : String) : Option Binary64 :=
  (writes.filter (·.1 = name)).getLast?.map Prod.snd

@[simp] theorem lastWrite?_append_singleton (writes : List (String × Binary64))
    (name other : String) (value : Binary64) :
    lastWrite? (writes ++ [(name, value)]) other =
      if name = other then some value else lastWrite? writes other := by
  rw [lastWrite?, List.filter_append, List.getLast?_append]
  split
  · rename_i heq
    simp [heq]
  · rename_i hne
    simp [hne, lastWrite?]

/-- Writes to different names may change places. -/
theorem lastWrite?_swap {a b : String × Binary64} (h : a.1 ≠ b.1)
    (before after : List (String × Binary64)) :
    lastWrite? (before ++ b :: a :: after) = lastWrite? (before ++ a :: b :: after) := by
  funext name
  rw [lastWrite?, lastWrite?, List.filter_append, List.filter_append]
  by_cases ha : a.1 = name
  · have hb : b.1 ≠ name := fun hb => h (ha.trans hb.symm)
    simp [ha, hb]
  · simp [List.filter_cons, ha]

theorem lastWrite?_perm {writes writes' : List (String × Binary64)} (hperm : writes'.Perm writes)
    (h : (writes.map Prod.fst).Nodup) : lastWrite? writes' = lastWrite? writes := by
  funext name
  have hfilter := hperm.filter (·.1 = name)
  -- of the writes to one name there is at most one, so its writes have only one order
  have hsingle : (writes.filter (·.1 = name)).Pairwise fun _ _ => False := by
    refine ((List.pairwise_map.1 h).filter _).imp_of_mem fun ha hb hne => hne ?_
    rw [of_decide_eq_true (List.mem_filter.1 ha).2, of_decide_eq_true (List.mem_filter.1 hb).2]
  have hsingle' : (writes'.filter (·.1 = name)).Pairwise fun _ _ => False :=
    (hfilter.pairwise_iff id).2 hsingle
  rw [lastWrite?, lastWrite?, hfilter.eq_of_pairwise (fun _ _ _ _ h => h.elim) hsingle' hsingle]

namespace Environment

/-- Binds one variable after another, and gives back the values that they had. -/
def exchangeAll (env : Environment) :
    List (String × Binary64) → List (Option Binary64) × Environment
  | [] => ([], env)
  | (name, value) :: rest =>
    let (old, env) := env.exchange name value
    let (olds, env) := env.exchangeAll rest
    (old :: olds, env)

theorem exchangeAll_append (env : Environment) (writes writes' : List (String × Binary64)) :
    env.exchangeAll (writes ++ writes') =
      ((env.exchangeAll writes).1 ++ ((env.exchangeAll writes).2.exchangeAll writes').1,
        ((env.exchangeAll writes).2.exchangeAll writes').2) := by
  induction writes generalizing env with
  | nil => rfl
  | cons write writes ih =>
    simp only [List.cons_append, exchangeAll, ih]

/-- The environment after a sequence of writes. -/
def ofWrites (writes : List (String × Binary64)) : Environment := (empty.exchangeAll writes).2

variable {writes writes' : List (String × Binary64)}

theorem ofWrites_append_singleton (writes : List (String × Binary64)) (name : String)
    (value : Binary64) :
    ofWrites (writes ++ [(name, value)]) = (ofWrites writes).assign name value := by
  rw [ofWrites, exchangeAll_append]
  rfl

/-- **An environment is the map of the last writes.** -/
theorem get?_ofWrites (writes : List (String × Binary64)) (name : String) :
    (ofWrites writes).get? name = lastWrite? writes name := by
  induction writes using List.reverseRecOn with
  | nil => rfl
  | append_singleton writes write ih =>
    rw [ofWrites_append_singleton, get?_assign, lastWrite?_append_singleton, ih]

/-- A write gives back what the last one before it has written. -/
theorem olds_exchangeAll (writes : List (String × Binary64)) : (empty.exchangeAll writes).1 =
    writes.mapIdx fun i write => lastWrite? (writes.take i) write.1 := by
  induction writes using List.reverseRecOn with
  | nil => rfl
  | append_singleton writes write ih =>
    have hbefore : (writes.mapIdx fun i other => lastWrite? ((writes ++ [write]).take i) other.1) =
        writes.mapIdx fun i other => lastWrite? (writes.take i) other.1 :=
      List.mapIdx_eq_mapIdx_iff.2 fun i hi => by rw [List.take_append_of_le_length hi.le]
    rw [exchangeAll_append, List.mapIdx_concat, hbefore, ← ih, List.take_left, ← get?_ofWrites]
    rfl

theorem contains_ofWrites (writes : List (String × Binary64)) (name : String) :
    (ofWrites writes).contains name = (lastWrite? writes name).isSome := by
  rw [contains, get?_ofWrites]

theorem names_ofWrites (writes : List (String × Binary64)) :
    (ofWrites writes).names = (writes.map Prod.fst).toFinset := by
  induction writes using List.reverseRecOn with
  | nil => rfl
  | append_singleton writes write ih =>
    rw [ofWrites_append_singleton, names_assign, ih, List.map_append, List.toFinset_append,
      Finset.union_comm]
    rfl

theorem size_ofWrites (writes : List (String × Binary64)) :
    (ofWrites writes).size = (writes.map Prod.fst).toFinset.card := by
  rw [← names_ofWrites, names, List.toFinset_card_of_nodup (ofWrites writes).ascending.nodup,
    List.length_map, size]

theorem isEmpty_ofWrites (writes : List (String × Binary64)) :
    (ofWrites writes).isEmpty = writes.isEmpty := by
  rw [isEmpty, Bool.eq_iff_iff, List.isEmpty_iff_length_eq_zero, List.isEmpty_iff]
  change (ofWrites writes).size = 0 ↔ _
  rw [size_ofWrites, Finset.card_eq_zero, List.toFinset_eq_empty_iff, List.map_eq_nil_iff]

/-- **Environments with the same values are the same.** -/
theorem ext_get? {env env' : Environment} (h : ∀ name, env.get? name = env'.get? name) :
    env = env' := by
  refine Environment.ext (env'.ascending.eq_of_perm ?_ env.ascending.ordered)
  refine (List.perm_ext_iff_of_nodup env.ascending.nodup.of_map env'.ascending.nodup.of_map).2 ?_
  rintro ⟨name, value⟩
  rw [Bindings.mem_iff_get?_eq_some env.ascending, Bindings.mem_iff_get?_eq_some env'.ascending]
  exact iff_of_eq (congrArg (· = some value) (h name))

theorem bindings_eq_iff : (ofWrites writes).bindings = (ofWrites writes').bindings ↔
    ∀ name, lastWrite? writes name = lastWrite? writes' name := by
  simp only [← get?_ofWrites]
  exact ⟨fun h name => by rw [get?, get?, h], fun h => congrArg bindings (ext_get? h)⟩

/-! ## Tables -/

/-- The entries of a table after a sequence of writes, in an order of its own: a write puts its
entry in place of the one of the same name, and may move all the others. -/
inductive Listing : List (String × Binary64) → List (String × Binary64) → Prop
  | empty : Listing [] []
  | write {writes entries entries' : List (String × Binary64)} {name : String} {value : Binary64} :
    Listing writes entries → entries'.Perm ((name, value) :: entries.filter (·.1 ≠ name)) →
    Listing (writes ++ [(name, value)]) entries'

theorem Listing.perm {entries : List (String × Binary64)} (h : Listing writes entries) :
    entries.Perm (ofWrites writes).bindings := by
  induction h with
  | empty => exact .refl _
  | @write writes entries entries' name value _ hentries ih =>
    rw [ofWrites_append_singleton]
    have hothers : (entries.filter (·.1 ≠ name)).Perm
        ((ofWrites writes).bindings.filter (·.1 ≠ name)) := ih.filter _
    have hinsert := (ofWrites writes).ascending.insert_perm name value
    exact hentries.trans ((hothers.cons _).trans hinsert.symm)

theorem listing_iff_perm {entries : List (String × Binary64)} :
    Listing writes entries ↔ entries.Perm (ofWrites writes).bindings := by
  refine ⟨Listing.perm, fun h => ?_⟩
  induction writes using List.reverseRecOn generalizing entries with
  | nil => exact h.eq_nil ▸ .empty
  | append_singleton writes write ih =>
    rw [ofWrites_append_singleton] at h
    exact .write (ih (.refl _)) (h.trans ((ofWrites writes).ascending.insert_perm _ _))

/-- Entries in the order of the bytes of their names. -/
def sortedByName (entries : List (String × Binary64)) : List (String × Binary64) :=
  entries.mergeSort fun a b => decide (bytesOf a.1.toList ≤ bytesOf b.1.toList)

theorem pairwise_sortedByName (entries : List (String × Binary64)) :
    (sortedByName entries).Pairwise fun a b => a.1 ≤ b.1 := by
  refine (List.pairwise_mergeSort (fun a b c hab hbc => ?_) (fun a b => ?_) entries).imp fun h => ?_
  · rw [decide_eq_true_iff, bytesOf_le_iff] at hab hbc ⊢
    exact String.le_trans hab hbc
  · rw [Bool.or_eq_true, decide_eq_true_iff, decide_eq_true_iff, bytesOf_le_iff, bytesOf_le_iff]
    exact String.le_total a.1 b.1
  · exact bytesOf_le_iff.1 (of_decide_eq_true h)

/-- **Whatever the order of the table, its entries by name are the bindings.** -/
theorem sortedByName_eq {entries : List (String × Binary64)} (h : Listing writes entries) :
    sortedByName entries = (ofWrites writes).bindings :=
  (ofWrites writes).ascending.eq_of_perm ((List.mergeSort_perm _ _).trans h.perm)
    (pairwise_sortedByName entries)

/-- **The last write wins.** Each write gives back what was written to the name before, and what is
found afterwards is the map of the last writes. The bindings list that map: strictly ascending by
name, each name that was written to once, with its last value. A table may keep its entries in any
order, and all give the same list. It is the same for writes that end with the same values, such as
those to different names in another order. -/
theorem last_write_wins (writes : List (String × Binary64)) :
    (empty.exchangeAll writes).1 =
      (writes.mapIdx fun i write => lastWrite? (writes.take i) write.1) ∧
    (∀ name, (ofWrites writes).get? name = lastWrite? writes name ∧
      (ofWrites writes).contains name = (lastWrite? writes name).isSome) ∧
    (ofWrites writes).size = (writes.map Prod.fst).toFinset.card ∧
    (ofWrites writes).isEmpty = writes.isEmpty ∧
    (ofWrites writes).bindings.Pairwise (fun a b => a.1 < b.1) ∧
    (∀ name, (ofWrites writes).bindings.filter (·.1 = name) =
      ((lastWrite? writes name).map fun value => (name, value)).toList) ∧
    (∀ entries, Listing writes entries ↔ entries.Perm (ofWrites writes).bindings) ∧
    (∀ entries, Listing writes entries → sortedByName entries = (ofWrites writes).bindings) ∧
    (∀ writes', (ofWrites writes').bindings = (ofWrites writes).bindings ↔
      ∀ name, lastWrite? writes' name = lastWrite? writes name) ∧
    (∀ before a b after, writes = before ++ a :: b :: after → a.1 ≠ b.1 →
      (ofWrites (before ++ b :: a :: after)).bindings = (ofWrites writes).bindings) ∧
    ∀ writes' : List (String × Binary64), writes'.Perm writes → (writes.map Prod.fst).Nodup →
      (ofWrites writes').bindings = (ofWrites writes).bindings := by
  refine ⟨olds_exchangeAll writes,
    fun name => ⟨get?_ofWrites writes name, contains_ofWrites writes name⟩,
    size_ofWrites writes, isEmpty_ofWrites writes, (ofWrites writes).ascending, fun name => ?_,
    fun entries => listing_iff_perm, fun entries h => sortedByName_eq h,
    fun writes' => bindings_eq_iff, ?_, fun writes' hperm hnodup => ?_⟩
  · rw [Bindings.filter_eq (ofWrites writes).ascending, ← get?_ofWrites, get?]
  · rintro before a b after rfl hne
    exact bindings_eq_iff.2 (congrFun (lastWrite?_swap hne before after))
  · exact bindings_eq_iff.2 (congrFun (lastWrite?_perm hperm hnodup))

end Environment

end RpnTape
