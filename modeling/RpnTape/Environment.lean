import RpnTape.Number.Binary64

/-!
# Environment — the variables and their latest values

Bindings are kept strictly ascending by name, in the order of code points, so each name is bound
once and equal contents are equal environments, whatever the order of the assignments was.
-/

namespace RpnTape

namespace Bindings

/-- The value bound to a name. -/
def get? (name : String) : List (String × Binary64) → Option Binary64
  | [] => none
  | (key, value) :: rest => if key = name then some value else get? name rest

/-- Binds a name at its place, in place of an older binding. -/
def insert (name : String) (value : Binary64) :
    List (String × Binary64) → List (String × Binary64)
  | [] => [(name, value)]
  | (key, old) :: rest =>
    if name < key then (name, value) :: (key, old) :: rest
    else if name = key then (name, value) :: rest
    else (key, old) :: insert name value rest

/-- Strictly ascending by name. -/
def Ascending (bindings : List (String × Binary64)) : Prop :=
  bindings.Pairwise fun a b => a.1 < b.1

theorem mem_of_mem_insert {name : String} {value : Binary64} {entry : String × Binary64} :
    ∀ {bindings : List (String × Binary64)}, entry ∈ insert name value bindings →
      entry = (name, value) ∨ entry ∈ bindings
  | [], h => by simpa [insert] using h
  | (key, old) :: rest, h => by
    unfold insert at h
    split at h
    · simpa using h
    split at h
    · rcases List.mem_cons.1 h with h | h
      · exact .inl h
      · exact .inr (List.mem_cons_of_mem _ h)
    · rcases List.mem_cons.1 h with h | h
      · exact .inr (h ▸ List.mem_cons_self)
      · exact (mem_of_mem_insert h).imp id (List.mem_cons_of_mem _)

/-- **Inserting keeps the order**: a new name goes before the first greater one. -/
theorem ascending_insert (name : String) (value : Binary64) :
    ∀ {bindings : List (String × Binary64)}, Ascending bindings →
      Ascending (insert name value bindings)
  | [], _ => List.pairwise_singleton _ _
  | (key, old) :: rest, h => by
    obtain ⟨hkey, hrest⟩ := List.pairwise_cons.1 h
    unfold insert
    split
    · rename_i hlt
      refine List.pairwise_cons.2 ⟨fun entry hentry => ?_, h⟩
      rcases List.mem_cons.1 hentry with rfl | hentry
      · exact hlt
      · exact String.lt_trans hlt (hkey entry hentry)
    split
    · rename_i heq
      exact List.pairwise_cons.2 ⟨fun entry hentry => heq ▸ hkey entry hentry, hrest⟩
    · rename_i hlt hne
      refine List.pairwise_cons.2 ⟨fun entry hentry => ?_, ascending_insert name value hrest⟩
      rcases mem_of_mem_insert hentry with rfl | hentry
      · exact String.not_le.1 fun hle => hne (String.le_antisymm hle (String.not_lt.1 hlt))
      · exact hkey entry hentry

/-- **The last binding of a name is the one that is found**, and no other name is touched. -/
theorem get?_insert (name other : String) (value : Binary64) :
    ∀ bindings : List (String × Binary64),
      get? other (insert name value bindings) =
        if name = other then some value else get? other bindings
  | [] => rfl
  | (key, old) :: rest => by
    unfold insert
    split
    · rfl
    split
    · rename_i heq
      subst heq
      unfold get?
      split <;> rfl
    · rename_i hne
      rw [get?, get?, get?_insert name other value rest]
      split
      · rename_i hkey
        rw [if_neg fun h => hne (h.trans hkey.symm)]
      · rfl

end Bindings

/-- The variables of a run and their values. -/
structure Environment where
  /-- The bindings, by name. -/
  bindings : List (String × Binary64)
  ascending : Bindings.Ascending bindings
  deriving DecidableEq

namespace Environment

/-- No variable is bound. -/
def empty : Environment := ⟨[], List.Pairwise.nil⟩

instance : Inhabited Environment := ⟨empty⟩

/-- The value of a variable. -/
def get? (env : Environment) (name : String) : Option Binary64 := Bindings.get? name env.bindings

/-- Is the variable bound? -/
def contains (env : Environment) (name : String) : Bool := (env.get? name).isSome

/-- Binds a variable; an older value of it is forgotten. -/
def assign (env : Environment) (name : String) (value : Binary64) : Environment :=
  ⟨Bindings.insert name value env.bindings, Bindings.ascending_insert name value env.ascending⟩

/-- Binds a variable and gives back the value it had. -/
def exchange (env : Environment) (name : String) (value : Binary64) :
    Option Binary64 × Environment :=
  (env.get? name, env.assign name value)

/-- How many variables are bound. -/
def size (env : Environment) : Nat := env.bindings.length

/-- Is no variable bound? -/
def isEmpty (env : Environment) : Bool := env.bindings.isEmpty

/-- Environments with the same bindings are the same. -/
@[ext] theorem ext {env env' : Environment} (h : env.bindings = env'.bindings) : env = env' := by
  obtain ⟨bindings, _⟩ := env
  obtain rfl : bindings = env'.bindings := h
  rfl

theorem get?_assign (env : Environment) (name other : String) (value : Binary64) :
    (env.assign name value).get? other = if name = other then some value else env.get? other :=
  Bindings.get?_insert name other value env.bindings

end Environment

end RpnTape
