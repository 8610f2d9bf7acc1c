import Mathlib.Order.Filter.AtTopBot.Basic
import RpnTape.Proofs.Json.Grammar

/-!
# Proofs/Json/Reader — a JSON text stands for one value

`readValue` takes a JSON text apart by looking at one character at a time. It trusts the text: the
only question is which of its parts stands where. On every text of the grammar it finds the value
that the text stands for, provided it may call itself often enough (`eventually_readValue`), and
since it is a function, **no text stands for two values** (`Denotes.unique`).
-/

namespace RpnTape

namespace Json

open Filter

/-! ## Space -/

/-- What stands behind the space. -/
def skip (cs : List Char) : List Char := cs.dropWhile isSpace

theorem skip_of_skips {cs rest : List Char} (h : Skips cs rest)
    (hrest : ∀ c ∈ rest.head?, isSpace c = false) : skip cs = rest := by
  obtain ⟨space, hspace, rfl⟩ := h
  rw [skip, List.dropWhile_append_of_pos hspace]
  cases rest with
  | nil => rfl
  | cons c rest => exact List.dropWhile_cons_of_neg (Bool.not_eq_true _ ▸ hrest c rfl)

theorem skip_of_skips_cons {cs rest : List Char} {c : Char} (h : Skips cs (c :: rest))
    (hc : isSpace c = false) : skip cs = c :: rest :=
  skip_of_skips h fun _ hc' => Option.some.inj hc' ▸ hc

/-! ## Numbers -/

/-- Can the character stand in a number? -/
def isNumberChar (c : Char) : Bool := c.isDigit || ['-', '+', '.', 'e', 'E'].contains c

/-- Does a number end here? -/
def EndsNumber (rest : List Char) : Prop := ∀ c ∈ rest.head?, isNumberChar c = false

theorem isNumberChar_of_isSpace {c : Char} (h : isSpace c = true) : isNumberChar c = false := by
  have hmem : c ∈ [' ', '\t', '\n', '\r'] := List.contains_iff_mem.1 h
  have hspaces : [' ', '\t', '\n', '\r'].any isNumberChar = false := by decide
  exact Bool.eq_false_iff.2 (List.any_eq_false.1 hspaces c hmem)

theorem endsNumber_of_skips {cs rest : List Char} (h : Skips cs rest) (hrest : EndsNumber rest) :
    EndsNumber cs := by
  obtain ⟨space, hspace, rfl⟩ := h
  cases space with
  | nil => exact hrest
  | cons c space =>
    intro c' hc'
    obtain rfl : c = c' := Option.some.inj hc'
    exact isNumberChar_of_isSpace (hspace c List.mem_cons_self)

theorem isNumberChar_of_isDigit {c : Char} (h : c.isDigit = true) : isNumberChar c = true := by
  rw [isNumberChar, h, Bool.true_or]

theorem isNumberChar_of_strict {text : List Char} {x : ℚ} (h : Numeral.Strict text x) :
    ∀ c ∈ text, isNumberChar c = true := by
  obtain ⟨hwhole, hpoint, -, hmark⟩ := h
  refine List.forall_mem_append.2 ⟨fun c hc => isNumberChar_of_isDigit (hwhole.1 c hc), ?_⟩
  refine List.forall_mem_append.2 ⟨?_, ?_⟩
  · cases hpoint with
    | none => exact List.forall_mem_nil _
    | point hdigits =>
      exact List.forall_mem_cons.2 ⟨by decide, fun c hc => isNumberChar_of_isDigit (hdigits c hc)⟩
  · cases hmark with
    | none => exact List.forall_mem_nil _
    | marked hmark hsign hdigits _ =>
      refine List.forall_mem_cons.2 ⟨by rcases hmark with rfl | rfl <;> decide, ?_⟩
      refine List.forall_mem_append.2 ⟨?_, fun c hc => isNumberChar_of_isDigit (hdigits c hc)⟩
      cases hsign with
      | none => exact List.forall_mem_nil _
      | plus => exact List.forall_mem_singleton.2 (by decide)
      | minus => exact List.forall_mem_singleton.2 (by decide)

namespace IsNumber

variable {text : List Char}

theorem ne_nil (h : IsNumber text) : text ≠ [] := by
  cases h with
  | plain h =>
    obtain ⟨hwhole, -, -, -⟩ := h
    exact List.append_ne_nil_of_left_ne_nil hwhole.ne_nil _
  | negative => exact List.cons_ne_nil _ _

theorem isNumberChar_of_mem (h : IsNumber text) : ∀ c ∈ text, isNumberChar c = true := by
  cases h with
  | plain h => exact isNumberChar_of_strict h
  | negative h => exact List.forall_mem_cons.2 ⟨by decide, isNumberChar_of_strict h⟩

end IsNumber

/-! ## Strings -/

/-- Reads the code behind a backslash and a `u`, with its second half if it needs one. -/
def readCode : List Char → Option (Char × List Char)
  | a :: b :: c :: d :: rest => do
    let n ← code? a b c d
    if isHighHalf n then
      match rest with
      | _ :: _ :: a' :: b' :: c' :: d' :: rest => do
        let n' ← code? a' b' c' d'
        return (Char.ofNat (0x10000 + (n - 0xD800) * 0x400 + (n' - 0xDC00)), rest)
      | _ => none
    else return (Char.ofNat n, rest)
  | _ => none

/-- Reads one character of a string. -/
def readChar : List Char → Option (Char × List Char)
  | [] => none
  | c :: cs =>
    if c = '\\' then
      match cs with
      | [] => none
      | e :: rest => if e = 'u' then readCode rest else (escapes.lookup e).map (·, rest)
    else some (c, cs)

/-- Reads a string up to its closing quote. -/
def readChars : ℕ → List Char → Option (List Char × List Char)
  | 0, _ => none
  | fuel + 1, cs =>
    if cs.head? = some '"' then some ([], cs.tail)
    else do
      let (c, rest) ← readChar cs
      let (ds, rest) ← readChars fuel rest
      return (c :: ds, rest)

theorem lookup_of_mem_escapes :
    ∀ p ∈ escapes, p.1 ≠ 'u' ∧ escapes.lookup p.1 = some p.2 := by decide

theorem readChar_append {text : List Char} {c : Char} (h : CharOf text c) (rest : List Char) :
    readChar (text ++ rest) = some (c, rest) ∧ (text ++ rest).head? ≠ some '"' := by
  cases h with
  | plain _ hquote hbackslash =>
    exact ⟨if_neg hbackslash, fun h => hquote (Option.some.inj h)⟩
  | letter h =>
    obtain ⟨hu, hlookup⟩ := lookup_of_mem_escapes _ h
    refine ⟨?_, by simp⟩
    simp only [List.cons_append, List.nil_append, readChar, if_true, if_neg hu, hlookup,
      Option.map_some]
  | code hcode hhigh _ =>
    refine ⟨?_, by simp⟩
    simp [readChar, readCode, hcode, hhigh]
  | pair hcode hhigh hcode' _ =>
    refine ⟨?_, by simp⟩
    simp [readChar, readCode, hcode, hhigh, hcode']

/-- What holds of all sufficiently large successors holds of all sufficiently large numbers. -/
theorem eventually_of_succ {p : ℕ → Prop} (h : ∀ᶠ n in atTop, p (n + 1)) : ∀ᶠ n in atTop, p n := by
  rwa [← map_add_atTop_eq_nat 1, eventually_map]

theorem eventually_readChars {cs ds rest : List Char} (h : Chars cs ds rest) :
    ∀ᶠ fuel in atTop, readChars fuel cs = some (ds, rest) := by
  induction h with
  | close => exact eventually_of_succ (Eventually.of_forall fun _ => rfl)
  | next hc _ ih =>
    refine eventually_of_succ (ih.mono fun fuel ih => ?_)
    obtain ⟨hread, hquote⟩ := readChar_append hc _
    rw [readChars, if_neg hquote, hread]
    simp only [Option.bind_eq_bind, Option.bind_some, ih]
    rfl

/-! ## Values -/

/-- Reads the name of a field, up to its value. -/
def readKey (fuel : ℕ) (cs : List Char) : Option (String × List Char) := do
  let (text, rest) ← readChars fuel (skip cs).tail
  return (String.ofList text, skip (skip rest).tail)

mutual

/-- Reads a value at the start of a text. -/
def readValue : ℕ → List Char → Option (Value × List Char)
  | 0, _ => none
  | _ + 1, [] => none
  | fuel + 1, c :: cs =>
    if c = '"' then (readChars fuel cs).map fun (text, rest) => (.string (String.ofList text), rest)
    else if c = '[' then
      if (skip cs).head? = some ']' then some (.array [], (skip cs).tail)
      else (readItems fuel cs).map fun (items, rest) => (.array items, rest)
    else if c = '\x7b' then
      if (skip cs).head? = some '\x7d' then some (.object [], (skip cs).tail)
      else (readFields fuel cs).map fun (fields, rest) => (.object fields, rest)
    else if c = 'n' then some (.null, cs.drop 3)
    else if c = 't' then some (.boolean true, cs.drop 3)
    else if c = 'f' then some (.boolean false, cs.drop 4)
    else some (.number ((c :: cs).takeWhile isNumberChar), (c :: cs).dropWhile isNumberChar)

/-- Reads the items of an array, up to its closing bracket. -/
def readItems : ℕ → List Char → Option (List Value × List Char)
  | 0, _ => none
  | fuel + 1, cs => do
    let (v, rest) ← readValue fuel (skip cs)
    if (skip rest).head? = some ',' then
      let (vs, rest) ← readItems fuel (skip rest).tail
      return (v :: vs, rest)
    else return ([v], (skip rest).tail)

/-- Reads the fields of an object, up to its closing brace. -/
def readFields : ℕ → List Char → Option (List (String × Value) × List Char)
  | 0, _ => none
  | fuel + 1, cs => do
    let (key, rest) ← readKey fuel cs
    let (v, rest) ← readValue fuel rest
    if (skip rest).head? = some ',' then
      let (fields, rest) ← readFields fuel (skip rest).tail
      return ((key, v) :: fields, rest)
    else return ([(key, v)], (skip rest).tail)

end

/-- A value begins with neither space nor a closing bracket. -/
theorem Reads.exists_head {cs rest : List Char} {v : Value} (h : Reads cs v rest) :
    ∃ c ds, cs = c :: ds ∧ isSpace c = false ∧ c ≠ ']' := by
  cases h with
  | null => exact ⟨'n', _, rfl, by decide, by decide⟩
  | @boolean b => cases b <;> exact ⟨_, _, rfl, by decide, by decide⟩
  | number h =>
    obtain ⟨c, text, rfl⟩ := List.exists_cons_of_ne_nil h.ne_nil
    have hc := h.isNumberChar_of_mem c List.mem_cons_self
    refine ⟨c, _, rfl, ?_, fun h => absurd hc (h ▸ by decide)⟩
    rw [← Bool.not_eq_true]
    exact fun hspace => absurd hc (isNumberChar_of_isSpace hspace ▸ Bool.false_ne_true)
  | string => exact ⟨'"', _, rfl, by decide, by decide⟩
  | noItems | array => exact ⟨'[', _, rfl, by decide, by decide⟩
  | noFields | object => exact ⟨'\x7b', _, rfl, by decide, by decide⟩

theorem skip_of_reads {cs ds rest : List Char} {v : Value} (hskips : Skips cs ds)
    (h : Reads ds v rest) : skip cs = ds := by
  obtain ⟨c, ds, rfl, hc, -⟩ := h.exists_head
  exact skip_of_skips_cons hskips hc

theorem Items.head?_ne {cs rest : List Char} {vs : List Value} (h : Items cs vs rest) :
    (skip cs).head? ≠ some ']' := by
  cases h with
  | last hbefore h | more hbefore h =>
    obtain ⟨c, ds, rfl, -, hc⟩ := h.exists_head
    rw [skip_of_reads hbefore h]
    exact fun heq => hc (Option.some.inj heq)

theorem Fields.head?_ne {cs rest : List Char} {fields : List (String × Value)}
    (h : Fields cs fields rest) : (skip cs).head? ≠ some '\x7d' := by
  cases h with
  | last hkey | more hkey =>
    obtain ⟨hbefore, -, -, -⟩ := hkey
    rw [skip_of_skips_cons hbefore (by decide)]
    exact fun heq => absurd (Option.some.inj heq) (by decide)

theorem readKey_of_key {cs rest : List Char} {key : String} (h : Key cs key rest)
    (hrest : ∀ c ∈ rest.head?, isSpace c = false) :
    ∀ᶠ fuel in atTop, readKey fuel cs = some (key, rest) := by
  obtain ⟨hbefore, htext, hcolon, hafter⟩ := h
  filter_upwards [eventually_readChars htext] with fuel hread
  rw [readKey, skip_of_skips_cons hbefore (by decide), List.tail_cons, hread]
  simp only [Option.bind_eq_bind, Option.bind_some,
    skip_of_skips_cons hcolon (by decide : isSpace ':' = false), List.tail_cons,
    skip_of_skips hafter hrest]
  rfl

theorem readValue_number {text rest : List Char} (h : IsNumber text) (hrest : EndsNumber rest)
    (fuel : ℕ) : readValue (fuel + 1) (text ++ rest) = some (.number text, rest) := by
  have hchars := h.isNumberChar_of_mem
  obtain ⟨c, cs, rfl⟩ := List.exists_cons_of_ne_nil h.ne_nil
  have hother : ∀ d, isNumberChar d = false → c ≠ d := by
    rintro d hd rfl
    exact absurd (hchars c List.mem_cons_self) (hd ▸ Bool.false_ne_true)
  rw [List.cons_append, readValue, if_neg (hother _ (by decide)), if_neg (hother _ (by decide)),
    if_neg (hother _ (by decide)), if_neg (hother _ (by decide)), if_neg (hother _ (by decide)),
    if_neg (hother _ (by decide)), ← List.cons_append, List.takeWhile_append_of_pos hchars,
    List.dropWhile_append_of_pos hchars]
  cases rest with
  | nil => simp
  | cons d rest =>
    have hd : ¬isNumberChar d = true := hrest d rfl ▸ Bool.false_ne_true
    rw [List.takeWhile_cons_of_neg hd, List.dropWhile_cons_of_neg hd, List.append_nil]

theorem endsNumber_cons {c : Char} (h : isNumberChar c = false) (rest : List Char) :
    EndsNumber (c :: rest) :=
  fun _ hc => Option.some.inj hc ▸ h

theorem not_isSpace_head {cs rest : List Char} {v : Value} (h : Reads cs v rest) :
    ∀ c ∈ cs.head?, isSpace c = false := by
  obtain ⟨c, cs, rfl, hc, -⟩ := h.exists_head
  exact fun _ hc' => Option.some.inj hc' ▸ hc

mutual

/-- **On a text of the grammar, the reader finds the value**, if it may call itself often enough. -/
theorem eventually_readValue : ∀ {cs : List Char} {v : Value} {rest : List Char}, Reads cs v rest →
    EndsNumber rest → ∀ᶠ fuel in atTop, readValue fuel cs = some (v, rest)
  | _, _, _, .null, _ => eventually_of_succ (.of_forall fun _ => rfl)
  | _, _, _, .boolean (b := b), _ => by
    cases b <;> exact eventually_of_succ (.of_forall fun _ => rfl)
  | _, _, _, .number h, hrest => eventually_of_succ (.of_forall (readValue_number h hrest))
  | _, _, _, .string h, _ => by
    refine eventually_of_succ ?_
    filter_upwards [eventually_readChars h] with fuel hread
    rw [readValue, if_pos rfl, hread]
    rfl
  | _, _, _, .noItems h, _ => by
    refine eventually_of_succ (.of_forall fun fuel => ?_)
    have hskip := skip_of_skips_cons h (by decide)
    rw [readValue, if_neg (by decide), if_pos rfl, hskip]
    exact if_pos rfl
  | _, _, _, .array h, _ => by
    refine eventually_of_succ ?_
    filter_upwards [eventually_readItems h] with fuel hread
    rw [readValue, if_neg (by decide), if_pos rfl, if_neg h.head?_ne, hread]
    rfl
  | _, _, _, .noFields h, _ => by
    refine eventually_of_succ (.of_forall fun fuel => ?_)
    have hskip := skip_of_skips_cons h (by decide)
    rw [readValue, if_neg (by decide), if_neg (by decide), if_pos rfl, hskip]
    exact if_pos rfl
  | _, _, _, .object h, _ => by
    refine eventually_of_succ ?_
    filter_upwards [eventually_readFields h] with fuel hread
    rw [readValue, if_neg (by decide), if_neg (by decide), if_pos rfl, if_neg h.head?_ne, hread]
    rfl

theorem eventually_readItems :
    ∀ {cs : List Char} {vs : List Value} {rest : List Char}, Items cs vs rest →
      ∀ᶠ fuel in atTop, readItems fuel cs = some (vs, rest)
  | _, _, _, .last hbefore h hafter => by
    -- only a number could be read too far, and none goes on behind space, a comma or a bracket
    have hends := endsNumber_of_skips hafter (endsNumber_cons (by decide) _)
    refine eventually_of_succ ?_
    filter_upwards [eventually_readValue h hends] with fuel hread
    rw [readItems, skip_of_reads hbefore h, hread]
    simp [skip_of_skips_cons hafter (by decide)]
  | _, _, _, .more hbefore h hafter hrest => by
    have hends := endsNumber_of_skips hafter (endsNumber_cons (by decide) _)
    refine eventually_of_succ ?_
    filter_upwards [eventually_readValue h hends, eventually_readItems hrest]
      with fuel hread hreadRest
    rw [readItems, skip_of_reads hbefore h, hread]
    simp [skip_of_skips_cons hafter (by decide), hreadRest]

theorem eventually_readFields :
    ∀ {cs : List Char} {fields : List (String × Value)} {rest : List Char},
      Fields cs fields rest → ∀ᶠ fuel in atTop, readFields fuel cs = some (fields, rest)
  | _, _, _, .last hkey h hafter => by
    have hends := endsNumber_of_skips hafter (endsNumber_cons (by decide) _)
    refine eventually_of_succ ?_
    filter_upwards [readKey_of_key hkey (not_isSpace_head h), eventually_readValue h hends]
      with fuel hname hread
    rw [readFields, hname]
    simp [hread, skip_of_skips_cons hafter (by decide)]
  | _, _, _, .more hkey h hafter hrest => by
    have hends := endsNumber_of_skips hafter (endsNumber_cons (by decide) _)
    refine eventually_of_succ ?_
    filter_upwards [readKey_of_key hkey (not_isSpace_head h), eventually_readValue h hends,
      eventually_readFields hrest] with fuel hname hread hreadRest
    rw [readFields, hname]
    simp [hread, skip_of_skips_cons hafter (by decide), hreadRest]

end

/-- **A text stands for one value.** -/
theorem Denotes.unique {text : String} {v v' : Value} (h : Denotes text v) (h' : Denotes text v') :
    v = v' := by
  obtain ⟨cs, rest, hskips, hreads, hrest⟩ := h
  obtain ⟨cs', rest', hskips', hreads', hrest'⟩ := h'
  obtain rfl : cs = cs' := (skip_of_reads hskips hreads).symm.trans (skip_of_reads hskips' hreads')
  have hends : EndsNumber [] := fun _ hc => by cases hc
  have hread := eventually_readValue hreads (endsNumber_of_skips hrest hends)
  have hread' := eventually_readValue hreads' (endsNumber_of_skips hrest' hends)
  obtain ⟨fuel, hfuel, hfuel'⟩ := (hread.and hread').exists
  exact (Prod.mk.inj (Option.some.inj (hfuel.symm.trans hfuel'))).1

end Json

end RpnTape
