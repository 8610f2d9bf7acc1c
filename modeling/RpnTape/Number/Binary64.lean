import RpnTape.Number.Rounding

/-!
# Number/Binary64 — double-precision numbers as sign and magnitude

A number is a sign and the 63 bits of its magnitude pattern. Keeping the two apart makes the sign a
matter of fields: negation, absolute value and "below zero" never look at the digits, and the order
of finite magnitudes is the order of their patterns.

Arithmetic that the processor provides is taken from `Float`; the remainder, which it does not
provide, is exact in units.
-/

namespace RpnTape

/-- A double-precision number: its sign and the bit pattern of its magnitude. -/
structure Binary64 where
  /-- Is the sign bit set? -/
  negative : Bool
  /-- The low 63 bits: exponent and fraction. -/
  pattern : Nat
  pattern_lt : pattern < 0x8000000000000000
  deriving DecidableEq

namespace Binary64

/-! ## Bit patterns -/

/-- The number with the given 64 bits. -/
def ofBits (bits : UInt64) : Binary64 where
  negative := 0x8000000000000000 ≤ bits.toNat
  pattern := bits.toNat % 0x8000000000000000
  pattern_lt := Nat.mod_lt _ (by decide)

/-- The 64 bits of the number. -/
def toBits (v : Binary64) : UInt64 :=
  UInt64.ofNat (if v.negative then 0x8000000000000000 + v.pattern else v.pattern)

theorem toNat_toBits (v : Binary64) :
    v.toBits.toNat = if v.negative then 0x8000000000000000 + v.pattern else v.pattern := by
  have hlt := v.pattern_lt
  rw [toBits, UInt64.toNat_ofNat', Nat.mod_eq_of_lt]
  split <;> omega

/-- **The 64 bits determine the number** and are determined by it. -/
@[simp] theorem ofBits_toBits (v : Binary64) : ofBits v.toBits = v := by
  obtain ⟨negative, pattern, h⟩ := v
  simp only [ofBits, toNat_toBits, mk.injEq]
  cases negative
  · simp only [Bool.false_eq_true, if_false, decide_eq_false_iff_not]; omega
  · simp only [if_true, decide_eq_true_eq]; omega

/-! ## Zero, infinity and what is not a number -/

/-- Positive zero. -/
def zero : Binary64 := ⟨false, 0, by decide⟩

/-- Positive infinity. -/
def infinity : Binary64 := ⟨false, infinitePattern, by decide⟩

/-- The pattern of the first quiet not-a-number; the signalling ones lie between infinity and it. -/
def quietPattern : Nat := 0x7FF8000000000000

/-- The quiet not-a-number with an empty payload. -/
def nan : Binary64 := ⟨false, quietPattern, by decide⟩

instance : Inhabited Binary64 := ⟨zero⟩

/-- Not a number: a pattern beyond infinity. -/
def isNaN (v : Binary64) : Bool := infinitePattern < v.pattern

/-- A not-a-number that no operation passes over in silence. -/
def isSignalling (v : Binary64) : Bool := v.isNaN && v.pattern < quietPattern

/-- Infinite, of either sign. -/
def isInfinite (v : Binary64) : Bool := v.pattern = infinitePattern

/-- Neither infinite nor not-a-number. -/
def isFinite (v : Binary64) : Bool := v.pattern < infinitePattern

/-- Zero, of either sign. -/
def isZero (v : Binary64) : Bool := v.pattern = 0

/-- Strictly less than zero. The negative zero is not, and neither is a not-a-number. -/
def isBelowZero (v : Binary64) : Bool := v.negative && !v.isZero && !v.isNaN

/-- The number with the given sign and the magnitude of `v`. -/
def withSign (negative : Bool) (v : Binary64) : Binary64 := { v with negative }

/-- The number with its sign turned over. -/
def neg (v : Binary64) : Binary64 := v.withSign (!v.negative)

/-- The number without its sign. -/
def abs (v : Binary64) : Binary64 := v.withSign false

instance : Neg Binary64 := ⟨neg⟩

/-! ## Units -/

/-- The magnitude of a finite number, in units. -/
def units (v : Binary64) : Nat := patternUnits v.pattern

/-- The number nearest to `± a / b` units. -/
def ofUnits (negative : Bool) (a b : Nat) : Binary64 where
  negative
  pattern := roundUnits a b
  pattern_lt := Nat.lt_of_le_of_lt (roundUnits_le a b) (by decide)

/-! ## Arithmetic -/

/-- The same number as a machine float. -/
def toFloat (v : Binary64) : Float := Float.ofBits v.toBits

/-- The number a machine float holds. -/
def ofFloat (x : Float) : Binary64 := ofBits x.toBits

/-- Lifts a function of machine floats. -/
def lift (f : Float → Float) (a : Binary64) : Binary64 := ofFloat (f a.toFloat)

/-- Lifts a function of two machine floats. -/
def lift₂ (f : Float → Float → Float) (a b : Binary64) : Binary64 := ofFloat (f a.toFloat b.toFloat)

instance : Add Binary64 := ⟨lift₂ (· + ·)⟩
instance : Sub Binary64 := ⟨lift₂ (· - ·)⟩
instance : Mul Binary64 := ⟨lift₂ (· * ·)⟩
instance : Div Binary64 := ⟨lift₂ (· / ·)⟩

/-- What is left of `a` after taking away `b` as often as possible, without rounding. The result has
the sign of `a`, also when nothing is left. There is no remainder of an infinity or by zero; an
infinite divisor goes into no finite number. -/
def remainder (a b : Binary64) : Binary64 :=
  if a.isNaN || b.isNaN || a.isInfinite || b.isZero then nan
  else if b.isInfinite then a
  else ofUnits a.negative (a.units % b.units) 1

instance : Mod Binary64 := ⟨remainder⟩

/-- The power `a ^ b`. Anything to the power zero is one and one to any power is one, also where the
other operand is a quiet not-a-number; a signalling one is never overlooked. Machine floats hold
quiet ones only, so it is sorted out beforehand. -/
def power (a b : Binary64) : Binary64 :=
  if a.isSignalling || b.isSignalling then nan else lift₂ Float.pow a b

end Binary64

end RpnTape
