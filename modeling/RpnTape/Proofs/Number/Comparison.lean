import Mathlib
import RpnTape.Number.Binary64

/-!
# Proofs/Number/Comparison — below zero is what the machine calls less than zero

`Binary64.isBelowZero` looks at the sign and the pattern. The machine compares otherwise: it takes
the 64 bits apart into sign, exponent and mantissa and compares what they stand for, in an order in
which the two zeros are equal and what is not a number is less than nothing. `Unpacks` matches what
bits can stand for with the kinds of numbers, and on all bit patterns **the two comparisons say the
same** (`toFloat_lt_zero_iff`).
-/

namespace RpnTape

namespace Binary64

open Float.Model (UnpackedFloat Format)
open Float.Model.UnpackedFloat (Sign unpackExponent unpackMantissa unpackSign)

variable {v : Binary64} {u : UnpackedFloat}

/-! ## Sign, exponent and mantissa -/

/-- The 64 bits as the machine takes them apart. -/
def packed (v : Binary64) : BitVec Format.binary64.numBits := v.toBits.toBitVec

/-- The sign as the machine names it. -/
def machineSign (v : Binary64) : Sign := if v.negative then .negative else .positive

theorem toNat_packed (v : Binary64) :
    v.packed.toNat = v.machineSign.toBitVec.toNat * 0x8000000000000000 + v.pattern := by
  have hbits : v.packed.toNat = v.toBits.toNat := rfl
  rw [hbits, toNat_toBits, machineSign]
  cases v.negative
  · exact (Nat.zero_add _).symm
  · rfl

theorem toNat_unpackExponent (v : Binary64) :
    (unpackExponent v.packed).toNat = v.pattern / binadeSize := by
  have hpattern := v.pattern_lt
  rw [unpackExponent, BitVec.toNat_cast, BitVec.extractLsb_toNat, Nat.shiftRight_eq_div_pow,
    toNat_packed]
  change _ / 0x10000000000000 % 0x800 = _ / 0x10000000000000
  omega

theorem toNat_unpackMantissa (v : Binary64) :
    (unpackMantissa v.packed).toNat = v.pattern % binadeSize := by
  rw [unpackMantissa, BitVec.toNat_cast, BitVec.extractLsb_toNat, Nat.shiftRight_zero, toNat_packed]
  change _ % 0x10000000000000 = _ % 0x10000000000000
  omega

theorem ofBitVec_unpackSign (v : Binary64) :
    Sign.ofBitVec (unpackSign v.packed) = v.machineSign := by
  have hbit : unpackSign v.packed = v.machineSign.toBitVec := by
    have hpattern := v.pattern_lt
    have hlt := v.machineSign.toBitVec.isLt
    apply BitVec.eq_of_toNat_eq
    rw [unpackSign, BitVec.toNat_cast, BitVec.extractLsb_toNat, Nat.shiftRight_eq_div_pow,
      toNat_packed]
    change _ / 0x8000000000000000 % 2 = _
    omega
  rw [hbit, Sign.ofBitVec_toBitVec]

/-! ## What the bits stand for -/

/-- **What the bits of a number stand for**, by the kind of the number. -/
inductive Unpacks (v : Binary64) : UnpackedFloat → Prop
  | zero (hpattern : v.pattern = 0) : Unpacks v (.zero v.machineSign)
  | finite {mantissa : ℕ} {exponent : ℤ} (hpos : 0 < mantissa) (hpattern : 0 < v.pattern)
    (hlt : v.pattern < infinitePattern) : Unpacks v (.finite v.machineSign mantissa exponent hpos)
  | infinite (hpattern : v.pattern = infinitePattern) : Unpacks v (.infinity v.machineSign)
  | nan (hpattern : infinitePattern < v.pattern) : Unpacks v .notANumber

theorem unpacks_packed (v : Binary64) : v.Unpacks (.unpack .binary64 v.packed) := by
  have hpattern := v.pattern_lt
  have hinfinite : infinitePattern = 0x7FF0000000000000 := rfl
  have hexponent : (unpackExponent v.packed).toNat = v.pattern / 0x10000000000000 :=
    v.toNat_unpackExponent
  have hmantissa : (unpackMantissa v.packed).toNat = v.pattern % 0x10000000000000 :=
    v.toNat_unpackMantissa
  simp only [UnpackedFloat.unpack, ofBitVec_unpackSign]
  split
  -- the last exponent is that of infinity and of what is not a number
  · rename_i hlast
    have hlast : (unpackExponent v.packed).toNat = 2047 := congrArg BitVec.toNat hlast
    split <;> rename_i hzero
    · have hzero : (unpackMantissa v.packed).toNat = 0 := congrArg BitVec.toNat hzero
      exact .infinite (by omega)
    · have hzero : (unpackMantissa v.packed).toNat ≠ 0 := fun h => hzero (BitVec.eq_of_toNat_eq h)
      exact .nan (by omega)
  rename_i hlast
  have hlast : (unpackExponent v.packed).toNat ≠ 2047 := fun h => hlast (BitVec.eq_of_toNat_eq h)
  split
  -- the first exponent is that of zero and of the numbers next to it
  · rename_i hfirst
    have hfirst : (unpackExponent v.packed).toNat = 0 := congrArg BitVec.toNat hfirst
    split <;> rename_i hzero
    · have hzero : (unpackMantissa v.packed).toNat = 0 := congrArg BitVec.toNat hzero
      exact .zero (by omega)
    · have hzero : (unpackMantissa v.packed).toNat ≠ 0 := fun h => hzero (BitVec.eq_of_toNat_eq h)
      exact .finite _ (by omega) (by omega)
  · rename_i hfirst
    have hfirst : (unpackExponent v.packed).toNat ≠ 0 := fun h => hfirst (BitVec.eq_of_toNat_eq h)
    exact .finite _ (by omega) (by omega)

theorem isBelowZero_of_pattern (hpos : 0 < v.pattern) (hle : v.pattern ≤ infinitePattern) :
    v.isBelowZero = v.negative := by
  have hzero : v.isZero = false := decide_eq_false hpos.ne'
  have hnan : v.isNaN = false := decide_eq_false (Nat.not_lt.2 hle)
  rw [isBelowZero, hzero, hnan, Bool.not_false, Bool.and_true, Bool.and_true]

/-- **The machine tells by the sign what is less than zero**, but for the zeros
and what is not a number. -/
theorem Unpacks.lt_zero (h : v.Unpacks u) : u.lt (.zero .positive) = v.isBelowZero := by
  cases h with
  | zero hpattern =>
    have hzero : v.isZero = true := decide_eq_true hpattern
    rw [isBelowZero, hzero, Bool.not_true, Bool.and_false, Bool.false_and]
    rfl
  | finite _ hpattern hlt =>
    rw [isBelowZero_of_pattern hpattern hlt.le, machineSign]
    cases v.negative <;> rfl
  | infinite hpattern =>
    have hpos : 0 < v.pattern := Nat.lt_of_lt_of_eq (by decide) hpattern.symm
    rw [isBelowZero_of_pattern hpos hpattern.le, machineSign]
    cases v.negative <;> rfl
  | nan hpattern =>
    have hnan : v.isNaN = true := decide_eq_true hpattern
    rw [isBelowZero, hnan, Bool.not_true, Bool.and_false]
    rfl

/-- A machine float stands for what the bits stand for that it is made from: all that it loses is
the payload of what is not a number. -/
theorem unpack_toFloat (v : Binary64) : v.toFloat.toModel.unpack = .unpack .binary64 v.packed := by
  have hrepacked : v.toFloat.toModel.unpack =
      .unpack .binary64 (UnpackedFloat.pack .binary64 (.unpack .binary64 v.packed)) := rfl
  rw [hrepacked, UnpackedFloat.pack_unpack]
  split
  · rename_i hnan
    obtain ⟨hexponent, hmantissa⟩ :
        unpackExponent v.packed = -1#_ ∧ unpackMantissa v.packed ≠ 0#_ := of_decide_eq_true hnan
    rw [UnpackedFloat.unpack_packedNaN, UnpackedFloat.unpack, if_pos hexponent, if_neg hmantissa]
  · rfl

/-- **A number is below zero where the machine calls it less than zero.** -/
theorem toFloat_lt_zero_iff (v : Binary64) : v.toFloat < 0 ↔ v.isBelowZero = true := by
  rw [← v.unpacks_packed.lt_zero, ← unpack_toFloat]
  exact decide_eq_true_iff

end Binary64

end RpnTape
