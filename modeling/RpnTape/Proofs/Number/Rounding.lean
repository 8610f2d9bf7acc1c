import Mathlib.Algebra.Order.Field.Rat
import Mathlib.Algebra.Order.Field.Power
import Mathlib.Order.Monotone.Basic
import Mathlib.Tactic.Linarith
import Mathlib.Tactic.NormNum
import Mathlib.Tactic.FieldSimp
import Mathlib.Tactic.Ring
import RpnTape.Number.Shortest

/-!
# Proofs/Number/Rounding — the magnitude nearest to a rational number

`IsNearest x pattern` says that no magnitude is nearer to `x` units than that of the pattern, and
that the pattern is even where another is just as near. The infinite magnitude takes part with the
value that the next binade would begin with, so that what lies halfway between it and the greatest
finite one is infinite. There is one nearest magnitude (`IsNearest.unique`).

The magnitudes grow with their patterns, and **neighbouring patterns lie one spacing apart**
(`patternUnits_eq`). So rounding has to look at two neighbours only, and it finds the nearest
(`roundUnits_isNearest`); reading a decimal does too, since its shortcuts are taken only where zero
or infinity is nearest (`Decimal.nearestPattern_isNearest`). What is read therefore depends on the
value of the decimal alone, and the shortest digits of a finite number read back.
-/

namespace RpnTape

/-! ## Patterns and their units -/

theorem binadeSize_pos : 0 < binadeSize := by decide

theorem patternUnits_of_lt {k : ℕ} (hk : k < binadeSize) : patternUnits k = k := by
  simp only [patternUnits, Nat.div_eq_of_lt hk, Nat.mod_eq_of_lt hk, if_true]

theorem patternUnits_succ_mul_add (s : ℕ) {k : ℕ} (hk : k < binadeSize) :
    patternUnits ((s + 1) * binadeSize + k) = (binadeSize + k) * 2 ^ s := by
  have hdiv : ((s + 1) * binadeSize + k) / binadeSize = s + 1 := by
    rw [Nat.add_comm, Nat.add_mul_div_right _ _ binadeSize_pos, Nat.div_eq_of_lt hk, Nat.zero_add]
  have hmod : ((s + 1) * binadeSize + k) % binadeSize = k := by
    rw [Nat.mul_comm, Nat.mul_add_mod, Nat.mod_eq_of_lt hk]
  simp only [patternUnits, hdiv, hmod, Nat.succ_ne_zero, if_false, Nat.add_sub_cancel,
    Nat.shiftLeft_eq]

theorem patternUnits_succ_mul (s : ℕ) :
    patternUnits ((s + 1) * binadeSize) = binadeSize * 2 ^ s := by
  rw [← Nat.add_zero (_ * _), patternUnits_succ_mul_add s binadeSize_pos, Nat.add_zero binadeSize]

/-- **A pattern counts spacings**: `m` of them, each of `2ˢ` units, where `m` may
carry into the next binade. -/
theorem patternUnits_eq {s m : ℕ} (hm : m ≤ 2 * binadeSize) (h : s = 0 ∨ binadeSize ≤ m) :
    patternUnits (s * binadeSize + m) = m * 2 ^ s := by
  rcases Nat.lt_or_ge m binadeSize with hlt | hge
  · obtain rfl : s = 0 := h.resolve_right (Nat.not_le.2 hlt)
    rw [Nat.zero_mul, Nat.zero_add, patternUnits_of_lt hlt, Nat.pow_zero, Nat.mul_one]
  obtain ⟨k, rfl⟩ := Nat.exists_eq_add_of_le hge
  rcases Nat.lt_or_ge k binadeSize with hk | hk
  · rw [← Nat.add_assoc, ← Nat.succ_mul, Nat.succ_eq_add_one, patternUnits_succ_mul_add s hk]
  · obtain rfl : k = binadeSize := by omega
    rw [show s * binadeSize + (binadeSize + binadeSize) = (s + 1 + 1) * binadeSize by ring,
      patternUnits_succ_mul]
    ring

/-- Every pattern counts spacings. -/
theorem exists_spacing (pattern : ℕ) :
    ∃ s m, pattern = s * binadeSize + m ∧ m < 2 * binadeSize ∧ (s = 0 ∨ binadeSize ≤ m) := by
  rcases Nat.lt_or_ge pattern binadeSize with hlt | hge
  · exact ⟨0, pattern, by rw [Nat.zero_mul, Nat.zero_add], by omega, .inl rfl⟩
  · have hmod := Nat.mod_lt pattern binadeSize_pos
    have hdiv : 1 ≤ pattern / binadeSize := (Nat.one_le_div_iff binadeSize_pos).2 hge
    refine ⟨pattern / binadeSize - 1, binadeSize + pattern % binadeSize, ?_, by omega,
      .inr (by omega)⟩
    obtain ⟨n, hn⟩ := Nat.exists_eq_add_of_le hdiv
    have hsplit := Nat.div_add_mod pattern binadeSize
    rw [hn] at hsplit ⊢
    rw [Nat.add_sub_cancel_left, ← Nat.add_assoc]
    linarith [hsplit]

theorem patternUnits_strictMono : StrictMono patternUnits := by
  refine strictMono_nat_of_lt_succ fun pattern => ?_
  obtain ⟨s, m, rfl, hm, hs⟩ := exists_spacing pattern
  rw [patternUnits_eq (by omega) hs, Nat.add_assoc, patternUnits_eq (by omega) (by omega)]
  exact Nat.mul_lt_mul_of_pos_right (Nat.lt_succ_self m) (Nat.two_pow_pos s)

theorem patternUnits_zero : patternUnits 0 = 0 := by decide

theorem patternUnits_one : patternUnits 1 = 1 := by decide

theorem unitsPerOne_eq : unitsPerOne = 2 ^ 1074 := by rw [unitsPerOne, Nat.one_shiftLeft]

/-- Infinity takes part as `2¹⁰²⁴`. -/
theorem patternUnits_infinitePattern : patternUnits infinitePattern = 2 ^ 1024 * unitsPerOne := by
  rw [show infinitePattern = (2046 + 1) * binadeSize by decide, patternUnits_succ_mul,
    show binadeSize = 2 ^ 52 by decide, unitsPerOne_eq, ← Nat.pow_add, ← Nat.pow_add 2 1024]

/-! ## The nearest magnitude -/

/-- Is the magnitude of the pattern the nearest to `x` units? Of two that are equally near it is the
one with the even pattern. -/
structure IsNearest (x : ℚ) (pattern : ℕ) : Prop where
  le_infinite : pattern ≤ infinitePattern
  nearest : ∀ other ≤ infinitePattern, |x - patternUnits pattern| ≤ |x - patternUnits other|
  even_of_tie : ∀ other ≤ infinitePattern, other ≠ pattern →
    |x - patternUnits pattern| = |x - patternUnits other| → pattern % 2 = 0

section Distance

variable {x a b : ℚ}

theorem abs_sub_le_abs_sub_iff_add_le (hab : a < b) : |x - b| ≤ |x - a| ↔ a + b ≤ 2 * x := by
  rw [← sq_le_sq]
  constructor <;> intro h <;> nlinarith

theorem abs_sub_le_abs_sub_iff_le_add (hab : a < b) : |x - a| ≤ |x - b| ↔ 2 * x ≤ a + b := by
  rw [← sq_le_sq]
  constructor <;> intro h <;> nlinarith

theorem abs_sub_eq_abs_sub_iff (hab : a < b) : |x - a| = |x - b| ↔ a + b = 2 * x := by
  rw [le_antisymm_iff, abs_sub_le_abs_sub_iff_le_add hab, abs_sub_le_abs_sub_iff_add_le hab,
    and_comm, ← le_antisymm_iff]

end Distance

namespace IsNearest

variable {x : ℚ} {pattern : ℕ}

theorem patternUnits_lt {p q : ℕ} (h : p < q) : (patternUnits p : ℚ) < patternUnits q :=
  Nat.cast_lt.2 (patternUnits_strictMono h)

theorem patternUnits_le {p q : ℕ} (h : p ≤ q) : (patternUnits p : ℚ) ≤ patternUnits q :=
  Nat.cast_le.2 (patternUnits_strictMono.monotone h)

/-- A pattern is nearest if `x` lies between the points halfway to the others. -/
theorem of_halfway (hle : pattern ≤ infinitePattern)
    (hlower : ∀ other < pattern, (patternUnits other + patternUnits pattern : ℚ) ≤ 2 * x ∧
      ((patternUnits other + patternUnits pattern : ℚ) = 2 * x → pattern % 2 = 0))
    (hupper : ∀ other, pattern < other → other ≤ infinitePattern →
      2 * x ≤ patternUnits pattern + patternUnits other ∧
        ((patternUnits pattern + patternUnits other : ℚ) = 2 * x → pattern % 2 = 0)) :
    IsNearest x pattern where
  le_infinite := hle
  nearest other hother := by
    rcases Nat.lt_trichotomy other pattern with hlt | rfl | hlt
    · exact (abs_sub_le_abs_sub_iff_add_le (patternUnits_lt hlt)).2 (hlower other hlt).1
    · exact le_rfl
    · exact (abs_sub_le_abs_sub_iff_le_add (patternUnits_lt hlt)).2 (hupper other hlt hother).1
  even_of_tie other hother hne htie := by
    rcases Nat.lt_or_gt_of_ne hne with hlt | hlt
    · exact (hlower other hlt).2 ((abs_sub_eq_abs_sub_iff (patternUnits_lt hlt)).1 htie.symm)
    · exact (hupper other hlt hother).2 ((abs_sub_eq_abs_sub_iff (patternUnits_lt hlt)).1 htie)

/-- What lies in the lower half of a spacing is nearest to its lower end. -/
theorem of_lower_half (hlt : pattern < infinitePattern) (hle : (patternUnits pattern : ℚ) ≤ x)
    (h : 2 * x < patternUnits pattern + patternUnits (pattern + 1) ∨
      2 * x = patternUnits pattern + patternUnits (pattern + 1) ∧ pattern % 2 = 0) :
    IsNearest x pattern := by
  refine of_halfway hlt.le (fun other hother => ?_) fun other hother _ => ?_
  · have := patternUnits_lt hother
    exact ⟨by linarith, fun heq => by linarith⟩
  · have := patternUnits_le hother
    rw [Nat.succ_eq_add_one] at this
    rcases h with h | ⟨h, heven⟩
    · exact ⟨by linarith, fun heq => by linarith⟩
    · exact ⟨by linarith, fun _ => heven⟩

/-- What lies in the upper half of a spacing is nearest to its upper end. -/
theorem of_upper_half (hlt : pattern < infinitePattern) (hle : x ≤ patternUnits (pattern + 1))
    (h : patternUnits pattern + patternUnits (pattern + 1) < 2 * x ∨
      patternUnits pattern + patternUnits (pattern + 1) = 2 * x ∧ (pattern + 1) % 2 = 0) :
    IsNearest x (pattern + 1) := by
  refine of_halfway hlt (fun other hother => ?_) fun other hother _ => ?_
  · have := patternUnits_le (Nat.le_of_lt_succ hother)
    rcases h with h | ⟨h, heven⟩
    · exact ⟨by linarith, fun heq => by linarith⟩
    · exact ⟨by linarith, fun _ => heven⟩
  · have := patternUnits_lt hother
    exact ⟨by linarith, fun heq => by linarith⟩

theorem infinite (h : (patternUnits infinitePattern : ℚ) ≤ x) : IsNearest x infinitePattern := by
  refine of_halfway le_rfl (fun other hother => ?_) fun other hother hle => absurd hother hle.not_gt
  have := patternUnits_lt hother
  exact ⟨by linarith, fun _ => by decide⟩

/-- A magnitude is nearest to itself. -/
theorem self (h : pattern ≤ infinitePattern) : IsNearest (patternUnits pattern) pattern := by
  rcases h.lt_or_eq with hlt | rfl
  · refine of_lower_half hlt le_rfl (.inl ?_)
    have := patternUnits_lt (Nat.lt_succ_self pattern)
    rw [Nat.succ_eq_add_one] at this
    linarith
  · exact infinite le_rfl

/-- **There is one nearest magnitude**: if two were equally near, both would be even, and an odd one
between them would be nearer. -/
theorem unique {other : ℕ} (h : IsNearest x pattern) (h' : IsNearest x other) :
    pattern = other := by
  wlog hlt : pattern < other generalizing pattern other with hsymm
  · rcases Nat.lt_or_eq_of_le (Nat.not_lt.1 hlt) with hlt' | rfl
    · exact (hsymm h' h hlt').symm
    · rfl
  have htie := le_antisymm (h.nearest other h'.le_infinite) (h'.nearest pattern h.le_infinite)
  have heven := h.even_of_tie other h'.le_infinite hlt.ne' htie
  have heven' := h'.even_of_tie pattern h.le_infinite hlt.ne htie.symm
  have hbetween : pattern + 1 < other := by omega
  have hhalfway := (abs_sub_eq_abs_sub_iff (patternUnits_lt hlt)).1 htie
  have hnearer := h.nearest (pattern + 1) (hbetween.le.trans h'.le_infinite)
  rw [abs_sub_le_abs_sub_iff_le_add (patternUnits_lt (Nat.lt_succ_self pattern))] at hnearer
  have := patternUnits_lt hbetween
  rw [Nat.succ_eq_add_one] at hnearer
  linarith

end IsNearest

/-! ## Rounding a ratio -/

/-- The number of spacings that go into the ratio fits a binade, and fills it unless a spacing is a
unit. -/
theorem div_spacing_bounds (a : ℕ) {b : ℕ} :
    a / (b <<< ((a / b).log2 - 52)) < 2 * binadeSize ∧
      ((a / b).log2 - 52 = 0 ∨ binadeSize ≤ a / (b <<< ((a / b).log2 - 52))) := by
  have hsize : binadeSize = 2 ^ 52 := by decide
  rw [Nat.shiftLeft_eq, ← Nat.div_div_eq_div_mul, hsize]
  generalize a / b = q
  constructor
  · rw [Nat.div_lt_iff_lt_mul (Nat.two_pow_pos _), ← Nat.pow_succ', ← Nat.pow_add]
    refine Nat.lt_log2_self.trans_le (Nat.pow_le_pow_right (by decide) ?_)
    omega
  · rcases Nat.eq_zero_or_pos (q.log2 - 52) with h | h
    · exact .inl h
    · right
      have hq : q ≠ 0 := by
        rintro rfl
        exact absurd h (by decide)
      rw [Nat.le_div_iff_mul_le (Nat.two_pow_pos _), ← Nat.pow_add]
      refine (Nat.pow_le_pow_right (by decide) ?_).trans (Nat.log2_self_le hq)
      omega

theorem roundHalfEven_cases (a b : ℕ) :
    roundHalfEven a b = a / b ∧ (2 * (a % b) < b ∨ 2 * (a % b) = b ∧ a / b % 2 = 0) ∨
      roundHalfEven a b = a / b + 1 ∧
        (b < 2 * (a % b) ∨ 2 * (a % b) = b ∧ (a / b + 1) % 2 = 0) := by
  rw [roundHalfEven]
  split
  · exact .inl ⟨rfl, ‹_›⟩
  · exact .inr ⟨rfl, by omega⟩

/-- **Two neighbours are enough**: what lies `t` units behind the `m`-th spacing is nearest to one
of its ends, or to infinity where they are beyond it. -/
theorem IsNearest.of_spacing {s m rounded : ℕ} {x t : ℚ} (hm : m < 2 * binadeSize)
    (hfull : s = 0 ∨ binadeSize ≤ m) (hx : x = m * 2 ^ s + t) (ht : 0 ≤ t) (ht' : t < 2 ^ s)
    (hround : rounded = m ∧ (2 * t < 2 ^ s ∨ 2 * t = 2 ^ s ∧ m % 2 = 0) ∨
      rounded = m + 1 ∧ (2 ^ s < 2 * t ∨ 2 * t = 2 ^ s ∧ (m + 1) % 2 = 0)) :
    IsNearest x (if s * binadeSize + rounded < infinitePattern then s * binadeSize + rounded
      else infinitePattern) := by
  have hlower : (patternUnits (s * binadeSize + m) : ℚ) = m * 2 ^ s := by
    rw [patternUnits_eq hm.le hfull]; push_cast; rfl
  have hupper : (patternUnits (s * binadeSize + m + 1) : ℚ) = (m + 1) * 2 ^ s := by
    rw [Nat.add_assoc, patternUnits_eq hm (hfull.imp_right Nat.le_succ_of_le)]; push_cast; rfl
  have hparity : (s * binadeSize + m) % 2 = m % 2 := by
    rw [show binadeSize = 2 * 0x8000000000000 by decide]; omega
  by_cases hlt : s * binadeSize + m < infinitePattern
  · rcases hround with ⟨rfl, hround⟩ | ⟨rfl, hround⟩
    · rw [if_pos hlt]
      refine .of_lower_half hlt (by linarith) (hround.imp (fun h => by linarith) ?_)
      exact fun ⟨h, heven⟩ => ⟨by linarith, hparity.trans heven⟩
    · have hle : (if s * binadeSize + (m + 1) < infinitePattern then s * binadeSize + (m + 1)
          else infinitePattern) = s * binadeSize + m + 1 := by
        split <;> omega
      rw [hle]
      refine .of_upper_half hlt (by linarith) (hround.imp (fun h => by linarith) ?_)
      exact fun ⟨h, heven⟩ => ⟨by linarith, by omega⟩
  · rw [if_neg (by omega)]
    have := patternUnits_le (Nat.not_lt.1 hlt)
    exact infinite (by linarith)

/-- **Rounding gives the nearest magnitude.** -/
theorem roundUnits_isNearest (a : ℕ) {b : ℕ} (hb : 0 < b) : IsNearest (a / b) (roundUnits a b) := by
  obtain ⟨hm, hfull⟩ := div_spacing_bounds a (b := b)
  rw [roundUnits]
  generalize (a / b).log2 - 52 = s at *
  have hwidth : b <<< s = 2 ^ s * b := by rw [Nat.shiftLeft_eq, Nat.mul_comm]
  have hb' : (0 : ℚ) < b := Nat.cast_pos.2 hb
  -- a part of the spacing, in units and in parts of a unit
  have hlt : ∀ k : ℕ, (k : ℚ) / b < 2 ^ s ↔ k < b <<< s := fun k => by
    rw [div_lt_iff₀ hb', hwidth]; exact_mod_cast Iff.rfl
  have hgt : ∀ k : ℕ, (2 ^ s : ℚ) < k / b ↔ b <<< s < k := fun k => by
    rw [lt_div_iff₀ hb', hwidth]; exact_mod_cast Iff.rfl
  have heq : ∀ k : ℕ, (k : ℚ) / b = 2 ^ s ↔ k = b <<< s := fun k => by
    rw [div_eq_iff hb'.ne', hwidth]; exact_mod_cast Iff.rfl
  refine .of_spacing (t := ↑(a % b <<< s) / b) hm hfull ?_
    (div_nonneg (Nat.cast_nonneg _) hb'.le) ?_ ?_
  · have hsplit : (2 ^ s * b * ↑(a / b <<< s) + ↑(a % b <<< s) : ℚ) = a := by
      have h := Nat.div_add_mod a (b <<< s)
      nth_rewrite 1 [hwidth] at h
      exact_mod_cast h
    rw [← hsplit]
    field_simp
  · exact (hlt _).2 (Nat.mod_lt a (hwidth ▸ Nat.mul_pos (Nat.two_pow_pos s) hb))
  · have htwice : 2 * (↑(a % b <<< s) / b : ℚ) = ↑(2 * (a % b <<< s)) / b := by push_cast; ring
    rw [htwice, hlt, hgt, heq]
    exact roundHalfEven_cases a (b <<< s)

/-! ## Reading a decimal -/

namespace Decimal

/-- The exact value of a decimal. -/
def value (d : Decimal) : ℚ := d.coefficient * 10 ^ d.exponent

theorem value_of_exponent_eq {d : Decimal} {n : ℕ} (h : d.exponent = n) :
    d.value = d.coefficient * 10 ^ n := by
  rw [value, h, zpow_natCast]

theorem value_of_exponent_eq_neg {d : Decimal} {n : ℕ} (h : d.exponent = -n) :
    d.value = d.coefficient / 10 ^ n := by
  rw [value, h, zpow_neg, zpow_natCast, div_eq_mul_inv]

theorem value_nonneg (d : Decimal) : 0 ≤ d.value :=
  mul_nonneg (Nat.cast_nonneg _) (zpow_nonneg (by norm_num) _)

theorem unitsPerOne_pos : (0 : ℚ) < unitsPerOne := by
  rw [unitsPerOne_eq]
  exact Nat.cast_pos.2 (Nat.two_pow_pos _)

/-- A power of ten exceeds the third power of two in each place. -/
theorem two_pow_le_ten_pow (n : ℕ) : (2 : ℚ) ^ (3 * n) ≤ 10 ^ n := by
  rw [pow_mul]
  exact pow_le_pow_left₀ (by norm_num) (by norm_num) n

/-- Where the exponent says so, the decimal is beyond all finite magnitudes. -/
theorem infinite_le_of_exponent {d : Decimal} (hcoefficient : d.coefficient ≠ 0)
    (hexponent : 400 < d.exponent) :
    (patternUnits infinitePattern : ℚ) ≤ d.value * unitsPerOne := by
  obtain ⟨n, hn⟩ := Int.eq_ofNat_of_zero_le (by omega : 0 ≤ d.exponent)
  have hone : (1 : ℚ) ≤ d.coefficient := Nat.one_le_cast.2 (Nat.one_le_iff_ne_zero.2 hcoefficient)
  have hpow : (2 : ℚ) ^ 1024 ≤ 10 ^ n := calc
    (2 : ℚ) ^ 1024 ≤ 2 ^ (3 * n) := pow_le_pow_right₀ (by norm_num) (by omega)
    _ ≤ 10 ^ n := two_pow_le_ten_pow n
  rw [patternUnits_infinitePattern, value_of_exponent_eq hn, Nat.cast_mul, Nat.cast_pow,
    Nat.cast_ofNat]
  refine mul_le_mul_of_nonneg_right (hpow.trans ?_) unitsPerOne_pos.le
  exact le_mul_of_one_le_left (pow_nonneg (by norm_num) n) hone

/-- A tiny decimal is less than half a unit. -/
theorem twice_lt_one_of_isTiny {d : Decimal} (hexponent : d.exponent < 0) (h : d.isTiny) :
    2 * (d.value * unitsPerOne) < 1 := by
  obtain ⟨n, hn⟩ := Int.eq_ofNat_of_zero_le (by omega : 0 ≤ -d.exponent)
  have hbits : d.coefficient.log2 + 1 + 1080 < 3 * n := by
    have := of_decide_eq_true h
    omega
  have hlt : (d.coefficient : ℚ) < 2 ^ (d.coefficient.log2 + 1) := by
    exact_mod_cast Nat.lt_log2_self
  have htwo : 2 * (unitsPerOne : ℚ) = 2 ^ 1075 := by
    rw [unitsPerOne_eq, Nat.cast_pow, Nat.cast_ofNat, ← pow_succ']
  have hten : (0 : ℚ) < 10 ^ n := pow_pos (by norm_num) n
  rw [value_of_exponent_eq_neg (by omega : d.exponent = -n), mul_left_comm, htwo,
    div_mul_eq_mul_div, div_lt_iff₀ hten, one_mul]
  calc
    d.coefficient * 2 ^ 1075 < 2 ^ (d.coefficient.log2 + 1) * (2 ^ 1075 : ℚ) :=
      mul_lt_mul_of_pos_right hlt (pow_pos (by norm_num) _)
    _ = 2 ^ (d.coefficient.log2 + 1 + 1075) := (pow_add ..).symm
    _ ≤ 2 ^ (3 * n) := pow_le_pow_right₀ (by norm_num) (by omega)
    _ ≤ 10 ^ n := two_pow_le_ten_pow n

/-- **Reading gives the nearest magnitude.** -/
theorem nearestPattern_isNearest (d : Decimal) :
    IsNearest (d.value * unitsPerOne) d.nearestPattern := by
  rw [nearestPattern]
  split
  · rename_i hzero
    have hself := IsNearest.self (Nat.zero_le infinitePattern)
    rw [patternUnits_zero, Nat.cast_zero] at hself
    rwa [value, hzero, Nat.cast_zero, zero_mul, zero_mul]
  split
  · exact .infinite (infinite_le_of_exponent ‹_› ‹_›)
  split
  · rename_i hexponent
    have h := roundUnits_isNearest (d.coefficient * 10 ^ d.exponent.toNat * unitsPerOne) Nat.one_pos
    rw [Nat.cast_one, div_one, Nat.cast_mul, Nat.cast_mul, Nat.cast_pow, Nat.cast_ofNat] at h
    rwa [value_of_exponent_eq (Int.toNat_of_nonneg hexponent).symm]
  rename_i hexponent
  split
  · have h := twice_lt_one_of_isTiny (Int.not_le.1 hexponent) ‹_›
    refine .of_lower_half (by decide) ?_ (.inl ?_)
    · rw [patternUnits_zero, Nat.cast_zero]
      exact mul_nonneg d.value_nonneg unitsPerOne_pos.le
    · rwa [patternUnits_zero, patternUnits_one, Nat.cast_zero, Nat.cast_one, zero_add]
  · have h := roundUnits_isNearest (d.coefficient * unitsPerOne)
      (Nat.pow_pos (n := (-d.exponent).toNat) (by decide : 0 < 10))
    rw [Nat.cast_mul, Nat.cast_pow, Nat.cast_ofNat] at h
    rwa [value_of_exponent_eq_neg (n := (-d.exponent).toNat) (by omega), div_mul_eq_mul_div]

/-- What is read depends on the value alone. -/
theorem nearestPattern_congr {d d' : Decimal} (h : d.value = d'.value) :
    d.nearestPattern = d'.nearestPattern :=
  d.nearestPattern_isNearest.unique (h ▸ d'.nearestPattern_isNearest)

/-! ## The shortest digits -/

/-- A decimal with the value of a magnitude reads back. -/
theorem nearestPattern_of_value {d : Decimal} {pattern : ℕ} (hpattern : pattern ≤ infinitePattern)
    (h : d.value * unitsPerOne = patternUnits pattern) : d.nearestPattern = pattern := by
  have hself := IsNearest.self hpattern
  rw [← h] at hself
  exact d.nearestPattern_isNearest.unique hself

theorem value_exact (pattern : ℕ) : (exact pattern).value * unitsPerOne = patternUnits pattern := by
  have hexponent : (exact pattern).exponent = -(1074 : ℕ) := by rw [exact]; norm_num
  have hcoefficient : ((exact pattern).coefficient : ℚ) = patternUnits pattern * 5 ^ 1074 :=
    (Nat.cast_mul ..).trans (congrArg _ (Nat.cast_pow ..))
  have hten : (10 : ℚ) ^ 1074 = 5 ^ 1074 * unitsPerOne := by
    rw [unitsPerOne_eq, Nat.cast_pow, Nat.cast_ofNat, ← mul_pow]; norm_num
  have hfive : (5 : ℚ) ^ 1074 ≠ 0 := pow_ne_zero _ (by norm_num)
  rw [value_of_exponent_eq_neg hexponent, hcoefficient, hten]
  generalize (5 : ℚ) ^ 1074 = five at hfive
  have hunits := unitsPerOne_pos.ne'
  field_simp

theorem value_trimmedWithin : ∀ (fuel : ℕ) (d : Decimal), (d.trimmedWithin fuel).value = d.value
  | 0, d => rfl
  | fuel + 1, d => by
    rw [trimmedWithin]
    split
    · rename_i h
      rw [value_trimmedWithin fuel, value, value, zpow_add₀ (by norm_num), zpow_one]
      have hdiv : ((d.coefficient / 10 : ℕ) : ℚ) * 10 = d.coefficient := by
        exact_mod_cast Nat.div_mul_cancel (Nat.dvd_of_mod_eq_zero h.2)
      rw [← hdiv]
      ring
    · rfl

theorem nearestPattern_or_of_ite {pattern : ℕ} {c d : Decimal} {rest : Option Decimal}
    (h : (if readsAs pattern c then some c else rest) = some d) :
    d.nearestPattern = pattern ∨ rest = some d := by
  split at h
  · obtain rfl := Option.some.inj h
    exact .inl (of_decide_eq_true ‹_›)
  · exact .inr h

theorem nearestPattern_of_onGrid {tie : Tie} {pattern : ℕ} {grid : ℤ} {d : Decimal}
    (h : onGrid tie pattern grid = some d) : d.nearestPattern = pattern := by
  rcases nearestPattern_or_of_ite h with h | h
  · exact h
  rcases nearestPattern_or_of_ite h with h | h
  · exact h
  · cases h

theorem nearestPattern_of_searchGrids {tie : Tie} {pattern : ℕ} {d : Decimal} :
    ∀ {count : ℕ} {grid : ℤ},
      searchGrids tie pattern count grid = some d → d.nearestPattern = pattern
  | 0, _, h => by cases h
  | count + 1, grid, h => by
    rcases Option.or_eq_some_iff.1 h with h | ⟨-, h⟩
    · exact nearestPattern_of_onGrid h
    · exact nearestPattern_of_searchGrids h

theorem value_shortest (tie : Tie) (pattern : ℕ) : (shortest tie pattern).value =
    ((searchGrids tie pattern 20 (coarsestGrid pattern)).getD (exact pattern)).value :=
  value_trimmedWithin _ _

/-- **The shortest digits read back**, whatever the tie rule. -/
theorem nearestPattern_shortest (tie : Tie) {pattern : ℕ} (h : pattern ≤ infinitePattern) :
    (shortest tie pattern).nearestPattern = pattern := by
  rw [nearestPattern_congr (value_shortest tie pattern)]
  cases hsearch : searchGrids tie pattern 20 (coarsestGrid pattern) with
  | none => exact nearestPattern_of_value h (value_exact pattern)
  | some d => exact nearestPattern_of_searchGrids hsearch

theorem isNearest_shortest (tie : Tie) {pattern : ℕ} (h : pattern ≤ infinitePattern) :
    IsNearest ((shortest tie pattern).value * unitsPerOne) pattern := by
  have hnearest := (shortest tie pattern).nearestPattern_isNearest
  rwa [nearestPattern_shortest tie h] at hnearest

/-- Only zero has the digit zero alone. -/
theorem coefficient_shortest_ne_zero (tie : Tie) {pattern : ℕ} (h : pattern ≠ 0) :
    (shortest tie pattern).coefficient ≠ 0 := by
  intro hcoefficient
  have hvalue := value_shortest tie pattern
  rw [value, hcoefficient, Nat.cast_zero, zero_mul] at hvalue
  cases hsearch : searchGrids tie pattern 20 (coarsestGrid pattern) with
  | none =>
    have hexact := value_exact pattern
    rw [hsearch, Option.getD_none] at hvalue
    rw [← hvalue, zero_mul] at hexact
    have hlt := patternUnits_strictMono (Nat.pos_of_ne_zero h)
    rw [patternUnits_zero] at hlt
    exact hlt.ne' (Nat.cast_eq_zero.1 hexact.symm)
  | some d =>
    rw [hsearch, Option.getD_some] at hvalue
    have hzero : (⟨0, 0⟩ : Decimal).value = d.value := by
      rw [value, Nat.cast_zero, zero_mul, hvalue]
    exact h ((nearestPattern_of_searchGrids hsearch).symm.trans (nearestPattern_congr hzero).symm)

end Decimal

end RpnTape
