import Mathlib.Tactic.IntervalCases
import RpnTape.Proofs.Number.Scanning

/-!
# Proofs/Text/ByteOrder — texts in the order of their bytes

A text is before another by its characters exactly when it is before it by its bytes
(`bytesOf_lt_iff`). The first byte of a character says how many bytes follow, and grows with their
number; the bytes that follow are digits in base 64, the highest first. So the greater of two
characters has the greater bytes, whatever comes after them (`utf8EncodeChar_lt`).
-/

namespace RpnTape

/-! ## One character -/

/-- The mark of a first byte with so many bytes after it; the bound of all bytes comes last. -/
def leadMark : Nat → Nat
  | 0 => 0
  | 1 => 0xC0
  | 2 => 0xE0
  | 3 => 0xF0
  | _ => 0x100

/-- The least code point with so many bytes after the first; the bound of all
code points comes last. -/
def leastWith : Nat → Nat
  | 0 => 0
  | 1 => 0x80
  | 2 => 0x800
  | 3 => 0x10000
  | _ => 0x110000

/-- The lowest `k` digits in base 64, each in a byte. -/
def followers : Nat → Nat → List UInt8
  | 0, _ => []
  | k + 1, v => UInt8.ofNat (v / 64 ^ k % 64 + 0x80) :: followers k v

/-- The first byte has the highest digit, with the mark, and each of the bytes after it one more. -/
theorem utf8EncodeChar_eq (c : Char) :
    ∃ k < 4, leastWith k ≤ c.toNat ∧ c.toNat < leastWith (k + 1) ∧
      String.utf8EncodeChar c =
        UInt8.ofNat (c.toNat / 64 ^ k + leadMark k) :: followers k c.toNat := by
  have hval : c.toNat = c.val.toNat := rfl
  have hvalid : c.val.toNat < 0x110000 := by
    have h := c.valid
    simp only [UInt32.isValidChar, Nat.isValidChar] at h
    omega
  rw [String.utf8EncodeChar, hval]
  generalize c.val.toNat = v at hvalid ⊢
  split
  · rename_i h₁
    exact ⟨0, by decide, Nat.zero_le v, Nat.lt_succ_of_le h₁, by simp [followers, leadMark]⟩
  rename_i h₁
  split
  · rename_i h₂
    have hlead : v / 64 % 32 = v / 64 := Nat.mod_eq_of_lt (by omega)
    exact ⟨1, by decide, Nat.not_le.1 h₁, Nat.lt_succ_of_le h₂,
      by simp [followers, leadMark, hlead]⟩
  rename_i h₂
  split
  · rename_i h₃
    have hlead : v / 4096 % 16 = v / 4096 := Nat.mod_eq_of_lt (by omega)
    exact ⟨2, by decide, Nat.not_le.1 h₂, Nat.lt_succ_of_le h₃,
      by simp [followers, leadMark, hlead]⟩
  · rename_i h₃
    have hlead : v / 262144 % 8 = v / 262144 := Nat.mod_eq_of_lt (by omega)
    exact ⟨3, by decide, Nat.not_le.1 h₃, hvalid, by simp [followers, leadMark, hlead]⟩

theorem ofNat_cons_lt {m n : Nat} {bs ds : List UInt8} (hm : m < 256) (hn : n < 256)
    (h : m < n ∨ m = n ∧ bs < ds) : UInt8.ofNat m :: bs < UInt8.ofNat n :: ds := by
  rw [List.cons_lt_cons_iff, UInt8.lt_iff_toNat_lt, UInt8.toNat_ofNat_of_lt' hm,
    UInt8.toNat_ofNat_of_lt' hn]
  exact h.imp id fun ⟨heq, hlt⟩ => ⟨heq ▸ rfl, hlt⟩

/-- The lesser of two numbers has the lesser high digits, or else the lesser low ones. -/
theorem div_lt_or_mod_lt {m n : Nat} (h : m < n) (d : Nat) :
    m / d < n / d ∨ m / d = n / d ∧ m % d < n % d := by
  rcases Nat.lt_or_eq_of_le (Nat.div_le_div_right (c := d) h.le) with hlt | heq
  · exact .inl hlt
  · refine .inr ⟨heq, ?_⟩
    have hm := Nat.div_add_mod m d
    have hn := Nat.div_add_mod n d
    rw [heq] at hm
    omega

theorem followers_lt {m n : Nat} (bs ds : List UInt8) :
    ∀ {k : Nat}, m % 64 ^ k < n % 64 ^ k → followers k m ++ bs < followers k n ++ ds
  | 0, h => absurd h (by simp [Nat.mod_one])
  | k + 1, h => by
    refine ofNat_cons_lt (by omega) (by omega) ?_
    rcases div_lt_or_mod_lt h (64 ^ k) with hlt | ⟨heq, hlt⟩
    · rw [Nat.pow_succ, Nat.mod_mul_right_div_self, Nat.mod_mul_right_div_self] at hlt
      exact .inl (by omega)
    · rw [Nat.pow_succ, Nat.mod_mul_right_div_self, Nat.mod_mul_right_div_self] at heq
      rw [Nat.pow_succ, Nat.mod_mul_right_mod, Nat.mod_mul_right_mod] at hlt
      exact .inr ⟨by omega, followers_lt bs ds hlt⟩

/-- **A first byte is below the marks of all longer characters.** -/
theorem lead_lt_leadMark {k l v : Nat} (hkl : k < l) (hl : l ≤ 4) (hv : v < leastWith (k + 1)) :
    v / 64 ^ k + leadMark k < leadMark l := by
  have hk : k < 4 := by omega
  interval_cases k <;> interval_cases l <;> simp [leastWith, leadMark] at hv ⊢ <;> omega

theorem leastWith_le {k l : Nat} (hkl : k ≤ l) (hl : l ≤ 4) : leastWith k ≤ leastWith l := by
  interval_cases l <;> interval_cases k <;> decide

/-- **The greater of two characters has the greater bytes**, whatever comes after them. -/
theorem utf8EncodeChar_lt {c d : Char} (h : c < d) (bs ds : List UInt8) :
    String.utf8EncodeChar c ++ bs < String.utf8EncodeChar d ++ ds := by
  obtain ⟨k, hk, hkc, hck, hc⟩ := utf8EncodeChar_eq c
  obtain ⟨l, hl, -, hdl, hd⟩ := utf8EncodeChar_eq d
  have hlt : c.toNat < d.toNat := h
  rw [hc, hd]
  refine ofNat_cons_lt (lead_lt_leadMark hk le_rfl hck) (lead_lt_leadMark hl le_rfl hdl) ?_
  rcases Nat.lt_trichotomy k l with hkl | rfl | hkl
  · exact .inl ((lead_lt_leadMark hkl hl.le hck).trans_le (Nat.le_add_left _ _))
  · exact (div_lt_or_mod_lt hlt (64 ^ k)).imp (Nat.add_lt_add_right · _) fun ⟨heq, hmod⟩ =>
      ⟨heq ▸ rfl, followers_lt bs ds hmod⟩
  · exact absurd (hdl.trans_le (leastWith_le hkl hk.le)) (by omega)

/-! ## Texts -/

theorem bytesOf_lt : ∀ {cs ds : List Char}, cs < ds → bytesOf cs < bytesOf ds
  | [], [], h => absurd h (List.lt_irrefl _)
  | [], d :: ds, _ => by
    obtain ⟨k, -, -, -, hd⟩ := utf8EncodeChar_eq d
    rw [bytesOf_cons, hd]
    exact List.nil_lt_cons _ _
  | c :: cs, [], h => absurd h (List.not_lt_nil _)
  | c :: cs, d :: ds, h => by
    rw [bytesOf_cons, bytesOf_cons]
    rcases List.cons_lt_cons_iff.1 h with hlt | ⟨rfl, hlt⟩
    · exact utf8EncodeChar_lt hlt _ _
    · exact List.append_left_lt (bytesOf_lt hlt)

/-- **The order of the bytes is the order of the characters.** -/
theorem bytesOf_lt_iff {cs ds : List Char} : bytesOf cs < bytesOf ds ↔ cs < ds := by
  refine ⟨fun h => ?_, bytesOf_lt⟩
  by_contra hnot
  rcases List.le_iff_lt_or_eq.1 hnot with hlt | rfl
  · exact List.lt_asymm h (bytesOf_lt hlt)
  · exact List.lt_irrefl _ h

theorem bytesOf_le_iff {a b : String} : bytesOf a.toList ≤ bytesOf b.toList ↔ a ≤ b :=
  not_congr bytesOf_lt_iff

end RpnTape
