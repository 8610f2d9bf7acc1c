/-!
# Text/Blank — the characters that separate the words of a program

A **blank** is a character with the Unicode property *White_Space*. The property has 25 members, of
which eleven lie in one run of typographic spaces; they are listed here as ranges.
-/

namespace RpnTape

/-- The White_Space code points, as inclusive ranges in ascending order. -/
def blankRanges : List (Nat × Nat) :=
  [(0x09, 0x0D), (0x20, 0x20), (0x85, 0x85), (0xA0, 0xA0), (0x1680, 0x1680), (0x2000, 0x200A),
    (0x2028, 0x2029), (0x202F, 0x202F), (0x205F, 0x205F), (0x3000, 0x3000)]

/-- Does the character separate words? -/
def isBlank (c : Char) : Bool :=
  blankRanges.any fun (first, last) => first ≤ c.toNat && c.toNat ≤ last

end RpnTape
