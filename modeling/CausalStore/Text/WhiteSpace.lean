/-!
# White space

The characters with the Unicode property White_Space.
-/

namespace CausalStore.WhiteSpace

/-- First and last code points of the runs of white space. -/
def ranges : List (Nat × Nat) :=
  [(0x09, 0x0D), (0x20, 0x20), (0x85, 0x85), (0xA0, 0xA0), (0x1680, 0x1680), (0x2000, 0x200A),
    (0x2028, 0x2029), (0x202F, 0x202F), (0x205F, 0x205F), (0x3000, 0x3000)]

def isWhite (c : Char) : Bool := ranges.any fun r => r.1 ≤ c.toNat ∧ c.toNat ≤ r.2

/-- Whether nothing is left of a text without the white space around it. -/
def isBlankText (s : String) : Bool := s.toList.all isWhite

end CausalStore.WhiteSpace
