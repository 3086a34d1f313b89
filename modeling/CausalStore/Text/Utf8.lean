/-!
# Bytes as characters
-/

namespace CausalStore.Utf8

/-- The characters that bytes from place `i` on encode; `none` stands for a byte that belongs to no
character. -/
def scanFrom (b : ByteArray) (i : Nat) : List (Option Char) :=
  if i < b.size then
    match b.utf8DecodeChar? i with
    | some c => some c :: scanFrom b (i + c.utf8Size)
    | none => none :: scanFrom b (i + 1)
  else []
termination_by b.size - i
decreasing_by
  · have := c.utf8Size_pos
    omega
  · omega

def scan (b : ByteArray) : List (Option Char) := scanFrom b 0

end CausalStore.Utf8
