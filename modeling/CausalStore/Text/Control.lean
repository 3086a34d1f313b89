import CausalStore.Text.Radix

/-!
# Control characters in logs

Some control characters can begin a command to a terminal or move what it shows. In a log they are
written as escapes, and every other character is written as it is.
-/

namespace CausalStore.Control

/-- The two hexadecimal digits of a number below 256. -/
def hexPair (n : Nat) : List Char := [Radix.digit (n / 16), Radix.digit (n % 16)]

/-- Whether the character is an ASCII one that is escaped: bell, backspace, form feed, escape, delete. -/
def isHarmful (c : Char) : Bool := c ∈ ['\x07', '\x08', '\x0c', '\x1b', '\x7f']

/-- Whether the character is one of the second set of control characters. -/
def isUpper (c : Char) : Bool := '\x80' ≤ c && c ≤ '\x9f'

def escape (c : Char) : List Char :=
  if isHarmful c then ['\\', 'x'] ++ hexPair c.toNat
  else if isUpper c then ['\\', 'u', '\x7b'] ++ hexPair c.toNat ++ ['\x7d']
  else [c]

def escapeText (s : String) : String := String.ofList (s.toList.flatMap escape)

end CausalStore.Control
