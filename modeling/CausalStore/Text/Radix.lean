/-!
# Numerals in any radix up to sixteen

The digits after nine are the letters from `a` on, of either case.
-/

namespace CausalStore.Radix

/-- The digit of a number below sixteen, in lower case. -/
def digit (n : Nat) : Char := if n < 10 then Char.ofNat ('0'.toNat + n) else Char.ofNat ('a'.toNat + (n - 10))

/-- What a digit counts. -/
def digitValue? (c : Char) : Option Nat :=
  if '0' ≤ c ∧ c ≤ '9' then some (c.toNat - '0'.toNat)
  else if 'a' ≤ c ∧ c ≤ 'f' then some (c.toNat - 'a'.toNat + 10)
  else if 'A' ≤ c ∧ c ≤ 'F' then some (c.toNat - 'A'.toNat + 10)
  else none

/-- The number that digits below the radix denote, of which there must be one. -/
def ofDigits? (radix : Nat) (ds : List Char) : Option Nat :=
  if ds = [] then none
  else ds.foldlM (fun n c => ((digitValue? c).filter (· < radix)).map (radix * n + ·)) 0

theorem digitValue?_digit {n : Nat} (h : n < 16) : digitValue? (digit n) = some n := by
  have all : ∀ m < 16, digitValue? (digit m) = some m := by decide
  exact all n h

end CausalStore.Radix
