/-!
# Decimal numerals

Natural numbers as runs of decimal digits, without leading zeros. `value_digits` says that the
digits of a number denote it.
-/

namespace CausalStore.Decimal

/-- The character of a digit below ten. -/
def digitChar (d : Nat) : Char := Char.ofNat ('0'.toNat + d)

/-- What a digit character counts, if it is one of the ten. -/
def digitValue? (c : Char) : Option Nat :=
  if '0' ≤ c ∧ c ≤ '9' then some (c.toNat - '0'.toNat) else none

/-- The digits of a number, the most significant first; zero is one digit. -/
def digits (n : Nat) : List Char :=
  if n < 10 then [digitChar n] else digits (n / 10) ++ [digitChar (n % 10)]

/-- The number that a run of digits denotes; other characters count as zeros. -/
def value (ds : List Char) : Nat := ds.foldl (fun n c => 10 * n + (digitValue? c).getD 0) 0

/-- The number that a text denotes which consists of digits only, leading zeros among them. -/
def ofDigits? (ds : List Char) : Option Nat :=
  if ds ≠ [] ∧ ds.all fun c => (digitValue? c).isSome then some (value ds) else none

/-- A number as text. -/
def text (n : Nat) : String := String.ofList (digits n)

theorem digitValue?_digitChar {d : Nat} (h : d < 10) : digitValue? (digitChar d) = some d := by
  match d, h with
  | 0, _ | 1, _ | 2, _ | 3, _ | 4, _ | 5, _ | 6, _ | 7, _ | 8, _ | 9, _ => rfl

theorem value_digits (n : Nat) : value (digits n) = n := by
  induction n using digits.induct with
  | case1 n h => rw [digits, if_pos h]; simp [value, digitValue?_digitChar h]
  | case2 n h ih =>
    have hm : n % 10 < 10 := Nat.mod_lt n (by decide)
    rw [digits, if_neg h]
    simp only [value, List.foldl_append, List.foldl_cons, List.foldl_nil, digitValue?_digitChar hm] at ih ⊢
    rw [ih]
    simp only [Option.getD_some]
    omega

end CausalStore.Decimal
