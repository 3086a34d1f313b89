import CausalStore.Text.Decimal
import CausalStore.Wire.Reader

/-!
# Numerals

A numeral is read as a 64-bit word if it is written as one: digits only, in range. Every other
numeral of the grammar is a number all the same, as long as binary64 arithmetic finds it finite.
-/

namespace CausalStore.Wire

inductive Numeral where
  | word (n : UInt64)
  /-- A number that is negative, too large for a word, or written with a point or an exponent. -/
  | other
  deriving DecidableEq

def isDigit (c : Char) : Bool := '0' ≤ c ∧ c ≤ '9'

/-- The digits before the point: one zero, or some that do not begin with one. -/
def wholePart : List Char → Except Cause (List Char × List Char)
  | [] => .error .truncated
  | c :: r =>
    if c = '0' then
      if (r.head?.map isDigit).getD false then .error .malformed else .ok (['0'], r)
    else if isDigit c then .ok (c :: r.takeWhile isDigit, r.dropWhile isDigit)
    else .error .malformed

/-- A run of digits that must not be empty. -/
def someDigits (s : List Char) : Except Cause (List Char × List Char) :=
  match s with
  | [] => .error .truncated
  | c :: _ =>
    if isDigit c then .ok (s.takeWhile isDigit, s.dropWhile isDigit) else .error .malformed

/-- The point and the digits behind it, if there are any. -/
def fractionPart : List Char → Except Cause (List Char × List Char)
  | '.' :: r => someDigits r
  | s => .ok ([], s)

/-- The exponent, if there is one. -/
def exponentPart : List Char → Except Cause (Option Int × List Char)
  | [] => .ok (none, [])
  | c :: r =>
    if c = 'e' ∨ c = 'E' then
      let (sign, r) : Int × List Char :=
        match r with
        | '-' :: r => (-1, r)
        | '+' :: r => (1, r)
        | r => (1, r)
      match someDigits r with
      | .error cause => .error cause
      | .ok (ds, r) => .ok (some (sign * Decimal.value ds), r)
    else .ok (none, c :: r)

/-- Appends digits to a word as long as it stays one, and counts the digits that are left. -/
def leadingWord (n : Nat) : List Char → Nat × Nat
  | [] => (n, 0)
  | d :: ds =>
    let next := 10 * n + (Decimal.digitValue? d).getD 0
    if next < UInt64.size then leadingWord next ds else (n, ds.length + 1)

/-- Rounds to 53 significant bits; a tie goes to the even neighbour. -/
def roundSignificand (n : Nat) : Nat :=
  let unit := Nat.pow 2 (n.log2 + 1 - 53)
  let down := n / unit
  let excess := 2 * (n % unit)
  (if unit < excess ∨ (excess = unit ∧ down % 2 = 1) then down + 1 else down) * unit

/-- Whether `n` times a power of ten is beyond the finite binary64 numbers, when both factors are
rounded to binary64 first and their product after. Products round to infinity from halfway between the
largest finite number and `2 ^ 1024` on. -/
def overflowsDouble (n : Nat) (exponent : Int) : Bool :=
  if n = 0 ∨ exponent < 0 then false
  else if 308 < exponent then true
  else
    let limit := Nat.pow 2 1024 - Nat.pow 2 970
    limit ≤ roundSignificand n * roundSignificand (Nat.pow 10 exponent.toNat)

/-- Whether a numeral is beyond the range of numbers. Of its digits those count that fit in a word; the
ones that are left before the point scale it. -/
def outOfRange (whole fraction : List Char) (exponent : Int) : Bool :=
  let (n, wholeLeft) := leadingWord 0 whole
  let (n, fractionLeft) := leadingWord n fraction
  overflowsDouble n (exponent + wholeLeft - (fraction.length - fractionLeft))

/-- Reads a numeral whose sign, if it has one, was read. -/
def unsignedNumeral (negative : Bool) (s : List Char) : Except Cause (Numeral × List Char) :=
  match wholePart s with
  | .error cause => .error cause
  | .ok (whole, r₁) =>
    match fractionPart r₁ with
    | .error cause => .error cause
    | .ok (fraction, r₂) =>
      match exponentPart r₂ with
      | .error cause => .error cause
      | .ok (exponent, r₃) =>
        let n := Decimal.value whole
        if negative = false ∧ fraction = [] ∧ exponent = none ∧ n < UInt64.size then
          .ok (.word (.ofNat n), r₃)
        else if outOfRange whole fraction (exponent.getD 0) then
          .error .malformed
        else .ok (.other, r₃)

/-- Reads a numeral that begins with `c`, a digit or the minus sign. -/
def numeralFrom (c : Char) (s : List Char) : Except Cause (Numeral × List Char) :=
  if c = '-' then unsignedNumeral true s else unsignedNumeral false (c :: s)

private theorem length_lt_of_wholePart {s ds r : List Char} (h : wholePart s = .ok (ds, r)) :
    r.length < s.length := by
  unfold wholePart at h
  split at h
  · simp at h
  next c r' =>
    split at h
    · split at h
      · simp at h
      · simp only [Except.ok.injEq, Prod.mk.injEq] at h
        simp [h.2]
    · split at h
      · simp only [Except.ok.injEq, Prod.mk.injEq] at h
        rw [← h.2]
        exact Nat.lt_succ_of_le (List.dropWhile_sublist _).length_le
      · simp at h

private theorem length_le_of_someDigits {s ds r : List Char} (h : someDigits s = .ok (ds, r)) :
    r.length ≤ s.length := by
  unfold someDigits at h
  split at h
  · simp at h
  · split at h
    · simp only [Except.ok.injEq, Prod.mk.injEq] at h
      rw [← h.2]
      exact (List.dropWhile_sublist _).length_le
    · simp at h

private theorem length_le_of_fractionPart {s ds r : List Char} (h : fractionPart s = .ok (ds, r)) :
    r.length ≤ s.length := by
  unfold fractionPart at h
  split at h
  · exact Nat.le_succ_of_le (length_le_of_someDigits h)
  · simp only [Except.ok.injEq, Prod.mk.injEq] at h
    simp [h.2]

private theorem length_le_of_exponentPart {s r : List Char} {e : Option Int}
    (h : exponentPart s = .ok (e, r)) : r.length ≤ s.length := by
  unfold exponentPart at h
  split at h
  · simp_all
  next c r' =>
    split at h
    · dsimp only at h
      split at h
      · simp at h
      next he =>
        simp only [Except.ok.injEq, Prod.mk.injEq] at h
        have h₁ := length_le_of_someDigits he
        rw [← h.2]
        refine Nat.le_trans h₁ ?_
        split <;> simp only [List.length_cons] <;> omega
    · simp only [Except.ok.injEq, Prod.mk.injEq] at h
      simp [← h.2]

theorem length_lt_of_unsignedNumeral {negative : Bool} {s r : List Char} {n : Numeral}
    (h : unsignedNumeral negative s = .ok (n, r)) : r.length < s.length := by
  unfold unsignedNumeral at h
  split at h
  · simp at h
  next e₁ =>
    have h₁ := length_lt_of_wholePart e₁
    split at h
    · simp at h
    next e₂ =>
      have h₂ := length_le_of_fractionPart e₂
      split at h
      · simp at h
      next e₃ =>
        have h₃ := length_le_of_exponentPart e₃
        dsimp only at h
        split at h
        · simp only [Except.ok.injEq, Prod.mk.injEq] at h
          rw [← h.2]
          omega
        · split at h
          · simp at h
          · simp only [Except.ok.injEq, Prod.mk.injEq] at h
            rw [← h.2]
            omega

theorem length_le_of_numeralFrom {c : Char} {s r : List Char} {n : Numeral}
    (h : numeralFrom c s = .ok (n, r)) : r.length ≤ s.length := by
  unfold numeralFrom at h
  split at h
  · exact Nat.le_of_lt (length_lt_of_unsignedNumeral h)
  · exact Nat.le_of_lt_succ (length_lt_of_unsignedNumeral h)

/-! ## Numerals that are passed over -/

/-- The rest of a run of digits of which at least one is there. A text that ends here is malformed. -/
def passDigits : List Char → Except Cause (List Char)
  | [] => .error .malformed
  | c :: r => if isDigit c then .ok (r.dropWhile isDigit) else .error .malformed

def passExponent : List Char → Except Cause (List Char)
  | [] => .ok []
  | c :: r =>
    if c = 'e' ∨ c = 'E' then
      match r with
      | '-' :: r => passDigits r
      | '+' :: r => passDigits r
      | r => passDigits r
    else .ok (c :: r)

/-- Passes over a numeral without its sign, whatever its size. -/
def passUnsigned (s : List Char) : Except Cause (List Char) :=
  match wholePart s with
  | .error _ => .error .malformed
  | .ok (_, '.' :: r) =>
    match passDigits r with
    | .error cause => .error cause
    | .ok r => passExponent r
  | .ok (_, r) => passExponent r

private theorem length_lt_of_passDigits {s r : List Char} (h : passDigits s = .ok r) :
    r.length < s.length := by
  unfold passDigits at h
  split at h
  · simp at h
  · split at h
    · simp only [Except.ok.injEq] at h
      rw [← h]
      exact Nat.lt_succ_of_le (List.dropWhile_sublist _).length_le
    · simp at h

private theorem length_le_of_passExponent {s r : List Char} (h : passExponent s = .ok r) :
    r.length ≤ s.length := by
  unfold passExponent at h
  split at h
  · simp_all
  · split at h
    · split at h <;> have := length_lt_of_passDigits h <;> simp only [List.length_cons] at this ⊢ <;>
        omega
    · simp_all

theorem length_lt_of_passUnsigned {s r : List Char} (h : passUnsigned s = .ok r) :
    r.length < s.length := by
  unfold passUnsigned at h
  split at h
  · simp at h
  next e₁ =>
    have h₁ := length_lt_of_wholePart e₁
    simp only [List.length_cons] at h₁
    split at h
    · simp at h
    next e₂ =>
      have h₂ := length_lt_of_passDigits e₂
      have h₃ := length_le_of_passExponent h
      omega
  next e₁ =>
    exact Nat.lt_of_le_of_lt (length_le_of_passExponent h) (length_lt_of_wholePart e₁)

end CausalStore.Wire
