import CausalStore.Wire.Skip

/-!
# Scalars

Where a value of one type is expected and another stands, a scalar is still read to its end, so that
a fault inside it is what is reported; an array or object is refused at its opening bracket.
-/

namespace CausalStore.Wire

/-- The rest of a scalar that begins with `c`, as long as only its end is of interest. -/
def scalarFrom (c : Char) (r : List Char) : Except Cause (List Char) :=
  if c = '"' then
    match textFrom r with
    | .error cause => .error cause
    | .ok (_, r) => .ok r
  else if c = '-' ∨ isDigit c then
    match numeralFrom c r with
    | .error cause => .error cause
    | .ok (_, r) => .ok r
  else if c = 'n' then nameFrom ['u', 'l', 'l'] r
  else if c = 't' then nameFrom ['r', 'u', 'e'] r
  else if c = 'f' then nameFrom ['a', 'l', 's', 'e'] r
  else .error .malformed

/-- The fault of a value that begins with `c` and is not of the type expected. -/
def misfit (c : Char) (r : List Char) : Cause :=
  if c = '[' ∨ c = '{' then .mismatched
  else
    match scalarFrom c r with
    | .error cause => cause
    | .ok _ => .mismatched

/-- A word of 64 bits as one of 16, if it fits. -/
def portOf? (n : UInt64) : Option UInt16 := if n.toNat < UInt16.size then some n.toUInt16 else none

namespace Reader

/-- Reads a text. -/
def text : Reader String :=
  .ofHead (fun c r => if c = '"' then quoted.run r else .error (misfit c r)) fun h => by
    split at h
    · exact Nat.le_of_lt (quoted.shrinks h)
    · simp at h

/-- Reads a number. -/
def numeral : Reader Numeral :=
  .ofHead (fun c r => if c = '-' ∨ isDigit c then numeralFrom c r else .error (misfit c r))
    fun h => by
      split at h
      · exact length_le_of_numeralFrom h
      · simp at h

/-- Reads a 64-bit word. -/
def word : Reader UInt64 :=
  numeral.filterMap fun
    | .word n => some n
    | .other => none

/-- Reads a 16-bit word. -/
def port : Reader UInt16 := word.filterMap portOf?

/-- Reads one of the two truth values. -/
def flag : Reader Bool :=
  .ofHead (fun c r =>
      if c = 't' then
        match nameFrom ['r', 'u', 'e'] r with
        | .error cause => .error cause
        | .ok r => .ok (true, r)
      else if c = 'f' then
        match nameFrom ['a', 'l', 's', 'e'] r with
        | .error cause => .error cause
        | .ok r => .ok (false, r)
      else .error (misfit c r))
    fun h => by
      split at h
      · split at h
        · simp at h
        next e =>
          simp only [Except.ok.injEq, Prod.mk.injEq] at h
          exact h.2 ▸ length_le_of_nameFrom e
      · split at h
        · split at h
          · simp at h
          next e =>
            simp only [Except.ok.injEq, Prod.mk.injEq] at h
            exact h.2 ▸ length_le_of_nameFrom e
        · simp at h

/-- Reads `null`, or what `p` reads. -/
def orNull {α : Type} (p : Reader α) : Reader (Option α) :=
  let some_ := p.map some
  .ofHead (fun c r =>
      if c = 'n' then
        match nameFrom ['u', 'l', 'l'] r with
        | .error cause => .error cause
        | .ok r => .ok (none, r)
      else some_.run (c :: r))
    fun h => by
      split at h
      · split at h
        · simp at h
        next e =>
          simp only [Except.ok.injEq, Prod.mk.injEq] at h
          exact h.2 ▸ length_le_of_nameFrom e
      · exact Nat.le_of_lt_succ (some_.shrinks h)

end Reader

end CausalStore.Wire
