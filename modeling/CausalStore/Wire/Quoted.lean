import CausalStore.Text.Radix
import CausalStore.Wire.Reader

/-!
# Quoted text

A text is written between quotes, with `"`, `\` and the characters below U+0020 escaped and nothing
else. Reading also takes the other escapes of the format; a character beyond U+FFFF is then a pair of
four-digit escapes, and half of such a pair stands for nothing.
-/

namespace CausalStore.Wire

/-- One character between quotes. -/
def escape (c : Char) : List Char :=
  if c = '"' then ['\\', '"']
  else if c = '\\' then ['\\', '\\']
  else if c = '\x08' then ['\\', 'b']
  else if c = '\x0c' then ['\\', 'f']
  else if c = '\n' then ['\\', 'n']
  else if c = '\r' then ['\\', 'r']
  else if c = '\t' then ['\\', 't']
  else if c < ' ' then ['\\', 'u', '0', '0', Radix.digit (c.toNat / 16), Radix.digit (c.toNat % 16)]
  else [c]

/-- A text between quotes. -/
def quote (text : String) : List Char := '"' :: text.toList.flatMap escape ++ ['"']

/-- The number of four hexadecimal digits. Where fewer than four bytes are left, the text is cut off. -/
def hexWord : List Char → Except Cause (Nat × List Char)
  | a :: b :: c :: d :: r =>
    match Radix.digitValue? a, Radix.digitValue? b, Radix.digitValue? c, Radix.digitValue? d with
    | some a, some b, some c, some d => .ok (((a * 16 + b) * 16 + c) * 16 + d, r)
    | _, _, _, _ => .error .malformed
  | s => if (String.ofList s).utf8ByteSize < 4 then .error .truncated else .error .malformed

theorem length_lt_of_hexWord {s r : List Char} {n : Nat} (h : hexWord s = .ok (n, r)) :
    r.length < s.length := by
  unfold hexWord at h
  split at h
  · split at h
    · simp only [Except.ok.injEq, Prod.mk.injEq] at h
      simp only [← h.2, List.length_cons]
      omega
    · simp at h
  · split at h <;> simp at h

/-- The second half of a pair whose first half was `high`. -/
def lowHalf (high : Nat) : List Char → Except Cause (Char × List Char)
  | [] => .error .truncated
  | '\\' :: [] => .error .truncated
  | '\\' :: 'u' :: r =>
    match hexWord r with
    | .error cause => .error cause
    | .ok (low, r) =>
      if 0xDC00 ≤ low ∧ low ≤ 0xDFFF then
        .ok (Char.ofNat (0x10000 + (high - 0xD800) * 0x400 + (low - 0xDC00)), r)
      else .error .malformed
  | _ => .error .malformed

/-- The character of an escape that begins with four hexadecimal digits. -/
def codePoint (s : List Char) : Except Cause (Char × List Char) :=
  match hexWord s with
  | .error cause => .error cause
  | .ok (n, r) =>
    if 0xD800 ≤ n ∧ n ≤ 0xDBFF then lowHalf n r
    else if 0xDC00 ≤ n ∧ n ≤ 0xDFFF then .error .malformed
    else .ok (Char.ofNat n, r)

/-- The characters that have an escape of one letter. -/
def shortEscape? (c : Char) : Option Char :=
  if c = '"' ∨ c = '\\' ∨ c = '/' then some c
  else if c = 'b' then some '\x08'
  else if c = 'f' then some '\x0c'
  else if c = 'n' then some '\n'
  else if c = 'r' then some '\r'
  else if c = 't' then some '\t'
  else none

/-- The character of an escape, from behind its backslash. -/
def escaped : List Char → Except Cause (Char × List Char)
  | [] => .error .truncated
  | c :: r =>
    match shortEscape? c with
    | some x => .ok (x, r)
    | none => if c = 'u' then codePoint r else .error .malformed

private theorem length_lt_of_lowHalf {high : Nat} {s r : List Char} {c : Char}
    (h : lowHalf high s = .ok (c, r)) : r.length < s.length := by
  unfold lowHalf at h
  split at h
  · simp at h
  · simp at h
  · split at h
    · simp at h
    next e =>
      have := length_lt_of_hexWord e
      split at h
      · simp only [Except.ok.injEq, Prod.mk.injEq] at h
        rw [← h.2]
        simp only [List.length_cons]
        omega
      · simp at h
  · simp at h

private theorem length_lt_of_codePoint {s r : List Char} {c : Char} (h : codePoint s = .ok (c, r)) :
    r.length < s.length := by
  unfold codePoint at h
  split at h
  · simp at h
  next e =>
    have h₁ := length_lt_of_hexWord e
    split at h
    · exact Nat.lt_trans (length_lt_of_lowHalf h) h₁
    · split at h
      · simp at h
      · simp only [Except.ok.injEq, Prod.mk.injEq] at h
        exact h.2 ▸ h₁

theorem length_lt_of_escaped {s r : List Char} {c : Char} (h : escaped s = .ok (c, r)) :
    r.length < s.length := by
  unfold escaped at h
  split at h
  · simp at h
  · simp only [List.length_cons]
    split at h
    · simp only [Except.ok.injEq, Prod.mk.injEq] at h
      simp [h.2]
    · split at h
      · exact Nat.lt_succ_of_lt (length_lt_of_codePoint h)
      · simp at h

/-- The characters up to the closing quote. -/
def textFrom (s : List Char) : Except Cause (List Char × List Char) :=
  match s with
  | [] => .error .truncated
  | c :: r =>
    if c = '"' then .ok ([], r)
    else if c = '\\' then
      match _h : escaped r with
      | .error cause => .error cause
      | .ok (x, r') =>
        match textFrom r' with
        | .error cause => .error cause
        | .ok (xs, r'') => .ok (x :: xs, r'')
    else if c < ' ' then .error .malformed
    else
      match textFrom r with
      | .error cause => .error cause
      | .ok (xs, r') => .ok (c :: xs, r')
termination_by s.length
decreasing_by
  · have := length_lt_of_escaped _h
    simp only [List.length_cons]
    omega
  · simp

theorem length_lt_of_textFrom {s xs r : List Char} (h : textFrom s = .ok (xs, r)) :
    r.length < s.length := by
  fun_induction textFrom s generalizing xs r with
  | case1 | case3 | case4 | case6 | case7 => simp at h
  | case2 r' =>
    simp only [Except.ok.injEq, Prod.mk.injEq] at h
    simp [h.2]
  | case5 r' x r₁ e xs' r₂ e' _ ih =>
    simp only [Except.ok.injEq, Prod.mk.injEq] at h
    have h₁ := length_lt_of_escaped e
    have h₂ := ih e'
    rw [← h.2]
    simp only [List.length_cons]
    omega
  | case8 c r' _ _ _ xs' r₁ e ih =>
    simp only [Except.ok.injEq, Prod.mk.injEq] at h
    have := ih e
    rw [← h.2]
    simp only [List.length_cons]
    omega

/-- Reads a text from behind its opening quote. -/
def Reader.quoted : Reader String :=
  (⟨textFrom, length_lt_of_textFrom⟩ : Reader (List Char)).map String.ofList

end CausalStore.Wire
