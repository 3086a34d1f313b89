import CausalStore.Wire.Numeral
import CausalStore.Wire.Quoted

/-!
# Values that are passed over

Only the grammar of such a value is looked at: it may be nested to any depth, hold numbers of any
size and escapes of any code.
-/

namespace CausalStore.Wire

/-- The rest of a name such as `true`. -/
def nameFrom : List Char → List Char → Except Cause (List Char)
  | [], s => .ok s
  | _ :: _, [] => .error .truncated
  | x :: xs, c :: r => if c = x then nameFrom xs r else .error .malformed

theorem length_le_of_nameFrom {name s r : List Char} (h : nameFrom name s = .ok r) :
    r.length ≤ s.length := by
  induction name generalizing s with
  | nil => simp_all [nameFrom]
  | cons x xs ih =>
    cases s with
    | nil => simp [nameFrom] at h
    | cons c s =>
      simp only [nameFrom] at h
      split at h
      · exact Nat.le_succ_of_le (ih h)
      · simp at h

/-- Passes over an escape, from behind its backslash. -/
def passEscape : List Char → Except Cause (List Char)
  | [] => .error .truncated
  | c :: r =>
    if c = 'u' then
      match hexWord r with
      | .error cause => .error cause
      | .ok (_, r) => .ok r
    else if (shortEscape? c).isSome then .ok r
    else .error .malformed

private theorem length_lt_of_passEscape {s r : List Char} (h : passEscape s = .ok r) :
    r.length < s.length := by
  unfold passEscape at h
  split at h
  · simp at h
  · simp only [List.length_cons]
    split at h
    · split at h
      · simp at h
      next e =>
        simp only [Except.ok.injEq] at h
        exact h ▸ Nat.lt_succ_of_lt (length_lt_of_hexWord e)
    · split at h
      · simp only [Except.ok.injEq] at h
        simp [h]
      · simp at h

/-- Passes over a text, from behind its opening quote. -/
def passText (s : List Char) : Except Cause (List Char) :=
  match s with
  | [] => .error .truncated
  | c :: r =>
    if c = '"' then .ok r
    else if c = '\\' then
      match _h : passEscape r with
      | .error cause => .error cause
      | .ok r' => passText r'
    else if c < ' ' then .error .malformed
    else passText r
termination_by s.length
decreasing_by
  · have := length_lt_of_passEscape _h
    simp only [List.length_cons]
    omega
  · simp

theorem length_lt_of_passText {s r : List Char} (h : passText s = .ok r) : r.length < s.length := by
  fun_induction passText s with
  | case1 | case3 | case5 => simp at h
  | case2 => simp_all
  | case4 r' r₁ e _ ih =>
    have h₁ := length_lt_of_passEscape e
    have h₂ := ih h
    simp only [List.length_cons]
    omega
  | case6 _ r' _ _ _ ih =>
    have := ih h
    simp only [List.length_cons]
    omega

/-- The two kinds of brackets, by what they hold. -/
inductive Bracket where
  | array
  | object
  deriving DecidableEq

def Bracket.close : Bracket → Char
  | .array => ']'
  | .object => '}'

/-- Passes over a scalar wholly, and of an array or object over the opening bracket. -/
def passHead (s : List Char) : Except Cause (Option Bracket × List Char) :=
  match skipBlank s with
  | [] => .error .truncated
  | c :: r =>
    let scalar : Except Cause (List Char) → Except Cause (Option Bracket × List Char) := fun
      | .error cause => .error cause
      | .ok r => .ok (none, r)
    if c = '[' then .ok (some .array, r)
    else if c = '{' then .ok (some .object, r)
    else if c = '"' then scalar (passText r)
    else if c = '-' then scalar (passUnsigned r)
    else if isDigit c then scalar (passUnsigned (c :: r))
    else if c = 'n' then scalar (nameFrom ['u', 'l', 'l'] r)
    else if c = 't' then scalar (nameFrom ['r', 'u', 'e'] r)
    else if c = 'f' then scalar (nameFrom ['a', 'l', 's', 'e'] r)
    else .error .malformed

/-- Passes over what stands between the start of a member and its value; nothing in an array. -/
def passKey : Bracket → List Char → Except Cause (List Char)
  | .array, s => .ok s
  | .object, s =>
    match skipBlank s with
    | [] => .error .truncated
    | c :: r =>
      if c = '"' then
        match passText r with
        | .error cause => .error cause
        | .ok r =>
          match skipBlank r with
          | [] => .error .truncated
          | c :: r => if c = ':' then .ok r else .error .malformed
      else .error .malformed

private theorem length_lt_of_passHead {s r : List Char} {b : Option Bracket}
    (h : passHead s = .ok (b, r)) : r.length < s.length := by
  unfold passHead at h
  split at h
  · simp at h
  next c r₁ e =>
    have h₁ := length_lt_of_skipBlank_eq_cons e
    have scalar : ∀ {x : Except Cause (List Char)}, (∀ r', x = .ok r' → r'.length ≤ r₁.length) →
        (match x with
          | .error cause => Except.error cause
          | .ok r => .ok ((none : Option Bracket), r)) = .ok (b, r) → r.length < s.length := by
      intro x hx hr
      split at hr
      · simp at hr
      · simp only [Except.ok.injEq, Prod.mk.injEq] at hr
        exact hr.2 ▸ Nat.lt_of_le_of_lt (hx _ rfl) h₁
    dsimp only at h
    split at h
    · simp only [Except.ok.injEq, Prod.mk.injEq] at h; exact h.2 ▸ h₁
    split at h
    · simp only [Except.ok.injEq, Prod.mk.injEq] at h; exact h.2 ▸ h₁
    split at h
    · exact scalar (fun r' hr => Nat.le_of_lt (length_lt_of_passText hr)) h
    split at h
    · exact scalar (fun r' hr => Nat.le_of_lt (length_lt_of_passUnsigned hr)) h
    split at h
    · exact scalar (fun r' hr => by simpa using Nat.le_of_lt_succ (length_lt_of_passUnsigned hr)) h
    split at h
    · exact scalar (fun r' hr => length_le_of_nameFrom hr) h
    split at h
    · exact scalar (fun r' hr => length_le_of_nameFrom hr) h
    split at h
    · exact scalar (fun r' hr => length_le_of_nameFrom hr) h
    · simp at h

private theorem length_le_of_passKey {b : Bracket} {s r : List Char} (h : passKey b s = .ok r) :
    r.length ≤ s.length := by
  cases b with
  | array => simp_all [passKey]
  | object =>
    simp only [passKey] at h
    split at h
    · simp at h
    next e =>
      have h₁ := length_lt_of_skipBlank_eq_cons e
      split at h
      · split at h
        · simp at h
        next e₂ =>
          have h₂ := length_lt_of_passText e₂
          split at h
          · simp at h
          next e₃ =>
            have h₃ := length_lt_of_skipBlank_eq_cons e₃
            split at h
            · simp only [Except.ok.injEq] at h
              rw [← h]
              omega
            · simp at h
      · simp at h

/-- Passes on to the end of the outermost of the brackets in `brackets`, innermost first. A value comes
next if `atValue`, else what follows one. -/
def passFrom (brackets : List Bracket) (atValue : Bool) (s : List Char) : Except Cause (List Char) :=
  if atValue then
    match _h : passHead s with
    | .error cause => .error cause
    | .ok (none, r) => passFrom brackets false r
    | .ok (some b, r) =>
      match _h₁ : skipBlank r with
      | [] => .error .truncated
      | c :: r₁ =>
        if c = b.close then passFrom brackets false r₁
        else
          match _h₂ : passKey b (c :: r₁) with
          | .error cause => .error cause
          | .ok r₂ => passFrom (b :: brackets) true r₂
  else
    match brackets with
    | [] => .ok s
    | b :: outer =>
      match _h : skipBlank s with
      | [] => .error .truncated
      | c :: r =>
        if c = b.close then passFrom outer false r
        else if c = ',' then
          match _h₁ : passKey b r with
          | .error cause => .error cause
          | .ok r₁ => passFrom (b :: outer) true r₁
        else .error .malformed
termination_by s.length
decreasing_by
  · exact length_lt_of_passHead _h
  · exact Nat.lt_trans (length_lt_of_skipBlank_eq_cons _h₁) (length_lt_of_passHead _h)
  · have h₁ := length_le_of_passKey _h₂
    have h₂ := length_lt_of_skipBlank_eq_cons _h₁
    have h₃ := length_lt_of_passHead _h
    simp only [List.length_cons] at h₁
    omega
  · exact length_lt_of_skipBlank_eq_cons _h
  · exact Nat.lt_of_le_of_lt (length_le_of_passKey _h₁) (length_lt_of_skipBlank_eq_cons _h)

private theorem length_le_of_passFrom {brackets : List Bracket} {atValue : Bool} {s r : List Char}
    (h : passFrom brackets atValue s = .ok r) :
    r.length ≤ s.length ∧ (atValue = true → r.length < s.length) := by
  fun_induction passFrom brackets atValue s with
  | case1 | case3 | case5 | case8 | case10 | case12 => simp at h
  | case2 brackets s r₁ e ih =>
    have h₁ := (ih h).1
    have h₂ := length_lt_of_passHead e
    omega
  | case4 brackets s b r₁ e r₂ e₁ ih =>
    have h₁ := (ih h).1
    have h₂ := length_lt_of_passHead e
    have h₃ := length_lt_of_skipBlank_eq_cons e₁
    omega
  | case6 brackets s b r₁ e c r₂ e₁ _ r₃ e₂ ih =>
    have h₁ := (ih h).1
    have h₂ := length_lt_of_passHead e
    have h₃ := length_lt_of_skipBlank_eq_cons e₁
    have h₄ := length_le_of_passKey e₂
    simp only [List.length_cons] at h₄
    omega
  | case7 => simp_all
  | case9 atValue s hv b outer r₁ e ih =>
    have h₁ := (ih h).1
    have h₂ := length_lt_of_skipBlank_eq_cons e
    exact ⟨by omega, fun hv' => absurd hv' hv⟩
  | case11 atValue s hv b outer r₁ r₂ e₁ e _ ih =>
    have h₁ := (ih h).1
    have h₂ := length_lt_of_skipBlank_eq_cons e
    have h₃ := length_le_of_passKey e₁
    exact ⟨by omega, fun hv' => absurd hv' hv⟩

/-- Passes over a value of any kind. -/
def Reader.anything : Reader Unit where
  run s :=
    match passFrom [] true s with
    | .error cause => .error cause
    | .ok r => .ok ((), r)
  shrinks h := by
    split at h
    · simp at h
    next e =>
      simp only [Except.ok.injEq, Prod.mk.injEq] at h
      exact h.2 ▸ (length_le_of_passFrom e).2 rfl

end CausalStore.Wire
