/-!
# Readers

A reader takes a value off the front of a text. It always takes at least one character, which is what
ends the loops over elements and members. Reading goes from left to right, and the first problem met
is the one that is reported.
-/

namespace CausalStore.Wire

/-- Why a text does not encode a value of the type that is asked for. -/
inductive Cause where
  /-- The text ends too early. -/
  | truncated
  /-- The text breaks the grammar. -/
  | malformed
  /-- The text is well formed but of another type. -/
  | mismatched
  deriving DecidableEq

structure Reader (α : Type) where
  run : List Char → Except Cause (α × List Char)
  shrinks {s : List Char} {a : α} {r : List Char} : run s = .ok (a, r) → r.length < s.length

namespace Reader

variable {α β σ : Type}

/-- Reads nothing, and reports a cause. -/
def fail (cause : Cause) : Reader α := ⟨fun _ => .error cause, by simp⟩

def map (f : α → β) (p : Reader α) : Reader β where
  run s :=
    match p.run s with
    | .error cause => .error cause
    | .ok (a, r) => .ok (f a, r)
  shrinks {s b r} h := by
    split at h
    · simp at h
    next e => simp only [Except.ok.injEq, Prod.mk.injEq] at h; exact h.2 ▸ p.shrinks e

def bind (p : Reader α) (f : α → Reader β) : Reader β where
  run s :=
    match p.run s with
    | .error cause => .error cause
    | .ok (a, r) => (f a).run r
  shrinks {s b r} h := by
    split at h
    · simp at h
    next e => exact Nat.lt_trans ((f _).shrinks h) (p.shrinks e)

/-- Refuses values that have no image. -/
def filterMap (f : α → Option β) (p : Reader α) : Reader β where
  run s :=
    match p.run s with
    | .error cause => .error cause
    | .ok (a, r) =>
      match f a with
      | none => .error .mismatched
      | some b => .ok (b, r)
  shrinks {s b r} h := by
    split at h
    · simp at h
    next e =>
      split at h
      · simp at h
      · simp only [Except.ok.injEq, Prod.mk.injEq] at h; exact h.2 ▸ p.shrinks e

end Reader

/-! ## Blanks and separators -/

def isBlank (c : Char) : Bool := c = ' ' || c = '\n' || c = '\t' || c = '\r'

def skipBlank (s : List Char) : List Char := s.dropWhile isBlank

theorem length_skipBlank_le (s : List Char) : (skipBlank s).length ≤ s.length :=
  (List.dropWhile_sublist isBlank).length_le

theorem length_lt_of_skipBlank_eq_cons {s r : List Char} {c : Char} (h : skipBlank s = c :: r) :
    r.length < s.length := by
  have := length_skipBlank_le s
  rw [h] at this
  exact this

/-- The reader of a value, with the blanks before it. `p` chooses by the first character. -/
def Reader.ofHead {α : Type} (p : Char → List Char → Except Cause (α × List Char))
    (hp : ∀ {c s a r}, p c s = .ok (a, r) → r.length ≤ s.length) : Reader α where
  run s :=
    match skipBlank s with
    | [] => .error .truncated
    | c :: r => p c r
  shrinks {s a r} h := by
    split at h
    · simp at h
    next e => exact Nat.lt_of_le_of_lt (hp h) (length_lt_of_skipBlank_eq_cons e)

/-- Blanks and one given character. -/
def Reader.char (c : Char) : Reader Unit :=
  .ofHead (fun c' r => if c' = c then .ok ((), r) else .error .malformed) fun h => by
    split at h <;> simp_all

/-- Where a list of things in brackets goes on. -/
inductive Gap where
  | closed (rest : List Char)
  /-- The next thing starts at the front of `rest`. -/
  | more (rest : List Char)

/-- What stands before the next thing, or closes the list. Things are separated by single commas. -/
def gap (close : Char) (first : Bool) (s : List Char) : Except Cause Gap :=
  match skipBlank s with
  | [] => .error .truncated
  | c :: r =>
    if c = close then .ok (.closed r)
    else if first then .ok (.more (c :: r))
    else if c = ',' then
      match skipBlank r with
      | [] => .error .truncated
      | c' :: r' => if c' = close then .error .malformed else .ok (.more (c' :: r'))
    else .error .malformed

theorem length_lt_of_gap_closed {close : Char} {first : Bool} {s r : List Char}
    (h : gap close first s = .ok (.closed r)) : r.length < s.length := by
  unfold gap at h
  split at h
  · simp at h
  next e =>
    have := length_lt_of_skipBlank_eq_cons e
    split at h
    · simp_all
    · split at h
      · simp at h
      · split at h
        · split at h
          · simp at h
          · split at h <;> simp at h
        · simp at h

theorem length_le_of_gap_more {close : Char} {first : Bool} {s r : List Char}
    (h : gap close first s = .ok (.more r)) : r.length ≤ s.length := by
  unfold gap at h
  split at h
  · simp at h
  next c r₁ e =>
    have h₁ := length_lt_of_skipBlank_eq_cons e
    split at h
    · simp at h
    · split at h
      · simp only [Except.ok.injEq, Gap.more.injEq] at h; subst h; exact h₁
      · split at h
        · split at h
          · simp at h
          next c' r₂ e' =>
            have h₂ := length_lt_of_skipBlank_eq_cons e'
            split at h
            · simp at h
            · simp only [Except.ok.injEq, Gap.more.injEq] at h; subst h
              simp only [List.length_cons]; omega
        · simp at h

variable {α β σ : Type}

/-- The elements of an array up to its closing bracket, when its opening one was read. -/
def elementsFrom (p : Reader α) (first : Bool) (s : List Char) :
    Except Cause (List α × List Char) :=
  match _hg : gap ']' first s with
  | .error cause => .error cause
  | .ok (.closed r) => .ok ([], r)
  | .ok (.more r) =>
    match _hp : p.run r with
    | .error cause => .error cause
    | .ok (a, r') =>
      match elementsFrom p false r' with
      | .error cause => .error cause
      | .ok (as, r'') => .ok (a :: as, r'')
termination_by s.length
decreasing_by
  exact Nat.lt_of_lt_of_le (p.shrinks _hp) (length_le_of_gap_more _hg)

theorem length_lt_of_elementsFrom {p : Reader α} {first : Bool} {s : List Char} {as : List α}
    {r : List Char} (h : elementsFrom p first s = .ok (as, r)) : r.length < s.length := by
  fun_induction elementsFrom p first s generalizing as r with
  | case1 => simp at h
  | case2 first s r₁ hg =>
    simp only [Except.ok.injEq, Prod.mk.injEq] at h
    exact h.2 ▸ length_lt_of_gap_closed hg
  | case3 => simp at h
  | case4 => simp at h
  | case5 first s r₁ hg a r₂ hp as' r₃ e ih =>
    simp only [Except.ok.injEq, Prod.mk.injEq] at h
    have h₁ := ih e
    have h₂ := p.shrinks hp
    have h₃ := length_le_of_gap_more hg
    rw [← h.2]
    omega

/-- The rest of an array. -/
def Reader.elements (p : Reader α) : Reader (List α) :=
  ⟨elementsFrom p true, length_lt_of_elementsFrom⟩

/-- The same, where elements were read before. -/
def Reader.furtherElements (p : Reader α) : Reader (List α) :=
  ⟨elementsFrom p false, length_lt_of_elementsFrom⟩

/-- Reads on in an array that must have another element. -/
def Reader.nextElement (first : Bool) (p : Reader α) : Reader α where
  run s :=
    match gap ']' first s with
    | .error cause => .error cause
    | .ok (.closed _) => .error .mismatched
    | .ok (.more r) => p.run r
  shrinks {s a r} h := by
    split at h
    · simp at h
    · simp at h
    next e => exact Nat.lt_of_lt_of_le (p.shrinks h) (length_le_of_gap_more e)

/-- The members of an object up to its closing brace, when its opening one was read. `key` reads what
stands behind the quote that opens a key, and `member` what follows the key. -/
def membersFrom (key : Reader String) (member : String → σ → Reader σ) (first : Bool) (acc : σ)
    (s : List Char) : Except Cause (σ × List Char) :=
  match _hg : gap '}' first s with
  | .error cause => .error cause
  | .ok (.closed r) => .ok (acc, r)
  | .ok (.more []) => .error .truncated
  | .ok (.more (c :: r)) =>
    if c = '"' then
      match _hk : key.run r with
      | .error cause => .error cause
      | .ok (name, r₁) =>
        match _hm : (member name acc).run r₁ with
        | .error cause => .error cause
        | .ok (acc', r₂) => membersFrom key member false acc' r₂
    else .error .malformed
termination_by s.length
decreasing_by
  have h₁ := length_le_of_gap_more _hg
  have h₂ := key.shrinks _hk
  have h₃ := (member name acc).shrinks _hm
  simp only [List.length_cons] at h₁
  omega

theorem length_lt_of_membersFrom {key : Reader String} {member : String → σ → Reader σ}
    {first : Bool} {acc : σ} {s : List Char} {a : σ} {r : List Char}
    (h : membersFrom key member first acc s = .ok (a, r)) : r.length < s.length := by
  fun_induction membersFrom key member first acc s with
  | case1 | case3 | case4 | case5 | case7 => simp at h
  | case2 first acc s r₁ hg =>
    simp only [Except.ok.injEq, Prod.mk.injEq] at h
    exact h.2 ▸ length_lt_of_gap_closed hg
  | case6 first acc s r₁ name r₂ hk acc' r₃ hm hg ih =>
    have h₁ := length_le_of_gap_more hg
    have h₂ := key.shrinks hk
    have h₃ := (member name acc).shrinks hm
    have h₄ := ih h
    simp only [List.length_cons] at h₁
    omega

/-- The rest of an object, taken in member by member. -/
def Reader.members (key : Reader String) (member : String → σ → Reader σ) (acc : σ) : Reader σ :=
  ⟨membersFrom key member true acc, length_lt_of_membersFrom⟩

end CausalStore.Wire
