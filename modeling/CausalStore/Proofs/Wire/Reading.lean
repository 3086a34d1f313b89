import CausalStore.Wire.Format
import Mathlib.Data.List.Forall2

/-!
# Reading what was laid out

A reader reads a value off a text (`Reads`) if it does so behind any blanks and in front of whatever
does not continue a numeral. A text that closes itself may stand in front of anything (`Closes`). Lists
in brackets are laid out with single commas and any blanks between their things (`Listed`); a reader
that reads the things reads the list (`elementsFrom_listed`), and a reader of members takes them in one
after the other up to the first fault (`membersFrom_listed`).
-/

namespace CausalStore.Wire

/-- Nothing but blanks. -/
def Blanks (s : List Char) : Prop := ∀ c ∈ s, isBlank c = true

/-- A numeral in front of the text ends there. -/
def Stops (s : List Char) : Prop :=
  ∀ c ∈ s.head?, isDigit c = false ∧ c ≠ '.' ∧ c ≠ 'e' ∧ c ≠ 'E'

/-- The text begins with neither a blank nor a mark that separates or closes. -/
def Opens (s : List Char) : Prop :=
  ∃ c r, s = c :: r ∧ isBlank c = false ∧ c ≠ ',' ∧ c ≠ ']' ∧ c ≠ '\x7d'

variable {α β σ : Type} {p : Reader α} {x b b' r s rest : List Char} {a : α} {c close : Char}
  {first : Bool} {xs : List (List Char)}

theorem Blanks.nil : Blanks [] := nofun

theorem Stops.cons (hc : isDigit c = false ∧ c ≠ '.' ∧ c ≠ 'e' ∧ c ≠ 'E') : Stops (c :: s) := by
  intro c' hc'
  cases hc'
  exact hc

theorem Stops.of_blanks (h : Blanks s) : Stops s := by
  intro c hc
  have hblank : isBlank c = true := h c (List.mem_of_mem_head? hc)
  simp only [isBlank, Bool.or_eq_true, decide_eq_true_eq] at hblank
  rcases hblank with ((rfl | rfl) | rfl) | rfl <;> decide

theorem Stops.append (hs : Stops s) (hr : Stops r) : Stops (s ++ r) := by
  cases s with
  | nil => exact hr
  | cons c s => exact hs

theorem Blanks.stops_append (hb : Blanks b) (hr : Stops r) : Stops (b ++ r) :=
  (Stops.of_blanks hb).append hr

/-! ## Blanks -/

theorem skipBlank_append (hb : Blanks b) (s : List Char) : skipBlank (b ++ s) = skipBlank s := by
  induction b with
  | nil => rfl
  | cons c b ih =>
    rw [skipBlank, List.cons_append, List.dropWhile_cons_of_pos (hb c List.mem_cons_self)]
    exact ih fun c hc => hb c (List.mem_cons_of_mem _ hc)

theorem skipBlank_cons (hc : isBlank c = false) (s : List Char) : skipBlank (c :: s) = c :: s :=
  List.dropWhile_cons_of_neg (Bool.eq_false_iff.1 hc)

theorem skipBlank_of_blanks (hb : Blanks b) : skipBlank b = [] := by
  have h := skipBlank_append hb []
  rwa [List.append_nil] at h

/-- Blanks in front are passed over. -/
theorem skipBlank_append_cons (hb : Blanks b) (hc : isBlank c = false) (s : List Char) :
    skipBlank (b ++ c :: s) = c :: s := by
  rw [skipBlank_append hb, skipBlank_cons hc]

theorem run_char (hb : Blanks b) (hc : isBlank c = false) :
    (Reader.char c).run (b ++ c :: s) = .ok ((), s) := by
  simp only [Reader.char, Reader.ofHead, skipBlank_append_cons hb hc, if_true]

theorem run_afterColon (hb : Blanks b) : p.afterColon.run (b ++ ':' :: s) = p.run s := by
  simp only [Reader.afterColon, Reader.bind, run_char hb (show isBlank ':' = false from rfl)]

theorem run_map (f : α → β) (s : List Char) :
    (p.map f).run s = (p.run s).map fun (a, r) => (f a, r) := by
  unfold Reader.map
  dsimp only
  cases p.run s <;> rfl

/-! ## Reading one thing -/

/-- The reader reads the value off the text, wherever the text stands. -/
structure Reads (p : Reader α) (x : List Char) (a : α) : Prop where
  opens : Opens x
  run {b rest : List Char} : Blanks b → Stops rest → p.run (b ++ x ++ rest) = .ok (a, rest)

/-- The reader reads the value off the text, and what follows makes no difference. -/
structure Closes (p : Reader α) (x : List Char) (a : α) : Prop where
  opens : Opens x
  run {b : List Char} : Blanks b → ∀ rest, p.run (b ++ x ++ rest) = .ok (a, rest)

theorem Closes.reads (h : Closes p x a) : Reads p x a := ⟨h.opens, fun hb _ => h.run hb _⟩

theorem Closes.map (h : Closes p x a) (f : α → β) : Closes (p.map f) x (f a) where
  opens := h.opens
  run hb rest := by
    rw [run_map, h.run hb rest]
    rfl

/-- What follows the key of a member: blanks, a colon, more blanks, and the text of the value. -/
def AfterKey (value tail : List Char) : Prop :=
  ∃ b b', Blanks b ∧ Blanks b' ∧ tail = b ++ ':' :: (b' ++ value)

namespace Reads

theorem map (h : Reads p x a) (f : α → β) : Reads (p.map f) x (f a) where
  opens := h.opens
  run hb hr := by
    rw [run_map, h.run hb hr]
    rfl

theorem filterMap (h : Reads p x a) {f : α → Option β} {y : β} (hf : f a = some y) :
    Reads (p.filterMap f) x y where
  opens := h.opens
  run hb hr := by simp only [Reader.filterMap, h.run hb hr, hf]

theorem run_afterColon (h : Reads p x a) (hs : AfterKey x s) (hr : Stops r) :
    p.afterColon.run (s ++ r) = .ok (a, r) := by
  obtain ⟨b, b', hb, hb', rfl⟩ := hs
  rw [List.append_assoc, List.cons_append, Wire.run_afterColon hb, h.run hb' hr]

end Reads

/-! ## Lists in brackets -/

/-- The things are laid out one after the other, each but the first of the list behind a comma. -/
inductive Listed : Bool → List (List Char) → List Char → Prop
  | nil {first : Bool} {b : List Char} : Blanks b → Listed first [] b
  | head {b x s : List Char} {xs : List (List Char)} : Blanks b → Listed false xs s →
      Listed true (x :: xs) (b ++ (x ++ s))
  | next {b b' x s : List Char} {xs : List (List Char)} : Blanks b → Blanks b' →
      Listed false xs s → Listed false (x :: xs) (b ++ ',' :: (b' ++ (x ++ s)))

theorem Listed.stops (h : Listed false xs s) (hr : Stops r) : Stops (s ++ r) := by
  cases h with
  | nil hb => exact hb.stops_append hr
  | next hb =>
    rw [List.append_assoc]
    exact hb.stops_append (.cons (by decide))

theorem gap_closed (hb : Blanks b) (hc : isBlank close = false) :
    gap close first (b ++ close :: s) = .ok (.closed s) := by
  simp only [gap, skipBlank_append_cons hb hc, if_true]

theorem gap_first (hb : Blanks b) (hc : isBlank c = false) (hne : c ≠ close) :
    gap close true (b ++ c :: s) = .ok (.more (c :: s)) := by
  simp only [gap, skipBlank_append_cons hb hc, if_neg hne, if_true]

theorem gap_next (hb : Blanks b) (hb' : Blanks b') (hc : isBlank c = false) (hne : c ≠ close)
    (hcomma : ',' ≠ close) : gap close false (b ++ ',' :: (b' ++ c :: s)) = .ok (.more (c :: s)) := by
  have hblank : isBlank ',' = false := rfl
  simp only [gap, skipBlank_append_cons hb hblank, skipBlank_append_cons hb' hc, if_neg hne,
    if_neg hcomma, if_true, Bool.false_eq_true, if_false]

theorem elementsFrom_of_fault {cause : Cause} (hg : gap ']' first s = .error cause) :
    elementsFrom p first s = .error cause := by
  rw [elementsFrom]
  split <;> simp_all

theorem elementsFrom_of_closed (hg : gap ']' first s = .ok (.closed r)) :
    elementsFrom p first s = .ok ([], r) := by
  rw [elementsFrom]
  split <;> simp_all

theorem elementsFrom_of_more (hg : gap ']' first s = .ok (.more r)) :
    elementsFrom p first s = match p.run r with
      | .error cause => .error cause
      | .ok (a, r) => (elementsFrom p false r).map fun (as, r) => (a :: as, r) := by
  rw [elementsFrom]
  split
  next h => simp [hg] at h
  next h => simp [hg] at h
  next h =>
    obtain rfl : r = _ := by simpa [hg] using h
    split
    next h => rw [h]
    next a r' h =>
      rw [h]
      dsimp only
      cases elementsFrom p false r' <;> rfl

/-- One element is read. The elements behind it start at `r`. -/
theorem elementsFrom_element {as : List α} (hx : Reads p x a) (hr : Stops r)
    (hg : gap ']' first s = .ok (.more (x ++ r))) (hrest : elementsFrom p false r = .ok (as, rest)) :
    elementsFrom p first s = .ok (a :: as, rest) := by
  have hread : p.run (x ++ r) = .ok (a, r) := hx.run .nil hr
  rw [elementsFrom_of_more hg, hread]
  dsimp only
  rw [hrest]
  rfl

/-- A reader that reads each of the elements reads the rest of an array. -/
theorem elementsFrom_listed {as : List α} (hl : Listed first xs s)
    (h : List.Forall₂ (Reads p) xs as) (rest : List Char) :
    elementsFrom p first (s ++ ']' :: rest) = .ok (as, rest) := by
  have hstop : Stops (']' :: rest) := .cons (by decide)
  induction hl generalizing as with
  | nil hb =>
    cases h
    exact elementsFrom_of_closed (gap_closed hb rfl)
  | @head b x xs s hb hl ih =>
    obtain _ | ⟨hx, h⟩ := h
    obtain ⟨c, y, rfl, hc, -, hne, -⟩ := hx.opens
    rw [List.append_assoc, List.append_assoc]
    exact elementsFrom_element hx (hl.stops hstop) (gap_first hb hc hne) (ih h)
  | @next b b' x xs s hb hb' hl ih =>
    obtain _ | ⟨hx, h⟩ := h
    obtain ⟨c, y, rfl, hc, -, hne, -⟩ := hx.opens
    rw [List.append_assoc, List.cons_append, List.append_assoc, List.append_assoc]
    exact elementsFrom_element hx (hl.stops hstop) (gap_next hb hb' hc hne (by decide)) (ih h)

/-! ## Members -/

/-- The text is a member: its key between quotes, and what follows the key. -/
def IsMember (key : String) (tail x : List Char) : Prop :=
  ∃ k, x = '"' :: (k ++ tail) ∧ ∀ r, Reader.quoted.run (k ++ r) = .ok (key, r)

/-- Taking in members one after the other, each with its key and what follows it, leads from a state
to a result: the last state, or the first fault. -/
inductive TakesIn (member : String → σ → Reader σ) :
    σ → List (String × List Char) → Except Cause σ → Prop
  | done {acc : σ} : TakesIn member acc [] (.ok acc)
  | fault {acc : σ} {m : String × List Char} {ms : List (String × List Char)} {cause : Cause} :
      (∀ r, Stops r → (member m.1 acc).run (m.2 ++ r) = .error cause) →
      TakesIn member acc (m :: ms) (.error cause)
  | step {acc acc' : σ} {m : String × List Char} {ms : List (String × List Char)}
      {result : Except Cause σ} :
      (∀ r, Stops r → (member m.1 acc).run (m.2 ++ r) = .ok (acc', r)) →
      TakesIn member acc' ms result → TakesIn member acc (m :: ms) result

section
variable {key : Reader String} {member : String → σ → Reader σ} {acc : σ}
  {ms : List (String × List Char)} {result : Except Cause σ}

theorem membersFrom_of_fault {cause : Cause} (hg : gap '\x7d' first s = .error cause) :
    membersFrom key member first acc s = .error cause := by
  rw [membersFrom]
  split <;> simp_all

theorem membersFrom_of_closed (hg : gap '\x7d' first s = .ok (.closed r)) :
    membersFrom key member first acc s = .ok (acc, r) := by
  rw [membersFrom]
  split <;> simp_all

theorem membersFrom_of_more (hg : gap '\x7d' first s = .ok (.more ('"' :: r))) :
    membersFrom key member first acc s = match key.run r with
      | .error cause => .error cause
      | .ok (name, r) => match (member name acc).run r with
        | .error cause => .error cause
        | .ok (acc, r) => membersFrom key member false acc r := by
  rw [membersFrom]
  split
  next h => simp [hg] at h
  next h => simp [hg] at h
  next h => simp [hg] at h
  next h =>
    obtain ⟨rfl, rfl⟩ : '"' = _ ∧ r = _ := by simpa [hg] using h
    rw [if_pos rfl]
    split
    next h => rw [h]
    next h =>
      rw [h]
      dsimp only
      split
      next h => rw [h]
      next h => rw [h]

/-- One member is taken in, or its fault is reported. The members behind it start at `r`. -/
theorem membersFrom_member {m : String × List Char} (hm : IsMember m.1 m.2 x)
    (h : TakesIn member acc (m :: ms) result) (hg : gap '\x7d' first s = .ok (.more (x ++ r)))
    (hr : Stops r) (hrest : ∀ {acc}, TakesIn member acc ms result →
      membersFrom .quoted member false acc r = result.map fun acc => (acc, rest)) :
    membersFrom .quoted member first acc s = result.map fun acc => (acc, rest) := by
  obtain ⟨k, rfl, hk⟩ := hm
  rw [List.cons_append, List.append_assoc] at hg
  rw [membersFrom_of_more hg, hk]
  dsimp only
  cases h with
  | fault hrun =>
    rw [hrun r hr]
    rfl
  | step hrun h =>
    rw [hrun r hr]
    exact hrest h

/-- The members of an object are taken in one after the other, up to the first fault. -/
theorem membersFrom_listed (hl : Listed first xs s)
    (hm : List.Forall₂ (fun m => IsMember m.1 m.2) ms xs) (h : TakesIn member acc ms result)
    (rest : List Char) : membersFrom .quoted member first acc (s ++ '\x7d' :: rest) =
      result.map fun acc => (acc, rest) := by
  have hstop : Stops ('\x7d' :: rest) := .cons (by decide)
  have hquote : isBlank '"' = false := rfl
  induction hl generalizing ms acc with
  | nil hb =>
    cases hm
    cases h
    exact membersFrom_of_closed (gap_closed hb rfl)
  | @head b x s xs hb hl ih =>
    obtain _ | ⟨hmx, hm⟩ := hm
    refine membersFrom_member hmx h ?_ (hl.stops hstop) (ih hm)
    obtain ⟨k, rfl, -⟩ := hmx
    simp only [List.append_assoc, List.cons_append]
    exact gap_first hb hquote (by decide)
  | @next b b' x s xs hb hb' hl ih =>
    obtain _ | ⟨hmx, hm⟩ := hm
    refine membersFrom_member hmx h ?_ (hl.stops hstop) (ih hm)
    obtain ⟨k, rfl, -⟩ := hmx
    simp only [List.append_assoc, List.cons_append]
    exact gap_next hb hb' hquote (by decide) (by decide)

end

/-! ## What must be of a type -/

/-- The value, or the fault that there is none of the type. -/
def expected : Option α → Except Cause α
  | some a => .ok a
  | none => .error .mismatched

/-- What is read is judged once more. -/
theorem run_filterMap {f : α → Option β} {o : Option α}
    (h : p.run s = (expected o).map fun a => (a, r)) :
    (p.filterMap f).run s = (expected (o.bind f)).map fun a => (a, r) := by
  cases o with
  | none => simp only [Reader.filterMap, h, expected, Except.map, Option.bind_none]
  | some a =>
    simp only [Reader.filterMap, h, expected, Except.map, Option.bind_some]
    cases f a <;> rfl

/-! ## Whole documents -/

/-- A document is judged by what its text is read as. -/
theorem Format.decode_of_run {f : Format α} {text : List Char} {o : Option α} (hb : Blanks b)
    (h : f.reader.run text = (expected o).map fun a => (a, b)) :
    f.decode (String.ofList text) = expected o := by
  rw [Format.decode, String.toList_ofList, h]
  cases o with
  | none => rfl
  | some a => exact if_pos (skipBlank_of_blanks hb)

/-- A document is read as what its text is read as. -/
theorem Format.decode_of_reads {f : Format α} (h : Reads f.reader x a) (hb : Blanks b)
    (hb' : Blanks b') : f.decode (String.ofList (b ++ x ++ b')) = .ok a :=
  Format.decode_of_run (o := some a) hb' (h.run hb (.of_blanks hb'))

/-- A document also begins with its value. -/
theorem Format.decodeFirst_of_decode {f : Format α} {text : String} (h : f.decode text = .ok a) :
    f.decodeFirst text.toList = .ok a := by
  unfold decode at h
  unfold decodeFirst
  split at h
  · cases h
  next hrun =>
    split at h
    · cases h
      rw [hrun]
      rfl
    · cases h

end CausalStore.Wire
