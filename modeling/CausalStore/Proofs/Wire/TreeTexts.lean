import CausalStore.Proofs.Wire.Literals

/-!
# Texts of trees

The texts that a tree can stand in (`TreeAs`): with any blanks between the tokens, and with texts and
numbers written in any way. `Tree.reader` reads the tree off each of them (`reads_tree`), as long as
its arrays and objects stand at most as deep inside each other as the reader allows.
-/

namespace CausalStore.Wire

/-- The texts of a tree that is neither an array nor an object. -/
inductive ScalarAs : Tree → List Char → Prop
  | null : ScalarAs .null ['n', 'u', 'l', 'l']
  | flag (v : Bool) : ScalarAs (.flag v) (writeFlag v)
  | number {n : Numeral} {s : List Char} : NumeralAs n s → ScalarAs (.number n) s
  | text {w : String} {s : List Char} : QuotedAs w s → ScalarAs (.text w) ('"' :: s)

/-- The text of a member of an object whose value may stand in the texts of `inner`. -/
def MemberAs (inner : Tree → List Char → Prop) (m : String × Tree) (x : List Char) : Prop :=
  ∃ k v tail, QuotedAs m.1 k ∧ inner m.2 v ∧ AfterKey v tail ∧ x = '"' :: (k ++ tail)

/-- The texts of a tree whose items and members may stand in the texts of `inner`. -/
inductive NestedAs (inner : Tree → List Char → Prop) : Tree → List Char → Prop
  | scalar {t : Tree} {s : List Char} : ScalarAs t s → NestedAs inner t s
  | array {ts : List Tree} {xs : List (List Char)} {s : List Char} : List.Forall₂ inner ts xs →
      Listed true xs s → NestedAs inner (.array ts) ('[' :: (s ++ [']']))
  | object {ms : List (String × Tree)} {xs : List (List Char)} {s : List Char} :
      List.Forall₂ (MemberAs inner) ms xs → Listed true xs s →
      NestedAs inner (.object ms) ('\x7b' :: (s ++ ['\x7d']))

/-- The texts of a tree in which arrays and objects stand at most `depth` deep inside each other. -/
def TreeAs : (depth : Nat) → Tree → List Char → Prop
  | 0 => ScalarAs
  | depth + 1 => NestedAs (TreeAs depth)

/-- The document is a text of the tree, with any blanks around it. -/
def Document (depth : Nat) (t : Tree) (text : String) : Prop :=
  ∃ b x b', Blanks b ∧ TreeAs depth t x ∧ Blanks b' ∧ text = String.ofList (b ++ x ++ b')

variable {p : Reader Tree} {t : Tree} {s b r rest : List Char} {c : Char}
  {inner : Tree → List Char → Prop}

/-! ## Reading them -/

/-- A reader that is chosen by the first character, where this chooses the one that reads. -/
theorem Reads.select {choose : Char → Reader Tree} (h : Reads (choose c) (c :: s) t) :
    Reads (.select choose) (c :: s) t := by
  refine ⟨h.opens, fun {b rest} hb hr => ?_⟩
  obtain ⟨c', s', hs, hblank, -⟩ := h.opens
  obtain ⟨rfl, rfl⟩ := List.cons.inj hs
  rw [List.append_assoc, List.cons_append]
  simp only [Reader.select, Reader.ofHead, skipBlank_append_cons hb hblank]
  exact h.run .nil hr

/-- Numbers begin with neither a quote nor a letter. -/
theorem ne_quote_of_digit (h : c = '-' ∨ isDigit c = true) : c ≠ '"' := by
  rintro rfl
  exact absurd h (by decide)

theorem reads_scalar (h : ScalarAs t s) (p : Reader Tree) : Reads (Tree.scalarOr p) s t := by
  cases h with
  | null =>
    refine .select ?_
    rw [if_neg (by decide), if_neg (by decide), if_neg (by decide), if_pos rfl]
    exact (reads_null p).map fun _ => Tree.null
  | flag v =>
    have hread := (reads_flag v).map Tree.flag
    cases v <;> refine .select ?_ <;>
      (rw [if_neg (by decide), if_neg (by decide), if_pos (by decide)]; exact hread)
  | number hn =>
    obtain ⟨c, s, rfl, hc⟩ := hn.opens
    refine .select ?_
    rw [if_neg (ne_quote_of_digit hc), if_pos hc]
    exact (reads_numeral hn).map Tree.number
  | text hw =>
    refine .select ?_
    rw [if_pos rfl]
    exact ((closes_text hw).map Tree.text).reads

section
variable {α : Type} {array object : Reader α} {a : α}

theorem run_bracketed_array (hb : Blanks b) :
    (Reader.bracketed array object).run (b ++ '[' :: s) = array.run s := by
  have hblank : isBlank '[' = false := rfl
  simp only [Reader.bracketed, Reader.ofHead, skipBlank_append_cons hb hblank, if_true]

theorem run_bracketed_object (hb : Blanks b) :
    (Reader.bracketed array object).run (b ++ '\x7b' :: s) = object.run s := by
  have hblank : isBlank '\x7b' = false := rfl
  have hne : '\x7b' ≠ '[' := by decide
  simp only [Reader.bracketed, Reader.ofHead, skipBlank_append_cons hb hblank, if_true, if_neg hne]

/-- An array is read by the reader of arrays. -/
theorem Closes.of_array (h : ∀ rest, array.run (s ++ ']' :: rest) = .ok (a, rest)) :
    Closes (.bracketed array object) ('[' :: (s ++ [']'])) a := by
  refine ⟨⟨'[', _, rfl, by decide⟩, fun hb rest => ?_⟩
  rw [List.append_assoc, List.cons_append, List.append_assoc, run_bracketed_array hb]
  exact h rest

/-- An object is read by the reader of objects. -/
theorem Closes.of_object (h : ∀ rest, object.run (s ++ '\x7d' :: rest) = .ok (a, rest)) :
    Closes (.bracketed array object) ('\x7b' :: (s ++ ['\x7d'])) a := by
  refine ⟨⟨'\x7b', _, rfl, by decide⟩, fun hb rest => ?_⟩
  rw [List.append_assoc, List.cons_append, List.append_assoc, run_bracketed_object hb]
  exact h rest

end

theorem Reads.scalarOr (h : Reads p (c :: s) t) (hc : c = '[' ∨ c = '\x7b') :
    Reads (Tree.scalarOr p) (c :: s) t := by
  refine .select ?_
  have hp : Reads (if c = '[' ∨ c = '\x7b' then p else .fail .malformed) (c :: s) t := by
    rwa [if_pos hc]
  rcases hc with rfl | rfl
  all_goals
    rw [if_neg (by decide), if_neg (by decide), if_neg (by decide), if_neg (by decide)]
    exact hp

/-- A member, with its key apart from what follows the key. -/
def Splits (inner : Tree → List Char → Prop) (m : String × Tree) (e : String × List Char) : Prop :=
  m.1 = e.1 ∧ ∃ v, inner m.2 v ∧ AfterKey v e.2

theorem exists_splits {ms : List (String × Tree)} {xs : List (List Char)}
    (h : List.Forall₂ (MemberAs inner) ms xs) : ∃ es, List.Forall₂ (Splits inner) ms es ∧
      List.Forall₂ (fun e => IsMember e.1 e.2) es xs := by
  induction h with
  | nil => exact ⟨[], .nil, .nil⟩
  | @cons m x ms xs hm _ ih =>
    obtain ⟨es, hsplits, hmembers⟩ := ih
    obtain ⟨k, v, tail, hk, hv, htail, rfl⟩ := hm
    exact ⟨(m.1, tail) :: es, .cons ⟨rfl, v, hv, htail⟩ hsplits,
      .cons (isMember_of_quotedAs hk tail) hmembers⟩

theorem takesIn_trees {ms : List (String × Tree)} {es : List (String × List Char)}
    (h : List.Forall₂ (Splits fun t v => Reads p v t) ms es) (acc : List (String × Tree)) :
    TakesIn (fun key members => .afterColon (p.map fun t => (key, t) :: members)) acc es
      (.ok (ms.reverse ++ acc)) := by
  induction h generalizing acc with
  | nil => exact .done
  | @cons m e ms es hm _ ih =>
    obtain ⟨hkey, v, hv, htail⟩ := hm
    refine .step (fun r hr => (hv.map _).run_afterColon htail hr) ?_
    rw [List.reverse_cons, List.append_assoc, ← hkey]
    exact ih _

/-- A tree is read off each of its texts. -/
theorem reads_tree {depth : Nat} (h : TreeAs depth t s) : Reads (Tree.reader depth) s t := by
  induction depth generalizing t s with
  | zero => exact reads_scalar h _
  | succ depth ih =>
    cases h with
    | scalar h => exact reads_scalar h _
    | array hts hl =>
      refine .scalarOr (Closes.of_array fun rest => ?_).reads (.inl rfl)
      have hread := elementsFrom_listed hl (hts.flip.imp fun _ _ => ih) rest
      rw [run_map]
      change (elementsFrom (Tree.reader depth) true _).map _ = _
      rw [hread]
      rfl
    | object hms hl =>
      refine .scalarOr (Closes.of_object fun rest => ?_).reads (.inr rfl)
      obtain ⟨es, hsplits, hmembers⟩ := exists_splits hms
      have htrees : List.Forall₂ (Splits fun t v => Reads (Tree.reader depth) v t) _ es :=
        hsplits.imp fun _ _ hm => ⟨hm.1, hm.2.imp fun _ => .imp_left ih⟩
      have htaken := takesIn_trees htrees []
      have hread := membersFrom_listed hl hmembers htaken rest
      rw [run_map]
      change (membersFrom _ _ true _ _).map _ = _
      rw [hread, List.append_nil]
      exact congrArg (fun ms => Except.ok (Tree.object ms, rest)) (List.reverse_reverse _)

/-! ## Where another value is expected -/

/-- A scalar is passed over to its end even where its value is not wanted. -/
theorem scalarFrom_append (h : ScalarAs t (c :: s)) (hr : Stops r) :
    scalarFrom c (s ++ r) = .ok r := by
  generalize hx : c :: s = x at h
  cases h with
  | null =>
    obtain ⟨rfl, rfl⟩ := List.cons.inj hx
    rw [scalarFrom, if_neg (by decide), if_neg (by decide), if_pos rfl, nameFrom_append]
  | flag v =>
    cases v with
    | true =>
      obtain ⟨rfl, rfl⟩ : c = 't' ∧ s = ['r', 'u', 'e'] := List.cons.inj hx
      rw [scalarFrom, if_neg (by decide), if_neg (by decide), if_neg (by decide), if_pos rfl,
        nameFrom_append]
    | false =>
      obtain ⟨rfl, rfl⟩ : c = 'f' ∧ s = ['a', 'l', 's', 'e'] := List.cons.inj hx
      rw [scalarFrom, if_neg (by decide), if_neg (by decide), if_neg (by decide),
        if_neg (by decide), if_pos rfl, nameFrom_append]
  | number hn =>
    obtain ⟨c', s', hs, hc⟩ := hn.opens
    obtain ⟨rfl, rfl⟩ := List.cons.inj (hx.trans hs)
    rw [← hx] at hn
    rw [scalarFrom, if_neg (ne_quote_of_digit hc), if_pos hc, numeralFrom_append hn hr]
  | text hw =>
    obtain ⟨rfl, rfl⟩ := List.cons.inj hx
    obtain ⟨k, hk, rfl⟩ := hw
    rw [scalarFrom, if_pos rfl, List.append_assoc, List.singleton_append, textFrom_chars hk]

/-- No scalar begins with a bracket or a brace. -/
theorem ScalarAs.head_ne (h : ScalarAs t (c :: s)) : c ≠ '[' ∧ c ≠ '\x7b' := by
  generalize hx : c :: s = x at h
  cases h with
  | null => exact (List.cons.inj hx).1 ▸ by decide
  | flag v => cases v <;> exact (List.cons.inj hx).1 ▸ by decide
  | number hn =>
    obtain ⟨c', s', hs, hc⟩ := hn.opens
    obtain ⟨rfl, rfl⟩ := List.cons.inj (hx.trans hs)
    constructor
    all_goals
      rintro rfl
      exact absurd hc (by decide)
  | text => exact (List.cons.inj hx).1 ▸ by decide

/-- A scalar that begins with a quote is a text. -/
theorem ScalarAs.quoted (h : ScalarAs t ('"' :: s)) : ∃ w, t = .text w ∧ QuotedAs w s := by
  generalize hx : '"' :: s = x at h
  cases h with
  | null => cases hx
  | flag v => cases v <;> cases hx
  | number hn =>
    obtain ⟨c, s', hs, hc⟩ := hn.opens
    exact absurd (List.cons.inj (hx.trans hs)).1.symm (ne_quote_of_digit hc)
  | text hw =>
    cases hx
    exact ⟨_, rfl, hw⟩

/-- The text that a tree is. -/
def Tree.text? : Tree → Option String
  | .text w => some w
  | _ => none

/-- A tree is a scalar, or its text begins with a bracket or a brace. -/
theorem TreeAs.scalar_or_bracket {depth : Nat} (h : TreeAs depth t (c :: s)) :
    ScalarAs t (c :: s) ∨ t.text? = none ∧ (c = '[' ∨ c = '\x7b') := by
  cases depth with
  | zero => exact .inl h
  | succ depth =>
    generalize hx : c :: s = x at h
    cases h with
    | scalar h => exact .inl h
    | array => exact .inr ⟨rfl, .inl (List.cons.inj hx).1⟩
    | object => exact .inr ⟨rfl, .inr (List.cons.inj hx).1⟩

/-- Where a tree stands and something else is expected, nothing but the type is at fault. -/
theorem misfit_append {depth : Nat} (h : TreeAs depth t (c :: s)) (hr : Stops r) :
    misfit c (s ++ r) = .mismatched := by
  obtain hscalar | ⟨-, hc⟩ := h.scalar_or_bracket
  · rw [misfit, if_neg (not_or.2 hscalar.head_ne), scalarFrom_append hscalar hr]
  · exact if_pos hc

/-- Reading a text where any tree may stand. -/
theorem run_text {depth : Nat} (h : TreeAs depth t s) (hb : Blanks b) (hr : Stops r) :
    Reader.text.run (b ++ s ++ r) = (expected t.text?).map fun w => (w, r) := by
  obtain ⟨c, s, rfl, hblank, -⟩ := (reads_tree h).opens
  by_cases hc : c = '"'
  · subst hc
    obtain hscalar | ⟨-, hbracket⟩ := h.scalar_or_bracket
    · obtain ⟨w, rfl, hw⟩ := hscalar.quoted
      exact (closes_text hw).run hb r
    · exact absurd hbracket (by decide)
  · have htext : t.text? = none := by
      obtain hscalar | ⟨hnone, -⟩ := h.scalar_or_bracket
      · generalize hx : c :: s = x at hscalar
        cases hscalar with
        | text => exact absurd (List.cons.inj hx).1 hc
        | _ => rfl
      · exact hnone
    rw [List.append_assoc, List.cons_append, htext]
    simp only [Reader.text, Reader.ofHead, skipBlank_append_cons hb hblank, if_neg hc,
      misfit_append h hr]
    rfl

/-- Reading an array or an object where a scalar stands. -/
theorem run_bracketed_scalar {α : Type} {array object : Reader α} (h : ScalarAs t s)
    (hb : Blanks b) (hr : Stops r) :
    (Reader.bracketed array object).run (b ++ s ++ r) = .error .mismatched := by
  have htree : TreeAs 0 t s := h
  obtain ⟨c, s, rfl, hblank, -⟩ := (reads_tree htree).opens
  obtain ⟨harray, hobject⟩ := h.head_ne
  rw [List.append_assoc, List.cons_append]
  simp only [Reader.bracketed, Reader.ofHead, skipBlank_append_cons hb hblank, if_neg harray,
    if_neg hobject, misfit_append htree hr]

end CausalStore.Wire
