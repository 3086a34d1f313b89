import CausalStore.Proofs.Wire.Written

/-!
# Texts that are cut off

A text is cut off if it ends before its last character does (`Cut`). Wherever a text is cut off that
closes itself, its reader finds it truncated (`Breaks`). What is left of a number is a smaller number,
but its reader then leaves nothing for whatever has to come next (`RunsOut`). So lists in brackets
break if what they hold runs out (`breaks_elements`, `breaks_members`).
-/

namespace CausalStore.Wire

/-- The text `u` is what is left of `x` when its end is cut off. -/
def Cut (u x : List Char) : Prop := ∃ v, v ≠ [] ∧ x = u ++ v

variable {u v x y s rest : List Char} {c : Char} {cs name : List Char} {n : Nat} {w : String}

theorem Cut.nil (h : x ≠ []) : Cut [] x := ⟨x, h, rfl⟩

theorem Cut.of_cons (h : Cut u (c :: x)) : u = [] ∨ ∃ u', u = c :: u' ∧ Cut u' x := by
  obtain ⟨v, hv, hx⟩ := h
  cases u with
  | nil => exact .inl rfl
  | cons c' u =>
    obtain ⟨rfl, rfl⟩ := List.cons.inj hx
    exact .inr ⟨u, rfl, v, hv, rfl⟩

theorem Cut.of_append (h : Cut u (x ++ y)) : Cut u x ∨ ∃ u', u = x ++ u' ∧ Cut u' y := by
  obtain ⟨v, hv, hxy⟩ := h
  rcases List.append_eq_append_iff.1 hxy with ⟨u', rfl, rfl⟩ | ⟨v', rfl, rfl⟩
  · exact .inr ⟨u', rfl, v, hv, rfl⟩
  · by_cases hnil : v' = []
    · subst hnil
      rw [List.nil_append] at hv
      exact .inr ⟨[], by simp, .nil hv⟩
    · exact .inl ⟨v', hnil, rfl⟩

theorem Cut.not_nil : ¬ Cut u [] := by
  rintro ⟨v, hv, h⟩
  exact hv (List.append_eq_nil_iff.1 h.symm).2

/-- Nothing is left of a single character. -/
theorem Cut.of_singleton (h : Cut u [c]) : u = [] := by
  rcases h.of_cons with rfl | ⟨u', -, h⟩
  · rfl
  · exact absurd h Cut.not_nil

theorem Cut.stops (h : Cut u x) (hx : Stops x) : Stops u := by
  obtain ⟨v, -, rfl⟩ := h
  cases u with
  | nil => exact nofun
  | cons c u => exact hx

theorem Cut.subset (h : Cut u x) : u ⊆ x := by
  obtain ⟨v, -, rfl⟩ := h
  exact List.subset_append_left u v

/-! ## Readers of what is left -/

section
variable {α β : Type} {p : Reader α} {q : Reader β} {a : α}

/-- Wherever the text is cut off, the reader misses the rest. -/
def Breaks (p : Reader α) (x : List Char) : Prop := ∀ u, Cut u x → p.run u = .error .truncated

/-- Wherever the text is cut off, the reader misses the rest, or takes all that is left. -/
def RunsOut (p : Reader α) (x : List Char) : Prop :=
  ∀ u, Cut u x → p.run u = .error .truncated ∨ ∃ a, p.run u = .ok (a, [])

theorem Breaks.runsOut (h : Breaks p x) : RunsOut p x := fun u hu => .inl (h u hu)

theorem Breaks.map (h : Breaks p x) (f : α → β) : Breaks (p.map f) x := fun u hu => by
  rw [run_map, h u hu]
  rfl

theorem Breaks.filterMap (h : Breaks p x) (f : α → Option β) : Breaks (p.filterMap f) x :=
  fun u hu => by simp only [Reader.filterMap, h u hu]

theorem RunsOut.map (h : RunsOut p x) (f : α → β) : RunsOut (p.map f) x := fun u hu => by
  rw [run_map]
  rcases h u hu with h | ⟨a, h⟩
  · exact .inl (by rw [h]; rfl)
  · exact .inr ⟨f a, by rw [h]; rfl⟩

theorem Reads.run_all (h : Reads p x a) : p.run x = .ok (a, []) := by
  have hrun := h.run .nil (show Stops [] from nofun)
  rwa [List.nil_append, List.append_nil] at hrun

theorem RunsOut.afterColon (h : RunsOut p x) : RunsOut p.afterColon (':' :: x) := fun u hu => by
  rcases hu.of_cons with rfl | ⟨u', rfl, hu'⟩
  · exact .inl rfl
  · have hrun : p.afterColon.run (':' :: u') = p.run u' := run_afterColon .nil
    rw [hrun]
    exact h u' hu'

theorem RunsOut.select {choose : Char → Reader α} (hc : isBlank c = false)
    (h : RunsOut (choose c) (c :: x)) : RunsOut (.select choose) (c :: x) := fun u hu => by
  rcases hu.of_cons with rfl | ⟨u', rfl, -⟩
  · exact .inl rfl
  · simp only [Reader.select, Reader.ofHead, skipBlank_cons hc]
    exact h _ hu

end

/-! ## Texts -/

theorem utf8ByteSize_of_ascii (h : ∀ c ∈ s, c.utf8Size = 1) :
    (String.ofList s).utf8ByteSize = s.length := by
  rw [← String.size_toByteArray, String.toByteArray_ofList]
  induction s with
  | nil => rfl
  | cons c s ih =>
    obtain ⟨hc, hs⟩ := List.forall_mem_cons.1 h
    rw [List.utf8Encode_cons, ByteArray.size_append, List.utf8Encode_singleton,
      List.size_toByteArray, String.length_utf8EncodeChar, hc, ih hs, List.length_cons, Nat.add_comm]

theorem utf8Size_of_digit {i : Nat} (h : Radix.digitValue? c = some i) : c.utf8Size = 1 := by
  rw [Char.utf8Size_eq_one_iff]
  unfold Radix.digitValue? at h
  split at h
  next hc => exact Nat.le_trans hc.2 (by decide)
  · split at h
    next hc => exact Nat.le_trans hc.2 (by decide)
    · split at h
      next hc => exact Nat.le_trans hc.2 (by decide)
      · cases h

theorem hexWord_of_cut (h : HexAs n x) (hu : Cut u x) : hexWord u = .error .truncated := by
  obtain ⟨ha, hb, hc, hd⟩ := h
  have hascii : ∀ c ∈ u, c.utf8Size = 1 := by
    intro c hmem
    have := hu.subset hmem
    simp only [List.mem_cons, List.not_mem_nil, or_false] at this
    rcases this with rfl | rfl | rfl | rfl
    exacts [utf8Size_of_digit ha, utf8Size_of_digit hb, utf8Size_of_digit hc, utf8Size_of_digit hd]
  have hlength : u.length < 4 := by
    obtain ⟨v, hv, hx⟩ := hu
    have := congrArg List.length hx
    have := List.length_pos_iff.2 hv
    simp only [List.length_cons, List.length_nil, List.length_append] at *
    omega
  have hsize : (String.ofList u).utf8ByteSize < 4 := by rwa [utf8ByteSize_of_ascii hascii]
  unfold hexWord
  split
  · simp only [List.length_cons] at hlength
    omega
  · exact if_pos hsize

/-- A character that is cut off is noticed, however it is written. -/
theorem textFrom_of_cut_char (h : CharAs c x) (hu : Cut u x) : textFrom u = .error .truncated := by
  have hnil : textFrom [] = .error .truncated := by rw [textFrom]
  have hescape {u : List Char} (he : escaped u = .error .truncated) :
      textFrom ('\\' :: u) = .error .truncated := by
    rw [textFrom, if_neg (by decide), if_pos rfl]
    split <;> simp_all
  have hword {u : List Char} (hc : codePoint u = .error .truncated) :
      textFrom ('\\' :: 'u' :: u) = .error .truncated := hescape hc
  have hhex {n : Nat} {x u : List Char} (hx : HexAs n x) (hu : Cut u x) :
      codePoint u = .error .truncated := by
    rw [codePoint, hexWord_of_cut hx hu]
  cases h with
  | plain =>
    rw [hu.of_singleton, hnil]
  | short hx =>
    rcases hu.of_cons with rfl | ⟨u₁, rfl, hu₁⟩
    · exact hnil
    · rw [hu₁.of_singleton]
      exact hescape rfl
  | word hds =>
    rcases hu.of_cons with rfl | ⟨u₁, rfl, hu₁⟩
    · exact hnil
    rcases hu₁.of_cons with rfl | ⟨u₂, rfl, hu₂⟩
    · exact hescape rfl
    · exact hword (hhex hds hu₂)
  | @pair high low ds es hds hes h₁ h₂ =>
    rcases hu.of_cons with rfl | ⟨u₁, rfl, hu₁⟩
    · exact hnil
    rcases hu₁.of_cons with rfl | ⟨u₂, rfl, hu₂⟩
    · exact hescape rfl
    refine hword ?_
    rcases hu₂.of_append with hu₂ | ⟨u₃, rfl, hu₃⟩
    · exact hhex hds hu₂
    -- The first half is there, and the second is missing or cut off.
    rw [codePoint, hexWord_append hds]
    dsimp only
    rw [if_pos ⟨h₁, h₂⟩]
    rcases hu₃.of_cons with rfl | ⟨u₄, rfl, hu₄⟩
    · rfl
    rcases hu₄.of_cons with rfl | ⟨u₅, rfl, hu₅⟩
    · rfl
    rw [lowHalf, hexWord_of_cut hes hu₅]

theorem textFrom_of_cut (h : CharsAs cs s) (hu : Cut u (s ++ ['"'])) :
    textFrom u = .error .truncated := by
  induction h generalizing u with
  | nil =>
    rw [List.nil_append] at hu
    rw [hu.of_singleton, textFrom]
  | cons hc _ ih =>
    rw [List.append_assoc] at hu
    rcases hu.of_append with hu | ⟨u', rfl, hu'⟩
    · exact textFrom_of_cut_char hc hu
    · rw [textFrom_char hc, ih hu']
      rfl

theorem breaks_quoted (h : QuotedAs w s) : Breaks .quoted s := fun u hu => by
  obtain ⟨k, hk, rfl⟩ := h
  rw [Reader.quoted, run_map]
  change (textFrom u).map _ = _
  rw [textFrom_of_cut hk hu]
  rfl

theorem breaks_quote (w : String) : Breaks .text (quote w) := fun u hu => by
  obtain ⟨k, hk, hquoted⟩ := quotedAs_quote w
  rw [hk] at hu
  rcases hu.of_cons with rfl | ⟨u', rfl, hu'⟩
  · rfl
  · exact breaks_quoted hquoted u' hu'

/-! ## Numbers and names -/

theorem WholeAs.of_cut (h : WholeAs x) (hu : Cut u x) (hne : u ≠ []) : WholeAs u where
  ne_nil := hne
  all c hc := h.all c (hu.subset hc)
  zero hzero := by
    obtain ⟨v, hv, rfl⟩ := hu
    cases u with
    | nil => exact absurd rfl hne
    | cons c u =>
      -- A number that begins with a zero is this zero alone, and nothing is left of it.
      have hall := h.zero hzero
      exact absurd (List.append_eq_nil_iff.1 (List.cons.inj hall).2).2 hv

theorem value_le_of_cut (h : Cut u x) : Decimal.value u ≤ Decimal.value x := by
  obtain ⟨v, -, rfl⟩ := h
  rw [Decimal.value, Decimal.value, List.foldl_append]
  generalize List.foldl _ 0 u = n
  induction v generalizing n with
  | nil => exact Nat.le_refl n
  | cons c v ih =>
    have hstep : n ≤ 10 * n + (Decimal.digitValue? c).getD 0 := by omega
    exact Nat.le_trans hstep (ih _)

/-- What is left of the digits of a word is a smaller word. -/
theorem reads_of_cut_digits (h : Cut u (Decimal.digits n)) (hne : u ≠ []) (hn : n < UInt64.size) :
    ∃ m : UInt64, m.toNat ≤ n ∧ Reads .numeral u (.word m) := by
  have hle : Decimal.value u ≤ n := Decimal.value_digits n ▸ value_le_of_cut h
  have hword : NumeralAs _ u := .word ((wholeAs_digits n).of_cut h hne) (by omega)
  refine ⟨.ofNat (Decimal.value u), ?_, reads_numeral hword⟩
  rwa [UInt64.toNat_ofNat_of_lt' (by omega)]

theorem runsOut_numeral (n : UInt64) : RunsOut .numeral (Decimal.digits n.toNat) := fun u hu => by
  by_cases hne : u = []
  · subst hne
    exact .inl rfl
  · obtain ⟨m, -, hm⟩ := reads_of_cut_digits hu hne n.toNat_lt_size
    exact .inr ⟨_, hm.run_all⟩

theorem runsOut_word (n : UInt64) : RunsOut .word (Decimal.digits n.toNat) := fun u hu => by
  by_cases hne : u = []
  · subst hne
    exact .inl rfl
  · obtain ⟨m, -, hm⟩ := reads_of_cut_digits hu hne n.toNat_lt_size
    have hword : Reads .word u m := hm.filterMap rfl
    exact .inr ⟨m, hword.run_all⟩

theorem runsOut_port (n : UInt16) : RunsOut .port (Decimal.digits n.toNat) := fun u hu => by
  by_cases hne : u = []
  · subst hne
    exact .inl rfl
  · have hn := n.toNat_lt_size
    obtain ⟨m, hle, hm⟩ := reads_of_cut_digits hu hne (Nat.lt_trans hn (by decide))
    have hword : Reads .word u m := hm.filterMap rfl
    exact .inr ⟨m.toUInt16, (hword.filterMap (if_pos (Nat.lt_of_le_of_lt hle hn))).run_all⟩

theorem nameFrom_of_cut (h : Cut u name) : nameFrom name u = .error .truncated := by
  induction name generalizing u with
  | nil => exact absurd h Cut.not_nil
  | cons c name ih =>
    rcases h.of_cons with rfl | ⟨u', rfl, h'⟩
    · rfl
    · rw [nameFrom, if_pos rfl, ih h']

theorem breaks_flag (v : Bool) : Breaks .flag (writeFlag v) := fun u hu => by
  cases v with
  | true =>
    have hcut : Cut u ['t', 'r', 'u', 'e'] := hu
    rcases hcut.of_cons with rfl | ⟨u', rfl, hu'⟩
    · rfl
    · have ht : isBlank 't' = false := rfl
      simp only [Reader.flag, Reader.ofHead, skipBlank_cons ht, if_true, nameFrom_of_cut hu']
  | false =>
    have hcut : Cut u ['f', 'a', 'l', 's', 'e'] := hu
    rcases hcut.of_cons with rfl | ⟨u', rfl, hu'⟩
    · rfl
    · have hf : isBlank 'f' = false := rfl
      simp only [Reader.flag, Reader.ofHead, skipBlank_cons hf, if_true, nameFrom_of_cut hu',
        if_neg (show 'f' ≠ 't' by decide)]

section
variable {α : Type} {p : Reader α}

theorem breaks_null (p : Reader α) : Breaks (.orNull p) ['n', 'u', 'l', 'l'] := fun u hu => by
  rcases hu.of_cons with rfl | ⟨u', rfl, hu'⟩
  · rfl
  · have hn : isBlank 'n' = false := rfl
    simp only [Reader.orNull, Reader.ofHead, skipBlank_cons hn, if_true, nameFrom_of_cut hu']

theorem RunsOut.orNull (h : RunsOut p (c :: x)) (hblank : isBlank c = false) (hc : c ≠ 'n') :
    RunsOut (.orNull p) (c :: x) := fun u hu => by
  rcases hu.of_cons with rfl | ⟨u', rfl, -⟩
  · exact .inl rfl
  · simp only [Reader.orNull, Reader.ofHead, skipBlank_cons hblank, if_neg hc]
    exact (h.map some) _ hu

end

/-! ## Lists in brackets -/

section
variable {α : Type} {p array object : Reader α} {as : List α}
  {xs : List (List Char)} {first : Bool}

theorem Breaks.of_array (h : Breaks array (s ++ [']'])) :
    Breaks (.bracketed array object) ('[' :: (s ++ [']'])) := fun u hu => by
  rcases hu.of_cons with rfl | ⟨u', rfl, hu'⟩
  · rfl
  · rw [← List.nil_append ('[' :: u'), run_bracketed_array .nil]
    exact h u' hu'

theorem Breaks.of_object (h : Breaks object (s ++ ['\x7d'])) :
    Breaks (.bracketed array object) ('\x7b' :: (s ++ ['\x7d'])) := fun u hu => by
  rcases hu.of_cons with rfl | ⟨u', rfl, hu'⟩
  · rfl
  · rw [← List.nil_append ('\x7b' :: u'), run_bracketed_object .nil]
    exact h u' hu'

/-- An array that is cut off in the element that comes next, or behind it. -/
theorem elementsFrom_of_cut_element {a : α} (hx : Reads p x a) (hcut : RunsOut p x)
    (hrest : ∀ u, Cut u rest → elementsFrom p false u = .error .truncated) (hstops : Stops rest)
    (hg : gap ']' first s = .ok (.more u)) (hu : Cut u (x ++ rest)) :
    elementsFrom p first s = .error .truncated := by
  rw [elementsFrom_of_more hg]
  rcases hu.of_append with hu | ⟨u', rfl, hu'⟩
  · rcases hcut u hu with h | ⟨a, h⟩
    · rw [h]
    · -- What is left of the element is an element, but the array does not go on.
      have hend : elementsFrom p false [] = .error .truncated := elementsFrom_of_fault rfl
      rw [h]
      dsimp only
      rw [hend]
      rfl
  · have hread : p.run (x ++ u') = .ok (a, u') := hx.run .nil (hu'.stops hstops)
    rw [hread]
    dsimp only
    rw [hrest u' hu']
    rfl

/-- The elements behind the first one. -/
theorem elementsFrom_of_cut_further (h : List.Forall₂ (Reads p) xs as)
    (hcut : ∀ x ∈ xs, RunsOut p x) (hu : Cut u (xs.flatMap (',' :: ·) ++ [']'])) :
    elementsFrom p false u = .error .truncated := by
  induction h generalizing u with
  | nil =>
    rw [Cut.of_singleton (c := ']') hu]
    exact elementsFrom_of_fault rfl
  | @cons x a xs as hx h ih =>
    obtain ⟨hcutx, hcut⟩ := List.forall_mem_cons.1 hcut
    rw [List.flatMap_cons, List.cons_append, List.cons_append, List.append_assoc] at hu
    rcases hu.of_cons with rfl | ⟨u₁, rfl, hu₁⟩
    · exact elementsFrom_of_fault rfl
    obtain ⟨c, y, hxc, hc, -, hclose, -⟩ := hx.opens
    have hcut₁ := hu₁
    rw [hxc, List.cons_append] at hcut₁
    rcases hcut₁.of_cons with rfl | ⟨u₂, rfl, -⟩
    · exact elementsFrom_of_fault rfl
    · exact elementsFrom_of_cut_element hx hcutx (fun u hu => ih hcut hu)
        ((listed_further xs).stops (.cons (by decide))) (gap_next .nil .nil hc hclose (by decide)) hu₁

theorem breaks_elements (h : List.Forall₂ (Reads p) xs as) (hcut : ∀ x ∈ xs, RunsOut p x) :
    Breaks (.elements p) (commaSeparated xs ++ [']']) := fun u hu => by
  change elementsFrom p true u = .error .truncated
  cases h with
  | nil =>
    rw [Cut.of_singleton (c := ']') hu]
    exact elementsFrom_of_fault rfl
  | @cons x a xs as hx h =>
    obtain ⟨hcutx, hcut⟩ := List.forall_mem_cons.1 hcut
    rw [commaSeparated_cons, List.append_assoc] at hu
    obtain ⟨c, y, hxc, hc, -, hclose, -⟩ := hx.opens
    have hcut₁ := hu
    rw [hxc, List.cons_append] at hcut₁
    rcases hcut₁.of_cons with rfl | ⟨u₂, rfl, -⟩
    · exact elementsFrom_of_fault rfl
    · exact elementsFrom_of_cut_element hx hcutx (fun u => elementsFrom_of_cut_further h hcut)
        ((listed_further xs).stops (.cons (by decide))) (gap_first .nil hc hclose) hu

end

section
variable {σ : Type} {member : String → σ → Reader σ} {acc acc' : σ} {e : String × List Char}
  {es : List (String × List Char)} {first : Bool} {k : List Char}

/-- Where the member can be taken in, it also runs out. -/
def MemberRunsOut (member : String → σ → Reader σ) (e : String × List Char) : Prop :=
  ∀ acc acc', (∀ r, Stops r → (member e.1 acc).run (':' :: e.2 ++ r) = .ok (acc', r)) →
    RunsOut (member e.1 acc) (':' :: e.2)

/-- An object that is cut off in the member that comes next, or behind it. -/
theorem membersFrom_of_cut_member (hk : QuotedAs e.1 k) (hcut : MemberRunsOut member e)
    (htaken : ∀ r, Stops r → (member e.1 acc).run (':' :: e.2 ++ r) = .ok (acc', r))
    (hrest : ∀ u, Cut u rest → membersFrom .quoted member false acc' u = .error .truncated)
    (hstops : Stops rest) (hg : gap '\x7d' first s = .ok (.more ('"' :: u)))
    (hu : Cut u (k ++ (':' :: e.2 ++ rest))) :
    membersFrom .quoted member first acc s = .error .truncated := by
  rw [membersFrom_of_more hg]
  rcases hu.of_append with hu | ⟨u₁, rfl, hu₁⟩
  · rw [breaks_quoted hk u hu]
  · rw [run_quoted hk u₁]
    dsimp only
    rcases hu₁.of_append with hu₁ | ⟨u₂, rfl, hu₂⟩
    · rcases hcut acc acc' htaken u₁ hu₁ with h | ⟨acc₁, h⟩
      · rw [h]
      · rw [h]
        exact membersFrom_of_fault rfl
    · rw [htaken u₂ (hu₂.stops hstops)]
      exact hrest u₂ hu₂

/-- The members behind the first one. -/
theorem membersFrom_of_cut_further (h : TakesIn member acc (es.map behindKey) (.ok acc'))
    (hcut : ∀ e ∈ es, MemberRunsOut member e)
    (hu : Cut u ((memberTexts es).flatMap (',' :: ·) ++ ['\x7d'])) :
    membersFrom .quoted member false acc u = .error .truncated := by
  induction es generalizing acc u with
  | nil =>
    rw [Cut.of_singleton (c := '\x7d') hu]
    exact membersFrom_of_fault rfl
  | cons e es ih =>
    obtain ⟨hcute, hcut⟩ := List.forall_mem_cons.1 hcut
    cases h with
    | step htaken h =>
      obtain ⟨k, hquote, hk⟩ := quotedAs_quote e.1
      rw [memberTexts, List.map_cons, List.flatMap_cons, writeMember, hquote] at hu
      simp only [List.cons_append, List.append_assoc] at hu
      rcases hu.of_cons with rfl | ⟨u₁, rfl, hu₁⟩
      · exact membersFrom_of_fault rfl
      rcases hu₁.of_cons with rfl | ⟨u₂, rfl, hu₂⟩
      · exact membersFrom_of_fault rfl
      · exact membersFrom_of_cut_member hk hcute htaken (fun u hu => ih h hcut hu)
          ((listed_further _).stops (.cons (by decide)))
          (gap_next .nil .nil (by decide) (by decide) (by decide)) hu₂

theorem breaks_members (h : TakesIn member acc (es.map behindKey) (.ok acc'))
    (hcut : ∀ e ∈ es, MemberRunsOut member e) :
    Breaks (.members .quoted member acc) (commaSeparated (memberTexts es) ++ ['\x7d']) :=
  fun u hu => by
  change membersFrom .quoted member true acc u = .error .truncated
  cases es with
  | nil =>
    rw [Cut.of_singleton (c := '\x7d') hu]
    exact membersFrom_of_fault rfl
  | cons e es =>
    obtain ⟨hcute, hcut⟩ := List.forall_mem_cons.1 hcut
    cases h with
    | step htaken h =>
      obtain ⟨k, hquote, hk⟩ := quotedAs_quote e.1
      rw [memberTexts, List.map_cons, commaSeparated_cons, writeMember, hquote] at hu
      simp only [List.cons_append, List.append_assoc] at hu
      rcases hu.of_cons with rfl | ⟨u₁, rfl, hu₁⟩
      · exact membersFrom_of_fault rfl
      · exact membersFrom_of_cut_member hk hcute htaken
          (fun u hu => membersFrom_of_cut_further h hcut hu)
          ((listed_further _).stops (.cons (by decide)))
          (gap_first .nil (by decide) (by decide)) hu₁

end

end CausalStore.Wire
