import CausalStore.Proofs.Wire.Reading

/-!
# Literals

The ways to write a text between quotes (`QuotedAs`) and a number (`NumeralAs`). The readers of texts
and of numbers read each of them, and the text or number as it is written is one of them.
-/

namespace CausalStore.Wire

/-! ## Texts -/

/-- The digits are four hexadecimal ones and denote the number. -/
inductive HexAs : Nat → List Char → Prop
  | mk {a b c d : Char} {i j k l : Nat} : Radix.digitValue? a = some i →
      Radix.digitValue? b = some j → Radix.digitValue? c = some k → Radix.digitValue? d = some l →
      HexAs (((i * 16 + j) * 16 + k) * 16 + l) [a, b, c, d]

/-- The ways to write a character between quotes. -/
inductive CharAs (c : Char) : List Char → Prop
  | plain : ¬ c < ' ' → c ≠ '"' → c ≠ '\\' → CharAs c [c]
  | short {x : Char} : shortEscape? x = some c → CharAs c ['\\', x]
  | word {ds : List Char} : HexAs c.toNat ds → CharAs c ('\\' :: 'u' :: ds)
  /-- A character beyond U+FFFF, as two halves. -/
  | pair {high low : Nat} {ds es : List Char} : HexAs high ds → HexAs low es →
      0xD800 ≤ high → high ≤ 0xDBFF → 0xDC00 ≤ low → low ≤ 0xDFFF →
      c.toNat = 0x10000 + (high - 0xD800) * 0x400 + (low - 0xDC00) →
      CharAs c ('\\' :: 'u' :: (ds ++ '\\' :: 'u' :: es))

/-- The characters are written one after the other. -/
inductive CharsAs : List Char → List Char → Prop
  | nil : CharsAs [] []
  | cons {c : Char} {x cs s : List Char} : CharAs c x → CharsAs cs s → CharsAs (c :: cs) (x ++ s)

/-- The ways to write a text, from behind its opening quote. -/
def QuotedAs (w : String) (s : List Char) : Prop := ∃ k, CharsAs w.toList k ∧ s = k ++ ['"']

variable {c : Char} {x b r s ds cs : List Char} {n : Nat} {w : String}

theorem hexWord_append (h : HexAs n ds) (r : List Char) : hexWord (ds ++ r) = .ok (n, r) := by
  obtain ⟨ha, hb, hc, hd⟩ := h
  simp only [List.cons_append, List.nil_append, hexWord, ha, hb, hc, hd]

theorem codePoint_word (h : HexAs c.toNat ds) (r : List Char) :
    codePoint (ds ++ r) = .ok (c, r) := by
  have hvalid : c.toNat < 0xD800 ∨ 0xDFFF < c.toNat ∧ c.toNat < 0x110000 := c.valid
  rw [codePoint, hexWord_append h]
  dsimp only
  rw [if_neg (by omega), if_neg (by omega), Char.ofNat_toNat]

theorem codePoint_pair {high low : Nat} {es : List Char} (hd : HexAs high ds) (he : HexAs low es)
    (h₁ : 0xD800 ≤ high) (h₂ : high ≤ 0xDBFF) (h₃ : 0xDC00 ≤ low) (h₄ : low ≤ 0xDFFF)
    (hc : c.toNat = 0x10000 + (high - 0xD800) * 0x400 + (low - 0xDC00)) (r : List Char) :
    codePoint (ds ++ '\\' :: 'u' :: (es ++ r)) = .ok (c, r) := by
  rw [codePoint, hexWord_append hd]
  dsimp only
  rw [if_pos ⟨h₁, h₂⟩, lowHalf, hexWord_append he]
  dsimp only
  rw [if_pos ⟨h₃, h₄⟩, ← hc, Char.ofNat_toNat]

theorem textFrom_close (r : List Char) : textFrom ('"' :: r) = .ok ([], r) := by
  rw [textFrom, if_pos rfl]

/-- However a character is written, it is read. -/
theorem textFrom_char (h : CharAs c x) (s : List Char) :
    textFrom (x ++ s) = (textFrom s).map fun (cs, r) => (c :: cs, r) := by
  have hescape {y : List Char} (hy : escaped (y ++ s) = .ok (c, s)) :
      textFrom ('\\' :: (y ++ s)) = (textFrom s).map fun (cs, r) => (c :: cs, r) := by
    rw [textFrom, if_neg (by decide), if_pos rfl]
    split
    next e => simp [hy] at e
    next e =>
      obtain ⟨rfl, rfl⟩ : c = _ ∧ s = _ := by simpa [hy] using e
      cases textFrom s <;> rfl
  cases h with
  | plain hlow hquote hslash =>
    rw [List.singleton_append, textFrom, if_neg hquote, if_neg hslash, if_neg hlow]
    cases textFrom s <;> rfl
  | @short x hx => exact hescape (y := [x]) (by simp only [List.singleton_append, escaped, hx])
  | @word ds hds =>
    refine hescape (y := 'u' :: ds) ?_
    rw [List.cons_append, escaped, show shortEscape? 'u' = none from rfl]
    exact codePoint_word hds s
  | @pair high low ds es hds hes h₁ h₂ h₃ h₄ hc =>
    refine hescape (y := 'u' :: (ds ++ '\\' :: 'u' :: es)) ?_
    rw [List.cons_append, escaped, show shortEscape? 'u' = none from rfl, List.append_assoc]
    exact codePoint_pair hds hes h₁ h₂ h₃ h₄ hc s

theorem textFrom_chars (h : CharsAs cs s) (r : List Char) :
    textFrom (s ++ '"' :: r) = .ok (cs, r) := by
  induction h with
  | nil => exact textFrom_close r
  | cons hc _ ih =>
    rw [List.append_assoc, textFrom_char hc, ih]
    rfl

theorem run_quoted (h : QuotedAs w s) (r : List Char) : Reader.quoted.run (s ++ r) = .ok (w, r) := by
  obtain ⟨k, hk, rfl⟩ := h
  rw [Reader.quoted, run_map, List.append_assoc, List.singleton_append]
  change (textFrom (k ++ '"' :: r)).map _ = _
  rw [textFrom_chars hk]
  exact congrArg (fun w => Except.ok (w, r)) String.ofList_toList

theorem isMember_of_quotedAs (h : QuotedAs w s) (tail : List Char) :
    IsMember w tail ('"' :: (s ++ tail)) :=
  ⟨s, rfl, run_quoted h⟩

theorem closes_text (h : QuotedAs w s) : Closes .text ('"' :: s) w where
  opens := ⟨'"', s, rfl, by decide⟩
  run hb rest := by
    rw [List.append_assoc, List.cons_append]
    simp only [Reader.text, Reader.ofHead, skipBlank_append_cons hb (show isBlank '"' = false from rfl),
      if_true, run_quoted h]

/-- A character below U+0020 has digits of its own. -/
theorem hexAs_control (h : n < 32) :
    HexAs n ['0', '0', Radix.digit (n / 16), Radix.digit (n % 16)] := by
  have hzero : Radix.digitValue? '0' = some 0 := rfl
  have hhigh := Radix.digitValue?_digit (n := n / 16) (by omega)
  have hlow := Radix.digitValue?_digit (n := n % 16) (by omega)
  have hdigits := HexAs.mk hzero hzero hhigh hlow
  rwa [show ((0 * 16 + 0) * 16 + n / 16) * 16 + n % 16 = n by omega] at hdigits

theorem charAs_escape (c : Char) : CharAs c (escape c) := by
  unfold escape
  -- Seven characters have an escape of one letter.
  iterate 7
    split
    next h => subst h; exact .short rfl
  split
  next h => exact .word (hexAs_control (Char.lt_def.1 h))
  next hquote hslash _ _ _ _ _ hlow => exact .plain hlow hquote hslash

theorem charsAs_escape (cs : List Char) : CharsAs cs (cs.flatMap escape) := by
  induction cs with
  | nil => exact .nil
  | cons c cs ih => exact .cons (charAs_escape c) ih

theorem quotedAs_quote (w : String) : ∃ s, quote w = '"' :: s ∧ QuotedAs w s :=
  ⟨_, rfl, _, charsAs_escape w.toList, rfl⟩

/-! ## Numbers -/

/-- One digit or more, and no other character. -/
structure Digits (ds : List Char) : Prop where
  ne_nil : ds ≠ []
  all : ∀ c ∈ ds, isDigit c = true

/-- The digits before the point: one zero, or some that do not begin with one. -/
structure WholeAs (ds : List Char) : Prop extends Digits ds where
  zero : ds.head? = some '0' → ds = ['0']

/-- The point and the digits behind it, if there are any. -/
inductive FractionAs : List Char → List Char → Prop
  | none : FractionAs [] []
  | digits {ds : List Char} : Digits ds → FractionAs ds ('.' :: ds)

/-- The sign of an exponent, which may be left out. -/
inductive SignAs : Int → List Char → Prop
  | none : SignAs 1 []
  | plus : SignAs 1 ['+']
  | minus : SignAs (-1) ['-']

/-- The exponent, if there is one. -/
inductive ExponentAs : Option Int → List Char → Prop
  | none : ExponentAs none []
  | some {c : Char} {sign : Int} {t ds : List Char} : c = 'e' ∨ c = 'E' → SignAs sign t →
      Digits ds → ExponentAs (some (sign * Decimal.value ds)) (c :: (t ++ ds))

/-- The ways to write a number that is within range. -/
inductive NumeralAs : Numeral → List Char → Prop
  | word {ds : List Char} : WholeAs ds → Decimal.value ds < UInt64.size →
      NumeralAs (.word (.ofNat (Decimal.value ds))) ds
  | other {negative : Bool} {whole fraction f e : List Char} {exponent : Option Int} :
      WholeAs whole → FractionAs fraction f → ExponentAs exponent e →
      ¬ (negative = false ∧ fraction = [] ∧ exponent = none ∧ Decimal.value whole < UInt64.size) →
      outOfRange whole fraction (exponent.getD 0) = false →
      NumeralAs .other ((if negative then ['-'] else []) ++ (whole ++ (f ++ e)))

/-- A run of digits in front of the text ends there. -/
def EndsDigits (s : List Char) : Prop := ∀ c ∈ s.head?, isDigit c = false

variable {f e fraction : List Char} {exponent : Option Int} {m : Numeral}

theorem Stops.endsDigits (h : Stops r) : EndsDigits r := fun c hc => (h c hc).1

theorem Digits.opens (h : Digits ds) (r : List Char) :
    ∃ c t, ds ++ r = c :: t ∧ isDigit c = true := by
  cases ds with
  | nil => exact absurd rfl h.ne_nil
  | cons c ds => exact ⟨c, ds ++ r, rfl, h.all c List.mem_cons_self⟩

theorem Digits.takeWhile (h : Digits ds) (hr : EndsDigits r) :
    (ds ++ r).takeWhile isDigit = ds ∧ (ds ++ r).dropWhile isDigit = r := by
  rw [List.takeWhile_append_of_pos h.all, List.dropWhile_append_of_pos h.all]
  cases r with
  | nil => simp
  | cons c r =>
    have hc : ¬ isDigit c = true := Bool.eq_false_iff.1 (hr c rfl)
    rw [List.takeWhile_cons_of_neg hc, List.dropWhile_cons_of_neg hc, List.append_nil]
    exact ⟨rfl, rfl⟩

theorem someDigits_append (h : Digits ds) (hr : EndsDigits r) :
    someDigits (ds ++ r) = .ok (ds, r) := by
  obtain ⟨htake, hdrop⟩ := h.takeWhile hr
  cases ds with
  | nil => exact absurd rfl h.ne_nil
  | cons c ds =>
    have hc : isDigit c = true := h.all c List.mem_cons_self
    rw [List.cons_append] at htake hdrop ⊢
    rw [someDigits]
    simp only [hc, if_true, htake, hdrop]

theorem wholePart_append (h : WholeAs ds) (hr : EndsDigits r) :
    wholePart (ds ++ r) = .ok (ds, r) := by
  obtain ⟨htake, hdrop⟩ := h.toDigits.takeWhile hr
  cases ds with
  | nil => exact absurd rfl h.ne_nil
  | cons c ds =>
    have hc : isDigit c = true := h.all c List.mem_cons_self
    rw [List.cons_append, wholePart]
    by_cases h0 : c = '0'
    · subst h0
      obtain rfl : ds = [] := List.cons.inj (h.zero rfl) |>.2
      have hhead : (r.head?.map isDigit).getD false = false := by
        cases r with
        | nil => rfl
        | cons c r => exact hr c rfl
      rw [if_pos rfl, List.nil_append, if_neg (by rw [hhead]; exact Bool.false_ne_true)]
    · rw [List.cons_append, List.takeWhile_cons_of_pos hc] at htake
      rw [List.cons_append, List.dropWhile_cons_of_pos hc] at hdrop
      rw [if_neg h0, if_pos hc, htake, hdrop]

theorem ExponentAs.ends (h : ExponentAs exponent e) (hr : Stops r) :
    EndsDigits (e ++ r) ∧ ∀ t, e ++ r ≠ '.' :: t := by
  cases h with
  | none =>
    refine ⟨hr.endsDigits, ?_⟩
    rintro t rfl
    exact (hr '.' rfl).2.1 rfl
  | some hc =>
    rcases hc with rfl | rfl
    all_goals
      exact ⟨fun c hc => by cases hc; rfl, fun t ht => by simp at ht⟩

theorem FractionAs.ends (h : FractionAs fraction f) (hr : EndsDigits r) : EndsDigits (f ++ r) := by
  cases h with
  | none => exact hr
  | digits =>
    intro c hc
    cases hc
    rfl

theorem fractionPart_append (h : FractionAs fraction f) (hr : EndsDigits r)
    (hpoint : ∀ t, r ≠ '.' :: t) : fractionPart (f ++ r) = .ok (fraction, r) := by
  cases h with
  | none =>
    rw [List.nil_append, fractionPart]
    exact fun t ht => hpoint t ht
  | digits h => exact someDigits_append h hr

/-- The sign in front of the digits of an exponent, and what follows it. -/
def exponentSign : List Char → Int × List Char
  | '-' :: r => (-1, r)
  | '+' :: r => (1, r)
  | r => (1, r)

theorem exponentPart_cons (hc : c = 'e' ∨ c = 'E') (s : List Char) :
    exponentPart (c :: s) = match someDigits (exponentSign s).2 with
      | .error cause => .error cause
      | .ok (ds, r) => .ok (some ((exponentSign s).1 * Decimal.value ds), r) :=
  if_pos hc

theorem exponentSign_append {sign : Int} {t : List Char} (h : SignAs sign t) (hds : Digits ds)
    (r : List Char) : exponentSign (t ++ (ds ++ r)) = (sign, ds ++ r) := by
  cases h with
  | plus | minus => rfl
  | none =>
    -- A digit is neither of the signs.
    obtain ⟨c, y, hy, hc⟩ := hds.opens r
    rw [List.nil_append, hy]
    unfold exponentSign
    split
    next h =>
      cases h
      exact absurd hc (by decide)
    next h =>
      cases h
      exact absurd hc (by decide)
    next => rfl

theorem exponentPart_append (h : ExponentAs exponent e) (hr : Stops r) :
    exponentPart (e ++ r) = .ok (exponent, r) := by
  cases h with
  | none =>
    cases r with
    | nil => rfl
    | cons c r =>
      obtain ⟨-, -, he, hE⟩ := hr c rfl
      exact if_neg (not_or.2 ⟨he, hE⟩)
  | @some c sign t ds hc hsign hds =>
    rw [List.cons_append, exponentPart_cons hc, List.append_assoc, exponentSign_append hsign hds]
    simp only [someDigits_append hds hr.endsDigits]

/-- A number without its sign is read, however it is written. -/
theorem unsignedNumeral_append {whole : List Char} {negative : Bool} (hw : WholeAs whole)
    (hf : FractionAs fraction f) (he : ExponentAs exponent e) (hr : Stops r) :
    unsignedNumeral negative (whole ++ (f ++ (e ++ r))) =
      if negative = false ∧ fraction = [] ∧ exponent = none ∧ Decimal.value whole < UInt64.size then
        .ok (.word (.ofNat (Decimal.value whole)), r)
      else if outOfRange whole fraction (exponent.getD 0) then .error .malformed
      else .ok (.other, r) := by
  obtain ⟨hend, hpoint⟩ := he.ends hr
  simp only [unsignedNumeral, wholePart_append hw (hf.ends hend),
    fractionPart_append hf hend hpoint, exponentPart_append he hr]

/-- What can be told of a number from its first character. -/
theorem NumeralAs.opens (h : NumeralAs m s) : ∃ c t, s = c :: t ∧ (c = '-' ∨ isDigit c = true) := by
  cases h with
  | word hw _ =>
    obtain ⟨c, t, hs, hc⟩ := hw.toDigits.opens []
    rw [List.append_nil] at hs
    exact ⟨c, t, hs, .inr hc⟩
  | @other negative whole fraction f e exponent hw hf he _ _ =>
    cases negative with
    | true => exact ⟨'-', _, rfl, .inl rfl⟩
    | false =>
      obtain ⟨c, t, hs, hc⟩ := hw.toDigits.opens (f ++ e)
      exact ⟨c, t, hs, .inr hc⟩

theorem isBlank_of_digit (h : c = '-' ∨ isDigit c = true) :
    isBlank c = false ∧ c ≠ ',' ∧ c ≠ ']' ∧ c ≠ '\x7d' := by
  rcases h with rfl | h
  · decide
  · refine ⟨Bool.eq_false_iff.2 fun hblank => ?_, ?_, ?_, ?_⟩
    · simp only [isBlank, Bool.or_eq_true, decide_eq_true_eq] at hblank
      rcases hblank with ((rfl | rfl) | rfl) | rfl <;> exact absurd h (by decide)
    all_goals
      rintro rfl
      exact absurd h (by decide)

/-- A number without a sign is read from its first digit on. -/
theorem numeralFrom_of_digits {whole t : List Char} (hw : WholeAs whole) (hs : c :: s = whole ++ t) :
    numeralFrom c s = unsignedNumeral false (whole ++ t) := by
  obtain ⟨c', y, hy, hc⟩ := hw.toDigits.opens t
  obtain ⟨rfl, rfl⟩ := List.cons.inj (hs.trans hy)
  have hne : c ≠ '-' := by
    rintro rfl
    exact absurd hc (by decide)
  rw [numeralFrom, if_neg hne, hs]

/-- However a number is written, it is read. -/
theorem numeralFrom_append (h : NumeralAs m (c :: s)) (hr : Stops r) :
    numeralFrom c (s ++ r) = .ok (m, r) := by
  generalize hs : c :: s = x at h
  cases h with
  | word hw hsize =>
    have hread : unsignedNumeral false _ = _ := unsignedNumeral_append hw .none .none hr
    rw [if_pos ⟨rfl, rfl, rfl, hsize⟩] at hread
    rw [numeralFrom_of_digits (t := r) hw (by rw [← hs, List.cons_append])]
    exact hread
  | @other negative whole fraction f e exponent hw hf he hnot hrange =>
    have hread : unsignedNumeral negative _ = _ := unsignedNumeral_append hw hf he hr
    rw [if_neg hnot, hrange, if_neg Bool.false_ne_true] at hread
    cases negative with
    | true =>
      obtain ⟨rfl, rfl⟩ := List.cons.inj hs
      rw [numeralFrom, if_pos rfl]
      change unsignedNumeral true (whole ++ (f ++ e) ++ r) = _
      rw [List.append_assoc, List.append_assoc, hread]
    | false =>
      have hs' : c :: (s ++ r) = whole ++ (f ++ (e ++ r)) := by
        rw [← List.cons_append, hs]
        simp
      rw [numeralFrom_of_digits hw hs', hread]

theorem reads_numeral (h : NumeralAs m s) : Reads .numeral s m := by
  obtain ⟨c, t, rfl, hc⟩ := h.opens
  obtain ⟨hblank, hmarks⟩ := isBlank_of_digit hc
  refine ⟨⟨c, t, rfl, hblank, hmarks⟩, fun hb hr => ?_⟩
  rw [List.append_assoc, List.cons_append]
  simp only [Reader.numeral, Reader.ofHead, skipBlank_append_cons hb hblank, if_pos hc]
  exact numeralFrom_append h hr

theorem isDigit_digitChar {d : Nat} (h : d < 10) : isDigit (Decimal.digitChar d) = true := by
  have all : ∀ d < 10, isDigit (Decimal.digitChar d) = true := by decide
  exact all d h

theorem digitChar_ne_zero {d : Nat} (h : d < 10) (h0 : d ≠ 0) : Decimal.digitChar d ≠ '0' := by
  have all : ∀ d < 10, d ≠ 0 → Decimal.digitChar d ≠ '0' := by decide
  exact all d h h0

/-- The digits of a number do not begin with a zero, unless it is zero. -/
theorem head?_digits (n : Nat) (h0 : n ≠ 0) :
    ∃ c, (Decimal.digits n).head? = some c ∧ c ≠ '0' := by
  induction n using Decimal.digits.induct with
  | case1 n h =>
    rw [Decimal.digits, if_pos h]
    exact ⟨_, rfl, digitChar_ne_zero h h0⟩
  | case2 n h ih =>
    obtain ⟨c, hc, hne⟩ := ih (by omega)
    rw [Decimal.digits, if_neg h, List.head?_append, hc]
    exact ⟨c, rfl, hne⟩

theorem digits_digits (n : Nat) : Digits (Decimal.digits n) := by
  induction n using Decimal.digits.induct with
  | case1 n h =>
    rw [Decimal.digits, if_pos h]
    exact ⟨List.cons_ne_nil _ _, fun c hc => List.mem_singleton.1 hc ▸ isDigit_digitChar h⟩
  | case2 n h ih =>
    rw [Decimal.digits, if_neg h]
    refine ⟨List.append_ne_nil_of_left_ne_nil ih.ne_nil _, fun c hc => ?_⟩
    rcases List.mem_append.1 hc with hc | hc
    · exact ih.all c hc
    · exact List.mem_singleton.1 hc ▸ isDigit_digitChar (Nat.mod_lt n (by decide))

theorem wholeAs_digits (n : Nat) : WholeAs (Decimal.digits n) where
  toDigits := digits_digits n
  zero h := by
    by_cases h0 : n = 0
    · subst h0
      rw [Decimal.digits, if_pos (by decide)]
      rfl
    · obtain ⟨c, hc, hne⟩ := head?_digits n h0
      rw [hc] at h
      exact absurd (Option.some.inj h) hne

theorem numeralAs_digits (n : UInt64) : NumeralAs (.word n) (Decimal.digits n.toNat) := by
  have hsize : Decimal.value (Decimal.digits n.toNat) < UInt64.size := by
    rw [Decimal.value_digits]
    exact n.toNat_lt_size
  have h := NumeralAs.word (wholeAs_digits n.toNat) hsize
  rwa [Decimal.value_digits, UInt64.ofNat_toNat] at h

theorem portOf?_toUInt64 (n : UInt16) : portOf? n.toUInt64 = some n := by
  have hsize : n.toUInt64.toNat < UInt16.size := by
    rw [UInt16.toNat_toUInt64]
    exact n.toNat_lt_size
  rw [portOf?, if_pos hsize]
  simp

theorem reads_word (n : UInt64) : Reads .word (Decimal.digits n.toNat) n :=
  (reads_numeral (numeralAs_digits n)).filterMap rfl

theorem reads_port (n : UInt16) : Reads .port (Decimal.digits n.toNat) n := by
  have h := (reads_word n.toUInt64).filterMap (portOf?_toUInt64 n)
  rwa [UInt16.toNat_toUInt64] at h

/-! ## Names -/

theorem nameFrom_append (name r : List Char) : nameFrom name (name ++ r) = .ok r := by
  induction name with
  | nil => rfl
  | cons c name ih => rw [List.cons_append, nameFrom, if_pos rfl, ih]

theorem reads_flag (v : Bool) : Reads .flag (writeFlag v) v := by
  cases v with
  | true =>
    refine ⟨⟨'t', ['r', 'u', 'e'], rfl, by decide⟩, fun {b rest} hb _ => ?_⟩
    have ht : isBlank 't' = false := rfl
    change (Reader.flag).run (b ++ ['t', 'r', 'u', 'e'] ++ rest) = _
    rw [List.append_assoc, List.cons_append]
    simp only [Reader.flag, Reader.ofHead, skipBlank_append_cons hb ht, if_true, nameFrom_append]
  | false =>
    refine ⟨⟨'f', ['a', 'l', 's', 'e'], rfl, by decide⟩, fun {b rest} hb _ => ?_⟩
    have hf : isBlank 'f' = false := rfl
    change (Reader.flag).run (b ++ ['f', 'a', 'l', 's', 'e'] ++ rest) = _
    rw [List.append_assoc, List.cons_append]
    simp only [Reader.flag, Reader.ofHead, skipBlank_append_cons hb hf, if_true, nameFrom_append,
      if_neg (show 'f' ≠ 't' by decide)]

variable {α : Type} {p : Reader α} {a : α}

theorem reads_null (p : Reader α) : Reads (.orNull p) ['n', 'u', 'l', 'l'] none := by
  refine ⟨⟨'n', ['u', 'l', 'l'], rfl, by decide⟩, fun hb _ => ?_⟩
  have hn : isBlank 'n' = false := rfl
  rw [List.append_assoc, List.cons_append]
  simp only [Reader.orNull, Reader.ofHead, skipBlank_append_cons hb hn, if_true, nameFrom_append]

/-- What is not null is left to the reader of a value. -/
theorem Reads.orNull (h : Reads p (c :: s) a) (hc : c ≠ 'n') : Reads (.orNull p) (c :: s) (some a) := by
  refine ⟨h.opens, fun {b rest} hb hr => ?_⟩
  obtain ⟨c', s', hs, hblank, -⟩ := h.opens
  obtain ⟨rfl, rfl⟩ := List.cons.inj hs
  rw [List.append_assoc, List.cons_append]
  simp only [Reader.orNull, Reader.ofHead, skipBlank_append_cons hb hblank, if_neg hc]
  exact (h.map some).run .nil hr

end CausalStore.Wire
