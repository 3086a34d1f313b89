import CausalStore.Proofs.Wire.Written

/-!
# Layouts of messages

A message is depicted by objects that have its tag once, at any place, and besides it the members that
depict it, and by the array of its tag and its members in order (`Message.Depicts`). Each text of such
a tree is decoded as the message, and no text of a tree with a doubled member (`Message.Doubles`) is
decoded at all (`any_layout_decodes`).
-/

namespace CausalStore

open Wire

namespace Message

/-- The tree shows the message. -/
def Depicts (m : Message) : Tree → Prop
  | .object members => ∃ others, members.Perm (("type", .text m.kind.tag) :: others) ∧
      (∀ e ∈ others, e.1 ≠ "type") ∧ (Schema.record m.kind.fields).Depicts m.vals (.object others)
  | .array (.text tag :: items) =>
      tag = m.kind.tag ∧ (Schema.record m.kind.fields).Depicts m.vals (.array items)
  | _ => False

/-- The tag comes twice, or a known member of the message or of a record inside it does. -/
def Doubles : Tree → Prop
  | .object members => 1 < members.countP (·.1 = "type") ∨
      ∃ (k : Kind) (others : List (String × Tree)), members.Perm (("type", .text k.tag) :: others) ∧
        (Schema.record k.fields).Doubles (.object others)
  | .array (.text tag :: items) =>
      ∃ k : Kind, tag = k.tag ∧ (Schema.record k.fields).Doubles (.array items)
  | _ => False

/-! ## What trees stand for -/

/-- Takes in a member of the object, as `memberReader` does. -/
def take? : Members → String × Tree → Option Members
  | (kind, members), (key, t) =>
    if key = "type" then
      match kind with
      | some _ => none
      | none => (t.text?.bind Kind.ofTag?).map fun k => (some k, members)
    else some (kind, (key, t) :: members)

/-- The message that a tree stands for. -/
def meaning? : Tree → Option Message
  | .array (t :: items) => (t.text?.bind Kind.ofTag?).bind fun k => ofTree? k (.array items)
  | .object members => (members.foldlM take? (none, [])).bind fun (kind, others) =>
      kind.bind fun k => ofTree? k (.object others.reverse)
  | _ => none

variable {kind : Option Kind} {k : Kind} {e : String × Tree} {t : Tree} {m : Message}
  {members others acc l r : List (String × Tree)} {items : List Tree}

theorem ofTag?_tag (k : Kind) : Kind.ofTag? k.tag = some k := by
  cases k <;> decide

theorem proper_record (k : Kind) : (Schema.record k.fields).proper = true := by
  cases k <;> decide

theorem ofTree?_of_depicts (h : (Schema.record m.kind.fields).Depicts m.vals t) :
    ofTree? m.kind t = some m := by
  rw [ofTree?, Schema.ofTree?_of_depicts _ (proper_record m.kind) h]
  exact congrArg some (ofVals_vals m)

theorem ofTree?_of_doubles (h : (Schema.record k.fields).Doubles t) : ofTree? k t = none := by
  rw [ofTree?, Schema.ofTree?_of_doubles _ (proper_record k) h]
  rfl

theorem ofTree?_object_perm (h : members.Perm others) :
    ofTree? k (.object members) = ofTree? k (.object others) := by
  rw [ofTree?, Schema.ofTree?_object_perm h, ← ofTree?]

theorem take?_type_none : take? (none, acc) ("type", t) =
    (t.text?.bind Kind.ofTag?).map fun k => (some k, acc) :=
  rfl

theorem take?_of_ne (h : e.1 ≠ "type") : take? (kind, acc) e = some (kind, e :: acc) :=
  if_neg h

theorem foldlM_take?_others (h : ∀ e ∈ members, e.1 ≠ "type") (acc : List (String × Tree)) :
    members.foldlM take? (kind, acc) = some (kind, members.reverse ++ acc) := by
  induction members generalizing acc with
  | nil => rfl
  | cons e members ih =>
    obtain ⟨he, hmembers⟩ := List.forall_mem_cons.1 h
    rw [List.foldlM_cons, take?_of_ne he, List.reverse_cons, List.append_assoc]
    exact ih hmembers _

/-- Where one member is the tag, the others are left in their order. -/
theorem meaning?_of_split (hl : ∀ e ∈ l, e.1 ≠ "type") (hr : ∀ e ∈ r, e.1 ≠ "type") (k : Kind) :
    meaning? (.object (l ++ ("type", .text k.tag) :: r)) = ofTree? k (.object (l ++ r)) := by
  have hfold : (l ++ ("type", .text k.tag) :: r).foldlM take? (none, []) =
      some (some k, r.reverse ++ l.reverse) := by
    rw [List.foldlM_append, foldlM_take?_others hl, List.append_nil]
    change (take? (none, l.reverse) ("type", .text k.tag)).bind (List.foldlM take? · r) = _
    rw [take?_type_none, Tree.text?, Option.bind_some, ofTag?_tag, Option.map_some, Option.bind_some,
      foldlM_take?_others hr]
  rw [meaning?, hfold]
  change ofTree? k (.object (r.reverse ++ l.reverse).reverse) = _
  rw [List.reverse_append, List.reverse_reverse, List.reverse_reverse]

/-- The tag is found wherever it stands. -/
theorem meaning?_of_perm (hperm : members.Perm (("type", .text k.tag) :: others))
    (hother : ∀ e ∈ others, e.1 ≠ "type") :
    meaning? (.object members) = ofTree? k (.object others) := by
  obtain ⟨l, r, rfl⟩ := List.append_of_mem (hperm.mem_iff.2 List.mem_cons_self)
  have hrest : (l ++ r).Perm others := (List.perm_middle.symm.trans hperm).cons_inv
  have hne : ∀ e ∈ l ++ r, e.1 ≠ "type" := fun e he => hother e (hrest.mem_iff.1 he)
  rw [meaning?_of_split (fun e he => hne e (List.mem_append_left _ he))
    (fun e he => hne e (List.mem_append_right _ he)), ofTree?_object_perm hrest]

theorem foldlM_take?_of_mem (h : ∃ e ∈ members, e.1 = "type") (acc : List (String × Tree)) :
    members.foldlM take? (some k, acc) = none := by
  induction members generalizing acc with
  | nil => simp at h
  | cons e members ih =>
    obtain ⟨key, t⟩ := e
    rw [List.foldlM_cons]
    by_cases he : key = "type"
    · subst he
      rfl
    · rw [take?_of_ne he]
      obtain ⟨e, hmem, hkey⟩ := h
      obtain rfl | hmem := List.mem_cons.1 hmem
      · exact absurd hkey he
      · exact ih ⟨e, hmem, hkey⟩ _

theorem foldlM_take?_of_countP (h : 1 < members.countP (·.1 = "type"))
    (acc : List (String × Tree)) : members.foldlM take? (none, acc) = none := by
  induction members generalizing acc with
  | nil => simp at h
  | cons e members ih =>
    obtain ⟨key, t⟩ := e
    rw [List.foldlM_cons]
    by_cases he : key = "type"
    · subst he
      rw [List.countP_cons_of_pos (by simp)] at h
      have hmem : ∃ e ∈ members, e.1 = "type" := by
        simpa using List.countP_pos_iff.1 (Nat.lt_of_succ_lt_succ h)
      rw [take?_type_none]
      cases t.text?.bind Kind.ofTag? with
      | none => rfl
      | some k => exact foldlM_take?_of_mem hmem acc
    · rw [List.countP_cons_of_neg (by simpa using he)] at h
      rw [take?_of_ne he]
      exact ih h _

theorem meaning?_of_depicts (h : m.Depicts t) : meaning? t = some m := by
  match t, h with
  | .object members, ⟨others, hperm, hother, h⟩ =>
    rw [meaning?_of_perm hperm hother, ofTree?_of_depicts h]
  | .array (.text tag :: items), ⟨htag, h⟩ =>
    rw [meaning?, Tree.text?, htag, Option.bind_some, ofTag?_tag, Option.bind_some,
      ofTree?_of_depicts h]

theorem meaning?_of_doubles (h : Doubles t) : meaning? t = none := by
  match t, h with
  | .object members, .inl h => rw [meaning?, foldlM_take?_of_countP h, Option.bind_none]
  | .object members, .inr ⟨k, others, hperm, h⟩ =>
    by_cases hother : ∀ e ∈ others, e.1 ≠ "type"
    · rw [meaning?_of_perm hperm hother, ofTree?_of_doubles h]
    · have hcount : 1 < members.countP (·.1 = "type") := by
        obtain ⟨e, he, hkey⟩ : ∃ e ∈ others, e.1 = "type" := by simpa using hother
        have hpos : 0 < others.countP (·.1 = "type") :=
          List.countP_pos_iff.2 ⟨e, he, decide_eq_true hkey⟩
        rw [hperm.countP_eq, List.countP_cons_of_pos (by simp)]
        exact Nat.succ_lt_succ hpos
      rw [meaning?, foldlM_take?_of_countP hcount, Option.bind_none]
  | .array (.text tag :: items), ⟨k, htag, h⟩ =>
    rw [meaning?, Tree.text?, htag, Option.bind_some, ofTag?_tag, Option.bind_some,
      ofTree?_of_doubles h]

/-! ## Reading messages -/

variable {depth : Nat} {b s tail rest : List Char} {xs : List (List Char)}

theorem run_tagReader (h : TreeAs depth t s) (hb : Blanks b) (hr : Stops rest) :
    tagReader.run (b ++ s ++ rest) =
      (expected (t.text?.bind Kind.ofTag?)).map fun k => (k, rest) :=
  run_filterMap (run_text h hb hr)

/-- The members of the object are taken in one after the other. -/
theorem takesIn_members {es : List (String × List Char)}
    (h : List.Forall₂ (Splits (TreeAs maxDepth)) members es) (taken : Members) :
    TakesIn memberReader taken es (expected (members.foldlM take? taken)) := by
  induction h generalizing taken with
  | nil => exact .done
  | @cons m e members es hm _ ih =>
    obtain ⟨kind, acc⟩ := taken
    obtain ⟨key, t⟩ := m
    obtain ⟨key', tail⟩ := e
    obtain ⟨rfl, v, hv, htail⟩ := hm
    rw [List.foldlM_cons]
    -- The tag is judged where it stands; what other members are worth is found out at the end.
    by_cases hkey : key = "type"
    · subst hkey
      cases kind with
      | some k => exact .fault fun r _ => rfl
      | none =>
        obtain ⟨b, b', hb, hb', rfl⟩ := htail
        have hrun (r : List Char) (hr : Stops r) :
            (memberReader "type" (none, acc)).run (b ++ ':' :: (b' ++ v) ++ r) =
              (expected (t.text?.bind Kind.ofTag?)).map fun k => ((some k, acc), r) := by
          change (Reader.afterColon (tagReader.map fun k => (some k, acc))).run _ = _
          rw [List.append_assoc, List.cons_append, run_afterColon hb, run_map,
            run_tagReader hv hb' hr]
          cases t.text?.bind Kind.ofTag? <;> rfl
        rw [take?_type_none]
        cases hkind : t.text?.bind Kind.ofTag? with
        | none =>
          refine .fault fun r hr => ?_
          rw [hrun r hr, hkind]
          rfl
        | some k =>
          refine .step (fun r hr => ?_) (ih (some k, acc))
          rw [hrun r hr, hkind]
          rfl
    · rw [take?_of_ne hkey]
      refine .step (fun r hr => ?_) (ih (kind, (key, t) :: acc))
      have hreader : memberReader key (kind, acc) =
          .afterColon ((Tree.reader maxDepth).map fun t => (kind, (key, t) :: acc)) := if_neg hkey
      rw [hreader]
      exact ((reads_tree hv).map _).run_afterColon htail hr

/-- The first item of the array is the tag; the others are the members in order. -/
theorem run_itemsReader (h : List.Forall₂ (TreeAs maxDepth) items xs) (hl : Listed true xs s) :
    itemsReader.run (s ++ ']' :: rest) =
      (expected (meaning? (.array items))).map fun m => (m, rest) := by
  cases hl with
  | nil hb =>
    cases h
    have hgap : gap ']' true (s ++ ']' :: rest) = .ok (.closed rest) := gap_closed hb rfl
    simp only [itemsReader, Reader.bind, Reader.nextElement, hgap]
    rfl
  | @head b x s xs hb hl =>
    obtain _ | @⟨t, _, items, _, ht, hitems⟩ := h
    obtain ⟨c, y, rfl, hc, -, hclose, -⟩ := (reads_tree ht).opens
    have hgap : gap ']' true (b ++ (c :: y ++ s) ++ ']' :: rest) =
        .ok (.more (c :: y ++ (s ++ ']' :: rest))) := by
      simp only [List.append_assoc, List.cons_append]
      exact gap_first hb hc hclose
    have hstops : Stops (s ++ ']' :: rest) := hl.stops (.cons (by decide))
    have htag : tagReader.run (c :: y ++ (s ++ ']' :: rest)) = _ := run_tagReader ht .nil hstops
    have hread (k : Kind) :=
      run_filterMap (p := (Tree.reader maxDepth).furtherElements)
        (f := fun items => ofTree? k (.array items)) (o := some items)
        (elementsFrom_listed hl (hitems.flip.imp fun _ _ => reads_tree) rest)
    simp only [itemsReader, Reader.bind, Reader.nextElement, hgap, htag, meaning?]
    cases t.text?.bind Kind.ofTag? with
    | none => rfl
    | some k => exact hread k

/-- The members of the object make up the message, or there is a fault. -/
theorem run_membersReader (h : List.Forall₂ (MemberAs (TreeAs maxDepth)) members xs)
    (hl : Listed true xs s) : membersReader.run (s ++ '\x7d' :: rest) =
      (expected (meaning? (.object members))).map fun m => (m, rest) := by
  obtain ⟨es, hsplits, hmembers⟩ := exists_splits h
  exact run_filterMap (p := Reader.members .quoted memberReader (none, []))
    (membersFrom_listed hl hmembers (takesIn_members hsplits (none, [])) rest)

/-- A text of a tree is read as the message that the tree stands for, if there is one. -/
theorem run_reader (h : TreeAs (maxDepth + 1) t s) (hb : Blanks b) (hr : Stops rest) :
    Message.reader.run (b ++ s ++ rest) = (expected (meaning? t)).map fun m => (m, rest) := by
  cases h with
  | scalar h =>
    have hnone : meaning? t = none := by cases h <;> rfl
    rw [hnone]
    exact run_bracketed_scalar h hb hr
  | array hts hl =>
    rw [List.append_assoc, List.cons_append, List.append_assoc, reader, run_bracketed_array hb]
    exact run_itemsReader hts hl
  | object hms hl =>
    rw [List.append_assoc, List.cons_append, List.append_assoc, reader, run_bracketed_object hb]
    exact run_membersReader hms hl

theorem decode_document {text : String} (h : Document (maxDepth + 1) t text) :
    format.decode text = expected (meaning? t) := by
  obtain ⟨b, x, b', hb, hx, hb', rfl⟩ := h
  exact Format.decode_of_run hb' (run_reader hx hb (.of_blanks hb'))

/-! ## The layout that is written -/

/-- The tree that a message is written as. -/
def toTree (m : Message) : Tree :=
  .object (("type", .text m.kind.tag) :: m.kind.fields.toMembers m.vals)

theorem type_not_mem_names (k : Kind) : "type" ∉ k.fields.names := by
  cases k <;> decide

theorem height_fields_le (k : Kind) : k.fields.height ≤ maxDepth := by
  cases k <;> decide

theorem depicts_toTree (m : Message) : m.Depicts m.toTree := by
  have hrecord := Schema.depicts_toTree _ (proper_record m.kind) m.vals
  have hmembers := Fields.depicts_toMembers _ (proper_record m.kind) m.vals
  refine ⟨_, .refl _, fun e he htype => type_not_mem_names m.kind ?_, hrecord⟩
  exact htype ▸ m.kind.fields.mem_names_of_depicts hmembers e he

/-- The members of a message, its tag first. -/
def texts (m : Message) : List (String × List Char) :=
  ("type", quote m.kind.tag) :: m.kind.fields.texts m.vals

theorem write_eq (m : Message) : m.write = writeObject (memberTexts m.texts) := by
  rw [write, m.kind.fields.write_eq]
  rfl

theorem splits_texts (m : Message) : List.Forall₂ (Splits (TreeAs maxDepth))
    (("type", .text m.kind.tag) :: m.kind.fields.toMembers m.vals) (m.texts.map behindKey) :=
  .cons ⟨rfl, _, .of_scalar (scalarAs_quote m.kind.tag), afterKey_colon _⟩
    (m.kind.fields.splits_texts (height_fields_le m.kind) m.vals)

theorem treeAs_write (m : Message) : TreeAs (maxDepth + 1) m.toTree m.write := by
  rw [m.write_eq]
  exact .object (membersAs_texts m.splits_texts) (listed_commaSeparated _)

/-- A message is read off what it is written as, whatever follows it. -/
theorem closes_write (m : Message) : Closes Message.reader m.write m := by
  have hmeaning : meaning? m.toTree = some m := meaning?_of_depicts m.depicts_toTree
  rw [m.write_eq]
  refine .of_object fun rest => ?_
  refine (run_membersReader (membersAs_texts m.splits_texts) (listed_commaSeparated _)).trans ?_
  exact congrArg (fun o => (expected o).map fun m => (m, rest)) hmeaning

theorem document_encode (m : Message) : Document (maxDepth + 1) m.toTree (format.encode m) :=
  ⟨[], m.write, [], .nil, m.treeAs_write, .nil, by rw [List.append_nil]; rfl⟩

/-- A message means the same however its members are laid out. It is written as one layout of a tree
that depicts it; every text of every such tree is decoded as the message; and no text of a tree with a
doubled member is decoded as any. -/
theorem any_layout_decodes (m : Message) :
    (∃ t, m.Depicts t ∧ Document (maxDepth + 1) t (format.encode m)) ∧
    (∀ t text, m.Depicts t → Document (maxDepth + 1) t text → format.decode text = .ok m) ∧
    ∀ t text, Doubles t → Document (maxDepth + 1) t text →
      format.decode text = .error .mismatched := by
  refine ⟨⟨m.toTree, m.depicts_toTree, m.document_encode⟩, fun t text h htext => ?_,
    fun t text h htext => ?_⟩
  · rw [decode_document htext, meaning?_of_depicts h]
    rfl
  · rw [decode_document htext, meaning?_of_doubles h]
    rfl

/-- Of the pairs of a clock the last one of an id counts. -/
theorem depicts_clock (pairs : List (String × UInt64)) :
    Layout.clock.schema.Depicts (Layout.clock.toVal (.ofList pairs))
      (.object (pairs.map fun p => (p.1, .number (.word p.2)))) :=
  ⟨_, pairs, rfl, List.forall₂_map_right_iff.2 (List.forall₂_same.2 fun _ _ => ⟨rfl, rfl⟩),
    SortedMap.get?_ofList pairs⟩

/-! An update whose members stand in reverse order, behind an unknown one and with some blanks, where an
id comes twice in the clock; and a request whose tag comes twice. -/

def letter : Message := .update ⟨"k", "v", "b", .ofList [("b", 9), ("a", 2), ("b", 1)]⟩

def letterClock : Tree :=
  .object [("b", .number (.word 9)), ("a", .number (.word 2)), ("b", .number (.word 1))]

def letterMembers : List (String × Tree) :=
  [("key", .text "k"), ("value", .text "v"), ("origin", .text "b"), ("clock", letterClock)]

def letterTree : Tree :=
  .object (("type", .text "update") :: (letterMembers ++ [("note", .array [.null])])).reverse

def letterText : String :=
  " \x7b\"note\" : [null],\"clock\":\x7b\"b\":9,\"a\":2,\"b\":1\x7d,\"origin\":\"b\"," ++
    "\"value\":\"v\",\"key\":\"k\",\"type\":\"update\"\x7d\n"

def twiceTree : Tree := .object [("type", .text "state_request"), ("type", .text "state_request")]

def twiceText : String := "\x7b\"type\":\"state_request\",\"type\":\"state_request\"\x7d"

theorem depicts_letter : letter.Depicts letterTree := by
  have hclock := depicts_clock [("b", 9), ("a", 2), ("b", 1)]
  have hmembers : Layout.updateFields.DepictsMembers letter.vals letterMembers :=
    .inl ⟨_, _, rfl, rfl, .inl ⟨_, _, rfl, rfl, .inl ⟨_, _, rfl, rfl, .inl ⟨_, _, rfl, hclock, rfl⟩⟩⟩⟩
  exact ⟨_, List.reverse_perm _, by decide,
    .inl ⟨_, letterMembers, [("note", .array [.null])], rfl, .refl _, hmembers, by decide⟩⟩

section
variable {depth : Nat}

theorem treeAs_word (n : UInt64) : TreeAs depth (.number (.word n)) (Decimal.digits n.toNat) :=
  .of_scalar (.number (numeralAs_digits n))

theorem treeAs_quote (w : String) : TreeAs depth (.text w) (quote w) := .of_scalar (scalarAs_quote w)

end

theorem document_letter : Document (maxDepth + 1) letterTree letterText := by
  have hblank : Blanks [' '] := List.forall_mem_singleton.2 rfl
  have hline : Blanks ['\n'] := List.forall_mem_singleton.2 rfl
  have hnull : TreeAs maxDepth (.array [.null]) _ :=
    .array (.cons (.of_scalar .null) .nil) (listed_commaSeparated _)
  have hnote : MemberAs (TreeAs maxDepth) ("note", .array [.null]) _ :=
    ⟨_, _, _, ⟨_, charsAs_escape _, rfl⟩, hnull, ⟨_, _, hblank, hblank, rfl⟩, rfl⟩
  have hclock : TreeAs maxDepth letterClock _ :=
    .object (.cons (memberAs_writeMember (treeAs_word 9)) <|
      .cons (memberAs_writeMember (treeAs_word 2)) <|
      .cons (memberAs_writeMember (treeAs_word 1)) .nil) (listed_commaSeparated _)
  have hmember (key w : String) :
      MemberAs (TreeAs maxDepth) (key, .text w) (writeMember key (quote w)) :=
    memberAs_writeMember (treeAs_quote w)
  have htree : TreeAs (maxDepth + 1) letterTree _ :=
    .object (.cons hnote <| .cons (memberAs_writeMember hclock) <|
      .cons (hmember "origin" "b") <| .cons (hmember "value" "v") <| .cons (hmember "key" "k") <|
      .cons (hmember "type" "update") .nil) (listed_commaSeparated _)
  exact ⟨_, _, _, hblank, htree, hline, by decide +kernel⟩

theorem document_twice : Document (maxDepth + 1) twiceTree twiceText := by
  have hmember : MemberAs (TreeAs maxDepth) ("type", .text "state_request") _ :=
    memberAs_writeMember (treeAs_quote "state_request")
  have htree : TreeAs (maxDepth + 1) twiceTree _ :=
    .object (.cons hmember <| .cons hmember .nil) (listed_commaSeparated _)
  exact ⟨_, _, _, .nil, htree, .nil, by decide +kernel⟩

theorem letter_decodes :
    letter.Depicts letterTree ∧ Document (maxDepth + 1) letterTree letterText ∧
    format.decode letterText = .ok letter ∧
    Doubles twiceTree ∧ Document (maxDepth + 1) twiceTree twiceText ∧
    format.decode twiceText = .error .mismatched := by
  obtain ⟨-, hletter, htwice⟩ := any_layout_decodes letter
  have hdoubles : Doubles twiceTree := .inl (by decide)
  exact ⟨depicts_letter, document_letter, hletter _ _ depicts_letter document_letter, hdoubles,
    document_twice, htwice _ _ hdoubles document_twice⟩

end Message
end CausalStore
