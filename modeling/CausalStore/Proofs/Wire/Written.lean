import CausalStore.Proofs.Wire.Depictions
import CausalStore.Proofs.Wire.TreeTexts

/-!
# What is written

`Schema.write` writes a value as a text of a tree of its own (`treeAs_write`), which depicts the value
(`depicts_toTree`) and has no blanks, no unknown members and nothing left out; its objects are laid out
from the keys of their members and the texts of the values (`memberTexts`). `Schema.reader` reads the
value back (`reads_write`).
-/

namespace CausalStore.Wire

mutual

/-- The tree that a value is written as. -/
def Schema.toTree : (s : Schema) → s.Val → Tree
  | .text, v => .text v
  | .port, v => .number (.word (UInt16.toUInt64 v))
  | .counter, v => .number (.word v)
  | .flag, v => .flag v
  | .nullable s, v =>
    match v with
    | none => .null
    | some v => s.toTree v
  | .list s, vs => .array (List.map s.toTree vs)
  | .map s, m => .object (m.entries.map fun e => (e.1, s.toTree e.2))
  | .record fields, v => .object (fields.toMembers v)

def Fields.toMembers : (fields : Fields) → fields.Vals → List (String × Tree)
  | .nil, _ => []
  | .cons name s rest, v => (name, s.toTree v.1) :: rest.toMembers v.2

end

mutual

/-- How deep arrays and objects stand inside each other in a value. -/
def Schema.height : Schema → Nat
  | .text | .port | .counter | .flag => 0
  | .nullable s => s.height
  | .list s | .map s => s.height + 1
  | .record fields => fields.height + 1

def Fields.height : Fields → Nat
  | .nil => 0
  | .cons _ s rest => max s.height rest.height

end

variable {key : String} {value x : List Char} {xs : List (List Char)} {depth : Nat} {t : Tree}

/-! ## Lists -/

theorem listed_further (xs : List (List Char)) : Listed false xs (xs.flatMap (',' :: ·)) := by
  induction xs with
  | nil => exact .nil .nil
  | cons x xs ih => exact .next .nil .nil ih

theorem commaSeparated_cons (x : List Char) (xs : List (List Char)) :
    commaSeparated (x :: xs) = x ++ xs.flatMap (',' :: ·) := by
  induction xs generalizing x with
  | nil => rfl
  | cons y xs ih =>
    have hrest : commaSeparated (x :: y :: xs) = x ++ ',' :: commaSeparated (y :: xs) := rfl
    rw [hrest, ih]
    rfl

theorem listed_commaSeparated (xs : List (List Char)) : Listed true xs (commaSeparated xs) := by
  cases xs with
  | nil => exact .nil .nil
  | cons x xs =>
    rw [commaSeparated_cons]
    exact .head .nil (listed_further xs)

/-! ## Members -/

/-- A key with what is written behind it. -/
def behindKey (e : String × List Char) : String × List Char := (e.1, ':' :: e.2)

/-- The members of an object as they are written. -/
def memberTexts (es : List (String × List Char)) : List (List Char) :=
  es.map fun e => writeMember e.1 e.2

/-- The entries of a map. -/
def entryTexts {α : Type} (write : α → List Char) (m : SortedMap String α) :
    List (String × List Char) :=
  m.entries.map fun e => (e.1, write e.2)

/-- The members of a record. -/
def Fields.texts : (fields : Fields) → fields.Vals → List (String × List Char)
  | .nil, _ => []
  | .cons name s rest, v => (name, s.write v.1) :: rest.texts v.2

theorem Schema.write_map (s : Schema) (m : SortedMap String s.Val) :
    (Schema.map s).write m = writeObject (memberTexts (entryTexts s.write m)) := by
  rw [memberTexts, entryTexts, List.map_map]
  rfl

theorem Fields.write_eq : (fields : Fields) → (v : fields.Vals) →
    fields.write v = memberTexts (fields.texts v)
  | .nil, _ => rfl
  | .cons name s rest, v => congrArg (writeMember name (s.write v.1) :: ·) (rest.write_eq v.2)

theorem Fields.mem_names_of_texts : (fields : Fields) → (v : fields.Vals) →
    ∀ e ∈ fields.texts v, e.1 ∈ fields.names
  | .nil, _ => nofun
  | .cons _ _ rest, v => List.forall_mem_cons.2
    ⟨List.mem_cons_self, fun e he => List.mem_cons_of_mem _ (rest.mem_names_of_texts v.2 e he)⟩

/-! ## The text of the tree -/

theorem afterKey_colon (value : List Char) : AfterKey value (':' :: value) :=
  ⟨[], [], .nil, .nil, rfl⟩

theorem TreeAs.of_scalar (h : ScalarAs t x) : TreeAs depth t x := by
  cases depth with
  | zero => exact h
  | succ depth => exact .scalar h

theorem scalarAs_quote (w : String) : ScalarAs (.text w) (quote w) := by
  obtain ⟨k, hk, hquoted⟩ := quotedAs_quote w
  rw [hk]
  exact .text hquoted

section
variable {inner : Tree → List Char → Prop} {m : String × Tree} {e : String × List Char}
  {ms : List (String × Tree)} {es : List (String × List Char)}

theorem memberAs_of_splits (h : Splits inner m (behindKey e)) :
    MemberAs inner m (writeMember e.1 e.2) := by
  obtain ⟨hkey, v, hv, htail⟩ := h
  obtain ⟨k, hk, hquoted⟩ := quotedAs_quote e.1
  refine ⟨k, v, ':' :: e.2, hkey ▸ hquoted, hv, htail, ?_⟩
  rw [writeMember, hk]
  rfl

theorem memberAs_writeMember (h : inner t value) :
    MemberAs inner (key, t) (writeMember key value) :=
  memberAs_of_splits (e := (key, value)) ⟨rfl, value, h, afterKey_colon value⟩

theorem membersAs_texts (h : List.Forall₂ (Splits inner) ms (es.map behindKey)) :
    List.Forall₂ (MemberAs inner) ms (memberTexts es) :=
  List.forall₂_map_right_iff.2 ((List.forall₂_map_right_iff.1 h).imp fun _ _ => memberAs_of_splits)

theorem splits_entries {α : Type} {toTree : α → Tree} {write : α → List Char} (h : ∀ v, inner (toTree v) (write v)) (m : SortedMap String α) :
    List.Forall₂ (Splits inner) (m.entries.map fun e => (e.1, toTree e.2))
      ((entryTexts write m).map behindKey) := by
  rw [entryTexts, List.map_map]
  exact List.forall₂_map_left_iff.2 (List.forall₂_map_right_iff.2
    (List.forall₂_same.2 fun e _ => ⟨rfl, write e.2, h e.2, afterKey_colon _⟩))

end

mutual

/-- A value is written as a text of its tree. -/
theorem Schema.treeAs_write : (s : Schema) → {depth : Nat} → s.height ≤ depth → (v : s.Val) →
    TreeAs depth (s.toTree v) (s.write v)
  | .text, _, _, v => .of_scalar (scalarAs_quote v)
  | .port, _, _, v => .of_scalar (.number (numeralAs_digits (UInt16.toUInt64 v)))
  | .counter, _, _, v => .of_scalar (.number (numeralAs_digits v))
  | .flag, _, _, v => .of_scalar (.flag v)
  | .nullable _, _, _, none => .of_scalar .null
  | .nullable s, _, h, some v => s.treeAs_write h v
  | .list s, depth + 1, h, vs => by
    refine .array (List.forall₂_map_left_iff.2 (List.forall₂_map_right_iff.2 ?_))
      (listed_commaSeparated _)
    exact List.forall₂_same.2 fun v _ => s.treeAs_write (Nat.le_of_succ_le_succ h) v
  | .map s, depth + 1, h, m => by
    rw [s.write_map m]
    exact .object (membersAs_texts (splits_entries (s.treeAs_write (Nat.le_of_succ_le_succ h)) m))
      (listed_commaSeparated _)
  | .record fields, depth + 1, h, v => by
    change TreeAs _ _ (writeObject (fields.write v))
    rw [fields.write_eq v]
    exact .object (membersAs_texts (fields.splits_texts (Nat.le_of_succ_le_succ h) v))
      (listed_commaSeparated _)

theorem Fields.splits_texts : (fields : Fields) → {depth : Nat} → fields.height ≤ depth →
    (v : fields.Vals) → List.Forall₂ (Splits (TreeAs depth)) (fields.toMembers v)
      ((fields.texts v).map behindKey)
  | .nil, _, _, _ => .nil
  | .cons _ s rest, _, h, v =>
    .cons ⟨rfl, s.write v.1, s.treeAs_write (Nat.le_trans (Nat.le_max_left ..) h) v.1,
        afterKey_colon _⟩
      (rest.splits_texts (Nat.le_trans (Nat.le_max_right ..) h) v.2)

end

/-! ## What the tree depicts -/

theorem Schema.toTree_ne_null {s : Schema} (h : s.absent?.isNone = true) (v : s.Val) :
    s.toTree v ≠ .null := by
  cases s with
  | nullable s => cases h
  | _ => nofun

mutual

/-- The tree of a value depicts it. -/
theorem Schema.depicts_toTree : (s : Schema) → s.proper = true → (v : s.Val) →
    s.Depicts v (s.toTree v)
  | .text, _, _ | .port, _, _ | .counter, _, _ | .flag, _, _ => rfl
  | .nullable _, _, none => rfl
  | .nullable s, hs, some v => by
    obtain ⟨hnull, hs⟩ := Bool.and_eq_true_iff.1 hs
    exact ⟨s.toTree_ne_null hnull v, s.depicts_toTree hs v⟩
  | .list s, hs, vs =>
    ⟨_, rfl, List.forall₂_map_right_iff.2 (List.forall₂_same.2 fun v _ => s.depicts_toTree hs v)⟩
  | .map s, hs, m => by
    refine ⟨_, m.entries, rfl, ?_, m.get?_eq_lookup⟩
    exact List.forall₂_map_right_iff.2
      (List.forall₂_same.2 fun e _ => ⟨rfl, s.depicts_toTree hs e.2⟩)
  | .record fields, hs, v =>
    .inl ⟨_, _, [], rfl, by rw [List.append_nil], fields.depicts_toMembers hs v, nofun⟩

theorem Fields.depicts_toMembers : (fields : Fields) → fields.proper = true → (v : fields.Vals) →
    fields.DepictsMembers v (fields.toMembers v)
  | .nil, _, _ => rfl
  | .cons name s rest, hs, v => by
    obtain ⟨-, hs, hrest⟩ := Fields.proper_cons.1 hs
    exact .inl ⟨_, _, rfl, s.depicts_toTree hs v.1, rest.depicts_toMembers hrest v.2⟩

end

/-! ## Reading it back -/

/-- A value that cannot be left out does not begin as `null` does. -/
theorem Schema.write_eq_cons {s : Schema} (h : s.absent?.isNone = true) (v : s.Val) :
    ∃ c r, s.write v = c :: r ∧ c ≠ 'n' := by
  have hdigits (n : Nat) : ∃ c r, Decimal.digits n = c :: r ∧ c ≠ 'n' := by
    obtain ⟨c, r, hr, hc⟩ := (digits_digits n).opens []
    refine ⟨c, r, (List.append_nil _).symm.trans hr, ?_⟩
    rintro rfl
    exact absurd hc (by decide)
  cases s with
  | nullable s => cases h
  | port => exact hdigits _
  | counter => exact hdigits _
  | flag => cases v <;> exact ⟨_, _, rfl, by decide⟩
  | _ => exact ⟨_, _, rfl, by decide⟩

section
variable {name : String} {s : Schema} {rest : Fields} {part : Option s.Val} {parts : rest.Parts}

theorem Fields.member_join_self : (Fields.cons name s rest).member name (join name none parts) =
    .afterColon (s.reader.map fun v => join name (some v) parts) :=
  if_pos rfl

theorem Fields.member_join_of_ne (h : key ≠ name) :
    (Fields.cons name s rest).member key (join name part parts) =
      (rest.member key parts).map (join name part) :=
  if_neg h

/-- The members of the rest of a record leave the first one as it is. -/
theorem Fields.takesIn_join {ms : List (String × List Char)} {result : Except Cause rest.Parts}
    (part : Option s.Val) (h : TakesIn rest.member parts ms result) (hne : ∀ m ∈ ms, m.1 ≠ name) :
    TakesIn (Fields.cons name s rest).member (join name part parts) ms
      (result.map (join name part)) := by
  induction h with
  | done => exact .done
  | fault hfault =>
    refine .fault fun r hr => ?_
    rw [member_join_of_ne (hne _ List.mem_cons_self), run_map, hfault r hr]
    rfl
  | step hstep _ ih =>
    refine .step (fun r hr => ?_) (ih fun m hm => hne m (List.mem_cons_of_mem _ hm))
    rw [member_join_of_ne (hne _ List.mem_cons_self), run_map, hstep r hr]
    rfl

end

theorem closes_quote (w : String) : Closes .text (quote w) w := by
  obtain ⟨k, hk, hquoted⟩ := quotedAs_quote w
  rw [hk]
  exact closes_text hquoted

theorem isMember_writeMember (key : String) (value : List Char) :
    IsMember key (':' :: value) (writeMember key value) := by
  obtain ⟨k, hk, hquoted⟩ := quotedAs_quote key
  rw [writeMember, hk]
  exact isMember_of_quotedAs hquoted _

section
variable {α σ : Type} {p : Reader α} {write : α → List Char} {es : List (String × List Char)}
  {member : String → σ → Reader σ} {acc acc' : σ}

/-- Members that can be taken in are read as they are written. -/
theorem run_members (h : TakesIn member acc (es.map behindKey) (.ok acc')) (rest : List Char) :
    (Reader.members .quoted member acc).run (commaSeparated (memberTexts es) ++ '\x7d' :: rest) =
      .ok (acc', rest) := by
  have hmembers : List.Forall₂ (fun m x => IsMember m.1 m.2 x) (es.map behindKey) (memberTexts es) :=
    List.forall₂_map_left_iff.2 (List.forall₂_map_right_iff.2
      (List.forall₂_same.2 fun e _ => isMember_writeMember e.1 e.2))
  exact membersFrom_listed (listed_commaSeparated _) hmembers h rest

/-- The entries of a map are taken in one after the other. -/
theorem takesIn_entries (h : ∀ v, Reads p (write v) v) (m : SortedMap String α) :
    TakesIn (fun key m => .afterColon (p.map (SortedMap.insert m key))) .empty
      ((entryTexts write m).map behindKey) (.ok m) := by
  have hall (entries : List (String × α)) (m : SortedMap String α) :
      TakesIn (fun key m => .afterColon (p.map (SortedMap.insert m key))) m
        (entries.map fun e => (e.1, ':' :: write e.2))
        (.ok (entries.foldl (fun m e => m.insert e.1 e.2) m)) := by
    induction entries generalizing m with
    | nil => exact .done
    | cons e entries ih =>
      exact .step (fun r hr => ((h e.2).map _).run_afterColon (afterKey_colon _) hr) (ih _)
  have hfold : m.entries.foldl (fun m e => m.insert e.1 e.2) .empty = m := m.ofList_entries
  have htaken := hall m.entries .empty
  rw [hfold] at htaken
  rwa [entryTexts, List.map_map]

theorem closes_list (h : ∀ v, Reads p (write v) v) (object : Reader (List α)) (vs : List α) :
    Closes (.bracketed (.elements p) object) ('[' :: commaSeparated (vs.map write) ++ [']']) vs := by
  refine .of_array fun rest => elementsFrom_listed (listed_commaSeparated _) ?_ rest
  exact List.forall₂_map_left_iff.2 (List.forall₂_same.2 fun v _ => h v)

theorem closes_entries (h : ∀ v, Reads p (write v) v) (array : Reader (SortedMap String α))
    (m : SortedMap String α) : Closes (.bracketed array
        (.members .quoted (fun key m => .afterColon (p.map (SortedMap.insert m key))) .empty))
      (writeObject (memberTexts (entryTexts write m))) m :=
  .of_object fun rest => run_members (takesIn_entries h m) rest

end

/-- The members of a record are taken in one after the other, and make up its value. -/
def Fields.TakesInAll (fields : Fields) (v : fields.Vals) : Prop :=
  ∃ parts, TakesIn fields.member fields.noParts ((fields.texts v).map behindKey) (.ok parts) ∧
    fields.complete parts = some v

theorem Fields.TakesInAll.closes {fields : Fields} {v : fields.Vals} (h : fields.TakesInAll v) :
    Closes (Schema.record fields).reader ((Schema.record fields).write v) v := by
  obtain ⟨parts, htaken, hcomplete⟩ := h
  change Closes _ (writeObject (fields.write v)) v
  rw [fields.write_eq]
  refine .of_object fun rest => ?_
  simp only [Reader.filterMap, run_members htaken rest, hcomplete]
  rfl

mutual

/-- A value is read off what it is written as. -/
theorem Schema.reads_write : (s : Schema) → s.proper = true → (v : s.Val) →
    Reads s.reader (s.write v) v
  | .text, _, v => (closes_quote v).reads
  | .port, _, v => reads_port v
  | .counter, _, v => reads_word v
  | .flag, _, v => reads_flag v
  | .nullable s, _, none => reads_null s.reader
  | .nullable s, hs, some v => by
    obtain ⟨hnull, hs⟩ := Bool.and_eq_true_iff.1 hs
    have hread := s.reads_write hs v
    obtain ⟨c, r, hcons, hc⟩ := s.write_eq_cons hnull v
    change Reads (.orNull s.reader) (s.write v) (some v)
    rw [hcons] at hread ⊢
    exact hread.orNull hc
  | .list s, hs, vs => (closes_list (s.reads_write hs) _ vs).reads
  | .map s, hs, m => by
    rw [s.write_map m]
    exact (closes_entries (s.reads_write hs) _ m).reads
  | .record fields, hs, v => (fields.takesIn_write hs v).closes.reads

theorem Fields.takesIn_write : (fields : Fields) → fields.proper = true → (v : fields.Vals) →
    fields.TakesInAll v
  | .nil, _, v => ⟨(), .done, rfl⟩
  | .cons name s rest, hs, v => by
    obtain ⟨hname, hs, hrest⟩ := Fields.proper_cons.1 hs
    obtain ⟨parts, htaken, hcomplete⟩ := rest.takesIn_write hrest v.2
    have hfirst (r : List Char) (hr : Stops r) :
        ((Fields.cons name s rest).member name (Fields.join name none rest.noParts)).run
          (':' :: s.write v.1 ++ r) = .ok (Fields.join name (some v.1) rest.noParts, r) := by
      rw [Fields.member_join_self]
      exact ((s.reads_write hs v.1).map _).run_afterColon (afterKey_colon _) hr
    have hne : ∀ m ∈ (rest.texts v.2).map behindKey, m.1 ≠ name := by
      intro m hm heq
      obtain ⟨e, he, rfl⟩ := List.mem_map.1 hm
      exact hname (heq ▸ rest.mem_names_of_texts v.2 e he)
    exact ⟨Fields.join name (some v.1) parts, .step hfirst (Fields.takesIn_join (some v.1) htaken hne),
      Fields.complete_join (Option.some_or ..) hcomplete⟩

end

end CausalStore.Wire
