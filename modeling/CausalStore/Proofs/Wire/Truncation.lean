import CausalStore.Proofs.Wire.Cuts
import CausalStore.Proofs.Wire.RoundTrip

/-!
# Documents that are cut off or run on

Whatever goes over the wire is a text or stands between brackets, so the writing of a value tells where
it ends. A document that is cut off anywhere is found to be truncated, and one that is followed by
anything but blanks is malformed (`wire_formats_delimited`). No check fires before the cut is met: what
stands in front of the cut is read as it would be in the whole document.
-/

namespace CausalStore.Wire

/-! ## Values of a schema -/

section
variable {α : Type} {p : Reader α} {write : α → List Char}

theorem breaks_list (h : ∀ v, Reads p (write v) v) (hcut : ∀ v, RunsOut p (write v))
    (object : Reader (List α)) (vs : List α) :
    Breaks (.bracketed (.elements p) object) ('[' :: commaSeparated (vs.map write) ++ [']']) := by
  have helements : List.Forall₂ (Reads p) (vs.map write) vs :=
    List.forall₂_map_left_iff.2 (List.forall₂_same.2 fun v _ => h v)
  exact .of_array (breaks_elements helements (List.forall_mem_map.2 fun v _ => hcut v))

theorem breaks_entries (h : ∀ v, Reads p (write v) v) (hcut : ∀ v, RunsOut p (write v))
    (array : Reader (SortedMap String α)) (m : SortedMap String α) : Breaks (.bracketed array
        (.members .quoted (fun key m => .afterColon (p.map (SortedMap.insert m key))) .empty))
      (writeObject (memberTexts (entryTexts write m))) := by
  refine .of_object (breaks_members (takesIn_entries h m) ?_)
  exact List.forall_mem_map.2 fun e _ _ _ _ => ((hcut e.2).map _).afterColon

end

theorem Fields.TakesInAll.breaks {fields : Fields} {v : fields.Vals} (h : fields.TakesInAll v)
    (hcut : ∀ e ∈ fields.texts v, MemberRunsOut fields.member e) :
    Breaks (Schema.record fields).reader ((Schema.record fields).write v) := by
  obtain ⟨parts, htaken, -⟩ := h
  change Breaks _ (writeObject (fields.write v))
  rw [fields.write_eq]
  exact .of_object ((breaks_members htaken hcut).filterMap _)

/-- The first member of a record is taken in once. -/
theorem Fields.memberRunsOut_self {name : String} {s : Schema} {rest : Fields} {x : List Char}
    (h : RunsOut s.reader x) : MemberRunsOut (Fields.cons name s rest).member (name, x) := by
  rintro ⟨part, parts⟩ acc' htaken
  cases part with
  | none =>
    change RunsOut ((Fields.cons name s rest).member name (join name none parts)) _
    rw [member_join_self]
    exact (h.map _).afterColon
  | some v =>
    have hfail : (Fields.cons name s rest).member name (join name (some v) parts) =
        .fail .mismatched := if_pos rfl
    have hrun := htaken [] nofun
    change ((Fields.cons name s rest).member name (join name (some v) parts)).run _ = _ at hrun
    rw [hfail] at hrun
    cases hrun

/-- The other members are left to the rest of the record. -/
theorem Fields.memberRunsOut_of_ne {name : String} {s : Schema} {rest : Fields}
    {e : String × List Char} (hne : e.1 ≠ name) (h : MemberRunsOut rest.member e) :
    MemberRunsOut (Fields.cons name s rest).member e := by
  rintro ⟨part, parts⟩ ⟨part', parts'⟩ htaken
  change RunsOut ((Fields.cons name s rest).member e.1 (join name part parts)) _
  change ∀ r, Stops r → ((Fields.cons name s rest).member e.1 (join name part parts)).run _ =
    .ok (join name part' parts', r) at htaken
  rw [member_join_of_ne hne] at htaken ⊢
  refine (h parts parts' fun r hr => ?_).map _
  have hrun := htaken r hr
  rw [run_map] at hrun
  cases hread : (rest.member e.1 parts).run (':' :: e.2 ++ r) with
  | error cause =>
    rw [hread] at hrun
    cases hrun
  | ok q =>
    rw [hread] at hrun
    cases hrun
    rfl

mutual

/-- What is left of a value is read to its end, or its end is missed. -/
theorem Schema.runsOut_write : (s : Schema) → s.proper = true → (v : s.Val) →
    RunsOut s.reader (s.write v)
  | .text, _, v => (breaks_quote v).runsOut
  | .port, _, v => runsOut_port v
  | .counter, _, v => runsOut_word v
  | .flag, _, v => (breaks_flag v).runsOut
  | .nullable s, _, none => (breaks_null s.reader).runsOut
  | .nullable s, hs, some v => by
    obtain ⟨hnull, hs⟩ := Bool.and_eq_true_iff.1 hs
    have hcut := s.runsOut_write hs v
    obtain ⟨c, r, hcons, hblank, -⟩ := (s.reads_write hs v).opens
    obtain ⟨c', r', hcons', hc⟩ := s.write_eq_cons hnull v
    obtain ⟨rfl, rfl⟩ := List.cons.inj (hcons.symm.trans hcons')
    change RunsOut (.orNull s.reader) (s.write v)
    rw [hcons] at hcut ⊢
    exact hcut.orNull hblank hc
  | .list s, hs, vs => (breaks_list (s.reads_write hs) (s.runsOut_write hs) _ vs).runsOut
  | .map s, hs, m => by
    rw [s.write_map m]
    exact (breaks_entries (s.reads_write hs) (s.runsOut_write hs) _ m).runsOut
  | .record fields, hs, v => ((fields.takesIn_write hs v).breaks (fields.runsOut_write hs v)).runsOut

theorem Fields.runsOut_write : (fields : Fields) → fields.proper = true → (v : fields.Vals) →
    ∀ e ∈ fields.texts v, MemberRunsOut fields.member e
  | .nil, _, _ => nofun
  | .cons name s rest, hs, v => by
    obtain ⟨hname, hs, hrest⟩ := Fields.proper_cons.1 hs
    refine List.forall_mem_cons.2 ⟨Fields.memberRunsOut_self (s.runsOut_write hs v.1), fun e he => ?_⟩
    have hne : e.1 ≠ name := fun heq => hname (heq ▸ rest.mem_names_of_texts v.2 e he)
    exact Fields.memberRunsOut_of_ne hne (rest.runsOut_write hrest v.2 e he)

end

/-- Values are texts, or stand between brackets. -/
def Schema.enclosed : Schema → Bool
  | .text | .list _ | .map _ | .record _ => true
  | .port | .counter | .flag | .nullable _ => false

theorem Schema.breaks_write {s : Schema} (he : s.enclosed = true) (hs : s.proper = true)
    (v : s.Val) : Breaks s.reader (s.write v) := by
  cases s with
  | text => exact breaks_quote v
  | list s => exact breaks_list (s.reads_write hs) (s.runsOut_write hs) _ v
  | map s =>
    rw [s.write_map v]
    exact breaks_entries (s.reads_write hs) (s.runsOut_write hs) _ v
  | record fields => exact (fields.takesIn_write hs v).breaks (fields.runsOut_write hs v)
  | _ => cases he

theorem Schema.closes_write {s : Schema} (he : s.enclosed = true) (hs : s.proper = true)
    (v : s.Val) : Closes s.reader (s.write v) v := by
  cases s with
  | text => exact closes_quote v
  | list s => exact closes_list (s.reads_write hs) _ v
  | map s =>
    rw [s.write_map v]
    exact closes_entries (s.reads_write hs) _ v
  | record fields => exact (fields.takesIn_write hs v).closes
  | _ => cases he

/-! ## Values that are read as trees -/

section
variable {p : Reader Tree} {x : List Char} {c : Char} {depth : Nat} {es : List (String × List Char)}
  {ms : List (String × Tree)}

theorem RunsOut.tree_of_scalar (h : ∀ p, RunsOut (Tree.scalarOr p) x) :
    RunsOut (Tree.reader depth) x := by
  cases depth <;> exact h _

theorem RunsOut.scalarOr (h : RunsOut p (c :: x)) (hc : c = '[' ∨ c = '\x7b') :
    RunsOut (Tree.scalarOr p) (c :: x) := by
  have hp : RunsOut (if c = '[' ∨ c = '\x7b' then p else .fail .malformed) (c :: x) := by
    rwa [if_pos hc]
  refine .select ?_ ?_
  · rcases hc with rfl | rfl <;> rfl
  · rcases hc with rfl | rfl
    all_goals
      rw [if_neg (by decide), if_neg (by decide), if_neg (by decide), if_neg (by decide)]
      exact hp

theorem runsOut_tree_quote (w : String) : RunsOut (Tree.reader depth) (quote w) :=
  .tree_of_scalar fun p => by
    refine .select rfl ?_
    rw [if_pos rfl]
    exact ((breaks_quote w).map Tree.text).runsOut

theorem runsOut_tree_digits (n : UInt64) : RunsOut (Tree.reader depth) (Decimal.digits n.toNat) :=
  .tree_of_scalar fun p => by
    obtain ⟨c, r, hcons, hc⟩ := (numeralAs_digits n).opens
    have hcut := runsOut_numeral n
    rw [hcons] at hcut ⊢
    refine .select (isBlank_of_digit hc).1 ?_
    rw [if_neg (ne_quote_of_digit hc), if_pos hc]
    exact hcut.map Tree.number

theorem runsOut_tree_flag (v : Bool) : RunsOut (Tree.reader depth) (writeFlag v) :=
  .tree_of_scalar fun p => by
    have hcut := ((breaks_flag v).map Tree.flag).runsOut
    cases v <;> refine .select rfl ?_ <;>
      (rw [if_neg (by decide), if_neg (by decide), if_pos (by decide)]; exact hcut)

theorem runsOut_tree_null : RunsOut (Tree.reader depth) ['n', 'u', 'l', 'l'] :=
  .tree_of_scalar fun p => by
    refine .select rfl ?_
    rw [if_neg (by decide), if_neg (by decide), if_neg (by decide), if_pos rfl]
    exact ((breaks_null p).map fun _ => Tree.null).runsOut

theorem runsOut_tree_object (h : List.Forall₂ (Splits (TreeAs depth)) ms (es.map behindKey))
    (hcut : ∀ e ∈ es, RunsOut (Tree.reader depth) e.2) :
    RunsOut (Tree.reader (depth + 1)) (writeObject (memberTexts es)) := by
  have htrees : List.Forall₂ (Splits fun t v => Reads (Tree.reader depth) v t) ms
      (es.map behindKey) := h.imp fun _ _ hm => ⟨hm.1, hm.2.imp fun _ => .imp_left reads_tree⟩
  have hmembers := breaks_members (takesIn_trees htrees [])
    fun e he _ _ _ => ((hcut e he).map _).afterColon
  exact .scalarOr (Breaks.of_object (hmembers.map _)).runsOut (.inr rfl)

end

mutual

/-- The same of the reader of trees. -/
theorem Schema.runsOut_tree : (s : Schema) → {depth : Nat} → s.height ≤ depth → (v : s.Val) →
    RunsOut (Tree.reader depth) (s.write v)
  | .text, _, _, v => runsOut_tree_quote v
  | .port, _, _, v => runsOut_tree_digits (UInt16.toUInt64 v)
  | .counter, _, _, v => runsOut_tree_digits v
  | .flag, _, _, v => runsOut_tree_flag v
  | .nullable _, _, _, none => runsOut_tree_null
  | .nullable s, _, h, some v => s.runsOut_tree h v
  | .list s, depth + 1, h, vs => by
    have hs := Nat.le_of_succ_le_succ h
    have helements : List.Forall₂ (Reads (Tree.reader depth)) (List.map s.write vs)
        (List.map s.toTree vs) :=
      List.forall₂_map_left_iff.2 (List.forall₂_map_right_iff.2
        (List.forall₂_same.2 fun v _ => reads_tree (s.treeAs_write hs v)))
    have hcut := breaks_elements helements
      (List.forall_mem_map.2 fun v _ => s.runsOut_tree hs v)
    exact .scalarOr (Breaks.of_array (hcut.map _)).runsOut (.inl rfl)
  | .map s, depth + 1, h, m => by
    have hs := Nat.le_of_succ_le_succ h
    rw [s.write_map m]
    exact runsOut_tree_object (splits_entries (s.treeAs_write hs) m)
      (List.forall_mem_map.2 fun e _ => s.runsOut_tree hs e.2)
  | .record fields, depth + 1, h, v => by
    change RunsOut _ (writeObject (fields.write v))
    rw [fields.write_eq v]
    exact runsOut_tree_object (fields.splits_texts (Nat.le_of_succ_le_succ h) v)
      (fields.runsOut_tree (Nat.le_of_succ_le_succ h) v)

theorem Fields.runsOut_tree : (fields : Fields) → {depth : Nat} → fields.height ≤ depth →
    (v : fields.Vals) → ∀ e ∈ fields.texts v, RunsOut (Tree.reader depth) e.2
  | .nil, _, _, _ => nofun
  | .cons _ s rest, _, h, v => List.forall_mem_cons.2
    ⟨s.runsOut_tree (Nat.le_trans (Nat.le_max_left ..) h) v.1,
      rest.runsOut_tree (Nat.le_trans (Nat.le_max_right ..) h) v.2⟩

end

end CausalStore.Wire

namespace CausalStore.Message

open Wire

/-! ## Messages -/

theorem ne_type_of_texts {m : Message} {e : String × List Char}
    (he : e ∈ m.kind.fields.texts m.vals) : e.1 ≠ "type" := fun htype =>
  type_not_mem_names m.kind (htype ▸ m.kind.fields.mem_names_of_texts m.vals e he)

/-- The members of a message are taken in one after the other. -/
theorem exists_takesIn (m : Message) : ∃ taken, TakesIn memberReader (none, [])
    (m.texts.map behindKey) (.ok taken) := by
  have htaken := takesIn_members m.splits_texts (none, [])
  have hmeaning := meaning?_of_depicts m.depicts_toTree
  rw [toTree, meaning?] at hmeaning
  obtain ⟨taken, hfold, -⟩ := Option.bind_eq_some_iff.1 hmeaning
  rw [hfold] at htaken
  exact ⟨taken, htaken⟩

theorem memberRunsOut {m : Message} {e : String × List Char} (he : e ∈ m.texts) :
    MemberRunsOut memberReader e := by
  rintro ⟨kind, members⟩ acc' htaken
  rcases List.mem_cons.1 he with rfl | he
  · cases kind with
    | some k =>
      have hrun := htaken [] nofun
      cases hrun
    | none => exact (((breaks_quote m.kind.tag).filterMap _).map _).runsOut.afterColon
  · have hreader : memberReader e.1 (kind, members) =
        .afterColon ((Tree.reader maxDepth).map fun t => (kind, (e.1, t) :: members)) :=
      if_neg (ne_type_of_texts he)
    rw [hreader]
    have hcut := m.kind.fields.runsOut_tree (height_fields_le m.kind) m.vals e he
    exact (hcut.map _).afterColon

theorem breaks_write (m : Message) : Breaks Message.reader m.write := by
  obtain ⟨taken, htaken⟩ := m.exists_takesIn
  rw [m.write_eq]
  exact .of_object ((breaks_members htaken fun _ => memberRunsOut).filterMap _)

end CausalStore.Message

namespace CausalStore.Wire

/-! ## Documents -/

variable {α : Type}

/-- The document of a value tells where it ends. -/
structure Format.Delimited (f : Format α) : Prop where
  /-- What is left of a document when its end is cut off. -/
  truncated {a : α} {text rest : String} : f.encode a = text ++ rest → rest ≠ "" →
    f.decode text = .error .truncated ∧ f.decodeFirst text.toList = .error .truncated
  /-- A document with something behind it that is not blank. -/
  overlong (a : α) {c : Char} {rest : String} : rest.toList.head? = some c → isBlank c = false →
    f.decode (f.encode a ++ rest) = .error .malformed

theorem Format.delimited {f : Format α} (hcut : ∀ a, Breaks f.reader (f.write a))
    (hclose : ∀ a, Closes f.reader (f.write a) a) : f.Delimited where
  truncated {a text rest} h hne := by
    have hwrite : f.write a = text.toList ++ rest.toList := by
      rw [← String.toList_append, ← h, Format.encode, String.toList_ofList]
    have hrun := hcut a text.toList ⟨rest.toList, by simpa using hne, hwrite⟩
    constructor
    · rw [decode, hrun]
    · rw [decodeFirst, hrun]
      rfl
  overlong a {c rest} hc hblank := by
    have hrun := (hclose a).run .nil rest.toList
    rw [decode, String.toList_append, Format.encode, String.toList_ofList]
    rw [List.nil_append] at hrun
    rw [hrun]
    obtain ⟨r, hr⟩ := List.head?_eq_some_iff.1 hc
    dsimp only
    rw [hr, skipBlank_cons hblank, if_neg (List.cons_ne_nil c r)]

theorem Layout.delimited (l : Layout α) (he : l.schema.enclosed = true)
    (hs : l.schema.proper = true) : l.format.Delimited := by
  refine Format.delimited (fun a => ?_) fun a => ?_
  · exact (Schema.breaks_write he hs (l.toVal a)).map l.ofVal
  · have hclose := (Schema.closes_write he hs (l.toVal a)).map l.ofVal
    rwa [l.ofVal_toVal] at hclose

/-- Of every type of value that goes over the wire, a document that ends too early anywhere is found to
be truncated, and one with anything but blanks behind it is malformed. -/
theorem wire_formats_delimited :
    Message.format.Delimited ∧ Layout.clock.format.Delimited ∧ Layout.nodeId.format.Delimited ∧
    Layout.peer.format.Delimited ∧ Layout.update.format.Delimited ∧
    Layout.entry.format.Delimited ∧ Layout.snapshot.format.Delimited ∧
    Layout.putRequest.format.Delimited ∧ Layout.putResponse.format.Delimited ∧
    Layout.getResponse.format.Delimited ∧ Layout.dump.format.Delimited :=
  ⟨Format.delimited Message.breaks_write Message.closes_write,
    Layout.clock.delimited rfl (by decide), Layout.nodeId.delimited rfl (by decide),
    Layout.peer.delimited rfl (by decide), Layout.update.delimited rfl (by decide),
    Layout.entry.delimited rfl (by decide), Layout.snapshot.delimited rfl (by decide),
    Layout.putRequest.delimited rfl (by decide), Layout.putResponse.delimited rfl (by decide),
    Layout.getResponse.delimited rfl (by decide), Layout.dump.delimited rfl (by decide)⟩

/-- An id whose last character is cut off in the middle of its escape, and one with a second document
behind it. -/
example : Layout.nodeId.format.decode "\"a\\u00" = .error .truncated ∧
    Layout.nodeId.format.decode "\"a\" \"b\"" = .error .malformed := by
  decide +kernel

end CausalStore.Wire
