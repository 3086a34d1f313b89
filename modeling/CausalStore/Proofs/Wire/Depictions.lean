import CausalStore.Proofs.MapLookup
import CausalStore.Proofs.Wire.Literals
import CausalStore.Wire.Tree
import Mathlib.Data.List.Perm.Basic

/-!
# Trees that depict values

A tree depicts a value of a schema (`Schema.Depicts`) with the members of each record in any order and
unknown ones among them, or as an array of them, and with the pairs of each map in any order, where of
several pairs of one key the last one counts. What such a tree stands for is the value
(`ofTree?_of_depicts`). A tree that has a known member twice, in a record anywhere inside it, stands
for nothing (`ofTree?_of_doubles`).
-/

namespace CausalStore.Wire

/-- The names of the members. -/
def Fields.names : Fields → List String
  | .nil => []
  | .cons name _ rest => name :: rest.names

mutual

/-- No record in it has two members of one name, and `null` stands for one value only. -/
def Schema.proper : Schema → Bool
  | .text | .port | .counter | .flag => true
  | .nullable s => s.absent?.isNone && s.proper
  | .list s | .map s => s.proper
  | .record fields => fields.proper

def Fields.proper : Fields → Bool
  | .nil => true
  | .cons name s rest => decide (name ∉ rest.names) && s.proper && rest.proper

end

theorem Fields.proper_cons {name : String} {s : Schema} {rest : Fields} :
    (Fields.cons name s rest).proper = true ↔
      name ∉ rest.names ∧ s.proper = true ∧ rest.proper = true := by
  simp only [Fields.proper, Bool.and_eq_true, decide_eq_true_eq, and_assoc]

mutual

/-- The tree shows the value, in one of the layouts of the schema. -/
def Schema.Depicts : (s : Schema) → s.Val → Tree → Prop
  | .text, v, t => t = .text v
  | .port, v, t => t = .number (.word (UInt16.toUInt64 v))
  | .counter, v, t => t = .number (.word v)
  | .flag, v, t => t = .flag v
  | .nullable s, v, t =>
    match v with
    | none => t = .null
    | some v => t ≠ .null ∧ s.Depicts v t
  | .list s, vs, t => ∃ items, t = .array items ∧ List.Forall₂ s.Depicts vs items
  | .map s, m, t => ∃ members pairs, t = .object members ∧
      List.Forall₂ (fun p e => p.1 = e.1 ∧ s.Depicts p.2 e.2) pairs members ∧
      ∀ k, m.get? k = pairs.reverse.lookup k
  | .record fields, v, t =>
    (∃ members known unknown, t = .object members ∧ members.Perm (known ++ unknown) ∧
      fields.DepictsMembers v known ∧ ∀ e ∈ unknown, e.1 ∉ fields.names) ∨
    ∃ items, t = .array items ∧ fields.DepictsItems v items

/-- The members are those of the record in their order; those that may be left out may be missing. -/
def Fields.DepictsMembers : (fields : Fields) → fields.Vals → List (String × Tree) → Prop
  | .nil, _, members => members = []
  | .cons name s rest, v, members =>
    (∃ t others, members = (name, t) :: others ∧ s.Depicts v.1 t ∧ rest.DepictsMembers v.2 others) ∨
    s.absent? = some v.1 ∧ rest.DepictsMembers v.2 members

/-- The items are the members of the record in their order. -/
def Fields.DepictsItems : (fields : Fields) → fields.Vals → List Tree → Prop
  | .nil, _, items => items = []
  | .cons _ s rest, v, items =>
    ∃ t others, items = t :: others ∧ s.Depicts v.1 t ∧ rest.DepictsItems v.2 others

end

mutual

/-- A record somewhere in the tree has a known member twice. -/
def Schema.Doubles : Schema → Tree → Prop
  | .nullable s, t => t ≠ .null ∧ s.Doubles t
  | .list s, .array items => ∃ t ∈ items, s.Doubles t
  | .map s, .object members => ∃ e ∈ members, s.Doubles e.2
  | .record fields, .array items => fields.DoublesItem items
  | .record fields, .object members => fields.DoublesMember members
  | _, _ => False

/-- A known member comes twice, or has a doubled one inside it. -/
def Fields.DoublesMember : Fields → List (String × Tree) → Prop
  | .nil, _ => False
  | .cons name s rest, members =>
    1 < members.countP (·.1 = name) ∨ (∃ e ∈ members, e.1 = name ∧ s.Doubles e.2) ∨
      rest.DoublesMember members

/-- One of the items has a doubled member inside it. -/
def Fields.DoublesItem : Fields → List Tree → Prop
  | .cons _ s rest, t :: items => s.Doubles t ∨ rest.DoublesItem items
  | _, _ => False

end

/-! ## The members of a record -/

/-- Two of the things that pass a test can be put in front. -/
theorem exists_perm_of_countP {α : Type} {p : α → Bool} {l : List α} (h : 1 < l.countP p) :
    ∃ a b others, l.Perm (a :: b :: others) ∧ p a = true ∧ p b = true := by
  rw [List.countP_eq_length_filter] at h
  have hperm := (List.filter_append_perm p l).symm
  have hall : ∀ a ∈ l.filter p, p a = true := fun a ha => (List.mem_filter.1 ha).2
  generalize l.filter p = passed at h hperm hall
  match passed with
  | a :: b :: passed =>
    exact ⟨a, b, passed ++ _, hperm, hall a List.mem_cons_self,
      hall b (List.mem_cons_of_mem _ List.mem_cons_self)⟩
  | [_] => exact absurd h (Nat.lt_irrefl 1)
  | [] => exact absurd h (Nat.not_lt_zero 1)

namespace Fields

variable {key key' name : String} {s : Schema} {rest : Fields} {t t' : Tree} {part : Option s.Val}
  {ms ms' known unknown : List (String × Tree)}

/-- What was read of the first member, and what of the others. -/
def join (name : String) (part : Option s.Val) (parts : rest.Parts) : (cons name s rest).Parts :=
  (part, parts)

theorem place?_join_self (parts : rest.Parts) :
    (cons name s rest).place? name t (join name part parts) =
      if part.isSome then none else (s.ofTree? t).map fun v => join name (some v) parts := by
  cases part <;> exact if_pos rfl

theorem place?_join_of_ne (h : key ≠ name) (parts : rest.Parts) :
    (cons name s rest).place? key t (join name part parts) =
      (rest.place? key t parts).map (join name part) :=
  if_neg h

theorem complete_join {parts : rest.Parts} {v : s.Val} {vs : rest.Vals}
    (hv : part.or s.absent? = some v) (h : rest.complete parts = some vs) :
    (cons name s rest).complete (join name part parts) = some (v, vs) := by
  simp only [join, complete, hv, h]
  rfl

theorem place?_of_not_mem : (fields : Fields) → key ∉ fields.names →
    ∀ parts, fields.place? key t parts = some parts
  | .nil, _, _ => rfl
  | .cons name s rest, h, (part, parts) => by
    obtain ⟨hne, hrest⟩ := List.ne_and_not_mem_of_not_mem_cons h
    refine (place?_join_of_ne hne parts).trans ?_
    rw [rest.place?_of_not_mem hrest]
    rfl

/-- A known member is taken in once. -/
theorem place?_twice (t t' : Tree) : (fields : Fields) → key ∈ fields.names → ∀ parts,
    ((fields.place? key t parts).bind fun parts => fields.place? key t' parts) = none
  | .cons name s rest, h, (part, parts) => by
    change ((cons name s rest).place? key t (join name part parts)).bind _ = none
    by_cases hne : key = name
    · subst hne
      rw [place?_join_self]
      cases part with
      | some => rfl
      | none =>
        cases ht : s.ofTree? t with
        | none => rfl
        | some v => exact place?_join_self parts
    · have ih := rest.place?_twice t t' ((List.mem_cons.1 h).resolve_left hne) parts
      have hmap := congrArg (Option.map (join name part)) ih
      simpa only [place?_join_of_ne hne, Option.bind_map, Option.map_bind, Option.map_none,
        Function.comp_def] using hmap

theorem place?_self_comm (h : key ≠ name) (t t' : Tree) (part : Option s.Val) (parts : rest.Parts) :
    (((cons name s rest).place? name t (join name part parts)).bind fun parts =>
      (cons name s rest).place? key t' parts) =
    ((cons name s rest).place? key t' (join name part parts)).bind fun parts =>
      (cons name s rest).place? name t parts := by
  have hself (part : Option s.Val) (parts : rest.Parts) :
      (cons name s rest).place? name t (join name part parts) = _ := place?_join_self parts
  have hother (part : Option s.Val) (parts : rest.Parts) :
      (cons name s rest).place? key t' (join name part parts) = _ := place?_join_of_ne h parts
  cases part <;> cases ht : s.ofTree? t <;> cases hp : rest.place? key t' parts <;>
    simp [hself, hother, ht, hp]

/-- Members may be taken in in any order. -/
theorem place?_comm (key key' : String) (t t' : Tree) : (fields : Fields) → ∀ parts,
    ((fields.place? key t parts).bind fun parts => fields.place? key' t' parts) =
      (fields.place? key' t' parts).bind fun parts => fields.place? key t parts
  | .nil, _ => rfl
  | .cons name s rest, (part, parts) => by
    -- Both have the name of the first member, or only one of them has it, or none.
    by_cases h : key = name <;> by_cases h' : key' = name
    · subst h h'
      have hmem : key' ∈ (cons key' s rest).names := List.mem_cons_self
      exact (place?_twice t t' _ hmem _).trans (place?_twice t' t _ hmem _).symm
    · subst h
      exact place?_self_comm h' t t' part parts
    · subst h'
      exact (place?_self_comm h t' t part parts).symm
    · have ih := rest.place?_comm key key' t t' parts
      have hmap := congrArg (Option.map (join name part)) ih
      change ((cons name s rest).place? key t (join name part parts)).bind _ =
        ((cons name s rest).place? key' t' (join name part parts)).bind _
      simpa only [place?_join_of_ne h, place?_join_of_ne h', Option.bind_map, Option.map_bind,
        Function.comp_def] using hmap

/-- Takes in members one after the other. -/
def takeIn? (fields : Fields) (ms : List (String × Tree)) (parts : fields.Parts) :
    Option fields.Parts :=
  ms.foldlM (fun parts e => fields.place? e.1 e.2 parts) parts

variable {fields : Fields}

theorem takeIn?_cons (e : String × Tree) (ms : List (String × Tree)) (parts : fields.Parts) :
    fields.takeIn? (e :: ms) parts = (fields.place? e.1 e.2 parts).bind (fields.takeIn? ms) :=
  rfl

theorem takeIn?_append (ms ms' : List (String × Tree)) (parts : fields.Parts) :
    fields.takeIn? (ms ++ ms') parts = (fields.takeIn? ms parts).bind (fields.takeIn? ms') :=
  List.foldlM_append

theorem takeIn?_perm (h : ms.Perm ms') (parts : fields.Parts) :
    fields.takeIn? ms parts = fields.takeIn? ms' parts := by
  induction h generalizing parts with
  | nil => rfl
  | cons e _ ih => exact Option.bind_congr fun parts _ => ih parts
  | swap e e' ms =>
    calc fields.takeIn? (e' :: e :: ms) parts
      _ = ((fields.place? e'.1 e'.2 parts).bind fun parts => fields.place? e.1 e.2 parts).bind
          (fields.takeIn? ms) := (Option.bind_assoc ..).symm
      _ = ((fields.place? e.1 e.2 parts).bind fun parts => fields.place? e'.1 e'.2 parts).bind
          (fields.takeIn? ms) := by rw [place?_comm]
      _ = fields.takeIn? (e :: e' :: ms) parts := Option.bind_assoc ..
  | trans _ _ ih ih' => exact (ih parts).trans (ih' parts)

theorem takeIn?_unknown (h : ∀ e ∈ ms, e.1 ∉ fields.names) (parts : fields.Parts) :
    fields.takeIn? ms parts = some parts := by
  induction ms with
  | nil => rfl
  | cons e ms ih =>
    obtain ⟨he, hms⟩ := List.forall_mem_cons.1 h
    rw [takeIn?_cons, place?_of_not_mem fields he]
    exact ih hms

/-- The members behind the first one of the record leave it as it is. -/
theorem takeIn?_join (h : ∀ e ∈ ms, e.1 ≠ name) (parts : rest.Parts) :
    (cons name s rest).takeIn? ms (join name part parts) =
      (rest.takeIn? ms parts).map (join name part) := by
  induction ms generalizing parts with
  | nil => rfl
  | cons e ms ih =>
    obtain ⟨he, hms⟩ := List.forall_mem_cons.1 h
    rw [takeIn?_cons, place?_join_of_ne he, takeIn?_cons, Option.bind_map, Option.map_bind]
    exact Option.bind_congr fun parts _ => ih hms parts

/-- The other members are taken in as they are without the first one. -/
theorem takeIn?_rest (h : name ∉ rest.names) {parts parts' : rest.Parts} {part' : Option s.Val}
    (htaken : (cons name s rest).takeIn? ms (join name part parts) = some (join name part' parts')) :
    rest.takeIn? ms parts = some parts' := by
  induction ms generalizing part parts with
  | nil => exact congrArg (some ·.2) (Option.some.inj htaken)
  | cons e ms ih =>
    rw [takeIn?_cons] at htaken ⊢
    by_cases he : e.1 = name
    · rw [he, place?_join_self] at htaken
      rw [he, place?_of_not_mem rest h]
      cases part with
      | some => cases htaken
      | none =>
        cases hv : s.ofTree? e.2 with
        | none =>
          rw [hv] at htaken
          cases htaken
        | some v =>
          rw [hv] at htaken
          exact ih htaken
    · rw [place?_join_of_ne he] at htaken
      cases hp : rest.place? e.1 e.2 parts with
      | none =>
        rw [hp] at htaken
        cases htaken
      | some parts =>
        rw [hp] at htaken
        exact ih htaken

theorem mem_names_of_depicts : (fields : Fields) → {v : fields.Vals} →
    {ms : List (String × Tree)} → fields.DepictsMembers v ms → ∀ e ∈ ms, e.1 ∈ fields.names
  | .nil, _, ms, h => by
    rw [show ms = [] from h]
    nofun
  | .cons name s rest, v, _, h => by
    obtain ⟨t, others, rfl, -, h⟩ | ⟨-, h⟩ := h
    · refine List.forall_mem_cons.2 ⟨List.mem_cons_self, fun e he => ?_⟩
      exact List.mem_cons_of_mem _ (rest.mem_names_of_depicts h e he)
    · exact fun e he => List.mem_cons_of_mem _ (rest.mem_names_of_depicts h e he)

/-- A member that is refused is refused wherever it stands. -/
theorem takeIn?_of_mem {e : String × Tree} (he : e ∈ ms)
    (h : ∀ parts, fields.place? e.1 e.2 parts = none) (parts : fields.Parts) :
    fields.takeIn? ms parts = none := by
  obtain ⟨l, r, rfl⟩ := List.append_of_mem he
  rw [takeIn?_append]
  cases fields.takeIn? l parts with
  | none => rfl
  | some parts => exact (takeIn?_cons e r parts).trans (by rw [h, Option.bind_none])

/-- Of two members of one name one is refused, wherever they stand. -/
theorem takeIn?_of_countP (hname : name ∈ fields.names) (h : 1 < ms.countP (·.1 = name))
    (parts : fields.Parts) : fields.takeIn? ms parts = none := by
  obtain ⟨e, e', others, hperm, he, he'⟩ := exists_perm_of_countP h
  rw [takeIn?_perm hperm]
  calc fields.takeIn? (e :: e' :: others) parts
    _ = ((fields.place? e.1 e.2 parts).bind fun parts => fields.place? e'.1 e'.2 parts).bind
        (fields.takeIn? others) := (Option.bind_assoc ..).symm
    _ = none := by
      rw [of_decide_eq_true he, of_decide_eq_true he', place?_twice _ _ _ hname, Option.bind_none]

end Fields

/-! ## What trees stand for -/

theorem mapM_eq_some {α β : Type} {f : α → Option β} {as : List α} {bs : List β}
    (h : List.Forall₂ (fun a b => f a = some b) as bs) : as.mapM f = some bs := by
  induction h with
  | nil => rfl
  | cons hab _ ih => rw [List.mapM_cons, hab, ih]; rfl

theorem mapM_eq_none {α β : Type} {f : α → Option β} {a : α} {as : List α} (ha : a ∈ as)
    (h : f a = none) : as.mapM f = none := by
  induction as with
  | nil => cases ha
  | cons b as ih =>
    rw [List.mapM_cons]
    rcases List.mem_cons.1 ha with rfl | ha
    · rw [h]
      rfl
    · rw [ih ha]
      cases f b <;> rfl

/-- The order of the members of an object is of no account to a record. -/
theorem Schema.ofTree?_object_perm {fields : Fields} {ms ms' : List (String × Tree)}
    (h : ms.Perm ms') : (Schema.record fields).ofTree? (.object ms) =
      (Schema.record fields).ofTree? (.object ms') :=
  congrArg (Option.bind · fields.complete) (Fields.takeIn?_perm h fields.noParts)

/-- What is not null is left to the schema of the value. -/
theorem Schema.ofTree?_nullable {s : Schema} {t : Tree} (h : t ≠ .null) :
    (Schema.nullable s).ofTree? t = (s.ofTree? t).map some := by
  cases t with
  | null => exact absurd rfl h
  | _ => rfl

mutual

/-- A tree that depicts a value stands for it. -/
theorem Schema.ofTree?_of_depicts : (s : Schema) → s.proper = true → {v : s.Val} → {t : Tree} →
    s.Depicts v t → s.ofTree? t = some v
  | .text, _, _, _, h | .counter, _, _, _, h | .flag, _, _, _, h => by rw [h]; rfl
  | .port, _, v, _, h => by
    rw [h]
    exact portOf?_toUInt64 v
  | .nullable s, _, none, _, h => by
    rw [show _ = Tree.null from h]
    rfl
  | .nullable s, hs, some v, t, ⟨hnull, h⟩ => by
    have hs : s.proper = true := (Bool.and_eq_true_iff.1 hs).2
    rw [Schema.ofTree?_nullable hnull, s.ofTree?_of_depicts hs h]
    rfl
  | .list s, hs, vs, _, ⟨items, ht, h⟩ => by
    rw [ht]
    exact mapM_eq_some (h.flip.imp fun _ _ hv => s.ofTree?_of_depicts hs hv)
  | .map s, hs, m, _, ⟨members, pairs, ht, h, hm⟩ => by
    rw [ht]
    have hmapM : members.mapM (fun e => (s.ofTree? e.2).map fun v => (e.1, v)) = some pairs := by
      refine mapM_eq_some (h.flip.imp fun e p hp => ?_)
      rw [s.ofTree?_of_depicts hs hp.2, ← hp.1]
      rfl
    exact (congrArg (Option.map SortedMap.ofList) hmapM).trans (congrArg some (SortedMap.ofList_eq hm))
  | .record fields, hs, v, t, .inl ⟨members, known, unknown, ht, hperm, h, hunknown⟩ => by
    obtain ⟨parts, hparts, hcomplete⟩ := fields.takeIn?_of_depicts hs h
    have htaken : fields.takeIn? members fields.noParts = some parts := by
      rw [Fields.takeIn?_perm hperm, Fields.takeIn?_append, hparts, Option.bind_some,
        Fields.takeIn?_unknown hunknown]
    rw [ht]
    exact (congrArg (Option.bind · fields.complete) htaken).trans hcomplete
  | .record fields, hs, v, _, .inr ⟨items, ht, h⟩ => by
    rw [ht]
    exact fields.ofItems?_of_depicts hs h

theorem Fields.takeIn?_of_depicts : (fields : Fields) → fields.proper = true → {v : fields.Vals} →
    {ms : List (String × Tree)} → fields.DepictsMembers v ms →
    ∃ parts, fields.takeIn? ms fields.noParts = some parts ∧ fields.complete parts = some v
  | .nil, _, _, ms, h => by
    rw [show ms = [] from h]
    exact ⟨(), rfl, rfl⟩
  | .cons name s rest, hs, v, ms, h => by
    obtain ⟨hname, hs, hrest⟩ := Fields.proper_cons.1 hs
    -- The members of the rest of the record have other names.
    have hother {others : List (String × Tree)} (h : rest.DepictsMembers v.2 others) :
        ∀ e ∈ others, e.1 ≠ name := fun e he hne =>
      hname (hne ▸ rest.mem_names_of_depicts h e he)
    obtain ⟨t, others, rfl, ht, h⟩ | ⟨habsent, h⟩ := h
    · obtain ⟨parts, hparts, hcomplete⟩ := rest.takeIn?_of_depicts hrest h
      refine ⟨Fields.join name (some v.1) parts, ?_, Fields.complete_join (Option.some_or ..) hcomplete⟩
      change (Fields.cons name s rest).takeIn? _ (Fields.join name none rest.noParts) = _
      rw [Fields.takeIn?_cons, Fields.place?_join_self, s.ofTree?_of_depicts hs ht]
      exact (Fields.takeIn?_join (hother h) _).trans (congrArg _ hparts)
    · obtain ⟨parts, hparts, hcomplete⟩ := rest.takeIn?_of_depicts hrest h
      refine ⟨Fields.join name none parts, ?_, Fields.complete_join habsent hcomplete⟩
      exact (Fields.takeIn?_join (hother h) _).trans (congrArg _ hparts)

theorem Fields.ofItems?_of_depicts : (fields : Fields) → fields.proper = true → {v : fields.Vals} →
    {items : List Tree} → fields.DepictsItems v items → fields.ofItems? items = some v
  | .nil, _, _, items, h => by
    rw [show items = [] from h]
    rfl
  | .cons name s rest, hs, v, _, ⟨t, others, hitems, ht, h⟩ => by
    obtain ⟨-, hs, hrest⟩ := Fields.proper_cons.1 hs
    rw [hitems, Fields.ofItems?, s.ofTree?_of_depicts hs ht, rest.ofItems?_of_depicts hrest h]
    rfl

end

mutual

/-- A tree with a doubled member stands for nothing. -/
theorem Schema.ofTree?_of_doubles : (s : Schema) → s.proper = true → {t : Tree} → s.Doubles t →
    s.ofTree? t = none
  | .nullable s, hs, t, ⟨hnull, h⟩ => by
    have hs : s.proper = true := (Bool.and_eq_true_iff.1 hs).2
    rw [Schema.ofTree?_nullable hnull, s.ofTree?_of_doubles hs h]
    rfl
  | .list s, hs, .array items, ⟨t, ht, h⟩ => mapM_eq_none ht (s.ofTree?_of_doubles hs h)
  | .map s, hs, .object members, ⟨e, he, h⟩ => by
    have hmapM : members.mapM (fun e => (s.ofTree? e.2).map fun v => (e.1, v)) = none := by
      refine mapM_eq_none he ?_
      rw [s.ofTree?_of_doubles hs h]
      rfl
    exact congrArg (Option.map SortedMap.ofList) hmapM
  | .record fields, hs, .array items, h => fields.ofItems?_of_doubles hs h
  | .record fields, hs, .object members, h => by
    have htaken := fields.takeIn?_of_doubles hs h fields.noParts
    exact congrArg (Option.bind · fields.complete) htaken

theorem Fields.takeIn?_of_doubles : (fields : Fields) → fields.proper = true →
    {ms : List (String × Tree)} → fields.DoublesMember ms → ∀ parts, fields.takeIn? ms parts = none
  | .cons name s rest, hs, ms, h, (part, parts) => by
    obtain ⟨hname, hs, hrest⟩ := Fields.proper_cons.1 hs
    obtain h | ⟨e, he, hkey, h⟩ | h := h
    · exact Fields.takeIn?_of_countP List.mem_cons_self h _
    · refine Fields.takeIn?_of_mem he (fun taken => ?_) _
      rw [hkey]
      refine (Fields.place?_join_self taken.2).trans ?_
      rw [s.ofTree?_of_doubles hs h]
      exact ite_self _
    · have ih := rest.takeIn?_of_doubles hrest h parts
      cases htaken : (Fields.cons name s rest).takeIn? ms (part, parts) with
      | none => rfl
      | some taken => exact absurd (ih.symm.trans (Fields.takeIn?_rest hname htaken)) nofun

theorem Fields.ofItems?_of_doubles : (fields : Fields) → fields.proper = true →
    {items : List Tree} → fields.DoublesItem items → fields.ofItems? items = none
  | .cons name s rest, hs, t :: items, h => by
    obtain ⟨-, hs, hrest⟩ := Fields.proper_cons.1 hs
    rw [Fields.ofItems?]
    obtain h | h := h
    · rw [s.ofTree?_of_doubles hs h]
    · rw [rest.ofItems?_of_doubles hrest h]
      cases s.ofTree? t <;> rfl

end

end CausalStore.Wire
