import CausalStore.SortedMap

/-!
# Looking up in changed maps

What `SortedMap.get?` finds after an insertion, and after the entries of one map, or any pairs, were
written over another, or folded into it.
-/

namespace CausalStore
namespace SortedMap

variable {κ α β : Type} [KeyOrder κ]

@[simp] theorem get?_insert_self (m : SortedMap κ α) (k : κ) (v : α) :
    (m.insert k v).get? k = some v :=
  get?_upsert_self m k _

theorem get?_insert_of_ne (m : SortedMap κ α) {k j : κ} (h : j ≠ k) (v : α) :
    (m.insert k v).get? j = m.get? j :=
  get?_upsert_of_ne m h _

theorem get?_insertNew_self (m : SortedMap κ α) (k : κ) (v : α) :
    (m.insertNew k v).get? k = some ((m.get? k).getD v) :=
  get?_upsert_self m k _

theorem get?_insertNew_of_ne (m : SortedMap κ α) {k j : κ} (h : j ≠ k) (v : α) :
    (m.insertNew k v).get? j = m.get? j :=
  get?_upsert_of_ne m h _

/-- No key has two entries. -/
theorem keys_nodup (m : SortedMap κ α) : (m.entries.map (·.1)).Nodup := by
  refine List.pairwise_map.2 (m.ascending.imp fun {e f} hbefore heq => ?_)
  rw [heq, KeyOrder.irrefl] at hbefore
  cases hbefore

section
variable {p : κ × α} {l : List (κ × α)}
  (h : (p :: l).Pairwise fun a b => KeyOrder.before a.1 b.1 = true)

/-- The first key of a map is not among the others. -/
theorem get?_rest : (⟨l, (List.pairwise_cons.1 h).2⟩ : SortedMap κ α).get? p.1 = none := by
  obtain ⟨hp, hl⟩ := List.pairwise_cons.1 h
  refine Option.eq_none_iff_forall_not_mem.2 fun v hv => ?_
  have hmem : (p.1, v) ∈ l := (mem_entries_iff ⟨l, hl⟩).2 hv
  have := hp _ hmem
  simp [KeyOrder.irrefl] at this

theorem get?_cons_self : (⟨p :: l, h⟩ : SortedMap κ α).get? p.1 = some p.2 :=
  (mem_entries_iff _).1 List.mem_cons_self

theorem get?_cons_of_ne {k : κ} (hk : k ≠ p.1) : (⟨p :: l, h⟩ : SortedMap κ α).get? k =
    (⟨l, (List.pairwise_cons.1 h).2⟩ : SortedMap κ α).get? k := by
  refine Option.ext fun v => ?_
  rw [← mem_entries_iff, ← mem_entries_iff, List.mem_cons]
  refine ⟨fun hm => hm.resolve_left fun e => hk (congrArg Prod.fst e), .inr⟩

end

/-- A map that the entries of another one are folded into, each at its own key, is changed at the
keys of that one only, and there once. -/
theorem get?_foldl_upsert (n : SortedMap κ β) (f : β → Option α → α) (m : SortedMap κ α) (k : κ) :
    (n.entries.foldl (fun m p => m.upsert p.1 (f p.2)) m).get? k =
      ((n.get? k).map fun v => f v (m.get? k)).or (m.get? k) := by
  obtain ⟨l, hl⟩ := n
  induction l generalizing m with
  | nil => rfl
  | cons p l ih =>
    refine (ih (m.upsert p.1 (f p.2)) (List.pairwise_cons.1 hl).2).trans ?_
    by_cases hk : k = p.1
    · subst hk
      rw [get?_rest hl, get?_cons_self hl, get?_upsert_self]
      rfl
    · rw [get?_cons_of_ne hl hk, get?_upsert_of_ne m hk]

/-- Where one map is written over another, its entries come first. -/
theorem get?_foldl_insert (n m : SortedMap κ α) (k : κ) :
    (n.entries.foldl (fun m p => m.insert p.1 p.2) m).get? k = (n.get? k).or (m.get? k) := by
  refine (get?_foldl_upsert n (fun v _ => v) m k).trans ?_
  rw [Option.map_id_fun', id_eq]

section
variable [BEq κ] [LawfulBEq κ]

/-- Of the pairs that are written into a map the last one of a key counts. -/
theorem get?_foldl_insert_pairs (pairs : List (κ × α)) (m : SortedMap κ α) (k : κ) :
    (pairs.foldl (fun m p => m.insert p.1 p.2) m).get? k =
      (pairs.reverse.lookup k).or (m.get? k) := by
  induction pairs generalizing m with
  | nil => rfl
  | cons p pairs ih =>
    obtain ⟨j, v⟩ := p
    rw [List.foldl_cons, ih, List.reverse_cons, List.lookup_append, Option.or_assoc]
    refine congrArg _ ?_
    by_cases hk : k = j
    · subst hk
      rw [get?_insert_self, List.lookup_cons_self, Option.some_or]
    · rw [get?_insert_of_ne m hk, List.lookup_cons, beq_false_of_ne hk]
      rfl

theorem get?_ofList (pairs : List (κ × α)) (k : κ) :
    (ofList pairs).get? k = pairs.reverse.lookup k := by
  rw [ofList, get?_foldl_insert_pairs, get?_empty, Option.or_none]

theorem ofList_eq {pairs : List (κ × α)} {m : SortedMap κ α}
    (h : ∀ k, m.get? k = pairs.reverse.lookup k) : ofList pairs = m :=
  ext_get? fun k => (get?_ofList pairs k).trans (h k).symm

/-- A map finds what its entries say. -/
theorem get?_eq_lookup (m : SortedMap κ α) (k : κ) : m.get? k = m.entries.reverse.lookup k := by
  have h := (get?_foldl_insert m empty k).symm.trans (get?_foldl_insert_pairs m.entries empty k)
  simpa only [get?_empty, Option.or_none] using h

theorem ofList_entries (m : SortedMap κ α) : ofList m.entries = m := ofList_eq (get?_eq_lookup m)

end

end SortedMap

end CausalStore
