import CausalStore.Proofs.ClockOrder
import Mathlib.Logic.Basic

/-!
# What clocks list and what they read

A clock is the map of its counters: it is known by the ids that it lists and by what it reads at each
(`Clock.ext_contains`). All that is decided by clocks is decided by what they read. So it is the same
for clocks that agree (`Clock.Agrees`), such as a clock and the same one with more ids listed at zero
(`Clock.agrees_addDimensions`).
-/

namespace CausalStore
namespace Clock

variable {a b c d : Clock} {id origin : NodeId}

/-! ## The ids that are listed -/

theorem mem_ids_iff : id ∈ c.ids ↔ c.contains id = true := by
  rw [contains, SortedMap.contains, Option.isSome_iff_exists]
  constructor
  · intro h
    obtain ⟨p, hp, rfl⟩ := List.mem_map.1 h
    exact ⟨p.2, mem_entries_iff.1 hp⟩
  · rintro ⟨n, hn⟩
    exact List.mem_map.2 ⟨(id, n), mem_entries_iff.2 hn, rfl⟩

/-- Clocks that list the same ids with the same counters are equal. -/
theorem ext_contains (hids : ∀ id, c.contains id = d.contains id)
    (hget : ∀ id, c.get id = d.get id) : c = d := by
  obtain ⟨m⟩ := c
  obtain ⟨n⟩ := d
  refine congrArg mk (SortedMap.ext_get? fun id => ?_)
  have hid := hids id
  have hval := hget id
  simp only [contains, SortedMap.contains, get] at hid hval
  cases hm : m.get? id <;> cases hn : n.get? id <;> simp_all

theorem contains_merge (c d : Clock) (id : NodeId) :
    (c.merge d).contains id = (c.contains id || d.contains id) := by
  have h := SortedMap.get?_foldl_upsert d.counters (fun n old => max (old.getD 0) n) c.counters id
  simp only [contains, SortedMap.contains, merge, entries, h]
  cases d.counters.get? id <;> simp

theorem contains_of_increment (h : c.increment origin = .ok d) (hid : c.contains id = true) :
    d.contains id = true := by
  unfold increment at h
  split at h
  next n hn =>
    cases h
    rcases eq_or_ne id origin with rfl | hne
    · simp [contains, SortedMap.contains, set]
    · simpa [contains, SortedMap.contains, set, SortedMap.get?_insert_of_ne _ hne] using hid
  next => cases h

theorem contains_addDimension_self (c : Clock) (id : NodeId) :
    (c.addDimension id).contains id = true := by
  simp [contains, SortedMap.contains, addDimension, SortedMap.get?_insertNew_self]

theorem contains_addDimension_of_ne {id' : NodeId} (h : id ≠ id') :
    (c.addDimension id').contains id = c.contains id := by
  simp [contains, SortedMap.contains, addDimension, SortedMap.get?_insertNew_of_ne _ h]

theorem contains_addDimension (h : c.contains id = true) (id' : NodeId) :
    (c.addDimension id').contains id = true := by
  rcases eq_or_ne id id' with rfl | hne
  · exact c.contains_addDimension_self id
  · rwa [contains_addDimension_of_ne hne]

/-- An id that is listed is not listed again. -/
theorem addDimension_of_contains (h : c.contains id = true) : c.addDimension id = c := by
  apply ext_contains
  · intro id'
    rcases eq_or_ne id' id with rfl | hne
    · rw [h, contains_addDimension_self]
    · exact contains_addDimension_of_ne hne
  · intro id'
    exact get_addDimension

/-! ## Clocks that read the same -/

/-- The clocks have the same counters. They may list different ids. -/
def Agrees (c d : Clock) : Prop := ∀ id, c.get id = d.get id

theorem agrees_iff : c.Agrees d ↔ ∀ id, c.count id = d.count id :=
  forall_congr' fun _ => UInt64.toNat_inj.symm

namespace Agrees

theorem refl (c : Clock) : c.Agrees c := fun _ => rfl

theorem dominates (h : c.Agrees d) (a : Clock) : c.dominates a = d.dominates a := by
  simp only [Clock.dominates, h _]

theorem admits (h : c.Agrees d) (origin : NodeId) (a : Clock) :
    c.admits origin a = d.admits origin a := by
  simp only [Clock.admits, h _]

theorem merge (h : c.Agrees d) (h' : a.Agrees b) : (c.merge a).Agrees (d.merge b) := by
  intro id
  rw [get_merge, get_merge, h id, h' id]

/-- Where counters agree, counting one more write does the same. -/
theorem increment (h : c.Agrees d) (id : NodeId) :
    (∃ x, c.increment id = .error x ∧ d.increment id = .error x) ∨
      ∃ c' d', c.increment id = .ok c' ∧ d.increment id = .ok d' ∧ c'.Agrees d' := by
  unfold Clock.increment
  rw [← h id]
  cases (c.get id).next? with
  | none => exact .inl ⟨_, rfl, rfl⟩
  | some n =>
    refine .inr ⟨_, _, rfl, rfl, fun id' => ?_⟩
    rcases eq_or_ne id' id with rfl | hne
    · simp [Clock.get, Clock.set]
    · simpa [Clock.get, Clock.set, SortedMap.get?_insert_of_ne _ hne] using h id'

/-- What a clock covers does not depend on which ids the two clocks list. -/
theorem dominates_eq (h : c.Agrees d) (h' : a.Agrees b) : c.dominates a = d.dominates b := by
  rw [h.dominates, Bool.eq_iff_iff, dominates_iff, dominates_iff]
  exact forall_congr' fun id => by rw [agrees_iff.1 h' id]

/-- Nor does the causal order. -/
theorem order_eq (h : c.Agrees d) (h' : a.Agrees b) : c.order a = d.order b := by
  rw [Clock.order_eq, Clock.order_eq, h.dominates_eq h', h'.dominates_eq h]

end Agrees

theorem agrees_addDimension (c : Clock) (id : NodeId) : c.Agrees (c.addDimension id) :=
  fun _ => get_addDimension.symm

/-- Lists all these ids, each at zero unless it is listed already. -/
def addDimensions (c : Clock) (ids : List NodeId) : Clock := ids.foldl addDimension c

theorem addDimensions_cons (c : Clock) (id : NodeId) (ids : List NodeId) :
    c.addDimensions (id :: ids) = (c.addDimension id).addDimensions ids :=
  rfl

theorem agrees_addDimensions (c : Clock) (ids : List NodeId) : (c.addDimensions ids).Agrees c := by
  induction ids generalizing c with
  | nil => exact .refl c
  | cons id ids ih =>
    intro id'
    rw [addDimensions_cons, ih (c.addDimension id) id', get_addDimension]

theorem contains_addDimensions {ids : List NodeId} :
    (c.addDimensions ids).contains id = true ↔ c.contains id = true ∨ id ∈ ids := by
  induction ids generalizing c with
  | nil => simp [addDimensions]
  | cons id' ids ih =>
    rw [addDimensions_cons, ih, List.mem_cons, ← or_assoc]
    apply or_congr_left
    rcases eq_or_ne id id' with rfl | hne
    · simp only [contains_addDimension_self, or_true]
    · rw [contains_addDimension_of_ne hne, or_iff_left hne]

end Clock
end CausalStore
