import CausalStore.Proofs.ClockListing

/-!
# Merging is a join

A clock says two things: which ids it lists, and what it reads at each id. Merging joins both, the ids
to their union and the counters to their maximum, each on its own. As an operation on maps it is
therefore a semilattice (`Clock.merge_comm`, `Clock.merge_assoc`, `Clock.merge_self`). Domination
looks at the counters only, and with respect to it the merge is a least upper bound
(`Clock.dominates_merge_iff`) among several: they read the same, but need not list the same ids
(`Clock.merge_agrees_left_iff`, `Clock.merge_eq_left_iff`).
-/

namespace CausalStore
namespace Clock

variable {a b c d : Clock} {id : NodeId}

theorem mem_ids_merge : id ∈ (a.merge b).ids ↔ id ∈ a.ids ∨ id ∈ b.ids := by
  rw [mem_ids_iff, contains_merge, Bool.or_eq_true, ← mem_ids_iff, ← mem_ids_iff]

/-- Clocks are equal if the ids that they list are the same, and so are the counters as numbers. -/
theorem ext_count (hids : ∀ id, id ∈ c.ids ↔ id ∈ d.ids) (hcount : ∀ id, c.count id = d.count id) :
    c = d := by
  apply ext_contains
  · intro id
    rw [Bool.eq_iff_iff, ← mem_ids_iff, ← mem_ids_iff]
    exact hids id
  · exact agrees_iff.2 hcount

/-! ## The laws of merging, for clocks as maps -/

theorem merge_comm (a b : Clock) : a.merge b = b.merge a := by
  apply ext_count
  · intro id
    rw [mem_ids_merge, mem_ids_merge, or_comm]
  · intro id
    rw [count_merge, count_merge, Nat.max_comm]

theorem merge_assoc (a b c : Clock) : (a.merge b).merge c = a.merge (b.merge c) := by
  apply ext_count
  · intro id
    simp only [mem_ids_merge, or_assoc]
  · intro id
    simp only [count_merge, Nat.max_assoc]

theorem merge_self (a : Clock) : a.merge a = a := by
  apply ext_count
  · intro id
    rw [mem_ids_merge, or_self]
  · intro id
    rw [count_merge, Nat.max_self]

/-! ## The merge among the clocks that dominate -/

theorem dominates_merge_iff :
    c.dominates (a.merge b) = true ↔ c.dominates a = true ∧ c.dominates b = true := by
  constructor
  · intro h
    exact ⟨dominates_trans h (dominates_merge_left a b),
      dominates_trans h (dominates_merge_right a b)⟩
  · rintro ⟨ha, hb⟩
    apply dominates_iff.2
    intro id
    rw [count_merge]
    exact Nat.max_le.2 ⟨dominates_iff.1 ha id, dominates_iff.1 hb id⟩

/-- A clock dominates what it gains no counter from. -/
theorem merge_agrees_left_iff : (a.merge b).Agrees a ↔ a.dominates b = true := by
  rw [agrees_iff, dominates_iff]
  apply forall_congr'
  intro id
  rw [count_merge]
  omega

/-- To gain nothing at all a clock must also list the ids already, those at zero as well. -/
theorem merge_eq_left_iff :
    a.merge b = a ↔ a.dominates b = true ∧ ∀ id ∈ b.ids, id ∈ a.ids := by
  rw [← merge_agrees_left_iff]
  constructor
  · intro h
    rw [h]
    refine ⟨.refl a, fun id hid => ?_⟩
    rw [← h]
    exact mem_ids_merge.2 (.inr hid)
  · rintro ⟨hagrees, hids⟩
    apply ext_count
    · intro id
      rw [mem_ids_merge, or_iff_left_of_imp (hids id)]
    · exact agrees_iff.1 hagrees

/-- Merging is the join of clocks. It is commutative, associative and idempotent on them as maps. It
lists the ids that either clock lists, each with the larger counter, where an id that a clock does not
list counts as zero. A clock dominates the merge of two exactly if it dominates both, and it dominates
another one exactly if merging that one in leaves what it reads at every id. It stays the same map
exactly if, besides, it lists all ids of the other. -/
theorem merge_is_join (a b c : Clock) :
    a.merge b = b.merge a ∧
    (a.merge b).merge c = a.merge (b.merge c) ∧
    a.merge a = a ∧
    (∀ id, id ∈ (a.merge b).ids ↔ id ∈ a.ids ∨ id ∈ b.ids) ∧
    (∀ id, (a.merge b).count id = max (a.count id) (b.count id)) ∧
    (c.dominates (a.merge b) = true ↔ c.dominates a = true ∧ c.dominates b = true) ∧
    (a.dominates b = true ↔ ∀ id, (a.merge b).get id = a.get id) ∧
    (a.merge b = a ↔ a.dominates b = true ∧ ∀ id ∈ b.ids, id ∈ a.ids) :=
  ⟨merge_comm a b, merge_assoc a b c, merge_self a, fun _ => mem_ids_merge, count_merge a b,
    dominates_merge_iff, merge_agrees_left_iff.symm, merge_eq_left_iff⟩

/-- What is listed at zero is dominated by a clock that does not list it, yet a merge takes it in. -/
example :
    let a : Clock := .ofList [("a", 2)]
    let b : Clock := .ofList [("a", 1), ("b", 0)]
    a.dominates b = true ∧ a.merge b = .ofList [("a", 2), ("b", 0)] ∧ a.merge b ≠ a := by
  decide +kernel

end Clock
end CausalStore
