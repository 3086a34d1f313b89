import CausalStore.Clock
import CausalStore.Proofs.MapLookup

/-!
# The order of clocks

Clocks are compared through their counters, read as natural numbers (`Clock.count`). Merging takes
the larger counter of each id (`count_merge`), `dominates` is the pointwise order (`dominates_iff`),
and `order` is decided by `dominates` in the two directions (`order_eq`).
-/

namespace CausalStore

theorem Counter.next?_eq_some_iff {n m : Counter} : n.next? = some m ↔ m.toNat = n.toNat + 1 := by
  have hn := n.toNat_lt_size
  have hm := m.toNat_lt_size
  simp only [Counter.next?, ← UInt64.toNat_inj, UInt64.toNat_ofNat', UInt64.size] at *
  split
  next h => simp only [reduceCtorEq, false_iff]; omega
  next h =>
    rw [Option.some_inj, ← UInt64.toNat_inj, UInt64.toNat_add, UInt64.toNat_one]
    omega

theorem Counter.toNat_max (n m : Counter) : (max n m).toNat = max n.toNat m.toNat := by
  show (if n ≤ m then m else n).toNat = _
  split
  next h => exact (Nat.max_eq_right (UInt64.le_iff_toNat_le.1 h)).symm
  next h => exact (Nat.max_eq_left (Nat.le_of_not_le (h ∘ UInt64.le_iff_toNat_le.2))).symm

namespace Clock

variable {c d e : Clock} {id origin : NodeId}

/-- The counter of an id as a number. -/
def count (c : Clock) (id : NodeId) : Nat := (c.get id).toNat

theorem get_le_get_iff {id' : NodeId} : c.get id ≤ d.get id' ↔ c.count id ≤ d.count id' :=
  UInt64.le_iff_toNat_le

theorem get?_of_count_ne_zero (h : c.count id ≠ 0) : c.counters.get? id = some (c.get id) := by
  cases hget : c.counters.get? id with
  | none => simp [count, get, hget] at h
  | some n => simp [get, hget]

theorem mem_entries_iff {n : Counter} : (id, n) ∈ c.entries ↔ c.counters.get? id = some n :=
  c.counters.mem_entries_iff

theorem get_of_mem_entries {p : NodeId × Counter} (h : p ∈ c.entries) : c.get p.1 = p.2 := by
  simp [get, mem_entries_iff.1 h]

@[simp] theorem count_seeded {id' : NodeId} : (seeded id').count id = 0 := by
  by_cases h : id = id'
  · subst h; simp [count, get, seeded]
  · simp [count, get, seeded, SortedMap.get?_insert_of_ne _ h]

@[simp] theorem get_addDimension {id' : NodeId} : (c.addDimension id').get id = c.get id := by
  by_cases h : id = id'
  · subst h; simp [get, addDimension, SortedMap.get?_insertNew_self]
  · simp [get, addDimension, SortedMap.get?_insertNew_of_ne _ h]

@[simp] theorem count_addDimension {id' : NodeId} : (c.addDimension id').count id = c.count id := by
  simp [count]

/-- What counting a write does. The other counters stay. -/
theorem increment_spec (h : c.increment origin = .ok d) :
    d.count origin = c.count origin + 1 ∧ ∀ id, id ≠ origin → d.count id = c.count id := by
  unfold increment at h
  split at h
  next n hn =>
    cases h
    refine ⟨?_, fun id hid => ?_⟩
    · simpa [count, get, set] using Counter.next?_eq_some_iff.1 hn
    · simp [count, get, set, SortedMap.get?_insert_of_ne _ hid]
  next => cases h

theorem exists_increment (h : c.count id < UInt64.size - 1) :
    ∃ d, c.increment id = .ok d := by
  have hnext : (c.get id).next? ≠ none := by
    intro hfull
    unfold Counter.next? at hfull
    split at hfull
    next heq =>
      rw [count, heq, UInt64.toNat_ofNat'] at h
      exact absurd h (by decide)
    next => cases hfull
  obtain ⟨n, hn⟩ := Option.ne_none_iff_exists'.1 hnext
  exact ⟨c.set id n, by rw [increment, hn]⟩

theorem get_merge (c d : Clock) (id : NodeId) : (c.merge d).get id = max (c.get id) (d.get id) := by
  have h := SortedMap.get?_foldl_upsert d.counters (fun n old => max (old.getD 0) n) c.counters id
  simp only [get, merge, entries, h]
  cases d.counters.get? id with
  | none => exact UInt64.toNat_inj.1 (by simp [Counter.toNat_max])
  | some n => rfl

theorem count_merge (c d : Clock) (id : NodeId) :
    (c.merge d).count id = max (c.count id) (d.count id) := by
  rw [count, get_merge, Counter.toNat_max]
  rfl

/-! ## Domination -/

theorem dominates_iff : c.dominates d = true ↔ ∀ id, d.count id ≤ c.count id := by
  simp only [dominates, List.all_eq_true, decide_eq_true_eq]
  constructor
  · intro h id
    by_cases h0 : d.count id = 0
    · omega
    · exact get_le_get_iff.1 (h _ (mem_entries_iff.2 (get?_of_count_ne_zero h0)))
  · intro h p hp
    rw [← get_of_mem_entries hp]
    exact get_le_get_iff.2 (h p.1)

theorem dominates_refl (c : Clock) : c.dominates c = true := dominates_iff.2 fun _ => Nat.le_refl _

theorem dominates_trans (h₁ : c.dominates d = true) (h₂ : d.dominates e = true) :
    c.dominates e = true :=
  dominates_iff.2 fun id => Nat.le_trans (dominates_iff.1 h₂ id) (dominates_iff.1 h₁ id)

theorem dominates_merge_left (c d : Clock) : (c.merge d).dominates c = true :=
  dominates_iff.2 fun id => by rw [count_merge]; exact Nat.le_max_left ..

theorem dominates_merge_right (c d : Clock) : (c.merge d).dominates d = true :=
  dominates_iff.2 fun id => by rw [count_merge]; exact Nat.le_max_right ..

theorem increment_dominates (h : c.increment origin = .ok d) : d.dominates c = true :=
  dominates_iff.2 fun id => by
    obtain ⟨hself, hother⟩ := increment_spec h
    by_cases hid : id = origin
    · subst hid; omega
    · exact Nat.le_of_eq (hother id hid).symm

/-! ## Admission -/

theorem admits_iff : c.admits origin d = true ↔
    (∀ n, d.counters.get? origin = some n → n.toNat = c.count origin + 1) ∧
      ∀ id, id ≠ origin → d.count id ≤ c.count id := by
  simp only [admits, List.all_eq_true]
  constructor
  · intro h
    refine ⟨fun n hn => ?_, fun id hid => ?_⟩
    · have := h _ (mem_entries_iff.2 hn)
      simpa [Counter.next?_eq_some_iff, count] using this
    · by_cases h0 : d.count id = 0
      · omega
      · have := h _ (mem_entries_iff.2 (get?_of_count_ne_zero h0))
        simpa [hid, get_le_get_iff] using this
  · intro ⟨hnext, hrest⟩ p hp
    split
    next heq =>
      subst heq
      exact decide_eq_true (Counter.next?_eq_some_iff.2 (hnext _ (mem_entries_iff.1 hp)))
    next hne =>
      rw [← get_of_mem_entries hp]
      exact decide_eq_true (get_le_get_iff.2 (hrest _ hne))

/-- An update that counts at its origin is admitted exactly when it is the origin's next and
depends on nothing else that is missing. -/
theorem admits_iff_of_count_ne_zero (h : d.count origin ≠ 0) : c.admits origin d = true ↔
    d.count origin = c.count origin + 1 ∧ ∀ id, id ≠ origin → d.count id ≤ c.count id := by
  rw [admits_iff, get?_of_count_ne_zero h]
  simp [count]

/-! ## The causal order -/

theorem mem_ids_of_count_ne_zero (h : c.count id ≠ 0) : id ∈ c.ids :=
  List.mem_map.2 ⟨_, mem_entries_iff.2 (get?_of_count_ne_zero h), rfl⟩

theorem any_lt_eq (c d : Clock) {ids : List NodeId} (h : ∀ id ∈ d.ids, id ∈ ids) :
    ids.any (fun id => decide (c.get id < d.get id)) = !c.dominates d := by
  rw [Bool.eq_iff_iff]
  simp only [List.any_eq_true, decide_eq_true_eq, Bool.not_eq_true', Bool.eq_false_iff, ne_eq,
    dominates_iff, Classical.not_forall, Nat.not_le, UInt64.lt_iff_toNat_lt]
  constructor
  · rintro ⟨id, -, hlt⟩
    exact ⟨id, hlt⟩
  · rintro ⟨id, hlt⟩
    exact ⟨id, h id (mem_ids_of_count_ne_zero (by omega)), hlt⟩

/-- The two comparisons of clocks tell the same. -/
theorem order_eq (c d : Clock) : c.order d =
    match c.dominates d, d.dominates c with
    | true, true => .equal
    | false, true => .before
    | true, false => .after
    | false, false => .concurrent := by
  unfold order
  dsimp only
  rw [any_lt_eq c d fun _ h => List.mem_append_right _ h,
    any_lt_eq d c fun _ h => List.mem_append_left _ h]
  cases c.dominates d <;> cases d.dominates c <;> rfl

theorem order_eq_equal_iff : c.order d = .equal ↔ c.dominates d = true ∧ d.dominates c = true := by
  rw [order_eq]; cases c.dominates d <;> cases d.dominates c <;> simp

theorem order_eq_before_iff :
    c.order d = .before ↔ d.dominates c = true ∧ c.dominates d = false := by
  rw [order_eq]; cases c.dominates d <;> cases d.dominates c <;> simp

theorem order_eq_after_iff : c.order d = .after ↔ c.dominates d = true ∧ d.dominates c = false := by
  rw [order_eq]; cases c.dominates d <;> cases d.dominates c <;> simp

theorem order_eq_concurrent_iff :
    c.order d = .concurrent ↔ c.dominates d = false ∧ d.dominates c = false := by
  rw [order_eq]; cases c.dominates d <;> cases d.dominates c <;> simp

theorem dominates_of_order_ne (hb : c.order d ≠ .before) (hc : c.order d ≠ .concurrent) :
    c.dominates d = true := by
  refine Bool.of_not_eq_false fun hdom => ?_
  cases hback : d.dominates c with
  | true => exact hb (order_eq_before_iff.2 ⟨hback, hdom⟩)
  | false => exact hc (order_eq_concurrent_iff.2 ⟨hdom, hback⟩)

end Clock

end CausalStore
