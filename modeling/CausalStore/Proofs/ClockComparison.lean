import CausalStore.Proofs.ClockListing
import Mathlib.Order.Basic

/-!
# The two comparisons of clocks

Domination makes the clocks a preorder, and the causal order tells which of the four relations of a
preorder two clocks are in (`Clock.PlacedByDominance`): one is strictly below the other, they are below
each other, or they are not comparable. So `before` composes as `<` does, also with clocks that are
equal, and neither comparison sees which ids are listed at zero.
-/

namespace CausalStore

/-- The place of the second of two clocks relative to the first, from that of the first one. -/
def CausalOrder.swap : CausalOrder → CausalOrder
  | .before => .after
  | .after => .before
  | .equal => .equal
  | .concurrent => .concurrent

namespace Clock

variable {c d : Clock}

/-- Clocks are ordered by what they cover. Those that agree cover each other. -/
instance : Preorder Clock where
  le c d := d.dominates c = true
  le_refl := dominates_refl
  le_trans _ _ _ hcd hde := dominates_trans hde hcd

theorem order_eq_before_iff_lt : c.order d = .before ↔ c < d := by
  rw [order_eq_before_iff, lt_iff_le_not_ge, ← Bool.not_eq_true]
  rfl

theorem le_of_order_eq_equal (h : c.order d = .equal) : c ≤ d := (order_eq_equal_iff.1 h).2

/-- Clocks that dominate each other have the same counters. -/
theorem order_eq_equal_iff_agrees : c.order d = .equal ↔ c.Agrees d := by
  rw [order_eq_equal_iff, dominates_iff, dominates_iff, agrees_iff, ← forall_and]
  apply forall_congr'
  intro id
  constructor
  · rintro ⟨hdc, hcd⟩
    exact Nat.le_antisymm hcd hdc
  · intro h
    exact ⟨Nat.le_of_eq h.symm, Nat.le_of_eq h⟩

theorem concurrentWith_iff :
    c.concurrentWith d = true ↔ c.dominates d = false ∧ d.dominates c = false :=
  decide_eq_true_iff.trans order_eq_concurrent_iff

/-- The clocks swap places. -/
theorem order_swap (c d : Clock) : d.order c = (c.order d).swap := by
  rw [order_eq, order_eq]
  cases c.dominates d <;> cases d.dominates c <;> rfl

/-- Each answer of the causal order is told by what the two clocks dominate. -/
structure PlacedByDominance (c d : Clock) : Prop where
  equal : c.order d = .equal ↔ c.dominates d = true ∧ d.dominates c = true
  agrees : c.order d = .equal ↔ ∀ id, c.get id = d.get id
  before : c.order d = .before ↔ d.dominates c = true ∧ c.dominates d = false
  after : c.order d = .after ↔ c.dominates d = true ∧ d.dominates c = false
  concurrent : c.order d = .concurrent ↔ c.dominates d = false ∧ d.dominates c = false
  concurrentWith : c.concurrentWith d = true ↔ c.dominates d = false ∧ d.dominates c = false
  swap : d.order c = (c.order d).swap

theorem placedByDominance (c d : Clock) : c.PlacedByDominance d where
  equal := order_eq_equal_iff
  agrees := order_eq_equal_iff_agrees
  before := order_eq_before_iff
  after := order_eq_after_iff
  concurrent := order_eq_concurrent_iff
  concurrentWith := concurrentWith_iff
  swap := order_swap c d

/-- The two comparisons tell the same of any clocks. One clock dominates another if it reads as much
at every id, and this is reflexive and transitive. How two clocks are placed follows from which of them
dominates the other, and the other way round the answer is the mirror image. What is before a clock is
before all that this clock is before or equal to, and likewise from the other side. And no answer
changes when ids are listed at zero in either clock. -/
theorem comparisons_tell_the_same (a b c : Clock) (ids ids' : List NodeId) :
    (a.dominates b = true ↔ ∀ id, b.get id ≤ a.get id) ∧
    a.dominates a = true ∧
    (a.dominates b = true → b.dominates c = true → a.dominates c = true) ∧
    a.PlacedByDominance b ∧
    (a.order b = .before → b.order c = .before → a.order c = .before) ∧
    (a.order b = .before → b.order c = .equal → a.order c = .before) ∧
    (a.order b = .equal → b.order c = .before → a.order c = .before) ∧
    (a.addDimensions ids).dominates (b.addDimensions ids') = a.dominates b ∧
    (a.addDimensions ids).order (b.addDimensions ids') = a.order b ∧
    (a.addDimensions ids).concurrentWith (b.addDimensions ids') = a.concurrentWith b := by
  have ha : (a.addDimensions ids).Agrees a := a.agrees_addDimensions ids
  have hb : (b.addDimensions ids').Agrees b := b.agrees_addDimensions ids'
  refine ⟨?_, dominates_refl a, dominates_trans, a.placedByDominance b, ?_, ?_, ?_,
    ha.dominates_eq hb, ha.order_eq hb, ?_⟩
  · rw [dominates_iff]
    exact forall_congr' fun id => get_le_get_iff.symm
  · intro hab hbc
    apply order_eq_before_iff_lt.2
    calc
      a < b := order_eq_before_iff_lt.1 hab
      _ < c := order_eq_before_iff_lt.1 hbc
  · intro hab hbc
    apply order_eq_before_iff_lt.2
    calc
      a < b := order_eq_before_iff_lt.1 hab
      _ ≤ c := le_of_order_eq_equal hbc
  · intro hab hbc
    apply order_eq_before_iff_lt.2
    calc
      a ≤ b := le_of_order_eq_equal hab
      _ < c := order_eq_before_iff_lt.1 hbc
  · rw [concurrentWith, concurrentWith, ha.order_eq hb]

/-! Four clocks that list different ids. The second and the third one read the same. -/

def early : Clock := .ofList [("a", 1), ("d", 0)]

def middle : Clock := .ofList [("a", 1), ("b", 1)]

def relisted : Clock := .ofList [("b", 1), ("c", 0), ("a", 1)]

def late : Clock := .ofList [("a", 1), ("b", 1), ("c", 2)]

theorem early_before_late :
    middle ≠ relisted ∧ early.order middle = .before ∧ middle.order relisted = .equal ∧
    relisted.order late = .before ∧ early.order relisted = .before ∧ middle.order late = .before ∧
    early.order late = .before := by
  have hne : middle ≠ relisted := by decide +kernel
  have hearly : early.order middle = .before := by decide +kernel
  have hequal : middle.order relisted = .equal := by decide +kernel
  have hlate : relisted.order late = .before := by decide +kernel
  obtain ⟨-, -, -, -, -, hright, -⟩ := comparisons_tell_the_same early middle relisted [] []
  obtain ⟨-, -, -, -, -, -, hleft, -⟩ := comparisons_tell_the_same middle relisted late [] []
  obtain ⟨-, -, -, -, hboth, -⟩ := comparisons_tell_the_same early relisted late [] []
  exact ⟨hne, hearly, hequal, hlate, hright hearly hequal, hleft hequal hlate,
    hboth (hright hearly hequal) hlate⟩

end Clock
end CausalStore
