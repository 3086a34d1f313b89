import CausalStore.Proofs.Applications
import Mathlib.Algebra.BigOperators.Group.Finset.Basic

/-!
# What reconciliation does to a buffer

Updates leave the buffer one at a time (`Engine.Sheds`): each is dropped where the clock covers it by
then, or applied where it is next. A pass is such a sequence of removals (`Engine.sheds_sweep`), and so
are the passes together (`Engine.sheds_drain`). Hence everything that was in the buffer is accounted
for, from whatever state reconciliation starts.
-/

namespace CausalStore

/-! ## The sum of the counters -/

/-- The sum of all counters of a clock. -/
def Clock.total (c : Clock) : Nat := c.entries.foldr (fun p n => p.2.toNat + n) 0

namespace Clock

variable {c d : Clock} {origin : NodeId} {listed : Finset NodeId}

/-- Ids that are not listed do not count. -/
theorem total_eq_sum (h : c.ids.toFinset ⊆ listed) : c.total = ∑ id ∈ listed, c.count id := by
  have hcount : c.entries.map (fun p => p.2.toNat) = c.ids.map c.count := by
    rw [ids, SortedMap.keys, List.map_map]
    refine List.map_congr_left fun p hp => ?_
    rw [Function.comp_apply, count, get_of_mem_entries hp]
  have htotal : c.total = (c.entries.map fun p => p.2.toNat).sum := by
    rw [total, List.sum_eq_foldr, List.foldr_map]
  have hnodup : c.ids.Nodup := c.counters.keys_nodup
  have hzero : ∀ id ∈ listed, id ∉ c.ids.toFinset → c.count id = 0 := by
    intro id _ hid
    by_contra hne
    exact hid (List.mem_toFinset.2 (mem_ids_of_count_ne_zero hne))
  rw [htotal, hcount, ← List.sum_toFinset c.count hnodup]
  exact Finset.sum_subset h hzero

/-- Where one counter has risen by one, so has the sum. -/
theorem total_eq_succ (hself : d.count origin = c.count origin + 1)
    (hother : ∀ id, id ≠ origin → d.count id = c.count id) : d.total = c.total + 1 := by
  have hne : d.count origin ≠ 0 := by omega
  have hmem : origin ∈ c.ids.toFinset ∪ d.ids.toFinset :=
    Finset.mem_union_right _ (List.mem_toFinset.2 (mem_ids_of_count_ne_zero hne))
  have hrest : ∑ id ∈ (c.ids.toFinset ∪ d.ids.toFinset).erase origin, d.count id =
      ∑ id ∈ (c.ids.toFinset ∪ d.ids.toFinset).erase origin, c.count id :=
    Finset.sum_congr rfl fun id hid => hother id (Finset.ne_of_mem_erase hid)
  rw [total_eq_sum (c := c) Finset.subset_union_left, total_eq_sum (c := d) Finset.subset_union_right,
    ← Finset.add_sum_erase _ d.count hmem, ← Finset.add_sum_erase _ c.count hmem, hself, hrest]
  omega

end Clock

namespace Engine

variable {e e' e'' : Engine} {u : Update} {us front l r : List Update}

/-! ## Leaving the buffer -/

/-- How an update left the buffer. -/
inductive Removal where
  | dropped (u : Update)
  | applied (u : Update)
  deriving DecidableEq

namespace Removal

def update : Removal → Update
  | dropped u | applied u => u

/-- The updates that took effect, in order. -/
def effective (removals : List Removal) : List Update :=
  removals.filterMap fun
    | dropped _ => none
    | applied u => some u

end Removal

open Removal (effective)

/-- Updates leave the buffer one by one, from wherever they stand in it. One is dropped if the clock
covers it at that moment, and applied if it is not covered and is next. -/
inductive Sheds : Engine → List Removal → Engine → Prop
  | done {e : Engine} : Sheds e [] e
  | drop {e e' : Engine} {u : Update} {l r : List Update} {removals : List Removal} :
      e.pending = l ++ u :: r → e.clock.dominates u.clock = true →
      Sheds { e with pending := l ++ r } removals e' → Sheds e (.dropped u :: removals) e'
  | apply {e e' : Engine} {u : Update} {l r : List Update} {removals : List Removal} :
      e.pending = l ++ u :: r → e.clock.dominates u.clock = false →
      e.clock.admits u.origin u.clock = true →
      Sheds { e.apply u with pending := l ++ r } removals e' → Sheds e (.applied u :: removals) e'

variable {removals removals' : List Removal}

namespace Sheds

theorem trans (h : e.Sheds removals e') (h' : e'.Sheds removals' e'') :
    e.Sheds (removals ++ removals') e'' := by
  induction h with
  | done => exact h'
  | drop hp hcov _ ih => exact .drop hp hcov (ih h')
  | apply hp hcov hadm _ ih => exact .apply hp hcov hadm (ih h')

/-- What stays keeps its order. -/
theorem sublist (h : e.Sheds removals e') : e'.pending.Sublist e.pending := by
  have hstep (l r : List Update) (u : Update) : (l ++ r).Sublist (l ++ u :: r) :=
    (List.sublist_cons_self u r).append_left l
  induction h with
  | done => exact List.Sublist.refl _
  | drop hp _ _ ih => exact hp ▸ ih.trans (hstep ..)
  | apply hp _ _ _ ih => exact hp ▸ ih.trans (hstep ..)

/-- What was in the buffer stays or leaves, each occurrence once. -/
theorem perm (h : e.Sheds removals e') :
    e.pending.Perm (e'.pending ++ removals.map Removal.update) := by
  induction h with
  | done => rw [List.map_nil, List.append_nil]
  | drop hp _ _ ih | apply hp _ _ _ ih =>
    rw [hp]
    exact List.perm_middle.trans ((ih.cons _).trans List.perm_middle.symm)

/-- An application writes to the store, and nothing else does. -/
theorem store_eq (h : e.Sheds removals e') :
    e'.store = (effective removals).foldl (fun s u => s.insert u.key u.entry) e.store := by
  induction h with
  | done => rfl
  | drop _ _ _ ih => exact ih
  | apply _ _ _ _ ih => exact ih

/-- An application moves one counter by one, and nothing else moves any. -/
theorem total_eq (h : e.Sheds removals e') :
    e'.clock.total = e.clock.total + (effective removals).length := by
  induction h with
  | done => rfl
  | drop _ _ _ ih => exact ih
  | @apply e e' u l r removals _ hcov hadm _ ih =>
    have hpos : 1 ≤ u.number :=
      Nat.one_le_iff_ne_zero.2 (Clock.count_ne_zero_of_admits hcov hadm)
    have hnext := Application.isNext_apply hadm hpos
    have hone : (e.apply u).clock.total = e.clock.total + 1 :=
      Clock.total_eq_succ (hnext.self.trans hnext.number) hnext.others
    change e'.clock.total = (e.apply u).clock.total + _ at ih
    change _ = _ + ((effective removals).length + 1)
    omega

end Sheds

/-- A pass is a sequence of removals. What stands in front of the updates passed over stays. -/
theorem sheds_sweep (e : Engine) (front us : List Update) : ∃ removals,
    Sheds { e with pending := front ++ us } removals
      { (e.sweep us).engine with pending := front ++ (e.sweep us).kept } ∧
    effective removals = e.swept us := by
  induction us generalizing e front with
  | nil => exact ⟨[], .done, rfl⟩
  | cons u us ih =>
    simp only [sweep, swept]
    split
    next hcov =>
      obtain ⟨removals, hsheds, happlied⟩ := ih e front
      exact ⟨.dropped u :: removals, .drop rfl hcov hsheds, happlied⟩
    next hcov =>
      split
      next hadm =>
        obtain ⟨removals, hsheds, happlied⟩ := ih (e.apply u) front
        exact ⟨.applied u :: removals, .apply rfl (Bool.eq_false_iff.2 hcov) hadm hsheds,
          congrArg (u :: ·) happlied⟩
      next =>
        -- The update is kept, and stands in front of the rest.
        have hrest := ih e (front ++ [u])
        simp only [List.append_assoc, List.singleton_append] at hrest
        exact hrest

theorem sheds_drain (e : Engine) (us : List Update) : ∃ removals,
    Sheds { e with pending := us } removals (e.drain us).1 ∧
    effective removals = e.drained us := by
  induction e, us using drained.induct with
  | case1 e us h =>
    obtain ⟨removals, hsheds, happlied⟩ := e.sheds_sweep [] us
    have hnil : e.swept us = [] := List.eq_nil_of_length_eq_zero (sweep_applied e us ▸ h)
    rw [sweep_engine, hnil, applyAll_nil] at hsheds
    rw [drain_of_zero h, drained, dif_pos h]
    exact ⟨removals, hsheds, happlied.trans hnil⟩
  | case2 e us h ih =>
    obtain ⟨removals, hsheds, happlied⟩ := e.sheds_sweep [] us
    obtain ⟨removals', hsheds', happlied'⟩ := ih
    rw [drain_of_ne_zero h, drained_of_ne_zero h]
    refine ⟨removals ++ removals', hsheds.trans hsheds', ?_⟩
    rw [effective, List.filterMap_append, ← happlied, ← happlied']
    rfl

/-! ## How often the buffer is passed over -/

/-- Passes are repeated over what the last one kept, until one applies nothing. -/
inductive Repeats : Engine → List Update → (passes : Nat) → Engine × Nat → Prop
  | last {e : Engine} {us : List Update} : (e.sweep us).applied = 0 →
      Repeats e us 1 ({ (e.sweep us).engine with pending := (e.sweep us).kept }, 0)
  | again {e e' : Engine} {us : List Update} {passes applied : Nat} : (e.sweep us).applied ≠ 0 →
      Repeats (e.sweep us).engine (e.sweep us).kept passes (e', applied) →
      Repeats e us (passes + 1) (e', (e.sweep us).applied + applied)

/-- Each pass but the last one applies something. -/
theorem repeats_drain (e : Engine) (us : List Update) :
    ∃ passes, Repeats e us passes (e.drain us) ∧ passes ≤ (e.drain us).2 + 1 := by
  induction e, us using drained.induct with
  | case1 e us h =>
    have hlast := Repeats.last h
    rw [drain, dif_pos h]
    exact ⟨1, hlast, Nat.le_refl 1⟩
  | case2 e us h ih =>
    obtain ⟨passes, hrepeats, hle⟩ := ih
    rw [drain_of_ne_zero h]
    refine ⟨passes + 1, .again h hrepeats, ?_⟩
    dsimp only
    omega

/-- Reconciliation accounts for every buffered update, whatever the clock, the store and the buffer
are. It ends after at most one pass more than it applies updates. What stays in the buffer keeps its
order; every other occurrence leaves it once, applied when it was next or dropped when it was covered.
The number that is returned counts the applied ones, and is what the counters have risen by altogether;
these updates alone wrote to the store, in their order. Nothing that stays is covered or next, and
another reconciliation finds nothing to do. -/
theorem reconcile_accounts_for_buffer (e : Engine) : ∃ removals passes,
    e.Repeats e.pending passes e.reconcile ∧ passes ≤ e.reconcile.2 + 1 ∧
    e.Sheds removals e.reconcile.1 ∧
    e.reconcile.1.pending.Sublist e.pending ∧
    e.pending.Perm (e.reconcile.1.pending ++ removals.map Removal.update) ∧
    e.reconcile.2 = (effective removals).length ∧
    e.reconcile.1.clock.total = e.clock.total + e.reconcile.2 ∧
    e.reconcile.1.clock.dominates e.clock = true ∧
    e.reconcile.1.store =
      (effective removals).foldl (fun s u => s.insert u.key u.entry) e.store ∧
    e.reconcile.1.Settled ∧
    e.reconcile.1.reconcile = (e.reconcile.1, 0) := by
  obtain ⟨passes, hrepeats, hpasses⟩ := e.repeats_drain e.pending
  obtain ⟨removals, hsheds, happlied⟩ := e.sheds_drain e.pending
  have hcount : e.reconcile.2 = (effective removals).length := by
    rw [happlied]
    exact drain_count e e.pending
  have htotal := hsheds.total_eq
  rw [← hcount] at htotal
  exact ⟨removals, passes, hrepeats, hpasses, hsheds, hsheds.sublist, hsheds.perm, hcount, htotal,
    reconcile_dominates e, hsheds.store_eq, reconcile_settled e,
    reconcile_of_settled (reconcile_settled e)⟩

/-- A buffer with an update that is covered, one that has to wait for the next one, which is there
twice, and one whose cause is missing. -/
example :
    let u (origin : NodeId) (n : Counter) : Update := ⟨"k", "v", origin, .ofList [(origin, n)]⟩
    let e : Engine := ⟨"a", .ofList [("b", 1)], .empty,
      [u "b" 1, u "c" 2, u "c" 1, u "c" 1, u "d" 2]⟩
    e.reconcile.2 = 2 ∧ e.reconcile.1.pending = [u "d" 2] := by
  decide +kernel

end Engine
end CausalStore
