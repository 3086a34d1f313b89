import CausalStore.Proofs.Draining
import CausalStore.Snapshot

/-!
# What the operations of an engine apply

For each operation, the updates that it applies (`reconciled`, `delivered`) and what it makes of the
engine. A write and an install first change the engine outright (`record`, `overwrite`) and then
drain its buffer.
-/

namespace CausalStore
namespace Engine

variable {e e' : Engine} {u v : Update} {key value : String}

/-- The updates that reconciliation applies, in order. -/
def reconciled (e : Engine) : List Update := e.drained e.pending

/-- The updates that the receipt of `u` makes the engine apply, in order. -/
def delivered (e : Engine) (u : Update) : List Update :=
  if e.clock.dominates u.clock then []
  else if e.clock.admits u.origin u.clock then u :: (e.apply u).reconciled
  else []

/-- The engine that took down a write of its own. -/
def record (e : Engine) (u : Update) : Engine :=
  { e with clock := u.clock, store := e.store.insert u.key u.entry }

/-- The engine that took over a snapshot and did not drain its buffer yet. -/
def overwrite (e : Engine) (s : Snapshot) : Engine :=
  { e with
    store := s.store.entries.foldl (fun m p => m.insert p.1 p.2) e.store
    clock := e.clock.merge s.clock }

theorem reconcile_eq (e : Engine) : e.reconcile.1 =
    { e.applyAll e.reconciled with pending := e.reconcile.1.pending } := drain_eq e e.pending

theorem reconcile_localId (e : Engine) : e.reconcile.1.localId = e.localId := by
  rw [reconcile_eq]
  exact applyAll_localId

theorem reconcile_clock (e : Engine) : e.reconcile.1.clock = (e.applyAll e.reconciled).clock := by
  rw [reconcile_eq]

theorem reconcile_store (e : Engine) : e.reconcile.1.store = (e.applyAll e.reconciled).store := by
  rw [reconcile_eq]

theorem reconcile_dominates (e : Engine) : e.reconcile.1.clock.dominates e.clock = true :=
  reconcile_clock e ▸ applyAll_dominates

theorem mem_pending_of_mem_reconcile (h : u ∈ e.reconcile.1.pending) : u ∈ e.pending :=
  (drain_pending_sublist e e.pending).mem h

theorem mem_pending_of_mem_reconciled (h : u ∈ e.reconciled) : u ∈ e.pending := mem_of_mem_drained h

theorem inTurn_reconciled (e : Engine) : e.InTurn e.reconciled := inTurn_drained e e.pending

theorem mem_reconcile (h : u ∈ e.pending) : u ∈ e.reconcile.1.pending ∨ u ∈ e.reconciled ∨
    e.reconcile.1.clock.dominates u.clock = true := mem_drain h

theorem reconcile_settled (e : Engine) : e.reconcile.1.Settled := drain_settled e e.pending

theorem reconciled_of_settled (h : e.Settled) : e.reconciled = [] := by
  rw [reconciled, drained, dif_pos (by rw [sweep_of_waiting h])]

theorem reconcile_of_settled (h : e.Settled) : e.reconcile = (e, 0) := by
  rw [reconcile, drain_of_zero (by rw [sweep_of_waiting h]), sweep_of_waiting h]

/-- A write fails when the node's counter is full. Else the next count is taken down, and then the
buffer drained. -/
theorem write_eq_ok_iff : e.write key value = .ok (e', u) ↔
    u.key = key ∧ u.value = value ∧ u.origin = e.localId ∧
      e.clock.increment e.localId = .ok u.clock ∧ e' = (e.record u).reconcile.1 := by
  obtain ⟨key', value', origin, clock⟩ := u
  unfold write
  cases hc : e.clock.increment e.localId with
  | error c => simp [bind, Except.bind]
  | ok c =>
    simp only [bind, Except.bind, pure, Except.pure, Except.ok.injEq, Prod.mk.injEq,
      Update.mk.injEq]
    constructor
    · rintro ⟨rfl, rfl, rfl, rfl, rfl⟩
      exact ⟨rfl, rfl, rfl, rfl, rfl⟩
    · rintro ⟨rfl, rfl, rfl, rfl, rfl⟩
      exact ⟨rfl, rfl, rfl, rfl, rfl⟩

/-- The three ways in which a receipt can go. -/
theorem receive_cases (e : Engine) (u : Update) :
    (e.clock.dominates u.clock = true ∧ (e.receive u).1 = e ∧ e.delivered u = []) ∨
    (e.clock.admits u.origin u.clock = true ∧ (e.receive u).1 = (e.apply u).reconcile.1 ∧
      e.delivered u = u :: (e.apply u).reconciled) ∨
    (e.clock.dominates u.clock = false ∧ e.clock.admits u.origin u.clock = false ∧
      (e.receive u).1 =
        { e with pending := if u ∈ e.pending then e.pending else e.pending ++ [u] } ∧
      e.delivered u = []) := by
  unfold receive delivered
  split
  next h => exact .inl ⟨h, rfl, rfl⟩
  next h =>
    split
    next hadm => exact .inr (.inl ⟨hadm, rfl, rfl⟩)
    next hadm =>
      refine .inr (.inr ⟨Bool.eq_false_iff.2 h, Bool.eq_false_iff.2 hadm, ?_, rfl⟩)
      split <;> rfl

theorem receive_eq_discarded_iff :
    (e.receive u).2 = .discarded ↔ e.clock.dominates u.clock = true := by
  unfold receive
  split
  next h => exact iff_of_true rfl h
  next h =>
    refine iff_of_false ?_ h
    split
    · exact nofun
    · split <;> exact nofun

theorem install_fst (e : Engine) (s : Snapshot) :
    (e.install s).1 = (e.overwrite s).reconcile.1 := rfl

theorem overwrite_get? (e : Engine) (s : Snapshot) (key : String) :
    (e.overwrite s).store.get? key = (s.store.get? key).or (e.store.get? key) :=
  SortedMap.get?_foldl_insert s.store e.store key

end Engine

end CausalStore
