import CausalStore.Proofs.EngineRuns

/-!
# A snapshot and what comes after it

An engine decides by the counters of its clock, whichever ids the clock lists. So two engines with
the same counters, stores and buffers stay alike whatever they receive (`Engine.Alike.receive`). A
replica that took over the snapshot of an engine with an empty buffer is alike that engine from then
on, though their clocks may list different ids at zero.
-/

namespace CausalStore

namespace Engine

variable {e f t : Engine} {u : Update} {us : List Update}

/-! ## Engines whose clocks agree -/

theorem agrees_applyAll (h : e.clock.Agrees f.clock) (us : List Update) :
    (e.applyAll us).clock.Agrees (f.applyAll us).clock := by
  induction us generalizing e f with
  | nil => exact h
  | cons u us ih => exact ih (e := e.apply u) (f := f.apply u) (h.merge fun _ => rfl)

theorem swept_congr (h : e.clock.Agrees f.clock) (us : List Update) : e.swept us = f.swept us := by
  induction us generalizing e f with
  | nil => rfl
  | cons u us ih =>
    have happly : (e.apply u).clock.Agrees (f.apply u).clock := h.merge fun _ => rfl
    rw [swept, swept, h.dominates, h.admits, ih h, ih happly]

theorem kept_congr (h : e.clock.Agrees f.clock) (us : List Update) :
    (e.sweep us).kept = (f.sweep us).kept := by
  induction us generalizing e f with
  | nil => rfl
  | cons u us ih =>
    have happly : (e.apply u).clock.Agrees (f.apply u).clock := h.merge fun _ => rfl
    simp only [sweep, h.dominates, h.admits]
    split
    · exact ih h
    · split
      · exact ih happly
      · exact congrArg (u :: ·) (ih h)

theorem applied_congr (h : e.clock.Agrees f.clock) (us : List Update) :
    (e.sweep us).applied = (f.sweep us).applied := by
  rw [sweep_applied, sweep_applied, swept_congr h]

/-- Draining applies the same updates to both, and keeps the same. -/
theorem drain_congr (h : e.clock.Agrees f.clock) (us : List Update) :
    e.drained us = f.drained us ∧ (e.drain us).1.pending = (f.drain us).1.pending := by
  induction e, us using drained.induct generalizing f with
  | case1 e us h0 =>
    have h0' : (f.sweep us).applied = 0 := applied_congr h us ▸ h0
    rw [drained, dif_pos h0, drained, dif_pos h0', drain_of_zero h0, drain_of_zero h0']
    exact ⟨rfl, kept_congr h us⟩
  | case2 e us h0 ih =>
    have h0' : (f.sweep us).applied ≠ 0 := applied_congr h us ▸ h0
    have hnext : (e.sweep us).engine.clock.Agrees (f.sweep us).engine.clock := by
      rw [sweep_engine, sweep_engine, swept_congr h]
      exact agrees_applyAll h _
    obtain ⟨hdrained, hpending⟩ := ih hnext
    rw [drained_of_ne_zero h0, drained_of_ne_zero h0', drain_of_ne_zero h0, drain_of_ne_zero h0',
      ← kept_congr h, ← swept_congr h]
    exact ⟨congrArg (e.swept us ++ ·) hdrained, hpending⟩

/-- Reconciliation applies the same updates to both, and their buffers are the same afterwards. -/
theorem reconcile_congr (h : e.clock.Agrees f.clock) (hpending : e.pending = f.pending) :
    e.reconciled = f.reconciled ∧ e.reconcile.2 = f.reconcile.2 ∧
      e.reconcile.1.pending = f.reconcile.1.pending ∧
      e.reconcile.1.clock.Agrees f.reconcile.1.clock := by
  obtain ⟨hdrained, hkept⟩ := drain_congr h e.pending
  have hreconciled : e.reconciled = f.reconciled := by
    rw [reconciled, reconciled, hdrained, hpending]
  refine ⟨hreconciled, ?_, ?_, ?_⟩
  · rw [Engine.reconcile, Engine.reconcile, drain_count, drain_count, hdrained, hpending]
  · rw [Engine.reconcile, Engine.reconcile, hkept, hpending]
  · rw [reconcile_clock, reconcile_clock, ← hreconciled]
    exact agrees_applyAll h _

/-! ## Engines that are alike -/

/-- The engines differ at most in their own ids, and in the ids that their clocks list at zero. -/
structure Alike (e f : Engine) : Prop where
  clock : e.clock.Agrees f.clock
  store : e.store = f.store
  pending : e.pending = f.pending

/-- What becomes of updates that are received one after the other. -/
def fates (e : Engine) : List Update → List Delivery
  | [] => []
  | u :: us => (e.receive u).2 :: (e.receive u).1.fates us

namespace Alike

theorem apply (h : e.Alike f) (u : Update) : (e.apply u).Alike (f.apply u) where
  clock := h.clock.merge fun _ => rfl
  store := congrArg (·.insert u.key u.entry) h.store
  pending := h.pending

theorem applyAll (h : e.Alike f) (us : List Update) : (e.applyAll us).Alike (f.applyAll us) := by
  induction us generalizing e f with
  | nil => exact h
  | cons u us ih => exact ih (h.apply u)

theorem reconcile (h : e.Alike f) :
    e.reconcile.2 = f.reconcile.2 ∧ e.reconcile.1.Alike f.reconcile.1 := by
  obtain ⟨hreconciled, hcount, hpending, hclock⟩ := reconcile_congr h.clock h.pending
  refine ⟨hcount, hclock, ?_, hpending⟩
  rw [reconcile_store, reconcile_store, ← hreconciled]
  exact (h.applyAll _).store

/-- Engines that are alike do the same with an update, and are alike afterwards. -/
theorem receive (h : e.Alike f) (u : Update) :
    (e.receive u).2 = (f.receive u).2 ∧ (e.receive u).1.Alike (f.receive u).1 := by
  obtain ⟨hcount, hnext⟩ := (h.apply u).reconcile
  unfold Engine.receive
  rw [h.clock.dominates, h.clock.admits, h.pending]
  split
  · exact ⟨rfl, h⟩
  · split
    · exact ⟨congrArg Delivery.applied hcount, hnext⟩
    · split
      · exact ⟨rfl, h⟩
      · exact ⟨rfl, h.clock, h.store, rfl⟩

theorem receiveAll (h : e.Alike f) (us : List Update) :
    e.fates us = f.fates us ∧ (e.receiveAll us).Alike (f.receiveAll us) := by
  induction us generalizing e f with
  | nil => exact ⟨rfl, h⟩
  | cons u us ih =>
    obtain ⟨hfate, hnext⟩ := h.receive u
    obtain ⟨hfates, hlast⟩ := ih hnext
    exact ⟨by rw [fates, fates, hfate, hfates], hlast⟩

/-- A replica in which nothing was written, applied or buffered takes over the snapshot of an engine
with an empty buffer, and is alike that engine. -/
theorem install_capture (ht : t.Unused) (he : e.pending = []) :
    (t.install e.capture).1.Alike e := by
  have hpending : (t.overwrite e.capture).pending = [] := ht.pending
  have hsettled : (t.overwrite e.capture).Settled := by
    intro u hu
    rw [hpending] at hu
    cases hu
  rw [install_fst, reconcile_of_settled hsettled]
  refine ⟨fun id => UInt64.toNat_inj.1 ?_, SortedMap.ext_get? fun key => ?_, ?_⟩
  · change (t.clock.merge e.clock).count id = e.clock.count id
    rw [Clock.count_merge, ht.clock, Nat.zero_max]
  · rw [overwrite_get?, ht.store, SortedMap.get?_empty, Option.or_none]
    rfl
  · rw [hpending, he]

end Alike

/-- A replica that starts from the snapshot of an engine with an empty buffer, however that engine
was reached, does from then on what the engine does: with each update that both receive the same
happens, and their stores, their buffers and the counters of their clocks are the same. -/
theorem snapshot_and_tail_replay {source target : Engine} (hfresh : target.Unused)
    (hempty : source.pending = []) (us : List Update) :
    (target.install source.capture).1.fates us = source.fates us ∧
    ((target.install source.capture).1.receiveAll us).store = (source.receiveAll us).store ∧
    ((target.install source.capture).1.receiveAll us).pending = (source.receiveAll us).pending ∧
    ∀ id, ((target.install source.capture).1.receiveAll us).clock.get id =
      (source.receiveAll us).clock.get id := by
  obtain ⟨hfates, hlast⟩ := (Alike.install_capture hfresh hempty).receiveAll us
  exact ⟨hfates, hlast.store, hlast.pending, hlast.clock⟩

/-! A replica `c` that has listed `b` takes over from `a`, which has listed `d`. Of the four updates
that both receive then, the first waits for the third, and the last one is covered. -/

def veteran : Engine := (new "a").actAll
  [.addServer "d", .write "x" "1", .receive ⟨"y", "2", "b", .ofList [("a", 1), ("b", 1)]⟩]

def newcomer : Engine := (new "c").addServer "b"

def sequel : List Update :=
  [⟨"x", "5", "e", .ofList [("b", 2), ("e", 1)]⟩, ⟨"y", "9", "f", .ofList [("a", 4)]⟩,
    ⟨"x", "4", "b", .ofList [("b", 2), ("c", 0)]⟩, ⟨"y", "2", "b", .ofList [("a", 1), ("b", 1)]⟩]

theorem newcomer_replays_sequel :
    (newcomer.install veteran.capture).1.clock ≠ veteran.clock ∧
    (newcomer.install veteran.capture).1.fates sequel =
      [.buffered, .buffered, .applied 1, .discarded] ∧
    ((newcomer.install veteran.capture).1.receiveAll sequel).store.get? "x" =
      some ⟨"5", .ofList [("b", 2), ("e", 1)]⟩ := by
  have hfresh : newcomer.Unused := ⟨fun _ => by simp [newcomer, addServer, new], rfl, rfl⟩
  have hempty : veteran.pending = [] := by decide +kernel
  obtain ⟨hfates, hstore, -, -⟩ := snapshot_and_tail_replay hfresh hempty sequel
  rw [hfates, hstore]
  decide +kernel

end Engine
end CausalStore
