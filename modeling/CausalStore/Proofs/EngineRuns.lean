import CausalStore.Proofs.Confluence

/-!
# Runs of an engine

An engine may be told anything, in any order (`Engine.Action`): updates that nobody made and
snapshots of nowhere as well. What it has stays with it (`Grows.actAll`), and its buffer is always
tidy: it holds only what must still wait, and that once (`Engine.Tidy`). A reconciliation that comes
on top finds nothing to do.
-/

namespace CausalStore

/-- What an operation leaves, if one that fails leaves everything as it was. -/
def leaves {σ ε α : Type} (s : σ) : Except ε (σ × α) → σ
  | .ok (s', _) => s'
  | .error _ => s

theorem leaves_cases {σ ε α : Type} {s s' : σ} {r : Except ε (σ × α)} (h : leaves s r = s') :
    s' = s ∨ ∃ x, r = .ok (s', x) := by
  cases r with
  | ok p => cases h; exact .inr ⟨p.2, rfl⟩
  | error x => exact .inl h.symm

namespace Engine

variable {e : Engine} {u : Update} {id : NodeId}

/-- What can be done with an engine. -/
inductive Action where
  | addServer (id : NodeId)
  | write (key value : String)
  | receive (u : Update)
  | reconcile
  | install (s : Snapshot)

/-- The engine after an action. A write fails when the node's counter is full. -/
def act (e : Engine) : Action → Engine
  | .addServer id => e.addServer id
  | .write key value => leaves e (e.write key value)
  | .receive u => (e.receive u).1
  | .reconcile => e.reconcile.1
  | .install s => (e.install s).1

/-- The engine after actions, one after the other. -/
def actAll (e : Engine) (as : List Action) : Engine := as.foldl act e

theorem actAll_append (e : Engine) (as bs : List Action) :
    e.actAll (as ++ bs) = (e.actAll as).actAll bs :=
  List.foldl_append

/-- A write is recorded, and then the buffer is drained. -/
theorem act_write_cases (e : Engine) (key value : String) : e.act (.write key value) = e ∨
    ∃ u, u.origin = e.localId ∧ e.clock.increment e.localId = .ok u.clock ∧
      e.act (.write key value) = (e.record u).reconcile.1 := by
  obtain h | ⟨u, hw⟩ := leaves_cases (s := e) (r := e.write key value) rfl
  · exact .inl h
  · obtain ⟨-, -, ho, hinc, he⟩ := write_eq_ok_iff.1 hw
    exact .inr ⟨u, ho, hinc, he⟩

/-! ## What an engine has stays with it -/

theorem Grows.act (e : Engine) (a : Action) : e.Grows (e.act a) := by
  cases a with
  | addServer id => exact .addServer e id
  | write key value =>
    obtain h | ⟨u, hw⟩ := leaves_cases (s := e) (r := e.write key value) rfl
    · rw [Engine.act, h]
      exact .refl e
    · exact .write hw
  | receive u => exact .receive e u
  | reconcile => exact .reconcile e
  | install s => exact .install e s

theorem Grows.actAll (e : Engine) (as : List Action) : e.Grows (e.actAll as) := by
  induction as generalizing e with
  | nil => exact .refl e
  | cons a as ih => exact (Grows.act e a).trans (ih _)

theorem contains_reconcile (h : e.clock.contains id = true) :
    e.reconcile.1.clock.contains id = true := by
  rw [reconcile_clock]
  exact (contains_applyAll ..).2 (.inl h)

theorem contains_merge_left {c d : Clock} (h : c.contains id = true) :
    (c.merge d).contains id = true := by
  rw [Clock.contains_merge, h, Bool.true_or]

theorem contains_act (h : e.clock.contains id = true) (a : Action) :
    (e.act a).clock.contains id = true := by
  cases a with
  | addServer id' => exact Clock.contains_addDimension h id'
  | write key value =>
    obtain he | ⟨u, -, hinc, he⟩ := e.act_write_cases key value
    · rwa [he]
    · rw [he]
      exact contains_reconcile (e := e.record u) (Clock.contains_of_increment hinc h)
  | receive u =>
    rw [act]
    obtain ⟨-, he, -⟩ | ⟨-, he, -⟩ | ⟨-, -, he, -⟩ := e.receive_cases u
    · rwa [he]
    · rw [he]
      exact contains_reconcile (e := e.apply u) (contains_merge_left h)
    · rwa [he]
  | reconcile => exact contains_reconcile h
  | install s => exact contains_reconcile (e := e.overwrite s) (contains_merge_left h)

theorem contains_actAll (h : e.clock.contains id = true) (as : List Action) :
    (e.actAll as).clock.contains id = true := by
  induction as generalizing e with
  | nil => exact h
  | cons a as ih => exact ih (contains_act h a)

/-! ## What waits in the buffer -/

/-- The buffer holds only what must still wait, and that once. -/
structure Tidy (e : Engine) : Prop where
  settled : e.Settled
  nodup : e.pending.Nodup

namespace Tidy

theorem new (id : NodeId) : (Engine.new id).Tidy := ⟨settled_new id, .nil⟩

/-- A reconciliation drains the buffer as far as it can be, and puts nothing into it. -/
theorem reconcile (h : e.pending.Nodup) : e.reconcile.1.Tidy :=
  ⟨reconcile_settled e, h.sublist (drain_pending_sublist e e.pending)⟩

theorem act (h : e.Tidy) (a : Action) : (e.act a).Tidy := by
  cases a with
  | addServer id => exact ⟨h.settled.addServer id, h.nodup⟩
  | write key value =>
    obtain he | ⟨u, -, -, he⟩ := e.act_write_cases key value
    · rwa [he]
    · rw [he]
      exact reconcile (e := e.record u) h.nodup
  | receive u => exact ⟨h.settled.receive u, nodup_receive h.nodup u⟩
  | reconcile => exact reconcile h.nodup
  | install s => exact reconcile (e := e.overwrite s) h.nodup

theorem actAll (h : e.Tidy) (as : List Action) : (e.actAll as).Tidy := by
  induction as generalizing e with
  | nil => exact h
  | cons a as ih => exact ih (h.act a)

end Tidy

/-- Whatever was done with a new engine, no update in its buffer is covered, none could be applied,
and none is there twice. So a reconciliation applies nothing and changes nothing. -/
theorem buffer_holds_what_must_wait (id : NodeId) (as : List Action) :
    (∀ u ∈ ((new id).actAll as).pending,
      ((new id).actAll as).clock.dominates u.clock = false ∧
      ((new id).actAll as).clock.admits u.origin u.clock = false) ∧
    ((new id).actAll as).pending.Nodup ∧
    ((new id).actAll as).reconcile = ((new id).actAll as, 0) := by
  have htidy : ((new id).actAll as).Tidy := (Tidy.new id).actAll as
  exact ⟨htidy.settled, htidy.nodup, reconcile_of_settled htidy.settled⟩

end Engine
end CausalStore
