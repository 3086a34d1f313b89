import CausalStore.Update

/-!
# Causal delivery

The engine of one replica applies updates in causal order: an update whose clock is covered is
dropped, one that is next is applied, and any other waits in the buffer until its causes arrive.
-/

namespace CausalStore

/-- The replicated state of one node. -/
structure Engine where
  localId : NodeId
  clock : Clock
  store : Store
  pending : List Update
  deriving DecidableEq

/-- What became of a received update. -/
inductive Delivery where
  | discarded
  | buffered
  /-- Applied, and after it `drained` updates of the buffer. -/
  | applied (drained : Nat)
  deriving DecidableEq

namespace Engine

/-- An engine that has seen nothing. -/
def new (localId : NodeId) : Engine := ⟨localId, .seeded localId, .empty, []⟩

/-- Stores an update and covers its clock. -/
def apply (e : Engine) (u : Update) : Engine :=
  { e with clock := e.clock.merge u.clock, store := e.store.insert u.key u.entry }

/-- What one pass over buffered updates leaves. -/
structure Pass where
  engine : Engine
  kept : List Update
  applied : Nat

/-- One pass over buffered updates, in order: those that are covered go, those that are next are
applied at once, and the rest are kept. The buffer of `e` is not looked at. -/
def sweep (e : Engine) : List Update → Pass
  | [] => ⟨e, [], 0⟩
  | u :: rest =>
    if e.clock.dominates u.clock then e.sweep rest
    else if e.clock.admits u.origin u.clock then
      let pass := (e.apply u).sweep rest
      { pass with applied := pass.applied + 1 }
    else
      let pass := e.sweep rest
      { pass with kept := u :: pass.kept }

theorem length_sweep (e : Engine) (updates : List Update) :
    (e.sweep updates).kept.length + (e.sweep updates).applied ≤ updates.length := by
  induction updates generalizing e with
  | nil => simp [sweep]
  | cons u rest ih =>
    simp only [sweep, List.length_cons]
    split
    · have := ih e; omega
    · split
      · have := ih (e.apply u); dsimp only; omega
      · have := ih e; simp only [List.length_cons]; omega

/-- Repeats passes over `updates` until one applies nothing, and leaves what is kept in the buffer.
Counts the applied. -/
def drain (e : Engine) (updates : List Update) : Engine × Nat :=
  let pass := e.sweep updates
  if _h : pass.applied = 0 then ({ pass.engine with pending := pass.kept }, 0)
  else
    let (e', applied) := pass.engine.drain pass.kept
    (e', pass.applied + applied)
termination_by updates.length
decreasing_by
  have := length_sweep e updates
  have : (e.sweep updates).applied ≠ 0 := _h
  omega

/-- Applies every buffered update that can be, and drops those that are covered. Counts the applied. -/
def reconcile (e : Engine) : Engine × Nat := e.drain e.pending

/-- A write of this node: the next count of its own, stored at once. -/
def write (e : Engine) (key value : String) : Except ClockError (Engine × Update) := do
  let clock ← e.clock.increment e.localId
  let update : Update := ⟨key, value, e.localId, clock⟩
  let e := { e with clock, store := e.store.insert key update.entry }
  return (e.reconcile.1, update)

/-- An update from elsewhere. -/
def receive (e : Engine) (u : Update) : Engine × Delivery :=
  if e.clock.dominates u.clock then (e, .discarded)
  else if e.clock.admits u.origin u.clock then
    let (e', drained) := (e.apply u).reconcile
    (e', .applied drained)
  else if u ∈ e.pending then (e, .buffered)
  else ({ e with pending := e.pending ++ [u] }, .buffered)

/-- Lists a node in the clock. -/
def addServer (e : Engine) (id : NodeId) : Engine := { e with clock := e.clock.addDimension id }

/-- Covers a clock without looking at the buffer. -/
def mergeClock (e : Engine) (c : Clock) : Engine := { e with clock := e.clock.merge c }

end Engine

end CausalStore
