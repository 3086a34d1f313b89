import CausalStore.Proofs.Histories
import CausalStore.Proofs.Operations
import CausalStore.Proofs.Runs

/-!
# Engines that exchange updates and snapshots

A group is a family of engines with what their run has brought so far: who made which write, what
each engine has in its history, and the snapshots that were taken. Updates and snapshots may arrive
anywhere, in any order, late, repeatedly or never.
-/

namespace CausalStore

/-- Nothing was written, applied or buffered, though the clock may list nodes. -/
structure Engine.Unused (e : Engine) : Prop where
  clock : ∀ o, e.clock.count o = 0
  store : e.store = .empty
  pending : e.pending = []

theorem Engine.Unused.new {id : NodeId} : (Engine.new id).Unused :=
  ⟨fun _ => Clock.count_seeded, rfl, rfl⟩

/-- A write with what its author had in its history just before. -/
structure Write where
  update : Update
  past : Finset Update

/-- A snapshot with what the engine that it was taken from had in its history. -/
structure Capture where
  snapshot : Snapshot
  history : Finset Update
  deriving DecidableEq

/-- What a run has brought so far. -/
structure Log (ι : Type) where
  /-- The writes that each engine made, applied, or took over with a snapshot. -/
  history : ι → Finset Update
  /-- The writes made, the latest first. -/
  writes : List Write
  captures : List Capture

def Log.empty {ι : Type} : Log ι := ⟨fun _ => ∅, [], []⟩

/-- The updates of the writes made, the latest first. -/
def Log.made {ι : Type} (l : Log ι) : List Update := l.writes.map (·.update)

structure Group (ι : Type) extends Log ι where
  engine : ι → Engine

namespace Group

variable {ι : Type} [DecidableEq ι]

inductive Action (ι : Type) where
  | write (i : ι) (key value : String)
  | receive (i : ι) (u : Update)
  | addServer (i : ι) (id : NodeId)
  | reconcile (i : ι)
  | capture (i : ι)
  | install (i : ι) (c : Capture)

/-- `u` was in the history of the author of `v` just before `v` was made. -/
def HappenedBefore (g : Group ι) (u v : Update) : Prop := ∃ w ∈ g.writes, w.update = v ∧ u ∈ w.past

/-- Engines that have seen nothing. -/
def start (ids : ι → NodeId) : Group ι := ⟨.empty, fun i => .new (ids i)⟩

/-- The group with another engine at `i`, which has gained writes. -/
def set (g : Group ι) (i : ι) (e : Engine) (gained : Finset Update) : Group ι :=
  { g with
    engine := Function.update g.engine i e
    history := Function.update g.history i (g.history i ∪ gained) }

def wrote (g : Group ι) (i : ι) (e : Engine) (u : Update) : Group ι :=
  { g.set i e (insert u ((g.engine i).record u).reconciled.toFinset) with
    writes := ⟨u, g.history i⟩ :: g.writes }

def received (g : Group ι) (i : ι) (u : Update) : Group ι :=
  g.set i ((g.engine i).receive u).1 ((g.engine i).delivered u).toFinset

def extended (g : Group ι) (i : ι) (id : NodeId) : Group ι := g.set i ((g.engine i).addServer id) ∅

def reconciled (g : Group ι) (i : ι) : Group ι :=
  g.set i (g.engine i).reconcile.1 (g.engine i).reconciled.toFinset

def captured (g : Group ι) (i : ι) : Group ι :=
  { g with captures := ⟨(g.engine i).capture, g.history i⟩ :: g.captures }

def installed (g : Group ι) (i : ι) (c : Capture) : Group ι :=
  g.set i ((g.engine i).install c.snapshot).1
    (c.history ∪ ((g.engine i).overwrite c.snapshot).reconciled.toFinset)

/-- What an action makes of a group. Only updates of writes that were made arrive, only snapshots
that were taken are installed, and a write fails when the writer's counter is full. -/
def step (g : Group ι) : Action ι → Option (Group ι)
  | .write i key value =>
    match (g.engine i).write key value with
    | .error _ => none
    | .ok (e, u) => some (g.wrote i e u)
  | .receive i u => if u ∈ g.made then some (g.received i u) else none
  | .addServer i id => some (g.extended i id)
  | .reconcile i => some (g.reconciled i)
  | .capture i => some (g.captured i)
  | .install i c => if c ∈ g.captures then some (g.installed i c) else none

end Group

end CausalStore
