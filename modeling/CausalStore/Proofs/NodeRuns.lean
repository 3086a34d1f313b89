import CausalStore.Proofs.EngineRuns
import CausalStore.Proofs.Moves

/-!
# Runs of a node

All that can happen to one node, whatever the others send and answer (`Node.Action`). To its engine
a run of the node is a run of the engine (`Node.actAll_engine`), and what its directory knows it
goes on to know.
-/

namespace CausalStore
namespace Node

variable {n : Node} {p : Peer}

/-- What can happen to a node. -/
inductive Action where
  | put (key value : String)
  | handle (m : Message)
  /-- The join request to the configured seed has ended. -/
  | join (outcome : Outcome)
  /-- A state request has ended. -/
  | transfer (outcome : Outcome)
  | reconcile
  /-- The first attempt of a send has ended. -/
  | sent (s : Send) (outcome : Outcome)
  /-- The retry of a queued message has ended. -/
  | retried (p : Peer) (id : UInt64) (outcome : Outcome)

/-- The node after an action. What fails leaves it as it was. -/
def act (n : Node) : Action → Node
  | .put key value => leaves n (n.put key value)
  | .handle m => leaves n (n.handle m)
  | .join outcome =>
    match n.settings.seed with
    | some seed => leaves n (n.concludeJoin seed outcome)
    | none => n
  | .transfer outcome => leaves n (n.concludeTransfer outcome)
  | .reconcile => n.reconcile
  | .sent s outcome => n.afterSend s outcome
  | .retried p id outcome => n.afterRetry p id outcome

/-- The node after actions, one after the other. -/
def actAll (n : Node) (as : List Action) : Node := as.foldl act n

/-! ## What a node does with a message -/

theorem act_handle_update (n : Node) (u : Update) :
    n.act (.handle (.update u)) = { n with engine := (n.engine.receive u).1 } := rfl

/-! ## What an action changes -/

/-- The changes of a node that its actions make. -/
inductive Change (n : Node) : Node → Prop
  | nothing : Change n n
  | engine (a : Engine.Action) : Change n { n with engine := n.engine.act a }
  | meet (p : Peer) : Change n (n.meet p)
  | learn {ps : List Peer} : (∀ p ∈ ps, p.same n.identity = false) → Change n (n.learnAll ps)
  | outbox (o : Outbox) : Change n { n with outbox := o }

theorem change_leaves {ε α : Type} {r : Except ε (Node × α)}
    (h : ∀ n' x, r = .ok (n', x) → n.Change n') : n.Change (leaves n r) := by
  cases r with
  | ok p => exact h p.1 p.2 rfl
  | error x => exact .nothing

theorem concludeJoin_change {n' : Node} {seed : Seed} {o : Outcome} {joined : JoinOutcome}
    (h : n.concludeJoin seed o = .ok (n', joined)) : n.Change n' := by
  obtain ⟨ps, -, hlearned, -, rfl⟩ := concludeJoin_eq_ok h
  refine .learn fun p hp => ?_
  rw [hlearned] at hp
  simpa using (List.mem_filter.1 hp).2

theorem act_change (n : Node) (a : Action) : n.Change (n.act a) := by
  cases a with
  | put key value =>
    refine change_leaves fun n' u hput => ?_
    obtain ⟨e, hw, rfl⟩ := put_eq_ok hput
    have he : n.engine.act (.write key value) = e := by rw [Engine.act, hw, leaves]
    exact he ▸ .engine (.write key value)
  | handle m =>
    cases m with
    | update u => exact .engine (.receive u)
    | joinRequest p | newPeerAnnounce p => exact .meet p
    | stateRequest | joinResponse ps | stateResponse s => exact .nothing
  | join outcome =>
    rw [act]
    cases n.settings.seed with
    | none => exact .nothing
    | some seed => exact change_leaves fun n' joined hjoin => concludeJoin_change hjoin
  | transfer outcome =>
    refine change_leaves fun n' report htransfer => ?_
    obtain ⟨s, -, rfl⟩ := concludeTransfer_eq_ok htransfer
    exact .engine (.install s)
  | reconcile => exact .engine .reconcile
  | sent s outcome | retried p id outcome => exact .outbox _

/-! ## The engine of a node -/

theorem meet_engine (n : Node) (p : Peer) : (n.meet p).engine = n.engine ∨
    (n.meet p).engine = n.engine.addServer p.id := by
  unfold meet
  split
  next => exact .inl rfl
  next => exact .inr rfl

/-- Whatever happens to a node is a run of its engine. -/
theorem Change.engine_run {n' : Node} (h : n.Change n') :
    ∃ as, n'.engine = n.engine.actAll as := by
  cases h with
  | nothing | outbox o => exact ⟨[], rfl⟩
  | engine a => exact ⟨[a], rfl⟩
  | meet p =>
    obtain h | h := n.meet_engine p
    · exact ⟨[], h⟩
    · exact ⟨[.addServer p.id], h⟩
  | @learn ps =>
    refine ⟨ps.map fun p => .addServer p.id, ?_⟩
    rw [Engine.actAll, List.foldl_map]
    rfl

theorem actAll_engine (n : Node) (as : List Action) :
    ∃ bs, (n.actAll as).engine = n.engine.actAll bs := by
  induction as generalizing n with
  | nil => exact ⟨[], rfl⟩
  | cons a as ih =>
    obtain ⟨bs, hbs⟩ := (n.act_change a).engine_run
    obtain ⟨cs, hcs⟩ := ih (n.act a)
    refine ⟨bs ++ cs, ?_⟩
    rw [Engine.actAll_append, ← hbs]
    exact hcs

/-! ## What stays -/

theorem Change.settings {n' : Node} (h : n.Change n') : n'.settings = n.settings := by
  cases h with
  | meet p => exact n.meet_settings p
  | nothing | engine a | learn | outbox o => rfl

/-- No address is forgotten. -/
theorem Change.contains {n' : Node} (h : n.Change n') (hp : n.directory.contains p = true) :
    n'.directory.contains p = true := by
  cases h with
  | meet q =>
    obtain hd | ⟨-, hd⟩ := n.meet_directory q
    · rwa [hd]
    · rw [hd]
      exact Directory.contains_add hp q
  | learn => exact Directory.contains_foldl_add (.inl hp)
  | nothing | engine a | outbox o => exact hp

end Node
end CausalStore
