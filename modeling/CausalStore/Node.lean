import CausalStore.Dispatch
import CausalStore.Membership
import CausalStore.Settings

/-!
# A node

A node is its settings, the engine, the directory and the outbound queues. Everything it does is a
function of these: what it writes, how it answers a message, and what the end of an exchange changes.
Carrying the messages is left to the surroundings.
-/

namespace CausalStore

structure Node where
  settings : Settings
  engine : Engine
  directory : Directory
  outbox : Outbox
  deriving DecidableEq

namespace Node

/-- A node that has seen nothing. -/
def fresh (s : Settings) : Node := ⟨s, .new s.nodeId, .empty, .empty⟩

/-- A fresh node, unless its settings are at fault. -/
def start (s : Settings) : Except SettingsError Node :=
  match s.fault? with
  | some fault => .error fault
  | none => .ok (fresh s)

def identity (n : Node) : Peer := n.settings.identity

def membership (n : Node) : Membership := ⟨n.identity, n.directory⟩

/-! ## Clients -/

def get (n : Node) (key : String) : Option String := n.engine.store.value? key

/-- Every entry, by key. -/
def dump (n : Node) : List (String × Entry) := n.engine.store.entries

/-- Writes a value; the update is then to be sent as `broadcast` says. -/
def put (n : Node) (key value : String) : Except ClockError (Node × Update) := do
  let (engine, update) ← n.engine.write key value
  return ({ n with engine }, update)

/-- The sends that carry an update to every peer. -/
def broadcast (n : Node) (u : Update) : List Send := n.directory.peers.map fun p => ⟨p, .update u⟩

/-! ## Messages -/

/-- Takes note of a peer that presents itself, in the directory and in the clock. The node's own
identity, or one that counts as the same peer, is passed over. -/
def meet (n : Node) (p : Peer) : Node :=
  if p.same n.identity then n
  else { n with directory := (n.membership.learn p).directory, engine := n.engine.addServer p.id }

/-- An update from elsewhere. -/
def receive (n : Node) (u : Update) : Node × Delivery :=
  let (engine, delivery) := n.engine.receive u
  ({ n with engine }, delivery)

/-- Takes a message and gives the reply, if there is one. Replies are not expected here. -/
def handle (n : Node) (m : Message) : Except ProtocolError (Node × Option Message) :=
  match m with
  | .update u => .ok ((n.receive u).1, none)
  | .joinRequest requester =>
    let n := n.meet requester
    .ok (n, some (.joinResponse (n.membership.joinResponseFor requester)))
  | .newPeerAnnounce peer => .ok (n.meet peer, none)
  | .stateRequest => .ok (n, some (.stateResponse n.engine.capture))
  | .joinResponse _ | .stateResponse _ => .error (.unsolicited m.kind.name)

/-- Takes a message that arrived on a channel, if that is its own. -/
def handleOn (n : Node) (c : Channel) (m : Message) : Except ProtocolError (Node × Option Message) :=
  if m.channel = c then n.handle m else .error (.wrongChannel m.kind.name c.name)

/-! ## Joining -/

/-- Takes in the end of the join request to the seed: peers go into the directory and the clock. -/
def concludeJoin (n : Node) (seed : Seed) (outcome : Outcome) :
    Except RequestError (Node × JoinOutcome) := do
  let (membership, joined) ← n.membership.concludeJoin seed outcome
  let engine := joined.learned.foldl (fun e p => e.addServer p.id) n.engine
  return ({ n with directory := membership.directory, engine }, joined)

/-- The sends that announce the node after it joined through `seed`. -/
def announcements (n : Node) (seed : Peer) : List Send :=
  (n.membership.announceTargets seed).map fun p => ⟨p, n.membership.announcement⟩

/-- Takes in the end of a state request. -/
def concludeTransfer (n : Node) (outcome : Outcome) :
    Except RequestError (Node × InstallReport) := do
  let (engine, report) := n.engine.install (← snapshotReply outcome)
  return ({ n with engine }, report)

/-! ## Deliveries -/

def afterSend (n : Node) (s : Send) (outcome : Outcome) : Node :=
  { n with outbox := n.outbox.afterSend s outcome }

def afterRetry (n : Node) (p : Peer) (id : UInt64) (outcome : Outcome) : Node :=
  { n with outbox := n.outbox.afterRetry p id outcome }

/-- What the periodic reconciliation does. -/
def reconcile (n : Node) : Node := { n with engine := n.engine.reconcile.1 }

end Node

end CausalStore
