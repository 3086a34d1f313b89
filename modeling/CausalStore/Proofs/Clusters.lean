import CausalStore.Node
import CausalStore.Proofs.Groups
import Mathlib.Data.Fintype.Basic

/-!
# Clusters

Nodes with all that is under way between them: what they have yet to send, the exchanges that did
not end, and every message that was sent, of which a copy may come late or again. A node answers
what arrives as `Node.handleOn` says, and its exchanges end with that answer or in an error, whether
or not they arrived.
-/

namespace CausalStore

/-- What an exchange is for. -/
inductive Errand where
  /-- A first attempt. -/
  | send (s : Send)
  /-- The retry of a message, with the rest of the peer's batch behind it. -/
  | retry (p : Peer) (q : Queued) (rest : List Queued)
  | join (self : Peer) (seed : Seed)
  | transfer (source : Peer)
  deriving DecidableEq

namespace Errand

def message : Errand → Message
  | send s => s.message
  | retry _ q _ => q.message
  | join self _ => .joinRequest self
  | transfer _ => .stateRequest

def endpoint : Errand → Endpoint
  | send s => s.endpoint
  | retry p q _ => p.endpoint q.message.channel
  | join _ seed => seed.endpoint
  | transfer source => source.endpoint .stateTransfer

/-- The retries that begin with a batch. -/
def batch (p : Peer) : List Queued → List Errand
  | [] => []
  | q :: rest => [.retry p q rest]

end Errand

/-- What a node has yet to start. -/
inductive Duty where
  /-- Sending a write to the peers. -/
  | broadcast (u : Update)
  /-- Announcing itself to the peers, and taking over the state of the one that let it in. -/
  | settle (seed : Peer)
  deriving DecidableEq

def Duty.errands (n : Node) : Duty → List Errand
  | broadcast u => (n.broadcast u).map .send
  | settle seed => (n.announcements seed).map .send ++ [.transfer seed]

/-- The reply to a message, and what the node that gave it had in its history. -/
structure Reply where
  message : Option Message
  history : Finset Update
  deriving DecidableEq

def Reply.capture? : Reply → Option Capture
  | ⟨some (.stateResponse s), h⟩ => some ⟨s, h⟩
  | _ => none

/-- An exchange that did not end. It has no reply while nobody has handled the message. -/
structure Exchange (ι : Type) where
  source : ι
  errand : Errand
  reply : Option Reply
  deriving DecidableEq

/-- The snapshot that was sent back. -/
def Exchange.capture? {ι : Type} (x : Exchange ι) : Option Capture := x.reply.bind (·.capture?)

/-- How an exchange ends: in an error, or with its reply. -/
def Exchange.outcome? {ι : Type} (x : Exchange ι) : Option ExchangeError → Option Outcome
  | some e => some (.error e)
  | none => x.reply.map fun r => .ok r.message

structure Cluster (ι : Type) extends Log ι where
  node : ι → Node
  duties : List (ι × Duty)
  exchanges : List (Exchange ι)
  /-- Where which messages were sent. -/
  sent : List (Endpoint × Message)
  /-- Who installed which snapshots. -/
  installs : List (ι × Capture)
  /-- How many messages each node has queued. -/
  queued : ι → Nat

/-- Nothing was done with the node, except that it may know peers. -/
structure Node.Unused (n : Node) : Prop where
  engine : n.engine.Unused
  localId : n.engine.localId = n.settings.nodeId
  outbox : n.outbox = .empty

theorem Node.Unused.fresh (s : Settings) : (Node.fresh s).Unused := ⟨.new, rfl, rfl⟩

namespace Cluster

variable {ι : Type} [DecidableEq ι]

inductive Action (ι : Type) where
  | put (i : ι) (key value : String)
  | perform (i : ι) (d : Duty)
  | retry (i : ι) (a : Address)
  | join (i : ι)
  | bootstrap (i : ι) (source : Peer)
  | reconcile (i : ι)
  /-- The message of an exchange comes to `j`. -/
  | arrive (x : Exchange ι) (j : ι)
  /-- A copy of a message that was sent comes to `j`. -/
  | stray (e : Endpoint) (m : Message) (j : ι)
  | finish (x : Exchange ι) (failure : Option ExchangeError)

def start (node : ι → Node) : Cluster ι := ⟨.empty, node, [], [], [], [], fun _ => 0⟩

/-- The engines, and what their run has brought. -/
def group (c : Cluster ι) : Group ι := { c.toLog with engine := fun i => (c.node i).engine }

/-- Whether messages to the endpoint come to `j`. -/
def Serves (c : Cluster ι) (j : ι) (e : Endpoint) : Prop :=
  (c.node j).identity.endpoint e.channel = e

instance {c : Cluster ι} {j : ι} {e : Endpoint} : Decidable (c.Serves j e) :=
  inferInstanceAs (Decidable (_ = _))

/-- Nothing is under way, and no message waits to be sent. -/
structure Quiet (c : Cluster ι) : Prop where
  duties : c.duties = []
  exchanges : c.exchanges = []
  outbox : ∀ i, (c.node i).outbox.waiting = []

instance [Fintype ι] {c : Cluster ι} : Decidable c.Quiet :=
  decidable_of_iff (c.duties = [] ∧ c.exchanges = [] ∧ ∀ i, (c.node i).outbox.waiting = [])
    ⟨fun ⟨hd, hx, ho⟩ => ⟨hd, hx, ho⟩, fun h => ⟨h.duties, h.exchanges, h.outbox⟩⟩

/-- The cluster with another node at `i`. -/
def set (c : Cluster ι) (i : ι) (n : Node) (l : Log ι) : Cluster ι :=
  { c with toLog := l, node := Function.update c.node i n }

/-- The cluster after `i` has started exchanges. -/
def launch (c : Cluster ι) (i : ι) (errands : List Errand) : Cluster ι :=
  { c with
    exchanges := c.exchanges ++ errands.map fun x => ⟨i, x, none⟩
    sent := errands.map (fun x => (x.endpoint, x.message)) ++ c.sent }

def owe (c : Cluster ι) (i : ι) (d : Duty) : Cluster ι := { c with duties := (i, d) :: c.duties }

def put (c : Cluster ι) (i : ι) (key value : String) : Option (Cluster ι) :=
  match (c.node i).put key value with
  | .error _ => none
  | .ok (n, u) => some ((c.set i n (c.group.wrote i n.engine u).toLog).owe i (.broadcast u))

def discharge (c : Cluster ι) (i : ι) (d : Duty) : Cluster ι :=
  { c with duties := c.duties.erase (i, d) }

def perform (c : Cluster ι) (i : ι) (d : Duty) : Option (Cluster ι) :=
  if (i, d) ∈ c.duties then some ((c.launch i (d.errands (c.node i))).discharge i d) else none

def retry (c : Cluster ι) (i : ι) (a : Address) : Option (Cluster ι) :=
  match (c.node i).outbox.queues.get? a with
  | some ⟨p, q :: rest⟩ => some (c.launch i [.retry p q rest])
  | _ => none

def join (c : Cluster ι) (i : ι) : Option (Cluster ι) :=
  (c.node i).settings.seed.map fun seed => c.launch i [.join (c.node i).identity seed]

/-- What `j` has brought when it has handled a message. -/
def handled (c : Cluster ι) (j : ι) : Message → Log ι
  | .update u => (c.group.received j u).toLog
  | .stateRequest => (c.group.captured j).toLog
  | _ => c.toLog

def handle (c : Cluster ι) (j : ι) (channel : Channel) (m : Message) : Option (Cluster ι × Reply) :=
  match (c.node j).handleOn channel m with
  | .error _ => none
  | .ok (n, reply) => some (c.set j n (c.handled j m), ⟨reply, c.history j⟩)

def answer (c : Cluster ι) (x : Exchange ι) (r : Reply) : Cluster ι :=
  { c with exchanges := { x with reply := some r } :: c.exchanges.erase x }

def arrive (c : Cluster ι) (x : Exchange ι) (j : ι) : Option (Cluster ι) :=
  if x ∈ c.exchanges ∧ x.reply = none ∧ c.Serves j x.errand.endpoint then
    (c.handle j x.errand.endpoint.channel x.errand.message).map fun (c, r) => c.answer x r
  else none

def stray (c : Cluster ι) (e : Endpoint) (m : Message) (j : ι) : Option (Cluster ι) :=
  if (e, m) ∈ c.sent ∧ c.Serves j e then (c.handle j e.channel m).map (·.1) else none

def afterSend (c : Cluster ι) (i : ι) (s : Send) (outcome : Outcome) : Cluster ι :=
  { c.set i ((c.node i).afterSend s outcome) c.toLog with
    queued := Function.update c.queued i <|
      match outcome with
      | .ok _ => c.queued i
      | .error _ => c.queued i + 1 }

/-- The cluster after a retry, with which that of the next message begins. -/
def afterRetry (c : Cluster ι) (i : ι) (p : Peer) (q : Queued) (rest : List Queued)
    (outcome : Outcome) : Cluster ι :=
  (c.set i ((c.node i).afterRetry p q.id outcome) c.toLog).launch i (Errand.batch p rest)

def afterJoin (c : Cluster ι) (i : ι) (seed : Seed) (outcome : Outcome) : Cluster ι :=
  match (c.node i).concludeJoin seed outcome with
  | .error _ => c
  | .ok (n, joined) => (c.set i n c.toLog).owe i (.settle joined.seed)

def afterTransfer (c : Cluster ι) (i : ι) (capture : Option Capture) (outcome : Outcome) :
    Cluster ι :=
  match (c.node i).concludeTransfer outcome, capture with
  | .ok (n, _), some k =>
    { c.set i n (c.group.installed i k).toLog with installs := (i, k) :: c.installs }
  | _, _ => c

/-- What the source of an exchange makes of its end. -/
def conclude (c : Cluster ι) (x : Exchange ι) (outcome : Outcome) : Cluster ι :=
  match x.errand with
  | .send s => c.afterSend x.source s outcome
  | .retry p q rest => c.afterRetry x.source p q rest outcome
  | .join _ seed => c.afterJoin x.source seed outcome
  | .transfer _ => c.afterTransfer x.source x.capture? outcome

def close (c : Cluster ι) (x : Exchange ι) : Cluster ι :=
  { c with exchanges := c.exchanges.erase x }

def finish (c : Cluster ι) (x : Exchange ι) (failure : Option ExchangeError) : Option (Cluster ι) :=
  if x ∈ c.exchanges then (x.outcome? failure).map fun o => (c.conclude x o).close x else none

def step (c : Cluster ι) : Action ι → Option (Cluster ι)
  | .put i key value => c.put i key value
  | .perform i d => c.perform i d
  | .retry i a => c.retry i a
  | .join i => c.join i
  | .bootstrap i source => some (c.launch i [.transfer source])
  | .reconcile i => some (c.set i (c.node i).reconcile (c.group.reconciled i).toLog)
  | .arrive x j => c.arrive x j
  | .stray e m j => c.stray e m j
  | .finish x failure => c.finish x failure

/-- Who writes in an action. -/
def writing : Action ι → Option ι
  | .put i _ _ => some i
  | _ => none

/-- The snapshot that an action installs, and where. -/
def installing : Action ι → Option (ι × Capture)
  | .finish ⟨i, .transfer source, reply⟩ none =>
    (Exchange.capture? ⟨i, .transfer source, reply⟩).map fun k => (i, k)
  | _ => none

/-- Whose join request an action brings, and to whom. -/
def asking : Action ι → Option (ι × ι)
  | .arrive ⟨i, .join _ _, _⟩ j => some (i, j)
  | _ => none

/-- Whose join request ends in an action, and what comes of it. -/
def joinEnd? (c : Cluster ι) : Action ι → Option (ι × Except RequestError (Node × JoinOutcome))
  | .finish ⟨i, .join self seed, reply⟩ failure =>
    (Exchange.outcome? ⟨i, .join self seed, reply⟩ failure).map fun o =>
      (i, (c.node i).concludeJoin seed o)
  | _ => none

end Cluster

end CausalStore
