import CausalStore.Simulation.Time

/-!
# What nodes of a simulated cluster do

Each operation of a node runs until everything that it started has come to its first end: attempts
that fail are queued, and slow ones let the time pass.
-/

namespace CausalStore.Simulation

/-- What a node did to join. -/
structure JoinReport where
  seed : Peer
  learned : List Peer
  announcedTo : List Peer
  /-- Without it the state transfer failed, and the node keeps the state that it had. -/
  installed : Option InstallReport

/-- The loops that a node was given. -/
structure Background where
  retry : Nat
  reconcile : Option Nat

/-- What became of a message that was handed over directly. -/
inductive Handed where
  | delivery (d : Delivery)
  | answer (reply : Except ProtocolError (Option Message))

namespace World

/-- The node `n` as it is by now. -/
def latest (w : World) (node : Nat) (n : Node) : Node := (w.nodes.get? node).getD n

/-- Starts a node and serves its ports. -/
def spawn (w : World) (s : Settings) : Except SettingsError World := do
  let n ← Node.start s
  return { w.add n with network := w.network.serve w.nextNode n.identity }

/-- Carries out sends to their first end. -/
def deliverAll (w : World) (node : Nat) (sends : List Send) : World := (w.sendAll node sends).settle

/-- Writes at a node, and replicates the write. -/
def put (w : World) (node : Nat) (n : Node) (key value : String) : Except ClockError (Clock × World) := do
  let (n, update) ← n.put key value
  return (update.clock, (w.set node n).deliverAll node (n.broadcast update))

def retry (w : World) (node : Nat) : RetryReport × World :=
  let w := ({ w with report := ⟨0, 0⟩ }.retryPass node none).settle
  (w.report, w)

/-! ## Joining -/

/-- Lets a node take in the end of a state request. -/
def concludeTransfer (w : World) (node : Nat) (n : Node) (outcome : Outcome) :
    Except RequestError InstallReport × World :=
  match (w.latest node n).concludeTransfer outcome with
  | .error e => (.error e, w)
  | .ok (n, report) => (.ok report, w.set node n)

/-- Lets a node take over the state of a peer. -/
def bootstrap (w : World) (node : Nat) (n : Node) (p : Peer) : Except RequestError InstallReport × World :=
  let (outcome, w) := w.exchange (p.endpoint .stateTransfer) .stateRequest
  w.concludeTransfer node n outcome

/-- Takes over the state of the seed and announces the node. The announcements go out as soon as the
state request has ended, or while it hangs. -/
def bootstrapAndAnnounce (w : World) (node : Nat) (n : Node) (seed : Peer)
    (announcements : List Send) : Except RequestError InstallReport × World :=
  match w.contact (seed.endpoint .stateTransfer) .stateRequest with
  | (.ended outcome, w) =>
    let (installed, w) := w.concludeTransfer node n outcome
    (installed, w.deliverAll node announcements)
  | (.hangs time error, w) =>
    let w := (w.sendAll node announcements).advance time
    let (installed, w) := w.concludeTransfer node n (.error error)
    (installed, w.settle)

/-- Lets a node join through its seed, if it has one. -/
def join (w : World) (node : Nat) (n : Node) : Except RequestError (Option JoinReport) × World :=
  match n.settings.seed with
  | none => (.ok none, w)
  | some seed =>
    let (outcome, w) := w.exchange seed.endpoint (.joinRequest n.identity)
    match (w.latest node n).concludeJoin seed outcome with
    | .error e => (.error e, w)
    | .ok (n, joined) =>
      let announcements := n.announcements joined.seed
      let (installed, w) := (w.set node n).bootstrapAndAnnounce node n joined.seed announcements
      (.ok (some ⟨joined.seed, joined.learned, announcements.map (·.peer), installed.toOption⟩), w)

/-! ## Background loops -/

/-- Gives a node a loop that retries. It ticks for the first time after one interval. -/
def startRetryLoop (w : World) (node period : Nat) : World :=
  if period = 0 then w
  else
    { w with
      retryLoops := w.retryLoops ++ [⟨w.nextLoop, node, period, w.now + period, false⟩]
      nextLoop := w.nextLoop + 1 }

/-- Gives a node a loop that reconciles, beginning now. -/
def startReconcileLoop (w : World) (node period : Nat) : World :=
  if period = 0 then w
  else
    { w.update node Node.reconcile with
      reconcileLoops := w.reconcileLoops ++ [⟨w.nextLoop, node, period, w.now + period⟩]
      nextLoop := w.nextLoop + 1 }

def startBackground (w : World) (node : Nat) (s : Settings) : Background × World :=
  let retry := w.nextLoop
  let w := w.startRetryLoop node s.retryInterval.toNat
  match s.reconcileInterval with
  | none => (⟨retry, none⟩, w)
  | some period => (⟨retry, some w.nextLoop⟩, w.startReconcileLoop node period.toNat)

/-- Stops loops, and the pass that is under way. -/
def stopBackground (w : World) (b : Background) : World :=
  { w with
    hanging := w.hanging.filter (·.loop ≠ some b.retry)
    retryLoops := w.retryLoops.filter (·.id ≠ b.retry)
    reconcileLoops := w.reconcileLoops.filter fun l => some l.id ≠ b.reconcile }

/-- Takes a node out of the world, with its loops. -/
def drop (w : World) (node : Nat) : World :=
  { w with
    nodes := w.nodes.erase node
    hanging := w.hanging.filter (·.node ≠ node)
    retryLoops := w.retryLoops.filter (·.node ≠ node)
    reconcileLoops := w.reconcileLoops.filter (·.node ≠ node) }

/-! ## Messages handed over by hand -/

/-- Hands a message to a node directly. -/
def hand (w : World) (node : Nat) (n : Node) (m : Message) : Handed × World :=
  match m with
  | .update u =>
    let (n, delivery) := n.receive u
    (.delivery delivery, w.set node n)
  | m =>
    match n.handle m with
    | .error e => (.answer (.error e), w)
    | .ok (n, reply) => (.answer (.ok reply), w.set node n)

/-- Hands what `source` has queued for the node `target` to it, at the given places of the queue,
counted round and round. The queue stays as it is. -/
def handOver (w : World) (source target : Nat) (places : List Nat) : List Handed × World :=
  match w.nodes.get? source, w.nodes.get? target with
  | some s, some t =>
    let queue := s.outbox.pendingFor t.identity.address
    let messages := places.filterMap fun i => (queue[i % queue.length]?).map (·.message)
    messages.foldl (fun (handed, w) m =>
      let (h, w) := w.hand target (w.latest target t) m
      (handed ++ [h], w)) ([], w)
  | _, _ => ([], w)

end World

end CausalStore.Simulation
