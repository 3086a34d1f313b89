import CausalStore.Node
import CausalStore.Simulation.Network

/-!
# Nodes on a simulated network

A world holds nodes, the network between them and a clock. An exchange ends at once, unless the host
is slow; then the attempt hangs until its time has come.
-/

namespace CausalStore.Simulation

/-- What waits for the end of an exchange. -/
inductive Job where
  /-- A first attempt. -/
  | send (s : Send)
  /-- The retry of a message, with the rest of the peer's batch behind it. -/
  | retry (p : Peer) (message : Queued) (rest : List Queued)

namespace Job

/-- How many attempts are still to end. -/
def attempts : Job → Nat
  | .send _ => 1
  | .retry _ _ rest => rest.length + 1

end Job

/-- An attempt that ends in an error later. -/
structure Hanging where
  node : Nat
  due : Nat
  error : ExchangeError
  job : Job
  /-- The loop whose pass it belongs to; without one somebody waits for it. -/
  loop : Option Nat

/-- A loop that retries what is queued. While a pass is under way it does not tick. -/
structure RetryLoop where
  id : Nat
  node : Nat
  period : Nat
  next : Nat
  busy : Bool

/-- A loop that reconciles. -/
structure ReconcileLoop where
  id : Nat
  node : Nat
  period : Nat
  next : Nat

structure World where
  network : Network
  nodes : SortedMap Nat Node
  /-- The number of the next node. -/
  nextNode : Nat
  now : Nat
  /-- The exchanges that reached somebody, the latest first. -/
  reached : List (Endpoint × Message)
  hanging : List Hanging
  retryLoops : List RetryLoop
  reconcileLoops : List ReconcileLoop
  nextLoop : Nat
  /-- What the retry pass did that somebody waits for. -/
  report : RetryReport

/-- How an exchange goes. -/
inductive Contact where
  | ended (outcome : Outcome)
  | hangs (time : Nat) (error : ExchangeError)

namespace World

def empty (coverage : Coverage) : World where
  network := .empty coverage
  nodes := .empty
  nextNode := 0
  now := 0
  reached := []
  hanging := []
  retryLoops := []
  reconcileLoops := []
  nextLoop := 0
  report := ⟨0, 0⟩

/-- Adds a node that nobody can reach yet. -/
def add (w : World) (n : Node) : World :=
  { w with nodes := w.nodes.insert w.nextNode n, nextNode := w.nextNode + 1 }

def set (w : World) (number : Nat) (n : Node) : World :=
  { w with nodes := w.nodes.insert number n }

def update (w : World) (number : Nat) (f : Node → Node) : World :=
  match w.nodes.get? number with
  | some n => w.set number (f n)
  | none => w

def setMode (w : World) (host : String) (m : Mode) : World :=
  { w with network := w.network.setMode host m }

/-- The exchanges that reached somebody, by endpoint, in order within one endpoint. -/
def log (w : World) : List (Endpoint × Message) :=
  let key (e : Endpoint) : Address × String := (⟨e.host, e.port⟩, e.channel.name)
  let before (e f : Endpoint) : Bool :=
    KeyOrder.before (key e).1 (key f).1 || ((key e).1 = (key f).1 && (key e).2 ≤ (key f).2)
  w.reached.reverse.mergeSort fun a b => before a.1 b.1

def clearLog (w : World) : World := { w with reached := [] }

/-! ## Exchanges -/

/-- Hands a message to whoever is at an endpoint. -/
def arrive (w : World) (e : Endpoint) (m : Message) : Outcome × World :=
  let noted := { w with reached := (e, m) :: w.reached }
  if w.network.coverage = .everybody then (.ok none, noted)
  else
    match w.network.route? ⟨e.host, e.port⟩ with
    | none => (.error (.unreachable e.render "connection refused"), w)
    | some route =>
      match w.nodes.get? route.node with
      | none => (.error (.unreachable e.render "node dropped"), w)
      | some n =>
        match n.handleOn route.channel m with
        | .error _ => (.error (.rejected e.render 400), noted)
        | .ok (n, reply) => (.ok reply, noted.set route.node n)

/-- Starts an exchange. -/
def contact (w : World) (e : Endpoint) (m : Message) : Contact × World :=
  if w.network.coverage = .nobody then
    (.ended (.error (.unreachable e.render "connection refused")), w)
  else
    let mode := w.network.mode e.host
    match mode.error? e with
    | some error =>
      if mode.delay = 0 then (.ended (.error error), w) else (.hangs mode.delay error, w)
    | none =>
      let (outcome, w) := w.arrive e m
      (.ended outcome, w)

def hang (w : World) (node time : Nat) (error : ExchangeError) (loop : Option Nat) (job : Job) : World :=
  { w with hanging := w.hanging ++ [⟨node, w.now + time, error, job, loop⟩] }

/-! ## Deliveries -/

/-- The first attempt of a send. -/
def send (w : World) (node : Nat) (s : Send) : World :=
  match w.contact s.endpoint s.message with
  | (.ended outcome, w) => w.update node fun n => n.afterSend s outcome
  | (.hangs time error, w) => w.hang node time error none (.send s)

def sendAll (w : World) (node : Nat) (sends : List Send) : World :=
  sends.foldl (fun w s => w.send node s) w

/-- Takes in the end of a retry. -/
def endRetry (w : World) (node : Nat) (loop : Option Nat) (p : Peer) (id : UInt64) (outcome : Outcome) :
    World :=
  let w := w.update node fun n => n.afterRetry p id outcome
  if loop.isNone then { w with report := w.report.count outcome } else w

/-- Retries messages for a peer one after the other, until one hangs. -/
def retryBatch (w : World) (node : Nat) (loop : Option Nat) (p : Peer) : List Queued → World
  | [] => w
  | q :: rest =>
    match w.contact (p.endpoint q.message.channel) q.message with
    | (.ended outcome, w) => (w.endRetry node loop p q.id outcome).retryBatch node loop p rest
    | (.hangs time error, w) => w.hang node time error loop (.retry p q rest)

/-- Starts a retry pass over everything that a node has queued. -/
def retryPass (w : World) (node : Nat) (loop : Option Nat) : World :=
  match w.nodes.get? node with
  | none => w
  | some n =>
    n.outbox.waiting.foldl (fun w q => w.retryBatch node loop q.peer q.messages) w

/-- Ends an attempt that hung. -/
def conclude (w : World) (h : Hanging) : World :=
  match h.job with
  | .send s => w.update h.node fun n => n.afterSend s (.error h.error)
  | .retry p q rest =>
    (w.endRetry h.node h.loop p q.id (.error h.error)).retryBatch h.node h.loop p rest

end World

end CausalStore.Simulation
