import CausalStore.Message

/-!
# Outbound queues

Messages that could not be delivered wait in one queue for each address, under ids that grow over
all queues. A queue keeps the identity that it was opened for, and stays when it runs empty. It lists
its messages as they came, which is by their ids as long as these do not run out.
-/

namespace CausalStore

/-- A waiting message. -/
structure Queued where
  id : UInt64
  message : Message
  deriving DecidableEq

structure Queue where
  peer : Peer
  messages : List Queued
  deriving DecidableEq

structure Outbox where
  nextId : UInt64
  queues : SortedMap Address Queue
  deriving DecidableEq

namespace Outbox

def empty : Outbox := ⟨0, .empty⟩

/-- What waits for an address, in the order in which it was put there. -/
def pendingFor (o : Outbox) (a : Address) : List Queued :=
  match o.queues.get? a with
  | some q => q.messages
  | none => []

/-- Puts a message at the end of the peer's queue, under the id `o.nextId`. -/
def enqueue (o : Outbox) (p : Peer) (m : Message) : Outbox where
  nextId := o.nextId + 1
  queues := o.queues.upsert p.address fun old =>
    let q := old.getD ⟨p, []⟩
    { q with messages := q.messages ++ [⟨o.nextId, m⟩] }

/-- Whether an id waits for an address. -/
def holds (o : Outbox) (a : Address) (id : UInt64) : Bool := (o.pendingFor a).any (·.id = id)

/-- Takes a message out of the queue of an address. -/
def remove (o : Outbox) (a : Address) (id : UInt64) : Outbox :=
  match o.queues.get? a with
  | none => o
  | some q =>
    { o with queues := o.queues.insert a { q with messages := q.messages.filter (·.id ≠ id) } }

def sizeFor (o : Outbox) (a : Address) : Nat := (o.pendingFor a).length

/-- The queues in which something waits, by address. -/
def waiting (o : Outbox) : List Queue :=
  (o.queues.entries.map (·.2)).filter fun q => !q.messages.isEmpty

def peersWithPending (o : Outbox) : List Peer := o.waiting.map (·.peer)

/-- How much waits for each peer for which something does. -/
def backlog (o : Outbox) : List (Peer × Nat) := o.waiting.map fun q => (q.peer, q.messages.length)

def size (o : Outbox) : Nat := o.queues.entries.foldl (fun n e => n + e.2.messages.length) 0

end Outbox

end CausalStore
