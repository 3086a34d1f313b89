import CausalStore.Exchange
import CausalStore.Outbox

/-!
# Delivery and retry

A message is first tried once. If that fails it waits in the outbox, and a retry pass tries
everything that waits there, each peer's messages one after the other in a batch of their own. What
gets through is taken out, whatever the peer replied.
-/

namespace CausalStore

/-- A message for a peer, to be tried for the first time. -/
structure Send where
  peer : Peer
  message : Message
  deriving DecidableEq

def Send.endpoint (s : Send) : Endpoint := s.peer.endpoint s.message.channel

/-- What a retry pass did. -/
structure RetryReport where
  attempted : Nat
  delivered : Nat
  deriving DecidableEq

/-- One more attempt, which ended with `outcome`. -/
def RetryReport.count (r : RetryReport) : Outcome → RetryReport
  | .ok _ => ⟨r.attempted + 1, r.delivered + 1⟩
  | .error _ => ⟨r.attempted + 1, r.delivered⟩

namespace Outbox

/-- The queues after the first attempt of a send. -/
def afterSend (o : Outbox) (s : Send) : Outcome → Outbox
  | .ok _ => o
  | .error _ => o.enqueue s.peer s.message

/-- The queues after a retry of the message `id` for a peer. -/
def afterRetry (o : Outbox) (p : Peer) (id : UInt64) : Outcome → Outbox
  | .ok _ => o.remove p.address id
  | .error _ => o

end Outbox

end CausalStore
