import CausalStore.Exchange

/-!
# The simulated network

A network is told how each host behaves and which node serves which port. Times are in milliseconds.
-/

namespace CausalStore.Simulation

/-- How exchanges with a host end. -/
inductive Mode where
  | up
  | down (reason : String)
  | rejecting (status : UInt16)
  | garbling (reason : String)
  /-- Nothing comes back for so long, and then the exchange is given up. -/
  | slow (time : Nat)
  deriving DecidableEq

namespace Mode

/-- The error in which an exchange ends that does not get through. -/
def error? (e : Endpoint) : Mode → Option ExchangeError
  | .up => none
  | .down reason => some (.unreachable e.render reason)
  | .rejecting status => some (.rejected e.render status)
  | .garbling reason => some (.undecodable e.render reason)
  | .slow _ => some (.unreachable e.render "timed out")

/-- How long it takes until the error is known. -/
def delay : Mode → Nat
  | .slow time => time
  | _ => 0

end Mode

/-- Who can be reached at a host that is up. -/
inductive Coverage where
  | nobody
  /-- The endpoints of the nodes. -/
  | nodes
  /-- Everybody; messages are taken and never answered. -/
  | everybody
  deriving DecidableEq

/-- What serves a port: a node, by its number, on one of its channels. -/
structure Route where
  node : Nat
  channel : Channel
  deriving DecidableEq

structure Network where
  coverage : Coverage
  modes : SortedMap String Mode
  routes : SortedMap Address Route

namespace Network

def empty (coverage : Coverage) : Network := ⟨coverage, .empty, .empty⟩

/-- Hosts are up unless told otherwise. -/
def mode (n : Network) (host : String) : Mode := (n.modes.get? host).getD .up

def setMode (n : Network) (host : String) (m : Mode) : Network :=
  { n with modes := n.modes.insert host m }

/-- Serves the three ports of a node, in place of what they served before. -/
def serve (n : Network) (node : Nat) (p : Peer) : Network :=
  let add (routes : SortedMap Address Route) (c : Channel) : SortedMap Address Route :=
    routes.insert ⟨p.host, p.port c⟩ ⟨node, c⟩
  { n with routes := Channel.all.foldl add n.routes }

def route? (n : Network) (a : Address) : Option Route := n.routes.get? a

def unroute (n : Network) (a : Address) : Network := { n with routes := n.routes.erase a }

end Network

end CausalStore.Simulation
