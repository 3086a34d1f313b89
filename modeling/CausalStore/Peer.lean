import CausalStore.Clock

/-!
# Peers and where to reach them

A peer serves three channels at one host, each on a port of its own. Two identities count as the
same peer when they share the node id or the address, which is the host with the replication port.
-/

namespace CausalStore

abbrev Port := UInt16

def Port.render (p : Port) : String := Decimal.text p.toNat

/-- `host:port`. -/
def renderHostPort (host : String) (port : Port) : String := host ++ ":" ++ port.render

/-- The channels between nodes. -/
inductive Channel where
  | replication
  | discovery
  | stateTransfer
  deriving DecidableEq

namespace Channel

def all : List Channel := [.replication, .discovery, .stateTransfer]

def name : Channel → String
  | .replication => "replication"
  | .discovery => "discovery"
  | .stateTransfer => "state-transfer"

/-- The path at which the channel takes messages. -/
def path : Channel → String
  | .replication => "/replicate"
  | .discovery => "/discovery"
  | .stateTransfer => "/state"

def ofName? (name : String) : Option Channel := all.find? (·.name = name)

end Channel

/-- One channel of one host. -/
structure Endpoint where
  host : String
  port : Port
  channel : Channel
  deriving DecidableEq

namespace Endpoint

def render (e : Endpoint) : String := renderHostPort e.host e.port ++ " (" ++ e.channel.name ++ ")"

def url (e : Endpoint) : String := "http://" ++ renderHostPort e.host e.port ++ e.channel.path

end Endpoint

/-- What tells peers apart in the directory and the queues. -/
structure Address where
  host : String
  port : Port
  deriving DecidableEq

namespace Address

def render (a : Address) : String := renderHostPort a.host a.port

/-- By host, then by port. -/
def before (a b : Address) : Bool := a.host < b.host || (a.host = b.host && a.port < b.port)

instance : KeyOrder Address where
  before := before
  irrefl a := by simp [before, UInt16.lt_irrefl]
  trans := by
    intro a b c h₁ h₂
    simp only [before, Bool.or_eq_true, Bool.and_eq_true, decide_eq_true_eq] at h₁ h₂ ⊢
    rcases h₁ with h₁ | ⟨e₁, h₁⟩ <;> rcases h₂ with h₂ | ⟨e₂, h₂⟩
    · exact .inl (String.lt_trans h₁ h₂)
    · exact .inl (e₂ ▸ h₁)
    · exact .inl (e₁ ▸ h₂)
    · exact .inr ⟨e₁.trans e₂, UInt16.lt_trans h₁ h₂⟩
  connected := by
    intro a b h₁ h₂
    simp only [before, Bool.or_eq_false_iff, Bool.and_eq_false_imp, decide_eq_false_iff_not,
      decide_eq_true_eq, String.not_lt, UInt16.not_lt] at h₁ h₂
    have hh : a.host = b.host := String.le_antisymm h₂.1 h₁.1
    have hp : a.port = b.port := UInt16.le_antisymm (h₂.2 hh.symm) (h₁.2 hh)
    cases a; cases b; simp_all

end Address

/-- How a node presents itself to others. -/
structure Peer where
  id : NodeId
  host : String
  replicationPort : Port
  discoveryPort : Port
  stateTransferPort : Port
  deriving DecidableEq

namespace Peer

def address (p : Peer) : Address := ⟨p.host, p.replicationPort⟩

def port (p : Peer) : Channel → Port
  | .replication => p.replicationPort
  | .discovery => p.discoveryPort
  | .stateTransfer => p.stateTransferPort

def endpoint (p : Peer) (c : Channel) : Endpoint := ⟨p.host, p.port c, c⟩

/-- Whether two identities count as one peer. -/
def same (p q : Peer) : Bool := p.id = q.id || p.address = q.address

def render (p : Peer) : String :=
  p.id ++ "@" ++ p.host ++ " (repl=" ++ p.replicationPort.render ++ " disc="
    ++ p.discoveryPort.render ++ " state=" ++ p.stateTransferPort.render ++ ")"

end Peer

/-- Where a node asks to be let into the cluster. -/
structure Seed where
  host : String
  port : Port
  deriving DecidableEq

namespace Seed

def render (s : Seed) : String := renderHostPort s.host s.port

def endpoint (s : Seed) : Endpoint := ⟨s.host, s.port, .discovery⟩

/-- Whether the peer takes discovery messages at this place. -/
def isAt (s : Seed) (p : Peer) : Bool := s.host = p.host && s.port = p.discoveryPort

end Seed

end CausalStore
