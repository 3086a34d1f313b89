import CausalStore.Peer
import CausalStore.Snapshot

/-!
# Messages between nodes
-/

namespace CausalStore

inductive Message where
  /-- Asks a seed to be let in. -/
  | joinRequest (requester : Peer)
  /-- The members that a seed knows, itself first. -/
  | joinResponse (peers : List Peer)
  /-- Tells a member of a newcomer. -/
  | newPeerAnnounce (peer : Peer)
  | update (update : Update)
  | stateRequest
  | stateResponse (snapshot : Snapshot)
  deriving DecidableEq

namespace Message

/-- The six kinds of message. -/
inductive Kind where
  | joinRequest
  | joinResponse
  | newPeerAnnounce
  | update
  | stateRequest
  | stateResponse
  deriving DecidableEq

def Kind.name : Kind → String
  | .joinRequest => "JoinRequest"
  | .joinResponse => "JoinResponse"
  | .newPeerAnnounce => "NewPeerAnnounce"
  | .update => "Update"
  | .stateRequest => "StateRequest"
  | .stateResponse => "StateResponse"

/-- The channel on which messages of this kind travel. -/
def Kind.channel : Kind → Channel
  | .joinRequest | .joinResponse | .newPeerAnnounce => .discovery
  | .update => .replication
  | .stateRequest | .stateResponse => .stateTransfer

def kind : Message → Kind
  | .joinRequest _ => .joinRequest
  | .joinResponse _ => .joinResponse
  | .newPeerAnnounce _ => .newPeerAnnounce
  | .update _ => .update
  | .stateRequest => .stateRequest
  | .stateResponse _ => .stateResponse

def channel (m : Message) : Channel := m.kind.channel

end Message

end CausalStore
