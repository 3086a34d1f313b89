import CausalStore.Directory
import CausalStore.Exchange

/-!
# Membership

How a node lets others into the cluster and is let in itself. No entry of the directory is ever the
node's own: `learn` and `absorb` leave it out.
-/

namespace CausalStore

/-- What a node knows of the cluster: itself, and its peers. -/
structure Membership where
  self : Peer
  directory : Directory
  deriving DecidableEq

/-- What a join response told: the seed that answered, and every peer in it, in its order. -/
structure JoinOutcome where
  seed : Peer
  learned : List Peer
  deriving DecidableEq

namespace Membership

/-- Whether `learn` records the peer. -/
def isNew (m : Membership) (p : Peer) : Bool := !p.same m.self && !m.directory.contains p

/-- Records a peer that is not the node itself and whose address is new. -/
def learn (m : Membership) (p : Peer) : Membership :=
  if m.isNew p then { m with directory := m.directory.add p } else m

/-- The members that `requester` is told of. -/
def joinResponseFor (m : Membership) (requester : Peer) : List Peer :=
  m.self :: m.directory.peers.filter fun p => !p.same requester

/-- Takes in a join response. The seed is the last entry at the seed's place, else the first. -/
def absorb (m : Membership) (seed : Seed) (peers : List Peer) :
    Except RequestError (Membership × JoinOutcome) :=
  let learned := peers.filter fun p => !p.same m.self
  match (peers.reverse.find? seed.isAt).or peers.head? with
  | none => .error (.emptyJoinResponse seed)
  | some answered =>
    .ok ({ m with directory := learned.foldl Directory.add m.directory }, ⟨answered, learned⟩)

/-- The list of members in the reply to a join request. -/
def joinReply : Outcome → Except RequestError (List Peer) :=
  expectReply .joinResponse fun
    | .joinResponse peers => some peers
    | _ => none

/-- Takes in what the exchange of a join request with the seed ended with. -/
def concludeJoin (m : Membership) (seed : Seed) (outcome : Outcome) :
    Except RequestError (Membership × JoinOutcome) := do
  m.absorb seed (← joinReply outcome)

/-- Who must be told of a node that joined through `seed`: every peer but the seed. -/
def announceTargets (m : Membership) (seed : Peer) : List Peer :=
  m.directory.peers.filter fun p => !p.same seed && !p.same m.self

def announcement (m : Membership) : Message := .newPeerAnnounce m.self

end Membership

/-- The snapshot in the reply to a state request. -/
def snapshotReply : Outcome → Except RequestError Snapshot :=
  expectReply .stateResponse fun
    | .stateResponse snapshot => some snapshot
    | _ => none

end CausalStore
