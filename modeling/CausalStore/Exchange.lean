import CausalStore.Message

/-!
# Exchanges and what can go wrong with them

An exchange sends one message to an endpoint and ends with a reply, with none, or with an error.
-/

namespace CausalStore

/-- Why an exchange ended without an answer that can be used. The endpoint is given as text. -/
inductive ExchangeError where
  | unreachable (endpoint reason : String)
  | rejected (endpoint : String) (status : UInt16)
  | undecodable (endpoint reason : String)
  deriving DecidableEq

namespace ExchangeError

def message : ExchangeError → String
  | .unreachable endpoint reason => "peer " ++ endpoint ++ " unreachable: " ++ reason
  | .rejected endpoint status =>
    "peer " ++ endpoint ++ " rejected message with status " ++ Decimal.text status.toNat
  | .undecodable endpoint reason => "undecodable reply from " ++ endpoint ++ ": " ++ reason

def isUnreachable : ExchangeError → Bool
  | .unreachable .. => true
  | _ => false

end ExchangeError

/-- How an exchange ended: with or without a reply, or in an error. -/
abbrev Outcome := Except ExchangeError (Option Message)

/-- A message that is out of place. Kinds of message and channels are given by their names. -/
inductive ProtocolError where
  | wrongChannel (kind channel : String)
  | unsolicited (kind : String)
  | unexpectedReply (expected actual : String)
  | missingReply (expected : String)
  deriving DecidableEq

def ProtocolError.message : ProtocolError → String
  | .wrongChannel kind channel => kind ++ " is not accepted on the " ++ channel ++ " channel"
  | .unsolicited kind => "unsolicited " ++ kind
  | .unexpectedReply expected actual => "expected " ++ expected ++ ", got " ++ actual
  | .missingReply expected => "expected a reply carrying " ++ expected ++ ", got none"

/-- Why a node could not join, or could not take over the state of a peer. -/
inductive RequestError where
  | exchange (cause : ExchangeError)
  | protocol (cause : ProtocolError)
  | emptyJoinResponse (seed : Seed)
  deriving DecidableEq

def RequestError.message : RequestError → String
  | .exchange cause => cause.message
  | .protocol cause => cause.message
  | .emptyJoinResponse seed => "empty join response from seed " ++ seed.render

/-- The reply of an exchange, where `pick` takes the one kind of message that can be meant. -/
def expectReply {α : Type} (expected : Message.Kind) (pick : Message → Option α) :
    Outcome → Except RequestError α
  | .error cause => .error (.exchange cause)
  | .ok none => .error (.protocol (.missingReply expected.name))
  | .ok (some reply) =>
    match pick reply with
    | some a => .ok a
    | none => .error (.protocol (.unexpectedReply expected.name reply.kind.name))

end CausalStore
