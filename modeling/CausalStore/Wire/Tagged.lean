import CausalStore.Wire.Layout
import CausalStore.Wire.Tree

/-!
# Messages on the wire

A message is a record whose member `type`, its tag, says which other members there are. The tag is
written first. It is read wherever it stands, and judged as soon as it is met; in an array it is the
first item.
-/

namespace CausalStore

open Wire

namespace Message

namespace Kind

def all : List Kind :=
  [.joinRequest, .joinResponse, .newPeerAnnounce, .update, .stateRequest, .stateResponse]

def tag : Kind → String
  | .joinRequest => "join_request"
  | .joinResponse => "join_response"
  | .newPeerAnnounce => "new_peer_announce"
  | .update => "update"
  | .stateRequest => "state_request"
  | .stateResponse => "state_response"

def ofTag? (tag : String) : Option Kind := all.find? (·.tag = tag)

/-- The members that go with the tag. -/
def fields : Kind → Fields
  | .joinRequest => Layout.peerFields
  | .joinResponse => .cons "peers" Layout.peer.list.schema .nil
  | .newPeerAnnounce => .cons "peer" Layout.peer.schema .nil
  | .update => Layout.updateFields
  | .stateRequest => .nil
  | .stateResponse => Layout.snapshotFields

def ofVals : (k : Kind) → k.fields.Vals → Message
  | .joinRequest, v => .joinRequest (Layout.peer.ofVal v)
  | .joinResponse, v => .joinResponse (Layout.peer.list.ofVal v.1)
  | .newPeerAnnounce, v => .newPeerAnnounce (Layout.peer.ofVal v.1)
  | .update, v => .update (Layout.update.ofVal v)
  | .stateRequest, _ => .stateRequest
  | .stateResponse, v => .stateResponse (Layout.snapshot.ofVal v)

end Kind

def vals : (m : Message) → m.kind.fields.Vals
  | .joinRequest p => Layout.peer.toVal p
  | .joinResponse ps => (Layout.peer.list.toVal ps, ())
  | .newPeerAnnounce p => (Layout.peer.toVal p, ())
  | .update u => Layout.update.toVal u
  | .stateRequest => ()
  | .stateResponse s => Layout.snapshot.toVal s

theorem ofVals_vals (m : Message) : m.kind.ofVals m.vals = m := by
  cases m with
  | joinRequest p => exact congrArg joinRequest (Layout.peer.ofVal_toVal p)
  | joinResponse ps => exact congrArg joinResponse (Layout.peer.list.ofVal_toVal ps)
  | newPeerAnnounce p => exact congrArg newPeerAnnounce (Layout.peer.ofVal_toVal p)
  | update u => exact congrArg update (Layout.update.ofVal_toVal u)
  | stateRequest => rfl
  | stateResponse s => exact congrArg stateResponse (Layout.snapshot.ofVal_toVal s)

def write (m : Message) : List Char :=
  writeObject (writeMember "type" (quote m.kind.tag) :: m.kind.fields.write m.vals)

/-- How deep arrays and objects may stand inside each other within a message. -/
def maxDepth : Nat := 126

def tagReader : Reader Kind := Reader.text.filterMap Kind.ofTag?

def ofTree? (k : Kind) (t : Tree) : Option Message :=
  ((Schema.record k.fields).ofTree? t).map k.ofVals

/-- Reads a message in the form of an array, after its opening bracket. -/
def itemsReader : Reader Message :=
  (Reader.nextElement true tagReader).bind fun k =>
    (Reader.furtherElements (Tree.reader maxDepth)).filterMap fun items => ofTree? k (.array items)

/-- The tag, and the other members, the last one first. -/
abbrev Members := Option Kind × List (String × Tree)

def memberReader (key : String) : Members → Reader Members
  | (kind, members) =>
    if key = "type" then
      match kind with
      | some _ => .fail .mismatched
      | none => .afterColon (tagReader.map fun k => (some k, members))
    else .afterColon ((Tree.reader maxDepth).map fun t => (kind, (key, t) :: members))

/-- Reads a message in the form of an object, after its opening brace. -/
def membersReader : Reader Message :=
  (Reader.members .quoted memberReader (none, [])).filterMap fun (kind, members) =>
    kind.bind fun k => ofTree? k (.object members.reverse)

def reader : Reader Message := .bracketed itemsReader membersReader

end Message

end CausalStore
