import CausalStore.Http.Body
import CausalStore.Text.WhiteSpace

/-!
# What a node answers

A node has one surface for clients and one for each channel. An answer gives the node afterwards and
the sends that are then to be carried out.
-/

namespace CausalStore.Http

inductive Surface where
  | clients
  | peers (c : Channel)
  deriving DecidableEq

/-- What a path asks for. -/
inductive Action where
  /-- The value of a key, given as it stands in the path. -/
  | get (key : List Char)
  | put
  | dump
  | message (c : Channel)
  deriving DecidableEq

namespace Action

/-- What is at a path, if anything is. A key is one segment, and not empty. -/
def ofPath? : Surface → List Char → Option Action
  | .clients, path =>
    if path = "/put".toList then some .put
    else if path = "/dump".toList then some .dump
    else
      match path with
      | '/' :: 'g' :: 'e' :: 't' :: '/' :: key =>
        if key = [] ∨ '/' ∈ key then none else some (.get key)
      | _ => none
  | .peers c, path => if path = c.path.toList then some (.message c) else none

/-- Whether the action only reads. -/
def isRead : Action → Bool
  | .get _ | .dump => true
  | .put | .message _ => false

def allows (a : Action) (method : String) : Bool :=
  if a.isRead then method = "GET" || method = "HEAD" else method = "POST"

end Action

structure Answer where
  node : Node
  response : Response
  sends : List Send

/-- An answer that leaves the node as it is. -/
def Answer.unchanged (n : Node) (r : Response) : Answer := ⟨n, r, []⟩

private def encode {α : Type} (l : Wire.Layout α) (a : α) : String := l.format.encode a

def getResponse (n : Node) (key : List Char) : Response :=
  match String.fromUTF8? ⟨(percentDecode key).toArray⟩ with
  | none => .text 400 "Invalid URL"
  | some key =>
    match n.get key with
    | some value => .json 200 (encode .getResponse ⟨key, some value, none⟩)
    | none => .json 404 (encode .getResponse ⟨key, none, some "key not found"⟩)

def dumpResponse (n : Node) : Response := .json 200 (encode .dump n.dumpEntries)

def refusedPut (error : String) : String := encode .putResponse ⟨false, none, some error⟩

/-- Writes a value. The key must not be blank, but is stored as it is. -/
def answerPut (n : Node) (r : Request) : Answer :=
  match r.value Wire.Layout.putRequest.format with
  | .error e => .unchanged n (.text e.status e.message)
  | .ok put =>
    if WhiteSpace.isBlankText put.key then
      .unchanged n (.json 400 (refusedPut "key must not be empty"))
    else
      match n.put put.key put.value with
      | .error e => .unchanged n (.text 500 e.message)
      | .ok (n, update) =>
        ⟨n, .json 200 (encode .putResponse ⟨true, some update.clock, none⟩), n.broadcast update⟩

/-- Takes a message on a channel. Whatever is refused is a bad request. -/
def answerMessage (n : Node) (c : Channel) (r : Request) : Answer :=
  match r.value Message.format with
  | .error e => .unchanged n (.text 400 e.message)
  | .ok m =>
    match n.handleOn c m with
    | .error e => .unchanged n (.text 400 e.message)
    | .ok (n, none) => .unchanged n (.empty 204)
    | .ok (n, some reply) => .unchanged n (.json 200 (Message.format.encode reply))

def perform (n : Node) (r : Request) : Action → Answer
  | .get key => .unchanged n (getResponse n key)
  | .dump => .unchanged n (dumpResponse n)
  | .put => answerPut n r
  | .message c => answerMessage n c r

/-- Answers a request on one of the surfaces. -/
def answer (n : Node) (s : Surface) (r : Request) : Answer :=
  match Action.ofPath? s r.path with
  | none => .unchanged n (.empty 404)
  | some action =>
    if action.allows r.method then
      let a := perform n r action
      if r.method = "HEAD" then { a with response := a.response.withoutBody } else a
    else .unchanged n (.empty 405)

end CausalStore.Http
