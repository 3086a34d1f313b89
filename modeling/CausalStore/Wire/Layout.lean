import CausalStore.Client
import CausalStore.Wire.Schema

/-!
# Layouts

A layout lays the values of a type out by a schema. Nothing is lost: each value is what its layout
stands for.
-/

namespace CausalStore.Wire

structure Layout (α : Type) where
  schema : Schema
  toVal : α → schema.Val
  ofVal : schema.Val → α
  ofVal_toVal (a : α) : ofVal (toVal a) = a

namespace Layout

def nodeId : Layout NodeId where
  schema := .text
  toVal id := id
  ofVal v := v
  ofVal_toVal _ := rfl

def clock : Layout Clock where
  schema := .map .counter
  toVal := Clock.counters
  ofVal := Clock.mk
  ofVal_toVal _ := rfl

def peerFields : Fields :=
  .cons "node_id" .text <| .cons "host" .text <| .cons "replication_port" .port <|
    .cons "discovery_port" .port <| .cons "state_transfer_port" .port .nil

def peer : Layout Peer where
  schema := .record peerFields
  toVal p := (p.id, p.host, p.replicationPort, p.discoveryPort, p.stateTransferPort, ())
  ofVal v :=
    let (id, host, replication, discovery, stateTransfer, _) := v
    ⟨id, host, replication, discovery, stateTransfer⟩
  ofVal_toVal _ := rfl

def updateFields : Fields :=
  .cons "key" .text <| .cons "value" .text <| .cons "origin" .text <|
    .cons "clock" clock.schema .nil

def update : Layout Update where
  schema := .record updateFields
  toVal u := (u.key, u.value, u.origin, clock.toVal u.clock, ())
  ofVal | (key, value, origin, stamp, _) => ⟨key, value, origin, clock.ofVal stamp⟩
  ofVal_toVal _ := rfl

def entry : Layout Entry where
  schema := .record (.cons "value" .text (.cons "clock" clock.schema .nil))
  toVal e := (e.value, clock.toVal e.clock, ())
  ofVal | (value, stamp, _) => ⟨value, clock.ofVal stamp⟩
  ofVal_toVal _ := rfl

def store : Layout Store where
  schema := .map entry.schema
  toVal s := SortedMap.map s entry.toVal
  ofVal v := SortedMap.map v entry.ofVal
  ofVal_toVal s := (s.map_map ..).trans (s.map_id entry.ofVal_toVal)

def snapshotFields : Fields := .cons "store" store.schema <| .cons "clock" clock.schema .nil

def snapshot : Layout Snapshot where
  schema := .record snapshotFields
  toVal s := (store.toVal s.store, clock.toVal s.clock, ())
  ofVal | (entries, stamp, _) => ⟨store.ofVal entries, clock.ofVal stamp⟩
  ofVal_toVal s := congrArg (Snapshot.mk · s.clock) (store.ofVal_toVal s.store)

def putRequest : Layout PutRequest where
  schema := .record (.cons "key" .text (.cons "value" .text .nil))
  toVal p := (p.key, p.value, ())
  ofVal | (key, value, _) => ⟨key, value⟩
  ofVal_toVal _ := rfl

def putResponse : Layout PutResponse where
  schema := .record (.cons "success" .flag (.cons "clock" (.nullable clock.schema)
    (.cons "error" (.nullable .text) .nil)))
  toVal p := (p.success, p.clock.map clock.toVal, p.error, ())
  ofVal | (success, stamp, error, _) => ⟨success, Option.map clock.ofVal stamp, error⟩
  ofVal_toVal p := by cases p with | mk _ c _ => cases c <;> rfl

def getResponse : Layout GetResponse where
  schema := .record (.cons "key" .text (.cons "value" (.nullable .text)
    (.cons "error" (.nullable .text) .nil)))
  toVal g := (g.key, g.value, g.error, ())
  ofVal | (key, value, error, _) => ⟨key, value, error⟩
  ofVal_toVal _ := rfl

def dumpEntry : Layout DumpEntry where
  schema := .record (.cons "key" .text (.cons "value" .text (.cons "clock" clock.schema .nil)))
  toVal e := (e.key, e.value, clock.toVal e.clock, ())
  ofVal | (key, value, stamp, _) => ⟨key, value, clock.ofVal stamp⟩
  ofVal_toVal _ := rfl

def list {α : Type} (l : Layout α) : Layout (List α) where
  schema := .list l.schema
  toVal as := as.map l.toVal
  ofVal vs := List.map l.ofVal vs
  ofVal_toVal as := by
    rw [List.map_map, show l.ofVal ∘ l.toVal = id from funext l.ofVal_toVal, List.map_id]

def dump : Layout (List DumpEntry) := dumpEntry.list

end Layout

end CausalStore.Wire
