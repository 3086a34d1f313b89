import CausalStore.Node

/-!
# What clients and nodes say to each other
-/

namespace CausalStore

structure PutRequest where
  key : String
  value : String
  deriving DecidableEq

structure PutResponse where
  success : Bool
  /-- The clock of the node just after the write. -/
  clock : Option Clock
  error : Option String
  deriving DecidableEq

structure GetResponse where
  key : String
  /-- The value, if the node has the key. -/
  value : Option String
  error : Option String
  deriving DecidableEq

/-- One line of a dump. -/
structure DumpEntry where
  key : String
  value : String
  clock : Clock
  deriving DecidableEq

def Node.dumpEntries (n : Node) : List DumpEntry :=
  n.dump.map fun e => ⟨e.1, e.2.value, e.2.clock⟩

end CausalStore
