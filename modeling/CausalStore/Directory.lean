import CausalStore.Peer

/-!
# The peer directory

A directory keeps one identity for each address, the first that it was told. It lists peers by node
id, and by address among equal ids.
-/

namespace CausalStore

structure Directory where
  byAddress : SortedMap Address Peer
  deriving DecidableEq

namespace Directory

def empty : Directory := ⟨.empty⟩

def contains (d : Directory) (p : Peer) : Bool := d.byAddress.contains p.address

/-- Records a peer, unless its address is known. -/
def add (d : Directory) (p : Peer) : Directory := ⟨d.byAddress.insertNew p.address p⟩

def peers (d : Directory) : List Peer :=
  (d.byAddress.entries.map (·.2)).mergeSort fun p q => p.id ≤ q.id

def size (d : Directory) : Nat := d.byAddress.size

def isEmpty (d : Directory) : Bool := d.byAddress.isEmpty

end Directory

end CausalStore
