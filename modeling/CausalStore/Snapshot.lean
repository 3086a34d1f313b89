import CausalStore.Engine

/-!
# State transfer

A snapshot is a store together with the clock that covers it. Installing one overwrites the entries
that it holds, covers its clock, and drains the buffer.
-/

namespace CausalStore

structure Snapshot where
  store : Store
  clock : Clock
  deriving DecidableEq

/-- What an install did: entries taken over, and buffered updates applied after them. -/
structure InstallReport where
  entries : Nat
  reconciled : Nat
  deriving DecidableEq

namespace Engine

def capture (e : Engine) : Snapshot := ⟨e.store, e.clock⟩

def install (e : Engine) (s : Snapshot) : Engine × InstallReport :=
  let store := s.store.entries.foldl (fun m p => m.insert p.1 p.2) e.store
  let (e', reconciled) := { e with store, clock := e.clock.merge s.clock }.reconcile
  (e', ⟨s.store.size, reconciled⟩)

end Engine

end CausalStore
