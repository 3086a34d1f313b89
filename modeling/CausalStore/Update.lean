import CausalStore.Store

/-!
# Updates

A write on its way between nodes: what is written, by whom, and the writer's clock just after it.
-/

namespace CausalStore

structure Update where
  key : String
  value : String
  origin : NodeId
  clock : Clock
  deriving DecidableEq

namespace Update

/-- The place of the update among its origin's writes, counted from one. -/
def sequence (u : Update) : Counter := u.clock.get u.origin

def entry (u : Update) : Entry := ⟨u.value, u.clock⟩

end Update

end CausalStore
