import CausalStore.Clock

/-!
# The versioned store

Each key holds the value last applied to it, with the clock of the write that made it.
-/

namespace CausalStore

/-- A stored value and the clock of its write. -/
structure Entry where
  value : String
  clock : Clock
  deriving DecidableEq

abbrev Store := SortedMap String Entry

/-- The entry as text. -/
def Entry.render (e : Entry) : String := "Value: " ++ e.value ++ ", VC: " ++ e.clock.render

/-- The value of a key. -/
def Store.value? (s : Store) (key : String) : Option String := (s.get? key).map (·.value)

end CausalStore
