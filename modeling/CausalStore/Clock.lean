import CausalStore.SortedMap
import CausalStore.Text.Decimal

/-!
# Vector clocks

A clock counts, for each node id, the writes of that node that are covered. An id without a counter
reads as zero, yet a counter of zero is kept and shown: clocks are compared by `dominates` and
`order`, which look at counters only, and by equality, which also sees which ids are listed.
-/

namespace CausalStore

abbrev NodeId := String

/-- Counters are 64-bit words. -/
abbrev Counter := UInt64

/-- The counter after `n`; the largest one has none. -/
def Counter.next? (n : Counter) : Option Counter :=
  if n = UInt64.ofNat (UInt64.size - 1) then none else some (n + 1)

structure Clock where
  counters : SortedMap NodeId Counter
  deriving DecidableEq

/-- Why a clock cannot be moved. The addition of counters is the checked one, which fails at the largest
counter; an unchecked addition would go on from zero there. -/
inductive ClockError where
  | counterOverflow
  deriving DecidableEq

def ClockError.message : ClockError → String
  | .counterOverflow => "attempt to add with overflow"

/-- How two clocks lie in the causal order. -/
inductive CausalOrder where
  | before
  | after
  | equal
  | concurrent
  deriving DecidableEq

namespace Clock

/-- The clock that lists no id. -/
def empty : Clock := ⟨.empty⟩

/-- The clock of a node that has seen nothing: its own counter, at zero. -/
def seeded (id : NodeId) : Clock := ⟨SortedMap.empty.insert id 0⟩

/-- The clock with the given counters, where a later pair replaces an earlier one. -/
def ofList (counters : List (NodeId × Counter)) : Clock := ⟨.ofList counters⟩

def entries (c : Clock) : List (NodeId × Counter) := c.counters.entries

def ids (c : Clock) : List NodeId := c.counters.keys

def size (c : Clock) : Nat := c.counters.size

def isEmpty (c : Clock) : Bool := c.counters.isEmpty

def contains (c : Clock) (id : NodeId) : Bool := c.counters.contains id

/-- The counter of an id, zero if it is not listed. -/
def get (c : Clock) (id : NodeId) : Counter := (c.counters.get? id).getD 0

def set (c : Clock) (id : NodeId) (n : Counter) : Clock := ⟨c.counters.insert id n⟩

/-- Counts one more write of `id`, unless its counter is full. -/
def increment (c : Clock) (id : NodeId) : Except ClockError Clock :=
  match (c.get id).next? with
  | some n => .ok (c.set id n)
  | none => .error .counterOverflow

/-- Lists `id`, at zero unless it is listed already. -/
def addDimension (c : Clock) (id : NodeId) : Clock := ⟨c.counters.insertNew id 0⟩

/-- The larger counter of each id that either clock lists. -/
def merge (c d : Clock) : Clock :=
  ⟨d.entries.foldl (fun m e => m.upsert e.1 fun old => max (old.getD 0) e.2) c.counters⟩

/-- Whether every counter of `d` is reached by `c`. -/
def dominates (c d : Clock) : Bool := d.entries.all fun e => e.2 ≤ c.get e.1

/-- Whether an update of `origin` stamped `stamp` may be applied at `c`: it is the origin's next
write, and everything else that it depends on is covered. -/
def admits (c : Clock) (origin : NodeId) (stamp : Clock) : Bool :=
  stamp.entries.all fun e =>
    if e.1 = origin then (c.get e.1).next? = some e.2 else e.2 ≤ c.get e.1

/-- The place of `c` relative to `d`, from the ids that either of them lists. -/
def order (c d : Clock) : CausalOrder :=
  let ids := c.ids ++ d.ids
  match ids.any (fun id => c.get id < d.get id), ids.any (fun id => d.get id < c.get id) with
  | false, false => .equal
  | true, false => .before
  | false, true => .after
  | true, true => .concurrent

def concurrentWith (c d : Clock) : Bool := c.order d = .concurrent

/-- The clock as text, such as `{a:1, b:0}`. -/
def render (c : Clock) : String :=
  let counters := c.entries.map fun e => e.1 ++ ":" ++ Decimal.text e.2.toNat
  "\x7b" ++ ", ".intercalate counters ++ "\x7d"

end Clock

end CausalStore
