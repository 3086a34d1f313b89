import CausalStore.Wire.Schema

/-!
# Trees

The members of a message can come before its tag, which says what they are. They are read as trees of
limited depth first, and made into values of a schema afterwards.
-/

namespace CausalStore.Wire

inductive Tree where
  | null
  | flag (b : Bool)
  | number (n : Numeral)
  | text (s : String)
  | array (items : List Tree)
  | object (members : List (String × Tree))

/-- Chooses a reader by the first character that is not blank. -/
def Reader.select {α : Type} (choose : Char → Reader α) : Reader α :=
  .ofHead (fun c r => (choose c).run (c :: r)) fun {c _ _ _} h =>
    Nat.le_of_lt_succ ((choose c).shrinks h)

namespace Tree

/-- Reads a scalar, or leaves an array or object to `p`. -/
def scalarOr (p : Reader Tree) : Reader Tree :=
  .select fun c =>
    if c = '"' then .map .text .text
    else if c = '-' ∨ isDigit c then .map .number .numeral
    else if c = 't' ∨ c = 'f' then .map .flag .flag
    else if c = 'n' then .map (fun _ => .null) (.orNull p)
    else if c = '[' ∨ c = '{' then p
    else .fail .malformed

/-- Reads a tree in which arrays and objects stand at most `depth` deep inside each other. -/
def reader : (depth : Nat) → Reader Tree
  | 0 => scalarOr (.fail .malformed)
  | depth + 1 =>
    let member (key : String) (members : List (String × Tree)) : Reader (List (String × Tree)) :=
      .afterColon ((reader depth).map fun t => (key, t) :: members)
    scalarOr (.bracketed ((Reader.elements (reader depth)).map .array)
      ((Reader.members .quoted member []).map fun members => .object members.reverse))

end Tree

mutual

/-- The value that a tree stands for. -/
def Schema.ofTree? : (s : Schema) → Tree → Option s.Val
  | .text, .text v => some v
  | .port, .number (.word n) => portOf? n
  | .counter, .number (.word n) => some n
  | .flag, .flag v => some v
  | .nullable _, .null => some none
  | .nullable s, t => (s.ofTree? t).map some
  | .list s, .array items => items.mapM s.ofTree?
  | .map s, .object members =>
    (members.mapM fun e => (s.ofTree? e.2).map fun v => (e.1, v)).map SortedMap.ofList
  | .record fields, .array items => fields.ofItems? items
  | .record fields, .object members =>
    (members.foldlM (fun parts e => fields.place? e.1 e.2 parts) fields.noParts).bind fields.complete
  | _, _ => none

/-- The record whose members are the items of an array, in order. -/
def Fields.ofItems? : (fields : Fields) → List Tree → Option fields.Vals
  | .nil, [] => some ()
  | .cons _ s rest, item :: items =>
    match s.ofTree? item, rest.ofItems? items with
    | some v, some vs => some (v, vs)
    | _, _ => none
  | _, _ => none

/-- Takes in a member of an object; a member can come once. -/
def Fields.place? : (fields : Fields) → String → Tree → fields.Parts → Option fields.Parts
  | .nil, _, _, parts => some parts
  | .cons name s rest, key, t, (part, parts) =>
    if key = name then
      match part with
      | some _ => none
      | none => (s.ofTree? t).map fun v => (some v, parts)
    else (rest.place? key t parts).map fun parts => (part, parts)

end

end CausalStore.Wire
