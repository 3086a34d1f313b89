import CausalStore.SortedMap
import CausalStore.Text.Decimal
import CausalStore.Wire.Scalar

/-!
# Schemas

A schema says how values of a type are laid out in text. `Schema.write` lays a value out without
blanks, members in the order of the schema and keys of a map in ascending order; `Schema.reader` reads
any layout of a value: members in any order, unknown members among them, or a record as the array of
its members.
-/

namespace CausalStore.Wire

mutual

inductive Schema where
  | text
  | port
  | counter
  | flag
  /-- A value that may be `null`, and in a record may be left out. -/
  | nullable (s : Schema)
  | list (s : Schema)
  /-- An object whose keys are data. -/
  | map (s : Schema)
  | record (fields : Fields)

/-- The members of a record. -/
inductive Fields where
  | nil
  | cons (name : String) (s : Schema) (rest : Fields)

end

mutual

/-- The values that a schema lays out. -/
def Schema.Val : Schema → Type
  | .text => String
  | .port => UInt16
  | .counter => UInt64
  | .flag => Bool
  | .nullable s => Option s.Val
  | .list s => List s.Val
  | .map s => SortedMap String s.Val
  | .record fields => fields.Vals

def Fields.Vals : Fields → Type
  | .nil => Unit
  | .cons _ s rest => s.Val × rest.Vals

end

/-! ## Writing -/

/-- Things separated by commas. -/
def commaSeparated (things : List (List Char)) : List Char := (things.intersperse [',']).flatten

/-- A member of an object. -/
def writeMember (key : String) (value : List Char) : List Char := quote key ++ ':' :: value

def writeFlag (b : Bool) : List Char := (if b then "true" else "false").toList

def writeObject (members : List (List Char)) : List Char := '\x7b' :: commaSeparated members ++ ['\x7d']

mutual

def Schema.write : (s : Schema) → s.Val → List Char
  | .text, v => quote v
  | .port, v => Decimal.digits (UInt16.toNat v)
  | .counter, v => Decimal.digits (UInt64.toNat v)
  | .flag, v => writeFlag v
  | .nullable s, v =>
    match v with
    | none => "null".toList
    | some v => s.write v
  | .list s, v => '[' :: commaSeparated (List.map s.write v) ++ [']']
  | .map s, v => writeObject (v.entries.map fun e => writeMember e.1 (s.write e.2))
  | .record fields, v => writeObject (fields.write v)

/-- The members of a record, one by one. -/
def Fields.write : (fields : Fields) → fields.Vals → List (List Char)
  | .nil, _ => []
  | .cons name s rest, v => writeMember name (s.write v.1) :: rest.write v.2

end

/-! ## Reading -/

/-- The members of a record as far as they were read. -/
def Fields.Parts : Fields → Type
  | .nil => Unit
  | .cons _ s rest => Option s.Val × rest.Parts

namespace Fields

/-- No member. -/
def noParts : (fields : Fields) → fields.Parts
  | .nil => ()
  | .cons _ _ rest => (none, rest.noParts)

end Fields

/-- What a missing member counts as. -/
def Schema.absent? : (s : Schema) → Option s.Val
  | .nullable _ => some none
  | _ => none

/-- The record that is made up of the members read. -/
def Fields.complete : (fields : Fields) → fields.Parts → Option fields.Vals
  | .nil, _ => some ()
  | .cons _ s rest, (part, parts) =>
    match part.or s.absent?, rest.complete parts with
    | some v, some vs => some (v, vs)
    | _, _ => none

/-- What stands between a key and its value. -/
def Reader.afterColon {α : Type} (p : Reader α) : Reader α := (Reader.char ':').bind fun _ => p

/-- Reads an array after its opening bracket, or an object after its brace. -/
def Reader.bracketed {α : Type} (array object : Reader α) : Reader α :=
  .ofHead (fun c r =>
      if c = '[' then array.run r
      else if c = '\x7b' then object.run r
      else .error (misfit c r))
    fun h => by
      split at h
      · exact Nat.le_of_lt (array.shrinks h)
      · split at h
        · exact Nat.le_of_lt (object.shrinks h)
        · simp at h

mutual

def Schema.reader : (s : Schema) → Reader s.Val
  | .text => .text
  | .port => .port
  | .counter => .word
  | .flag => .flag
  | .nullable s => .orNull s.reader
  | .list s => .bracketed (.elements s.reader) (.fail .mismatched)
  | .map s =>
    .bracketed (.fail .mismatched)
      (.members .quoted (fun key m => .afterColon (s.reader.map (SortedMap.insert m key))) .empty)
  | .record fields =>
    .bracketed (fields.inOrder true)
      ((Reader.members .quoted fields.member fields.noParts).filterMap fields.complete)

/-- Reads what follows the key of a member. A member that was read before is refused at once. -/
def Fields.member : (fields : Fields) → String → fields.Parts → Reader fields.Parts
  | .nil, _, parts => .afterColon (Reader.anything.map fun _ => parts)
  | .cons name s rest, key, (part, parts) =>
    if key = name then
      match part with
      | some _ => .fail .mismatched
      | none => .afterColon (s.reader.map fun v => (some v, parts))
    else (rest.member key parts).map fun parts => (part, parts)

/-- Reads the members as the elements of an array, and its closing bracket. -/
def Fields.inOrder : (fields : Fields) → Bool → Reader fields.Vals
  | .nil, _ => .char ']'
  | .cons _ s rest, first =>
    .nextElement first (s.reader.bind fun v => (rest.inOrder false).map fun vs => (v, vs))

end

end CausalStore.Wire
