import CausalStore.Wire.Tagged

/-!
# Documents

A document is the text of one value. `Format.encode` writes it, and `Format.decode` reads it and
allows only blanks around it.
-/

namespace CausalStore

namespace Wire

/-- How values of a type are written and read. -/
structure Format (α : Type) where
  write : α → List Char
  reader : Reader α

namespace Format

variable {α : Type}

def encode (f : Format α) (a : α) : String := String.ofList (f.write a)

/-- The value of a whole document. -/
def decode (f : Format α) (text : String) : Except Cause α :=
  match f.reader.run text.toList with
  | .error cause => .error cause
  | .ok (a, rest) => if skipBlank rest = [] then .ok a else .error .malformed

/-- The value at the beginning of a text, whatever follows it. -/
def decodeFirst (f : Format α) (text : List Char) : Except Cause α := (f.reader.run text).map (·.1)

end Format

def Layout.format {α : Type} (l : Layout α) : Format α where
  write a := l.schema.write (l.toVal a)
  reader := l.schema.reader.map l.ofVal

end Wire

def Message.format : Wire.Format Message := ⟨Message.write, Message.reader⟩

end CausalStore
