import CausalStore.Http.MediaType
import CausalStore.Text.Radix

/-!
# Requests and responses
-/

namespace CausalStore.Http

structure Request where
  method : String
  /-- The path with whatever follows it, and perhaps a scheme and an authority before it. -/
  target : String
  contentType : Option String
  body : ByteArray

inductive ContentType where
  | json
  | text
  deriving DecidableEq

def ContentType.name : ContentType → String
  | .json => "application/json"
  | .text => "text/plain; charset=utf-8"

structure Response where
  status : Nat
  contentType : Option ContentType
  body : String
  deriving DecidableEq

namespace Response

def empty (status : Nat) : Response := ⟨status, none, ""⟩

def text (status : Nat) (body : String) : Response := ⟨status, some .text, body⟩

def json (status : Nat) (body : String) : Response := ⟨status, some .json, body⟩

def withoutBody (r : Response) : Response := { r with body := "" }

end Response

namespace Request

/-- The characters of schemes. -/
def isScheme (c : Char) : Bool := c.isAlphanum || c ∈ ['+', '-', '.']

/-- The target from the end of the authority on. A target that has neither a scheme nor a slash at its
beginning has no path. -/
def fromPath (target : List Char) : List Char :=
  if target.head? = some '/' then target
  else
    match target.dropWhile isScheme with
    | ':' :: '/' :: '/' :: r => r.dropWhile fun c => c ∉ ['/', '?', '#']
    | _ => []

/-- The path alone. -/
def path (r : Request) : List Char :=
  (fromPath r.target.toList).takeWhile fun c => c ≠ '?' && c ≠ '#'

/-- Whether the body is declared as structured text. -/
def declaresJson (r : Request) : Bool :=
  ((r.contentType.bind MediaType.parse?).map (·.isJson)).getD false

end Request

/-- The bytes of a text in which a percent sign and two hexadecimal digits stand for a byte. -/
def percentDecode : List Char → List UInt8
  | [] => []
  | '%' :: a :: b :: r =>
    match Radix.digitValue? a, Radix.digitValue? b with
    | some a, some b => UInt8.ofNat (16 * a + b) :: percentDecode r
    | _, _ => String.utf8EncodeChar '%' ++ percentDecode (a :: b :: r)
  | c :: r => String.utf8EncodeChar c ++ percentDecode r

end CausalStore.Http
