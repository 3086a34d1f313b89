import CausalStore.Http.Request
import CausalStore.Text.Utf8
import CausalStore.Wire.Format

/-!
# Request bodies

A body holds one value at its beginning, and what follows the value is not looked at. A body that is
too large is not read.
-/

namespace CausalStore.Http

/-- Why a request has no value of the type that is asked for. -/
inductive BodyError where
  | undeclared
  | oversized
  | unreadable
  | mismatched
  deriving DecidableEq

namespace BodyError

def message : BodyError → String
  | .undeclared => "Expected request with \x60Content-Type: application/json\x60"
  | .oversized => "Failed to buffer the request body: length limit exceeded"
  | .unreadable => "Failed to parse the request body as JSON"
  | .mismatched => "Failed to deserialize the JSON body into the target type"

def status : BodyError → Nat
  | .undeclared => 415
  | .oversized => 413
  | .unreadable => 400
  | .mismatched => 422

def ofCause : Wire.Cause → BodyError
  | .truncated | .malformed => .unreadable
  | .mismatched => .mismatched

end BodyError

/-- Characters of a body, where a byte that belongs to no character becomes half of a pair: readers
refuse it in a text that is of interest and pass over it in one that is not. Behind a backslash, which
`escape` tells, it makes an escape that does not exist. -/
def mend (escape : Bool) : List (Option Char) → List Char
  | [] => []
  | some c :: r => c :: mend (c = '\\' && !escape) r
  | none :: r => (if escape then ['\x00'] else "\\ud800 ".toList) ++ mend false r

/-- The largest number of bytes that a body may have. -/
def bodyLimit : Nat := 2 * 1024 * 1024

/-- The value in the body of a request. -/
def Request.value {α : Type} (r : Request) (f : Wire.Format α) : Except BodyError α :=
  if r.declaresJson then
    if bodyLimit < r.body.size then .error .oversized
    else (f.decodeFirst (mend false (Utf8.scan r.body))).mapError .ofCause
  else .error .undeclared

end CausalStore.Http
