import CausalStore.Text.Decimal
import CausalStore.Text.Radix

/-!
# IPv4 addresses

An address is written as four decimal numbers, one for each byte. On reading there may be fewer, the
last of which then fills the bytes that are left, and any of them may be octal, behind a zero, or
hexadecimal, behind `0x`.
-/

namespace CausalStore

structure Ipv4 where
  word : UInt32
  deriving DecidableEq

namespace Ipv4

/-- The address that stands for every address. -/
def any : Ipv4 := ⟨0⟩

def loopback : Ipv4 := ⟨0x7F000001⟩

/-- The four bytes, the most significant first. -/
def bytes (a : Ipv4) : List UInt8 :=
  [(a.word >>> 24).toUInt8, (a.word >>> 16).toUInt8, (a.word >>> 8).toUInt8, a.word.toUInt8]

def render (a : Ipv4) : String := ".".intercalate (a.bytes.map fun b => Decimal.text b.toNat)

/-- A number in the notation that its beginning tells. -/
def numberOf? : List Char → Option Nat
  | '0' :: 'x' :: ds | '0' :: 'X' :: ds => Radix.ofDigits? 16 ds
  | '0' :: ds => Radix.ofDigits? 8 ('0' :: ds)
  | ds => Decimal.ofDigits? ds

/-- The address of one to four numbers. -/
def ofNumbers? (numbers : List Nat) : Option Ipv4 :=
  numbers.getLast?.bind fun last =>
    let leading := numbers.dropLast
    let room := Nat.pow 256 (4 - leading.length)
    if leading.length < 4 ∧ leading.all (· < 256) ∧ last < room then
      some ⟨UInt32.ofNat (leading.foldl (256 * · + ·) 0 * room + last)⟩
    else none

def ofText? (text : String) : Option Ipv4 :=
  ((text.splitOn ".").mapM fun part => numberOf? part.toList).bind ofNumbers?

/-- The address of a text that is written just as `render` writes it. -/
def ofRendered? (text : String) : Option Ipv4 := (ofText? text).filter (·.render = text)

end Ipv4

end CausalStore
