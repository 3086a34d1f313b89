import CausalStore.Net.Ipv4

/-!
# IPv6 addresses

An address is written as eight groups of up to four hexadecimal digits. Two colons stand for as many
groups of zeros as are missing, and the last two groups may be written as an IPv4 address.
-/

namespace CausalStore

/-- An address as its eight groups of 16 bits. -/
structure Ipv6 where
  groups : List Nat
  deriving DecidableEq

namespace Ipv6

def groupOf? (ds : List Char) : Option Nat :=
  if ds.length ≤ 4 then Radix.ofDigits? 16 ds else none

/-- The two groups of an IPv4 address. -/
def groupsOfIpv4 (a : Ipv4) : List Nat := [a.word.toNat / 65536, a.word.toNat % 65536]

/-- The groups on one side of the two colons. Only at the end may there be an IPv4 address. -/
def groupsOf? (atEnd : Bool) (side : String) : Option (List Nat) :=
  if side = "" then some []
  else
    let pieces := side.splitOn ":"
    match atEnd, pieces.getLast?.bind Ipv4.ofRendered? with
    | true, some a =>
      (pieces.dropLast.mapM fun p => groupOf? p.toList).map (· ++ groupsOfIpv4 a)
    | _, _ => pieces.mapM fun p => groupOf? p.toList

def ofText? (text : String) : Option Ipv6 :=
  match text.splitOn "::" with
  | [whole] => ((groupsOf? true whole).filter (·.length = 8)).map Ipv6.mk
  | [front, back] =>
    match groupsOf? false front, groupsOf? true back with
    | some front, some back =>
      let missing := 8 - (front.length + back.length)
      if missing = 0 then none else some ⟨front ++ List.replicate missing 0 ++ back⟩
    | _, _ => none
  | _ => none

/-- An address behind which a zone may be named by its number. -/
def ofZoned? (text : String) : Option Ipv6 :=
  match text.splitOn "%" with
  | [address] => ofText? address
  | [address, zone] =>
    ((Decimal.ofDigits? zone.toList).filter (· < UInt32.size)).bind fun _ => ofText? address
  | _ => none

/-- Whether the address stands for every address. -/
def isAny (a : Ipv6) : Bool := a.groups.all (· = 0)

/-- The IPv4 address that the address stands for. -/
def mapped? (a : Ipv6) : Option Ipv4 :=
  match a.groups with
  | [0, 0, 0, 0, 0, 0xFFFF, high, low] => some ⟨UInt32.ofNat (65536 * high + low)⟩
  | _ => none

end Ipv6

end CausalStore
