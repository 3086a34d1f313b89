import CausalStore.Net.Ipv6
import CausalStore.Settings

/-!
# Listening

The four listeners of a node are opened one after the other at one host. Every IPv4 address can be
listened at; the machine has no IPv6 addresses but those that stand for IPv4 addresses.
-/

namespace CausalStore

/-- An address at which one can listen. -/
inductive LocalAddress where
  | v4 (a : Ipv4)
  /-- The IPv6 address that stands for an IPv4 address. -/
  | mapped (a : Ipv4)
  /-- Every address of either kind. -/
  | any
  deriving DecidableEq

namespace LocalAddress

def render : LocalAddress → String
  | v4 a => a.render
  | mapped a => "::ffff:" ++ a.render
  | any => "::"

def ofIpv6? (a : Ipv6) : Option LocalAddress :=
  if a.isAny then some any else a.mapped?.map mapped

/-- The address that a host denotes, if one can listen at it. A zone does not matter for it. -/
def ofHost? (host : String) : Option LocalAddress :=
  if host.map Char.toLower = "localhost" then some (v4 .loopback)
  else ((Ipv4.ofText? host).map v4).or ((Ipv6.ofZoned? host).bind ofIpv6?)

/-- The one IPv4 address that is taken by listening at the address; without one it is all of them. -/
def only? : LocalAddress → Option Ipv4
  | v4 a | mapped a => if a = .any then none else some a
  | any => none

/-- Whether some connection would be for both addresses. -/
def overlaps (l m : LocalAddress) : Bool :=
  match l.only?, m.only? with
  | some a, some b => a = b
  | _, _ => true

end LocalAddress

/-- A place where somebody listens. -/
structure Listener where
  address : LocalAddress
  port : Port
  deriving DecidableEq

/-- Why a listener could not be opened. -/
structure ListenError where
  channel : String
  host : String
  port : Port
  deriving DecidableEq

def ListenError.message (e : ListenError) : String :=
  "failed to bind " ++ e.channel ++ " listener on " ++ renderHostPort e.host e.port

namespace Listener

/-- Whether two listeners stand in each other's way; port zero is any port that is free. -/
def collides (l m : Listener) : Bool :=
  l.port ≠ 0 && l.port = m.port && l.address.overlaps m.address

/-- Opens listeners at a host, where `taken` are open already. -/
def openAll (host : String) (taken : List Listener) :
    List (String × Port) → Except ListenError (List Listener)
  | [] => .ok []
  | (channel, port) :: rest =>
    match LocalAddress.ofHost? host with
    | none => .error ⟨channel, host, port⟩
    | some address =>
      let l : Listener := ⟨address, port⟩
      if taken.any l.collides then .error ⟨channel, host, port⟩
      else do return l :: (← openAll host (l :: taken) rest)

end Listener

end CausalStore
