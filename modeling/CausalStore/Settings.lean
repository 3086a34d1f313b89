import CausalStore.Peer

/-!
# The settings of a node

Times are in milliseconds. `Settings.fault?` is the first reason not to start a node. A node whose
limit of requests is too high starts all the same, but it cannot serve (`Settings.servingFault?`).
-/

namespace CausalStore

structure Settings where
  nodeId : NodeId
  /-- The host at which the node listens. -/
  bindHost : String
  /-- The host at which others reach it. -/
  advertisedHost : String
  clientPort : Port
  replicationPort : Port
  discoveryPort : Port
  stateTransferPort : Port
  seed : Option Seed
  retryInterval : UInt64
  /-- Without one there is no periodic reconciliation. -/
  reconcileInterval : Option UInt64
  /-- Without one there are no periodic reports. -/
  statsInterval : Option UInt64
  connectTimeout : UInt64
  requestTimeout : UInt64
  maxConcurrentRequests : UInt64
  deriving DecidableEq

/-- Why a node does not start with its settings. -/
inductive SettingsError where
  | emptyNodeId
  | emptyAdvertisedHost
  | portInUse (channel : String) (port : Port)
  | zeroRetryInterval
  | zeroReconcileInterval
  | zeroStatsInterval
  | zeroConcurrency
  | ownSeed
  deriving DecidableEq

def SettingsError.message : SettingsError → String
  | .emptyNodeId => "node id must not be empty"
  | .emptyAdvertisedHost => "advertised host must not be empty"
  | .portInUse channel port =>
    channel ++ " port " ++ port.render ++ " is already used by another channel"
  | .zeroRetryInterval => "retry interval must be greater than zero"
  | .zeroReconcileInterval => "reconcile interval must be greater than zero"
  | .zeroStatsInterval => "stats interval must be greater than zero"
  | .zeroConcurrency => "max concurrent requests must be at least 1"
  | .ownSeed => "node cannot use itself as seed"

/-- Why a node that could start cannot serve its channels. -/
inductive ServingError where
  | overCapacity (capacity : Nat)
  deriving DecidableEq

def ServingError.message : ServingError → String
  | .overCapacity capacity =>
    "a semaphore may not have more than MAX_PERMITS permits (" ++ Decimal.text capacity ++ ")"

namespace Settings

/-- A node on this machine, its four ports from `base` on (the last port is followed by the first). -/
def onLoopback (nodeId : NodeId) (base : Port) : Settings where
  nodeId
  bindHost := "127.0.0.1"
  advertisedHost := "127.0.0.1"
  clientPort := base
  replicationPort := base + 1
  discoveryPort := base + 2
  stateTransferPort := base + 3
  seed := none
  retryInterval := 2000
  reconcileInterval := some 1000
  statsInterval := some 10000
  connectTimeout := 500
  requestTimeout := 2000
  maxConcurrentRequests := 64

/-- How the node presents itself. -/
def identity (s : Settings) : Peer :=
  ⟨s.nodeId, s.advertisedHost, s.replicationPort, s.discoveryPort, s.stateTransferPort⟩

/-- The four ports with the names of what listens there, in the order in which they are opened. -/
def listeners (s : Settings) : List (String × Port) :=
  [("client", s.clientPort), (Channel.replication.name, s.replicationPort),
    (Channel.discovery.name, s.discoveryPort), (Channel.stateTransfer.name, s.stateTransferPort)]

/-- The first listener whose port an earlier one has; zero stands for any free port. -/
def firstReused? (seen : List Port) : List (String × Port) → Option (String × Port)
  | [] => none
  | (name, port) :: rest =>
    if port ≠ 0 ∧ port ∈ seen then some (name, port) else firstReused? (port :: seen) rest

/-- The first thing that is wrong with the settings. -/
def fault? (s : Settings) : Option SettingsError :=
  if s.nodeId = "" then some .emptyNodeId
  else if s.advertisedHost = "" then some .emptyAdvertisedHost
  else match firstReused? [] s.listeners with
  | some (name, port) => some (.portInUse name port)
  | none =>
    if s.retryInterval = 0 then some .zeroRetryInterval
    else if s.reconcileInterval = some 0 then some .zeroReconcileInterval
    else if s.statsInterval = some 0 then some .zeroStatsInterval
    else if s.maxConcurrentRequests = 0 then some .zeroConcurrency
    else if s.seed = some ⟨s.advertisedHost, s.discoveryPort⟩ then some .ownSeed
    else none

/-- The most requests that a channel can be told to work on at once. -/
def requestCapacity : Nat := 2305843009213693951

/-- Why a node with these settings cannot serve its channels. -/
def servingFault? (s : Settings) : Option ServingError :=
  if requestCapacity < s.maxConcurrentRequests.toNat then some (.overCapacity requestCapacity) else none

end Settings

end CausalStore
