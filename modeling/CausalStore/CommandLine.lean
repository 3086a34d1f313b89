import CausalStore.Settings

/-!
# Command line

Each setting has an option, and a variable of the environment that stands in for it. Arguments are
judged from left to right; a value that follows its option as an argument of its own is judged when
the next option comes, or at the end.
-/

namespace CausalStore.CommandLine

/-- The options that take a value. -/
inductive Flag where
  | id
  | bind
  | advertise
  | basePort
  | clientPort
  | replicationPort
  | discoveryPort
  | statePort
  | seedHost
  | seedPort
  | retry
  | reconcile
  | stats
  | connectTimeout
  | requestTimeout
  | maxConcurrent
  deriving DecidableEq

/-- What an option's value is. -/
inductive ValueKind where
  | text
  | port
  | word
  deriving DecidableEq

namespace Flag

def all : List Flag :=
  [id, bind, advertise, basePort, clientPort, replicationPort, discoveryPort, statePort, seedHost,
    seedPort, retry, reconcile, stats, connectTimeout, requestTimeout, maxConcurrent]

/-- The name on the command line, behind two dashes. -/
def name : Flag → String
  | id => "id"
  | bind => "bind"
  | advertise => "advertise"
  | basePort => "base-port"
  | clientPort => "client-port"
  | replicationPort => "replication-port"
  | discoveryPort => "discovery-port"
  | statePort => "state-port"
  | seedHost => "seed-host"
  | seedPort => "seed-port"
  | retry => "retry-ms"
  | reconcile => "reconcile-ms"
  | stats => "stats-ms"
  | connectTimeout => "connect-timeout-ms"
  | requestTimeout => "request-timeout-ms"
  | maxConcurrent => "max-concurrent"

/-- The variable that stands in for the option. -/
def variableName : Flag → String
  | id => "CAUSAL_NODE_ID"
  | bind => "CAUSAL_BIND"
  | advertise => "CAUSAL_ADVERTISE"
  | basePort => "CAUSAL_BASE_PORT"
  | clientPort => "CAUSAL_CLIENT_PORT"
  | replicationPort => "CAUSAL_REPLICATION_PORT"
  | discoveryPort => "CAUSAL_DISCOVERY_PORT"
  | statePort => "CAUSAL_STATE_PORT"
  | seedHost => "CAUSAL_SEED_HOST"
  | seedPort => "CAUSAL_SEED_PORT"
  | retry => "CAUSAL_RETRY_MS"
  | reconcile => "CAUSAL_RECONCILE_MS"
  | stats => "CAUSAL_STATS_MS"
  | connectTimeout => "CAUSAL_CONNECT_TIMEOUT_MS"
  | requestTimeout => "CAUSAL_REQUEST_TIMEOUT_MS"
  | maxConcurrent => "CAUSAL_MAX_CONCURRENT"

def ofName? (name : List Char) : Option Flag := all.find? (·.name.toList = name)

def kind : Flag → ValueKind
  | id | bind | advertise | seedHost => .text
  | basePort | clientPort | replicationPort | discoveryPort | statePort | seedPort => .port
  | retry | reconcile | stats | connectTimeout | requestTimeout | maxConcurrent => .word

end Flag

/-- Why there are no settings. -/
inductive ArgumentError where
  | helpWanted
  | versionWanted
  | unknownArgument
  | missingValue
  | superfluousValue
  | repeated
  | invalidValue
  /-- The seed's host and port need each other. -/
  | missingArgument
  deriving DecidableEq

/-! ## Values -/

/-- A number that may have a plus sign. -/
def wordOf? (value : String) : Option UInt64 :=
  let digits :=
    match value.toList with
    | '+' :: ds => ds
    | ds => ds
  (Decimal.ofDigits? digits).bind fun n => if n < UInt64.size then some (UInt64.ofNat n) else none

/-- A number that may have either sign, as long as it is a port. -/
def portOf? (value : String) : Option Port :=
  let (negative, digits) : Bool × List Char :=
    match value.toList with
    | '-' :: ds => (true, ds)
    | '+' :: ds => (false, ds)
    | ds => (false, ds)
  (Decimal.ofDigits? digits).bind fun n =>
    if n < UInt16.size ∧ (negative → n = 0) then some (UInt16.ofNat n) else none

def ValueKind.admits (value : String) : ValueKind → Bool
  | .text => true
  | .port => (portOf? value).isSome
  | .word => (wordOf? value).isSome

/-! ## Arguments -/

/-- The values given, the latest first. -/
abbrev Given := List (Flag × String)

/-- An option whose value, if it has come yet, is still to be judged. -/
structure Pending where
  flag : Flag
  value : Option String

/-- Takes a value for an option. -/
def take (given : Given) (f : Flag) (value : String) : Except ArgumentError Given :=
  if given.any (·.1 = f) then .error .repeated
  else if f.kind.admits value then .ok ((f, value) :: given)
  else .error .invalidValue

/-- Judges what is pending. -/
def resolve (given : Given) : Option Pending → Except ArgumentError Given
  | none => .ok given
  | some ⟨_, none⟩ => .error .missingValue
  | some ⟨f, some value⟩ => take given f value

/-- An argument by its form. -/
inductive Form where
  /-- Two dashes alone: there are no options behind them. -/
  | separator
  | long (name : List Char) (value : Option String)
  /-- A dash with letters, of which only the first is of interest. -/
  | short (letter : Char)
  | plain

def formOf (argument : List Char) : Form :=
  match argument with
  | ['-', '-'] => .separator
  | '-' :: '-' :: r =>
    match r.span (· ≠ '=') with
    | (name, '=' :: value) => .long name (some (String.ofList value))
    | (name, _) => .long name none
  | '-' :: c :: _ => .short c
  | _ => .plain

/-- The values that the arguments give. Help and version are due when they are met. -/
def readArguments (given : Given) (pending : Option Pending) :
    List String → Except ArgumentError Given
  | [] => resolve given pending
  | argument :: rest =>
    let wanted (e : ArgumentError) : Except ArgumentError Given := do
      discard (resolve given pending)
      throw e
    match formOf argument.toList with
    | .separator => if rest = [] then resolve given pending else throw .unknownArgument
    | .short 'h' => wanted .helpWanted
    | .short 'V' => wanted .versionWanted
    | .short _ => throw .unknownArgument
    | .long name value =>
      if name = "help".toList ∨ name = "version".toList then
        if value.isSome then throw .superfluousValue
        else wanted (if name = "help".toList then .helpWanted else .versionWanted)
      else
        match Flag.ofName? name, value with
        | none, _ => throw .unknownArgument
        | some f, some value => do
          readArguments (← take (← resolve given pending) f value) none rest
        | some f, none => do readArguments (← resolve given pending) (some ⟨f, none⟩) rest
    | .plain =>
      match pending with
      | some ⟨f, none⟩ => readArguments given (some ⟨f, some argument⟩) rest
      | _ => throw .unknownArgument

/-- Adds the values of variables for options that were not given. -/
def readVariables (environment : String → Option String) (given : Given) :
    List Flag → Except ArgumentError Given
  | [] => .ok given
  | f :: rest =>
    match environment f.variableName with
    | some value =>
      if given.any (·.1 = f) then readVariables environment given rest
      else do readVariables environment (← take given f value) rest
    | none => readVariables environment given rest

/-- The values that arguments and variables give. -/
def read (environment : String → Option String) (arguments : List String) :
    Except ArgumentError Given := do
  let given ← readVariables environment (← readArguments [] none arguments) Flag.all
  if (given.lookup .seedHost).isSome ≠ (given.lookup .seedPort).isSome then throw .missingArgument
  return given

/-! ## Settings -/

/-- The settings that values make up. Intervals of zero leave their loops out. -/
def settings (given : Given) (randomId : NodeId) : Settings :=
  let text (f : Flag) (default : String) : String := (given.lookup f).getD default
  let port (f : Flag) (default : Port) : Port := ((given.lookup f).bind portOf?).getD default
  let word (f : Flag) (default : UInt64) : UInt64 := ((given.lookup f).bind wordOf?).getD default
  let interval (n : UInt64) : Option UInt64 := if n = 0 then none else some n
  let defaults := Settings.onLoopback (text .id randomId) (port .basePort 8080)
  { defaults with
    bindHost := text .bind "0.0.0.0"
    advertisedHost := text .advertise "127.0.0.1"
    clientPort := port .clientPort defaults.clientPort
    replicationPort := port .replicationPort defaults.replicationPort
    discoveryPort := port .discoveryPort defaults.discoveryPort
    stateTransferPort := port .statePort defaults.stateTransferPort
    seed := (given.lookup .seedHost).map fun host => ⟨host, port .seedPort 0⟩
    retryInterval := word .retry 2000
    reconcileInterval := interval (word .reconcile 1000)
    statsInterval := interval (word .stats 10000)
    connectTimeout := word .connectTimeout 500
    requestTimeout := word .requestTimeout 2000
    maxConcurrentRequests := word .maxConcurrent 64 }

end CausalStore.CommandLine
