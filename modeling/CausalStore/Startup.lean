import CausalStore.CommandLine
import CausalStore.Listen
import CausalStore.Node
import CausalStore.Text.Control

/-!
# Starting a node from the command line

A node first says who it is, then opens its listeners, and only then judges its settings. It is ready
when it has tried to join, whether it could or not.
-/

namespace CausalStore

def version : String := "0.1.0"

/-- What a starting node says. -/
inductive Notice where
  | version
  | starting (id : NodeId)
  | seed (s : Seed)
  | founder
  | joinFailed
  | ready (id : NodeId)
  deriving DecidableEq

namespace Notice

/-- A line of the log. -/
def logLine (level text : String) : String := level ++ " " ++ Control.escapeText text

def render : Notice → String
  | version => "causal-node " ++ CausalStore.version
  | starting id => logLine "INFO" ("Starting node " ++ id)
  | seed s => logLine "INFO" ("Seed node: " ++ s.render)
  | founder => logLine "INFO" "Starting as seed node (founder)"
  | joinFailed => logLine "ERROR" "Failed to join network via seed"
  | ready id => logLine "INFO" ("Node " ++ id ++ " ready, accepting client requests")

end Notice

/-- Where a start ends. -/
inductive StartEnd where
  /-- Help or the version was asked for. -/
  | told
  | misused (e : CommandLine.ArgumentError)
  | failed (message : String)
  | serving (n : Node)

structure StartReport where
  notices : List Notice
  ending : StartEnd

namespace StartReport

def isReady (r : StartReport) : Bool :=
  match r.ending with
  | .serving _ => true
  | _ => false

def exitCode (r : StartReport) : UInt32 :=
  match r.ending with
  | .told | .serving _ => 0
  | .misused _ => 2
  | .failed _ => 1

def notice (n : Notice) (r : StartReport) : StartReport := { r with notices := n :: r.notices }

end StartReport

/-- What the machine is like on which a node starts. -/
structure Machine where
  listening : List Listener
  /-- How the request to join ends. -/
  joinOutcome : Seed → Outcome

namespace Machine

/-- Joins, if there is a seed. -/
def join (m : Machine) (n : Node) : StartReport :=
  let ready (n : Node) : StartReport := ⟨[.ready n.settings.nodeId], .serving n⟩
  match n.settings.seed with
  | none => ready n
  | some seed =>
    match n.concludeJoin seed (m.joinOutcome seed) with
    | .ok (n, _) => ready n
    | .error _ => (ready n).notice .joinFailed

/-- Starts a node with its settings. -/
def startNode (m : Machine) (s : Settings) : StartReport :=
  let started : StartReport :=
    match Listener.openAll s.bindHost m.listening s.listeners with
    | .error e => ⟨[], .failed e.message⟩
    | .ok _ =>
      match Node.start s with
      | .error e => ⟨[], .failed e.message⟩
      | .ok n => m.join n
  let role : Notice :=
    match s.seed with
    | some seed => .seed seed
    | none => .founder
  (started.notice role).notice (.starting s.nodeId)

/-- Starts a node as arguments and variables say. -/
def start (m : Machine) (environment : String → Option String) (arguments : List String)
    (randomId : NodeId) : StartReport :=
  match CommandLine.read environment arguments with
  | .error .helpWanted => ⟨[], .told⟩
  | .error .versionWanted => ⟨[.version], .told⟩
  | .error e => ⟨[], .misused e⟩
  | .ok given => m.startNode (CommandLine.settings given randomId)

end Machine

end CausalStore
