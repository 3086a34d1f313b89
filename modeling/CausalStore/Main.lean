import CausalStore.Startup

/-!
# The program
-/

open CausalStore

/-- An id that no other node has. -/
def randomNodeId : IO NodeId := do
  let bytes ← IO.getRandomBytes 16
  let digits := bytes.toList.flatMap fun b => (Nat.toDigits 16 (256 + b.toNat)).drop 1
  return String.ofList digits

/-- The variables of the environment that stand in for options. -/
def environment : IO (List (String × String)) := do
  CommandLine.Flag.all.filterMapM fun f => do
    return (← IO.getEnv f.variableName).map fun value => (f.variableName, value)

/-- A machine on which nothing listens yet and from which no seed is reached. -/
def isolatedMachine : Machine where
  listening := []
  joinOutcome seed := .error (.unreachable seed.endpoint.render "connection refused")

def usage : String :=
  let options := CommandLine.Flag.all.map fun f => "  --" ++ f.name ++ " [" ++ f.variableName ++ "]"
  "\n".intercalate ("Usage: causal-node [OPTIONS]" :: "" :: "Options:" :: options)

def main (arguments : List String) : IO UInt32 := do
  let settings ← environment
  let report := isolatedMachine.start (fun name => settings.lookup name) arguments (← randomNodeId)
  for notice in report.notices do
    IO.println notice.render
  match report.ending with
  | .told => if report.notices.isEmpty then IO.println usage
  | .misused _ => IO.eprintln usage
  | .failed message => IO.eprintln ("Error: " ++ message)
  | .serving _ => pure ()
  return report.exitCode
