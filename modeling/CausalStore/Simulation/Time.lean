import CausalStore.Simulation.World

/-!
# Virtual time

Time passes only where somebody waits. `World.advanceTo` lets everything happen that is due on the
way, each thing at its moment.
-/

namespace CausalStore.Simulation

namespace RetryLoop

/-- How many ticks are due. -/
def dueTicks (l : RetryLoop) (now : Nat) : Nat := (now + l.period - l.next) / l.period

/-- The loop after the ticks that are due. -/
def skip (l : RetryLoop) (now : Nat) : RetryLoop :=
  { l with next := l.next + l.dueTicks now * l.period }

end RetryLoop

namespace World

/-- Whether the pass of a loop is still under way. -/
def passHangs (w : World) (loop : Nat) : Bool := w.hanging.any (·.loop = some loop)

/-- Lets a retry loop tick. A pass that neither reaches anybody nor hangs leaves everything as it was,
so the other ticks that are due are left out after it. -/
def tick (w : World) (l : RetryLoop) : World × RetryLoop :=
  let w' := w.retryPass l.node (some l.id)
  if w'.passHangs l.id then (w', { l with next := l.next + l.period, busy := true })
  else if w'.reached.length = w.reached.length then (w', l.skip w.now)
  else (w', { l with next := l.next + l.period })

/-- Lets a retry loop do what is due. Ticks that were missed during a pass are made up for at once. -/
def runRetryLoop (w : World) (l : RetryLoop) : World × RetryLoop :=
  (l.dueTicks w.now).repeat (fun (w, l) =>
    if l.busy = false ∧ l.next ≤ w.now then w.tick l else (w, l))
    (w, { l with busy := w.passHangs l.id })

def runReconcileLoop (w : World) (l : ReconcileLoop) : World × ReconcileLoop :=
  if l.next ≤ w.now then (w.update l.node Node.reconcile, { l with next := l.next + l.period })
  else (w, l)

/-- Runs loops one after the other. -/
def runLoops {α : Type} (run : World → α → World × α) (w : World) : List α → World × List α
  | [] => (w, [])
  | l :: rest =>
    let (w, l) := run w l
    let (w, ls) := runLoops run w rest
    (w, l :: ls)

/-- Everything that is due now. -/
def runDue (w : World) : World :=
  let due := w.hanging.filter fun h => h.due ≤ w.now
  let w := { w with hanging := w.hanging.filter fun h => ¬ h.due ≤ w.now }
  let w := due.foldl conclude w
  let (w, retryLoops) := runLoops runRetryLoop w w.retryLoops
  let w := { w with retryLoops }
  let (w, reconcileLoops) := runLoops runReconcileLoop w w.reconcileLoops
  { w with reconcileLoops }

/-- The moments for which something is planned. -/
def moments (w : World) : List Nat :=
  w.hanging.map (·.due) ++ (w.retryLoops.filter fun l => !l.busy).map (·.next)
    ++ w.reconcileLoops.map (·.next)

def nextMoment? (w : World) : Option Nat := w.moments.min?

/-- Lets the time pass until `deadline`. -/
def advanceTo (w : World) (deadline : Nat) : World :=
  match w.nextMoment? with
  | none => { w with now := max w.now deadline }
  | some t =>
    if _h : w.now < t ∧ t ≤ deadline then
      let w' := { w with now := t }.runDue
      { w' with now := t }.advanceTo deadline
    else { w with now := max w.now deadline }
termination_by deadline - w.now
decreasing_by
  obtain ⟨h₁, h₂⟩ := _h
  show deadline - t < deadline - w.now
  omega

def advance (w : World) (time : Nat) : World := w.advanceTo (w.now + time)

/-! ## Waiting -/

/-- The attempts for whose end somebody waits. -/
def awaited (w : World) : List Hanging := w.hanging.filter fun h => h.loop.isNone

/-- Waits until no awaited attempt is left. Each moment waited for ends at least one. -/
def settle (w : World) : World :=
  let attempts := w.awaited.foldl (fun n h => n + h.job.attempts) 0
  attempts.repeat (fun w =>
    match (w.awaited.map (·.due)).min? with
    | some t => w.advanceTo t
    | none => w) w

/-- An exchange whose end is waited for. -/
def exchange (w : World) (e : Endpoint) (m : Message) : Outcome × World :=
  match w.contact e m with
  | (.ended outcome, w) => (outcome, w)
  | (.hangs time error, w) => (.error error, w.advance time)

end World

end CausalStore.Simulation
