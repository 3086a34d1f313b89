import CausalStore.Dispatch
import CausalStore.Directory
import CausalStore.Proofs.Runs

/-!
# Dispatchers

A dispatcher with the tasks that it runs: one for each send, and in a retry pass one for each peer
that something waits for. The end of an exchange and what the task makes of it are two steps, so
that any other task may act in between. How an exchange ends is left open.
-/

namespace CausalStore

/-- How many times an exchange with this end got through. -/
def Outcome.successes : Outcome → Nat
  | .ok _ => 1
  | .error _ => 0

def RetryReport.add (r s : RetryReport) : RetryReport :=
  ⟨r.attempted + s.attempted, r.delivered + s.delivered⟩

/-- What waits for an address in `o` and no longer does in `o'`. -/
def Outbox.lost (o o' : Outbox) (a : Address) : List Queued :=
  (o.pendingFor a).filter fun q => q ∉ o'.pendingFor a

theorem Outbox.lost_self (o : Outbox) (a : Address) : o.lost o a = [] := by
  refine List.filter_eq_nil_iff.2 fun q hq => ?_
  simpa using hq

/-! ## Sends -/

/-- How far the task of a send has come. -/
inductive Stage where
  | trying
  /-- The first attempt has ended, and the task has yet to act on it. -/
  | returned (outcome : Outcome)
  | settled (reply : Option Message)
  /-- The first attempt failed, and the message was put into a queue under `id`. -/
  | queued (cause : ExchangeError) (id : UInt64)

/-- A send and what has become of it. -/
structure Parcel where
  send : Send
  stage : Stage
  /-- How many exchanges of the message got through. -/
  successes : Nat

namespace Parcel

def new (s : Send) : Parcel := ⟨s, .trying, 0⟩

def address (p : Parcel) : Address := p.send.peer.address

/-- As what the message was queued. -/
def queuedAs? (p : Parcel) : Option Queued :=
  match p.stage with
  | .queued _ id => some ⟨id, p.send.message⟩
  | _ => none

def id? (p : Parcel) : Option UInt64 := p.queuedAs?.map (·.id)

/-- The parcel after a retry of what was queued under `id`. -/
def credit (id : UInt64) (outcome : Outcome) (p : Parcel) : Parcel :=
  if p.id? = some id then { p with successes := p.successes + outcome.successes } else p

end Parcel

/-! ## Retries -/

/-- How far a batch has come. -/
inductive Phase where
  | spawned
  | trying (q : Queued) (rest : List Queued)
  /-- The retry of `q` has ended, and the batch has yet to act on it. -/
  | returned (q : Queued) (outcome : Outcome) (rest : List Queued)
  | done

namespace Phase

def isDone : Phase → Bool
  | done => true
  | _ => false

/-- The phase in which the retries of these messages begin. -/
def begin : List Queued → Phase
  | [] => done
  | q :: rest => trying q rest

/-- What the batch has copied and is not done with. -/
def left : Phase → List Queued
  | spawned | done => []
  | trying q rest | returned q _ rest => q :: rest

end Phase

/-- The retries for one peer. -/
structure Batch where
  peer : Peer
  phase : Phase
  report : RetryReport
  /-- What waited for the peer when the batch began. -/
  copied : List Queued
  /-- What the batch has taken out of the queue. -/
  removed : List Queued

def Batch.new (p : Peer) : Batch := ⟨p, .spawned, ⟨0, 0⟩, [], []⟩

/-- A retry pass that has not ended. -/
structure Pass where
  batches : List Batch
  /-- What was put into which queue since the pass began. -/
  added : List (Address × Queued)

namespace Pass

def new (ps : List Peer) : Pass := ⟨ps.map .new, []⟩

def set (pass : Pass) (k : Nat) (b : Batch) : Pass := { pass with batches := pass.batches.set k b }

def note (pass : Pass) (a : Address) (q : Queued) : Pass :=
  { pass with added := (a, q) :: pass.added }

def report (pass : Pass) : RetryReport := pass.batches.foldl (fun r b => r.add b.report) ⟨0, 0⟩

end Pass

/-! ## The dispatcher -/

structure Dispatcher where
  directory : Directory
  outbox : Outbox
  parcels : List Parcel
  pass : Option Pass
  /-- How many messages were put into a queue. -/
  enqueued : Nat
  /-- The passes that have ended, and what they reported. -/
  ended : List (Pass × RetryReport)

namespace Dispatcher

/-- Sends are known by their number, and so are the batches of a pass. -/
inductive Action where
  | learn (p : Peer)
  | broadcast (u : Update)
  | sendToAll (ps : List Peer) (m : Message)
  | sendTo (p : Peer) (m : Message)
  /-- The first attempt of a send ends. -/
  | attempted (n : Nat) (outcome : Outcome)
  /-- The task of a send acts on this, and is over. -/
  | conclude (n : Nat)
  | startPass
  /-- A batch copies the queue of its peer. -/
  | copy (k : Nat)
  /-- The exchange that a batch waits for ends. -/
  | retried (k : Nat) (outcome : Outcome)
  /-- A batch acts on this, and goes on to its next message. -/
  | proceed (k : Nat)
  | endPass

def start (directory : Directory) : Dispatcher := ⟨directory, .empty, [], none, 0, []⟩

def launch (d : Dispatcher) (ss : List Send) : Dispatcher :=
  { d with parcels := d.parcels ++ ss.map .new }

def setParcel (d : Dispatcher) (n : Nat) (p : Parcel) : Dispatcher :=
  { d with parcels := d.parcels.set n p }

def setBatch (d : Dispatcher) (pass : Pass) (k : Nat) (b : Batch) : Dispatcher :=
  { d with pass := some (pass.set k b) }

def attempted (d : Dispatcher) (n : Nat) (outcome : Outcome) : Option Dispatcher :=
  match d.parcels[n]? with
  | some ⟨s, .trying, k⟩ => some (d.setParcel n ⟨s, .returned outcome, k + outcome.successes⟩)
  | _ => none

/-- The dispatcher after the failed send `n` was queued. -/
def queue (d : Dispatcher) (n : Nat) (s : Send) (k : Nat) (cause : ExchangeError) : Dispatcher :=
  { d.setParcel n ⟨s, .queued cause d.outbox.nextId, k⟩ with
    outbox := d.outbox.afterSend s (.error cause)
    pass := d.pass.map (·.note s.peer.address ⟨d.outbox.nextId, s.message⟩)
    enqueued := d.enqueued + 1 }

def conclude (d : Dispatcher) (n : Nat) : Option Dispatcher :=
  match d.parcels[n]? with
  | some ⟨s, .returned (.ok reply), k⟩ =>
    some { d.setParcel n ⟨s, .settled reply, k⟩ with outbox := d.outbox.afterSend s (.ok reply) }
  | some ⟨s, .returned (.error cause), k⟩ => some (d.queue n s k cause)
  | _ => none

def startPass (d : Dispatcher) : Option Dispatcher :=
  match d.pass with
  | none => some { d with pass := some (.new d.outbox.peersWithPending) }
  | some _ => none

def batch? (d : Dispatcher) (k : Nat) : Option (Pass × Batch) :=
  d.pass.bind fun pass => pass.batches[k]?.map fun b => (pass, b)

def copy (d : Dispatcher) (k : Nat) : Option Dispatcher :=
  match d.batch? k with
  | some (pass, ⟨p, .spawned, r, _, removed⟩) =>
    let waiting := d.outbox.pendingFor p.address
    some (d.setBatch pass k ⟨p, .begin waiting, r, waiting, removed⟩)
  | _ => none

def retried (d : Dispatcher) (k : Nat) (outcome : Outcome) : Option Dispatcher :=
  match d.batch? k with
  | some (pass, ⟨p, .trying q rest, r, copied, removed⟩) =>
    some { d.setBatch pass k ⟨p, .returned q outcome rest, r, copied, removed⟩ with
      parcels := d.parcels.map (.credit q.id outcome) }
  | _ => none

def proceed (d : Dispatcher) (k : Nat) : Option Dispatcher :=
  match d.batch? k with
  | some (pass, ⟨p, .returned q outcome rest, r, copied, removed⟩) =>
    let outbox := d.outbox.afterRetry p q.id outcome
    let removed := removed ++ d.outbox.lost outbox p.address
    some { d.setBatch pass k ⟨p, .begin rest, r.count outcome, copied, removed⟩ with outbox }
  | _ => none

def endPass (d : Dispatcher) : Option Dispatcher :=
  match d.pass with
  | some pass =>
    if pass.batches.all (·.phase.isDone) then
      some { d with pass := none, ended := (pass, pass.report) :: d.ended }
    else none
  | none => none

/-- What an action makes of a dispatcher. A pass begins when the one before it has ended. -/
def step (d : Dispatcher) : Action → Option Dispatcher
  | .learn p => some { d with directory := d.directory.add p }
  | .broadcast u => some (d.launch (d.directory.peers.map fun p => ⟨p, .update u⟩))
  | .sendToAll ps m => some (d.launch (ps.map fun p => ⟨p, m⟩))
  | .sendTo p m => some (d.launch [⟨p, m⟩])
  | .attempted n outcome => d.attempted n outcome
  | .conclude n => d.conclude n
  | .startPass => d.startPass
  | .copy k => d.copy k
  | .retried k outcome => d.retried k outcome
  | .proceed k => d.proceed k
  | .endPass => d.endPass

/-! ## The moves that the actions make -/

/-- What an action comes down to where it is possible. -/
inductive Move (d : Dispatcher) : Action → Dispatcher → Prop
  | learn (p : Peer) : d.Move (.learn p) { d with directory := d.directory.add p }
  | launch (x : Action) (ss : List Send) : d.Move x (d.launch ss)
  | attempted {n s k} (outcome : Outcome) : d.parcels[n]? = some ⟨s, .trying, k⟩ →
      d.Move (.attempted n outcome)
        (d.setParcel n ⟨s, .returned outcome, k + outcome.successes⟩)
  | settle {n s reply k} : d.parcels[n]? = some ⟨s, .returned (.ok reply), k⟩ →
      d.Move (.conclude n) (d.setParcel n ⟨s, .settled reply, k⟩)
  | queue {n s cause k} : d.parcels[n]? = some ⟨s, .returned (.error cause), k⟩ →
      d.Move (.conclude n) (d.queue n s k cause)
  | startPass : d.pass = none →
      d.Move .startPass { d with pass := some (.new d.outbox.peersWithPending) }
  | copy {k pass b} : d.pass = some pass → pass.batches[k]? = some b → b.phase = .spawned →
      d.Move (.copy k) (d.setBatch pass k
        { b with
          phase := .begin (d.outbox.pendingFor b.peer.address)
          copied := d.outbox.pendingFor b.peer.address })
  | retried {k pass b q rest} (outcome : Outcome) : d.pass = some pass →
      pass.batches[k]? = some b → b.phase = .trying q rest →
      d.Move (.retried k outcome)
        { d.setBatch pass k { b with phase := .returned q outcome rest } with
          parcels := d.parcels.map (.credit q.id outcome) }
  | failedAgain {k pass b q error rest} : d.pass = some pass → pass.batches[k]? = some b →
      b.phase = .returned q (.error error) rest →
      d.Move (.proceed k) (d.setBatch pass k
        { b with phase := .begin rest, report := b.report.count (.error error) })
  | remove {k pass b q reply rest} : d.pass = some pass → pass.batches[k]? = some b →
      b.phase = .returned q (.ok reply) rest →
      d.Move (.proceed k)
        { d.setBatch pass k
            { b with
              phase := .begin rest
              report := b.report.count (.ok reply)
              removed := b.removed ++
                d.outbox.lost (d.outbox.remove b.peer.address q.id) b.peer.address } with
          outbox := d.outbox.remove b.peer.address q.id }
  | endPass {pass} : d.pass = some pass → (∀ b ∈ pass.batches, b.phase.isDone = true) →
      d.Move .endPass { d with pass := none, ended := (pass, pass.report) :: d.ended }

variable {d d' : Dispatcher} {x : Action} {pass : Pass} {b : Batch} {k : Nat}

theorem batch?_eq_some (h : d.batch? k = some (pass, b)) :
    d.pass = some pass ∧ pass.batches[k]? = some b := by
  obtain ⟨pass', hpass, hb⟩ := Option.bind_eq_some_iff.1 h
  obtain ⟨b', hb, heq⟩ := Option.map_eq_some_iff.1 hb
  cases heq
  exact ⟨hpass, hb⟩

theorem move_of_step (h : d.step x = some d') : d.Move x d' := by
  cases x with
  | learn p => cases h; exact .learn p
  | broadcast u | sendToAll ps m | sendTo p m => cases h; exact .launch _ _
  | attempted n outcome =>
    simp only [step, Dispatcher.attempted] at h
    split at h
    next hp => cases h; exact .attempted outcome hp
    next => cases h
  | conclude n =>
    simp only [step, Dispatcher.conclude] at h
    split at h
    next hp => cases h; exact .settle hp
    next hp => cases h; exact .queue hp
    next => cases h
  | startPass =>
    simp only [step, Dispatcher.startPass] at h
    split at h
    next hpass => cases h; exact .startPass hpass
    next => cases h
  | copy k =>
    simp only [step, Dispatcher.copy] at h
    split at h
    next hb =>
      cases h
      obtain ⟨hpass, hb⟩ := batch?_eq_some hb
      exact .copy hpass hb rfl
    next => cases h
  | retried k outcome =>
    simp only [step, Dispatcher.retried] at h
    split at h
    next hb =>
      cases h
      obtain ⟨hpass, hb⟩ := batch?_eq_some hb
      exact .retried outcome hpass hb rfl
    next => cases h
  | proceed k =>
    simp only [step, Dispatcher.proceed] at h
    split at h
    next pass p q outcome rest r copied removed hb =>
      cases h
      obtain ⟨hpass, hb⟩ := batch?_eq_some hb
      cases outcome with
      | ok reply => exact .remove hpass hb rfl
      | error error =>
        simp only [Outbox.afterRetry, Outbox.lost_self, List.append_nil]
        exact .failedAgain hpass hb rfl
    next => cases h
  | endPass =>
    simp only [step, Dispatcher.endPass] at h
    split at h
    next pass hpass =>
      split at h
      next hdone => cases h; exact .endPass hpass (List.all_eq_true.1 hdone)
      next => cases h
    next => cases h

end Dispatcher
end CausalStore
