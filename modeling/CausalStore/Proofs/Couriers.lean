import CausalStore.Proofs.Queues
import CausalStore.Simulation.World

/-!
# Couriers

A courier is a dispatcher in virtual time: its queues, the loop that retries what they hold, and
the exchanges that have yet to end. How long an exchange takes and how it ends is up to the
surroundings, which may go by all that was tried with the host before. The loop ticks at fixed
intervals. It waits for the end of a pass, and then makes up for the ticks that it missed.
-/

namespace CausalStore

namespace Simulation.Job

def peer : Job → Peer
  | send s => s.peer
  | retry p _ _ => p

def message : Job → Message
  | send s => s.message
  | retry _ q _ => q.message

def endpoint (x : Job) : Endpoint := x.peer.endpoint x.message.channel

def isRetry : Job → Bool
  | send _ => false
  | retry .. => true

end Simulation.Job

open Simulation (Job)

theorem Outbox.nextId_remove (o : Outbox) (a : Address) (id : UInt64) :
    (o.remove a id).nextId = o.nextId := by
  unfold remove
  split <;> rfl

/-- An exchange that was started. -/
structure Attempt where
  time : Nat
  endpoint : Endpoint
  message : Message
  deriving DecidableEq

/-- How long an attempt takes and how it ends, after the earlier ones with its host, the latest
first. -/
abbrev Surroundings := List Attempt → Attempt → Nat × Outcome

/-- An exchange that will end later. -/
structure Flight where
  due : Nat
  outcome : Outcome
  job : Job

structure Courier where
  now : Nat
  /-- The interval of the retry loop. -/
  period : Nat
  /-- When the loop ticks next. -/
  next : Nat
  outbox : Outbox
  flights : List Flight
  /-- All attempts, the latest first. -/
  attempts : List Attempt
  /-- How many messages were put into a queue. -/
  enqueued : Nat

namespace Courier

/-- A courier whose loop ticks for the first time at `first`. -/
def start (first period : Nat) : Courier := ⟨0, period, first, .empty, [], [], 0⟩

/-! ## Exchanges -/

def attempt (d : Courier) (x : Job) : Attempt := ⟨d.now, x.endpoint, x.message⟩

/-- How long the exchange takes if it is started now, and how it ends. -/
def forecast (env : Surroundings) (d : Courier) (x : Job) : Nat × Outcome :=
  env (d.attempts.filter fun a => a.endpoint.host = x.endpoint.host) (d.attempt x)

def note (d : Courier) (x : Job) : Courier := { d with attempts := d.attempt x :: d.attempts }

/-- The courier when an exchange has ended. -/
def settle (d : Courier) (x : Job) (o : Outcome) : Courier :=
  match x, o with
  | .send s, .error e =>
    { d with outbox := d.outbox.afterSend s (.error e), enqueued := d.enqueued + 1 }
  | .send s, .ok r => { d with outbox := d.outbox.afterSend s (.ok r) }
  | .retry p q _, o => { d with outbox := d.outbox.afterRetry p q.id o }

def launch (d : Courier) (x : Job) (f : Nat × Outcome) : Courier :=
  { d with flights := d.flights ++ [⟨d.now + f.1, f.2, x⟩] }

/-- Starts an exchange, which may end at once. -/
def begin (env : Surroundings) (d : Courier) (x : Job) : Courier :=
  let f := d.forecast env x
  if f.1 = 0 then (d.note x).settle x f.2 else (d.note x).launch x f

/-- Retries messages for a peer one after the other, until one takes its time. -/
def retryBatch (env : Surroundings) (p : Peer) : Courier → List Queued → Courier
  | d, [] => d
  | d, q :: rest =>
    let x := .retry p q rest
    if (d.forecast env x).1 = 0 then retryBatch env p (d.begin env x) rest else d.begin env x

/-- The end of an exchange that took its time. The batch that it belongs to goes on. -/
def land (env : Surroundings) (d : Courier) (f : Flight) : Courier :=
  match f.job with
  | .send _ => d.settle f.job f.outcome
  | .retry p _ rest => retryBatch env p (d.settle f.job f.outcome) rest

/-! ## The retry loop -/

/-- Whether a pass is under way. -/
def busy (d : Courier) : Bool := d.flights.any (·.job.isRetry)

def retryPass (env : Surroundings) (d : Courier) : Courier :=
  d.outbox.waiting.foldl (fun d q => d.retryBatch env q.peer q.messages) d

def tick (env : Surroundings) (d : Courier) : Courier :=
  let d' := d.retryPass env
  { d' with next := d'.next + d'.period }

/-- How many ticks are due. -/
def dueTicks (d : Courier) : Nat := (d.now + d.period - d.next) / d.period

/-- Ticks as long as this is due and no pass is under way. -/
def catchUp (env : Surroundings) : Nat → Courier → Courier
  | 0, d => d
  | n + 1, d => if d.busy = false ∧ d.next ≤ d.now then catchUp env n (d.tick env) else d

/-- The exchanges that are over, and those that are not. -/
def landed (d : Courier) : List Flight := d.flights.filter fun f => f.due ≤ d.now

def aloft (d : Courier) : Courier := { d with flights := d.flights.filter fun f => ¬ f.due ≤ d.now }

/-- Everything that is due. -/
def runDue (env : Surroundings) (d : Courier) : Courier :=
  let d' := d.landed.foldl (land env) d.aloft
  d'.catchUp env d'.dueTicks

/-! ## Runs -/

inductive Event where
  /-- Somebody wants a message sent. -/
  | call (s : Send)
  /-- A millisecond passes. -/
  | elapse

def act (env : Surroundings) (d : Courier) : Event → Courier
  | .call s => d.begin env (.send s)
  | .elapse => runDue env { d with now := d.now + 1 }

def run (env : Surroundings) (d : Courier) (es : List Event) : Courier := es.foldl (act env) d

variable {env : Surroundings} {d : Courier} {x : Job} {o : Outcome} {p : Peer} {q : Queued}
  {rest : List Queued} {f : Flight}

theorem run_append (es es' : List Event) : d.run env (es ++ es') = (d.run env es).run env es' :=
  List.foldl_append

theorem run_singleton (e : Event) : d.run env [e] = d.act env e := rfl

/-! ## What is put into queues -/

theorem begin_of_zero (h : (d.forecast env x).1 = 0) :
    d.begin env x = (d.note x).settle x (d.forecast env x).2 := if_pos h

theorem begin_of_ne_zero (h : (d.forecast env x).1 ≠ 0) :
    d.begin env x = (d.note x).launch x (d.forecast env x) := if_neg h

theorem retryBatch_of_zero (h : (d.forecast env (.retry p q rest)).1 = 0) :
    d.retryBatch env p (q :: rest) = (d.begin env (.retry p q rest)).retryBatch env p rest :=
  if_pos h

theorem retryBatch_of_ne_zero (h : (d.forecast env (.retry p q rest)).1 ≠ 0) :
    d.retryBatch env p (q :: rest) = d.begin env (.retry p q rest) := if_neg h

theorem enqueued_le_settle : d.enqueued ≤ (d.settle x o).enqueued := by
  unfold settle
  split
  · exact Nat.le_succ _
  · exact Nat.le_refl _
  · exact Nat.le_refl _

theorem enqueued_le_begin : d.enqueued ≤ (d.begin env x).enqueued := by
  unfold begin
  dsimp only
  split
  · exact enqueued_le_settle (d := d.note x)
  · exact Nat.le_refl _

theorem enqueued_begin_retry : (d.begin env (.retry p q rest)).enqueued = d.enqueued := by
  unfold begin
  dsimp only
  split <;> rfl

theorem enqueued_retryBatch (d : Courier) (qs : List Queued) :
    (d.retryBatch env p qs).enqueued = d.enqueued := by
  induction qs generalizing d with
  | nil => rfl
  | cons q rest ih =>
    unfold retryBatch
    dsimp only
    split
    · rw [ih, enqueued_begin_retry]
    · exact enqueued_begin_retry

theorem enqueued_le_land : d.enqueued ≤ (d.land env f).enqueued := by
  unfold land
  split
  · exact enqueued_le_settle
  · rw [enqueued_retryBatch]
    exact enqueued_le_settle

theorem enqueued_le_foldl_land (fs : List Flight) :
    d.enqueued ≤ (fs.foldl (land env) d).enqueued := by
  induction fs generalizing d with
  | nil => exact Nat.le_refl _
  | cons f fs ih => exact Nat.le_trans enqueued_le_land ih

theorem enqueued_tick : (d.tick env).enqueued = d.enqueued := by
  change (d.retryPass env).enqueued = d.enqueued
  refine List.foldlRecOn (motive := fun d' : Courier => d'.enqueued = d.enqueued) _ _ rfl
    fun d' hd' q _ => ?_
  rw [enqueued_retryBatch, hd']

theorem enqueued_catchUp (n : Nat) : (d.catchUp env n).enqueued = d.enqueued := by
  induction n generalizing d with
  | zero => rfl
  | succ n ih =>
    unfold catchUp
    split
    · rw [ih, enqueued_tick]
    · rfl

theorem enqueued_runDue :
    (d.runDue env).enqueued = (d.landed.foldl (land env) d.aloft).enqueued := enqueued_catchUp _

theorem enqueued_le_act (e : Event) : d.enqueued ≤ (d.act env e).enqueued := by
  cases e with
  | call s => exact enqueued_le_begin
  | elapse =>
    rw [act, enqueued_runDue]
    exact enqueued_le_foldl_land (d := aloft { d with now := d.now + 1 }) _

/-! ## The time and the loop -/

/-- The time is the same, and so is the next tick. -/
structure SameClock (d d' : Courier) : Prop where
  now : d'.now = d.now
  period : d'.period = d.period
  next : d'.next = d.next

namespace SameClock

variable {d' d'' : Courier}

theorem refl (d : Courier) : SameClock d d := ⟨rfl, rfl, rfl⟩

theorem trans (h : SameClock d d') (h' : SameClock d' d'') : SameClock d d'' :=
  ⟨h'.now.trans h.now, h'.period.trans h.period, h'.next.trans h.next⟩

theorem settle (d : Courier) (x : Job) (o : Outcome) : SameClock d (d.settle x o) := by
  unfold Courier.settle
  split <;> exact ⟨rfl, rfl, rfl⟩

theorem begin (env : Surroundings) (d : Courier) (x : Job) : SameClock d (d.begin env x) := by
  unfold Courier.begin
  dsimp only
  split
  · have hnote : SameClock d (d.note x) := ⟨rfl, rfl, rfl⟩
    exact hnote.trans (settle ..)
  · exact ⟨rfl, rfl, rfl⟩

theorem retryBatch (env : Surroundings) (d : Courier) (p : Peer) (qs : List Queued) :
    SameClock d (d.retryBatch env p qs) := by
  induction qs generalizing d with
  | nil => exact refl d
  | cons q rest ih =>
    unfold Courier.retryBatch
    dsimp only
    split
    · exact (begin ..).trans (ih _)
    · exact begin ..

theorem retryPass (env : Surroundings) (d : Courier) : SameClock d (d.retryPass env) :=
  List.foldlRecOn (motive := SameClock d) _ _ (refl d) fun _ h q _ =>
    h.trans (retryBatch env _ q.peer q.messages)

theorem land (env : Surroundings) (d : Courier) (f : Flight) : SameClock d (d.land env f) := by
  unfold Courier.land
  split
  · exact settle ..
  · exact (settle ..).trans (retryBatch ..)

theorem foldl_land (env : Surroundings) (d : Courier) (fs : List Flight) :
    SameClock d (fs.foldl (Courier.land env) d) :=
  List.foldlRecOn (motive := SameClock d) _ _ (refl d) fun _ h f _ => h.trans (land env _ f)

end SameClock

theorem tick_now : (d.tick env).now = d.now := (SameClock.retryPass env d).now

theorem tick_period : (d.tick env).period = d.period := (SameClock.retryPass env d).period

theorem tick_next : (d.tick env).next = d.next + d.period := by
  rw [← (SameClock.retryPass env d).next, ← (SameClock.retryPass env d).period]
  rfl

/-! ## What is in order -/

/-- The queues are those of their addresses, and the next id is the number of messages that were put
into them. -/
structure Orderly (d : Courier) : Prop where
  addressed : d.outbox.Addressed
  counted : d.outbox.nextId.toNat = d.enqueued

namespace Orderly

theorem start (first period : Nat) : (Courier.start first period).Orderly := ⟨.empty, rfl⟩

theorem note (h : d.Orderly) (x : Job) : (d.note x).Orderly := ⟨h.addressed, h.counted⟩

theorem settle_retry (h : d.Orderly) (p : Peer) (q : Queued) (rest : List Queued) (o : Outcome) :
    (d.settle (.retry p q rest) o).Orderly := by
  cases o with
  | error e => exact ⟨h.addressed, h.counted⟩
  | ok r => exact ⟨h.addressed.remove _ _, (Outbox.nextId_remove ..).symm ▸ h.counted⟩

theorem settle (h : d.Orderly) (hn : (d.settle x o).enqueued < UInt64.size) :
    (d.settle x o).Orderly := by
  cases x with
  | retry p q rest => exact h.settle_retry p q rest o
  | send s =>
    cases o with
    | ok r => exact ⟨h.addressed, h.counted⟩
    | error e =>
      refine ⟨h.addressed.enqueue _ _, ?_⟩
      change (d.outbox.nextId + 1).toNat = d.enqueued + 1
      rw [UInt64.toNat_add, h.counted]
      exact Nat.mod_eq_of_lt hn

theorem begin_retry (h : d.Orderly) (p : Peer) (q : Queued) (rest : List Queued) :
    (d.begin env (.retry p q rest)).Orderly := by
  by_cases hzero : (d.forecast env (.retry p q rest)).1 = 0
  · rw [begin_of_zero hzero]
    exact (h.note _).settle_retry ..
  · rw [begin_of_ne_zero hzero]
    exact ⟨h.addressed, h.counted⟩

theorem begin (h : d.Orderly) (hn : (d.begin env x).enqueued < UInt64.size) :
    (d.begin env x).Orderly := by
  by_cases hzero : (d.forecast env x).1 = 0
  · rw [begin_of_zero hzero] at hn ⊢
    exact (h.note x).settle hn
  · rw [begin_of_ne_zero hzero]
    exact ⟨h.addressed, h.counted⟩

theorem retryBatch (h : d.Orderly) (qs : List Queued) : (d.retryBatch env p qs).Orderly := by
  induction qs generalizing d with
  | nil => exact h
  | cons q rest ih =>
    unfold Courier.retryBatch
    dsimp only
    split
    · exact ih (h.begin_retry ..)
    · exact h.begin_retry ..

theorem land (h : d.Orderly) (hn : (d.land env f).enqueued < UInt64.size) :
    (d.land env f).Orderly := by
  unfold Courier.land at hn ⊢
  split at hn
  · exact h.settle hn
  next p q rest hjob =>
    rw [hjob]
    exact (h.settle_retry p q rest f.outcome).retryBatch rest

theorem land_of_foldl (h : d.Orderly) {fs : List Flight}
    (hn : (fs.foldl (Courier.land env) (d.land env f)).enqueued < UInt64.size) :
    (d.land env f).Orderly := h.land (Nat.lt_of_le_of_lt (enqueued_le_foldl_land fs) hn)

theorem foldl_land (h : d.Orderly) (fs : List Flight)
    (hn : (fs.foldl (Courier.land env) d).enqueued < UInt64.size) :
    (fs.foldl (Courier.land env) d).Orderly := by
  induction fs generalizing d with
  | nil => exact h
  | cons f fs ih => exact ih (h.land_of_foldl hn) hn

theorem tick (h : d.Orderly) : (d.tick env).Orderly := by
  have hpass : (d.retryPass env).Orderly :=
    List.foldlRecOn (motive := Orderly) _ _ h fun _ hd q _ => hd.retryBatch q.messages
  exact ⟨hpass.addressed, hpass.counted⟩

theorem catchUp (h : d.Orderly) (n : Nat) : (d.catchUp env n).Orderly := by
  induction n generalizing d with
  | zero => exact h
  | succ n ih =>
    unfold Courier.catchUp
    split
    · exact ih h.tick
    · exact h

theorem act (h : d.Orderly) (e : Event) (hn : (d.act env e).enqueued < UInt64.size) :
    (d.act env e).Orderly := by
  cases e with
  | call s => exact h.begin hn
  | elapse =>
    rw [Courier.act, enqueued_runDue] at hn
    have haloft : (aloft { d with now := d.now + 1 }).Orderly := ⟨h.addressed, h.counted⟩
    exact (haloft.foldl_land _ hn).catchUp _

end Orderly

end Courier
end CausalStore
