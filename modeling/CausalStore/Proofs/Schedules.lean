import CausalStore.Proofs.Rounds
import CausalStore.Proofs.Tasks

/-!
# What a courier does, a dispatcher can do

A courier acts on the end of an exchange as soon as it is there, and begins the next one of a batch
with it. The tasks of a dispatcher may do the same, one after the other: some run of a dispatcher
leads to the queues of the courier, with tasks that wait for the same exchanges (`Courier.Scheduled`).
So it is with the simulated worlds that go the way of a courier (`World.Dispatches`).
-/

namespace CausalStore

open Dispatcher (Attains)
open Simulation (Job)

namespace Simulation.Job

/-- What waits for the end of the exchange. -/
def task : Job → Task
  | send s => .send s
  | retry p q rest => .retry p q rest

/-- What begins with this end. -/
def following : Job → List Task
  | send _ => []
  | retry p _ rest => Task.batch p rest

theorem isSend_task (x : Job) : x.task.isSend = !x.isRetry := by
  cases x <;> rfl

end Simulation.Job

namespace Courier

variable {env : Surroundings} {directory : Directory} {c : Courier} {ts : List Task} {x : Job}
  {p : Peer} {f : Flight}

/-- What waits for the ends of exchanges. -/
def tasks (c : Courier) : List Task := c.flights.map (·.job.task)

/-- A run of a dispatcher leads to where the courier is, before the exchanges of `ts` start. -/
def Scheduled (directory : Directory) (c : Courier) (ts : List Task) : Prop :=
  Attains directory c.outbox c.enqueued (ts ++ c.tasks)

namespace Scheduled

theorem start (first period : Nat) : (Courier.start first period).Scheduled directory [] :=
  Attains.start directory

theorem note (h : c.Scheduled directory ts) (x : Job) : (c.note x).Scheduled directory ts := h

theorem launch (h : c.Scheduled directory (x.task :: ts)) (o : Nat × Outcome) :
    (c.launch x o).Scheduled directory ts := by
  refine Attains.perm h ?_
  rw [tasks, Courier.launch, List.map_append, ← List.append_assoc]
  exact List.perm_append_singleton ..

theorem settle (h : c.Scheduled directory (x.task :: ts)) (o : Outcome) :
    (c.settle x o).Scheduled directory (x.following ++ ts) := by
  unfold Scheduled
  rw [List.append_assoc]
  cases x with
  | send s =>
    have hend := Attains.endSend h o
    cases o <;> exact hend
  | retry p q rest => exact Attains.endRetry h o

theorem begin_send (h : c.Scheduled directory ts) (s : Send) :
    (c.begin env (.send s)).Scheduled directory ts := by
  have hsend : (c.note (.send s)).Scheduled directory ((Job.send s).task :: ts) := Attains.send h s
  by_cases hzero : (c.forecast env (.send s)).1 = 0
  · rw [begin_of_zero hzero]
    exact hsend.settle _
  · rw [begin_of_ne_zero hzero]
    exact hsend.launch _

theorem retryBatch {qs : List Queued} (h : c.Scheduled directory (Task.batch p qs ++ ts)) :
    (c.retryBatch env p qs).Scheduled directory ts := by
  induction qs generalizing c with
  | nil => exact h
  | cons q rest ih =>
    have hretry : (c.note (.retry p q rest)).Scheduled directory ((Job.retry p q rest).task :: ts) :=
      h.note _
    by_cases hzero : (c.forecast env (.retry p q rest)).1 = 0
    · rw [retryBatch_of_zero hzero, begin_of_zero hzero]
      exact ih (hretry.settle _)
    · rw [retryBatch_of_ne_zero hzero, begin_of_ne_zero hzero]
      exact hretry.launch _

theorem land (h : c.Scheduled directory (f.job.task :: ts)) :
    (c.land env f).Scheduled directory ts := by
  obtain ⟨due, o, x⟩ := f
  cases x with
  | send s => exact h.settle o
  | retry p q rest => exact (h.settle o).retryBatch

theorem foldl_land {fs : List Flight}
    (h : c.Scheduled directory (fs.map (·.job.task) ++ ts)) :
    (fs.foldl (Courier.land env) c).Scheduled directory ts := by
  induction fs generalizing c with
  | nil => exact h
  | cons f fs ih => exact ih (land h)

theorem foldl_retryBatch {qs : List Queue}
    (h : c.Scheduled directory ((qs.flatMap fun q => Task.batch q.peer q.messages) ++ ts)) :
    (qs.foldl (fun c q => c.retryBatch env q.peer q.messages) c).Scheduled directory ts := by
  induction qs generalizing c with
  | nil => exact h
  | cons q qs ih =>
    rw [List.flatMap_cons, List.append_assoc] at h
    exact ih (retryBatch h)

theorem tick (h : c.Scheduled directory []) (hidle : c.busy = false) :
    (c.tick env).Scheduled directory [] := by
  have hsends : ∀ t ∈ c.tasks, t.isSend = true := by
    intro t ht
    obtain ⟨f, hf, rfl⟩ := List.mem_map.1 ht
    have hretry : f.job.isRetry = false := by simpa using List.any_eq_false.1 hidle f hf
    rw [Job.isSend_task, hretry]
    rfl
  have hbegin : c.Scheduled directory
      ((c.outbox.waiting.flatMap fun q => Task.batch q.peer q.messages) ++ []) := by
    unfold Scheduled
    rw [List.append_nil]
    exact Attains.beginPass h hsends
  exact hbegin.foldl_retryBatch

theorem catchUp (h : c.Scheduled directory []) (n : Nat) :
    (c.catchUp env n).Scheduled directory [] := by
  induction n generalizing c with
  | zero => exact h
  | succ n ih =>
    unfold Courier.catchUp
    split
    next hdue => exact ih (h.tick hdue.1)
    next => exact h

theorem aloft (h : c.Scheduled directory []) :
    c.aloft.Scheduled directory (c.landed.map (·.job.task) ++ []) := by
  refine Attains.perm h ?_
  have hrest : c.aloft.flights = c.flights.filter fun f => !decide (f.due ≤ c.now) := by
    simp only [Courier.aloft, decide_not]
  rw [tasks, tasks, hrest, List.append_nil, List.nil_append, ← List.map_append]
  exact (List.filter_append_perm _ c.flights).map _

theorem act (h : c.Scheduled directory []) (e : Event) : (c.act env e).Scheduled directory [] := by
  cases e with
  | call s => exact h.begin_send s
  | elapse =>
    have hlater : Scheduled directory { c with now := c.now + 1 } [] := h
    exact hlater.aloft.foldl_land.catchUp _

/-- Whatever a courier does, a dispatcher can do. -/
theorem run (h : c.Scheduled directory []) (es : List Event) :
    (c.run env es).Scheduled directory [] :=
  List.foldlRecOn (motive := fun c : Courier => c.Scheduled directory []) _ _ h
    fun _ hc e _ => hc.act e

end Scheduled
end Courier

/-! ## Simulated worlds -/

namespace Simulation.World

variable {net : Network} {node : Nat} {directory : Directory} {w : World}

/-- The world goes the way of a courier to where a run of a dispatcher leads. -/
def Dispatches (net : Network) (node : Nat) (directory : Directory) (w : World) : Prop :=
  ∃ c, w.Follows net node c ∧ c.Scheduled directory []

theorem dispatches_startRetryLoop {n : Node} (hn : n.outbox = .empty) (cover : Coverage)
    {period : Nat} (hp : 0 < period) :
    (((World.empty cover).add n).startRetryLoop 0 period).Dispatches (.empty cover) 0 directory :=
  ⟨_, follows_startRetryLoop hn cover hp, .start ..⟩

namespace Dispatches

/-- Whatever somebody sends, and however long he waits. -/
theorem act (hnet : net.coverage = .everybody) (h : w.Dispatches net node directory)
    (e : Courier.Event) : (w.act node e).Dispatches net node directory := by
  obtain ⟨c, F, hc⟩ := h
  exact ⟨_, F.act hnet e, hc.act e⟩

/-- Whatever becomes of the hosts. -/
theorem setMode (h : w.Dispatches net node directory) (host : String) (m : Mode) :
    (w.setMode host m).Dispatches (net.setMode host m) node directory := by
  obtain ⟨c, F, hc⟩ := h
  exact ⟨c, F.setMode host m, hc⟩

/-- The queues of the node are those of a dispatcher whose tasks wait for the exchanges that hang. -/
theorem attains (h : w.Dispatches net node directory) : ∃ n k, w.nodes.get? node = some n ∧
    Attains directory n.outbox k (w.hanging.map (·.job.task)) := by
  obtain ⟨c, ⟨⟨l, S, -⟩, -⟩, hc⟩ := h
  obtain ⟨n, hn, ho⟩ := S.outbox
  have hhanging : w.hanging.map (·.job.task) = c.tasks := by
    have hshown := S.hanging
    unfold Courier.tasks
    generalize w.hanging = hs, c.flights = fs at hshown
    induction hshown with
    | nil => rfl
    | cons hf _ ih => rw [List.map_cons, List.map_cons, hf.job, ih]
  refine ⟨n, c.enqueued, hn, ?_⟩
  rw [hhanging, ho]
  exact hc

end Dispatches
end Simulation.World

end CausalStore
