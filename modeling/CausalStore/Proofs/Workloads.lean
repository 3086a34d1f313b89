import CausalStore.Proofs.Stations
import CausalStore.Proofs.Tasks

/-!
# The tasks of a station are those of a dispatcher

What a station has under way for its dispatcher are first attempts, retries, and the batches that have
yet to copy what waits. As long as no pass begins while another one is under way, some run of a
dispatcher leads to the queues of the station and to these tasks (`Station.attains`).
-/

namespace CausalStore

open Dispatcher (Attains)

namespace Errand

/-- What the exchange is to a dispatcher. -/
def tasks : Errand → List Task
  | send s => [.send s]
  | retry p q rest => [.retry p q rest]
  | join .. | transfer _ => []

theorem flatMap_tasks_send (ss : List Send) : (ss.map send).flatMap tasks = ss.map Task.send :=
  (List.flatMap_map ..).trans List.map_eq_flatMap.symm

theorem flatMap_tasks_batch (p : Peer) (qs : List Queued) :
    (batch p qs).flatMap tasks = Task.batch p qs := by
  cases qs <;> rfl

end Errand

theorem Duty.exists_sends (n : Node) (d : Duty) :
    ∃ ss : List Send, (d.errands n).flatMap Errand.tasks = ss.map .send := by
  cases d with
  | broadcast u => exact ⟨_, Errand.flatMap_tasks_send _⟩
  | settle seed =>
    refine ⟨n.announcements seed, ?_⟩
    rw [errands, List.flatMap_append, Errand.flatMap_tasks_send]
    exact List.append_nil _

namespace Station

variable {t t' : Station} {n : Node} {p : Peer} {x : Errand} {o : Outcome} {directory : Directory}
  {ts : List Task}

def tasks (t : Station) : List Task := t.errands.flatMap Errand.tasks ++ t.batches.map .copy

/-- A run of a dispatcher leads to the queues of the station, and to these tasks. -/
def Dispatches (directory : Directory) (t : Station) (ts : List Task) : Prop :=
  Attains directory t.node.outbox t.shelved.length (ts ++ t.tasks)

/-- A pass does not begin while another one is under way. -/
def Separate (t : Station) (a : Action) : Prop := a = .startPass → ∀ x ∈ t.tasks, x.isSend = true

namespace Dispatches

theorem start (s : Settings) : (start (.fresh s)).Dispatches directory [] := Attains.start directory

/-- The queues are what counts of the node. -/
theorem node (h : t.Dispatches directory ts) (ho : n.outbox = t.node.outbox) :
    { t with node := n }.Dispatches directory ts := by
  unfold Dispatches
  dsimp only
  rw [ho]
  exact h

theorem launch {xs : List Errand} (h : t.Dispatches directory (xs.flatMap Errand.tasks ++ ts)) :
    (t.launch xs).Dispatches directory ts := by
  refine Attains.perm h ?_
  rw [tasks, Station.launch, List.flatMap_append, List.append_assoc, List.append_assoc]
  exact ((List.perm_append_comm_assoc ..).append_left ts).trans (List.perm_append_comm_assoc ..)

/-- An exchange that ends. -/
theorem erase (h : t.Dispatches directory ts) (hx : x ∈ t.errands) :
    { t with errands := t.errands.erase x }.Dispatches directory (x.tasks ++ ts) := by
  refine Attains.perm h ?_
  have hall : (t.errands.flatMap Errand.tasks).Perm
      (x.tasks ++ (t.errands.erase x).flatMap Errand.tasks) :=
    (List.perm_cons_erase hx).flatMap_right _
  have htasks : (x.tasks ++ ((t.errands.erase x).flatMap Errand.tasks ++
      t.batches.map Task.copy)).Perm t.tasks := by
    rw [← List.append_assoc]
    exact hall.symm.append_right _
  rw [List.append_assoc]
  exact (List.perm_append_comm_assoc ..).trans (htasks.append_left ts)

/-- A batch that begins. -/
theorem erase_batch (h : t.Dispatches directory ts) (hp : p ∈ t.batches) :
    { t with batches := t.batches.erase p }.Dispatches directory (.copy p :: ts) := by
  refine Attains.perm h ?_
  have hall : (t.batches.map Task.copy).Perm (.copy p :: (t.batches.erase p).map .copy) :=
    (List.perm_cons_erase hp).map _
  have htasks : t.tasks.Perm
      (.copy p :: (t.errands.flatMap Errand.tasks ++ (t.batches.erase p).map .copy)) :=
    (hall.append_left _).trans List.perm_middle
  exact List.perm_middle.symm.trans (htasks.symm.append_left ts)

theorem startPass (h : t.Dispatches directory []) (hsends : ∀ x ∈ t.tasks, x.isSend = true) :
    t.startPass.Dispatches directory [] := by
  refine Attains.perm (Attains.startPass h hsends) ?_
  have htasks : t.startPass.tasks = t.tasks ++ t.node.outbox.peersWithPending.map .copy := by
    rw [tasks, Station.startPass, List.map_append, ← List.append_assoc]
    rfl
  rw [List.nil_append, List.nil_append, htasks]
  exact List.perm_append_comm

theorem afterSend {s : Send} (h : t.Dispatches directory (.send s :: ts)) (o : Outcome) :
    (t.afterSend s o).Dispatches directory ts := by
  have hend := Attains.endSend h o
  cases o <;> exact hend

theorem afterRetry {q : Queued} {rest : List Queued}
    (h : t.Dispatches directory (.retry p q rest :: ts)) (o : Outcome) :
    (t.afterRetry p q rest o).Dispatches directory ts := by
  refine launch ?_
  rw [Errand.flatMap_tasks_batch]
  unfold Dispatches
  rw [List.append_assoc]
  exact Attains.endRetry h o

theorem copy (h : t.Dispatches directory []) (hcopy : t.copy p = some t') :
    t'.Dispatches directory [] := by
  unfold Station.copy at hcopy
  split at hcopy
  next hp =>
    cases hcopy
    refine launch ?_
    rw [Errand.flatMap_tasks_batch, List.append_nil]
    exact Attains.copy (h.erase_batch hp)
  next => cases hcopy

theorem conclude (h : t.Dispatches directory (x.tasks ++ [])) (o : Outcome) :
    (t.conclude x o).Dispatches directory [] := by
  cases x with
  | send s => exact h.afterSend o
  | retry p q rest => exact h.afterRetry o
  | join self seed =>
    change (t.afterJoin seed o).Dispatches directory []
    unfold Station.afterJoin
    split
    next => exact h
    next n joined hjoin =>
      obtain ⟨-, -, -, -, rfl⟩ := Node.concludeJoin_eq_ok hjoin
      exact h.node rfl
  | transfer source => exact h.node (t.node.act_transfer_outbox o)

/-- Whatever a station does, a dispatcher can do, as long as passes stay apart. -/
theorem step {a : Action} (h : t.Dispatches directory []) (hseparate : t.Separate a)
    (hstep : t.step a = some t') : t'.Dispatches directory [] := by
  cases a with
  | put key value =>
    simp only [Station.step, Station.put] at hstep
    split at hstep
    next => cases hstep
    next n u hput =>
      cases hstep
      obtain ⟨e, -, rfl⟩ := Node.put_eq_ok hput
      exact h.node rfl
  | handle m => cases hstep; exact h.node (t.node.act_handle_outbox m)
  | reconcile => cases hstep; exact h.node rfl
  | perform d =>
    simp only [Station.step, Station.perform] at hstep
    split at hstep
    next =>
      cases hstep
      obtain ⟨ss, hss⟩ := d.exists_sends t.node
      refine launch ?_
      rw [hss, List.append_nil]
      exact Attains.sends h ss
    next => cases hstep
  | join =>
    obtain ⟨seed, -, rfl⟩ := Option.map_eq_some_iff.1 hstep
    exact h.launch
  | bootstrap source => cases hstep; exact h.launch
  | startPass => cases hstep; exact h.startPass (hseparate rfl)
  | copy p => exact h.copy hstep
  | finish x o =>
    simp only [Station.step, Station.finish] at hstep
    split at hstep
    next hx => cases hstep; exact (h.erase hx).conclude o
    next => cases hstep

end Dispatches

/-- What a station whose passes stay apart has queued and under way, the tasks of a dispatcher have. -/
theorem attains (directory : Directory) (s : Settings)
    (h : Reaches step Separate (start (.fresh s)) t) :
    Attains directory t.node.outbox t.shelved.length t.tasks :=
  h.keeps (P := fun t => t.Dispatches directory []) (.start s) fun ht hseparate hstep =>
    ht.step hseparate hstep

end Station
end CausalStore
