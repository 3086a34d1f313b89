import CausalStore.Proofs.Accounts

/-!
# What the tasks of a dispatcher have to do

Seen from outside a dispatcher is its queues with a collection of tasks: first attempts and retries
that wait for the end of an exchange, and batches that have yet to copy what waits for their peers.
Whoever goes about such tasks as they come is somewhere a run of a dispatcher leads
(`Dispatcher.Attains`), if he begins no pass while another one is under way. So whatever holds of all
runs of a dispatcher holds of him.
-/

namespace CausalStore

theorem Outbox.Addressed.pendingFor_of_waiting {o : Outbox} (h : o.Addressed) {q : Queue}
    (hq : q ∈ o.waiting) : o.pendingFor q.peer.address = q.messages := by
  obtain ⟨⟨a, ha⟩, -⟩ := mem_waiting.1 hq
  rw [h a q ha, pendingFor, ha]

/-- What comes of the elements of a list when one of them is exchanged. -/
theorem perm_flatMap_set {α β : Type} {f : α → List β} {l : List α} {n : Nat} {a : α}
    (h : l[n]? = some a) (b : α) :
    (f b ++ l.flatMap f).Perm (f a ++ (l.set n b).flatMap f) := by
  induction l generalizing n with
  | nil => cases h
  | cons c l ih =>
    cases n with
    | zero =>
      cases h
      exact List.perm_append_comm_assoc ..
    | succ n =>
      rw [List.set_cons_succ, List.flatMap_cons, List.flatMap_cons]
      have hrest : (f c ++ (f b ++ l.flatMap f)).Perm (f c ++ (f a ++ (l.set n b).flatMap f)) :=
        (ih h).append_left _
      exact (List.perm_append_comm_assoc ..).trans (hrest.trans (List.perm_append_comm_assoc ..))

/-- What a task waits for, or is about to do. -/
inductive Task where
  /-- The first attempt of a send. -/
  | send (s : Send)
  /-- A batch that has yet to copy what waits for the peer. -/
  | copy (p : Peer)
  /-- The retry of a message, with the rest of the peer's batch behind it. -/
  | retry (p : Peer) (q : Queued) (rest : List Queued)

namespace Task

/-- The retry with which a batch begins. -/
def batch (p : Peer) : List Queued → List Task
  | [] => []
  | q :: rest => [retry p q rest]

/-- The task is no part of a pass. -/
def isSend : Task → Bool
  | send _ => true
  | copy _ | retry .. => false

end Task

def Parcel.tasks (p : Parcel) : List Task :=
  match p.stage with
  | .trying => [.send p.send]
  | .returned _ | .settled _ | .queued .. => []

def Batch.tasks (b : Batch) : List Task :=
  match b.phase with
  | .spawned => [.copy b.peer]
  | .trying q rest => [.retry b.peer q rest]
  | .returned .. | .done => []

theorem Parcel.tasks_credit (p : Parcel) (id : UInt64) (o : Outcome) :
    (p.credit id o).tasks = p.tasks := by
  unfold credit
  split <;> rfl

namespace Batch

variable {b : Batch} {p : Peer} {q : Queued} {qs rest : List Queued} {t : Task}

theorem spawned_of_tasks (h : b.tasks = [.copy p]) : b.peer = p ∧ b.phase = .spawned := by
  obtain ⟨p', phase, r, copied, removed⟩ := b
  cases phase with
  | spawned => cases h; exact ⟨rfl, rfl⟩
  | trying | returned | done => cases h

theorem trying_of_tasks (h : b.tasks = [.retry p q rest]) :
    b.peer = p ∧ b.phase = .trying q rest := by
  obtain ⟨p', phase, r, copied, removed⟩ := b
  cases phase with
  | trying => cases h; exact ⟨rfl, rfl⟩
  | spawned | returned | done => cases h

theorem tasks_of_begin (h : b.phase = .begin qs) : b.tasks = Task.batch b.peer qs := by
  rw [tasks, h]
  cases qs <;> rfl

theorem isDone_of_begin (h : b.phase = .begin qs) (hnone : b.tasks = []) :
    b.phase.isDone = true := by
  cases qs with
  | nil => exact congrArg Phase.isDone h
  | cons q rest => cases (tasks_of_begin h).symm.trans hnone

theorem isSend_of_tasks (h : t ∈ b.tasks) : t.isSend = false := by
  unfold tasks at h
  split at h
  case h_1 | h_2 => exact List.mem_singleton.1 h ▸ rfl
  case h_3 | h_4 => cases h

end Batch

namespace Dispatcher

variable {d d' : Dispatcher} {s : Send} {p : Peer} {q : Queued} {rest : List Queued} {x : Outcome}
  {o : Outbox} {n k : Nat} {t : Task} {ts ts' : List Task} {pass : Pass} {b : Batch}

/-! ## The tasks -/

def batches (d : Dispatcher) : List Batch := (d.pass.map (·.batches)).getD []

theorem batches_of_pass (h : d.pass = some pass) : d.batches = pass.batches := by
  rw [batches, h]
  rfl

theorem batches_queue (d : Dispatcher) (n : Nat) (s : Send) (k : Nat) (e : ExchangeError) :
    (d.queue n s k e).batches = d.batches := by
  unfold batches queue
  cases d.pass <;> rfl

def tasks (d : Dispatcher) : List Task :=
  d.parcels.flatMap Parcel.tasks ++ d.batches.flatMap Batch.tasks

theorem exists_parcel (h : Task.send s ∈ d.tasks) :
    ∃ n k : Nat, d.parcels[n]? = some ⟨s, .trying, k⟩ := by
  rcases List.mem_append.1 h with h | h
  · obtain ⟨⟨s', stage, k⟩, hparcel, htask⟩ := List.mem_flatMap.1 h
    obtain ⟨n, hn⟩ := List.mem_iff_getElem?.1 hparcel
    cases stage with
    | trying =>
      cases List.mem_singleton.1 htask
      exact ⟨n, k, hn⟩
    | returned | settled | queued => cases htask
  · obtain ⟨b, -, htask⟩ := List.mem_flatMap.1 h
    cases Batch.isSend_of_tasks htask

/-- A task that is no send is that of a batch. -/
theorem exists_batch (h : t ∈ d.tasks) (ht : t.isSend = false) :
    ∃ (pass : Pass) (k : Nat) (b : Batch), d.pass = some pass ∧ pass.batches[k]? = some b ∧
      b.tasks = [t] := by
  rcases List.mem_append.1 h with h | h
  · obtain ⟨⟨s, stage, k⟩, -, htask⟩ := List.mem_flatMap.1 h
    cases stage with
    | trying =>
      cases List.mem_singleton.1 htask
      cases ht
    | returned | settled | queued => cases htask
  · obtain ⟨⟨p, phase, r, copied, removed⟩, hbatch, htask⟩ := List.mem_flatMap.1 h
    cases hpass : d.pass with
    | none =>
      rw [batches, hpass] at hbatch
      cases hbatch
    | some pass =>
      rw [batches_of_pass hpass] at hbatch
      obtain ⟨k, hk⟩ := List.mem_iff_getElem?.1 hbatch
      refine ⟨pass, k, _, rfl, hk, ?_⟩
      cases phase with
      | spawned | trying =>
        cases List.mem_singleton.1 htask
        rfl
      | returned | done => cases htask

/-- The tasks when one of a send has gone on. -/
theorem tasks_of_set_parcel (d' : Dispatcher) {n : Nat} {a : Parcel} (b : Parcel)
    (hn : d.parcels[n]? = some a) (hparcels : d'.parcels = d.parcels.set n b)
    (hbatches : d'.batches = d.batches) : (b.tasks ++ d.tasks).Perm (a.tasks ++ d'.tasks) := by
  rw [tasks, tasks, hparcels, hbatches, ← List.append_assoc, ← List.append_assoc]
  exact (perm_flatMap_set hn b).append_right _

/-- The tasks when a batch has gone on. -/
theorem tasks_of_set_batch (d' : Dispatcher) {k : Nat} {a : Batch} (b : Batch)
    (hk : d.batches[k]? = some a)
    (hparcels : d'.parcels.flatMap Parcel.tasks = d.parcels.flatMap Parcel.tasks)
    (hbatches : d'.batches = d.batches.set k b) :
    (b.tasks ++ d.tasks).Perm (a.tasks ++ d'.tasks) := by
  rw [tasks, tasks, hparcels, hbatches]
  exact (List.perm_append_comm_assoc ..).trans
    (((perm_flatMap_set hk b).append_left _).trans (List.perm_append_comm_assoc ..))

/-! ## What the tasks can do -/

theorem step_attempted (hn : d.parcels[n]? = some ⟨s, .trying, k⟩) (x : Outcome) :
    d.step (.attempted n x) = some (d.setParcel n ⟨s, .returned x, k + x.successes⟩) := by
  simp only [step, Dispatcher.attempted, hn]

theorem step_conclude_ok {reply : Option Message}
    (hn : d.parcels[n]? = some ⟨s, .returned (.ok reply), k⟩) :
    d.step (.conclude n) = some (d.setParcel n ⟨s, .settled reply, k⟩) := by
  simp only [step, Dispatcher.conclude, hn]
  rfl

theorem step_conclude_error {e : ExchangeError}
    (hn : d.parcels[n]? = some ⟨s, .returned (.error e), k⟩) :
    d.step (.conclude n) = some (d.queue n s k e) := by
  simp only [step, Dispatcher.conclude, hn]

theorem step_startPass (hpass : d.pass = none) :
    d.step .startPass = some { d with pass := some (.new d.outbox.peersWithPending) } := by
  simp only [step, Dispatcher.startPass, hpass]

theorem step_copy (hpass : d.pass = some pass) (hb : pass.batches[k]? = some b)
    (hphase : b.phase = .spawned) :
    d.step (.copy k) = some (d.setBatch pass k
      { b with
        phase := .begin (d.outbox.pendingFor b.peer.address)
        copied := d.outbox.pendingFor b.peer.address }) := by
  obtain ⟨p, phase, r, copied, removed⟩ := b
  dsimp only at hphase
  subst hphase
  simp only [step, Dispatcher.copy, batch?, hpass, Option.bind_some, hb, Option.map_some]

theorem step_retried (hpass : d.pass = some pass) (hb : pass.batches[k]? = some b)
    (hphase : b.phase = .trying q rest) (x : Outcome) :
    d.step (.retried k x) = some
      { d.setBatch pass k { b with phase := .returned q x rest } with
        parcels := d.parcels.map (.credit q.id x) } := by
  obtain ⟨p, phase, r, copied, removed⟩ := b
  dsimp only at hphase
  subst hphase
  simp only [step, Dispatcher.retried, batch?, hpass, Option.bind_some, hb, Option.map_some]

theorem step_proceed (hpass : d.pass = some pass) (hb : pass.batches[k]? = some b)
    (hphase : b.phase = .returned q x rest) : ∃ removed, d.step (.proceed k) = some
      { d.setBatch pass k { b with phase := .begin rest, report := b.report.count x, removed } with
        outbox := d.outbox.afterRetry b.peer q.id x } := by
  obtain ⟨p, phase, r, copied, removed⟩ := b
  dsimp only at hphase
  subst hphase
  simp only [step, Dispatcher.proceed, batch?, hpass, Option.bind_some, hb, Option.map_some]
  exact ⟨_, rfl⟩

theorem step_endPass (hpass : d.pass = some pass)
    (hdone : ∀ b ∈ pass.batches, b.phase.isDone = true) :
    d.step .endPass = some { d with pass := none, ended := (pass, pass.report) :: d.ended } := by
  simp only [step, Dispatcher.endPass, hpass]
  exact if_pos (List.all_eq_true.2 hdone)

/-! ## Dispatchers from outside -/

/-- The dispatcher has these queues, into which it has put `n` messages, and these tasks. A batch
that has nothing to do is done. -/
structure Shows (d : Dispatcher) (o : Outbox) (n : Nat) (ts : List Task) : Prop where
  outbox : d.outbox = o
  enqueued : d.enqueued = n
  tasks : ts.Perm d.tasks
  idle : ∀ b ∈ d.batches, b.tasks = [] → b.phase.isDone = true
  addressed : d.outbox.Addressed

/-- A run of a dispatcher leads to these queues, into which it has put `n` messages, and to these
tasks. -/
def Attains (directory : Directory) (o : Outbox) (n : Nat) (ts : List Task) : Prop :=
  ∃ d, Reaches step (fun _ _ => True) (start directory) d ∧ d.Shows o n ts

namespace Shows

theorem start (directory : Directory) : (start directory).Shows .empty 0 [] where
  outbox := rfl
  enqueued := rfl
  tasks := .nil
  idle _ hb := nomatch hb
  addressed := .empty

theorem mem_tasks (h : d.Shows o n (t :: ts)) : t ∈ d.tasks :=
  h.tasks.mem_iff.1 List.mem_cons_self

/-- A task gives way to others. -/
theorem tasks_after (h : d.Shows o n (t :: ts)) {new : List Task}
    (hnew : (new ++ d.tasks).Perm ([t] ++ d'.tasks)) : (new ++ ts).Perm d'.tasks :=
  (List.perm_middle.symm.trans ((h.tasks.append_left new).trans hnew)).cons_inv

/-- A batch gives way to others. -/
theorem idle_after (h : d.Shows o n ts) (hbatches : d'.batches = d.batches.set k b)
    {qs : List Queued} (hb : b.phase = .begin qs) :
    ∀ b' ∈ d'.batches, b'.tasks = [] → b'.phase.isDone = true := by
  intro b' hb' hnone
  rw [hbatches] at hb'
  rcases List.mem_or_eq_of_mem_set hb' with hb' | rfl
  · exact h.idle b' hb' hnone
  · exact Batch.isDone_of_begin hb hnone

/-- A send begins with a task of its own. -/
theorem launch (h : d.Shows o n ts) (s : Send) : (d.launch [s]).Shows o n (.send s :: ts) where
  outbox := h.outbox
  enqueued := h.enqueued
  tasks := by
    have hfront : (.send s :: d.tasks).Perm (d.launch [s]).tasks := by
      change (_ :: (_ ++ _)).Perm ((d.parcels ++ [Parcel.new s]).flatMap Parcel.tasks ++ _)
      rw [List.flatMap_append, List.append_assoc]
      exact List.perm_middle.symm
    exact (h.tasks.cons _).trans hfront
  idle := h.idle
  addressed := h.addressed

/-- The task of a send acts as soon as its first attempt has ended. -/
theorem endSend (h : d.Shows o n (.send s :: ts)) (x : Outcome) :
    ∃ d', Reaches step (fun _ _ => True) d d' ∧
      d'.Shows (o.afterSend s x) (n + (1 - x.successes)) ts := by
  obtain ⟨i, k, hi⟩ := exists_parcel h.mem_tasks
  let d₁ : Dispatcher := d.setParcel i ⟨s, .returned x, k + x.successes⟩
  have hi₁ : d₁.parcels[i]? = some ⟨s, .returned x, k + x.successes⟩ :=
    List.getElem?_set_self (List.getElem?_eq_some_iff.1 hi).1
  have hattempted : Reaches step (fun _ _ => True) d d₁ := .single trivial (step_attempted hi x)
  cases x with
  | ok reply =>
    let d₂ : Dispatcher := d₁.setParcel i ⟨s, .settled reply, k + 1⟩
    have htasks := tasks_of_set_parcel d₂ ⟨s, .settled reply, k + 1⟩ hi (List.set_set ..) rfl
    refine ⟨d₂, hattempted.step trivial (step_conclude_ok hi₁), ?_⟩
    exact { h with tasks := h.tasks_after htasks }
  | error e =>
    let d₂ : Dispatcher := d₁.queue i s k e
    have hbatches : d₂.batches = d.batches := batches_queue d₁ i s k e
    have htasks :=
      tasks_of_set_parcel d₂ ⟨s, .queued e d.outbox.nextId, k⟩ hi (List.set_set ..) hbatches
    refine ⟨d₂, hattempted.step trivial (step_conclude_error hi₁), ?_⟩
    exact
      { outbox := congrArg (·.afterSend s (.error e)) h.outbox
        enqueued := congrArg (· + 1) h.enqueued
        tasks := h.tasks_after htasks
        idle := hbatches ▸ h.idle
        addressed := h.addressed.enqueue s.peer s.message }

/-- A batch acts as soon as a retry has ended, and begins the next one. -/
theorem endRetry (h : d.Shows o n (.retry p q rest :: ts)) (x : Outcome) :
    ∃ d', Reaches step (fun _ _ => True) d d' ∧
      d'.Shows (o.afterRetry p q.id x) n (Task.batch p rest ++ ts) := by
  obtain ⟨pass, k, b, hpass, hb, hnow⟩ := exists_batch h.mem_tasks rfl
  obtain ⟨rfl, hphase⟩ := Batch.trying_of_tasks hnow
  let t : Batch := { b with phase := .returned q x rest }
  let d₁ : Dispatcher := { d.setBatch pass k t with parcels := d.parcels.map (.credit q.id x) }
  have hb₁ : (pass.set k t).batches[k]? = some t :=
    List.getElem?_set_self (List.getElem?_eq_some_iff.1 hb).1
  have hretried : Reaches step (fun _ _ => True) d d₁ :=
    .single trivial (step_retried hpass hb hphase x)
  obtain ⟨removed, hproceed⟩ := step_proceed (d := d₁) rfl hb₁ rfl
  let b' : Batch := { t with phase := .begin rest, report := b.report.count x, removed }
  let d₂ : Dispatcher :=
    { d₁.setBatch (pass.set k t) k b' with outbox := d.outbox.afterRetry b.peer q.id x }
  have hbatches : d₂.batches = d.batches.set k b' := by
    rw [batches_of_pass hpass]
    exact List.set_set ..
  have hparcels : d₂.parcels.flatMap Parcel.tasks = d.parcels.flatMap Parcel.tasks := by
    refine (List.flatMap_map ..).trans (List.flatMap_congr fun p _ => ?_)
    exact p.tasks_credit q.id x
  have htasks := tasks_of_set_batch d₂ b' (batches_of_pass hpass ▸ hb) hparcels hbatches
  rw [hnow, Batch.tasks_of_begin (b := b') rfl] at htasks
  refine ⟨d₂, hretried.step trivial hproceed, ?_⟩
  exact
    { outbox := congrArg (·.afterRetry b.peer q.id x) h.outbox
      enqueued := h.enqueued
      tasks := h.tasks_after htasks
      idle := h.idle_after hbatches rfl
      addressed := by
        cases x with
        | ok => exact h.addressed.remove b.peer.address q.id
        | error => exact h.addressed }

/-- A batch copies what waits for its peer, and begins with the first message. -/
theorem copy (h : d.Shows o n (.copy p :: ts)) : ∃ d', Reaches step (fun _ _ => True) d d' ∧
    d'.Shows o n (Task.batch p (o.pendingFor p.address) ++ ts) := by
  obtain ⟨pass, k, b, hpass, hb, hnow⟩ := exists_batch h.mem_tasks rfl
  obtain ⟨rfl, hphase⟩ := Batch.spawned_of_tasks hnow
  let b' : Batch :=
    { b with
      phase := .begin (d.outbox.pendingFor b.peer.address)
      copied := d.outbox.pendingFor b.peer.address }
  let d' : Dispatcher := d.setBatch pass k b'
  have hbatches : d'.batches = d.batches.set k b' := by
    rw [batches_of_pass hpass]
    rfl
  have hk : d.batches[k]? = some b := batches_of_pass hpass ▸ hb
  have htasks := tasks_of_set_batch d' b' hk rfl hbatches
  rw [hnow, Batch.tasks_of_begin (b := b') rfl] at htasks
  refine ⟨d', .single trivial (step_copy hpass hb hphase), ?_⟩
  exact
    { outbox := h.outbox
      enqueued := h.enqueued
      tasks := h.outbox ▸ h.tasks_after htasks
      idle := h.idle_after hbatches rfl
      addressed := h.addressed }

/-- A pass is over when there is nothing left but sends. -/
theorem endPass (h : d.Shows o n ts) (hsends : ∀ t ∈ ts, t.isSend = true) :
    ∃ d', Reaches step (fun _ _ => True) d d' ∧ d'.pass = none ∧ d'.Shows o n ts := by
  have hnone : ∀ b ∈ d.batches, b.tasks = [] := by
    intro b hb
    refine List.eq_nil_iff_forall_not_mem.2 fun t ht => ?_
    have hmem : t ∈ d.tasks := List.mem_append_right _ (List.mem_flatMap.2 ⟨b, hb, ht⟩)
    have hsend := hsends t (h.tasks.mem_iff.2 hmem)
    exact Bool.false_ne_true ((Batch.isSend_of_tasks ht).symm.trans hsend)
  cases hpass : d.pass with
  | none => exact ⟨d, .refl, hpass, h⟩
  | some pass =>
    have hdone : ∀ b ∈ pass.batches, b.phase.isDone = true := fun b hb =>
      have hb : b ∈ d.batches := batches_of_pass hpass ▸ hb
      h.idle b hb (hnone b hb)
    refine ⟨_, .single trivial (step_endPass hpass hdone), rfl, ?_⟩
    have htasks := h.tasks
    rw [Dispatcher.tasks, List.flatMap_eq_nil_iff.2 hnone] at htasks
    exact { h with tasks := htasks, idle := fun _ hb => nomatch hb }

/-- A pass begins with a batch for each peer for which something waits. -/
theorem startPass (h : d.Shows o n ts) (hsends : ∀ t ∈ ts, t.isSend = true) :
    ∃ d', Reaches step (fun _ _ => True) d d' ∧
      d'.Shows o n (o.peersWithPending.map .copy ++ ts) := by
  obtain ⟨d₁, hend, hpass, h₁⟩ := h.endPass hsends
  let d₂ : Dispatcher := { d₁ with pass := some (.new d₁.outbox.peersWithPending) }
  refine ⟨d₂, hend.step trivial (step_startPass hpass), ?_⟩
  have hparcels : ts.Perm (d₁.parcels.flatMap Parcel.tasks) := by
    have htasks := h₁.tasks
    rwa [Dispatcher.tasks, batches, hpass, Option.map_none, Option.getD_none, List.flatMap_nil,
      List.append_nil] at htasks
  have hbatches : d₂.batches.flatMap Batch.tasks = o.peersWithPending.map .copy := by
    rw [← h₁.outbox]
    exact (List.flatMap_map ..).trans List.map_eq_flatMap.symm
  exact
    { outbox := h₁.outbox
      enqueued := h₁.enqueued
      tasks := by
        rw [Dispatcher.tasks, hbatches]
        exact List.perm_append_comm.trans (hparcels.append_right _)
      idle := by
        intro b hb hnone
        obtain ⟨p, -, rfl⟩ := List.mem_map.1 hb
        cases hnone
      addressed := h₁.addressed }

end Shows

/-! ## Where runs lead -/

namespace Attains

variable {directory : Directory}

theorem start (directory : Directory) : Attains directory .empty 0 [] :=
  ⟨_, .refl, .start directory⟩

theorem perm (h : Attains directory o n ts) (hts : ts'.Perm ts) : Attains directory o n ts' := by
  obtain ⟨d, hd, hs⟩ := h
  exact ⟨d, hd, { hs with tasks := hts.trans hs.tasks }⟩

theorem send (h : Attains directory o n ts) (s : Send) : Attains directory o n (.send s :: ts) := by
  obtain ⟨d, hd, hs⟩ := h
  exact ⟨_, hd.step (a := .sendTo s.peer s.message) trivial rfl, hs.launch s⟩

theorem sends (h : Attains directory o n ts) (ss : List Send) :
    Attains directory o n (ss.map .send ++ ts) := by
  induction ss with
  | nil => exact h
  | cons s ss ih => exact ih.send s

/-- What a dispatcher that looks like this can come to. -/
theorem next {o' : Outbox} {n' : Nat} (h : Attains directory o n ts)
    (hnext : ∀ d : Dispatcher, d.Shows o n ts →
      ∃ d', Reaches step (fun _ _ => True) d d' ∧ d'.Shows o' n' ts') :
    Attains directory o' n' ts' := by
  obtain ⟨d, hd, hs⟩ := h
  obtain ⟨d', hd', hs'⟩ := hnext d hs
  exact ⟨d', hd.trans hd', hs'⟩

theorem endSend (h : Attains directory o n (.send s :: ts)) (x : Outcome) :
    Attains directory (o.afterSend s x) (n + (1 - x.successes)) ts :=
  h.next fun _ hs => hs.endSend x

theorem endRetry (h : Attains directory o n (.retry p q rest :: ts)) (x : Outcome) :
    Attains directory (o.afterRetry p q.id x) n (Task.batch p rest ++ ts) :=
  h.next fun _ hs => hs.endRetry x

theorem copy (h : Attains directory o n (.copy p :: ts)) :
    Attains directory o n (Task.batch p (o.pendingFor p.address) ++ ts) :=
  h.next fun _ hs => hs.copy

theorem startPass (h : Attains directory o n ts) (hsends : ∀ t ∈ ts, t.isSend = true) :
    Attains directory o n (o.peersWithPending.map .copy ++ ts) :=
  h.next fun _ hs => hs.startPass hsends

theorem copyAll {ps : List Peer} (h : Attains directory o n (ps.map .copy ++ ts)) :
    Attains directory o n (ps.flatMap (fun p => Task.batch p (o.pendingFor p.address)) ++ ts) := by
  induction ps generalizing ts with
  | nil => exact h
  | cons p ps ih =>
    have hcopied := h.copy.perm (List.perm_append_comm_assoc ..)
    rw [List.flatMap_cons, List.append_assoc]
    exact (ih hcopied).perm (List.perm_append_comm_assoc ..)

/-- The batches of a pass may all copy what waits at its beginning. -/
theorem beginPass (h : Attains directory o n ts) (hsends : ∀ t ∈ ts, t.isSend = true) :
    Attains directory o n ((o.waiting.flatMap fun q => Task.batch q.peer q.messages) ++ ts) := by
  have haddressed : o.Addressed := by
    obtain ⟨d, -, hs⟩ := h
    exact hs.outbox ▸ hs.addressed
  have hbatches : (o.waiting.flatMap fun q => Task.batch q.peer q.messages) =
      o.peersWithPending.flatMap fun p => Task.batch p (o.pendingFor p.address) := by
    rw [Outbox.peersWithPending, List.flatMap_map]
    exact List.flatMap_congr fun q hq => by rw [haddressed.pendingFor_of_waiting hq]
  rw [hbatches]
  exact (h.startPass hsends).copyAll

/-- Nothing is lost on the way, and nothing is brought twice. -/
theorem accounted (h : Attains directory o n ts) (hn : n < UInt64.size) :
    ∃ d : Dispatcher, d.outbox = o ∧ ts.Perm d.tasks ∧ d.Accounted := by
  obtain ⟨d, hd, hs⟩ := h
  have hsound : d.Sound := .of_reaches hd (hs.enqueued.symm ▸ hn)
  exact ⟨d, hs.outbox, hs.tasks, hsound.accounted⟩

end Attains

end Dispatcher
end CausalStore
