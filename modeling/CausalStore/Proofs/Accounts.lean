import CausalStore.Proofs.Dues

/-!
# What becomes of each message

Whatever the exchanges end with, and in whichever order the tasks of a dispatcher act, each message
gets through at most once, and no message vanishes before that (`Dispatcher.Accounted`). Messages
enter and leave the queues for one reason each, and the reports of the passes tell what was done.
-/

namespace CausalStore

variable {q : Queued} {a : Address}

/-- The task of the send is not over. -/
def Parcel.Underway (p : Parcel) : Prop :=
  p.stage = .trying ∨ ∃ outcome, p.stage = .returned outcome

/-- How many times the message of a parcel is in the queue of an address. -/
def Parcel.copies (p : Parcel) (o : Outbox) (a : Address) : Nat :=
  match p.queuedAs? with
  | some q => (o.pendingFor a).count q
  | none => 0

theorem Parcel.copies_of_none {p : Parcel} (h : p.queuedAs? = none) (o : Outbox) (a : Address) :
    p.copies o a = 0 := by
  rw [copies, h]

theorem Parcel.copies_of_some {p : Parcel} (h : p.queuedAs? = some q) (o : Outbox) (a : Address) :
    p.copies o a = (o.pendingFor a).count q := by
  rw [copies, h]

theorem Parcel.queuedAs?_eq_some {p : Parcel} : p.queuedAs? = some q ↔
    (∃ cause, p.stage = .queued cause q.id) ∧ p.send.message = q.message := by
  obtain ⟨s, stage, successes⟩ := p
  obtain ⟨id, m⟩ := q
  cases stage <;> simp [queuedAs?]

namespace Dispatcher

variable {d : Dispatcher} {p : Parcel}

/-- A message is in its first attempt, or once in the queue of its peer and in no other one, or it
got through once. -/
def Placed (d : Dispatcher) (p : Parcel) : Prop :=
  p.Underway ∧ (∀ a, p.copies d.outbox a = 0) ∨
  p.copies d.outbox p.address = 1 ∧ (∀ a, a ≠ p.address → p.copies d.outbox a = 0) ∨
  p.successes = 1 ∧ ∀ a, p.copies d.outbox a = 0

/-- The first attempt of the send `n` failed, and its message is in the queue of its peer as `q`. -/
def Owns (d : Dispatcher) (n : Nat) (a : Address) (q : Queued) : Prop :=
  ∃ p cause, d.parcels[n]? = some p ∧ p.stage = .queued cause q.id ∧
    p.send.message = q.message ∧ p.address = a

/-- The action ends the task of a send of the message to the address whose first attempt failed. -/
def GivesUp (d : Dispatcher) (x : Action) (a : Address) (m : Message) : Prop :=
  ∃ n p cause, x = .conclude n ∧ d.parcels[n]? = some p ∧ p.stage = .returned (.error cause) ∧
    p.send.message = m ∧ p.address = a

/-- In the action a batch acts on a retry of the message that got through. -/
def TakesOut (d : Dispatcher) (x : Action) (a : Address) (q : Queued) : Prop :=
  ∃ k pass b, x = .proceed k ∧ d.pass = some pass ∧ pass.batches[k]? = some b ∧
    b.peer.address = a ∧ b.Brought q

/-- What a dispatcher has been given to send it keeps until it got through, and lets go of then. -/
structure Accounted (d : Dispatcher) : Prop where
  places : ∀ p ∈ d.parcels, d.Placed p
  once : ∀ p ∈ d.parcels, p.successes ≤ 1
  /-- What is in a queue is there for one send, the first attempt of which failed. -/
  owners : ∀ a, ∀ q ∈ d.outbox.pendingFor a, ∃! n, d.Owns n a q
  /-- A batch retries what is in the queue of its peer. -/
  retries : ∀ pass, d.pass = some pass → ∀ b ∈ pass.batches, ∀ q ∈ b.phase.left,
    q ∈ d.outbox.pendingFor b.peer.address
  /-- Only a send that failed puts a message into a queue, and a running pass takes note of it. -/
  enters : ∀ x d', d.step x = some d' → ∀ a q, q ∉ d.outbox.pendingFor a →
    q ∈ d'.outbox.pendingFor a →
      d.GivesUp x a q.message ∧ ∀ pass, d'.pass = some pass → (a, q) ∈ pass.added
  /-- Only the batch that has brought a message takes it out of the queue. -/
  leaves : ∀ x d', d.step x = some d' → ∀ a q, q ∈ d.outbox.pendingFor a →
    q ∉ d'.outbox.pendingFor a → d.TakesOut x a q
  /-- What was queued since a pass began is still there, unless a batch copied it and took it out. -/
  kept : ∀ pass, d.pass = some pass → ∀ x ∈ pass.added, x.2 ∈ d.outbox.pendingFor x.1 ∨
    ∃ b ∈ pass.batches, b.peer.address = x.1 ∧ x.2 ∈ b.copied ∧ x.2 ∈ b.removed
  /-- A pass reports how many messages its batches copied and how many they took out. -/
  reports : ∀ e ∈ d.ended, e.2.Counts e.1

theorem Sound.placed (h : d.Sound) (hp : p ∈ d.parcels) : d.Placed p := by
  have hbalanced := h.balanced p hp
  cases hq : p.queuedAs? with
  | none =>
    have hzero := p.copies_of_none hq d.outbox
    cases hstage : p.stage with
    | trying => exact .inl ⟨.inl hstage, hzero⟩
    | returned outcome => exact .inl ⟨.inr ⟨outcome, hstage⟩, hzero⟩
    | settled reply =>
      have hnot : ¬ d.Owes p := by
        rw [Owes, hstage]
        exact not_false
      exact .inr (.inr ⟨(hbalanced.resolve_left fun hb => hnot hb.1).2, hzero⟩)
    | queued cause id =>
      have hsome := Parcel.queuedAs?_eq_some (q := ⟨id, p.send.message⟩).2 ⟨⟨cause, hstage⟩, rfl⟩
      cases hq.symm.trans hsome
  | some q =>
    have helsewhere : ∀ a, a ≠ p.address → p.copies d.outbox a = 0 := by
      intro a ha
      rw [p.copies_of_some hq, List.count_eq_zero]
      intro hmem
      exact ha (h.shelved.eq_of_id hmem hp (Parcel.id?_of_queuedAs? hq)).2.symm
    by_cases hmem : q ∈ d.outbox.pendingFor p.address
    · refine .inr (.inl ⟨?_, helsewhere⟩)
      rw [p.copies_of_some hq]
      exact List.count_eq_one_of_mem (h.shelved.distinct p.address) hmem
    · have hnot : ¬ d.Owes p := by
        rw [owes_of_queuedAs? hq]
        exact fun hawaits => hmem hawaits.1
      refine .inr (.inr ⟨(hbalanced.resolve_left fun hb => hnot hb.1).2, fun a => ?_⟩)
      rcases eq_or_ne a p.address with rfl | ha
      · rw [p.copies_of_some hq, List.count_eq_zero]
        exact hmem
      · exact helsewhere a ha

theorem Sound.owner (h : d.Sound) (hq : q ∈ d.outbox.pendingFor a) : ∃! n, d.Owns n a q := by
  obtain ⟨p, hp, hpq, hpa⟩ := h.shelved.owned a q hq
  obtain ⟨n, hn⟩ := List.mem_iff_getElem?.1 hp
  obtain ⟨⟨cause, hstage⟩, hmessage⟩ := Parcel.queuedAs?_eq_some.1 hpq
  refine ⟨n, ⟨p, cause, hn, hstage, hmessage, hpa⟩, ?_⟩
  rintro i ⟨r, cause', hi, hstage', hmessage', -⟩
  have hrq : r.queuedAs? = some q := Parcel.queuedAs?_eq_some.2 ⟨⟨cause', hstage'⟩, hmessage'⟩
  exact h.shelved.keyed i n r p q.id hi hn (Parcel.id?_of_queuedAs? hrq)
    (Parcel.id?_of_queuedAs? hpq)

theorem Move.enters {d' : Dispatcher} {x : Action} (h : d.Move x d')
    (hout : q ∉ d.outbox.pendingFor a) (hin : q ∈ d'.outbox.pendingFor a) :
    d.GivesUp x a q.message ∧ ∀ pass, d'.pass = some pass → (a, q) ∈ pass.added := by
  cases h with
  | @queue n s cause k hn =>
    obtain hin | ⟨rfl, rfl⟩ := Outbox.mem_enqueue.1 hin
    · exact absurd hin hout
    · refine ⟨⟨n, _, cause, rfl, hn, rfl, rfl, rfl⟩, fun pass hpass => ?_⟩
      obtain ⟨pass, -, rfl⟩ := Option.map_eq_some_iff.1 hpass
      exact List.mem_cons_self
  | remove => exact absurd (Outbox.mem_remove.1 hin).1 hout
  | learn | launch | attempted | settle | startPass | copy | retried | failedAgain | endPass =>
    exact absurd hin hout

theorem Sound.leaves {d' : Dispatcher} {x : Action} (hd : d.Sound) (h : d.Move x d')
    (hin : q ∈ d.outbox.pendingFor a) (hout : q ∉ d'.outbox.pendingFor a) : d.TakesOut x a q := by
  cases h with
  | queue => exact absurd (Outbox.mem_enqueue.2 (.inl hin)) hout
  | @remove k pass b r reply rest hpass hb hphase =>
    have hr : r ∈ d.outbox.pendingFor b.peer.address :=
      (hd.batch hpass hb).mem_of_brought ⟨reply, rest, hphase⟩
    have haddr : a = b.peer.address := by
      by_contra hne
      exact hout (Outbox.mem_remove.2 ⟨hin, fun heq => absurd heq hne⟩)
    subst haddr
    have hid : q.id = r.id := by
      by_contra hne
      exact hout (Outbox.mem_remove.2 ⟨hin, fun _ => hne⟩)
    refine ⟨k, pass, b, rfl, hpass, hb, rfl, ?_⟩
    rw [(hd.shelved.tracked.known _ r hr).eq_of_id q hin hid]
    exact ⟨reply, rest, hphase⟩
  | learn | launch | attempted | settle | startPass | copy | retried | failedAgain | endPass =>
    exact absurd hin hout

theorem Sound.accounted (hd : d.Sound) : d.Accounted := by
  refine
    { places := fun p hp => hd.placed hp
      once := fun p hp => ?_
      owners := fun a q hq => hd.owner hq
      retries := fun pass hpass b hb => ((hd.pass pass hpass).batches b hb).waits
      enters := fun x d' hstep a q => (move_of_step hstep).enters
      leaves := fun x d' hstep a q => hd.leaves (move_of_step hstep)
      kept := fun pass hpass x hx => ?_
      reports := hd.ended }
  · obtain ⟨-, hp⟩ | ⟨-, hp⟩ := hd.balanced p hp <;> omega
  · refine ((hd.pass pass hpass).kept x hx).imp_right ?_
    rintro ⟨b, hb, haddr, hremoved⟩
    exact ⟨b, hb, haddr, ((hd.pass pass hpass).batches b hb).removed_copied _ hremoved, hremoved⟩

/-- Whatever a dispatcher was told to send, however its tasks take turns and its exchanges end, it
has lost nothing and brought nothing twice, unless it has queued more messages than there are ids. -/
theorem nothing_lost_nothing_doubled {directory : Directory}
    (h : Reaches step (fun _ _ => True) (start directory) d) (hn : d.enqueued < UInt64.size) :
    d.Accounted :=
  (Sound.of_reaches h hn).accounted

/-! Two messages fail and are queued. While both are retried a third one is queued; the first gets
through, and the second fails again. -/

def refused : Outcome := .error (.unreachable "host" "connection refused")

def stumble : List Action :=
  let b : Peer := ⟨"b", "host", 7100, 7101, 7102⟩
  let c : Peer := ⟨"c", "host", 7200, 7201, 7202⟩
  [.learn b, .broadcast ⟨"k", "v", "a", .ofList [("a", 1)]⟩, .sendToAll [c] .stateRequest,
    .attempted 0 refused, .attempted 1 refused, .conclude 1, .conclude 0, .startPass, .copy 0,
    .sendTo b .stateRequest, .attempted 2 refused, .retried 0 (.ok none), .conclude 2, .copy 1,
    .retried 1 refused, .proceed 0, .proceed 1, .endPass]

theorem stumble_loses_nothing : ∃ d, runAll step (start .empty) stumble = some d ∧
    d.enqueued = 3 ∧ d.parcels.map (·.successes) = [1, 0, 0] ∧ d.ended.map (·.2) = [⟨2, 1⟩] ∧
    d.Accounted := by
  have hview : (runAll step (start .empty) stumble).map (fun d =>
      (d.enqueued, d.parcels.map (·.successes), d.ended.map (·.2))) =
      some (3, [1, 0, 0], [⟨2, 1⟩]) := by decide +kernel
  obtain ⟨d, hd, hview⟩ := Option.map_eq_some_iff.1 hview
  simp only [Prod.mk.injEq] at hview
  obtain ⟨hcount, hsuccesses, hended⟩ := hview
  have hn : d.enqueued < UInt64.size := by rw [hcount]; decide
  exact ⟨d, hd, hcount, hsuccesses, hended, nothing_lost_nothing_doubled (.of_runAll hd) hn⟩

end Dispatcher
end CausalStore
