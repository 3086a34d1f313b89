import CausalStore.Proofs.Batches

/-!
# Messages that are owed

A message is owed until an exchange has brought it: while its first attempt is not known to have got
through, and then while it waits in a queue and no batch has brought it. No step of a dispatcher
makes it owed again, and none lets go of it before (`Dispatcher.Balanced`).
-/

namespace CausalStore

variable {b b' : Batch} {pass : Pass} {q r : Queued} {a : Address} {k n : Nat}

/-! ## What is brought and not yet taken out -/

/-- The exchange for the message got through, and the batch has yet to take it out of the queue. -/
def Batch.Brought (b : Batch) (q : Queued) : Prop :=
  ∃ reply rest, b.phase = .returned q (.ok reply) rest

/-- Some batch has brought the message and has yet to take it out of the queue of the address. -/
def Pass.Brought (pass : Pass) (a : Address) (q : Queued) : Prop :=
  ∃ b ∈ pass.batches, b.peer.address = a ∧ b.Brought q

theorem Batch.not_brought_begin {qs : List Queued} (h : b.phase = .begin qs) : ¬ b.Brought q := by
  rintro ⟨reply, rest, hq⟩
  rw [h] at hq
  cases qs <;> cases hq

theorem Batch.brought_iff {outcome : Outcome} {rest : List Queued}
    (h : b.phase = .returned r outcome rest) :
    b.Brought q ↔ q = r ∧ ∃ reply, outcome = .ok reply := by
  constructor
  · rintro ⟨reply, rest', hq⟩
    cases hq.symm.trans h
    exact ⟨rfl, reply, rfl⟩
  · rintro ⟨rfl, reply, rfl⟩
    exact ⟨reply, rest, h⟩

theorem Batch.Sound.mem_of_brought {o : Outbox} (h : b.Sound o) (hq : b.Brought q) :
    q ∈ o.pendingFor b.peer.address := by
  obtain ⟨reply, rest, hphase⟩ := hq
  refine h.waits q ?_
  rw [hphase]
  exact List.mem_cons_self

namespace Pass

theorem not_brought_new {ps : List Peer} : ¬ (Pass.new ps).Brought a q := by
  rintro ⟨b, hb, -, reply, rest, hphase⟩
  obtain ⟨p, -, rfl⟩ := List.mem_map.1 hb
  cases hphase

theorem not_brought_of_done (h : ∀ b ∈ pass.batches, b.phase.isDone = true) :
    ¬ pass.Brought a q := by
  rintro ⟨b, hb, -, reply, rest, hphase⟩
  have hdone := h b hb
  rw [hphase] at hdone
  cases hdone

/-- Nobody else has brought what waits for the peer of a batch. -/
theorem brought_self (h : pass.Apart)
    (hb : pass.batches[k]? = some b) : pass.Brought b.peer.address q ↔ b.Brought q := by
  constructor
  · rintro ⟨c, hc, haddr, hq⟩
    obtain ⟨i, hi⟩ := List.mem_iff_getElem?.1 hc
    cases h.eq_of_address hi hb haddr
    cases hi.symm.trans hb
    exact hq
  · intro hq
    exact ⟨b, List.mem_of_getElem? hb, rfl, hq⟩

theorem brought_set_self (h : pass.Apart)
    (hb : pass.batches[k]? = some b) (hpeer : b'.peer = b.peer) :
    (pass.set k b').Brought b.peer.address q ↔ b'.Brought q := by
  have hb' : (pass.set k b').batches[k]? = some b' :=
    List.getElem?_set_self (List.getElem?_eq_some_iff.1 hb).1
  rw [← hpeer]
  exact brought_self (h.set hb hpeer) hb'

theorem brought_set_of_ne (hb : pass.batches[k]? = some b) (hpeer : b'.peer = b.peer)
    (ha : a ≠ b.peer.address) : (pass.set k b').Brought a q ↔ pass.Brought a q := by
  constructor
  · rintro ⟨c, hc, rfl, hq⟩
    rcases List.mem_or_eq_of_mem_set hc with hc | rfl
    · exact ⟨c, hc, rfl, hq⟩
    · exact absurd (congrArg Peer.address hpeer) ha
  · rintro ⟨c, hc, rfl, hq⟩
    obtain ⟨i, hi⟩ := List.mem_iff_getElem?.1 hc
    have hne : k ≠ i := by
      rintro rfl
      cases hb.symm.trans hi
      exact ha rfl
    exact ⟨c, List.mem_of_getElem? ((List.getElem?_set_ne hne).trans hi), rfl, hq⟩

end Pass

namespace Dispatcher

variable {d d' : Dispatcher} {x : Action} {p : Parcel}

/-- The message is in the queue, and no retry has brought it. -/
def Awaits (d : Dispatcher) (a : Address) (q : Queued) : Prop :=
  q ∈ d.outbox.pendingFor a ∧ ∀ pass, d.pass = some pass → ¬ pass.Brought a q

theorem awaits_of_none (h : d.pass = none) : d.Awaits a q ↔ q ∈ d.outbox.pendingFor a := by
  refine and_iff_left fun pass hpass => ?_
  cases h.symm.trans hpass

theorem awaits_of_pass (h : d.pass = some pass) :
    d.Awaits a q ↔ q ∈ d.outbox.pendingFor a ∧ ¬ pass.Brought a q := by
  refine and_congr_right fun _ => ⟨fun hall => hall pass h, fun hnot pass' hpass' => ?_⟩
  cases h.symm.trans hpass'
  exact hnot

/-- The message of the parcel is yet to get through. -/
def Owes (d : Dispatcher) (p : Parcel) : Prop :=
  match p.stage with
  | .trying => True
  | .returned outcome => outcome.successes = 0
  | .settled _ => False
  | .queued _ id => d.Awaits p.address ⟨id, p.send.message⟩

/-- A message gets through once, and then it is no longer owed. -/
def Balanced (d : Dispatcher) (p : Parcel) : Prop :=
  d.Owes p ∧ p.successes = 0 ∨ ¬ d.Owes p ∧ p.successes = 1

theorem owes_of_queuedAs? (h : p.queuedAs? = some q) : d.Owes p ↔ d.Awaits p.address q := by
  obtain ⟨s, stage, successes⟩ := p
  cases stage with
  | queued cause id => cases h; exact Iff.rfl
  | trying | returned outcome | settled reply => cases h

theorem Balanced.congr (h : d.Balanced p)
    (hawaits : ∀ q, p.queuedAs? = some q → (d'.Awaits p.address q ↔ d.Awaits p.address q)) :
    d'.Balanced p := by
  have howes : d'.Owes p ↔ d.Owes p := by
    obtain ⟨s, stage, successes⟩ := p
    cases stage with
    | queued cause id => exact hawaits _ rfl
    | trying | returned outcome | settled reply => exact Iff.rfl
  rwa [Balanced, howes]

/-! ## The invariant -/

/-- What holds of a dispatcher while its tasks run. -/
structure Sound (d : Dispatcher) : Prop where
  shelved : Shelved d.outbox d.enqueued d.parcels
  pass : ∀ pass, d.pass = some pass → pass.Sound d.outbox
  balanced : ∀ p ∈ d.parcels, d.Balanced p
  ended : ∀ e ∈ d.ended, e.2.Counts e.1

theorem Sound.start (directory : Directory) : (start directory).Sound where
  shelved := .start
  pass _ h := nomatch h
  balanced _ h := nomatch h
  ended _ h := nomatch h

theorem Sound.batch (h : d.Sound) (hpass : d.pass = some pass)
    (hb : pass.batches[k]? = some b) : b.Sound d.outbox :=
  (h.pass pass hpass).batches b (List.mem_of_getElem? hb)

theorem Move.enqueued_le (h : d.Move x d') : d.enqueued ≤ d'.enqueued := by
  cases h with
  | queue => exact Nat.le_succ _
  | learn | launch | attempted | settle | startPass | copy | retried | failedAgain | remove |
    endPass => exact Nat.le_refl _

theorem Sound.shelved_move (h : d.Sound) (hm : d.Move x d') (hn : d'.enqueued < UInt64.size) :
    Shelved d'.outbox d'.enqueued d'.parcels := by
  cases hm with
  | learn | startPass | copy | failedAgain | endPass => exact h.shelved
  | launch x ss =>
    refine h.shelved.append fun p hp => ?_
    obtain ⟨s, -, rfl⟩ := List.mem_map.1 hp
    rfl
  | attempted outcome hp | settle hp => exact h.shelved.set hp rfl rfl
  | queue hp => exact h.shelved.enqueue hn hp rfl rfl rfl
  | retried outcome => exact h.shelved.credit _ outcome
  | remove => exact h.shelved.remove _ _

theorem Sound.pass_move (h : d.Sound) (hm : d.Move x d') {pass' : Pass}
    (hpass' : d'.pass = some pass') : pass'.Sound d'.outbox := by
  cases hm with
  | learn | launch | attempted | settle => exact h.pass pass' hpass'
  | @queue n s cause k hp =>
    obtain ⟨pass, hpass, rfl⟩ := Option.map_eq_some_iff.1 hpass'
    exact (h.pass pass hpass).enqueue s.peer s.message
  | startPass =>
    cases hpass'
    exact .new h.shelved.addressed
  | copy hpass hb hphase =>
    cases hpass'
    have hcopy := (h.batch hpass hb).copy hphase rfl (h.shelved.distinct _)
    exact (h.pass _ hpass).setBatch hb rfl hcopy rfl
  | retried outcome hpass hb hphase =>
    cases hpass'
    exact (h.pass _ hpass).setBatch hb rfl ((h.batch hpass hb).retried hphase outcome) rfl
  | failedAgain hpass hb hphase =>
    cases hpass'
    exact (h.pass _ hpass).setBatch hb rfl ((h.batch hpass hb).failedAgain hphase) rfl
  | remove hpass hb hphase =>
    cases hpass'
    refine (h.pass _ hpass).set hb rfl ((h.batch hpass hb).remove h.shelved hphase)
      (fun _ hq => List.mem_append_left _ hq) (fun _ ha => Outbox.pendingFor_remove_of_ne ha)
      fun r hr => ?_
    refine or_iff_not_imp_left.2 fun hout => List.mem_append_right _ ?_
    exact List.mem_filter.2 ⟨hr, decide_eq_true hout⟩
  | endPass => cases hpass'

/-! ## What is owed after a move -/

theorem awaits_startPass (hpass : d.pass = none) (ps : List Peer) :
    Awaits { d with pass := some (.new ps) } a q ↔ d.Awaits a q := by
  rw [awaits_of_none hpass, awaits_of_pass (d := { d with pass := some (.new ps) }) rfl]
  exact and_iff_left Pass.not_brought_new

theorem awaits_endPass {ended : List (Pass × RetryReport)} (hpass : d.pass = some pass)
    (hdone : ∀ b ∈ pass.batches, b.phase.isDone = true) :
    Awaits { d with pass := none, ended } a q ↔ d.Awaits a q := by
  rw [awaits_of_pass hpass, awaits_of_none (d := { d with pass := none, ended }) rfl]
  exact (and_iff_left (Pass.not_brought_of_done hdone)).symm

section
variable (hpass : d.pass = some pass) (hb : pass.batches[k]? = some b)
  (hpass' : d'.pass = some (pass.set k b')) (hpeer : b'.peer = b.peer)
include hpass hb

theorem awaits_self (hapart : pass.Apart) :
    d.Awaits b.peer.address q ↔ q ∈ d.outbox.pendingFor b.peer.address ∧ ¬ b.Brought q := by
  rw [awaits_of_pass hpass, Pass.brought_self hapart hb]

include hpass' hpeer

theorem awaits_set_of_ne (ha : a ≠ b.peer.address)
    (hsame : d'.outbox.pendingFor a = d.outbox.pendingFor a) :
    d'.Awaits a q ↔ d.Awaits a q := by
  rw [awaits_of_pass hpass, awaits_of_pass hpass', hsame, Pass.brought_set_of_ne hb hpeer ha]

omit hpass in
theorem awaits_set_self (hapart : pass.Apart) :
    d'.Awaits b.peer.address q ↔ q ∈ d'.outbox.pendingFor b.peer.address ∧ ¬ b'.Brought q := by
  rw [awaits_of_pass hpass', Pass.brought_set_self hapart hb hpeer]

/-- The change of a batch that has brought the same before and after. -/
theorem awaits_set (hapart : pass.Apart)
    (hsame : d'.outbox = d.outbox) (hbrought : ∀ q, b'.Brought q ↔ b.Brought q) :
    d'.Awaits a q ↔ d.Awaits a q := by
  rcases eq_or_ne a b.peer.address with rfl | ha
  · rw [awaits_set_self hb hpass' hpeer hapart, awaits_self hpass hb hapart, hsame, hbrought]
  · exact awaits_set_of_ne hpass hb hpass' hpeer ha (by rw [hsame])

/-- What a retry has brought is awaited no longer, and no other message is concerned. -/
theorem awaits_retried {reply : Option Message} {rest rest' : List Queued}
    (hapart : pass.Apart) (hsame : d'.outbox = d.outbox)
    (hphase : b.phase = .trying r rest) (hphase' : b'.phase = .returned r (.ok reply) rest') :
    d'.Awaits a q ↔ d.Awaits a q ∧ ¬ (a = b.peer.address ∧ q = r) := by
  rcases eq_or_ne a b.peer.address with rfl | ha
  · have hnot : ¬ b.Brought q := by
      rintro ⟨reply, rest, h⟩
      cases h.symm.trans hphase
    rw [awaits_set_self hb hpass' hpeer hapart, awaits_self hpass hb hapart, hsame,
      Batch.brought_iff hphase']
    simp [hnot]
  · rw [awaits_set_of_ne hpass hb hpass' hpeer ha (by rw [hsame])]
    simp [ha]

/-- To take out what was brought changes nothing about what is awaited. -/
theorem awaits_remove {reply : Option Message} {rest : List Queued} (h : d.Sound)
    (hphase : b.phase = .returned r (.ok reply) rest) (hphase' : b'.phase = .begin rest)
    (houtbox : d'.outbox = d.outbox.remove b.peer.address r.id) :
    d'.Awaits a q ↔ d.Awaits a q := by
  have hapart := (h.pass pass hpass).apart
  rcases eq_or_ne a b.peer.address with rfl | ha
  -- `r` was brought before and is out of the queue now, so it is not awaited either way.
  · have hr : r ∈ d.outbox.pendingFor b.peer.address :=
      (h.batch hpass hb).mem_of_brought ⟨reply, rest, hphase⟩
    have hid (hq : q ∈ d.outbox.pendingFor b.peer.address) : q.id = r.id ↔ q = r :=
      ⟨(h.shelved.tracked.known _ r hr).eq_of_id q hq, congrArg Queued.id⟩
    rw [awaits_set_self hb hpass' hpeer hapart, awaits_self hpass hb hapart, houtbox,
      Outbox.mem_remove, and_assoc, Batch.brought_iff hphase]
    refine and_congr_right fun hq => ?_
    simp [hid hq, Batch.not_brought_begin hphase']
  · refine awaits_set_of_ne hpass hb hpass' hpeer ha ?_
    rw [houtbox, Outbox.pendingFor_remove_of_ne ha]

end

/-- Nothing but what is queued is awaited beside what was. -/
theorem awaits_queue {s : Send} {cause : ExchangeError} {m : Nat} (h : d.Sound) :
    (d.queue n s m cause).Awaits a q ↔
      d.Awaits a q ∨ a = s.peer.address ∧ q = ⟨d.outbox.nextId, s.message⟩ := by
  have hnew : ∀ pass, d.pass = some pass →
      ¬ pass.Brought s.peer.address ⟨d.outbox.nextId, s.message⟩ := by
    rintro pass hpass ⟨b, hb, haddr, hq⟩
    have hmem := ((h.pass pass hpass).batches b hb).mem_of_brought hq
    exact h.shelved.tracked.nextId_not_mem hmem
  have hpass : (∀ pass, (d.queue n s m cause).pass = some pass → ¬ pass.Brought a q) ↔
      ∀ pass, d.pass = some pass → ¬ pass.Brought a q := by
    cases hd : d.pass <;> simp [queue, hd, Pass.Brought, Pass.note]
  have houtbox : (d.queue n s m cause).outbox = d.outbox.enqueue s.peer s.message := rfl
  rw [Awaits, Awaits, hpass, houtbox, Outbox.mem_enqueue, or_and_right]
  refine or_congr_right (and_iff_left_of_imp ?_)
  rintro ⟨rfl, rfl⟩
  exact hnew

/-! ## What becomes of a parcel -/

theorem Balanced.fresh (d : Dispatcher) (s : Send) : d.Balanced (.new s) :=
  .inl ⟨trivial, rfl⟩

theorem Balanced.attempted {s : Send} {m : Nat} (h : d.Balanced ⟨s, .trying, m⟩)
    (d' : Dispatcher) (outcome : Outcome) :
    d'.Balanced ⟨s, .returned outcome, m + outcome.successes⟩ := by
  obtain ⟨-, (rfl : m = 0)⟩ | ⟨hnot, -⟩ := h
  · cases outcome with
    | ok reply => exact .inr ⟨fun howes => (nomatch howes), rfl⟩
    | error cause => exact .inl ⟨rfl, rfl⟩
  · exact absurd trivial hnot

theorem Balanced.settle {s : Send} {m : Nat} {reply : Option Message}
    (h : d.Balanced ⟨s, .returned (.ok reply), m⟩) (d' : Dispatcher) :
    d'.Balanced ⟨s, .settled reply, m⟩ := by
  obtain ⟨howes, -⟩ | ⟨-, hm⟩ := h
  · cases howes
  · exact .inr ⟨fun howes => howes, hm⟩

theorem Balanced.queue {s : Send} {m : Nat} {cause : ExchangeError}
    (h : d.Balanced ⟨s, .returned (.error cause), m⟩) (hd : d.Sound) :
    (d.queue n s m cause).Balanced ⟨s, .queued cause d.outbox.nextId, m⟩ := by
  obtain ⟨-, hm⟩ | ⟨hnot, -⟩ := h
  · exact .inl ⟨(awaits_queue hd).2 (.inr ⟨rfl, rfl⟩), hm⟩
  · exact absurd rfl hnot

/-- The retry of a message is the one success of its parcel. -/
theorem Balanced.credit {reply : Option Message} (h : d.Balanced p) (hd : d.Sound)
    (hp : p ∈ d.parcels) (hr : d.Awaits a r)
    (hawaits : ∀ b q, d'.Awaits b q ↔ d.Awaits b q ∧ ¬ (b = a ∧ q = r)) :
    d'.Balanced (p.credit r.id (.ok reply)) := by
  unfold Parcel.credit
  split
  next hid =>
    obtain ⟨hq, rfl⟩ := hd.shelved.eq_of_id hr.1 hp hid
    have hq' : Parcel.queuedAs? { p with successes := p.successes + 1 } = some r := hq
    rw [Balanced, owes_of_queuedAs? hq] at h
    rw [Outcome.successes, Balanced, owes_of_queuedAs? hq', hawaits]
    obtain ⟨-, hm⟩ | ⟨hnot, -⟩ := h
    · exact .inr ⟨fun howes => howes.2 ⟨rfl, rfl⟩, by rw [hm]⟩
    · exact absurd hr hnot
  next hid =>
    refine h.congr fun q hq => ?_
    rw [hawaits]
    refine and_iff_left ?_
    rintro ⟨-, rfl⟩
    exact hid (Parcel.id?_of_queuedAs? hq)

theorem Sound.balanced_move (h : d.Sound) (hm : d.Move x d') : ∀ p ∈ d'.parcels, d'.Balanced p := by
  intro p hp
  -- Only `queue` and a retry that gets through change what is awaited.
  cases hm with
  | learn => exact h.balanced p hp
  | launch x ss =>
    rcases List.mem_append.1 hp with hp | hp
    · exact h.balanced p hp
    · obtain ⟨s, -, rfl⟩ := List.mem_map.1 hp
      exact .fresh _ s
  | attempted outcome hn =>
    rcases List.mem_or_eq_of_mem_set hp with hp | rfl
    · exact h.balanced p hp
    · exact (h.balanced _ (List.mem_of_getElem? hn)).attempted _ outcome
  | settle hn =>
    rcases List.mem_or_eq_of_mem_set hp with hp | rfl
    · exact h.balanced p hp
    · exact (h.balanced _ (List.mem_of_getElem? hn)).settle _
  | queue hn =>
    rcases List.mem_or_eq_of_mem_set hp with hp | rfl
    · refine (h.balanced p hp).congr fun q hq => ?_
      rw [awaits_queue h]
      refine or_iff_left ?_
      rintro ⟨-, rfl⟩
      have hlt := h.shelved.id_lt p hp _ hq
      rw [h.shelved.tracked.nextId] at hlt
      exact absurd hlt (Nat.lt_irrefl _)
    · exact (h.balanced _ (List.mem_of_getElem? hn)).queue h
  | startPass hpass => exact (h.balanced p hp).congr fun q _ => awaits_startPass hpass _
  | @copy k pass b hpass hb hphase =>
    refine (h.balanced p hp).congr fun q _ => ?_
    refine awaits_set hpass hb rfl rfl (h.pass _ hpass).apart rfl fun q => ?_
    refine iff_of_false (Batch.not_brought_begin rfl) ?_
    rintro ⟨reply, rest, hq⟩
    cases hq.symm.trans hphase
  | @retried k pass b r rest outcome hpass hb hphase =>
    obtain ⟨p', hp', rfl⟩ := List.mem_map.1 hp
    have hapart := (h.pass _ hpass).apart
    have hnot : ∀ q, ¬ b.Brought q := by
      rintro q ⟨reply, rest', hq⟩
      cases hq.symm.trans hphase
    cases outcome with
    | error cause =>
      rw [Parcel.credit_error]
      refine (h.balanced p' hp').congr fun q _ => ?_
      refine awaits_set hpass hb rfl rfl hapart rfl fun q => iff_of_false ?_ (hnot q)
      rw [Batch.brought_iff rfl]
      rintro ⟨-, reply, hreply⟩
      cases hreply
    | ok reply =>
      have hwaits := (h.batch hpass hb).waits r
      rw [hphase] at hwaits
      refine (h.balanced p' hp').credit h hp' ?_ fun a q =>
        awaits_retried hpass hb rfl rfl hapart rfl hphase rfl
      exact (awaits_self hpass hb hapart).2 ⟨hwaits List.mem_cons_self, hnot r⟩
  | @failedAgain k pass b r error rest hpass hb hphase =>
    refine (h.balanced p hp).congr fun q _ => ?_
    refine awaits_set hpass hb rfl rfl (h.pass _ hpass).apart rfl fun q => ?_
    refine iff_of_false (Batch.not_brought_begin rfl) ?_
    rw [Batch.brought_iff hphase]
    rintro ⟨-, reply, hreply⟩
    cases hreply
  | remove hpass hb hphase =>
    exact (h.balanced p hp).congr fun q _ => awaits_remove hpass hb rfl rfl h hphase rfl rfl
  | endPass hpass hdone => exact (h.balanced p hp).congr fun q _ => awaits_endPass hpass hdone

theorem Sound.move (h : d.Sound) (hm : d.Move x d') (hn : d'.enqueued < UInt64.size) :
    d'.Sound where
  shelved := h.shelved_move hm hn
  pass _ hpass' := h.pass_move hm hpass'
  balanced := h.balanced_move hm
  ended e he := by
    cases hm with
    | endPass hpass hdone =>
      rcases List.mem_cons.1 he with rfl | he
      · exact (h.pass _ hpass).report hdone
      · exact h.ended e he
    | learn | launch | attempted | settle | queue | startPass | copy | retried | failedAgain |
      remove => exact h.ended e he

theorem Sound.of_reaches {directory : Directory}
    (h : Reaches step (fun _ _ => True) (Dispatcher.start directory) d)
    (hn : d.enqueued < UInt64.size) : d.Sound := by
  induction h with
  | refl => exact .start directory
  | step _ _ hstep ih =>
    have hm := move_of_step hstep
    exact (ih (Nat.lt_of_le_of_lt hm.enqueued_le hn)).move hm hn

end Dispatcher
end CausalStore
