import CausalStore.Proofs.Shelves

/-!
# Retry passes

What a batch works from is a copy of its peer's queue, and the queue goes on to change. Still all
that it has yet to retry is there, and what it counts is what it took out (`Batch.Sound`): no two
batches of a pass have one address, and sends only add to the queues.
-/

namespace CausalStore

variable {o o' : Outbox} {b b' : Batch} {pass : Pass} {q : Queued} {rest qs : List Queued}
  {a : Address} {n k : Nat} {ps : List Parcel}

@[simp] theorem Phase.left_begin (qs : List Queued) : (begin qs).left = qs := by
  cases qs <;> rfl

theorem Phase.begin_ne_spawned (qs : List Queued) : begin qs ≠ spawned := by
  cases qs <;> intro h <;> cases h

theorem Phase.left_of_isDone {p : Phase} (h : p.isDone = true) : p.left = [] := by
  cases p with
  | spawned | done => rfl
  | trying q rest | returned q outcome rest => cases h

/-- What the batch has copied still waits, unless the batch is done with it, and its counts are
right. -/
structure Batch.Sound (o : Outbox) (b : Batch) : Prop where
  waits : ∀ q ∈ b.phase.left, q ∈ o.pendingFor b.peer.address
  nodup : b.phase.left.Nodup
  left_copied : ∀ q ∈ b.phase.left, q ∈ b.copied
  removed_copied : ∀ q ∈ b.removed, q ∈ b.copied
  attempted : b.report.attempted + b.phase.left.length = b.copied.length
  delivered : b.report.delivered = b.removed.length
  spawned : b.phase = .spawned → b.copied = []

namespace Batch.Sound

theorem new (o : Outbox) (p : Peer) : (Batch.new p).Sound o where
  waits _ hq := nomatch hq
  nodup := .nil
  left_copied _ hq := nomatch hq
  removed_copied _ hq := nomatch hq
  attempted := rfl
  delivered := rfl
  spawned _ := rfl

/-- The batch minds its own queue only, and there what it has yet to retry. -/
theorem mono (h : b.Sound o)
    (hle : ∀ q ∈ o.pendingFor b.peer.address, q ∈ o'.pendingFor b.peer.address) : b.Sound o' :=
  { h with waits := fun q hq => hle q (h.waits q hq) }

theorem copy (h : b.Sound o) (hphase : b.phase = .spawned)
    (hqs : o.pendingFor b.peer.address = qs) (hnodup : qs.Nodup) :
    Batch.Sound o { b with phase := .begin qs, copied := qs } := by
  have hcopied := h.spawned hphase
  have hattempted : b.report.attempted = 0 := by
    have := h.attempted
    rw [hcopied, List.length_nil] at this
    exact (Nat.add_eq_zero_iff.1 this).1
  constructor
  · intro q hq
    rw [Phase.left_begin] at hq
    rwa [hqs]
  · rwa [Phase.left_begin]
  · intro q hq
    rwa [Phase.left_begin] at hq
  · intro q hq
    have := h.removed_copied q hq
    rw [hcopied] at this
    cases this
  · rw [Phase.left_begin, hattempted, Nat.zero_add]
  · exact h.delivered
  · intro hspawned
    exact absurd hspawned (Phase.begin_ne_spawned qs)

theorem retried (h : b.Sound o) (hphase : b.phase = .trying q rest) (outcome : Outcome) :
    Batch.Sound o { b with phase := .returned q outcome rest } := by
  obtain ⟨hwaits, hnodup, hleft, hremoved, hattempted, hdelivered, -⟩ := h
  rw [hphase] at hwaits hnodup hleft hattempted
  exact ⟨hwaits, hnodup, hleft, hremoved, hattempted, hdelivered, fun hspawned => nomatch hspawned⟩

theorem failedAgain {error : ExchangeError} (h : b.Sound o)
    (hphase : b.phase = .returned q (.error error) rest) :
    Batch.Sound o { b with phase := .begin rest, report := b.report.count (.error error) } := by
  obtain ⟨hwaits, hnodup, hleft, hremoved, hattempted, hdelivered, -⟩ := h
  rw [hphase, Phase.left] at hwaits hnodup hleft hattempted
  constructor
  · intro r hr
    rw [Phase.left_begin] at hr
    exact hwaits r (List.mem_cons_of_mem _ hr)
  · rw [Phase.left_begin]
    exact (List.nodup_cons.1 hnodup).2
  · intro r hr
    rw [Phase.left_begin] at hr
    exact hleft r (List.mem_cons_of_mem _ hr)
  · exact hremoved
  · rw [List.length_cons] at hattempted
    rw [Phase.left_begin, RetryReport.count]
    dsimp only
    omega
  · exact hdelivered
  · intro hspawned
    exact absurd hspawned (Phase.begin_ne_spawned rest)

/-- The batch after it has taken out what it has brought. -/
theorem remove {reply : Option Message} (h : b.Sound o) (hs : Shelved o n ps)
    (hphase : b.phase = .returned q (.ok reply) rest) :
    Batch.Sound (o.remove b.peer.address q.id)
      { b with
        phase := .begin rest
        report := b.report.count (.ok reply)
        removed := b.removed ++ o.lost (o.remove b.peer.address q.id) b.peer.address } := by
  obtain ⟨hwaits, hnodup, hleft, hremoved, hattempted, hdelivered, -⟩ := h
  rw [hphase, Phase.left] at hwaits hnodup hleft hattempted
  have hq := hwaits q List.mem_cons_self
  obtain ⟨hnew, hrest⟩ := List.nodup_cons.1 hnodup
  rw [hs.lost_remove hq]
  constructor
  · intro r hr
    rw [Phase.left_begin] at hr
    have hr' := hwaits r (List.mem_cons_of_mem _ hr)
    -- Had `r` the id that is taken out, it would be `q`, which the rest of the copy lacks.
    refine Outbox.mem_remove.2 ⟨hr', fun _ hid => hnew ?_⟩
    rwa [← (hs.tracked.known _ q hq).eq_of_id r hr' hid]
  · rwa [Phase.left_begin]
  · intro r hr
    rw [Phase.left_begin] at hr
    exact hleft r (List.mem_cons_of_mem _ hr)
  · intro r hr
    rcases List.mem_append.1 hr with hr | hr
    · exact hremoved r hr
    · rw [List.mem_singleton.1 hr]
      exact hleft q List.mem_cons_self
  · rw [List.length_cons] at hattempted
    rw [Phase.left_begin, RetryReport.count]
    dsimp only
    omega
  · rw [RetryReport.count, List.length_append, hdelivered]
    rfl
  · intro hspawned
    exact absurd hspawned (Phase.begin_ne_spawned rest)

end Batch.Sound

/-- The report says how many messages the batches copied, and how many they took out. -/
def RetryReport.Counts (r : RetryReport) (pass : Pass) : Prop :=
  r.attempted = (pass.batches.flatMap (·.copied)).length ∧
    r.delivered = (pass.batches.flatMap (·.removed)).length

/-- Reports that count what their batches copied and took out add up to one that does. -/
theorem RetryReport.foldl_add {bs : List Batch}
    (hbs : ∀ b ∈ bs, b.report = ⟨b.copied.length, b.removed.length⟩) (r : RetryReport) :
    bs.foldl (fun r b => r.add b.report) r =
      r.add ⟨(bs.flatMap (·.copied)).length, (bs.flatMap (·.removed)).length⟩ := by
  induction bs generalizing r with
  | nil => rfl
  | cons b bs ih =>
    obtain ⟨hb, hbs⟩ := List.forall_mem_cons.1 hbs
    rw [List.foldl_cons, ih hbs, hb]
    simp only [add, List.flatMap_cons, List.length_append, Nat.add_assoc]

/-- No two batches are for one address. -/
def Pass.Apart (pass : Pass) : Prop := Keyed (fun b => some b.peer.address) pass.batches

theorem Pass.Apart.eq_of_address {i j : Nat} {c : Batch} (h : pass.Apart)
    (hb : pass.batches[i]? = some b) (hc : pass.batches[j]? = some c)
    (haddr : b.peer.address = c.peer.address) : i = j :=
  h i j b c _ hb hc rfl (congrArg some haddr.symm)

theorem Pass.Apart.set (h : pass.Apart) (hb : pass.batches[k]? = some b)
    (hpeer : b'.peer = b.peer) : (pass.set k b').Apart :=
  Keyed.set_same h hb (by rw [hpeer])

/-- The batches are sound and do not get in each other's way, and nothing that was queued since the
pass began is gone but what they took out. -/
structure Pass.Sound (o : Outbox) (pass : Pass) : Prop where
  apart : pass.Apart
  batches : ∀ b ∈ pass.batches, b.Sound o
  kept : ∀ x ∈ pass.added, x.2 ∈ o.pendingFor x.1 ∨
    ∃ b ∈ pass.batches, b.peer.address = x.1 ∧ x.2 ∈ b.removed

namespace Pass.Sound

theorem new (h : o.Addressed) : (Pass.new o.peersWithPending).Sound o where
  apart := by
    apply Keyed.of_nodup
    rw [Pass.new, List.map_map]
    exact h.peersWithPending_nodup
  batches b hb := by
    obtain ⟨p, -, rfl⟩ := List.mem_map.1 hb
    exact .new o p
  kept _ hx := nomatch hx

theorem enqueue (h : pass.Sound o) (p : Peer) (m : Message) :
    (pass.note p.address ⟨o.nextId, m⟩).Sound (o.enqueue p m) where
  apart := h.apart
  batches b hb := (h.batches b hb).mono fun q hq => Outbox.mem_enqueue.2 (.inl hq)
  kept x hx := by
    rcases List.mem_cons.1 hx with rfl | hx
    · exact .inl (Outbox.mem_enqueue.2 (.inr ⟨rfl, rfl⟩))
    · exact (h.kept x hx).imp_left fun hq => Outbox.mem_enqueue.2 (.inl hq)

/-- A batch may change, and with it the queue of its peer, if it keeps book of what it takes out. -/
theorem set (h : pass.Sound o) (hb : pass.batches[k]? = some b) (hpeer : b'.peer = b.peer)
    (hb' : b'.Sound o') (hremoved : ∀ q ∈ b.removed, q ∈ b'.removed)
    (hsame : ∀ a, a ≠ b.peer.address → o'.pendingFor a = o.pendingFor a)
    (hkept : ∀ q ∈ o.pendingFor b.peer.address,
      q ∈ o'.pendingFor b.peer.address ∨ q ∈ b'.removed) : (pass.set k b').Sound o' where
  apart := h.apart.set hb hpeer
  batches c hc := by
    obtain ⟨i, hi⟩ := List.mem_iff_getElem?.1 hc
    rcases eq_or_ne k i with rfl | hne
    · rw [Pass.set, List.getElem?_set_self'] at hi
      obtain ⟨-, -, rfl⟩ := Option.map_eq_some_iff.1 hi
      exact hb'
    · rw [Pass.set, List.getElem?_set_ne hne] at hi
      have haddr : c.peer.address ≠ b.peer.address := by
        intro heq
        exact hne (h.apart.eq_of_address hb hi heq.symm)
      refine (h.batches c (List.mem_of_getElem? hi)).mono fun q hq => ?_
      rwa [hsame _ haddr]
  kept x hx := by
    have hmem : b' ∈ pass.batches.set k b' := List.mem_set (List.getElem?_eq_some_iff.1 hb).1 _
    rcases h.kept x hx with hq | ⟨c, hc, hca, hcx⟩
    · rcases eq_or_ne x.1 b.peer.address with hx1 | hx1
      · rw [hx1] at hq ⊢
        refine (hkept _ hq).imp_right fun hq => ⟨b', hmem, by rw [hpeer], hq⟩
      · rw [hsame _ hx1]
        exact .inl hq
    · obtain ⟨i, hi⟩ := List.mem_iff_getElem?.1 hc
      rcases eq_or_ne k i with rfl | hne
      · cases hb.symm.trans hi
        exact .inr ⟨b', hmem, hpeer ▸ hca, hremoved _ hcx⟩
      · exact .inr ⟨c, List.mem_of_getElem? ((List.getElem?_set_ne hne).trans hi), hca, hcx⟩

/-- A batch may change as long as it leaves the queues alone. -/
theorem setBatch (h : pass.Sound o) (hb : pass.batches[k]? = some b) (hpeer : b'.peer = b.peer)
    (hb' : b'.Sound o) (hremoved : b'.removed = b.removed) : (pass.set k b').Sound o :=
  h.set hb hpeer hb' (fun _ hq => hremoved ▸ hq) (fun _ _ => rfl) fun _ hq => .inl hq

/-- A pass whose batches are done has counted what they copied and what they took out. -/
theorem report (h : pass.Sound o) (hdone : ∀ b ∈ pass.batches, b.phase.isDone = true) :
    pass.report.Counts pass := by
  have hbatch : ∀ b ∈ pass.batches, b.report = ⟨b.copied.length, b.removed.length⟩ := by
    intro b hb
    have hcopied := (h.batches b hb).attempted
    rw [Phase.left_of_isDone (hdone b hb), List.length_nil, Nat.add_zero] at hcopied
    rw [← hcopied, ← (h.batches b hb).delivered]
  rw [Pass.report, RetryReport.foldl_add hbatch]
  exact ⟨Nat.zero_add _, Nat.zero_add _⟩

end Pass.Sound
end CausalStore
