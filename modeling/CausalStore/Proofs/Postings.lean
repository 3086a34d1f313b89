import CausalStore.Proofs.Queues
import Mathlib.Data.List.Nodup
import Mathlib.Data.List.Range

/-!
# What was put into the queues and not taken out

The outbound queues as a record of the calls made on them. Each message put into a queue is a posting
(`Posting`), which stays until its id is taken out at its address. A queue is there as soon as
something was posted to its address; it keeps the identity of the first posting, and lists those that
stay (`Outbox.Records`). Everything else that the queues tell follows from this.
-/

namespace CausalStore
namespace Queued

/-- The order of the ids. -/
def notAfter (q r : Queued) : Bool := q.id ≤ r.id

theorem notAfter_trans (q r s : Queued) (hqr : q.notAfter r = true) (hrs : r.notAfter s = true) :
    q.notAfter s = true :=
  decide_eq_true (UInt64.le_trans (of_decide_eq_true hqr) (of_decide_eq_true hrs))

theorem notAfter_total (q r : Queued) : (q.notAfter r || r.notAfter q) = true := by
  simpa [notAfter] using UInt64.le_total q.id r.id

end Queued

namespace Outbox

/-- What can be done with the queues. -/
inductive Call where
  | enqueue (p : Peer) (m : Message)
  | remove (a : Address) (id : UInt64)
  deriving DecidableEq

/-- What a call answers: the id of a message that was put into a queue, or whether there was one to
take out. -/
inductive Answer where
  | queued (id : UInt64)
  | removed (found : Bool)
  deriving DecidableEq

def Answer.id? : Answer → Option UInt64
  | queued id => some id
  | removed _ => none

def answer (o : Outbox) : Call → Answer
  | .enqueue _ _ => .queued o.nextId
  | .remove a id => .removed (o.holds a id)

def call (o : Outbox) : Call → Outbox
  | .enqueue p m => o.enqueue p m
  | .remove a id => o.remove a id

/-- The queues after calls, one after the other. -/
def callAll (o : Outbox) (cs : List Call) : Outbox := cs.foldl call o

/-- What calls answer, one after the other. -/
def answers (o : Outbox) : List Call → List Answer
  | [] => []
  | c :: cs => o.answer c :: (o.call c).answers cs

end Outbox

/-- Each element is counted under one of the keys. -/
theorem foldl_countP_eq_length {α κ : Type} [DecidableEq κ] {f : α → κ} {keys : List κ}
    (hkeys : keys.Nodup) {l : List α} (h : ∀ x ∈ l, f x ∈ keys) (n : Nat) :
    keys.foldl (fun n k => n + l.countP fun x => f x = k) n = n + l.length := by
  induction keys generalizing l n with
  | nil => cases l with
    | nil => rfl
    | cons x l => cases h x List.mem_cons_self
  | cons k keys ih =>
    obtain ⟨hk, hkeys⟩ := List.nodup_cons.1 hkeys
    have hothers : ∀ x ∈ l.filter (f · ≠ k), f x ∈ keys := fun x hx => by
      obtain ⟨hx, hne⟩ := List.mem_filter.1 hx
      exact (List.mem_cons.1 (h x hx)).resolve_left (by simpa using hne)
    have hsame : ∀ n, ∀ k' ∈ keys, n + l.countP (f · = k') =
        n + (l.filter (f · ≠ k)).countP (f · = k') := by
      intro n k' hk'
      rw [List.countP_filter]
      refine congrArg _ (List.countP_congr fun x _ => ?_)
      have hne : k' ≠ k := fun heq => hk (heq ▸ hk')
      simp +contextual [hne]
    rw [List.foldl_cons, List.foldl_ext _ _ _ hsame, ih hkeys hothers,
      ← List.countP_eq_length_filter, List.length_eq_countP_add_countP (f · = k)]
    simp [Nat.add_assoc]

open Outbox (Call)

/-- A message that was put into a queue, and the calls that came after it. -/
structure Posting where
  id : UInt64
  peer : Peer
  message : Message
  later : List Call
  deriving DecidableEq

namespace Posting

def address (p : Posting) : Address := p.peer.address

def queued (p : Posting) : Queued := ⟨p.id, p.message⟩

/-- Nobody has taken the message out. -/
def Stays (p : Posting) : Prop := .remove p.address p.id ∉ p.later

instance (p : Posting) : Decidable p.Stays := inferInstanceAs (Decidable (_ ∉ _))

def followedBy (c : Call) (p : Posting) : Posting := { p with later := p.later ++ [c] }

/-- The postings that calls make, where `n` ids were given out before. -/
def ofCalls (n : Nat) : List Call → List Posting
  | [] => []
  | .enqueue p m :: later => ⟨.ofNat n, p, m, later⟩ :: ofCalls (n + 1) later
  | .remove _ _ :: later => ofCalls n later

/-- The postings to an address that stay. -/
def waitingAt (ps : List Posting) (a : Address) : List Posting :=
  ps.filter fun p => p.address = a ∧ p.Stays

variable {p : Posting} {ps : List Posting} {a b : Address} {id : UInt64} {cs : List Call} {c : Call}
  {n : Nat} {q : Peer} {m : Message}

/-! ## One more call -/

theorem ofCalls_enqueue (n : Nat) (cs : List Call) (q : Peer) (m : Message) :
    ofCalls n (cs ++ [.enqueue q m]) = (ofCalls n cs).map (followedBy (.enqueue q m)) ++
      [⟨.ofNat (n + (ofCalls n cs).length), q, m, []⟩] := by
  induction cs generalizing n with
  | nil => rfl
  | cons c cs ih =>
    cases c with
    | enqueue r m' =>
      simp only [List.cons_append, ofCalls, ih, List.map_cons, List.length_cons]
      rw [Nat.add_right_comm n 1, Nat.add_assoc]
      rfl
    | remove b id => exact ih n

theorem ofCalls_remove (n : Nat) (cs : List Call) (a : Address) (id : UInt64) :
    ofCalls n (cs ++ [.remove a id]) = (ofCalls n cs).map (followedBy (.remove a id)) := by
  induction cs generalizing n with
  | nil => rfl
  | cons c cs ih =>
    cases c with
    | enqueue r m' =>
      simp only [List.cons_append, ofCalls, ih, List.map_cons]
      rfl
    | remove b id' => exact ih n

theorem stays_followedBy : (p.followedBy c).Stays ↔ p.Stays ∧ c ≠ .remove p.address p.id := by
  simp only [Stays, followedBy, List.mem_append, List.mem_singleton, not_or, address, ne_comm, ne_eq]

/-- Where a message is put into a queue, the others stay. -/
theorem waitingAt_enqueue : (waitingAt (ps.map (followedBy (.enqueue q m))) a).map queued =
    (waitingAt ps a).map queued := by
  rw [waitingAt, List.filter_map, List.map_map]
  refine congrArg (List.map queued) (List.filter_congr fun p _ => Bool.eq_iff_iff.2 ?_)
  rw [Function.comp_apply, decide_eq_true_iff, decide_eq_true_iff, stays_followedBy]
  exact and_congr_right fun _ => and_iff_left nofun

/-- What is taken out at an address is what has the id there. -/
theorem waitingAt_remove : (waitingAt (ps.map (followedBy (.remove b id))) a).map queued =
    ((waitingAt ps a).map queued).filter fun r => ¬ (a = b ∧ r.id = id) := by
  rw [waitingAt, List.filter_map, List.map_map, waitingAt, List.filter_map, List.filter_filter]
  refine congrArg (List.map queued) (List.filter_congr fun p _ => Bool.eq_iff_iff.2 ?_)
  rw [Function.comp_apply, decide_eq_true_iff, Bool.and_eq_true, Function.comp_apply,
    decide_eq_true_iff, decide_eq_true_iff, stays_followedBy, ne_eq, Call.remove.injEq]
  constructor
  · rintro ⟨rfl, hstays, hother⟩
    exact ⟨fun h => hother ⟨h.1.symm, h.2.symm⟩, rfl, hstays⟩
  · rintro ⟨hother, rfl, hstays⟩
    exact ⟨rfl, hstays, fun h => hother ⟨h.1.symm, h.2.symm⟩⟩

theorem find?_map_followedBy : (ps.map (followedBy c)).find? (·.address = a) =
    (ps.find? (·.address = a)).map (followedBy c) := by
  rw [List.find?_map]
  rfl

/-! ## Ids -/

theorem ids_ofCalls (n : Nat) (cs : List Call) : (ofCalls n cs).map (·.id) =
    (List.range' n (ofCalls n cs).length).map UInt64.ofNat := by
  induction cs generalizing n with
  | nil => rfl
  | cons c cs ih =>
    cases c with
    | enqueue q m => simp only [ofCalls, List.map_cons, List.length_cons, List.range'_succ, ih]
    | remove a id => exact ih n

/-- As long as there are ids, later postings have larger ones. -/
theorem ids_ascending (h : n + (ofCalls n cs).length ≤ UInt64.size) :
    ((ofCalls n cs).map (·.id)).Pairwise (· < ·) := by
  rw [ids_ofCalls, List.pairwise_map]
  refine (List.pairwise_lt_range' ..).imp_of_mem fun {i j} hi hj hlt => ?_
  have hbound {k} (hk : k ∈ List.range' n (ofCalls n cs).length) : k < UInt64.size := by
    have := List.mem_range'_1.1 hk
    omega
  rw [UInt64.lt_iff_toNat_lt, UInt64.toNat_ofNat_of_lt' (hbound hi),
    UInt64.toNat_ofNat_of_lt' (hbound hj)]
  exact hlt

end Posting

namespace Outbox

variable {o : Outbox} {ps : List Posting} {a b : Address} {id : UInt64} {cs : List Call} {p : Peer}
  {m : Message}

/-! ## The queues and what was posted -/

/-- The queues are those that the postings have opened, each with the first identity that it was
opened for and with the postings that stay. -/
structure Records (o : Outbox) (ps : List Posting) : Prop where
  nextId : o.nextId = .ofNat ps.length
  queues : ∀ a, o.queues.get? a = (ps.find? (·.address = a)).map fun first =>
    ⟨first.peer, (Posting.waitingAt ps a).map Posting.queued⟩

namespace Records

theorem start : empty.Records (Posting.ofCalls 0 []) := ⟨rfl, fun _ => rfl⟩

theorem pendingFor (h : o.Records ps) (a : Address) :
    o.pendingFor a = (Posting.waitingAt ps a).map Posting.queued := by
  rw [Outbox.pendingFor, h.queues a]
  cases hfirst : ps.find? (·.address = a) with
  | some first => rfl
  | none =>
    have hnone : Posting.waitingAt ps a = [] := List.filter_eq_nil_iff.2 fun p hp => by
      simpa using fun heq => absurd heq (by simpa using List.find?_eq_none.1 hfirst p hp)
    rw [hnone]
    rfl

theorem enqueue (h : o.Records (Posting.ofCalls 0 cs)) (p : Peer) (m : Message) :
    (o.enqueue p m).Records (Posting.ofCalls 0 (cs ++ [.enqueue p m])) where
  nextId := by
    rw [Outbox.enqueue, h.nextId, Posting.ofCalls_enqueue, List.length_append, List.length_map]
    exact (UInt64.ofNat_add ..).symm
  queues a := by
    rw [Posting.ofCalls_enqueue, List.find?_append, Posting.find?_map_followedBy, Nat.zero_add,
      ← h.nextId, Posting.waitingAt, List.filter_append, List.map_append, ← Posting.waitingAt,
      Posting.waitingAt_enqueue, ← h.pendingFor, Outbox.enqueue]
    rcases eq_or_ne a p.address with rfl | ha
    · rw [SortedMap.get?_upsert_self, Outbox.pendingFor, h.queues]
      cases (Posting.ofCalls 0 cs).find? (·.address = p.address) <;>
        simp [Posting.address, Posting.Stays, Posting.queued, Posting.followedBy]
    · rw [SortedMap.get?_upsert_of_ne _ ha, h.queues a, h.pendingFor]
      cases (Posting.ofCalls 0 cs).find? (·.address = a) <;>
        simp [Posting.address, Posting.followedBy, ha.symm]

theorem remove (h : o.Records (Posting.ofCalls 0 cs)) (b : Address) (id : UInt64) :
    (o.remove b id).Records (Posting.ofCalls 0 (cs ++ [.remove b id])) where
  nextId := by
    rw [Posting.ofCalls_remove, List.length_map, ← h.nextId, Outbox.remove]
    split <;> rfl
  queues a := by
    rw [Posting.ofCalls_remove, Posting.find?_map_followedBy, Posting.waitingAt_remove,
      ← h.pendingFor]
    rcases eq_or_ne a b with rfl | ha
    · have hqueue := h.queues a
      rw [Outbox.remove, Outbox.pendingFor]
      cases hfirst : (Posting.ofCalls 0 cs).find? (·.address = a) with
      | none => simp [hfirst, hqueue]
      | some first => simp [hfirst, hqueue, Posting.followedBy]
    · rw [List.filter_eq_self.2 fun r _ => by simp [ha], h.pendingFor, Outbox.remove]
      split
      next => rw [h.queues a]; simp [Posting.followedBy, Function.comp_def]
      next => rw [SortedMap.get?_insert_of_ne _ ha, h.queues a]; simp [Posting.followedBy, Function.comp_def]

/-- Whatever was called, the queues are those of its postings. -/
theorem callAll (cs : List Call) : (empty.callAll cs).Records (Posting.ofCalls 0 cs) := by
  induction cs using List.reverseRecOn with
  | nil => exact start
  | append_singleton cs c ih =>
    rw [Outbox.callAll, List.foldl_append]
    cases c with
    | enqueue p m => exact ih.enqueue p m
    | remove a id => exact ih.remove a id

end Records

/-! ## What the queues tell -/

/-- The queues tell exactly what was posted and stays. -/
structure Tells (o : Outbox) (ps : List Posting) : Prop where
  pendingFor : ∀ a, o.pendingFor a = (Posting.waitingAt ps a).map Posting.queued
  /-- What waits for an address does so in the order of the ids, and each once. -/
  ascending : ∀ a, (o.pendingFor a).Pairwise (·.id < ·.id)
  /-- The ids alone give this order back, in whatever order the messages are kept. -/
  sorted : ∀ a, ∀ l : List Queued, l.Perm (o.pendingFor a) →
    l.mergeSort Queued.notAfter = o.pendingFor a
  /-- A message is found only by its own id and under its own address. -/
  found : ∀ a id, o.answer (.remove a id) = .removed true ↔
    ∃ p ∈ ps, p.address = a ∧ p.id = id ∧ p.Stays
  /-- What is found is taken out, and nothing else. -/
  takes : ∀ a id, o.answer (.remove a id) = .removed true →
    ∃ before m after, o.pendingFor a = before ++ ⟨id, m⟩ :: after ∧
      (o.remove a id).pendingFor a = before ++ after ∧
      ∀ b, b ≠ a → (o.remove a id).pendingFor b = o.pendingFor b
  misses : ∀ a id, o.answer (.remove a id) = .removed false → o.remove a id = o
  sizeFor : ∀ a, o.sizeFor a = (Posting.waitingAt ps a).length
  size : o.size = ps.countP (·.Stays)
  /-- A peer is listed if something waits for its address. -/
  listed : ∀ a, a ∈ o.peersWithPending.map (·.address) ↔ Posting.waitingAt ps a ≠ []
  once : (o.peersWithPending.map (·.address)).Nodup
  /-- It goes by the identity of the first posting to its address. -/
  opened : ∀ p ∈ o.peersWithPending, (ps.find? (·.address = p.address)).map (·.peer) = some p
  backlog : o.backlog = o.peersWithPending.map fun p =>
    (p, (Posting.waitingAt ps p.address).length)

namespace Records

theorem found (h : o.Records ps) : o.answer (.remove a id) = .removed true ↔
    ∃ p ∈ ps, p.address = a ∧ p.id = id ∧ p.Stays := by
  simp only [answer, Answer.removed.injEq, holds, h.pendingFor, List.any_eq_true,
    decide_eq_true_eq, List.mem_map, Posting.waitingAt, List.mem_filter]
  constructor
  · rintro ⟨q, ⟨p, ⟨hp, ha, hstays⟩, rfl⟩, hid⟩
    exact ⟨p, hp, ha, hid, hstays⟩
  · rintro ⟨p, hp, ha, hid, hstays⟩
    exact ⟨p.queued, ⟨p, ⟨hp, ha, hstays⟩, rfl⟩, hid⟩

theorem ascending (h : o.Records ps) (hids : (ps.map (·.id)).Pairwise (· < ·)) (a : Address) :
    (o.pendingFor a).Pairwise (·.id < ·.id) := by
  rw [h.pendingFor, List.pairwise_map]
  exact (List.pairwise_map.1 hids).sublist List.filter_sublist

theorem queue_eq {q : Queue} (h : o.Records ps) (hq : o.queues.get? a = some q) :
    (∃ first, ps.find? (·.address = a) = some first ∧ first.peer = q.peer) ∧
      q.peer.address = a ∧ q.messages = (Posting.waitingAt ps a).map Posting.queued := by
  rw [h.queues a] at hq
  obtain ⟨first, hfirst, rfl⟩ := Option.map_eq_some_iff.1 hq
  have hfound := List.find?_some hfirst
  exact ⟨⟨first, hfirst, rfl⟩, of_decide_eq_true hfound, rfl⟩

/-- Every posting has opened a queue, or come to one. -/
theorem exists_queue {posting : Posting} (h : o.Records ps) (hmem : posting ∈ ps) :
    ∃ q, o.queues.get? posting.address = some q := by
  have hfirst : (ps.find? (·.address = posting.address)).isSome :=
    List.find?_isSome.2 ⟨posting, hmem, decide_eq_true rfl⟩
  obtain ⟨first, hfirst⟩ := Option.isSome_iff_exists.1 hfirst
  exact ⟨_, (h.queues _).trans (congrArg _ hfirst)⟩

theorem addressed (h : o.Records ps) : o.Addressed := fun _ _ hq => (h.queue_eq hq).2.1

/-- A queue in which something waits is that of its peer's address. -/
theorem get?_of_waiting {q : Queue} (h : o.Records ps) (hq : q ∈ o.waiting) :
    o.queues.get? q.peer.address = some q ∧ q.messages ≠ [] := by
  obtain ⟨⟨a, hq⟩, hne⟩ := mem_waiting.1 hq
  exact ⟨by rwa [h.addressed a q hq], hne⟩

theorem listed (h : o.Records ps) :
    a ∈ o.peersWithPending.map (·.address) ↔ Posting.waitingAt ps a ≠ [] := by
  rw [peersWithPending, List.map_map]
  constructor
  · intro ha
    obtain ⟨q, hq, rfl⟩ := List.mem_map.1 ha
    obtain ⟨hget, hne⟩ := h.get?_of_waiting hq
    rw [(h.queue_eq hget).2.2] at hne
    exact fun hnil => hne (congrArg _ hnil)
  · intro hne
    obtain ⟨posting, hposting⟩ := List.exists_mem_of_ne_nil _ hne
    obtain ⟨hmem, hat⟩ := List.mem_filter.1 hposting
    obtain ⟨rfl, -⟩ := of_decide_eq_true hat
    obtain ⟨q, hq⟩ := h.exists_queue hmem
    obtain ⟨-, haddr, hmessages⟩ := h.queue_eq hq
    refine List.mem_map.2 ⟨q, mem_waiting.2 ⟨⟨_, hq⟩, ?_⟩, haddr⟩
    rw [hmessages]
    simpa using hne

theorem opened (h : o.Records ps) (hp : p ∈ o.peersWithPending) :
    (ps.find? (·.address = p.address)).map (·.peer) = some p := by
  obtain ⟨q, hq, rfl⟩ := List.mem_map.1 hp
  obtain ⟨⟨first, hfirst, hpeer⟩, -⟩ := h.queue_eq (h.get?_of_waiting hq).1
  rw [hfirst, Option.map_some, hpeer]

theorem backlog (h : o.Records ps) : o.backlog = o.peersWithPending.map fun p =>
    (p, (Posting.waitingAt ps p.address).length) := by
  rw [Outbox.backlog, peersWithPending, List.map_map]
  refine List.map_congr_left fun q hq => ?_
  rw [(h.queue_eq (h.get?_of_waiting hq).1).2.2, List.length_map]
  rfl

/-- Every posting that stays is in one queue. -/
theorem size (h : o.Records ps) : o.size = ps.countP (·.Stays) := by
  have hqueued : ∀ p ∈ ps.filter (·.Stays), p.address ∈ o.queues.entries.map (·.1) := by
    intro p hp
    obtain ⟨q, hq⟩ := h.exists_queue (List.mem_filter.1 hp).1
    exact List.mem_map_of_mem (f := (·.1)) ((SortedMap.mem_entries_iff o.queues).2 hq)
  have hlength : ∀ e ∈ o.queues.entries,
      e.2.messages.length = (ps.filter (·.Stays)).countP (·.address = e.1) := by
    intro e he
    rw [(h.queue_eq ((SortedMap.mem_entries_iff o.queues).1 he)).2.2, List.length_map,
      List.countP_filter, List.countP_eq_length_filter, Posting.waitingAt]
    simp only [Bool.decide_and]
  calc o.size
      = o.queues.entries.foldl
          (fun n e => n + (ps.filter (·.Stays)).countP (·.address = e.1)) 0 :=
        List.foldl_ext _ _ _ fun n e he => congrArg (n + ·) (hlength e he)
    _ = (o.queues.entries.map (·.1)).foldl
          (fun n a => n + (ps.filter (·.Stays)).countP (·.address = a)) 0 := by
        rw [List.foldl_map]
    _ = ps.countP (·.Stays) := by
        rw [foldl_countP_eq_length o.queues.keys_nodup hqueued, List.countP_eq_length_filter, Nat.zero_add]

end Records

/-- Sorting by ids brings messages with ascending ids into their order from any other one. -/
theorem mergeSort_eq_of_ascending {l ms : List Queued} (h : ms.Pairwise (·.id < ·.id))
    (hperm : l.Perm ms) : l.mergeSort Queued.notAfter = ms := by
  have hsort : (l.mergeSort Queued.notAfter).Pairwise (Queued.notAfter · ·) :=
    List.pairwise_mergeSort Queued.notAfter_trans Queued.notAfter_total l
  have hms : ms.Pairwise (Queued.notAfter · ·) :=
    h.imp fun hlt => decide_eq_true (UInt64.le_of_lt hlt)
  have hids : (ms.map (·.id)).Nodup := List.pairwise_map.2 (h.imp UInt64.ne_of_lt)
  have hmem := (List.mergeSort_perm l Queued.notAfter).trans hperm
  refine hmem.eq_of_pairwise (fun q r hq hr hqr hrq => ?_) hsort hms
  exact List.inj_on_of_nodup_map hids (hmem.mem_iff.1 hq) hr
    (UInt64.le_antisymm (of_decide_eq_true hqr) (of_decide_eq_true hrq))

/-- Where the ids are apart, that of a message takes out that message and no other. -/
theorem takes_of_ascending (hids : (o.pendingFor a).Pairwise (·.id < ·.id))
    (h : o.answer (.remove a id) = .removed true) :
    ∃ before m after, o.pendingFor a = before ++ ⟨id, m⟩ :: after ∧
      (o.remove a id).pendingFor a = before ++ after := by
  rw [answer, Answer.removed.injEq, holds, List.any_eq_true] at h
  obtain ⟨q, hq, hid⟩ := h
  obtain rfl : q.id = id := of_decide_eq_true hid
  obtain ⟨before, after, heq⟩ := List.append_of_mem hq
  rw [heq, List.pairwise_append, List.pairwise_cons] at hids
  obtain ⟨-, ⟨hafter, -⟩, hbefore⟩ := hids
  refine ⟨before, q.message, after, heq, ?_⟩
  have hleft : before.filter (·.id ≠ q.id) = before := List.filter_eq_self.2 fun r hr => by
    simpa using UInt64.ne_of_lt (hbefore r hr q List.mem_cons_self)
  have hright : after.filter (·.id ≠ q.id) = after := List.filter_eq_self.2 fun r hr => by
    simpa using (UInt64.ne_of_lt (hafter r hr)).symm
  rw [pendingFor_remove_self, heq, List.filter_append, List.filter_cons_of_neg (by simp), hleft,
    hright]

/-- An id that does not wait for the address is taken out of nowhere. -/
theorem remove_of_not_found (h : o.answer (.remove a id) = .removed false) :
    o.remove a id = o := by
  rw [answer, Answer.removed.injEq, holds, Outbox.pendingFor] at h
  unfold remove
  split
  next => rfl
  next q hq =>
    rw [hq] at h
    have hall : q.messages.filter (·.id ≠ id) = q.messages :=
      List.filter_eq_self.2 fun r hr => by simpa using List.any_eq_false.1 h r hr
    have hqueues : o.queues.insert a q = o.queues := SortedMap.ext_get? fun b => by
      rcases eq_or_ne b a with rfl | hb
      · rw [SortedMap.get?_insert_self, hq]
      · rw [SortedMap.get?_insert_of_ne _ hb]
    rw [hall, hqueues]

/-- The answers of calls give the ids of their postings. -/
theorem ids_answered {n : Nat} (h : o.nextId = .ofNat n) (cs : List Call) :
    (o.answers cs).filterMap Answer.id? = (Posting.ofCalls n cs).map (·.id) := by
  induction cs generalizing o n with
  | nil => rfl
  | cons c cs ih =>
    cases c with
    | enqueue p m =>
      have hnext : (o.enqueue p m).nextId = .ofNat (n + 1) := by
        rw [enqueue, h]
        exact (UInt64.ofNat_add ..).symm
      rw [Posting.ofCalls, List.map_cons, ← ih hnext, ← h]
      rfl
    | remove a id =>
      have hnext : (o.remove a id).nextId = .ofNat n := by
        rw [remove, ← h]
        split <;> rfl
      exact ih hnext

/-- Whatever messages were put into the queues and taken out of them, under whatever identities,
addresses and ids, the ids given out grow from call to call, and the queues tell exactly what was put
into them and stays, as long as fewer messages were put into them than there are ids. -/
theorem queues_hold_postings (cs : List Call) (h : (Posting.ofCalls 0 cs).length < UInt64.size) :
    (empty.answers cs).filterMap Answer.id? = (Posting.ofCalls 0 cs).map (·.id) ∧
    ((empty.answers cs).filterMap Answer.id?).Pairwise (· < ·) ∧
    (empty.callAll cs).Tells (Posting.ofCalls 0 cs) := by
  have hids := ids_answered (o := empty) (n := 0) rfl cs
  have hascending : ((Posting.ofCalls 0 cs).map (·.id)).Pairwise (· < ·) :=
    Posting.ids_ascending (by omega)
  have hrecords : (empty.callAll cs).Records (Posting.ofCalls 0 cs) := .callAll cs
  refine ⟨hids, hids ▸ hascending, ?_⟩
  exact
    { pendingFor := hrecords.pendingFor
      ascending := hrecords.ascending hascending
      sorted := fun a l hl => mergeSort_eq_of_ascending (hrecords.ascending hascending a) hl
      found := fun a id => hrecords.found
      takes := fun a id hfound => by
        obtain ⟨before, m, after, heq, hremoved⟩ :=
          takes_of_ascending (hrecords.ascending hascending a) hfound
        exact ⟨before, m, after, heq, hremoved, fun b hb => pendingFor_remove_of_ne hb⟩
      misses := fun a id => remove_of_not_found
      sizeFor := fun a => by rw [Outbox.sizeFor, hrecords.pendingFor, List.length_map]
      size := hrecords.size
      listed := fun a => hrecords.listed
      once := hrecords.addressed.peersWithPending_nodup
      opened := fun p => hrecords.opened
      backlog := hrecords.backlog }

/-! Two identities share an address. The first message is looked for elsewhere and not found, and
then taken out; the second one is taken out once only. -/

def sharedQueue : List Call :=
  let b : Peer := ⟨"b", "host", 7100, 7101, 7102⟩
  let b' : Peer := ⟨"c", "host", 7100, 7201, 7202⟩
  let d : Peer := ⟨"d", "host", 7300, 7301, 7302⟩
  [.enqueue b .stateRequest, .enqueue b' (.newPeerAnnounce b), .enqueue d .stateRequest,
    .remove d.address 0, .remove b.address 1, .remove b.address 1, .remove d.address 2,
    .enqueue b' .stateRequest]

theorem sharedQueue_tells : (Posting.ofCalls 0 sharedQueue).length < UInt64.size ∧
    empty.answers sharedQueue = [.queued 0, .queued 1, .queued 2, .removed false, .removed true,
      .removed false, .removed true, .queued 3] ∧
    ((empty.answers sharedQueue).filterMap Answer.id?).Pairwise (· < ·) ∧
    (empty.callAll sharedQueue).backlog = [(⟨"b", "host", 7100, 7101, 7102⟩, 2)] ∧
    (empty.callAll sharedQueue).Tells (Posting.ofCalls 0 sharedQueue) := by
  have h : (Posting.ofCalls 0 sharedQueue).length < UInt64.size := by decide
  obtain ⟨-, hascending, htells⟩ := queues_hold_postings sharedQueue h
  exact ⟨h, by decide +kernel, hascending, by decide +kernel, htells⟩

end Outbox
end CausalStore
