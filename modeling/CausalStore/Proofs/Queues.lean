import CausalStore.Outbox
import CausalStore.Proofs.MapLookup

/-!
# Outbound queues and their ids

What waits for an address after a message was queued or taken out, and what keeps the removal of one
message from hitting another: as long as fewer ids were given out than there are, none is in use
twice (`Outbox.Tracked`), and an id that a retry has copied still means the same message
(`Outbox.Known`).
-/

namespace CausalStore
namespace Outbox

variable {o : Outbox} {p : Peer} {m : Message} {a b : Address} {q : Queued} {id : UInt64} {n : Nat}

theorem mem_waiting {r : Queue} :
    r ∈ o.waiting ↔ (∃ a, o.queues.get? a = some r) ∧ r.messages ≠ [] := by
  simp [waiting, SortedMap.mem_entries_iff]

theorem pendingFor_of_waiting (h : o.waiting = []) (a : Address) : o.pendingFor a = [] := by
  unfold pendingFor
  split
  next q hq =>
    refine Decidable.byContradiction fun hne => ?_
    exact List.not_mem_nil (h ▸ mem_waiting.2 ⟨⟨a, hq⟩, hne⟩)
  next => rfl

theorem pendingFor_enqueue_self :
    (o.enqueue p m).pendingFor p.address = o.pendingFor p.address ++ [⟨o.nextId, m⟩] := by
  simp only [pendingFor, enqueue, SortedMap.get?_upsert_self]
  cases o.queues.get? p.address <;> rfl

theorem pendingFor_enqueue_of_ne (h : a ≠ p.address) :
    (o.enqueue p m).pendingFor a = o.pendingFor a := by
  simp only [pendingFor, enqueue, SortedMap.get?_upsert_of_ne _ h]

theorem pendingFor_remove_self :
    (o.remove a id).pendingFor a = (o.pendingFor a).filter (·.id ≠ id) := by
  unfold remove
  cases h : o.queues.get? a <;> simp [pendingFor, h]

theorem pendingFor_remove_of_ne (h : b ≠ a) : (o.remove a id).pendingFor b = o.pendingFor b := by
  unfold remove
  split
  · rfl
  · simp only [pendingFor, SortedMap.get?_insert_of_ne _ h]

theorem mem_enqueue : q ∈ (o.enqueue p m).pendingFor a ↔
    q ∈ o.pendingFor a ∨ a = p.address ∧ q = ⟨o.nextId, m⟩ := by
  by_cases h : a = p.address
  · subst h; rw [pendingFor_enqueue_self]; simp
  · rw [pendingFor_enqueue_of_ne h]; simp [h]

theorem mem_remove : q ∈ (o.remove a id).pendingFor b ↔
    q ∈ o.pendingFor b ∧ (b = a → q.id ≠ id) := by
  by_cases h : b = a
  · subst h; rw [pendingFor_remove_self]; simp
  · rw [pendingFor_remove_of_ne h]; simp [h]

/-- The queues after a message was put into one of them. -/
theorem queue_of_enqueue {r : Queue} (h : (o.enqueue p m).queues.get? a = some r) :
    o.queues.get? a = some r ∨ a = p.address ∧ (r = ⟨p, [⟨o.nextId, m⟩]⟩ ∨
      ∃ r', o.queues.get? a = some r' ∧ r = ⟨r'.peer, r'.messages ++ [⟨o.nextId, m⟩]⟩) := by
  by_cases ha : a = p.address
  · subst ha
    simp only [enqueue, SortedMap.get?_upsert_self, Option.some.injEq] at h
    cases ho : o.queues.get? p.address with
    | none => rw [ho] at h; exact .inr ⟨rfl, .inl h.symm⟩
    | some r' => rw [ho] at h; exact .inr ⟨rfl, .inr ⟨r', rfl, h.symm⟩⟩
  · rw [enqueue, SortedMap.get?_upsert_of_ne _ ha] at h
    exact .inl h

/-- Nothing enters a queue when a message is taken out. -/
theorem queue_of_remove {r : Queue} (h : (o.remove b id).queues.get? a = some r) :
    ∃ r', o.queues.get? a = some r' ∧ r.peer = r'.peer ∧ ∀ q ∈ r.messages, q ∈ r'.messages := by
  unfold remove at h
  split at h
  next => exact ⟨r, h, rfl, fun _ hq => hq⟩
  next r' hr' =>
    by_cases hab : a = b
    · subst hab
      rw [SortedMap.get?_insert_self, Option.some.injEq] at h
      subst h
      exact ⟨r', hr', rfl, fun _ hq => (List.mem_filter.1 hq).1⟩
    · rw [SortedMap.get?_insert_of_ne _ hab] at h
      exact ⟨r, h, rfl, fun _ hq => hq⟩

/-- Each queue was opened for the address that it is found under. -/
def Addressed (o : Outbox) : Prop := ∀ a q, o.queues.get? a = some q → q.peer.address = a

namespace Addressed

theorem empty : Outbox.empty.Addressed := fun _ _ h => nomatch h

theorem enqueue (h : o.Addressed) (p : Peer) (m : Message) : (o.enqueue p m).Addressed := by
  intro a q hq
  by_cases ha : a = p.address
  · subst ha
    simp only [Outbox.enqueue, SortedMap.get?_upsert_self, Option.some.injEq] at hq
    cases ho : o.queues.get? p.address with
    | none => rw [← hq, ho]; rfl
    | some q' => rw [← hq, ho]; exact h _ q' ho
  · refine h a q ?_
    rwa [Outbox.enqueue, SortedMap.get?_upsert_of_ne _ ha] at hq

theorem remove (h : o.Addressed) (a : Address) (id : UInt64) : (o.remove a id).Addressed := by
  unfold Outbox.remove
  split
  · exact h
  next q hq =>
    intro b q' hq'
    by_cases hb : b = a
    · subst hb
      rw [SortedMap.get?_insert_self, Option.some.injEq] at hq'
      exact hq' ▸ h b q hq
    · rw [SortedMap.get?_insert_of_ne _ hb] at hq'
      exact h b q' hq'

end Addressed

/-- The id of `q` is among the first `n`, and in the queue of `a` it can only mean `q`. -/
structure Known (o : Outbox) (n : Nat) (a : Address) (q : Queued) : Prop where
  id_lt : q.id.toNat < n
  eq_of_id : ∀ q' ∈ o.pendingFor a, q'.id = q.id → q' = q

/-- Of the ids only the first `n` were given out, and each to one message. -/
structure Tracked (o : Outbox) (n : Nat) : Prop where
  nextId : o.nextId.toNat = n
  known : ∀ a, ∀ q ∈ o.pendingFor a, o.Known n a q

theorem Known.enqueue (h : o.Known n a q) (ho : o.nextId.toNat = n) :
    (o.enqueue p m).Known (n + 1) a q where
  id_lt := Nat.lt_succ_of_lt h.id_lt
  eq_of_id q' hq' hid := by
    rcases mem_enqueue.1 hq' with hq' | ⟨-, rfl⟩
    · exact h.eq_of_id q' hq' hid
    · have := h.id_lt
      rw [← hid, ho] at this
      exact absurd this (Nat.lt_irrefl n)

theorem Known.remove (h : o.Known n a q) : (o.remove b id).Known n a q :=
  ⟨h.id_lt, fun q' hq' => h.eq_of_id q' (mem_remove.1 hq').1⟩

theorem Tracked.empty : Outbox.empty.Tracked 0 := ⟨rfl, fun _ _ h => nomatch h⟩

theorem Tracked.enqueue (h : o.Tracked n) (hn : n + 1 < UInt64.size) :
    (o.enqueue p m).Tracked (n + 1) where
  nextId := by
    rw [Outbox.enqueue, UInt64.toNat_add, h.nextId]
    exact Nat.mod_eq_of_lt hn
  known a q hq := by
    rcases mem_enqueue.1 hq with hq | ⟨rfl, rfl⟩
    · exact (h.known a q hq).enqueue h.nextId
    · refine ⟨h.nextId ▸ Nat.lt_succ_self _, fun q' hq' hid => ?_⟩
      rcases mem_enqueue.1 hq' with hq' | ⟨-, rfl⟩
      · have := (h.known _ q' hq').id_lt
        rw [hid, h.nextId] at this
        exact absurd this (Nat.lt_irrefl n)
      · rfl

theorem Tracked.remove (h : o.Tracked n) : (o.remove b id).Tracked n where
  nextId := by
    unfold Outbox.remove
    split <;> exact h.nextId
  known a q hq := (h.known a q (mem_remove.1 hq).1).remove

/-- The next id is in no queue. -/
theorem Tracked.nextId_not_mem (h : o.Tracked n) : ⟨o.nextId, m⟩ ∉ o.pendingFor a := by
  intro hmem
  have hlt := (h.known a _ hmem).id_lt
  rw [h.nextId] at hlt
  exact absurd hlt (Nat.lt_irrefl n)

/-! ## What waits only once -/

/-- Nothing is in a queue twice. -/
def Distinct (o : Outbox) : Prop := ∀ a, (o.pendingFor a).Nodup

theorem Distinct.empty : Outbox.empty.Distinct := fun _ => .nil

theorem Distinct.enqueue (h : o.Distinct) (ho : o.Tracked n) : (o.enqueue p m).Distinct := by
  intro a
  by_cases ha : a = p.address
  · subst ha
    rw [pendingFor_enqueue_self]
    refine List.nodup_append.2 ⟨h _, List.pairwise_singleton .., fun q hq q' hq' heq => ?_⟩
    rw [List.mem_singleton.1 hq'] at heq
    exact ho.nextId_not_mem (heq ▸ hq)
  · rw [pendingFor_enqueue_of_ne ha]
    exact h a

theorem Distinct.remove (h : o.Distinct) : (o.remove b id).Distinct := by
  intro a
  by_cases ha : a = b
  · subst ha
    rw [pendingFor_remove_self]
    exact (h a).filter _
  · rw [pendingFor_remove_of_ne ha]
    exact h a

/-- No address has two queues in which something waits. -/
theorem Addressed.peersWithPending_nodup (h : o.Addressed) :
    (o.peersWithPending.map (·.address)).Nodup := by
  have hkey {e} (he : e ∈ o.queues.entries) : e.2.peer.address = e.1 :=
    h _ _ ((SortedMap.mem_entries_iff o.queues).1 he)
  have hall : ((o.queues.entries.map (·.2)).map (·.peer.address)).Nodup := by
    have hkeys : o.queues.entries.map ((·.peer.address) ∘ (·.2)) = o.queues.entries.map (·.1) :=
      List.map_congr_left fun e he => hkey he
    rw [List.map_map, hkeys]
    exact o.queues.keys_nodup
  rw [peersWithPending, List.map_map]
  exact hall.sublist (List.filter_sublist.map _)

end Outbox
end CausalStore
