import CausalStore.Proofs.Growth

/-!
# No update is lost on its way

An update that was sent to a node has arrived there, or its first attempt is under way, or it waits
in somebody's queue (`Accounted.delivered`). A queued message is taken out only once it has arrived:
its id still means that message, as long as a node has queued fewer messages than there are ids.
-/

namespace CausalStore

/-- To whom a message is sent that waits in a queue if it is not delivered. -/
def Errand.recipient? : Errand → Option Peer
  | .send s => some s.peer
  | .retry p _ _ => some p
  | _ => none

theorem Errand.endpoint_of_recipient? {x : Errand} {p : Peer} (h : x.recipient? = some p) :
    x.endpoint = p.endpoint x.message.channel := by
  cases x <;> cases h <;> rfl

namespace Cluster

variable {ι : Type} [DecidableEq ι] {c c' : Cluster ι} {i j : ι} {n : Node} {l : Log ι}
  {writes : ι → Prop} {installs : Cluster ι → ι → Capture → Prop} {a : Address} {u : Update}
  {m : Message}

/-- Some node has yet to end its first attempt to send the message to the address, or it holds the
message for another one. -/
def Underway (c : Cluster ι) (a : Address) (m : Message) : Prop :=
  (∃ x ∈ c.exchanges, ∃ s, x.errand = .send s ∧ s.peer.address = a ∧ s.message = m) ∨
    ∃ i, ∃ q ∈ (c.node i).outbox.pendingFor a, q.message = m

omit [DecidableEq ι] in
theorem Quiet.not_underway (h : c.Quiet) : ¬ c.Underway a m := by
  rintro (⟨x, hx, -⟩ | ⟨i, q, hq, -⟩)
  · rw [h.exchanges] at hx
    cases hx
  · rw [Outbox.pendingFor_of_waiting (h.outbox i)] at hq
    cases hq

/-- An exchange that brought the message to the address has its reply. -/
def Replied (c : Cluster ι) (a : Address) (m : Message) : Prop :=
  ∃ x ∈ c.exchanges, x.reply ≠ none ∧ x.errand.message = m ∧
    ∃ p, x.errand.recipient? = some p ∧ p.address = a

/-- What the senders know of what they sent. -/
structure Accounted (c : Cluster ι) : Prop where
  outbox : ∀ i, c.queued i < UInt64.size → (c.node i).outbox.Tracked (c.queued i)
  batches : ∀ x ∈ c.exchanges, c.queued x.source < UInt64.size → ∀ p q rest,
    x.errand = .retry p q rest → ∀ q' ∈ q :: rest,
      (c.node x.source).outbox.Known (c.queued x.source) p.address q'
  answered : ∀ x ∈ c.exchanges, x.reply ≠ none → ∀ u, x.errand.message = .update u →
    ∃ j, c.Serves j x.errand.endpoint ∧ (c.node j).engine.Has u
  delivered : (∀ i, c.queued i < UInt64.size) → ∀ j u, c.Sent (c.node j).identity.address u →
    (c.node j).engine.Has u ∨ c.Underway (c.node j).identity.address (.update u)

/-- What a move makes of the queues of a node. -/
theorem Move.outbox (h : Move writes installs c c') (j : ι) :
    ((c'.node j).outbox = (c.node j).outbox ∧ c'.queued j = c.queued j) ∨
    (∃ x ∈ c.exchanges, ∃ s, x.source = j ∧ x.errand = .send s ∧
      (c'.node j).outbox = (c.node j).outbox.enqueue s.peer s.message ∧
      c'.queued j = c.queued j + 1) ∨
    ∃ x ∈ c.exchanges, ∃ p q rest, x.source = j ∧ x.errand = .retry p q rest ∧ x.reply ≠ none ∧
      (c'.node j).outbox = (c.node j).outbox.remove p.address q.id ∧ c'.queued j = c.queued j := by
  have hset {i : ι} {n : Node} {l : Log ι} (hn : n.outbox = (c.node i).outbox) :
      ((c.set i n l).node j).outbox = (c.node j).outbox :=
    forall_set_node (P := fun j m => m.outbox = (c.node j).outbox) hn (fun _ _ => rfl) j
  cases h with
  | @write i _ _ e u => exact .inl ⟨hset (l := (c.group.wrote i e u).toLog) rfl, rfl⟩
  | launch | discharge | answer | close | owe => exact .inl ⟨rfl, rfl⟩
  | receive | capture | reconcile | learn => exact .inl ⟨hset rfl, rfl⟩
  | meet => exact .inl ⟨hset (Node.meet_outbox ..), rfl⟩
  | @install x k => exact .inl ⟨hset (l := (c.group.installed x.source k).toLog) rfl, rfl⟩
  | @enqueue x s hx he =>
    dsimp only
    rcases eq_or_ne j x.source with rfl | hj
    · rw [set_node_self, Function.update_self]
      exact .inr (.inl ⟨x, hx, s, rfl, he, rfl, rfl⟩)
    · rw [set_node_of_ne hj, Function.update_of_ne hj]
      exact .inl ⟨rfl, rfl⟩
  | @remove x p q rest hx he hr =>
    rcases eq_or_ne j x.source with rfl | hj
    · rw [set_node_self]
      exact .inr (.inr ⟨x, hx, p, q, rest, rfl, he, hr, rfl, rfl⟩)
    · rw [set_node_of_ne hj]
      exact .inl ⟨rfl, rfl⟩

/-- A first attempt goes on, unless it has its reply, or the message waits for another one. -/
theorem Move.mem_attempts (h : Move writes installs c c') {x : Exchange ι} {s : Send}
    (hx : x ∈ c.exchanges) (he : x.errand = .send s) :
    (∃ y ∈ c'.exchanges, y.errand = .send s) ∨ x.reply ≠ none ∨
      ∃ q ∈ (c'.node x.source).outbox.pendingFor s.peer.address, q.message = s.message := by
  cases h with
  | launch => exact .inl ⟨x, List.mem_append_left _ hx, he⟩
  | @answer y =>
    rcases eq_or_ne x y with rfl | hne
    · exact .inl ⟨_, List.mem_cons_self, he⟩
    · exact .inl ⟨x, List.mem_cons_of_mem _ ((List.mem_erase_of_ne hne).2 hx), he⟩
  | @close y hclose =>
    rcases eq_or_ne x y with rfl | hne
    · rcases eq_or_ne x.reply none with hr | hr
      · exact .inr (.inr (hclose s he hr))
      · exact .inr (.inl hr)
    · exact .inl ⟨x, (List.mem_erase_of_ne hne).2 hx, he⟩
  | _ => exact .inl ⟨x, hx, he⟩

/-- A message is sent in an exchange that the sender was ready to start. -/
theorem Move.mem_sent (h : Move writes installs c c') {s : Endpoint × Message}
    (hs : s ∈ c'.sent) : s ∈ c.sent ∨
      ∃ i x, c.Ready i x ∧ ⟨i, x, none⟩ ∈ c'.exchanges ∧ s = (x.endpoint, x.message) := by
  cases h with
  | @launch i xs hxs =>
    rcases List.mem_append.1 hs with hs | hs
    · obtain ⟨x, hx, rfl⟩ := List.mem_map.1 hs
      refine .inr ⟨i, x, hxs x hx, ?_, rfl⟩
      exact List.mem_append_right _ (List.mem_map.2 ⟨x, hx, rfl⟩)
    · exact .inl hs
  | _ => exact .inl hs

/-- An exchange after a move was there before, or its source was ready to start it, or it is one
that was now answered. -/
theorem Move.mem_exchanges (h : Move writes installs c c') {x : Exchange ι}
    (hx : x ∈ c'.exchanges) : x ∈ c.exchanges ∨ c.Ready x.source x.errand ∧ x.reply = none ∨
    ∃ y ∈ c.exchanges, ∃ r, x = { y with reply := some r } ∧
      (∀ u, y.errand.message = .update u →
        ∃ j, c.Serves j y.errand.endpoint ∧ (c.node j).engine.Has u) ∧
      ∀ p, y.errand.message.newcomer? = some p → ∃ j, c.Serves j y.errand.endpoint ∧
        (c.node j).Knows p ∧ ∀ ps, r.message = some (.joinResponse ps) →
          ps = (c.node j).membership.joinResponseFor p := by
  cases h with
  | @launch i xs hxs =>
    rcases List.mem_append.1 hx with hx | hx
    · exact .inl hx
    · obtain ⟨e, he, rfl⟩ := List.mem_map.1 hx
      exact .inr (.inl ⟨hxs e he, rfl⟩)
  | @answer y r hy hhas _ hknows =>
    rcases List.mem_cons.1 hx with rfl | hx
    · exact .inr (.inr ⟨y, hy, r, rfl, hhas, hknows⟩)
    · exact .inl (List.mem_of_mem_erase hx)
  | close => exact .inl (List.mem_of_mem_erase hx)
  | _ => exact .inl hx

/-- A duty stays, unless all that it asks for was sent. -/
theorem Move.mem_duties (h : Move writes installs c c') {d : Duty} (hd : (i, d) ∈ c.duties) :
    (i, d) ∈ c'.duties ∨ ∀ x ∈ d.errands (c.node i), (x.endpoint, x.message) ∈ c.sent := by
  cases h with
  | write | owe => exact .inl (List.mem_cons_of_mem _ hd)
  | @discharge i' d' hsent =>
    by_cases heq : (i, d) = (i', d')
    · cases heq
      exact .inr hsent
    · exact .inl ((List.mem_erase_of_ne heq).2 hd)
  | _ => exact .inl hd

namespace Accounted

theorem move_outbox (A : c.Accounted) (h : Move writes installs c c') (i : ι)
    (hi : c'.queued i < UInt64.size) : (c'.node i).outbox.Tracked (c'.queued i) := by
  have hA := A.outbox i (Nat.lt_of_le_of_lt (h.grows.queued i) hi)
  obtain ⟨hout, hqueued⟩ | ⟨-, -, s, -, -, hout, hqueued⟩ |
    ⟨-, -, p, q, -, -, -, -, hout, hqueued⟩ := h.outbox i <;> rw [hqueued] at hi ⊢ <;> rw [hout]
  · exact hA
  · exact hA.enqueue hi
  · exact hA.remove

/-- What is known of a batch stays known. -/
theorem move_known (A : c.Accounted) (h : Move writes installs c c')
    (hi : c'.queued i < UInt64.size) {q : Queued} (hq : (c.node i).outbox.Known (c.queued i) a q) :
    (c'.node i).outbox.Known (c'.queued i) a q := by
  have hA := A.outbox i (Nat.lt_of_le_of_lt (h.grows.queued i) hi)
  obtain ⟨hout, hqueued⟩ | ⟨-, -, s, -, -, hout, hqueued⟩ |
    ⟨-, -, p, q, -, -, -, -, hout, hqueued⟩ := h.outbox i <;> rw [hout, hqueued]
  · exact hq
  · exact hq.enqueue hA.nextId
  · exact hq.remove

omit [DecidableEq ι] in
/-- The messages of a batch that a node may start are known. -/
theorem known_of_ready (A : c.Accounted) (W : c.Wired) (hi : c.queued i < UInt64.size) {p : Peer}
    {q : Queued} {rest : List Queued} (hx : c.Ready i (.retry p q rest)) :
    ∀ q' ∈ q :: rest, (c.node i).outbox.Known (c.queued i) p.address q' := by
  obtain ⟨a, hq⟩ | ⟨x, hmem, rfl, q₀, he⟩ := hx.retry_cases
  · obtain rfl : p.address = a := W.addressed i a _ hq
    refine fun q' hq' => (A.outbox i hi).known _ q' ?_
    rw [Outbox.pendingFor, hq]
    exact hq'
  · exact fun q' hq' => A.batches x hmem hi p q₀ _ he q' (List.mem_cons_of_mem _ hq')

theorem move_batches (A : c.Accounted) (W : c.Wired) (h : Move writes installs c c') :
    ∀ x ∈ c'.exchanges, c'.queued x.source < UInt64.size → ∀ p q rest, x.errand = .retry p q rest →
      ∀ q' ∈ q :: rest, (c'.node x.source).outbox.Known (c'.queued x.source) p.address q' := by
  intro x hx hi p q rest he q' hq'
  refine A.move_known h hi ?_
  have hi := Nat.lt_of_le_of_lt (h.grows.queued x.source) hi
  obtain hx | ⟨hready, -⟩ | ⟨y, hy, r, rfl, -⟩ := h.mem_exchanges hx
  · exact A.batches x hx hi p q rest he q' hq'
  · exact A.known_of_ready W hi (he ▸ hready) q' hq'
  · exact A.batches y hy hi p q rest he q' hq'

theorem move_answered (A : c.Accounted) (h : Move writes installs c c') :
    ∀ x ∈ c'.exchanges, x.reply ≠ none → ∀ u, x.errand.message = .update u →
      ∃ j, c'.Serves j x.errand.endpoint ∧ (c'.node j).engine.Has u := by
  intro x hx hr u hu
  suffices hold : ∃ j, c.Serves j x.errand.endpoint ∧ (c.node j).engine.Has u by
    obtain ⟨j, hj, hhas⟩ := hold
    refine ⟨j, ?_, h.grows.has j u hhas⟩
    rwa [Serves, h.grows.identity]
  obtain hx | ⟨-, hnone⟩ | ⟨y, hy, r, rfl, hhas, -⟩ := h.mem_exchanges hx
  · exact A.answered x hx hr u hu
  · exact absurd hnone hr
  · exact hhas u hu

omit [DecidableEq ι] in
/-- A node to which an update was sent has it, if the sender has a reply. -/
theorem has_of_replied (A : c.Accounted)
    (haddr : ∀ i j, (c.node i).identity.address = (c.node j).identity.address → i = j)
    (h : c.Replied (c.node j).identity.address (.update u)) : (c.node j).engine.Has u := by
  obtain ⟨x, hx, hr, hm, p, hp, ha⟩ := h
  obtain ⟨j', hj', hhas⟩ := A.answered x hx hr u hm
  have he := Errand.endpoint_of_recipient? hp
  rw [hm] at he
  have hserves := he.symm.trans (hj'.updates (by rw [he]; rfl))
  rwa [haddr j j' (ha.symm.trans (Address.updates_inj hserves))]

/-- What is under way is lost only once there is a reply to it. -/
theorem move_underway (A : c.Accounted) (h : Move writes installs c c')
    (hqueued : ∀ i, c.queued i < UInt64.size) (hm : c.Underway a m) :
    c'.Underway a m ∨ c.Replied a m := by
  rcases hm with ⟨x, hx, s, he, rfl, rfl⟩ | ⟨i, q, hq, rfl⟩
  · obtain ⟨y, hy, hye⟩ | hr | ⟨q, hq, hqm⟩ := h.mem_attempts hx he
    · exact .inl (.inl ⟨y, hy, s, hye, rfl, rfl⟩)
    · exact .inr ⟨x, hx, hr, by rw [he]; rfl, s.peer, by rw [he]; rfl, rfl⟩
    · exact .inl (.inr ⟨x.source, q, hq, hqm⟩)
  obtain ⟨hout, -⟩ | ⟨-, -, s, -, -, hout, -⟩ | ⟨y, hy, p, q₀, rest, rfl, he, hr, hout, -⟩ :=
    h.outbox i
  · exact .inl (.inr ⟨i, q, hout ▸ hq, rfl⟩)
  · exact .inl (.inr ⟨i, q, hout ▸ Outbox.mem_enqueue.2 (.inl hq), rfl⟩)
  -- a message is taken out with its id, which only the one that was retried has
  by_cases hid : a = p.address ∧ q.id = q₀.id
  · obtain ⟨rfl, hid⟩ := hid
    have hknown := A.batches y hy (hqueued _) p q₀ rest he q₀ List.mem_cons_self
    obtain rfl := hknown.eq_of_id q hq hid
    exact .inr ⟨y, hy, hr, by rw [he]; rfl, p, by rw [he]; rfl, rfl⟩
  · refine .inl (.inr ⟨y.source, q, hout ▸ Outbox.mem_remove.2 ⟨hq, fun ha hq₀ => ?_⟩, rfl⟩)
    exact hid ⟨ha, hq₀⟩

theorem move_delivered (A : c.Accounted) (W : c.Wired) (h : Move writes installs c c')
    (haddr : ∀ i j, (c.node i).identity.address = (c.node j).identity.address → i = j)
    (hqueued : ∀ i, c'.queued i < UInt64.size) (hs : c'.Sent (c'.node j).identity.address u) :
    (c'.node j).engine.Has u ∨ c'.Underway (c'.node j).identity.address (.update u) := by
  have hqueued : ∀ i, c.queued i < UInt64.size := fun i =>
    Nat.lt_of_le_of_lt (h.grows.queued i) (hqueued i)
  rw [h.grows.identity] at hs ⊢
  have hold (hs : c.Sent (c.node j).identity.address u) :
      (c'.node j).engine.Has u ∨ c'.Underway (c.node j).identity.address (.update u) := by
    rcases A.delivered hqueued j u hs with hhas | hway
    · exact .inl (h.grows.has j u hhas)
    · rcases A.move_underway h hqueued hway with hway | hreplied
      · exact .inr hway
      · exact .inl (h.grows.has j u (A.has_of_replied haddr hreplied))
  obtain hs | ⟨i, x, hx, hmem, heq⟩ := h.mem_sent hs
  · exact hold hs
  obtain ⟨he, hm⟩ := Prod.mk.inj heq
  cases x with
  | send s =>
    refine .inr (.inl ⟨_, hmem, s, rfl, ?_, hm.symm⟩)
    change _ = s.message at hm
    rw [Errand.endpoint, Send.endpoint, ← hm] at he
    exact (Address.updates_inj he).symm
  | retry p q rest =>
    change _ = q.message at hm
    have hp := W.ready_retry hx q List.mem_cons_self u hm.symm
    rw [Errand.endpoint, ← hm] at he
    rw [← Address.updates_inj (b := p.address) he] at hp
    exact hold hp
  | join self seed => cases hm
  | transfer source => cases hm

omit [DecidableEq ι] in
theorem start {node : ι → Node} (h : ∀ i, (node i).Unused) : (start node).Accounted where
  outbox i _ := by
    rw [Cluster.start, (h i).outbox]
    exact .empty
  batches _ hx := nomatch hx
  answered _ hx := nomatch hx
  delivered _ _ _ hs := nomatch hs

theorem move (A : c.Accounted) (W : c.Wired)
    (haddr : ∀ i j, (c.node i).identity.address = (c.node j).identity.address → i = j)
    (h : Move writes installs c c') : c'.Accounted :=
  ⟨A.move_outbox h, A.move_batches W h, A.move_answered h, fun hq _ _ =>
    A.move_delivered W h haddr hq⟩

end Accounted

end Cluster
end CausalStore
