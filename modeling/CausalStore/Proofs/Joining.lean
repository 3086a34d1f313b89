import CausalStore.Proofs.Convergence
import Mathlib

/-!
# Joining a cluster that takes writes

A joining node has a write from one of two sources: its author listed the node by the time it sent
the write, or the node whose state was transferred had it by the time of the capture
(`Cluster.Traced`). Nobody passes writes on, so what has neither source never reaches the node.
-/

namespace CausalStore

theorem Node.learnAll_pending (n : Node) (ps : List Peer) :
    (n.learnAll ps).engine.pending = n.engine.pending := by
  rw [learnAll, Engine.addServers_eq]

namespace Cluster

variable {ι : Type} {ids : ι → NodeId} {c c' : Cluster ι} {i j : ι} {member writes : ι → Prop}
  {installs : Cluster ι → ι → Capture → Prop} {u : Update} {n : Node} {k : Capture}

/-- The write is in the node's history or in its buffer. -/
def Got (c : Cluster ι) (i : ι) (u : Update) : Prop :=
  u ∈ c.history i ∨ u ∈ (c.node i).engine.pending

/-- Where a node can have a write from: it made it, was sent it, or installed a snapshot that covers
it. -/
def Source (ids : ι → NodeId) (c : Cluster ι) (i : ι) (u : Update) : Prop :=
  u.origin = ids i ∨ c.Sent (c.node i).identity.address u ∨
    ∃ k, (i, k) ∈ c.installs ∧ u ∈ k.history

theorem Source.grows (h : c.Grows c') (hu : c.Source ids i u) : c'.Source ids i u := by
  obtain ho | hsent | ⟨k, hk, hu⟩ := hu
  · exact .inl ho
  · refine .inr (.inl ?_)
    rw [h.identity]
    exact h.sent _ hsent
  · exact .inr (.inr ⟨k, h.installs _ hk, hu⟩)

variable [DecidableEq ι]

/-- A node that is replaced has what it had, what its new history gains, and what its new buffer
holds. -/
theorem got_set {gained : Finset Update}
    (hu : (c.set i n (c.group.set i n.engine gained).toLog).Got j u) :
    c.Got j u ∨ j = i ∧ (u ∈ gained ∨ u ∈ n.engine.pending) := by
  by_cases hj : j = i
  · subst hj
    rcases hu with hu | hu
    · have hu : u ∈ (c.group.set j n.engine gained).history j := hu
      rw [Group.set_history_self] at hu
      rcases Finset.mem_union.1 hu with hu | hu
      · exact .inl (.inl hu)
      · exact .inr ⟨rfl, .inl hu⟩
    · rw [set_node_self] at hu
      exact .inr ⟨rfl, .inr hu⟩
  · rcases hu with hu | hu
    · have hu : u ∈ (c.group.set i n.engine gained).history j := hu
      rw [Group.set_history_of_ne hj] at hu
      exact .inl (.inl hu)
    · rw [set_node_of_ne hj] at hu
      exact .inl (.inr hu)

/-- The same, where no write is gained. -/
theorem got_set_self (hn : n.engine.pending = (c.node i).engine.pending)
    (hu : (c.set i n c.toLog).Got j u) : c.Got j u := by
  rcases hu with hu | hu
  · exact .inl hu
  · by_cases hj : j = i
    · subst hj
      rw [set_node_self, hn] at hu
      exact .inr hu
    · rw [set_node_of_ne hj] at hu
      exact .inr hu

/-- Whatever a move brings to a node has a source. -/
theorem Move.got (P : c.Proper ids) (h : Move writes installs c c') (hu : c'.Got j u) :
    c.Got j u ∨ c'.Source ids j u := by
  cases h with
  | @write i _ _ e v _ hw =>
    obtain ⟨-, -, ho, -, rfl⟩ := Engine.write_eq_ok_iff.1 hw
    obtain hu | ⟨rfl, hu⟩ := got_set (n := { c.node i with engine := _ }) hu
    · exact .inl hu
    rw [Finset.mem_insert, or_assoc] at hu
    rcases hu with rfl | hu
    · exact .inr (.inl (ho.trans (P.sound.localId j)))
    · exact .inl (.inr (Engine.mem_pending_of_drain ((c.node j).engine.record v) hu))
  | @receive i v hsent =>
    obtain hu | ⟨rfl, hu⟩ := got_set (n := { c.node i with engine := _ }) hu
    · exact .inl hu
    obtain rfl | hu := Engine.mem_pending_of_receive (c.node j).engine hu
    · refine .inr (.inr (.inl ?_))
      rw [set_node_self]
      exact hsent
    · exact .inl (.inr hu)
  | @reconcile i =>
    obtain hu | ⟨rfl, hu⟩ := got_set (n := (c.node i).reconcile) hu
    · exact .inl hu
    · exact .inl (.inr (Engine.mem_pending_of_drain (c.node j).engine hu))
  | @install x k =>
    obtain hold | ⟨rfl, hnew⟩ := got_set (n := { c.node x.source with engine := _ }) hu
    · exact .inl hold
    rw [Finset.mem_union, or_assoc] at hnew
    rcases hnew with hk | hpend
    · exact .inr (.inr (.inr ⟨k, List.mem_cons_self, hk⟩))
    · exact .inl (.inr
        (Engine.mem_pending_of_drain ((c.node x.source).engine.overwrite k.snapshot) hpend))
  | @meet i p =>
    refine .inl (got_set_self ?_ hu)
    unfold Node.meet
    split <;> rfl
  | @learn i ps => exact .inl (got_set_self (Node.learnAll_pending ..) hu)
  | @capture i => exact .inl (got_set_self (n := c.node i) rfl hu)
  | @enqueue x s =>
    let o := (c.node x.source).outbox.enqueue s.peer s.message
    exact .inl (got_set_self (n := { c.node x.source with outbox := o }) rfl hu)
  | @remove x p q =>
    let o := (c.node x.source).outbox.remove p.address q.id
    exact .inl (got_set_self (n := { c.node x.source with outbox := o }) rfl hu)
  | launch | discharge | answer | close | owe => exact .inl hu

/-- An install is of a snapshot that was taken, and the node then has all that it covers. -/
theorem Move.mem_installs (P : c.Proper ids) (h : Move writes installs c c')
    (hk : (i, k) ∈ c'.installs) :
    (i, k) ∈ c.installs ∨ k ∈ c.captures ∧ ∀ u ∈ k.history, u ∈ c'.history i := by
  cases h with
  | @install x k' hx hk' _ =>
    rcases List.mem_cons.1 hk with heq | hk
    · cases heq
      refine .inr ⟨P.wired.replies x hx k hk', fun u hu => ?_⟩
      have hmem : u ∈ (c.group.installed x.source k).history x.source := by
        rw [Group.installed, Group.set_history_self]
        exact Finset.mem_union_right _ (Finset.mem_union_left _ hu)
      exact hmem
    · exact .inl hk
  | _ => exact .inl hk

/-- Every write that a node has has a source, and the node has all that it installed. -/
structure Traced (ids : ι → NodeId) (c : Cluster ι) : Prop where
  source : ∀ i u, c.Got i u → c.Source ids i u
  captured : ∀ i k, (i, k) ∈ c.installs → k ∈ c.captures
  covered : ∀ i k, (i, k) ∈ c.installs → ∀ u ∈ k.history, u ∈ c.history i

namespace Traced

omit [DecidableEq ι] in
theorem start {node : ι → Node} (h : ∀ i, (node i).Unused) : (start node).Traced ids where
  source i u hu := by
    rcases hu with hu | hu
    · exact absurd hu (Finset.notMem_empty u)
    · rw [Cluster.start, (h i).engine.pending] at hu
      cases hu
  captured _ _ hk := nomatch hk
  covered _ _ hk := nomatch hk

theorem move (T : c.Traced ids) (P : c.Proper ids) (h : Move writes installs c c') :
    c'.Traced ids where
  source i u hu := by
    rcases h.got P hu with hu | hu
    · exact (T.source i u hu).grows h.grows
    · exact hu
  captured i k hk := by
    rcases h.mem_installs P hk with hk | ⟨hk, -⟩
    · exact h.grows.captures k (T.captured i k hk)
    · exact h.grows.captures k hk
  covered i k hk u hu := by
    rcases h.mem_installs P hk with hk | ⟨-, hall⟩
    · exact h.grows.history i u (T.covered i k hk u hu)
    · exact hall u hu

theorem moves (hids : Function.Injective ids) (T : c.Traced ids) (P : c.Proper ids)
    (h : Moves writes installs c c') : c'.Traced ids := by
  induction h with
  | refl => exact T
  | tail hm h ih => exact ih.move (P.moves hids hm) h

theorem of_reaches {node : ι → Node} {allowed : Cluster ι → Action ι → Prop}
    (hids : Function.Injective fun i => (node i).settings.nodeId) (hnew : ∀ i, (node i).Unused)
    (h : Reaches step allowed (Cluster.start node) c) :
    c.Traced fun i => (node i).settings.nodeId := by
  induction h with
  | refl => exact .start hnew
  | step h' _ h ih =>
    have P := Proper.of_reaches hids (.start hnew) h'
    exact ih.moves hids P (P.step_moves h)

end Traced

/-- The write was sent to the node, or a snapshot that the node installed covers it. -/
def Reached (c : Cluster ι) (i : ι) (u : Update) : Prop :=
  c.Sent (c.node i).identity.address u ∨
    ∃ k, (i, k) ∈ c.installs ∧ k.snapshot.clock.dominates u.clock = true

namespace Traced

variable (T : c.Traced ids) (P : c.Proper ids)
include T P

omit [DecidableEq ι]

/-- What a node has and did not make has reached it. -/
theorem reached (hu : u ∈ c.history i) (ho : u.origin ≠ ids i) : c.Reached i u := by
  obtain hown | hsent | ⟨k, hk, hmem⟩ := T.source i u (.inl hu)
  · exact absurd hown ho
  · exact .inl hsent
  · exact .inr ⟨k, hk, (P.sound.captured k (T.captured i k hk)).closed u hmem⟩

/-- What an installed snapshot covers the node has. -/
theorem has_of_installed (hu : u ∈ c.made) (hk : (i, k) ∈ c.installs)
    (hdom : k.snapshot.clock.dominates u.clock = true) : (c.node i).engine.Has u := by
  have hmem := ((P.sound.captured k (T.captured i k hk)).dominates_iff hu).1 hdom
  exact .inl ((P.sound.live i).closed u (T.covered i k hk u hmem))

end Traced

/-- In every run of new nodes with distinct ids and addresses, in which all but `joiner` list each
other and make the writes: when nothing is under way and no message waits, these have all writes,
and `joiner` agrees with them, with nothing in its buffer, exactly if each write was sent to it or
is covered by a snapshot that it installed. -/
theorem joiner_agrees_iff_reached {node : ι → Node} {joiner : ι}
    (hids : Function.Injective fun i => (node i).settings.nodeId)
    (haddr : Function.Injective fun i => (node i).identity.address)
    (hnew : ∀ i, (node i).Unused)
    (hlists : ∀ i j, i ≠ joiner → j ≠ joiner → i ≠ j →
      (node j).identity ∈ (node i).directory.peers)
    (h : Reaches step (fun _ a => writing a ≠ some joiner) (start node) c)
    (hqueued : ∀ i, c.queued i < UInt64.size) (hquiet : c.Quiet) :
    (∀ i, i ≠ joiner → (∀ o, (c.node i).engine.clock.count o = writesOf c.made o) ∧
      (c.node i).engine.pending = []) ∧
    ((∀ i, i ≠ joiner → ∀ o,
        (c.node joiner).engine.clock.count o = (c.node i).engine.clock.count o) ∧
      (c.node joiner).engine.pending = [] ↔ ∀ u ∈ c.made, c.Reached joiner u) := by
  have E : c.Established (fun i => (node i).settings.nodeId) (· ≠ joiner) :=
    .of_reaches hids haddr hnew hlists (fun _ _ _ _ ha heq => ha (congrArg some heq)) h
  have T : c.Traced fun i => (node i).settings.nodeId := .of_reaches hids hnew h
  have H := E.proper.sound
  refine ⟨fun i hi => ⟨E.count_eq hqueued hquiet hi, E.pending_eq_nil hqueued hquiet hi⟩, ?_⟩
  constructor
  · rintro ⟨hagree, -⟩ u hu
    obtain ⟨i, hi, ho, -⟩ := E.spread.broadcast u hu
    have hmem : u ∈ c.history joiner := by
      refine ((H.live joiner).mem_iff u).2 ⟨hu, ?_⟩
      have hcount := (hagree i hi u.origin).trans (E.count_eq hqueued hquiet hi u.origin)
      exact (H.numbered.le hu).trans hcount.ge
    exact T.reached E.proper hmem fun hown => hi (hids (ho.symm.trans hown))
  · intro hall
    have hhas : ∀ u ∈ c.made, (c.node joiner).engine.Has u := by
      intro u hu
      obtain hsent | ⟨k, hk, hdom⟩ := hall u hu
      · exact E.has_of_sent hqueued hquiet hsent
      · exact T.has_of_installed E.proper hu hk hdom
    have hset := E.proper.settled joiner
    have hmem : ∀ u ∈ c.made, u ∈ c.history joiner := fun u hu =>
      H.mem_history_of_has hset hhas hu
    refine ⟨fun i hi o => ?_, H.pending_eq_nil_of_complete hset hmem⟩
    rw [E.count_eq hqueued hquiet hi]
    exact H.count_eq_of_complete hmem o

/-! A node `j` that joins `a` and `c` while `c` writes. Whether `a` has the write when its state is
captured decides whether `j` ever has it. -/

inductive Trio where
  | a
  | c
  | j
  deriving DecidableEq

instance : Fintype Trio := ⟨{.a, .c, .j}, fun i => by cases i <;> decide⟩

def Trio.settings : Trio → Settings
  | .a => { Settings.onLoopback "a" 7000 with advertisedHost := "a" }
  | .c => { Settings.onLoopback "c" 9000 with advertisedHost := "c" }
  | .j => { Settings.onLoopback "j" 8000 with advertisedHost := "j", seed := some ⟨"a", 7002⟩ }

def Trio.node : Trio → Node
  | .a => { Node.fresh (settings .a) with directory := .add .empty (settings .c).identity }
  | .c => { Node.fresh (settings .c) with directory := .add .empty (settings .a).identity }
  | .j => .fresh (settings .j)

def third : Update := ⟨"k", "v1", "c", .ofList [("c", 1)]⟩

def sending : Exchange Trio := ⟨.c, .send ⟨Trio.a.node.identity, .update third⟩, none⟩

/-- How `a` lets `j` in, after `c` has written, and sends it a snapshot. -/
def handshake (k : Capture) : List (Action Trio) :=
  let a := Trio.a.node.identity
  let c := Trio.c.node.identity
  let j := Trio.j.node.identity
  let join := Errand.join j ⟨"a", 7002⟩
  let announce := Errand.send ⟨c, .newPeerAnnounce j⟩
  [.arrive ⟨.j, join, none⟩ .a,
    .finish ⟨.j, join, some ⟨some (.joinResponse [a, c]), k.history⟩⟩ none,
    .perform .j (.settle a), .arrive ⟨.j, announce, none⟩ .c,
    .finish ⟨.j, announce, some ⟨none, {third}⟩⟩ none, .arrive ⟨.j, .transfer a, none⟩ .a,
    .finish ⟨.j, .transfer a, some ⟨some (.stateResponse k.snapshot), k.history⟩⟩ none]

/-- `a` has the write before it sends its state. -/
def early : List (Action Trio) :=
  [.join .j, .put .c "k" "v1", .perform .c (.broadcast third), .arrive sending .a,
    .finish { sending with reply := some ⟨none, ∅⟩ } none] ++
  handshake ⟨⟨.ofList [("k", third.entry)], .ofList [("a", 0), ("c", 1), ("j", 0)]⟩, {third}⟩

/-- `a` has the write from a retry, after it has sent its state. -/
def late : List (Action Trio) :=
  let a := Trio.a.node.identity
  let retried := Errand.retry a ⟨0, .update third⟩ []
  [.join .j, .put .c "k" "v1", .perform .c (.broadcast third),
    .finish sending (some (.unreachable "a" ""))] ++
  handshake ⟨⟨.empty, .ofList [("a", 0), ("j", 0)]⟩, ∅⟩ ++
  [.retry .c a.address, .arrive ⟨.c, retried, none⟩ .a,
    .finish ⟨.c, retried, some ⟨none, ∅⟩⟩ none]

namespace Trio

theorem id_injective : Function.Injective fun i : Trio => i.node.settings.nodeId := by
  unfold Function.Injective
  decide

theorem address_injective : Function.Injective fun i : Trio => i.node.identity.address := by
  unfold Function.Injective
  decide

theorem unused (i : Trio) : i.node.Unused := by cases i <;> exact ⟨.new, rfl, rfl⟩

theorem members_list (i k : Trio) (hi : i ≠ .j) (hk : k ≠ .j) (hik : i ≠ k) :
    k.node.identity ∈ i.node.directory.peers := by
  revert i k
  decide +kernel

end Trio

theorem early_write_reaches_joiner :
    ∃ c, Reaches step (fun _ a => writing a ≠ some Trio.j) (start Trio.node) c ∧
      c.made = [third] ∧ ∀ i, i ≠ Trio.j → ∀ o,
        (c.node .j).engine.clock.count o = (c.node i).engine.clock.count o := by
  have hrun : (runAll (fun c a => if writing a ≠ some Trio.j then step c a else none)
      (start Trio.node) early).map
        (fun c => (c.made, decide (∀ i, c.queued i < UInt64.size), decide c.Quiet,
          c.installs.map fun p => (p.1, p.2.snapshot.clock.dominates third.clock))) =
      some ([third], true, true, [(.j, true)]) := by cbv
  obtain ⟨c, hc, h⟩ := Option.map_eq_some_iff.1 hrun
  simp only [Prod.mk.injEq, decide_eq_true_eq] at h
  obtain ⟨hmade, hqueued, hquiet, hinstalls⟩ := h
  have hreach : Reaches step (fun _ a => writing a ≠ some Trio.j) (start Trio.node) c :=
    .of_runAll_guarded hc
  have hagree := joiner_agrees_iff_reached Trio.id_injective Trio.address_injective Trio.unused
    Trio.members_list hreach hqueued hquiet
  refine ⟨c, hreach, hmade, (hagree.2.2 fun u hu => .inr ?_).1⟩
  rw [hmade, List.mem_singleton] at hu
  obtain ⟨⟨i, k⟩, hk, heq⟩ := List.mem_map.1 (hinstalls ▸ List.mem_singleton_self _)
  obtain ⟨rfl, hdom⟩ := Prod.mk.inj heq
  exact ⟨k, hk, hu ▸ hdom⟩

theorem late_write_misses_joiner :
    Function.Injective (fun i : Trio => i.node.settings.nodeId) ∧
    Function.Injective (fun i : Trio => i.node.identity.address) ∧
    (∀ i : Trio, i.node.Unused) ∧
    (∀ i k : Trio, i ≠ .j → k ≠ .j → i ≠ k → k.node.identity ∈ i.node.directory.peers) ∧
    ∃ c, Reaches step (fun _ a => writing a ≠ some Trio.j) (start Trio.node) c ∧ c.Quiet ∧
      (∃ k, (.j, k) ∈ c.installs) ∧
      (c.node .j).engine.clock.count "c" = 0 ∧ (c.node .a).engine.clock.count "c" = 1 := by
  have hrun : (runAll (fun c a => if writing a ≠ some Trio.j then step c a else none)
      (start Trio.node) late).map (fun c => (decide c.Quiet, c.installs.map (·.1),
        (c.node .j).engine.clock.count "c", (c.node .a).engine.clock.count "c")) =
      some (true, [.j], 0, 1) := by cbv
  obtain ⟨c, hc, h⟩ := Option.map_eq_some_iff.1 hrun
  simp only [Prod.mk.injEq, decide_eq_true_eq] at h
  obtain ⟨hquiet, hinstalls, hjoiner, hmember⟩ := h
  refine ⟨Trio.id_injective, Trio.address_injective, Trio.unused, Trio.members_list, c,
    .of_runAll_guarded hc, hquiet, ?_, hjoiner, hmember⟩
  obtain ⟨⟨i, k⟩, hk, rfl⟩ := List.mem_map.1 (hinstalls ▸ List.mem_singleton_self _)
  exact ⟨k, hk⟩

end Cluster
end CausalStore
