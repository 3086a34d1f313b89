import CausalStore.Proofs.Delivery
import CausalStore.Proofs.StateTransfer

/-!
# Convergence

Where the members of a cluster list each other, each write is sent to all of them
(`Cluster.Spread`). Once nothing is under way, they have all writes; so they have applied them, and
where no snapshot was installed their stores agree as far as the causal order decides.
-/

namespace CausalStore
namespace Cluster

variable {ι : Type} {ids : ι → NodeId} {c c' : Cluster ι} {i j : ι} {member : ι → Prop}
  {installs : Cluster ι → ι → Capture → Prop} {u v : Update}

/-- The members have addresses of their own and list each other, and each write is one of theirs,
which it has sent, or has still to send, to all others. -/
structure Spread (ids : ι → NodeId) (member : ι → Prop) (c : Cluster ι) : Prop where
  addresses : ∀ i j, (c.node i).identity.address = (c.node j).identity.address → i = j
  lists : ∀ i j, member i → member j → i ≠ j →
    (c.node j).identity ∈ (c.node i).directory.peers
  broadcast : ∀ u ∈ c.made, ∃ i, member i ∧ u.origin = ids i ∧
    ((i, .broadcast u) ∈ c.duties ∨
      ∀ j, member j → j ≠ i → c.Sent (c.node j).identity.address u)

/-- A write is the only move that makes one, and the writer then has to send it. -/
theorem Move.mem_made [DecidableEq ι] (H : c.Proper ids) (h : Move member installs c c')
    (hu : u ∈ c'.made) :
    u ∈ c.made ∨ ∃ i, member i ∧ u.origin = ids i ∧ (i, .broadcast u) ∈ c'.duties := by
  cases h with
  | @write i _ _ e v hi hw =>
    rcases List.mem_cons.1 hu with rfl | hu
    · obtain ⟨-, -, ho, -⟩ := Engine.write_eq_ok_iff.1 hw
      exact .inr ⟨i, hi, ho.trans (H.sound.localId i), List.mem_cons_self⟩
    · exact .inl hu
  | _ => exact .inl hu

namespace Spread

theorem start {node : ι → Node}
    (haddr : ∀ i j, (node i).identity.address = (node j).identity.address → i = j)
    (hlists : ∀ i j, member i → member j → i ≠ j →
      (node j).identity ∈ (node i).directory.peers) :
    (start node).Spread ids member :=
  ⟨haddr, hlists, fun _ hu => nomatch hu⟩

theorem move [DecidableEq ι] (S : c.Spread ids member) (H : c.Proper ids)
    (h : Move member installs c c') : c'.Spread ids member where
  addresses i j := by
    rw [h.grows.identity, h.grows.identity]
    exact S.addresses i j
  lists i j hi hj hij := by
    rw [h.grows.identity]
    exact h.grows.peers i _ (S.lists i j hi hj hij)
  broadcast u hu := by
    rcases h.mem_made H hu with hu | ⟨i, hi, ho, hd⟩
    · obtain ⟨i, hi, ho, hd | hsent⟩ := S.broadcast u hu
      · refine ⟨i, hi, ho, (h.mem_duties hd).imp_right fun hall j hj hji => ?_⟩
        rw [h.grows.identity]
        exact h.grows.sent _ (hall (.send ⟨_, .update u⟩)
          (List.mem_map_of_mem (List.mem_map_of_mem (S.lists i j hi hj hji.symm))))
      · refine ⟨i, hi, ho, .inr fun j hj hji => ?_⟩
        rw [h.grows.identity]
        exact h.grows.sent _ (hsent j hj hji)
    · exact ⟨i, hi, ho, .inl hd⟩

end Spread

/-- All that runs of members keep, among whom alone writes are made. -/
structure Established (ids : ι → NodeId) (member : ι → Prop) (c : Cluster ι) : Prop where
  proper : c.Proper ids
  accounted : c.Accounted
  spread : c.Spread ids member

namespace Established

theorem move [DecidableEq ι] (hids : Function.Injective ids) (E : c.Established ids member)
    (h : Move member installs c c') : c'.Established ids member where
  proper := E.proper.move hids h
  accounted := E.accounted.move E.proper.wired E.spread.addresses h
  spread := E.spread.move E.proper h

theorem moves [DecidableEq ι] (hids : Function.Injective ids) (E : c.Established ids member)
    (h : Moves member installs c c') : c'.Established ids member := by
  induction h with
  | refl => exact E
  | tail _ h ih => exact ih.move hids h

theorem of_reaches [DecidableEq ι] {node : ι → Node} {allowed : Cluster ι → Action ι → Prop}
    (hids : Function.Injective fun i => (node i).settings.nodeId)
    (haddr : Function.Injective fun i => (node i).identity.address)
    (hnew : ∀ i, (node i).Unused)
    (hlists : ∀ i j, member i → member j → i ≠ j → (node j).identity ∈ (node i).directory.peers)
    (hmember : ∀ c i key value, allowed c (.put i key value) → member i)
    (h : Reaches step allowed (Cluster.start node) c) :
    c.Established (fun i => (node i).settings.nodeId) member := by
  induction h with
  | refl => exact ⟨.start hnew, .start hnew, .start (fun _ _ h => haddr h) hlists⟩
  | @step c c' a _ ha h ih =>
    have hmoves : Moves member (fun _ _ _ => True) c c' := step_moves ih.proper.wired.exchanges
      (fun i key value e => hmember c i key value (e ▸ ha)) (fun _ _ _ => trivial) h
    exact ih.moves hids hmoves

/-! ## When nothing is under way -/

variable (E : c.Established ids member) (hqueued : ∀ i, c.queued i < UInt64.size) (hquiet : c.Quiet)
include E hqueued hquiet

theorem has_of_sent (hs : c.Sent (c.node j).identity.address u) : (c.node j).engine.Has u := by
  exact (E.accounted.delivered hqueued j u hs).resolve_right hquiet.not_underway

theorem has_of_made (hj : member j) (hu : u ∈ c.made) : (c.node j).engine.Has u := by
  obtain ⟨i, -, ho, hd | hsent⟩ := E.spread.broadcast u hu
  · rw [hquiet.duties] at hd
    cases hd
  · by_cases hji : j = i
    · subst hji
      exact .inl ((E.proper.sound.live j).closed u (E.proper.sound.mem_history_of_own hu ho))
    · exact E.has_of_sent hqueued hquiet (hsent j hj hji)

/-- Each member has all writes in its history. -/
theorem mem_history (hj : member j) (hu : u ∈ c.made) : u ∈ c.history j :=
  E.proper.sound.mem_history_of_has (E.proper.settled j)
    (fun _ hv => E.has_of_made hqueued hquiet hj hv) hu

theorem count_eq (hj : member j) (o : NodeId) :
    (c.node j).engine.clock.count o = writesOf c.made o :=
  E.proper.sound.count_eq_of_complete (fun _ hu => E.mem_history hqueued hquiet hj hu) o

theorem pending_eq_nil (hj : member j) : (c.node j).engine.pending = [] :=
  E.proper.sound.pending_eq_nil_of_complete (E.proper.settled j)
    fun _ hu => E.mem_history hqueued hquiet hj hu

end Established

/-- All other writes to the key come before `u`. -/
structure Latest (key : String) (c : Cluster ι) (u : Update) : Prop where
  made : u ∈ c.made
  key_eq : u.key = key
  before : ∀ v ∈ c.made, v.key = key → v ≠ u → v.clock.order u.clock = .before

/-- No two writes to the key are concurrent. -/
def Ordered (key : String) (c : Cluster ι) : Prop :=
  ∀ u ∈ c.made, ∀ v ∈ c.made, u.key = key → v.key = key → u.clock.order v.clock ≠ .concurrent

instance {key : String} : Decidable (c.Ordered key) :=
  inferInstanceAs (Decidable (∀ u ∈ c.made, ∀ v ∈ c.made, u.key = key → v.key = key →
    u.clock.order v.clock ≠ .concurrent))

theorem Latest.unique {key : String} (hu : c.Latest key u) (hv : c.Latest key v) : u = v := by
  by_contra hne
  obtain ⟨-, hnot⟩ := Clock.order_eq_before_iff.1 (hu.before v hv.made hv.key_eq (Ne.symm hne))
  obtain ⟨hdom, -⟩ := Clock.order_eq_before_iff.1 (hv.before u hu.made hu.key_eq hne)
  rw [hdom] at hnot
  cases hnot

/-- Where the writes to a key are ordered, an entry that is before none of them is the latest. -/
theorem Ordered.exists_latest {key : String} {s : Store} {e : Entry} (hord : c.Ordered key)
    (H : c.group.Sound ids) (hholds : Holds (c.history j) s) (hup : UpToDate key (c.history j) s)
    (hall : ∀ u ∈ c.made, u ∈ c.history j) (he : s.get? key = some e) :
    ∃ u, c.Latest key u ∧ u.entry = e := by
  obtain ⟨u, hu, huk, rfl⟩ := hholds.exists_write key e he
  have hmade := (H.live j).mem hu
  refine ⟨u, ⟨hmade, huk, fun v hv hvk hne => ?_⟩, rfl⟩
  have hdom : u.clock.dominates v.clock = true :=
    Clock.dominates_of_order_ne (hup v (hall v hv) hvk _ he) (hord u hmade v hv huk hvk)
  refine Clock.order_eq_before_iff.2 ⟨hdom, Bool.eq_false_iff.2 fun hback => ?_⟩
  have hvu := (H.happenedBefore_iff hv hmade hne).2 hdom
  exact H.happenedBefore_asymm hvu ((H.happenedBefore_iff hmade hv hne.symm).2 hback)

/-- Where all nodes have all writes, their stores agree on a key whose writes are ordered. -/
theorem Ordered.stores_agree [Nonempty ι] {key : String} (hord : c.Ordered key)
    (H : c.group.Sound ids) (hholds : c.group.Everywhere Holds)
    (hup : c.group.Everywhere (UpToDate key)) (hall : ∀ j, ∀ u ∈ c.made, u ∈ c.history j) :
    (∃ u, c.Latest key u ∧ ∀ j, (c.node j).engine.store.get? key = some u.entry) ∨
      (∀ u ∈ c.made, u.key ≠ key) ∧ ∀ j, (c.node j).engine.store.get? key = none := by
  have hlatest : ∀ j e, (c.node j).engine.store.get? key = some e → ∃ u, c.Latest key u ∧
      u.entry = e := fun j e he =>
    hord.exists_latest H (hholds.engine j) (hup.engine j) (hall j) he
  by_cases hwrite : ∃ u ∈ c.made, u.key = key
  · obtain ⟨v, hv, rfl⟩ := hwrite
    have hentry : ∀ j, ∃ e, (c.node j).engine.store.get? v.key = some e := fun j =>
      (hholds.engine j).exists_entry v (hall j v hv)
    obtain ⟨e, he⟩ := hentry (Classical.arbitrary ι)
    obtain ⟨u, hu, -⟩ := hlatest _ e he
    refine .inl ⟨u, hu, fun j => ?_⟩
    obtain ⟨e, he⟩ := hentry j
    obtain ⟨u', hu', rfl⟩ := hlatest j e he
    rw [hu.unique hu']
    exact he
  · refine .inr ⟨fun u hu huk => hwrite ⟨u, hu, huk⟩, fun j => ?_⟩
    refine Option.eq_none_iff_forall_ne_some.2 fun e he => ?_
    obtain ⟨u, hu, -⟩ := hlatest j e he
    exact hwrite ⟨u, hu.made, hu.key_eq⟩

/-- In every run of new nodes with distinct ids and addresses, all of which list each other, in
which no snapshot is installed: when nothing is under way and no message waits, every clock counts
all writes, no buffer holds any, and where the writes to a key are ordered every store has the entry
of the latest of them. No node may have queued as many messages as there are ids, since it would
then give these out again. -/
theorem replicas_agree_at_quiescence [DecidableEq ι] {node : ι → Node}
    (hids : Function.Injective fun i => (node i).settings.nodeId)
    (haddr : Function.Injective fun i => (node i).identity.address)
    (hnew : ∀ i, (node i).Unused)
    (hlists : ∀ i j, i ≠ j → (node j).identity ∈ (node i).directory.peers)
    (h : Reaches step (fun _ a => installing a = none) (start node) c)
    (hqueued : ∀ i, c.queued i < UInt64.size) (hquiet : c.Quiet) :
    (∀ j o, (c.node j).engine.clock.count o = writesOf c.made o) ∧
    (∀ j, (c.node j).engine.pending = []) ∧
    ∀ key, c.Ordered key →
      (∃ u, c.Latest key u ∧ ∀ j, (c.node j).engine.store.get? key = some u.entry) ∨
      (∀ u ∈ c.made, u.key ≠ key) ∧ ∀ j, (c.node j).engine.store.get? key = none := by
  have E : c.Established (fun i => (node i).settings.nodeId) fun _ => True :=
    .of_reaches hids haddr hnew (fun i j _ _ => hlists i j) (fun _ _ _ _ _ => trivial) h
  have hall : ∀ j, ∀ u ∈ c.made, u ∈ c.history j := fun j u hu =>
    E.mem_history hqueued hquiet trivial hu
  refine ⟨fun j => E.count_eq hqueued hquiet trivial,
    fun j => E.pending_eq_nil hqueued hquiet trivial, fun key hord => ?_⟩
  have hfresh : Reaches step (fun c a => ¬ c.InstallsStale key a) (start node) c := by
    refine h.mono fun c a ha => ?_
    rintro ⟨p, hp, -⟩
    rw [ha] at hp
    cases hp
  obtain ⟨-, hholds, hup⟩ := upToDate_of_reaches hids hnew hfresh
  cases isEmpty_or_nonempty ι with
  | inl hempty =>
    refine .inr ⟨fun u hu => ?_, hempty.elim⟩
    obtain ⟨i, -⟩ := E.spread.broadcast u hu
    exact hempty.elim i
  | inr hnonempty => exact hord.stores_agree E.proper.sound hholds hup hall

/-! A write whose first attempt fails and that is delivered by a retry. -/

/-- The two nodes, which list each other. -/
def neighbours : Pair → Node
  | .a => { Pair.a.node with directory := .add .empty Pair.b.node.identity }
  | .b => { Pair.b.node with directory := .add .empty Pair.a.node.identity }

def retrying : List (Action Pair) :=
  let b := Pair.b.node.identity
  let failed : Exchange Pair := ⟨.a, .send ⟨b, .update first⟩, none⟩
  let retried : Errand := .retry b ⟨0, .update first⟩ []
  [.put .a "k" "v1", .perform .a (.broadcast first), .finish failed (some (.unreachable "b" "")),
    .retry .a b.address, .arrive ⟨.a, retried, none⟩ .b,
    .finish ⟨.a, retried, some ⟨none, ∅⟩⟩ none]

theorem retrying_agrees :
    ∃ c, Reaches step (fun _ a => installing a = none) (start neighbours) c ∧ c.made = [first] ∧
      ∀ j, (c.node j).engine.store.get? "k" = some first.entry := by
  have hids : Function.Injective fun i => (neighbours i).settings.nodeId := by
    unfold Function.Injective; decide
  have haddr : Function.Injective fun i => (neighbours i).identity.address := by
    unfold Function.Injective; decide
  have hnew : ∀ i, (neighbours i).Unused := fun i => by cases i <;> exact ⟨.new, rfl, rfl⟩
  have hlists : ∀ i j, i ≠ j → (neighbours j).identity ∈ (neighbours i).directory.peers := by
    decide +kernel
  have hrun : (runAll (fun c a => if installing a = none then step c a else none)
      (start neighbours) retrying).map
        (fun c => (c.made, decide (∀ i, c.queued i < UInt64.size), decide c.Quiet,
          decide (c.Ordered "k"))) = some ([first], true, true, true) := by decide +kernel
  obtain ⟨c, hc, h⟩ := Option.map_eq_some_iff.1 hrun
  simp only [Prod.mk.injEq, decide_eq_true_eq] at h
  obtain ⟨hmade, hqueued, hquiet, hord⟩ := h
  have hreach : Reaches step (fun _ a => installing a = none) (start neighbours) c :=
    .of_runAll_guarded hc
  have hagree := replicas_agree_at_quiescence hids haddr hnew hlists hreach hqueued hquiet
  refine ⟨c, hreach, hmade, ?_⟩
  obtain ⟨u, hu, hall⟩ | ⟨hnone, -⟩ := hagree.2.2 "k" hord
  · have hmem := hu.made
    rw [hmade, List.mem_singleton] at hmem
    exact hmem ▸ hall
  · exact absurd rfl (hnone first (by simp [hmade]))

end Cluster
end CausalStore
