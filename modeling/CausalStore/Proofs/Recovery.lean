import CausalStore.Proofs.StateTransfer

/-!
# Nodes that lose their state

A node that is rebuilt has its settings and nothing else, and first tries to join through its seed
(`Recovery.step`). It gives out the sequences of its lost writes again, unless its clock has
regained them from what it took over (`Recovery.Regained`): nothing else tells it of them.
-/

namespace CausalStore

variable {ι : Type} [DecidableEq ι] {ids : ι → NodeId} {i j : ι}

namespace Group

variable {g g' : Group ι} {author : ι → Prop} {a : Action ι}

/-- The group with a new engine at `i`. -/
def rebuilt (g : Group ι) (i : ι) (id : NodeId) : Group ι :=
  { g with
    engine := Function.update g.engine i (.new id)
    history := Function.update g.history i ∅ }

theorem forall_rebuilt {P : ι → Engine → Finset Update → Prop} {id : NodeId}
    (hi : P i (.new id) ∅) (hne : ∀ j, j ≠ i → P j (g.engine j) (g.history j)) (j : ι) :
    P j ((g.rebuilt i id).engine j) ((g.rebuilt i id).history j) := by
  rcases eq_or_ne j i with rfl | hj
  · simpa only [rebuilt, Function.update_self] using hi
  · simpa only [rebuilt, Function.update_of_ne hj] using hne j hj

/-- The clock of the new engine stands for nothing. -/
theorem SoundFor.rebuilt (H : g.SoundFor ids author) (i : ι) :
    (g.rebuilt i (ids i)).SoundFor ids fun j => author j ∧ j ≠ i where
  localId := forall_rebuilt (P := fun j e _ => e.localId = ids j) rfl fun j _ => H.localId j
  numbered := H.numbered
  live := forall_rebuilt (P := fun _ e h => Covers g.made e.clock h)
    (.empty H.numbered fun _ => Clock.count_seeded) fun j _ => H.live j
  own := forall_rebuilt
    (P := fun j e _ => author j ∧ j ≠ i → e.clock.count (ids j) = writesOf g.made (ids j))
    (fun h => absurd rfl h.2) fun j _ h => H.own j h.1
  frozen := H.frozen
  ordered := H.ordered
  captured := H.captured
  buffered := forall_rebuilt (P := fun _ e _ => ∀ u ∈ e.pending, u ∈ g.made) nofun
    fun j _ => H.buffered j

/-- Only the node with that id makes writes under an id. -/
theorem writesOf_step (hids : Function.Injective ids) (H : g.SoundFor ids author)
    (ha : ∀ key value, a ≠ .write i key value) (h : g.step a = some g') :
    writesOf g'.made (ids i) = writesOf g.made (ids i) := by
  cases a with
  | write k key value =>
    simp only [step] at h
    split at h
    next => cases h
    next e u hw =>
      cases h
      have ho : u.origin = ids k := (Engine.write_eq_ok_iff.1 hw).2.2.1.trans (H.localId k)
      refine writesOf_cons_of_ne fun heq => ha key value ?_
      rw [hids (ho.symm.trans heq)]
  | receive k u =>
    simp only [step, Option.ite_none_right_eq_some, Option.some.injEq] at h
    obtain ⟨-, rfl⟩ := h
    rfl
  | install k c =>
    simp only [step, Option.ite_none_right_eq_some, Option.some.injEq] at h
    obtain ⟨-, rfl⟩ := h
    rfl
  | addServer | reconcile | capture => cases h; rfl

end Group

/-! ## The system -/

namespace Cluster

variable {c c' : Cluster ι} {writes : ι → Prop} {installs : Cluster ι → ι → Capture → Prop}

/-- The cluster with a fresh node at `i`. What the node had yet to do is forgotten, though a copy of
what it sent may still arrive. -/
def rebuild (c : Cluster ι) (i : ι) : Cluster ι :=
  { c.set i (.fresh (c.node i).settings)
      { c.toLog with history := Function.update c.history i ∅ } with
    duties := c.duties.filter (·.1 ≠ i)
    exchanges := c.exchanges.filter (·.source ≠ i)
    installs := c.installs.filter (·.1 ≠ i)
    queued := Function.update c.queued i 0 }

/-- The node whose attempt to join ends in the action: the seed gave no list that can be used, or
the transfer that follows has come to its end, whichever that is. -/
def ending (c : Cluster ι) : Action ι → Option ι
  | .finish ⟨i, .transfer _, _⟩ _ => some i
  | a =>
    match c.joinEnd? a with
    | some (i, .error _) => some i
    | _ => none

theorem rebuild_node_self : (c.rebuild i).node i = .fresh (c.node i).settings :=
  Function.update_self ..

theorem rebuild_node_of_ne (hj : j ≠ i) : (c.rebuild i).node j = c.node j :=
  Function.update_of_ne hj ..

/-- What holds of the fresh node and of all others holds of each node. -/
theorem forall_rebuild_node {P : ι → Node → Prop} (hi : P i (.fresh (c.node i).settings))
    (hne : ∀ j, j ≠ i → P j (c.node j)) (j : ι) : P j ((c.rebuild i).node j) := by
  rcases eq_or_ne j i with rfl | hj
  · rwa [rebuild_node_self]
  · rw [rebuild_node_of_ne hj]
    exact hne j hj

theorem Wired.rebuild (W : c.Wired) (i : ι) : (c.rebuild i).Wired where
  duties j u hu := W.duties j u (List.mem_of_mem_filter hu)
  sent := W.sent
  exchanges x hx := W.exchanges x (List.mem_of_mem_filter hx)
  batches x hx := W.batches x (List.mem_of_mem_filter hx)
  queues := forall_rebuild_node (P := fun _ m => ∀ a, ∀ q ∈ m.outbox.pendingFor a, ∀ u,
    q.message = .update u → c.Sent a u) (fun _ _ hq => nomatch hq) fun j _ => W.queues j
  addressed := forall_rebuild_node (P := fun _ m => m.outbox.Addressed) .empty
    fun j _ => W.addressed j
  replies x hx := W.replies x (List.mem_of_mem_filter hx)

theorem group_rebuild : (c.rebuild i).group = c.group.rebuilt i (c.node i).settings.nodeId :=
  group_set

/-- The clock of a node covers the snapshots that it installed. -/
theorem Move.installs_covered (h : Move writes installs c c')
    (H : ∀ i k, (i, k) ∈ c.installs →
      (c.node i).engine.clock.dominates k.snapshot.clock = true) {k : Capture}
    (hk : (i, k) ∈ c'.installs) :
    (c'.node i).engine.clock.dominates k.snapshot.clock = true := by
  have hold (hk : (i, k) ∈ c.installs) :
      (c'.node i).engine.clock.dominates k.snapshot.clock = true :=
    Clock.dominates_trans (h.grows.engine i).clock (H i k hk)
  cases h with
  | @install x k' =>
    rcases List.mem_cons.1 hk with heq | hk
    · cases heq
      dsimp only
      rw [set_node_self]
      exact Clock.dominates_trans (Engine.reconcile_dominates _)
        (Clock.dominates_merge_right ..)
    · exact hold hk
  | _ => exact hold hk

end Cluster

/-- A cluster whose nodes may be rebuilt. -/
structure Recovery (ι : Type) extends Cluster ι where
  /-- How many writes had been made under the id of each node when it was last rebuilt. -/
  lost : ι → Nat
  /-- The nodes that were rebuilt and have yet to end their attempt to join. -/
  rejoining : ι → Bool

namespace Recovery

variable {r r' : Recovery ι}

inductive Action (ι : Type) where
  | act (a : Cluster.Action ι)
  | rebuild (i : ι)

def start (node : ι → Node) : Recovery ι := ⟨.start node, fun _ => 0, fun _ => false⟩

/-- Who writes in an action. -/
def writing : Action ι → Option ι
  | .act a => Cluster.writing a
  | .rebuild _ => none

/-- An action of the cluster, in which nobody writes that is about to join again. -/
def act (r : Recovery ι) (a : Cluster.Action ι) : Option (Recovery ι) :=
  if (Cluster.writing a).any r.rejoining then none
  else (r.toCluster.step a).map fun c =>
    { r with
      toCluster := c
      rejoining :=
        match r.ending a with
        | some i => Function.update r.rejoining i false
        | none => r.rejoining }

def rebuild (r : Recovery ι) (i : ι) : Recovery ι where
  toCluster := r.toCluster.rebuild i
  lost := Function.update r.lost i (writesOf r.made (r.node i).settings.nodeId)
  rejoining := Function.update r.rejoining i (r.node i).settings.seed.isSome

def step (r : Recovery ι) : Action ι → Option (Recovery ι)
  | .act a => r.act a
  | .rebuild i => some (r.rebuild i)

/-- The node's clock counts the writes that the node lost. -/
def Regained (r : Recovery ι) (i : ι) : Prop :=
  r.lost i ≤ (r.node i).engine.clock.count (r.node i).settings.nodeId

instance : Decidable (r.Regained i) := inferInstanceAs (Decidable (_ ≤ _))

/-! ## What a run keeps -/

/-- Clocks stand for histories, those of the nodes that have regained what they lost for all their
writes. The others have written nothing since. -/
structure Sound (ids : ι → NodeId) (r : Recovery ι) : Prop where
  nodeId : ∀ i, (r.node i).settings.nodeId = ids i
  wired : r.Wired
  clocks : r.group.SoundFor ids r.Regained
  unwritten : ∀ i, ¬ r.Regained i → writesOf r.made (ids i) = r.lost i
  installed : ∀ i k, (i, k) ∈ r.installs →
    (r.node i).engine.clock.dominates k.snapshot.clock = true

namespace Sound

omit [DecidableEq ι] in
theorem start {node : ι → Node} (h : ∀ i, (node i).Unused) :
    (start node).Sound fun i => (node i).settings.nodeId where
  nodeId _ := rfl
  wired := .start h
  clocks :=
    { Group.Sound.unused (fun i => (h i).localId) fun i => (h i).engine with
      own := fun i _ => (h i).engine.clock _ }
  unwritten _ hi := absurd (Nat.zero_le _) hi
  installed _ _ hk := nomatch hk

/-- The moves of a step in which only nodes write that have regained what they lost. -/
theorem moves {c : Cluster ι} {installs : Cluster ι → ι → Capture → Prop}
    (hids : Function.Injective ids) (H : r.Sound ids)
    (h : Cluster.Moves r.Regained installs r.toCluster c) :
    c.Wired ∧ c.group.SoundFor ids r.Regained ∧
      (∀ i, ¬ r.Regained i → writesOf c.made (ids i) = r.lost i) ∧
      ∀ i k, (i, k) ∈ c.installs → (c.node i).engine.clock.dominates k.snapshot.clock = true := by
  induction h with
  | refl => exact ⟨H.wired, H.clocks, H.unwritten, H.installed⟩
  | tail _ h ih =>
    obtain ⟨W, S, hlost, hinst⟩ := ih
    have hgroup := (h.group W).keeps (P := fun g => g.SoundFor ids r.Regained ∧
      ∀ i, ¬ r.Regained i → writesOf g.made (ids i) = r.lost i) ⟨S, hlost⟩ ?_
    · exact ⟨W.move h, hgroup.1, hgroup.2, fun _ _ => h.installs_covered hinst⟩
    rintro g g' a ⟨S, hlost⟩ ha hs
    refine ⟨S.step hids ?_ hs, fun i hi => ?_⟩
    · rintro i key value rfl
      exact ha
    · refine (Group.writesOf_step hids S ?_ hs).trans (hlost i hi)
      rintro key value rfl
      exact hi ha

theorem act (hids : Function.Injective ids) (H : r.Sound ids) {a : Cluster.Action ι}
    (hwrites : ∀ i, Cluster.writing a = some i → r.Regained i) (h : r.act a = some r') :
    r'.Sound ids := by
  simp only [Recovery.act, Option.ite_none_left_eq_some, Option.map_eq_some_iff] at h
  obtain ⟨-, c, hc, rfl⟩ := h
  have hmoves : Cluster.Moves r.Regained (fun _ _ _ => True) r.toCluster c := by
    refine Cluster.step_moves H.wired.exchanges ?_ (fun _ _ _ => trivial) hc
    rintro i key value rfl
    exact hwrites i rfl
  obtain ⟨W, S, hlost, hinst⟩ := H.moves hids hmoves
  have hid : ∀ i, (c.node i).settings.nodeId = ids i := fun i =>
    (congrArg Settings.nodeId (hmoves.grows.settings i)).trans (H.nodeId i)
  refine ⟨hid, W, { S with own := fun i hi => ?_ }, fun i hi => hlost i fun hi' => hi ?_, hinst⟩
  · by_cases hi' : r.Regained i
    · exact S.own i hi'
    · -- it has written nothing, so what it lost is all that was written under its id
      refine Nat.le_antisymm ((S.live i).bounded _) ?_
      rw [Regained, hid] at hi
      exact (hlost i hi').trans_le hi
  · rw [Regained, H.nodeId] at hi'
    rw [Regained, hid]
    exact hi'.trans (Clock.dominates_iff.1 (hmoves.grows.engine i).clock _)

theorem regained_rebuild (hj : j ≠ i) : (r.rebuild i).Regained j ↔ r.Regained j := by
  have hnode : (r.rebuild i).node j = r.node j := Cluster.rebuild_node_of_ne hj
  have hlost : (r.rebuild i).lost j = r.lost j := Function.update_of_ne hj ..
  rw [Regained, Regained, hnode, hlost]

theorem rebuild (H : r.Sound ids) (i : ι) : (r.rebuild i).Sound ids := by
  have hlost : (r.rebuild i).lost i = writesOf r.made (ids i) :=
    (Function.update_self ..).trans (congrArg _ (H.nodeId i))
  have hgroup : (r.rebuild i).group = r.group.rebuilt i (ids i) :=
    Cluster.group_rebuild.trans (congrArg _ (H.nodeId i))
  have hclocks := hgroup ▸ H.clocks.rebuilt i
  have hid : ∀ j, ((r.rebuild i).node j).settings.nodeId = ids j :=
    Cluster.forall_rebuild_node (P := fun j n => n.settings.nodeId = ids j) (H.nodeId i)
      fun j _ => H.nodeId j
  refine ⟨hid, H.wired.rebuild i, { hclocks with own := fun j hj => ?_ }, fun j hj => ?_,
    fun j k hk => ?_⟩
  · rcases eq_or_ne j i with rfl | hji
    · rw [Regained, hid, hlost] at hj
      exact Nat.le_antisymm ((hclocks.live j).bounded _) hj
    · exact hclocks.own j ⟨(regained_rebuild hji).1 hj, hji⟩
  · rcases eq_or_ne j i with rfl | hji
    · exact hlost.symm
    · have hold := H.unwritten j fun hj' => hj ((regained_rebuild hji).2 hj')
      exact hold.trans (Function.update_of_ne hji ..).symm
  · obtain ⟨hk, hj⟩ := List.mem_filter.1 hk
    rw [show (r.rebuild i).node j = _ from Cluster.rebuild_node_of_ne (of_decide_eq_true hj)]
    exact H.installed j k hk

theorem of_reaches (hids : Function.Injective ids) (H : r.Sound ids)
    (h : Reaches step (fun r a => ∀ i, writing a = some i → r.Regained i) r r') :
    r'.Sound ids := by
  refine h.keeps H fun {r r' a} H ha hs => ?_
  cases a with
  | act a => exact H.act hids ha hs
  | rebuild i => cases hs; exact H.rebuild i

omit [DecidableEq ι]

/-- A node that has not regained what it lost gives out a sequence for the second time. -/
theorem exists_same_sequence (H : r.Sound ids) (hi : ¬ r.Regained i) {key value : String} {n : Node}
    {u : Update} (hput : (r.node i).put key value = .ok (n, u)) :
    ∃ v ∈ r.made, v.origin = u.origin ∧ v.sequence = u.sequence := by
  obtain ⟨e, hw, -⟩ := Node.put_eq_ok hput
  obtain ⟨-, -, ho, hinc, -⟩ := Engine.write_eq_ok_iff.1 hw
  have hid : (r.node i).engine.localId = ids i := H.clocks.localId i
  rw [hid] at ho hinc
  have hnum : u.number = (r.node i).engine.clock.count (ids i) + 1 := by
    rw [Update.number, ho]
    exact (Clock.increment_spec hinc).1
  have hlost : writesOf r.group.made (ids i) = r.lost i := H.unwritten i hi
  rw [Regained, H.nodeId] at hi
  obtain ⟨v, hv, hvo, hvn⟩ := H.clocks.numbered.exists_number (o := ids i) (n := u.number)
    (by omega) (by omega)
  exact ⟨v, hv, hvo.trans ho.symm, UInt64.toNat_inj.1 hvn⟩

end Sound

/-- In every run of new nodes with distinct ids that are rebuilt at any time, where only nodes write
that have regained what they lost: no two writes share origin and sequence, and what a node discards
it has made, applied or taken over. A write of a node that has not regained what it lost would
repeat a sequence, and a node regains it by installing a snapshot that counts it. -/
theorem sequences_differ_iff_regained {node : ι → Node}
    (hids : Function.Injective fun i => (node i).settings.nodeId) (hnew : ∀ i, (node i).Unused)
    (h : Reaches step (fun r a => ∀ i, writing a = some i → r.Regained i) (start node) r) :
    (r.made.Pairwise fun u v => ¬ (u.origin = v.origin ∧ u.sequence = v.sequence)) ∧
    (∀ i, ∀ u ∈ r.made, ((r.node i).engine.receive u).2 = .discarded → u ∈ r.history i) ∧
    (∀ i key value n u, ¬ r.Regained i → (r.node i).put key value = .ok (n, u) →
      ∃ v ∈ r.made, v.origin = u.origin ∧ v.sequence = u.sequence) ∧
    ∀ i k, (i, k) ∈ r.installs →
      r.lost i ≤ k.snapshot.clock.count (node i).settings.nodeId → r.Regained i := by
  have H : r.Sound fun i => (node i).settings.nodeId := (Sound.start hnew).of_reaches hids h
  refine ⟨?_, fun i u hu hd => ?_, fun i key value n u hi hput => H.exists_same_sequence hi hput,
    fun i k hk hle => ?_⟩
  · refine H.clocks.numbered.nodup.imp_of_mem fun hu hv hne ⟨ho, hs⟩ => hne ?_
    exact H.clocks.numbered.inj hu hv ho (congrArg UInt64.toNat hs)
  · exact ((H.clocks.live i).dominates_iff hu).1 (Engine.receive_eq_discarded_iff.1 hd)
  · rw [Regained, H.nodeId]
    exact hle.trans (Clock.dominates_iff.1 (H.installed i k hk) _)

/-! The node `b` is rebuilt after `a` has its write, and joins through `a` again. Whether it then
gets the state of `a` decides whether its next write is its second, or once more its first. -/

open Cluster (Pair Pair.id_injective first second overwriting)

def delivering : List (Cluster.Action Pair) :=
  let send := Errand.send ⟨Pair.a.settings.identity, .update second⟩
  overwriting ++ [.perform .b (.broadcast second), .arrive ⟨.b, send, none⟩ .a]

/-- How `b` joins for the second time and writes, where the transfer fails or brings a snapshot. -/
def returning (failure : Option ExchangeError) : List (Cluster.Action Pair) :=
  let a := Pair.a.settings.identity
  let join := Errand.join Pair.b.settings.identity ⟨"a", 7002⟩
  let snapshot : Snapshot := ⟨.ofList [("k", second.entry)], second.clock⟩
  [.join .b, .arrive ⟨.b, join, none⟩ .a,
    .finish ⟨.b, join, some ⟨some (.joinResponse [a]), {first, second}⟩⟩ none,
    .perform .b (.settle a), .arrive ⟨.b, .transfer a, none⟩ .a,
    .finish ⟨.b, .transfer a, some ⟨some (.stateResponse snapshot), {first, second}⟩⟩ failure,
    .put .b "k" "v3"]

def rebuilding (failure : Option ExchangeError) : List (Action Pair) :=
  delivering.map .act ++ .rebuild .b :: (returning failure).map .act

/-- The write of the rebuilt node that has the state of `a`. -/
def third : Update := ⟨"k", "v3", "b", .ofList [("a", 1), ("b", 2)]⟩

/-- The write of the rebuilt node that has nothing. -/
def again : Update := ⟨"k", "v3", "b", .ofList [("a", 0), ("b", 1)]⟩

theorem restored_node_counts_on :
    ∃ r, Reaches step (fun r a => ∀ i, writing a = some i → r.Regained i) (start Pair.node) r ∧
      r.lost .b = 1 ∧ r.made = [third, second, first] ∧
      r.made.Pairwise fun u v => ¬ (u.origin = v.origin ∧ u.sequence = v.sequence) := by
  have hrun : (runAll (fun r a => if ∀ i, writing a = some i → r.Regained i then step r a else none)
      (start Pair.node) (rebuilding none)).map (fun r => (r.lost .b, r.made)) =
      some (1, [third, second, first]) := by decide +kernel
  obtain ⟨r, hr, h⟩ := Option.map_eq_some_iff.1 hrun
  obtain ⟨hlost, hmade⟩ := Prod.mk.inj h
  have hreach : Reaches step (fun r a => ∀ i, writing a = some i → r.Regained i)
      (start Pair.node) r := .of_runAll_guarded hr
  have hdiffer := sequences_differ_iff_regained Pair.id_injective (fun _ => .fresh _) hreach
  exact ⟨r, hreach, hlost, hmade, hdiffer.1⟩

theorem forgotten_sequence_repeats :
    Function.Injective (fun i : Pair => i.node.settings.nodeId) ∧ (∀ i : Pair, i.node.Unused) ∧
    ∃ r, Reaches step (fun _ _ => True) (start Pair.node) r ∧ again ∈ r.made ∧ second ∈ r.made ∧
      again ≠ second ∧ again.origin = second.origin ∧ again.sequence = second.sequence ∧
      again ∉ r.history .a ∧ ((r.node .a).engine.receive again).2 = .discarded := by
  have hrun : (runAll step (start Pair.node) (rebuilding (some (.unreachable "a" "")))).map
      (fun r => (r.made, decide (again ∈ r.history .a),
        ((r.node .a).engine.receive again).2)) =
      some ([again, second, first], false, .discarded) := by decide +kernel
  obtain ⟨r, hr, h⟩ := Option.map_eq_some_iff.1 hrun
  obtain ⟨hmade, h⟩ := Prod.mk.inj h
  obtain ⟨hmiss, hdiscarded⟩ := Prod.mk.inj h
  refine ⟨Pair.id_injective, fun _ => .fresh _, r, .of_runAll hr, ?_, ?_, by decide, rfl,
    by decide +kernel, of_decide_eq_false hmiss, hdiscarded⟩
  · simp [hmade]
  · simp [hmade]

end Recovery
end CausalStore
