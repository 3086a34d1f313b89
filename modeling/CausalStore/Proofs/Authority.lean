import CausalStore.Proofs.Convergence

/-!
# A node is the authority on its own counter

Wherever a clock is kept or under way (`Cluster.Carries`), it counts no more writes of a node than
the node itself. So a write of the node makes no buffered update ready, its clock is after every
clock that the node has seen, and what it stored stays to be read.
-/

namespace CausalStore

/-- A write makes no buffered update ready, as long as these count no more writes of the node than
it made before. -/
theorem Engine.Settled.record {e : Engine} {u : Update} (h : e.Settled)
    (hinc : e.clock.increment e.localId = .ok u.clock)
    (hle : ∀ v ∈ e.pending, v.clock.count e.localId ≤ e.clock.count e.localId) :
    (e.record u).Settled := by
  obtain ⟨hself, hother⟩ := Clock.increment_spec hinc
  intro v hv
  obtain ⟨hcov, hadm⟩ := h v hv
  have hbound := hle v hv
  constructor
  · refine Bool.eq_false_iff.2 fun hd => Bool.eq_false_iff.1 hcov ?_
    refine Clock.dominates_iff.2 fun o => ?_
    by_cases ho : o = e.localId
    · subst ho
      exact hbound
    · rw [← hother o ho]
      exact Clock.dominates_iff.1 hd o
  · refine Bool.eq_false_iff.2 fun ha => Bool.eq_false_iff.1 hadm ?_
    obtain ⟨hnext, hrest⟩ := Clock.admits_iff.1 ha
    change ∀ n : Counter, _ → n.toNat = u.clock.count v.origin + 1 at hnext
    change ∀ id, _ → v.clock.count id ≤ u.clock.count id at hrest
    refine Clock.admits_iff.2 ⟨fun n hn => ?_, fun o ho => ?_⟩
    · by_cases ho : v.origin = e.localId
      · have hcount : v.clock.count v.origin = n.toNat := by simp [Clock.count, Clock.get, hn]
        have := hnext n hn
        rw [ho] at hcount this
        omega
      · rw [hnext n hn, hother _ ho]
    · by_cases ho' : o = e.localId
      · subst ho'
        exact hbound
      · rw [← hother o ho']
        exact hrest o ho

namespace Cluster

variable {ι : Type} {ids : ι → NodeId} {c : Cluster ι} {i : ι} {d : Clock} {u : Update}

/-- The clocks that the nodes keep, and those of the updates and snapshots that are under way. -/
inductive Carries (c : Cluster ι) : Clock → Prop
  | live {i : ι} : Carries c (c.node i).engine.clock
  | stored {i : ι} {key : String} {e : Entry} :
      (c.node i).engine.store.get? key = some e → Carries c e.clock
  | buffered {i : ι} {u : Update} : u ∈ (c.node i).engine.pending → Carries c u.clock
  | queued {i : ι} {a : Address} {q : Queued} {u : Update} :
      q ∈ (c.node i).outbox.pendingFor a → q.message = .update u → Carries c u.clock
  /-- The update has yet to be sent to the peers. -/
  | owed {i : ι} {u : Update} : (i, .broadcast u) ∈ c.duties → Carries c u.clock
  | sending {x : Exchange ι} {u : Update} :
      x ∈ c.exchanges → x.errand.message = .update u → Carries c u.clock
  /-- The update waits in the batch of a retry. -/
  | batched {x : Exchange ι} {p : Peer} {q q' : Queued} {rest : List Queued} {u : Update} :
      x ∈ c.exchanges → x.errand = .retry p q rest → q' ∈ rest → q'.message = .update u →
      Carries c u.clock
  /-- A copy of the update may still arrive. -/
  | sent {e : Endpoint} {u : Update} : (e, .update u) ∈ c.sent → Carries c u.clock
  | snapshot {x : Exchange ι} {r : Reply} {s : Snapshot} : x ∈ c.exchanges → x.reply = some r →
      r.message = some (.stateResponse s) → Carries c s.clock
  | snapshotEntry {x : Exchange ι} {r : Reply} {s : Snapshot} {key : String} {e : Entry} :
      x ∈ c.exchanges → x.reply = some r → r.message = some (.stateResponse s) →
      s.store.get? key = some e → Carries c e.clock

theorem Proper.count_le_of_made (H : c.Proper ids) (hu : u ∈ c.made) (o : NodeId) :
    u.clock.count o ≤ writesOf c.made o := by
  obtain ⟨k, hk, -⟩ := H.sound.frozen_of_mem hu
  exact hk.bounded o

/-- A snapshot on its way was taken. -/
theorem Wired.mem_captures (W : c.Wired) {x : Exchange ι} {r : Reply} {s : Snapshot}
    (hx : x ∈ c.exchanges) (hr : x.reply = some r) (hs : r.message = some (.stateResponse s)) :
    ⟨s, r.history⟩ ∈ c.captures := by
  obtain ⟨m, h⟩ := r
  obtain rfl : m = some (.stateResponse s) := hs
  exact W.replies x hx ⟨s, h⟩ (by rw [Exchange.capture?, hr]; rfl)

/-- No clock counts a write that was not made. -/
theorem Carries.count_le (hd : c.Carries d) (H : c.Proper ids) (E : c.group.Everywhere Holds)
    (o : NodeId) : d.count o ≤ writesOf c.made o := by
  have hentry {h : Finset Update} {s : Store} {key : String} {e : Entry} (hs : Holds h s)
      (hmade : ∀ u ∈ h, u ∈ c.made) (he : s.get? key = some e) :
      e.clock.count o ≤ writesOf c.made o := by
    obtain ⟨u, hu, -, rfl⟩ := hs.exists_write key e he
    exact H.count_le_of_made (hmade u hu) o
  cases hd with
  | live => exact (H.sound.live _).bounded o
  | @stored i _ _ he => exact hentry (E.engine i) (fun u hu => (H.sound.live i).mem hu) he
  | buffered hu => exact H.count_le_of_made (H.sound.buffered _ _ hu) o
  | queued hq hu => exact H.count_le_of_made (H.wired.sent _ _ (H.wired.queues _ _ _ hq _ hu)) o
  | owed hu => exact H.count_le_of_made (H.wired.duties _ _ hu) o
  | sending hx hu =>
    have hsent := H.wired.exchanges _ hx
    rw [hu] at hsent
    exact H.count_le_of_made (H.wired.sent _ _ hsent) o
  | batched hx he hq hu =>
    have hsent := H.wired.batches _ hx _ _ _ he _ hq _ hu
    exact H.count_le_of_made (H.wired.sent _ _ hsent) o
  | sent hu => exact H.count_le_of_made (H.wired.sent _ _ hu) o
  | snapshot hx hr hs => exact (H.sound.captured _ (H.wired.mem_captures hx hr hs)).bounded o
  | snapshotEntry hx hr hs he =>
    have hk := H.wired.mem_captures hx hr hs
    exact hentry (E.capture _ hk) (fun u hu => (H.sound.captured _ hk).mem hu) he

/-- A node whose counter is not full can write. Then it has taken the write down, nothing else. -/
theorem Proper.put_eq (H : c.Proper ids)
    (hroom : (c.node i).engine.clock.count (ids i) < UInt64.size - 1) (key value : String) :
    ∃ u, (c.node i).put key value =
        .ok ({ c.node i with engine := (c.node i).engine.record u }, u) ∧
      u.key = key ∧ u.value = value ∧
      (c.node i).engine.clock.increment (ids i) = .ok u.clock ∧
      ((c.node i).engine.record u).reconciled = [] := by
  have hid := H.sound.localId i
  change (c.node i).engine.localId = ids i at hid
  rw [← hid] at hroom ⊢
  obtain ⟨u, hput, hkey, hvalue, hinc⟩ := (c.node i).exists_put hroom key value
  have hset : ((c.node i).engine.record u).Settled := by
    refine (H.settled i).record hinc fun v hv => ?_
    rw [hid]
    exact (H.count_le_of_made (H.sound.buffered i v hv) _).trans (H.sound.own i trivial).ge
  rw [Engine.reconcile_of_settled hset] at hput
  exact ⟨u, hput, hkey, hvalue, hinc, Engine.reconciled_of_settled hset⟩

/-- The clock of a new write is after that of every write in the history of its author. -/
theorem Proper.order_eq_after (H : c.Proper ids)
    (hinc : (c.node i).engine.clock.increment (ids i) = .ok d) (hu : u ∈ c.history i) :
    d.order u.clock = .after := by
  have hdom : (c.node i).engine.clock.dominates u.clock = true := (H.sound.live i).closed u hu
  refine Clock.order_eq_after_iff.2
    ⟨Clock.dominates_trans (Clock.increment_dominates hinc) hdom, ?_⟩
  refine Bool.eq_false_iff.2 fun hback => ?_
  have hle := Clock.dominates_iff.1 (Clock.dominates_trans hdom hback) (ids i)
  have := (Clock.increment_spec hinc).1
  omega

/-- In every run of new nodes with distinct ids, no clock that is kept or under way counts more
writes of a node than the node's own. So where that counter is not full a put succeeds, it drains
nothing of the buffer, its clock is after those of all writes that the node made, applied, took over
or has stored, and the key then reads back. -/
theorem own_counter_is_highest [DecidableEq ι] {node : ι → Node}
    (hids : Function.Injective fun i => (node i).settings.nodeId) (hnew : ∀ i, (node i).Unused)
    (h : Reaches step (fun _ _ => True) (start node) c) (i : ι) :
    (∀ d, c.Carries d → d.count (node i).settings.nodeId ≤
      (c.node i).engine.clock.count (node i).settings.nodeId) ∧
    ((c.node i).engine.clock.count (node i).settings.nodeId < UInt64.size - 1 → ∀ key value,
      ∃ n u, (c.node i).put key value = .ok (n, u) ∧
        ((c.node i).engine.record u).reconciled = [] ∧
        n.engine.pending = (c.node i).engine.pending ∧
        (∀ v, v ∈ c.history i ∨ v ∈ c.made ∧ v.origin = (node i).settings.nodeId →
          u.clock.order v.clock = .after) ∧
        (∀ k e, (c.node i).engine.store.get? k = some e → u.clock.order e.clock = .after) ∧
        n.get key = some value) := by
  obtain ⟨H, E⟩ := holds_of_reaches hids hnew h
  have hown := H.sound.own i trivial
  refine ⟨fun d hd => (hd.count_le H E _).trans hown.ge, fun hroom key value => ?_⟩
  obtain ⟨u, hput, hkey, rfl, hinc, hdrain⟩ := H.put_eq hroom key value
  refine ⟨_, u, hput, hdrain, rfl, fun v hv => ?_, fun k e he => ?_, ?_⟩
  · refine H.order_eq_after hinc (hv.elim id fun ⟨hmade, ho⟩ => ?_)
    exact H.sound.mem_history_of_own hmade ho
  · obtain ⟨v, hv, -, rfl⟩ := (E.engine i).exists_write k e he
    exact H.order_eq_after hinc hv
  · subst hkey
    exact congrArg (Option.map Entry.value)
      (SortedMap.get?_insert_self (c.node i).engine.store u.key u.entry)

/-- The second of two writes that `a` makes, which reaches `b` before the first. -/
def ahead : Update := ⟨"k", "v2", "a", .ofList [("a", 2)]⟩

def overtaking : List (Action Pair) :=
  [.put .a "k" "v1", .put .a "k" "v2", .perform .a (.broadcast ahead),
    .arrive ⟨.a, .send ⟨Pair.b.node.identity, .update ahead⟩, none⟩ .b]

theorem overtaken_node_reads_back : ∃ c, Reaches step (fun _ _ => True) (start neighbours) c ∧
    (c.node .b).engine.pending = [ahead] ∧
    ∃ n u, (c.node .b).put "k" "v3" = .ok (n, u) ∧ n.engine.pending = [ahead] ∧
      n.get "k" = some "v3" := by
  have hids : Function.Injective fun i => (neighbours i).settings.nodeId := by
    unfold Function.Injective; decide
  have hnew : ∀ i, (neighbours i).Unused := fun i => by cases i <;> exact ⟨.new, rfl, rfl⟩
  have hrun : (runAll step (start neighbours) overtaking).map (fun c =>
      ((c.node .b).engine.pending, (c.node .b).engine.clock.count "b")) = some ([ahead], 0) := by
    decide +kernel
  obtain ⟨c, hc, h⟩ := Option.map_eq_some_iff.1 hrun
  obtain ⟨hpend, hzero⟩ := Prod.mk.inj h
  have hreach : Reaches step (fun _ _ => True) (start neighbours) c := .of_runAll hc
  have hroom : (c.node .b).engine.clock.count "b" < UInt64.size - 1 := by rw [hzero]; decide
  obtain ⟨n, u, hput, -, hkept, -, -, hget⟩ :=
    (own_counter_is_highest hids hnew hreach .b).2 hroom "k" "v3"
  exact ⟨c, hreach, hpend, n, u, hput, hkept.trans hpend, hget⟩

end Cluster
end CausalStore
