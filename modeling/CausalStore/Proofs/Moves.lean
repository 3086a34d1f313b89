import CausalStore.Proofs.ClockListing
import CausalStore.Proofs.Clusters
import CausalStore.Proofs.Completeness
import CausalStore.Proofs.Directories
import CausalStore.Proofs.Queues
import Mathlib.Logic.Relation

/-!
# The moves of a cluster

Every step of a cluster is made of a few moves that change one thing each (`Cluster.step_moves`). A
property that the moves keep, whatever exchange, queue or node they touch, therefore holds of every
run.
-/

namespace CausalStore

/-- Where updates for the address are sent. -/
def Address.updates (a : Address) : Endpoint := ⟨a.host, a.port, .replication⟩

theorem Address.updates_inj {a b : Address} (h : a.updates = b.updates) : a = b := by
  cases a; cases b; cases h; rfl

/-- To take note of servers changes nothing but the clock. -/
theorem Engine.addServers_eq (e : Engine) (ps : List Peer) :
    ps.foldl (fun e p => e.addServer p.id) e =
      { e with clock := e.clock.addDimensions (ps.map (·.id)) } := by
  induction ps generalizing e with
  | nil => rfl
  | cons p ps ih => exact ih (e.addServer p.id)

namespace Node

variable {n n' : Node} {key value : String} {u : Update} {channel : Channel} {m : Message}
  {r : Option Message} {seed : Seed} {o : Outcome} {joined : JoinOutcome} {report : InstallReport}

/-- The node when it has taken in the peers of a join response. -/
def learnAll (n : Node) (ps : List Peer) : Node :=
  { n with
    directory := ps.foldl Directory.add n.directory
    engine := ps.foldl (fun e p => e.addServer p.id) n.engine }

theorem put_eq_ok (h : n.put key value = .ok (n', u)) :
    ∃ e, n.engine.write key value = .ok (e, u) ∧ n' = { n with engine := e } := by
  unfold put at h
  cases hw : n.engine.write key value with
  | error c => rw [hw] at h; cases h
  | ok p => rw [hw] at h; cases h; exact ⟨p.1, rfl, rfl⟩

/-- A node whose counter is not full can write. -/
theorem exists_put (n : Node) (h : n.engine.clock.count n.engine.localId < UInt64.size - 1)
    (key value : String) : ∃ u,
      n.put key value = .ok ({ n with engine := (n.engine.record u).reconcile.1 }, u) ∧
      u.key = key ∧ u.value = value ∧
      n.engine.clock.increment n.engine.localId = .ok u.clock := by
  obtain ⟨clock, hclock⟩ := Clock.exists_increment h
  let u : Update := ⟨key, value, n.engine.localId, clock⟩
  have hwrite : n.engine.write key value = .ok ((n.engine.record u).reconcile.1, u) :=
    Engine.write_eq_ok_iff.2 ⟨rfl, rfl, rfl, hclock, rfl⟩
  refine ⟨u, ?_, rfl, rfl, hclock⟩
  rw [put, hwrite]
  rfl

/-- The ways in which a node takes a message. -/
theorem handleOn_cases (h : n.handleOn channel m = .ok (n', r)) :
    (∃ u, m = .update u ∧ n' = { n with engine := (n.engine.receive u).1 } ∧ r = none) ∨
    (∃ p, m.newcomer? = some p ∧ n' = n.meet p ∧
      (r = none ∨ r = some (.joinResponse (n'.membership.joinResponseFor p)))) ∨
    (m = .stateRequest ∧ n' = n ∧ r = some (.stateResponse n.engine.capture)) := by
  unfold handleOn at h
  split at h
  · cases m with
    | update u => cases h; exact .inl ⟨u, rfl, rfl, rfl⟩
    | joinRequest p => cases h; exact .inr (.inl ⟨p, rfl, rfl, .inr rfl⟩)
    | newPeerAnnounce p => cases h; exact .inr (.inl ⟨p, rfl, rfl, .inl rfl⟩)
    | stateRequest => cases h; exact .inr (.inr ⟨rfl, rfl, rfl⟩)
    | joinResponse ps => cases h
    | stateResponse s => cases h
  · cases h

theorem joinReply_eq_ok {ps : List Peer} (h : Membership.joinReply o = .ok ps) :
    o = .ok (some (.joinResponse ps)) := by
  unfold Membership.joinReply at h
  rcases o with e | (_ | m)
  · cases h
  · cases h
  · cases m with
    | joinResponse qs => cases h; rfl
    | _ => cases h

theorem concludeJoin_eq_ok (h : n.concludeJoin seed o = .ok (n', joined)) :
    ∃ ps, o = .ok (some (.joinResponse ps)) ∧
      joined.learned = ps.filter (fun p => !p.same n.identity) ∧
      (ps.reverse.find? seed.isAt).or ps.head? = some joined.seed ∧
      n' = n.learnAll joined.learned := by
  unfold concludeJoin at h
  cases hm : n.membership.concludeJoin seed o with
  | error e => rw [hm] at h; cases h
  | ok p =>
    obtain ⟨membership, joined'⟩ := p
    rw [hm] at h
    cases h
    unfold Membership.concludeJoin at hm
    cases hr : Membership.joinReply o with
    | error e => rw [hr] at hm; cases hm
    | ok ps =>
      rw [hr] at hm
      simp only [bind, Except.bind, Membership.absorb] at hm
      split at hm
      · cases hm
      next answered hanswered =>
        cases hm
        exact ⟨ps, joinReply_eq_ok hr, rfl, hanswered, rfl⟩

/-- A response that names somebody is taken in. -/
theorem concludeJoin_joinResponse (n : Node) (seed : Seed) (p : Peer) (ps : List Peer) :
    ∃ joined, n.concludeJoin seed (.ok (some (.joinResponse (p :: ps)))) =
        .ok (n.learnAll joined.learned, joined) ∧
      joined.learned = (p :: ps).filter fun q => !q.same n.identity := by
  obtain ⟨answered, hanswered⟩ : ∃ answered,
      ((p :: ps).reverse.find? seed.isAt).or (p :: ps).head? = some answered := by
    cases (p :: ps).reverse.find? seed.isAt with
    | some q => exact ⟨q, rfl⟩
    | none => exact ⟨p, rfl⟩
  refine ⟨⟨answered, (p :: ps).filter fun q => !q.same n.identity⟩, ?_, rfl⟩
  have habsorb : n.membership.absorb seed (p :: ps) = .ok
      (⟨n.identity, ((p :: ps).filter fun q => !q.same n.identity).foldl .add n.directory⟩,
        ⟨answered, (p :: ps).filter fun q => !q.same n.identity⟩) := by
    rw [Membership.absorb, hanswered]
    rfl
  have hjoin : n.membership.concludeJoin seed (.ok (some (.joinResponse (p :: ps)))) =
      n.membership.absorb seed (p :: ps) := rfl
  rw [concludeJoin, hjoin, habsorb]
  rfl

theorem concludeTransfer_eq_ok (h : n.concludeTransfer o = .ok (n', report)) :
    ∃ s, o = .ok (some (.stateResponse s)) ∧ n' = { n with engine := (n.engine.install s).1 } := by
  unfold concludeTransfer at h
  rcases o with e | (_ | m)
  · cases h
  · cases h
  · cases m with
    | stateResponse s => cases h; exact ⟨s, rfl, rfl⟩
    | _ => cases h

end Node

/-- A duty asks for messages to peers, and in the end for the state of the seed. -/
theorem Duty.errands_cases {n : Node} {d : Duty} {x : Errand} (h : x ∈ d.errands n) :
    (∃ p ∈ n.directory.peers, ∃ m, x = .send ⟨p, m⟩ ∧
      ((∃ u, d = .broadcast u ∧ m = .update u) ∨ m = .newPeerAnnounce n.identity)) ∨
    ∃ source, x = .transfer source := by
  cases d with
  | broadcast u =>
    obtain ⟨s, hs, rfl⟩ := List.mem_map.1 h
    obtain ⟨p, hp, rfl⟩ := List.mem_map.1 hs
    exact .inl ⟨p, hp, _, rfl, .inl ⟨u, rfl, rfl⟩⟩
  | settle seed =>
    rcases List.mem_append.1 h with h | h
    · obtain ⟨s, hs, rfl⟩ := List.mem_map.1 h
      obtain ⟨p, hp, rfl⟩ := List.mem_map.1 hs
      exact .inl ⟨p, (List.mem_filter.1 hp).1, _, rfl, .inr rfl⟩
    · exact .inr ⟨seed, List.mem_singleton.1 h⟩

/-- A node that settles in announces itself to each peer that counts neither as its seed nor as
itself. -/
theorem Duty.mem_errands_settle {n : Node} {p seed : Peer} (hp : p ∈ n.directory.peers)
    (hseed : p.same seed = false) (hself : p.same n.identity = false) :
    .send ⟨p, .newPeerAnnounce n.identity⟩ ∈ (Duty.settle seed).errands n := by
  refine List.mem_append_left _ (List.mem_map_of_mem (List.mem_map.2 ⟨p, ?_, rfl⟩))
  refine List.mem_filter.2 ⟨hp, ?_⟩
  change (!p.same seed && !p.same n.identity) = true
  rw [hseed, hself]
  rfl

theorem Exchange.outcome?_eq_some {ι : Type} {x : Exchange ι} {failure : Option ExchangeError}
    {o : Outcome} (h : x.outcome? failure = some o) :
    (∃ e, failure = some e ∧ o = .error e) ∨
      failure = none ∧ ∃ r, x.reply = some r ∧ o = .ok r.message := by
  cases failure with
  | some e => cases h; exact .inl ⟨e, rfl, rfl⟩
  | none =>
    obtain ⟨r, hr, rfl⟩ := Option.map_eq_some_iff.1 h
    exact .inr ⟨rfl, r, hr, rfl⟩

theorem Reply.capture?_eq_some {r : Reply} {k : Capture} (h : r.capture? = some k) :
    r = ⟨some (.stateResponse k.snapshot), k.history⟩ := by
  unfold capture? at h
  split at h
  · cases h; rfl
  · cases h

namespace Cluster

variable {ι : Type} [DecidableEq ι] {c c' : Cluster ι} {i j : ι} {n : Node} {l : Log ι}

/-- The update was sent to the address. -/
def Sent (c : Cluster ι) (a : Address) (u : Update) : Prop := (a.updates, Message.update u) ∈ c.sent

/-- A join request of the node to the seed was answered with the list. -/
def LetIn (c : Cluster ι) (i : ι) (seed : Seed) (ps : List Peer) : Prop :=
  ∃ x ∈ c.exchanges, ∃ self h, x = ⟨i, .join self seed, some ⟨some (.joinResponse ps), h⟩⟩

/-- Why a node may start an exchange. -/
inductive Ready (c : Cluster ι) (i : ι) : Errand → Prop
  | duty {d : Duty} {x : Errand} : (i, d) ∈ c.duties → x ∈ d.errands (c.node i) → Ready c i x
  | queue {a : Address} {p : Peer} {q : Queued} {rest : List Queued} :
      (c.node i).outbox.queues.get? a = some ⟨p, q :: rest⟩ → Ready c i (.retry p q rest)
  | batch {x : Exchange ι} {p : Peer} {q q' : Queued} {rest : List Queued} : x ∈ c.exchanges →
      x.source = i → x.errand = .retry p q (q' :: rest) → Ready c i (.retry p q' rest)
  | join {seed : Seed} : (c.node i).settings.seed = some seed →
      Ready c i (.join (c.node i).identity seed)
  | transfer {p : Peer} : Ready c i (.transfer p)

omit [DecidableEq ι] in
/-- A retry comes from a queue, or from a batch that has begun. -/
theorem Ready.retry_cases {p : Peer} {q : Queued} {rest : List Queued}
    (h : c.Ready i (.retry p q rest)) :
    (∃ a, (c.node i).outbox.queues.get? a = some ⟨p, q :: rest⟩) ∨
      ∃ x ∈ c.exchanges, x.source = i ∧ ∃ q₀, x.errand = .retry p q₀ (q :: rest) := by
  cases h with
  | duty _ hx => obtain ⟨_, -, _, he, -⟩ | ⟨_, he⟩ := Duty.errands_cases hx <;> cases he
  | queue hq => exact .inl ⟨_, hq⟩
  | batch hx hi he => exact .inr ⟨_, hx, hi, _, he⟩

/-- A change of one thing. `writes` says who may write, `installs` who may install what. -/
inductive Move (writes : ι → Prop) (installs : Cluster ι → ι → Capture → Prop) (c : Cluster ι) :
    Cluster ι → Prop
  | write {i : ι} {key value : String} {e : Engine} {u : Update} : writes i →
      (c.node i).engine.write key value = .ok (e, u) →
      Move writes installs c
        ((c.set i { c.node i with engine := e } (c.group.wrote i e u).toLog).owe i (.broadcast u))
  | launch {i : ι} {xs : List Errand} : (∀ x ∈ xs, c.Ready i x) →
      Move writes installs c (c.launch i xs)
  | discharge {i : ι} {d : Duty} :
      (∀ x ∈ d.errands (c.node i), (x.endpoint, x.message) ∈ c.sent) →
      Move writes installs c (c.discharge i d)
  | receive {j : ι} {u : Update} : c.Sent (c.node j).identity.address u →
      Move writes installs c (c.set j { c.node j with engine := ((c.node j).engine.receive u).1 }
        (c.group.received j u).toLog)
  | meet {j : ι} {p : Peer} {e : Endpoint} {m : Message} : (e, m) ∈ c.sent → c.Serves j e →
      m.newcomer? = some p → Move writes installs c (c.set j ((c.node j).meet p) c.toLog)
  | capture {j : ι} : Move writes installs c (c.set j (c.node j) (c.group.captured j).toLog)
  | reconcile {i : ι} :
      Move writes installs c (c.set i (c.node i).reconcile (c.group.reconciled i).toLog)
  | learn {i : ι} {ps : List Peer} {seed : Seed} {qs : List Peer} {p : Peer} :
      c.LetIn i seed qs → ps = qs.filter (fun p => !p.same (c.node i).identity) →
      (i, .settle p) ∈ c.duties →
      Move writes installs c (c.set i ((c.node i).learnAll ps) c.toLog)
  | install {x : Exchange ι} {k : Capture} : x ∈ c.exchanges → x.capture? = some k →
      installs c x.source k →
      Move writes installs c
        { c.set x.source
            { c.node x.source with
              engine := ((c.node x.source).engine.install k.snapshot).1 }
            (c.group.installed x.source k).toLog with
          installs := (x.source, k) :: c.installs }
  | answer {x : Exchange ι} {r : Reply} : x ∈ c.exchanges →
      (∀ u, x.errand.message = .update u →
        ∃ j, c.Serves j x.errand.endpoint ∧ (c.node j).engine.Has u) →
      (∀ k, r.capture? = some k → k ∈ c.captures) →
      (∀ p, x.errand.message.newcomer? = some p →
        ∃ j, c.Serves j x.errand.endpoint ∧ (c.node j).Knows p ∧
          ∀ ps, r.message = some (.joinResponse ps) →
            ps = (c.node j).membership.joinResponseFor p) →
      Move writes installs c (c.answer x r)
  | close {x : Exchange ι} :
      (∀ s, x.errand = .send s → x.reply = none →
        ∃ q ∈ (c.node x.source).outbox.pendingFor s.peer.address, q.message = s.message) →
      Move writes installs c (c.close x)
  | enqueue {x : Exchange ι} {s : Send} : x ∈ c.exchanges → x.errand = .send s →
      Move writes installs c
        { c.set x.source
            { c.node x.source with
              outbox := (c.node x.source).outbox.enqueue s.peer s.message }
            c.toLog with
          queued := Function.update c.queued x.source (c.queued x.source + 1) }
  | remove {x : Exchange ι} {p : Peer} {q : Queued} {rest : List Queued} : x ∈ c.exchanges →
      x.errand = .retry p q rest → x.reply ≠ none →
      Move writes installs c
        (c.set x.source
          { c.node x.source with outbox := (c.node x.source).outbox.remove p.address q.id } c.toLog)
  | owe {i : ι} {p : Peer} {seed : Seed} {ps : List Peer} : c.LetIn i seed ps →
      (ps.reverse.find? seed.isAt).or ps.head? = some p →
      Move writes installs c (c.owe i (.settle p))

/-- Any number of moves. -/
abbrev Moves (writes : ι → Prop) (installs : Cluster ι → ι → Capture → Prop) :
    Cluster ι → Cluster ι → Prop :=
  Relation.ReflTransGen (Move writes installs)

variable {writes : ι → Prop} {installs : Cluster ι → ι → Capture → Prop} {a : Action ι}

theorem set_self : c.set i (c.node i) c.toLog = c := by
  unfold set
  rw [Function.update_eq_self]

theorem set_node_self : (c.set i n l).node i = n := Function.update_self ..

theorem set_node_of_ne (h : j ≠ i) : (c.set i n l).node j = c.node j := Function.update_of_ne h ..

/-- What holds of the node that is set and of all others holds of each node. -/
theorem forall_set_node {P : ι → Node → Prop} (hi : P i n) (hne : ∀ j, j ≠ i → P j (c.node j))
    (j : ι) : P j ((c.set i n l).node j) := by
  rcases eq_or_ne j i with rfl | hj
  · rwa [set_node_self]
  · rw [set_node_of_ne hj]
    exact hne j hj

theorem set_serves (hn : n.settings = (c.node i).settings) {e : Endpoint} :
    (c.set i n l).Serves j e ↔ c.Serves j e := by
  have hsettings : ((c.set i n l).node j).settings = (c.node j).settings :=
    forall_set_node (P := fun j m => m.settings = (c.node j).settings) hn (fun _ _ => rfl) j
  rw [Serves, Node.identity, hsettings]
  rfl

omit [DecidableEq ι] in
theorem Serves.updates {e : Endpoint} (h : c.Serves j e) (he : e.channel = .replication) :
    e = (c.node j).identity.address.updates := by
  rw [Serves, he] at h
  exact h.symm

/-! ## What the steps are made of -/

/-- The node that handles a message makes one move, after which it has the update that the message
carried, and knows the peer that presents itself in it. The snapshot that it sends back is among
those that were taken. -/
theorem handle_move {e : Endpoint} {m : Message} {r : Reply}
    (h : c.handle j e.channel m = some (c', r)) (hsent : (e, m) ∈ c.sent) (hj : c.Serves j e) :
    Move writes installs c c' ∧ c'.exchanges = c.exchanges ∧
    (∀ u, m = .update u → ∃ j, c'.Serves j e ∧ (c'.node j).engine.Has u) ∧
    (∀ k, r.capture? = some k → k ∈ c'.captures) ∧
    ∀ p, m.newcomer? = some p → ∃ j, c'.Serves j e ∧ (c'.node j).Knows p ∧
      ∀ ps, r.message = some (.joinResponse ps) →
        ps = (c'.node j).membership.joinResponseFor p := by
  unfold handle at h
  split at h
  · cases h
  next n reply hn =>
  obtain ⟨rfl, rfl⟩ := Prod.mk.inj (Option.some.inj h)
  clear h
  have hchannel : m.channel = e.channel := by
    unfold Node.handleOn at hn
    split at hn
    next h => exact h
    next => cases hn
  obtain ⟨u, rfl, rfl, rfl⟩ | ⟨p, hm, rfl, hr⟩ | ⟨rfl, rfl, rfl⟩ := Node.handleOn_cases hn
  · have he := hj.updates hchannel.symm
    refine ⟨.receive (by rwa [Sent, ← he]), rfl, fun v hv => ?_, fun k hk => (by cases hk), nofun⟩
    cases hv
    refine ⟨j, (set_serves (by exact rfl)).2 hj, ?_⟩
    rw [set_node_self]
    exact Engine.has_receive ..
  · have hhandled : c.handled j m = c.toLog := by cases m <;> first | rfl | cases hm
    rw [hhandled]
    refine ⟨.meet hsent hj hm, rfl, fun v hv => ?_, fun k hk => ?_, fun p' hp' => ?_⟩
    · subst hv
      cases hm
    · have hk := congrArg Reply.message (Reply.capture?_eq_some hk)
      rcases hr with rfl | rfl <;> cases hk
    · obtain rfl : p = p' := Option.some.inj (hm.symm.trans hp')
      refine ⟨j, (set_serves (Node.meet_settings ..)).2 hj, ?_, fun ps hps => ?_⟩
      · rw [set_node_self]
        exact Node.meet_knows ..
      · rw [set_node_self]
        rcases hr with rfl | rfl
        · cases hps
        · exact (Message.joinResponse.inj (Option.some.inj hps)).symm
  · refine ⟨.capture, rfl, nofun, fun k hk => ?_, nofun⟩
    cases hk
    exact List.mem_cons_self

theorem afterSend_moves {x : Exchange ι} {s : Send} (o : Outcome) (hx : x ∈ c.exchanges)
    (he : x.errand = .send s) : Moves writes installs c (c.afterSend x.source s o) := by
  cases o with
  | error e => exact .single (.enqueue hx he)
  | ok r =>
    have : c.afterSend x.source s (.ok r) = c := by
      simp only [afterSend, Function.update_eq_self]
      exact set_self (c := c) (i := x.source)
    rw [this]

theorem afterRetry_moves {x : Exchange ι} {p : Peer} {q : Queued} {rest : List Queued}
    {failure : Option ExchangeError} {o : Outcome} (hx : x ∈ c.exchanges)
    (he : x.errand = .retry p q rest) (ho : x.outcome? failure = some o) :
    Moves writes installs c (c.afterRetry x.source p q rest o) := by
  have hlaunch : ∀ {c' : Cluster ι}, c'.exchanges = c.exchanges →
      Move writes installs c' (c'.launch x.source (Errand.batch p rest)) := by
    refine fun hc' => .launch fun y hy => ?_
    cases rest with
    | nil => cases hy
    | cons q' rest =>
      rw [List.mem_singleton.1 hy]
      exact .batch (hc' ▸ hx) rfl he
  obtain ⟨e, rfl, rfl⟩ | ⟨rfl, r, hr, rfl⟩ := Exchange.outcome?_eq_some ho
  · have : c.afterRetry x.source p q rest (.error e) = c.launch x.source (Errand.batch p rest) := by
      simp only [afterRetry]
      exact congrArg (launch · x.source (Errand.batch p rest)) set_self
    rw [this]
    exact .single (hlaunch rfl)
  · refine .tail (.single (.remove hx he ?_)) (hlaunch rfl)
    rw [hr]
    exact Option.some_ne_none r

omit [DecidableEq ι] in
theorem letIn_of_outcome? {self : Peer} {seed : Seed} {x : Exchange ι}
    {failure : Option ExchangeError} {ps : List Peer} (hx : x ∈ c.exchanges)
    (he : x.errand = .join self seed)
    (ho : x.outcome? failure = some (.ok (some (.joinResponse ps)))) :
    c.LetIn x.source seed ps := by
  obtain ⟨e, -, hr⟩ | ⟨-, ⟨m, h⟩, hr, hm⟩ := Exchange.outcome?_eq_some ho
  · cases hr
  obtain ⟨i, errand, reply⟩ := x
  obtain rfl : errand = .join self seed := he
  obtain rfl : reply = some ⟨m, h⟩ := hr
  cases hm
  exact ⟨_, hx, self, h, rfl⟩

theorem afterJoin_moves {self : Peer} {seed : Seed} {x : Exchange ι}
    {failure : Option ExchangeError} {o : Outcome} (hx : x ∈ c.exchanges)
    (he : x.errand = .join self seed) (ho : x.outcome? failure = some o) :
    Moves writes installs c (c.afterJoin x.source seed o) := by
  unfold afterJoin
  split
  · exact .refl
  next n joined hj =>
    obtain ⟨ps, rfl, hlearned, hseed, rfl⟩ := Node.concludeJoin_eq_ok hj
    have hlet := letIn_of_outcome? hx he ho
    exact .tail (.single (.owe hlet hseed)) (.learn hlet hlearned List.mem_cons_self)

theorem afterTransfer_moves {x : Exchange ι} {failure : Option ExchangeError} {o : Outcome}
    (hx : x ∈ c.exchanges) (ho : x.outcome? failure = some o)
    (hI : ∀ k, x.capture? = some k → failure = none → installs c x.source k) :
    Moves writes installs c (c.afterTransfer x.source x.capture? o) := by
  unfold afterTransfer
  split
  next n report k hn hk =>
    obtain ⟨s, rfl, rfl⟩ := Node.concludeTransfer_eq_ok hn
    obtain ⟨e, -, he⟩ | ⟨hf, r, hr, hor⟩ := Exchange.outcome?_eq_some ho
    · cases he
    obtain rfl : s = k.snapshot := by
      rw [Exchange.capture?, hr] at hk
      rw [Reply.capture?_eq_some hk] at hor
      cases hor
      rfl
    exact .single (.install hx hk (hI k hk hf))
  next => exact .refl

theorem finish_moves {x : Exchange ι} {failure : Option ExchangeError}
    (hI : ∀ i k, installing (.finish x failure) = some (i, k) → installs c i k)
    (h : c.finish x failure = some c') : Moves writes installs c c' := by
  simp only [finish, Option.ite_none_right_eq_some, Option.map_eq_some_iff] at h
  obtain ⟨hx, o, ho, rfl⟩ := h
  obtain ⟨i, errand, reply⟩ := x
  cases errand with
  | send s =>
    refine .tail (afterSend_moves o hx rfl) (.close fun s' hs' hr => ?_)
    cases hs'
    obtain ⟨e, rfl, rfl⟩ | ⟨-, r, hr', -⟩ := Exchange.outcome?_eq_some ho
    · refine ⟨⟨(c.node i).outbox.nextId, s.message⟩, ?_, rfl⟩
      simp only [afterSend]
      rw [set_node_self]
      exact Outbox.mem_enqueue.2 (.inr ⟨rfl, rfl⟩)
    · cases hr.symm.trans hr'
  | retry p q rest => exact .tail (afterRetry_moves hx rfl ho) (.close fun s hs => by cases hs)
  | join self seed => exact .tail (afterJoin_moves hx rfl ho) (.close fun s hs => by cases hs)
  | transfer source =>
    refine .tail (afterTransfer_moves hx ho fun k hk hf => hI i k ?_)
      (.close fun s hs => by cases hs)
    subst hf
    exact congrArg (Option.map _) hk

/-- A step is made of moves, in which only who puts writes, and only a transfer that ends in the
step installs. -/
theorem step_moves (hsent : ∀ x ∈ c.exchanges, (x.errand.endpoint, x.errand.message) ∈ c.sent)
    (hW : ∀ i key value, a = .put i key value → writes i)
    (hI : ∀ i k, installing a = some (i, k) → installs c i k) (h : c.step a = some c') :
    Moves writes installs c c' := by
  cases a with
  | put i key value =>
    simp only [step, put] at h
    split at h
    · cases h
    next n u hn =>
      obtain ⟨e, he, rfl⟩ := Node.put_eq_ok hn
      cases h
      exact .single (.write (hW i key value rfl) he)
  | perform i d =>
    simp only [step, perform, Option.ite_none_right_eq_some, Option.some.injEq] at h
    obtain ⟨hd, rfl⟩ := h
    refine .tail (.single (.launch fun x hx => .duty hd hx)) (.discharge fun x hx => ?_)
    exact List.mem_append_left _ (List.mem_map_of_mem hx)
  | retry i a =>
    simp only [step, retry] at h
    split at h
    next p q rest hq =>
      cases h
      exact .single (.launch fun x hx => List.mem_singleton.1 hx ▸ .queue hq)
    next => cases h
  | join i =>
    simp only [step, join, Option.map_eq_some_iff] at h
    obtain ⟨seed, hseed, rfl⟩ := h
    exact .single (.launch fun x hx => List.mem_singleton.1 hx ▸ .join hseed)
  | bootstrap i source =>
    cases h
    exact .single (.launch fun x hx => List.mem_singleton.1 hx ▸ .transfer)
  | reconcile i => cases h; exact .single .reconcile
  | arrive x j =>
    simp only [step, arrive, Option.ite_none_right_eq_some, Option.map_eq_some_iff] at h
    obtain ⟨⟨hx, -, hj⟩, ⟨c₁, r⟩, hc₁, rfl⟩ := h
    obtain ⟨hmove, hex, hhas, hcap, hknows⟩ := handle_move hc₁ (hsent x hx) hj
    exact .tail (.single hmove) (.answer (hex ▸ hx) hhas hcap hknows)
  | stray e m j =>
    simp only [step, stray, Option.ite_none_right_eq_some, Option.map_eq_some_iff] at h
    obtain ⟨⟨he, hj⟩, ⟨c₁, r⟩, hc₁, rfl⟩ := h
    exact .single (handle_move hc₁ he hj).1
  | finish x failure => exact finish_moves hI h

end Cluster
end CausalStore
