import CausalStore.Proofs.Moves

/-!
# What nodes send to whom, and what comes back

The identities that nodes keep, send to and tell of are those of nodes, even where nodes share ids
or addresses. So whatever is sent goes to an endpoint of a node, and there to the channel of the
message (`Errand.Sincere.endpoint`), and what comes back is what the message asks for
(`Message.AnsweredBy`).
-/

namespace CausalStore

variable {ι : Type} {conf : ι → Settings}

/-- The identity is that of a node. -/
def Peer.Real (conf : ι → Settings) (p : Peer) : Prop := ∃ j, p = (conf j).identity

/-- Every seed is the place where some node takes discovery messages. -/
def Settings.Seeded (conf : ι → Settings) : Prop :=
  ∀ i seed, (conf i).seed = some seed →
    ∃ j, seed = ⟨(conf j).advertisedHost, (conf j).discoveryPort⟩

namespace Message

/-- Not a reply; and whoever presents itself is a node. -/
def Sincere (conf : ι → Settings) : Message → Prop
  | joinRequest p | newPeerAnnounce p => p.Real conf
  | update _ | stateRequest => True
  | joinResponse _ | stateResponse _ => False

/-- The reply is what the message asks for. -/
def AnsweredBy : Message → Option Message → Prop
  | joinRequest _, some (joinResponse ps) => ps ≠ []
  | stateRequest, some (stateResponse _) => True
  | update _, none | newPeerAnnounce _, none => True
  | _, _ => False

/-- The reply is what the message asks for, and tells of nodes only. -/
structure Answered (conf : ι → Settings) (m : Message) (r : Option Message) : Prop where
  kind : m.AnsweredBy r
  real : ∀ ps, r = some (.joinResponse ps) → ∀ p ∈ ps, p.Real conf

end Message

/-! ## Nodes -/

namespace Node

/-- The node goes by its settings, and knows no identities but those of nodes. -/
structure Sincere (conf : ι → Settings) (i : ι) (n : Node) : Prop where
  settings : n.settings = conf i
  peers : ∀ p ∈ n.directory.peers, p.Real conf
  queues : ∀ a q, n.outbox.queues.get? a = some q →
    q.peer.Real conf ∧ ∀ m ∈ q.messages, m.message.Sincere conf

namespace Sincere

variable {n n' : Node} {i : ι}

theorem fresh (i : ι) : (Node.fresh (conf i)).Sincere conf i where
  settings := rfl
  peers _ hp := absurd hp Directory.not_mem_peers_empty
  queues _ _ hq := nomatch hq

theorem identity (h : n.Sincere conf i) : n.identity = (conf i).identity :=
  congrArg Settings.identity h.settings

theorem real (h : n.Sincere conf i) : n.identity.Real conf := ⟨i, h.identity⟩

theorem engine (h : n.Sincere conf i) (e : Engine) : ({ n with engine := e } : Node).Sincere conf i :=
  ⟨h.settings, h.peers, h.queues⟩

theorem meet (h : n.Sincere conf i) {p : Peer} (hp : p.Real conf) : (n.meet p).Sincere conf i where
  settings := (n.meet_settings p).trans h.settings
  peers q hq := by
    rcases n.meet_directory p with hd | ⟨-, hd⟩ <;> rw [hd] at hq
    · exact h.peers q hq
    · rcases Directory.mem_peers_of_add hq with hq | rfl
      · exact h.peers q hq
      · exact hp
  queues := n.meet_outbox p ▸ h.queues

theorem learnAll (h : n.Sincere conf i) {ps : List Peer} (hps : ∀ p ∈ ps, p.Real conf) :
    (n.learnAll ps).Sincere conf i where
  settings := h.settings
  peers q hq := (Directory.mem_peers_of_foldl_add hq).elim (h.peers q) (hps q)
  queues := h.queues

theorem afterSend (h : n.Sincere conf i) {s : Send} (hp : s.peer.Real conf)
    (hm : s.message.Sincere conf) (o : Outcome) : (n.afterSend s o).Sincere conf i where
  settings := h.settings
  peers := h.peers
  queues a q hq := by
    cases o with
    | ok r => exact h.queues a q hq
    | error e =>
      obtain hq | ⟨-, rfl | ⟨q', hq', rfl⟩⟩ := Outbox.queue_of_enqueue hq
      · exact h.queues a q hq
      · exact ⟨hp, fun m hmem => List.mem_singleton.1 hmem ▸ hm⟩
      · obtain ⟨hpeer, hall⟩ := h.queues a q' hq'
        refine ⟨hpeer, fun m hmem => ?_⟩
        rcases List.mem_append.1 hmem with hmem | hmem
        · exact hall m hmem
        · exact List.mem_singleton.1 hmem ▸ hm

theorem afterRetry (h : n.Sincere conf i) (p : Peer) (id : UInt64) (o : Outcome) :
    (n.afterRetry p id o).Sincere conf i where
  settings := h.settings
  peers := h.peers
  queues a q hq := by
    cases o with
    | error e => exact h.queues a q hq
    | ok r =>
      obtain ⟨q', hq', hpeer, hsub⟩ := Outbox.queue_of_remove hq
      obtain ⟨hreal, hall⟩ := h.queues a q' hq'
      exact ⟨hpeer ▸ hreal, fun m hm => hall m (hsub m hm)⟩

theorem joinResponseFor (h : n.Sincere conf i) (p : Peer) :
    ∀ q ∈ n.membership.joinResponseFor p, q.Real conf := by
  intro q hq
  rcases List.mem_cons.1 hq with rfl | hq
  · exact h.real
  · exact h.peers q (List.mem_filter.1 hq).1

/-- A node takes every sincere message on its own channel, and gives the answer that it asks for. -/
theorem handleOn (h : n.Sincere conf i) {m : Message} (hm : m.Sincere conf) :
    ∃ n' r, n.handleOn m.channel m = .ok (n', r) ∧ n'.Sincere conf i ∧ m.Answered conf r := by
  unfold Node.handleOn
  rw [if_pos rfl]
  cases m with
  | update u => exact ⟨_, _, rfl, h.engine _, trivial, nofun⟩
  | newPeerAnnounce p => exact ⟨_, _, rfl, h.meet hm, trivial, nofun⟩
  | joinRequest p =>
    refine ⟨_, _, rfl, h.meet hm, List.cons_ne_nil _ _, fun ps hps => ?_⟩
    cases hps
    exact (h.meet hm).joinResponseFor p
  | stateRequest => exact ⟨_, _, rfl, h, trivial, nofun⟩
  | joinResponse ps => exact hm.elim
  | stateResponse s => exact hm.elim

end Sincere

variable {n : Node} {o : Outcome}

/-- A join whose request failed or was answered as it asks ends in no other error. -/
theorem concludeJoin_error {p : Peer} {seed : Seed} {e : RequestError}
    (ho : ∀ r, o = .ok r → (Message.joinRequest p).AnsweredBy r)
    (h : n.concludeJoin seed o = .error e) : ∃ cause, e = .exchange cause := by
  cases o with
  | error cause => cases h; exact ⟨cause, rfl⟩
  | ok r =>
    have hr := ho r rfl
    obtain _ | m := r
    · exact hr.elim
    cases m with
    | joinResponse ps =>
      cases ps with
      | nil => exact absurd rfl hr
      | cons q ps =>
        obtain ⟨joined, hjoin, -⟩ := n.concludeJoin_joinResponse seed q ps
        rw [hjoin] at h
        cases h
    | _ => exact hr.elim

/-- Likewise for taking over the state of a peer. -/
theorem concludeTransfer_error {e : RequestError}
    (ho : ∀ r, o = .ok r → Message.stateRequest.AnsweredBy r)
    (h : n.concludeTransfer o = .error e) : ∃ cause, e = .exchange cause := by
  cases o with
  | error cause => cases h; exact ⟨cause, rfl⟩
  | ok r =>
    have hr := ho r rfl
    obtain _ | m := r
    · exact hr.elim
    cases m with
    | stateResponse s => cases h
    | _ => exact hr.elim

end Node

/-! ## What is under way -/

namespace Errand

/-- What is sent is sincere, and those that it goes to are nodes. -/
def Sincere (conf : ι → Settings) : Errand → Prop
  | send s => s.peer.Real conf ∧ s.message.Sincere conf
  | retry p q rest => p.Real conf ∧ ∀ m ∈ q :: rest, m.message.Sincere conf
  | join self seed => self.Real conf ∧
    ∃ j, seed = ⟨(conf j).advertisedHost, (conf j).discoveryPort⟩
  | transfer source => source.Real conf

variable {x : Errand}

theorem Sincere.message (h : x.Sincere conf) : x.message.Sincere conf := by
  cases x with
  | send s => exact h.2
  | retry p q rest => exact h.2 q List.mem_cons_self
  | join self seed => exact h.1
  | transfer source => trivial

/-- Whatever a node sends goes to where some node takes messages of its channel. -/
theorem Sincere.endpoint (h : x.Sincere conf) :
    ∃ j, x.endpoint = (conf j).identity.endpoint x.message.channel := by
  cases x with
  | send s =>
    obtain ⟨⟨j, hj⟩, -⟩ := h
    exact ⟨j, congrArg (Peer.endpoint · s.message.channel) hj⟩
  | retry p q rest =>
    obtain ⟨⟨j, hj⟩, -⟩ := h
    exact ⟨j, congrArg (Peer.endpoint · q.message.channel) hj⟩
  | join self seed =>
    obtain ⟨-, j, rfl⟩ := h
    exact ⟨j, rfl⟩
  | transfer source =>
    obtain ⟨j, rfl⟩ := h
    exact ⟨j, rfl⟩

end Errand

/-- What a node has yet to do is sincere as soon as its node is. -/
theorem Node.Sincere.errands {n : Node} {i : ι} (h : n.Sincere conf i) {d : Duty}
    (hd : ∀ p, d = .settle p → p.Real conf) : ∀ x ∈ d.errands n, x.Sincere conf := by
  intro x hx
  cases d with
  | broadcast u =>
    obtain ⟨s, hs, rfl⟩ := List.mem_map.1 hx
    obtain ⟨p, hp, rfl⟩ := List.mem_map.1 hs
    exact ⟨h.peers p hp, trivial⟩
  | settle seed =>
    rcases List.mem_append.1 hx with hx | hx
    · obtain ⟨s, hs, rfl⟩ := List.mem_map.1 hx
      obtain ⟨p, hp, rfl⟩ := List.mem_map.1 hs
      exact ⟨h.peers p (List.mem_filter.1 hp).1, h.real⟩
    · exact List.mem_singleton.1 hx ▸ hd seed rfl

/-- The exchange is sincere, and so is its reply once there is one. -/
structure Exchange.Sincere (conf : ι → Settings) (x : Exchange ι) : Prop where
  errand : x.errand.Sincere conf
  reply : ∀ r, x.reply = some r → x.errand.message.Answered conf r.message

theorem Exchange.Sincere.outcome {x : Exchange ι} (h : x.Sincere conf)
    {failure : Option ExchangeError} {o : Outcome} (ho : x.outcome? failure = some o)
    {r : Option Message} (hr : o = .ok r) : x.errand.message.Answered conf r := by
  subst hr
  obtain ⟨e, -, he⟩ | ⟨-, reply, hreply, hor⟩ := Exchange.outcome?_eq_some ho
  · cases he
  · cases hor
    exact h.reply reply hreply

namespace Cluster

/-- Nodes, duties and exchanges are sincere, and so is whatever was sent. -/
structure Sincere (conf : ι → Settings) (c : Cluster ι) : Prop where
  nodes : ∀ i, (c.node i).Sincere conf i
  settles : ∀ i p, (i, .settle p) ∈ c.duties → p.Real conf
  exchanges : ∀ x ∈ c.exchanges, x.Sincere conf
  sent : ∀ e m, (e, m) ∈ c.sent →
    m.Sincere conf ∧ ∃ j, e = (conf j).identity.endpoint m.channel

namespace Sincere

variable [DecidableEq ι] {c c' : Cluster ι} {i : ι} {n : Node} {x : Exchange ι}
  {failure : Option ExchangeError} {o : Outcome}

omit [DecidableEq ι] in
theorem start : (Cluster.start fun i => .fresh (conf i)).Sincere conf where
  nodes := .fresh
  settles _ _ hd := nomatch hd
  exchanges _ hx := nomatch hx
  sent _ _ hs := nomatch hs

/-! ### Each part of a step keeps this -/

theorem set (h : c.Sincere conf) (hn : n.Sincere conf i) (l : Log ι) : (c.set i n l).Sincere conf where
  nodes := forall_set_node (P := fun j m => m.Sincere conf j) hn fun j _ => h.nodes j
  settles := h.settles
  exchanges := h.exchanges
  sent := h.sent

omit [DecidableEq ι] in
theorem owe (h : c.Sincere conf) {d : Duty} (hd : ∀ p, d = .settle p → p.Real conf) :
    (c.owe i d).Sincere conf where
  nodes := h.nodes
  settles j p hmem := by
    rcases List.mem_cons.1 hmem with heq | hmem
    · obtain ⟨-, rfl⟩ := Prod.mk.inj heq
      exact hd p rfl
    · exact h.settles j p hmem
  exchanges := h.exchanges
  sent := h.sent

omit [DecidableEq ι] in
theorem launch (h : c.Sincere conf) {xs : List Errand} (hxs : ∀ x ∈ xs, x.Sincere conf) :
    (c.launch i xs).Sincere conf where
  nodes := h.nodes
  settles := h.settles
  exchanges x hx := by
    rcases List.mem_append.1 hx with hx | hx
    · exact h.exchanges x hx
    · obtain ⟨y, hy, rfl⟩ := List.mem_map.1 hx
      exact ⟨hxs y hy, nofun⟩
  sent e m hs := by
    rcases List.mem_append.1 hs with hs | hs
    · obtain ⟨y, hy, heq⟩ := List.mem_map.1 hs
      obtain ⟨rfl, rfl⟩ := Prod.mk.inj heq
      exact ⟨(hxs y hy).message, (hxs y hy).endpoint⟩
    · exact h.sent e m hs

theorem discharge (h : c.Sincere conf) (d : Duty) : (c.discharge i d).Sincere conf :=
  { h with settles := fun j p hd => h.settles j p (List.mem_of_mem_erase hd) }

theorem close (h : c.Sincere conf) (x : Exchange ι) : (c.close x).Sincere conf :=
  { h with exchanges := fun y hy => h.exchanges y (List.mem_of_mem_erase hy) }

theorem answer (h : c.Sincere conf) {r : Reply} (hx : x.errand.Sincere conf)
    (hr : x.errand.message.Answered conf r.message) : (c.answer x r).Sincere conf where
  nodes := h.nodes
  settles := h.settles
  exchanges y hy := by
    rcases List.mem_cons.1 hy with rfl | hy
    · refine ⟨hx, fun r' hr' => ?_⟩
      cases hr'
      exact hr
    · exact h.exchanges y (List.mem_of_mem_erase hy)
  sent := h.sent

theorem afterJoin (h : c.Sincere conf) {self : Peer} {seed : Seed}
    (ho : ∀ r, o = .ok r → (Message.joinRequest self).Answered conf r) :
    (c.afterJoin i seed o).Sincere conf := by
  unfold Cluster.afterJoin
  split
  · exact h
  next n joined hj =>
    obtain ⟨ps, rfl, hlearned, hseed, rfl⟩ := Node.concludeJoin_eq_ok hj
    have hps := (ho _ rfl).real ps rfl
    have hlearn : ((c.node i).learnAll joined.learned).Sincere conf i := by
      rw [hlearned]
      exact (h.nodes i).learnAll fun p hp => hps p (List.mem_filter.1 hp).1
    refine (h.set hlearn c.toLog).owe fun p hp => ?_
    cases hp
    rcases Option.or_eq_some_iff.1 hseed with hfind | ⟨-, hhead⟩
    · exact hps _ (List.mem_reverse.1 (List.mem_of_find?_eq_some hfind))
    · exact hps _ (List.mem_of_head? hhead)

theorem afterTransfer (h : c.Sincere conf) (k : Option Capture) (o : Outcome) :
    (c.afterTransfer i k o).Sincere conf := by
  unfold Cluster.afterTransfer
  split
  next n report k hn =>
    obtain ⟨s, -, rfl⟩ := Node.concludeTransfer_eq_ok hn
    have hset := h.set ((h.nodes i).engine ((c.node i).engine.install s).1)
      (c.group.installed i k).toLog
    exact ⟨hset.nodes, hset.settles, hset.exchanges, hset.sent⟩
  next => exact h

theorem conclude (h : c.Sincere conf) (hx : x ∈ c.exchanges) (ho : x.outcome? failure = some o) :
    (c.conclude x o).Sincere conf := by
  have hsincere := h.exchanges x hx
  have hout := fun r => hsincere.outcome ho (r := r)
  have hnode := h.nodes x.source
  obtain ⟨i, errand, reply⟩ := x
  cases errand with
  | send s =>
    obtain ⟨hp, hm⟩ := hsincere.errand
    have hset := h.set (hnode.afterSend hp hm o) c.toLog
    exact ⟨hset.nodes, hset.settles, hset.exchanges, hset.sent⟩
  | retry p q rest =>
    obtain ⟨hp, hall⟩ := hsincere.errand
    refine (h.set (hnode.afterRetry p q.id o) c.toLog).launch fun y hy => ?_
    cases rest with
    | nil => cases hy
    | cons q' rest =>
      obtain rfl := List.mem_singleton.1 hy
      exact ⟨hp, fun m hm => hall m (List.mem_cons_of_mem _ hm)⟩
  | join self seed => exact h.afterJoin hout
  | transfer source => exact h.afterTransfer _ o

end Sincere

end Cluster
end CausalStore
