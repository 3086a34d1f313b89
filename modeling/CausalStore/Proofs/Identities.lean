import CausalStore.Proofs.Delivery

/-!
# Nodes go by their own identities

The identities that nodes list, send messages to, present themselves with or tell of are those of
the nodes themselves (`Cluster.Genuine`), as long as these share no id, address or discovery
endpoint. So an address in a directory means one node, and a message for a peer comes to that node
alone.
-/

namespace CausalStore

/-- No two settings share a node id, an address, or an endpoint for discovery. -/
structure Settings.Distinct {ι : Type} (conf : ι → Settings) : Prop where
  id : Function.Injective fun i => (conf i).nodeId
  address : Function.Injective fun i => (conf i).identity.address
  discovery : Function.Injective fun i => (conf i).identity.endpoint .discovery

theorem Settings.Distinct.same_iff {ι : Type} {conf : ι → Settings} (h : Settings.Distinct conf)
    {i j : ι} : (conf i).identity.same (conf j).identity = true ↔ i = j := by
  rw [Peer.same, Bool.or_eq_true, decide_eq_true_eq, decide_eq_true_eq]
  constructor
  · rintro (hid | haddr)
    · exact h.id hid
    · exact h.address haddr
  · rintro rfl
    exact .inl rfl

theorem Settings.Distinct.same_of_ne {ι : Type} {conf : ι → Settings} (h : Settings.Distinct conf)
    {i j : ι} (hij : i ≠ j) : (conf i).identity.same (conf j).identity = false :=
  Bool.eq_false_iff.2 fun hs => hij (h.same_iff.1 hs)

theorem Settings.Distinct.identity {ι : Type} {conf : ι → Settings} (h : Settings.Distinct conf) :
    Function.Injective fun i => (conf i).identity :=
  fun _ _ heq => h.address (congrArg Peer.address heq)

namespace Cluster

variable {ι : Type} [DecidableEq ι] {conf : ι → Settings} {c c' : Cluster ι} {i j k : ι}
  {writes : ι → Prop} {installs : Cluster ι → ι → Capture → Prop} {p : Peer}

/-- The node has the other one in its directory. -/
def Lists (c : Cluster ι) (i j : ι) : Prop :=
  (c.node j).identity ∈ (c.node i).directory.peers

instance : Decidable (c.Lists i j) := inferInstanceAs (Decidable (_ ∈ _))

/-! ## What a move adds -/

/-- What a move makes of a directory. -/
theorem Move.directory (h : Move writes installs c c') (j : ι) :
    (c'.node j).directory = (c.node j).directory ∨
    (∃ e m p, (e, m) ∈ c.sent ∧ c.Serves j e ∧ m.newcomer? = some p ∧
      p.same (c.node j).identity = false ∧
      (c'.node j).directory = (c.node j).directory.add p) ∨
    ∃ seed ps, c.LetIn j seed ps ∧ (∃ q, (j, .settle q) ∈ c'.duties) ∧
      (c'.node j).directory = (ps.filter fun p => !p.same (c.node j).identity).foldl
        Directory.add (c.node j).directory := by
  have hset {i : ι} {n : Node} {l : Log ι} (hn : n.directory = (c.node i).directory) :
      ((c.set i n l).node j).directory = (c.node j).directory :=
    forall_set_node (P := fun j m => m.directory = (c.node j).directory) hn (fun _ _ => rfl) j
  cases h with
  | @write i _ _ e u =>
    exact .inl (hset (l := (c.group.wrote i e u).toLog) (n := { c.node i with engine := e }) rfl)
  | @install x k =>
    exact .inl (hset (l := (c.group.installed x.source k).toLog) (n := { c.node x.source with
      engine := ((c.node x.source).engine.install k.snapshot).1 }) rfl)
  | @enqueue x s =>
    exact .inl (hset (l := c.toLog) (n := { c.node x.source with
      outbox := (c.node x.source).outbox.enqueue s.peer s.message }) rfl)
  | receive | capture | reconcile | remove => exact .inl (hset rfl)
  | launch | discharge | answer | close | owe => exact .inl rfl
  | @meet i p e m hsent hserves hm =>
    rcases eq_or_ne j i with rfl | hj
    · rw [set_node_self]
      rcases (c.node j).meet_directory p with hd | ⟨hsame, hd⟩
      · exact .inl hd
      · exact .inr (.inl ⟨e, m, p, hsent, hserves, hm, hsame, hd⟩)
    · rw [set_node_of_ne hj]
      exact .inl rfl
  | @learn i ps seed qs p hlet hps hd =>
    rcases eq_or_ne j i with rfl | hj
    · rw [set_node_self]
      subst hps
      exact .inr (.inr ⟨seed, qs, hlet, ⟨p, hd⟩, rfl⟩)
    · rw [set_node_of_ne hj]
      exact .inl rfl

/-- Who enters a directory has presented itself to the node, or the node was told of it. -/
theorem Move.mem_peers (h : Move writes installs c c')
    (hp : p ∈ (c'.node j).directory.peers) : p ∈ (c.node j).directory.peers ∨
    p.same (c.node j).identity = false ∧
      ((∃ e m, (e, m) ∈ c.sent ∧ c.Serves j e ∧ m.newcomer? = some p) ∨
        ∃ seed ps, c.LetIn j seed ps ∧ p ∈ ps ∧ ∃ q, (j, .settle q) ∈ c'.duties) := by
  obtain hd | ⟨e, m, q, hsent, hserves, hm, hsame, hd⟩ | ⟨seed, ps, hlet, hduty, hd⟩ :=
    h.directory j
  · exact .inl (hd ▸ hp)
  · rw [hd] at hp
    rcases Directory.mem_peers_of_add hp with hp | rfl
    · exact .inl hp
    · exact .inr ⟨hsame, .inl ⟨e, m, hsent, hserves, hm⟩⟩
  · rw [hd] at hp
    rcases Directory.mem_peers_of_foldl_add hp with hp | hp
    · exact .inl hp
    · obtain ⟨hmem, hsame⟩ := List.mem_filter.1 hp
      exact .inr ⟨by simpa using hsame, .inr ⟨seed, ps, hlet, hmem, hduty⟩⟩

/-- What a node has to announce, it was let in for. -/
theorem Move.mem_settles (h : Move writes installs c c') (hd : (i, .settle p) ∈ c'.duties) :
    (i, .settle p) ∈ c.duties ∨ ∃ seed ps, c.LetIn i seed ps ∧
      (ps.reverse.find? seed.isAt).or ps.head? = some p := by
  cases h with
  | write =>
    rcases List.mem_cons.1 hd with heq | hd
    · cases heq
    · exact .inl hd
  | owe hlet hp =>
    rcases List.mem_cons.1 hd with heq | hd
    · cases heq
      exact .inr ⟨_, _, hlet, hp⟩
    · exact .inl hd
  | discharge => exact .inl (List.mem_of_mem_erase hd)
  | _ => exact .inl hd

/-- What a move makes of a queue. -/
theorem Move.queue (h : Move writes installs c c') {a : Address} {q : Queue}
    (hq : (c'.node i).outbox.queues.get? a = some q) :
    (∃ q', (c.node i).outbox.queues.get? a = some q' ∧ q.peer = q'.peer ∧
      ∀ m ∈ q.messages, m ∈ q'.messages) ∨
    ∃ x ∈ c.exchanges, ∃ s, x.errand = .send s ∧ a = s.peer.address ∧
      (q = ⟨s.peer, [⟨(c.node i).outbox.nextId, s.message⟩]⟩ ∨
        ∃ q', (c.node i).outbox.queues.get? a = some q' ∧
          q = ⟨q'.peer, q'.messages ++ [⟨(c.node i).outbox.nextId, s.message⟩]⟩) := by
  obtain ⟨hout, -⟩ | ⟨x, hx, s, -, he, hout, -⟩ | ⟨-, -, p, q₀, -, -, -, -, hout, -⟩ :=
    h.outbox i <;> rw [hout] at hq
  · exact .inl ⟨q, hq, rfl, fun _ hm => hm⟩
  · rcases Outbox.queue_of_enqueue hq with hq | ⟨ha, hq⟩
    · exact .inl ⟨q, hq, rfl, fun _ hm => hm⟩
    · exact .inr ⟨x, hx, s, he, ha, hq⟩
  · exact .inl (Outbox.queue_of_remove hq)

/-! ## What the nodes know of each other -/

/-- The node `s` is the seed of `i`. -/
def SeedOf (conf : ι → Settings) (i s : ι) : Prop :=
  (conf i).seed.map Seed.endpoint = some ((conf s).identity.endpoint .discovery)

/-- All identities are those of nodes. Only a node itself presents itself, in requests to its seed
and in announcements to peers that it lists. What it is told, its seed has told it. -/
structure Genuine (conf : ι → Settings) (c : Cluster ι) : Prop where
  settings : ∀ i, (c.node i).settings = conf i
  keyed : ∀ i, (c.node i).directory.Keyed
  peers : ∀ i, ∀ p ∈ (c.node i).directory.peers, ∃ j, j ≠ i ∧ p = (conf j).identity
  requests : ∀ e p, (e, .joinRequest p) ∈ c.sent →
    ∃ i, p = (conf i).identity ∧ (conf i).seed.map Seed.endpoint = some e
  announcements : ∀ e p, (e, .newPeerAnnounce p) ∈ c.sent →
    ∃ i, p = (conf i).identity ∧ ∃ q ∈ (c.node i).directory.peers, e = q.endpoint .discovery
  joins : ∀ i self seed r, ⟨i, .join self seed, r⟩ ∈ c.exchanges →
    self = (conf i).identity ∧ (conf i).seed = some seed
  recipients : ∀ x ∈ c.exchanges, ∀ p, x.errand.recipient? = some p → ∃ j, p = (conf j).identity
  batches : ∀ x ∈ c.exchanges, ∀ p q rest, x.errand = .retry p q rest → ∀ q' ∈ rest,
    (p.endpoint q'.message.channel, q'.message) ∈ c.sent
  queues : ∀ i a q, (c.node i).outbox.queues.get? a = some q → (∃ j, q.peer = (conf j).identity) ∧
    ∀ m ∈ q.messages, (q.peer.endpoint m.message.channel, m.message) ∈ c.sent
  replies : ∀ i seed ps, c.LetIn i seed ps → (conf i).seed = some seed ∧
    (∀ p ∈ ps, ∃ j, p = (conf j).identity) ∧
    ∃ s, SeedOf conf i s ∧ ps.head? = some (conf s).identity ∧ (s ≠ i → c.Lists s i)
  settles : ∀ i p, (i, .settle p) ∈ c.duties → ∃ s, p = (conf s).identity ∧ SeedOf conf i s ∧
    ((conf s).identity.endpoint .discovery, .joinRequest (conf i).identity) ∈ c.sent

namespace Genuine

omit [DecidableEq ι] in
theorem start : (Cluster.start fun i => .fresh (conf i)).Genuine conf where
  settings _ := rfl
  keyed _ := .empty
  peers _ _ hp := absurd hp Directory.not_mem_peers_empty
  requests _ _ hs := nomatch hs
  announcements _ _ hs := nomatch hs
  joins _ _ _ _ hx := nomatch hx
  recipients _ hx := nomatch hx
  batches _ hx := nomatch hx
  queues _ _ q hq := by
    have hq : none = some q := hq
    cases hq
  replies _ _ _ hl := by
    obtain ⟨x, hx, -⟩ := hl
    cases hx
  settles _ _ hd := nomatch hd

variable (hconf : Settings.Distinct conf) (G : c.Genuine conf)

omit [DecidableEq ι] in
include G in
theorem identity (i : ι) : (c.node i).identity = (conf i).identity :=
  congrArg Settings.identity (G.settings i)

omit [DecidableEq ι] in
include G in
/-- Who presents itself is a node, and does so on the channel for that. -/
theorem newcomer {e : Endpoint} {m : Message} (hs : (e, m) ∈ c.sent)
    (hm : m.newcomer? = some p) : (∃ i, p = (conf i).identity) ∧ e.channel = .discovery := by
  cases m with
  | joinRequest q =>
    cases hm
    obtain ⟨i, rfl, he⟩ := G.requests e p hs
    obtain ⟨seed, -, rfl⟩ := Option.map_eq_some_iff.1 he
    exact ⟨⟨i, rfl⟩, rfl⟩
  | newPeerAnnounce q =>
    cases hm
    obtain ⟨i, rfl, q, -, rfl⟩ := G.announcements e p hs
    exact ⟨⟨i, rfl⟩, rfl⟩
  | _ => cases hm

omit [DecidableEq ι] in
include G in
/-- Where a node presents itself that it has not yet presented itself to, it asks its seed, or
announces itself to a peer. -/
theorem ready_newcomer {x : Errand} (hx : c.Ready i x) (hm : x.message.newcomer? = some p) :
    (x.endpoint, x.message) ∈ c.sent ∨
    (∃ seed, (conf i).seed = some seed ∧ x = .join (conf i).identity seed) ∨
    ∃ q ∈ (c.node i).directory.peers, x = .send ⟨q, .newPeerAnnounce (conf i).identity⟩ := by
  cases hx with
  | duty hd hx =>
    obtain ⟨q, hq, m, rfl, ⟨u, -, rfl⟩ | rfl⟩ | ⟨source, rfl⟩ := Duty.errands_cases hx
    · cases hm
    · rw [G.identity]
      exact .inr (.inr ⟨q, hq, rfl⟩)
    · cases hm
  | queue hq => exact .inl ((G.queues i _ _ hq).2 _ List.mem_cons_self)
  | batch hx hi he => exact .inl (G.batches _ hx _ _ _ he _ List.mem_cons_self)
  | join hseed =>
    rw [G.settings] at hseed
    exact .inr (.inl ⟨_, hseed, congrArg (Errand.join · _) (G.identity i)⟩)
  | transfer => cases hm

/-! ### Each move keeps this -/

section
variable (h : Move writes installs c c')
include G h

theorem move_requests {e : Endpoint} (hs : (e, .joinRequest p) ∈ c'.sent) :
    ∃ i, p = (conf i).identity ∧ (conf i).seed.map Seed.endpoint = some e := by
  obtain hs | ⟨i, x, hx, -, heq⟩ := h.mem_sent hs
  · exact G.requests e p hs
  obtain ⟨rfl, hm⟩ := Prod.mk.inj heq
  obtain hold | ⟨seed, hseed, rfl⟩ | ⟨q, -, rfl⟩ := G.ready_newcomer hx (p := p) (by rw [← hm]; rfl)
  · exact G.requests _ p (hm ▸ hold)
  · cases hm
    exact ⟨i, rfl, by rw [hseed]; rfl⟩
  · cases hm

theorem move_announcements {e : Endpoint} (hs : (e, .newPeerAnnounce p) ∈ c'.sent) :
    ∃ i, p = (conf i).identity ∧ ∃ q ∈ (c'.node i).directory.peers, e = q.endpoint .discovery := by
  suffices hold : ∃ i, p = (conf i).identity ∧
      ∃ q ∈ (c.node i).directory.peers, e = q.endpoint .discovery by
    obtain ⟨i, hp, q, hq, he⟩ := hold
    exact ⟨i, hp, q, h.grows.peers i q hq, he⟩
  obtain hs | ⟨i, x, hx, -, heq⟩ := h.mem_sent hs
  · exact G.announcements e p hs
  obtain ⟨rfl, hm⟩ := Prod.mk.inj heq
  obtain hold | ⟨seed, -, rfl⟩ | ⟨q, hq, rfl⟩ := G.ready_newcomer hx (p := p) (by rw [← hm]; rfl)
  · exact G.announcements _ p (hm ▸ hold)
  · cases hm
  · cases hm
    exact ⟨i, rfl, q, hq, rfl⟩

theorem move_joins {self : Peer} {seed : Seed} {r : Option Reply}
    (hx : ⟨i, .join self seed, r⟩ ∈ c'.exchanges) :
    self = (conf i).identity ∧ (conf i).seed = some seed := by
  obtain hx | ⟨hx, -⟩ | ⟨⟨i', e, r'⟩, hy, r, heq, -⟩ := h.mem_exchanges hx
  · exact G.joins i self seed _ hx
  · have hx : c.Ready i (.join self seed) := hx
    cases hx with
    | duty _ hx => obtain ⟨_, -, _, he, -⟩ | ⟨_, he⟩ := Duty.errands_cases hx <;> cases he
    | join hseed => exact ⟨G.identity _, (G.settings _) ▸ hseed⟩
  · cases heq
    exact G.joins _ self seed r' hy

theorem move_recipients {x : Exchange ι} (hx : x ∈ c'.exchanges)
    (hp : x.errand.recipient? = some p) : ∃ j, p = (conf j).identity := by
  obtain hx | ⟨hx, -⟩ | ⟨y, hy, r, rfl, -⟩ := h.mem_exchanges hx
  · exact G.recipients x hx p hp
  · generalize x.errand = e at hx hp
    cases hx with
    | duty _ hx =>
      obtain ⟨q, hq, m, rfl, -⟩ | ⟨source, rfl⟩ := Duty.errands_cases hx
      · cases hp
        obtain ⟨j, -, rfl⟩ := G.peers _ _ hq
        exact ⟨j, rfl⟩
      · cases hp
    | queue hq => cases hp; exact (G.queues _ _ _ hq).1
    | batch hy hi he => cases hp; exact G.recipients _ hy _ (by rw [he]; rfl)
    | join => cases hp
    | transfer => cases hp
  · exact G.recipients y hy p hp

theorem move_batches {x : Exchange ι} (hx : x ∈ c'.exchanges) {q q' : Queued}
    {rest : List Queued} (he : x.errand = .retry p q rest) (hq' : q' ∈ rest) :
    (p.endpoint q'.message.channel, q'.message) ∈ c'.sent := by
  refine h.grows.sent _ ?_
  obtain hx | ⟨hx, -⟩ | ⟨y, hy, r, rfl, -⟩ := h.mem_exchanges hx
  · exact G.batches x hx p q rest he q' hq'
  · rw [he] at hx
    obtain ⟨a, hq⟩ | ⟨y, hy, -, q₀, hye⟩ := hx.retry_cases
    · exact (G.queues _ a _ hq).2 q' (List.mem_cons_of_mem _ hq')
    · exact G.batches y hy p q₀ _ hye q' (List.mem_cons_of_mem _ hq')
  · exact G.batches y hy p q rest he q' hq'

end

include hconf G

omit [DecidableEq ι] in
/-- No node lists itself. -/
theorem ne_of_lists (hl : c.Lists i j) : j ≠ i := by
  obtain ⟨k, hk, heq⟩ := G.peers i _ hl
  rw [G.identity] at heq
  obtain rfl := hconf.identity heq
  exact hk

omit [DecidableEq ι] in
/-- A node lists another one whose address it knows. -/
theorem lists_of_contains
    (h : (c.node i).directory.contains (conf j).identity = true) : c.Lists i j := by
  rw [Lists, G.identity]
  refine (G.keyed i).mem_peers_of_contains h fun q hq ha => ?_
  obtain ⟨k, -, rfl⟩ := G.peers i q hq
  rw [hconf.address ha]

omit [DecidableEq ι] in
theorem lists_of_knows (hij : i ≠ j) (h : (c.node i).Knows (conf j).identity) : c.Lists i j := by
  rcases h with hsame | hcontains
  · rw [G.identity, hconf.same_iff] at hsame
    exact absurd hsame.symm hij
  · exact G.lists_of_contains hconf hcontains

omit [DecidableEq ι] in
/-- The node that a join response was asked of is the one that it names as the seed. -/
theorem seed_of_letIn {seed : Seed} {ps : List Peer} (hlet : c.LetIn i seed ps)
    (hp : (ps.reverse.find? seed.isAt).or ps.head? = some p) :
    ∃ s, p = (conf s).identity ∧ SeedOf conf i s := by
  obtain ⟨hseed, hps, s, hs, hhead, -⟩ := G.replies i seed ps hlet
  refine ⟨s, ?_, hs⟩
  have hend : seed.endpoint = (conf s).identity.endpoint .discovery := by
    rw [SeedOf, hseed] at hs
    exact Option.some.inj hs
  cases hfind : ps.reverse.find? seed.isAt with
  | none => rw [hfind, hhead] at hp; exact (Option.some.inj hp).symm
  | some q =>
    rw [hfind] at hp
    obtain rfl : q = p := Option.some.inj hp
    obtain ⟨j, rfl⟩ := hps q (List.mem_reverse.1 (List.mem_of_find?_eq_some hfind))
    have hat := List.find?_some hfind
    rw [Seed.isAt, Bool.and_eq_true, decide_eq_true_eq, decide_eq_true_eq] at hat
    have hj : (conf j).identity.endpoint .discovery = seed.endpoint := by
      rw [Seed.endpoint, hat.1, hat.2]
      rfl
    rw [hconf.discovery (hj.trans hend)]

omit [DecidableEq ι] in
/-- Who answers a join request tells of itself and of all others that it lists. -/
theorem mem_joinResponse (hij : j ≠ i) (h : j = k ∨ c.Lists k j) : (conf j).identity ∈
    ((c.node k).meet (conf i).identity).membership.joinResponseFor (conf i).identity := by
  rcases h with rfl | hl
  · refine List.mem_cons.2 (.inl ?_)
    rw [← G.identity]
    exact (Node.meet_identity ..).symm
  · refine List.mem_cons_of_mem _ (List.mem_filter.2 ⟨?_, ?_⟩)
    · rw [Lists, G.identity] at hl
      change _ ∈ ((c.node k).meet (conf i).identity).directory.peers
      rcases (c.node k).meet_directory (conf i).identity with hd | ⟨-, hd⟩ <;> rw [hd]
      · exact hl
      · exact Directory.mem_peers_add hl _
    · rw [hconf.same_of_ne hij]
      rfl

variable (h : Move writes installs c c')
include h

theorem move_peers (hp : p ∈ (c'.node i).directory.peers) :
    ∃ j, j ≠ i ∧ p = (conf j).identity := by
  obtain hp | ⟨hsame, hnew⟩ := h.mem_peers hp
  · exact G.peers i p hp
  suffices hp : ∃ j, p = (conf j).identity by
    obtain ⟨j, rfl⟩ := hp
    refine ⟨j, ?_, rfl⟩
    rintro rfl
    rw [G.identity] at hsame
    exact Bool.eq_false_iff.1 hsame (hconf.same_iff.2 rfl)
  obtain ⟨e, m, hs, -, hm⟩ | ⟨seed, ps, hlet, hmem, -⟩ := hnew
  · exact (G.newcomer hs hm).1
  · exact (G.replies i seed ps hlet).2.1 p hmem

theorem move_queues (W : c.Wired) {a : Address} {q : Queue}
    (hq : (c'.node i).outbox.queues.get? a = some q) : (∃ j, q.peer = (conf j).identity) ∧
      ∀ m ∈ q.messages, (q.peer.endpoint m.message.channel, m.message) ∈ c'.sent := by
  suffices hold : (∃ j, q.peer = (conf j).identity) ∧
      ∀ m ∈ q.messages, (q.peer.endpoint m.message.channel, m.message) ∈ c.sent from
    ⟨hold.1, fun m hm => h.grows.sent _ (hold.2 m hm)⟩
  obtain ⟨q', hq', hpeer, hsub⟩ | ⟨x, hx, s, he, rfl, hnew⟩ := h.queue hq
  · rw [hpeer]
    exact ⟨(G.queues i a q' hq').1, fun m hm => (G.queues i a q' hq').2 m (hsub m hm)⟩
  obtain ⟨k, hk⟩ := G.recipients x hx s.peer (by rw [he]; rfl)
  have hsent : (s.peer.endpoint s.message.channel, s.message) ∈ c.sent := by
    have := W.exchanges x hx
    rwa [he] at this
  obtain rfl | ⟨q', hq', rfl⟩ := hnew
  · refine ⟨⟨k, hk⟩, fun m hm => ?_⟩
    rw [List.mem_singleton.1 hm]
    exact hsent
  · obtain ⟨⟨j, hj⟩, hall⟩ := G.queues i _ q' hq'
    -- the queue at the address of the peer is the peer's
    have haddr := W.addressed i _ q' hq'
    rw [hj, hk] at haddr
    obtain rfl := hconf.address haddr
    refine ⟨⟨j, hj⟩, fun m hm => ?_⟩
    rcases List.mem_append.1 hm with hm | hm
    · exact hall m hm
    · rw [List.mem_singleton.1 hm, hj, ← hk]
      exact hsent

theorem move_replies {seed : Seed} {ps : List Peer} (hl : c'.LetIn i seed ps) :
    (conf i).seed = some seed ∧ (∀ p ∈ ps, ∃ j, p = (conf j).identity) ∧
    ∃ s, SeedOf conf i s ∧ ps.head? = some (conf s).identity ∧ (s ≠ i → c'.Lists s i) := by
  have hlists : ∀ s, c.Lists s i → c'.Lists s i := fun s hs => by
    rw [Lists, h.grows.identity]
    exact h.grows.peers s _ hs
  obtain ⟨x, hx, self, k, rfl⟩ := hl
  obtain hx | ⟨-, hr⟩ | ⟨y, hy, r, heq, -, hknows⟩ := h.mem_exchanges hx
  · obtain ⟨hseed, hps, s, hs, hhead, hlist⟩ := G.replies i seed ps ⟨_, hx, self, k, rfl⟩
    exact ⟨hseed, hps, s, hs, hhead, fun hne => hlists s (hlist hne)⟩
  · cases hr
  · obtain ⟨i', errand, reply⟩ := y
    simp only [Exchange.mk.injEq, Option.some.injEq] at heq
    obtain ⟨rfl, rfl, rfl⟩ := heq
    obtain ⟨rfl, hseed⟩ := G.joins _ _ _ _ hy
    obtain ⟨s, hserves, hknown, hps⟩ := hknows _ rfl
    obtain rfl := hps ps rfl
    have hs : SeedOf conf i s := by
      rw [Serves, G.identity] at hserves
      rw [SeedOf, hseed]
      exact congrArg some hserves.symm
    refine ⟨hseed, fun p hp => ?_, s, hs, congrArg some (G.identity s), fun hne => ?_⟩
    · rcases List.mem_cons.1 hp with rfl | hp
      · exact ⟨s, G.identity s⟩
      · obtain ⟨j, -, rfl⟩ := G.peers s p (List.mem_filter.1 hp).1
        exact ⟨j, rfl⟩
    · exact hlists s (G.lists_of_knows hconf hne hknown)

theorem move_settles (W : c.Wired) (hd : (i, .settle p) ∈ c'.duties) :
    ∃ s, p = (conf s).identity ∧ SeedOf conf i s ∧
      ((conf s).identity.endpoint .discovery, .joinRequest (conf i).identity) ∈ c'.sent := by
  obtain hd | ⟨seed, ps, hlet, hp⟩ := h.mem_settles hd
  · obtain ⟨s, hp, hs, hsent⟩ := G.settles i p hd
    exact ⟨s, hp, hs, h.grows.sent _ hsent⟩
  · obtain ⟨s, hp, hs⟩ := G.seed_of_letIn hconf hlet hp
    refine ⟨s, hp, hs, h.grows.sent _ ?_⟩
    obtain ⟨x, hx, self, k, rfl⟩ := hlet
    obtain ⟨rfl, hseed⟩ := G.joins _ _ _ _ hx
    have hsent := W.exchanges _ hx
    rw [SeedOf, hseed] at hs
    exact Option.some.inj hs ▸ hsent

theorem move (W : c.Wired) : c'.Genuine conf where
  settings i := (h.grows.settings i).trans (G.settings i)
  keyed i := by
    obtain hd | ⟨_, _, p, -, -, -, -, hd⟩ | ⟨_, ps, -, -, hd⟩ := h.directory i
    · exact hd ▸ G.keyed i
    · exact hd ▸ (G.keyed i).add p
    · exact hd ▸ (G.keyed i).foldl_add _
  peers _ _ hp := G.move_peers hconf h hp
  requests _ _ hs := G.move_requests h hs
  announcements _ _ hs := G.move_announcements h hs
  joins _ _ _ _ hx := G.move_joins h hx
  recipients _ hx _ hp := G.move_recipients h hx hp
  batches _ hx _ _ _ he _ hq := G.move_batches h hx he hq
  queues _ _ _ hq := G.move_queues hconf h W hq
  replies _ _ _ hl := G.move_replies hconf h hl
  settles _ _ hd := G.move_settles hconf h W hd

end Genuine

end Cluster
end CausalStore
