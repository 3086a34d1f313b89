import CausalStore.Proofs.Handshakes
import CausalStore.Simulation.Cluster

/-!
# Attempts to join

A node that joins makes two exchanges, and what it records in between stays recorded. An attempt that
fails leaves nothing behind all the same, and one that is let in but gets no state changes no data:
the node knows more peers, and has announced itself (`Node.Widened`). The nodes of the simulation
join in this way (`Simulation.World.join_eq_join`).
-/

namespace CausalStore

open Simulation (JoinReport)

namespace Membership

/-! ## A join response, entry by entry -/

/-- What came of the entries of a join response so far. -/
structure Absorption where
  directory : Directory
  /-- The last one at the place of the seed. -/
  answered : Option Peer
  learned : List Peer

def Absorption.take (self : Peer) (seed : Seed) (x : Absorption) (p : Peer) : Absorption where
  directory := if p.same self then x.directory else x.directory.add p
  answered := if seed.isAt p then some p else x.answered
  learned := if p.same self then x.learned else x.learned ++ [p]

/-- Records one entry after the other, before it is known whether there is a seed among them. -/
def absorbEach (m : Membership) (seed : Seed) (ps : List Peer) : Absorption :=
  ps.foldl (Absorption.take m.self seed) ⟨m.directory, none, []⟩

theorem Absorption.foldl_take (self : Peer) (seed : Seed) (x : Absorption) (ps : List Peer) :
    ps.foldl (take self seed) x =
      ⟨(ps.filter fun p => !p.same self).foldl .add x.directory,
        (ps.reverse.find? seed.isAt).or x.answered,
        x.learned ++ ps.filter fun p => !p.same self⟩ := by
  induction ps generalizing x with
  | nil => simp
  | cons p ps ih =>
    rw [List.foldl_cons, ih, List.reverse_cons, List.find?_append, Option.or_assoc]
    by_cases hself : p.same self = true <;> by_cases hseed : seed.isAt p = true <;>
      simp [take, hself, hseed]

theorem absorbEach_eq (m : Membership) (seed : Seed) (ps : List Peer) : m.absorbEach seed ps =
    ⟨(ps.filter fun p => !p.same m.self).foldl .add m.directory, ps.reverse.find? seed.isAt,
      ps.filter fun p => !p.same m.self⟩ := by
  rw [absorbEach, Absorption.foldl_take, Option.or_none, List.nil_append]

end Membership

/-! ## Joining -/

namespace Node

/-- How the exchanges of a node that joins end. -/
structure JoinEnds where
  request : Outcome
  transfer : Outcome
  /-- The announcements whose first attempts have ended, in that order. -/
  announced : List (Send × Outcome)

/-- What a node takes over at the end of a state request, if it can. -/
def takeOver (n : Node) (o : Outcome) : Option InstallReport × Node :=
  match n.concludeTransfer o with
  | .ok (n, report) => (some report, n)
  | .error _ => (none, n)

/-- A node that was let in announces itself and takes over the state of its seed. -/
def settleIn (n : Node) (joined : JoinOutcome) (x : JoinEnds) : JoinReport × Node :=
  let sends := n.announcements joined.seed
  let taken := n.takeOver x.transfer
  (⟨joined.seed, joined.learned, sends.map (·.peer), taken.1⟩,
    (x.announced.filter fun e => e.1 ∈ sends).foldl (fun n e => n.afterSend e.1 e.2) taken.2)

/-- What a node reports of an attempt to join, and what has become of it. What it recorded before an
error stays recorded. -/
def join (n : Node) (x : JoinEnds) : Except RequestError (Option JoinReport) × Node :=
  match n.settings.seed with
  | none => (.ok none, n)
  | some seed =>
    match Membership.joinReply x.request with
    | .error e => (.error e, n)
    | .ok ps =>
      let found := n.membership.absorbEach seed ps
      let n := { n with directory := found.directory }
      match found.answered.or ps.head? with
      | none => (.error (.emptyJoinResponse seed), n)
      | some answered =>
        let engine := found.learned.foldl (fun e p => e.addServer p.id) n.engine
        let (report, n) := { n with engine }.settleIn ⟨answered, found.learned⟩ x
        (.ok (some report), n)

variable {n : Node} {seed : Seed} {x : JoinEnds} {p : Peer} {ps : List Peer}

/-- What is recorded before it turns out that there is no seed is nothing. -/
theorem join_eq (h : n.settings.seed = some seed) (x : JoinEnds) : n.join x =
    match n.concludeJoin seed x.request with
    | .error e => (.error e, n)
    | .ok (n', joined) => (.ok (some (n'.settleIn joined x).1), (n'.settleIn joined x).2) := by
  rw [join, h, concludeJoin, Membership.concludeJoin]
  cases Membership.joinReply x.request with
  | error e => rfl
  | ok ps =>
    simp only [Membership.absorbEach_eq, bind, Except.bind, Membership.absorb]
    cases hanswered : (ps.reverse.find? seed.isAt).or ps.head? with
    | some answered => rfl
    | none =>
      obtain rfl : ps = [] := List.head?_eq_none_iff.1 (Option.or_eq_none_iff.1 hanswered).2
      rfl

/-! ## What an attempt leaves -/

/-- Between `n` and `n'` the node learned of peers and has announced itself to some, and nothing
else. -/
structure Widened (n n' : Node) (report : JoinReport) : Prop where
  settings : n'.settings = n.settings
  localId : n'.engine.localId = n.engine.localId
  store : n'.engine.store = n.engine.store
  pending : n'.engine.pending = n.engine.pending
  counters : ∀ id, n'.engine.clock.get id = n.engine.clock.get id
  dimensions : ∀ id, n'.engine.clock.contains id = true ↔
    n.engine.clock.contains id = true ∨ id ∈ report.learned.map (·.id)
  entries : ∀ a, n'.directory.byAddress.get? a =
    (n.directory.byAddress.get? a).or (report.learned.find? (·.address = a))
  queues : ∀ a, ∃ added, n'.outbox.pendingFor a = n.outbox.pendingFor a ++ added ∧
    ∀ q ∈ added, q.message = .newPeerAnnounce n.identity ∧
      a ∈ report.announcedTo.map (·.address)

namespace Widened

variable {n' : Node} {report : JoinReport}

theorem learnAll (n : Node) (h : report.learned = ps) : n.Widened (n.learnAll ps) report := by
  have hengine : (n.learnAll ps).engine =
      { n.engine with clock := n.engine.clock.addDimensions (ps.map (·.id)) } :=
    n.engine.addServers_eq ps
  refine
    { settings := rfl
      localId := by rw [hengine]
      store := by rw [hengine]
      pending := by rw [hengine]
      counters := fun id => Engine.get_addServers
      dimensions := fun id => h ▸ Engine.contains_addServers
      entries := fun a => h ▸ Directory.get?_foldl_add n.directory ps a
      queues := fun a => ⟨[], (List.append_nil _).symm, nofun⟩ }

/-- An announcement that fails is queued behind what waits for the peer. -/
theorem afterSend (h : n.Widened n' report) (hp : p ∈ report.announcedTo) (o : Outcome) :
    n.Widened (n'.afterSend ⟨p, .newPeerAnnounce n.identity⟩ o) report :=
  { h with
    queues := fun a => by
      cases o with
      | ok reply => exact h.queues a
      | error cause =>
        obtain ⟨added, hqueue, hadded⟩ := h.queues a
        rcases eq_or_ne a p.address with rfl | ha
        · refine ⟨added ++ [⟨n'.outbox.nextId, .newPeerAnnounce n.identity⟩], ?_, fun q hq => ?_⟩
          · rw [← List.append_assoc, ← hqueue]
            exact Outbox.pendingFor_enqueue_self
          · rcases List.mem_append.1 hq with hq | hq
            · exact hadded q hq
            · rw [List.mem_singleton.1 hq]
              exact ⟨rfl, List.mem_map_of_mem hp⟩
        · exact ⟨added, (Outbox.pendingFor_enqueue_of_ne ha).trans hqueue, hadded⟩ }

theorem afterSends (h : n.Widened n' report) {es : List (Send × Outcome)}
    (hes : ∀ e ∈ es, e.1.peer ∈ report.announcedTo ∧ e.1.message = .newPeerAnnounce n.identity) :
    n.Widened (es.foldl (fun n e => n.afterSend e.1 e.2) n') report := by
  induction es generalizing n' with
  | nil => exact h
  | cons e es ih =>
    obtain ⟨⟨p, m⟩, o⟩ := e
    obtain ⟨⟨hp, rfl⟩, hrest⟩ := List.forall_mem_cons.1 hes
    exact ih (h.afterSend hp o) hrest

end Widened

theorem takeOver_of_no_state {o : Outcome} (h : ∀ s, o ≠ .ok (some (.stateResponse s)))
    (n : Node) : n.takeOver o = (none, n) := by
  rw [takeOver]
  cases hend : n.concludeTransfer o with
  | error e => rfl
  | ok r =>
    obtain ⟨s, hs, -⟩ := concludeTransfer_eq_ok hend
    exact absurd hs (h s)

theorem takeOver_identity (n : Node) (o : Outcome) : (n.takeOver o).2.identity = n.identity := by
  rw [takeOver]
  cases hend : n.concludeTransfer o with
  | error e => rfl
  | ok r =>
    obtain ⟨n', report⟩ := r
    obtain ⟨s, -, rfl⟩ := concludeTransfer_eq_ok hend
    rfl

/-- Without a state nothing is taken over, and what is announced leaves the data alone. -/
theorem settleIn_of_no_state {joined : JoinOutcome}
    (h : ∀ s, x.transfer ≠ .ok (some (.stateResponse s))) :
    ((n.learnAll joined.learned).settleIn joined x).1.installed = none ∧
      n.Widened ((n.learnAll joined.learned).settleIn joined x).2
        ((n.learnAll joined.learned).settleIn joined x).1 := by
  have htaken := takeOver_of_no_state h (n.learnAll joined.learned)
  rw [settleIn, htaken]
  have hlearned (report : JoinReport) (h : report.learned = joined.learned) :
      n.Widened (n.learnAll joined.learned) report := .learnAll n h
  refine ⟨rfl, (hlearned _ rfl).afterSends fun e he => ?_⟩
  have hsend := of_decide_eq_true (List.mem_filter.1 he).2
  obtain ⟨p, hp, heq⟩ := List.mem_map.1 hsend
  exact ⟨List.mem_map_of_mem hsend, by rw [← heq]; rfl⟩

/-- An attempt to join fails exactly if the request brings no list of members that names anybody, and
then it leaves everything as it was. If no state comes after it the node has learned of the members
and announced itself, and its data, its buffer and all counters are as they were. -/
theorem join_all_or_nothing (h : n.settings.seed = some seed) (x : JoinEnds) :
    ((∃ e, (n.join x).1 = .error e) ↔
      ∀ p ps, x.request ≠ .ok (some (.joinResponse (p :: ps)))) ∧
    ((∃ e, (n.join x).1 = .error e) → (n.join x).2 = n) ∧
    ∀ p ps, x.request = .ok (some (.joinResponse (p :: ps))) →
      ∃ report, (n.join x).1 = .ok (some report) ∧
        report.learned = (p :: ps).filter (fun q => !q.same n.identity) ∧
        ((∀ s, x.transfer ≠ .ok (some (.stateResponse s))) →
          report.installed = none ∧ n.Widened (n.join x).2 report) := by
  rw [join_eq h]
  cases hend : n.concludeJoin seed x.request with
  | error e =>
    have hno : ∀ p ps, x.request ≠ .ok (some (.joinResponse (p :: ps))) := by
      intro p ps hrequest
      obtain ⟨joined, hjoin, -⟩ := n.concludeJoin_joinResponse seed p ps
      rw [hrequest, hjoin] at hend
      cases hend
    exact ⟨iff_of_true ⟨e, rfl⟩ hno, fun _ => rfl, fun p ps hrequest => absurd hrequest (hno p ps)⟩
  | ok r =>
    obtain ⟨n', joined⟩ := r
    obtain ⟨qs, hrequest, hlearned, hanswered, hn⟩ := concludeJoin_eq_ok hend
    have hnot : ¬ ∃ e, (.ok (some (n'.settleIn joined x).1) : Except RequestError _) = .error e :=
      nofun
    obtain ⟨p, ps, rfl⟩ : ∃ p ps, qs = p :: ps := by
      cases qs with
      | nil => cases hanswered
      | cons p ps => exact ⟨p, ps, rfl⟩
    refine ⟨iff_of_false hnot fun hno => hno p ps hrequest, fun herror => absurd herror hnot, ?_⟩
    intro p' ps' hrequest'
    cases hrequest.symm.trans hrequest'
    exact ⟨_, rfl, hlearned, fun hstate => hn ▸ settleIn_of_no_state hstate⟩

/-! A node that has data, an update that waits, and a peer is let in, and told of itself and twice of
the seed. Then the seed cannot be reached any more, and neither can the peer. -/

def applicant : Node :=
  (fresh { Settings.onLoopback "b" 8000 with seed := some ⟨"a", 7002⟩ }).actAll
    [.put "k" "v", .handle (.update ⟨"k", "w", "c", .ofList [("c", 2)]⟩),
      .handle (.newPeerAnnounce ⟨"c", "c", 9001, 9002, 9003⟩)]

def cutOff : JoinEnds where
  request := .ok (some (.joinResponse
    [⟨"a", "a", 7001, 7002, 7003⟩, ⟨"b", "127.0.0.1", 1, 2, 3⟩, ⟨"a", "a", 7001, 7002, 7003⟩]))
  transfer := .error (.unreachable "a:7003 (state-transfer)" "connection refused")
  announced := [(⟨⟨"c", "c", 9001, 9002, 9003⟩, .newPeerAnnounce applicant.identity⟩,
    .error (.unreachable "c:9002 (discovery)" "connection refused"))]

theorem cutOff_widens : applicant.settings.seed = some ⟨"a", 7002⟩ ∧
    applicant.engine.pending.length = 1 ∧
    ∃ report, (applicant.join cutOff).1 = .ok (some report) ∧
      report.learned.map (·.id) = ["a", "a"] ∧ report.installed = none ∧
      applicant.Widened (applicant.join cutOff).2 report := by
  have hseed : applicant.settings.seed = some ⟨"a", 7002⟩ := by decide +kernel
  obtain ⟨report, hreport, hlearned, hrest⟩ := (join_all_or_nothing hseed cutOff).2.2 _ _ rfl
  obtain ⟨hinstalled, hwidened⟩ := hrest nofun
  refine ⟨hseed, by decide +kernel, report, hreport, ?_, hinstalled, hwidened⟩
  rw [hlearned]
  decide +kernel

end Node

/-! ## The nodes of the simulation -/

theorem Peer.same_self (p : Peer) : p.same p = true := by
  simp [same]

/-- What a node says of itself is no news to it. -/
theorem Node.handleOn_own {n n' : Node} {c : Channel} {m : Message} {r : Option Message}
    (hm : m = .joinRequest n.identity ∨ m = .newPeerAnnounce n.identity ∨ m = .stateRequest)
    (h : n.handleOn c m = .ok (n', r)) : n' = n := by
  have hmeet : n.meet n.identity = n := by rw [meet, if_pos n.identity.same_self]
  rcases hm with rfl | rfl | rfl <;> rw [handleOn] at h <;> split at h <;> cases h
  · exact hmeet
  · exact hmeet
  · rfl

namespace Simulation.World

variable {w : World} {number : Nat} {n : Node}

/-- The node is in the world, no exchange takes its time, and nobody waits for one. -/
structure Has (w : World) (number : Nat) (n : Node) : Prop where
  node : w.nodes.get? number = some n
  modes : ∀ host, (w.network.mode host).delay = 0
  awaited : w.awaited = []

theorem Has.set (h : w.Has number n) (n' : Node) : (w.set number n').Has number n' :=
  ⟨SortedMap.get?_insert_self .., h.modes, h.awaited⟩

theorem Has.latest (h : w.Has number n) (n' : Node) : w.latest number n' = n := by
  rw [World.latest, h.node]
  rfl

/-- A message that is no news to the node leaves it as it is, wherever it comes. -/
theorem Has.arrive (h : w.Has number n) (e : Endpoint) {m : Message}
    (hm : ∀ c n' r, n.handleOn c m = .ok (n', r) → n' = n) : (w.arrive e m).2.Has number n := by
  unfold World.arrive
  dsimp only
  split
  · exact { h with }
  · split
    · exact h
    next route hroute =>
      split
      · exact h
      next receiver hreceiver =>
        split
        · exact { h with }
        next receiver' reply hhandle =>
          rcases eq_or_ne route.node number with rfl | hne
          · cases h.node.symm.trans hreceiver
            cases hm _ _ _ hhandle
            exact { h with node := SortedMap.get?_insert_self .. }
          · exact { h with node := (SortedMap.get?_insert_of_ne _ hne.symm _).trans h.node }

theorem Has.contact (h : w.Has number n) (e : Endpoint) {m : Message}
    (hm : ∀ c n' r, n.handleOn c m = .ok (n', r) → n' = n) :
    ∃ o w', w.contact e m = (.ended o, w') ∧ w'.Has number n := by
  unfold World.contact
  split
  · exact ⟨_, w, rfl, h⟩
  · dsimp only
    split
    next error _ =>
      rw [if_pos (h.modes e.host)]
      exact ⟨.error error, w, rfl, h⟩
    · exact ⟨_, _, rfl, h.arrive e hm⟩

theorem Has.exchange (h : w.Has number n) (e : Endpoint) {m : Message}
    (hm : ∀ c n' r, n.handleOn c m = .ok (n', r) → n' = n) :
    ∃ o w', w.exchange e m = (o, w') ∧ w'.Has number n := by
  obtain ⟨o, w', hcontact, h'⟩ := h.contact e hm
  exact ⟨o, w', by rw [World.exchange, hcontact], h'⟩

/-- The announcements of a node all come to their end. -/
theorem Has.sendAll (h : w.Has number n) {sends : List Send}
    (hsends : ∀ s ∈ sends, s.message = .newPeerAnnounce n.identity) :
    ∃ es : List (Send × Outcome), es.map (·.1) = sends ∧
      (w.sendAll number sends).Has number (es.foldl (fun n e => n.afterSend e.1 e.2) n) := by
  induction sends generalizing w n with
  | nil => exact ⟨[], rfl, h⟩
  | cons s sends ih =>
    obtain ⟨hs, hrest⟩ := List.forall_mem_cons.1 hsends
    obtain ⟨o, w', hcontact, h'⟩ := h.contact s.endpoint (m := s.message) fun c n' r =>
      Node.handleOn_own (.inr (.inl hs))
    have hsend : w.send number s = w'.set number (n.afterSend s o) := by
      rw [World.send, hcontact]
      dsimp only
      rw [World.update, h'.node]
    obtain ⟨es, hes, hfinal⟩ := ih (h'.set (n.afterSend s o)) hrest
    refine ⟨(s, o) :: es, by rw [List.map_cons, hes], ?_⟩
    rw [World.sendAll, List.foldl_cons, hsend]
    exact hfinal

theorem Has.settle (h : w.Has number n) : w.settle = w := by
  rw [World.settle, h.awaited]
  rfl

theorem Has.concludeTransfer (h : w.Has number n) (n' : Node) (o : Outcome) :
    (w.concludeTransfer number n' o).1.toOption = (n.takeOver o).1 ∧
      (w.concludeTransfer number n' o).2.Has number (n.takeOver o).2 := by
  rw [World.concludeTransfer, h.latest, Node.takeOver]
  cases n.concludeTransfer o with
  | error e => exact ⟨rfl, h⟩
  | ok r => exact ⟨rfl, h.set r.1⟩

theorem Has.bootstrapAndAnnounce (h : w.Has number n) (joined : JoinOutcome) :
    ∃ transfer announced, ∀ request,
      (w.bootstrapAndAnnounce number n joined.seed (n.announcements joined.seed)).1.toOption =
        (n.settleIn joined ⟨request, transfer, announced⟩).1.installed ∧
      (w.bootstrapAndAnnounce number n joined.seed (n.announcements joined.seed)).2.Has number
        (n.settleIn joined ⟨request, transfer, announced⟩).2 := by
  obtain ⟨transfer, w₁, htransfer, h₁⟩ := h.contact (joined.seed.endpoint .stateTransfer)
    (m := .stateRequest) fun c n' r => Node.handleOn_own (.inr (.inr rfl))
  obtain ⟨hreport, h₂⟩ := h₁.concludeTransfer n transfer
  have hsends : ∀ s ∈ n.announcements joined.seed,
      s.message = .newPeerAnnounce (n.takeOver transfer).2.identity := by
    intro s hs
    obtain ⟨p, -, rfl⟩ := List.mem_map.1 hs
    rw [Node.takeOver_identity]
    rfl
  obtain ⟨announced, hannounced, h₃⟩ := h₂.sendAll hsends
  refine ⟨transfer, announced, fun request => ?_⟩
  have hall : announced.filter (fun e => e.1 ∈ n.announcements joined.seed) = announced :=
    List.filter_eq_self.2 fun e he => decide_eq_true (hannounced ▸ List.mem_map_of_mem he)
  rw [World.bootstrapAndAnnounce, htransfer, Node.settleIn]
  dsimp only
  rw [hall, deliverAll, h₃.settle]
  exact ⟨hreport, h₃⟩

/-- Where no exchange takes its time, the nodes of the simulation join as said above. -/
theorem join_eq_join (h : w.Has number n) : ∃ x, (w.join number n).1 = (n.join x).1 ∧
    (w.join number n).2.Has number (n.join x).2 := by
  cases hseed : n.settings.seed with
  | none =>
    refine ⟨⟨.ok none, .ok none, []⟩, ?_⟩
    rw [World.join, Node.join, hseed]
    exact ⟨rfl, h⟩
  | some seed =>
    obtain ⟨request, w₁, hrequest, h₁⟩ := h.exchange seed.endpoint (m := .joinRequest n.identity)
      fun c n' r => Node.handleOn_own (.inl rfl)
    rw [World.join, hseed]
    dsimp only
    rw [hrequest]
    dsimp only
    rw [h₁.latest]
    cases hjoin : n.concludeJoin seed request with
    | error e =>
      refine ⟨⟨request, .ok none, []⟩, ?_⟩
      rw [Node.join_eq hseed, hjoin]
      exact ⟨rfl, h₁⟩
    | ok r =>
      obtain ⟨n₁, joined⟩ := r
      obtain ⟨transfer, announced, hsettle⟩ := (h₁.set n₁).bootstrapAndAnnounce joined
      obtain ⟨hinstalled, hfinal⟩ := hsettle request
      refine ⟨⟨request, transfer, announced⟩, ?_⟩
      rw [Node.join_eq hseed, hjoin]
      dsimp only
      refine ⟨?_, hfinal⟩
      rw [hinstalled]
      rfl

end Simulation.World
end CausalStore
