import CausalStore.Proofs.PeerLists

/-!
# Handshakes

A node that asks to be let in presents itself, and is told of the others. Whatever either of the two
has listed before, under whatever identities, afterwards each lists the address of the other one, and
the joiner that of everybody whom it was told of (`Node.Learns`).
-/

namespace CausalStore

namespace Peer

variable {p q : Peer} {ps : List Peer}

theorem same_comm (p q : Peer) : p.same q = q.same p := by
  simp only [same, eq_comm]

theorem address_ne_of_same (h : p.same q = false) : p.address ≠ q.address := by
  intro heq
  simp [same, heq] at h

theorem find?_address (h : ps.Pairwise fun p q => p.address ≠ q.address) (hp : p ∈ ps) :
    ps.find? (·.address = p.address) = some p := by
  induction ps with
  | nil => cases hp
  | cons q ps ih =>
    obtain ⟨hq, hps⟩ := List.pairwise_cons.1 h
    rcases List.mem_cons.1 hp with rfl | hp
    · rw [List.find?_cons, decide_eq_true rfl]
    · rw [List.find?_cons, decide_eq_false (hq p hp)]
      exact ih hps hp

end Peer

namespace Node

variable {n n' : Node} {p : Peer} {ps : List Peer}

/-! ## Learning of others -/

/-- Between `n` and `n'` the node was told of the peers. It lists their addresses, those that it knew
under the identities that it had, and its clock counts them. -/
structure Learns (n n' : Node) (ps : List Peer) : Prop where
  listed : ∀ p ∈ ps, n'.directory.byAddress.get? p.address =
    some ((n.directory.byAddress.get? p.address).getD p)
  counted : ∀ p ∈ ps, n'.engine.clock.contains p.id = true

theorem Learns.learnAll (n : Node) (h : ps.Pairwise fun p q => p.address ≠ q.address) :
    n.Learns (n.learnAll ps) ps where
  listed p hp := by
    have hget : (n.learnAll ps).directory.byAddress.get? p.address =
        (n.directory.byAddress.get? p.address).or (some p) := by
      rw [← Peer.find?_address h hp]
      exact Directory.get?_foldl_add ..
    rw [hget]
    cases n.directory.byAddress.get? p.address <;> rfl
  counted p hp := Engine.contains_addServers.2 (.inr (List.mem_map_of_mem hp))

/-- To take note of another node is to learn of it. -/
theorem meet_of_other (h : p.same n.identity = false) : n.meet p = n.learnAll [p] := by
  have hnew : n.membership.isNew p = !n.directory.contains p := by
    rw [Membership.isNew, show n.membership.self = n.identity from rfl, h]
    rfl
  rw [meet, if_neg (Bool.eq_false_iff.1 h), Membership.learn, hnew]
  cases hknown : n.directory.contains p with
  | false => rfl
  | true =>
    have hadd : [p].foldl Directory.add n.directory = n.directory :=
      Directory.add_of_contains hknown
    rw [learnAll, hadd]
    rfl

/-! ## The response to a newcomer -/

/-- The others of whom a node tells a newcomer. -/
def othersFor (n : Node) (newcomer : Peer) : List Peer :=
  n.directory.peers.filter fun p => !p.same newcomer

theorem handle_joinRequest (n : Node) (p : Peer) : n.handle (.joinRequest p) =
    .ok (n.meet p, some (.joinResponse (n.identity :: (n.meet p).othersFor p))) := by
  rw [← n.meet_identity p]
  rfl

/-- A node that gets to know only others tells of them under addresses that are apart. -/
theorem Acquainted.response_apart (h : n.Acquainted) (newcomer : Peer) :
    (n.identity :: n.othersFor newcomer).Pairwise fun p q => p.address ≠ q.address := by
  refine List.pairwise_cons.2 ⟨fun p hp => ?_, h.keyed.peers_apart.sublist List.filter_sublist⟩
  exact (Peer.address_ne_of_same (h.others p (List.mem_filter.1 hp).1)).symm

/-- Nobody of whom a newcomer is told counts as the newcomer. -/
theorem same_of_mem_response {newcomer : Peer} (h : newcomer.same n.identity = false)
    (hp : p ∈ n.identity :: n.othersFor newcomer) : p.same newcomer = false := by
  rcases List.mem_cons.1 hp with rfl | hp
  · rwa [Peer.same_comm]
  · simpa using (List.mem_filter.1 hp).2

/-! ## Both sides -/

/-- What the node `n'` tells the newcomer that it has let in. -/
structure LetsIn (n n' : Node) (newcomer : Peer) (told : List Peer) : Prop where
  learns : n.Learns n' [newcomer]
  /-- It names itself first, and then each entry of its directory once that does not count as the
  newcomer. -/
  complete : ∃ others, told = n.identity :: others ∧ others.Perm
    ((n'.directory.byAddress.entries.map (·.2)).filter fun p => !p.same newcomer)
  apart : told.Pairwise fun p q => p.address ≠ q.address
  ascending : told.tail.Pairwise fun p q => p.id ≤ q.id
  others : ∀ p ∈ told, p.same newcomer = false

theorem Acquainted.letsIn (h : n.Acquainted) (hp : p.same n.identity = false) :
    n.LetsIn (n.meet p) p (n.identity :: (n.meet p).othersFor p) where
  learns := meet_of_other hp ▸ .learnAll n (List.pairwise_singleton ..)
  complete := ⟨_, rfl, (n.meet p).directory.peers_perm.filter _⟩
  apart := n.meet_identity p ▸ (h.meet p).response_apart p
  ascending := (n.meet p).directory.peers_ascending.sublist List.filter_sublist
  others q hq := by
    rw [← n.meet_identity p] at hp hq
    exact same_of_mem_response hp hq

/-- Whatever two nodes have been through, if one of them asks the other to be let in and neither
counts as the other, it is let in and told of everybody else. It learns of all of them, wherever it
has sent its request. -/
theorem handshake_introduces (s t : Settings) (as bs : List Action)
    (h : ((fresh t).actAll bs).identity.same ((fresh s).actAll as).identity = false) :
    ∃ n told, ((fresh s).actAll as).handle (.joinRequest ((fresh t).actAll bs).identity) =
        .ok (n, some (.joinResponse told)) ∧
      ((fresh s).actAll as).LetsIn n ((fresh t).actAll bs).identity told ∧
      ∀ seed, ∃ n' joined, ((fresh t).actAll bs).concludeJoin seed
          (.ok (some (.joinResponse told))) = .ok (n', joined) ∧
        joined.learned = told ∧ ((fresh t).actAll bs).Learns n' told := by
  have hhost : ((fresh s).actAll as).Acquainted := (Acquainted.fresh s).actAll as
  generalize (fresh s).actAll as = host at h hhost ⊢
  generalize (fresh t).actAll bs = joiner at h ⊢
  have hletsIn := hhost.letsIn h
  refine ⟨_, _, host.handle_joinRequest joiner.identity, hletsIn, fun seed => ?_⟩
  obtain ⟨joined, hjoin, hlearned⟩ := joiner.concludeJoin_joinResponse seed host.identity
    ((host.meet joiner.identity).othersFor joiner.identity)
  rw [List.filter_eq_self.2 fun p hp => by rw [hletsIn.others p hp]; rfl] at hlearned
  refine ⟨_, joined, hjoin, hlearned, ?_⟩
  rw [hlearned]
  exact .learnAll joiner hletsIn.apart

/-! The host has listed somebody with the id of the joiner, somebody at its address, and a third
one. The joiner has listed somebody at the address of the host. -/

def crowd : List Action :=
  [.handle (.joinRequest ⟨"b", "h", 1, 2, 3⟩),
    .handle (.newPeerAnnounce ⟨"x", "127.0.0.1", 8001, 2, 3⟩),
    .handle (.newPeerAnnounce ⟨"c", "h", 4, 5, 6⟩)]

def acquaintance : List Action := [.handle (.newPeerAnnounce ⟨"w", "127.0.0.1", 7001, 2, 3⟩)]

theorem namesake_let_in :
    ((fresh (.onLoopback "b" 8000)).actAll acquaintance).identity.same
      ((fresh (.onLoopback "a" 7000)).actAll crowd).identity = false ∧
    ∃ n told, ((fresh (.onLoopback "a" 7000)).actAll crowd).handle
        (.joinRequest ((fresh (.onLoopback "b" 8000)).actAll acquaintance).identity) =
        .ok (n, some (.joinResponse told)) ∧
      told = [(Settings.onLoopback "a" 7000).identity, ⟨"c", "h", 4, 5, 6⟩] ∧
      ∃ n' joined, ((fresh (.onLoopback "b" 8000)).actAll acquaintance).concludeJoin
          ⟨"127.0.0.1", 7002⟩ (.ok (some (.joinResponse told))) = .ok (n', joined) ∧
        joined.learned = told ∧
        ((fresh (.onLoopback "b" 8000)).actAll acquaintance).Learns n' told := by
  have hother : ((fresh (.onLoopback "b" 8000)).actAll acquaintance).identity.same
      ((fresh (.onLoopback "a" 7000)).actAll crowd).identity = false := by decide +kernel
  obtain ⟨n, told, hhandle, hletsIn, hlearns⟩ :=
    handshake_introduces _ _ crowd acquaintance hother
  obtain ⟨others, htold, hothers⟩ := hletsIn.complete
  obtain rfl : _ = n := congrArg Prod.fst (Except.ok.inj hhandle)
  have hentries : ((((fresh (.onLoopback "a" 7000)).actAll crowd).meet
      ((fresh (.onLoopback "b" 8000)).actAll acquaintance).identity).directory.byAddress.entries.map
        (·.2)).filter (fun p => !p.same
          ((fresh (.onLoopback "b" 8000)).actAll acquaintance).identity) =
      [⟨"c", "h", 4, 5, 6⟩] := by decide +kernel
  rw [hentries, List.perm_singleton] at hothers
  exact ⟨hother, _, told, hhandle, by rw [htold, hothers]; rfl, hlearns _⟩

end Node
end CausalStore
