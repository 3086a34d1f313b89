import CausalStore.Proofs.Directories
import Mathlib.Data.List.Permutation

/-!
# Which peer is taken for the seed

A join response begins with the node that gave it. The joiner takes for its seed the last entry that
is at the place where it asked, a host with a discovery port. A directory has one entry for each
replication port, so several may be at one place: the joiner finds its seed exactly if nobody else
that it is told of is there.
-/

namespace CausalStore

namespace Seed

variable {s : Seed} {p q : Peer} {ps : List Peer}

theorem isAt_iff : s.isAt p = true ↔ s.host = p.host ∧ s.port = p.discoveryPort := by
  rw [isAt, Bool.and_eq_true, decide_eq_true_eq, decide_eq_true_eq]

/-- Where the first entry is at the place, it is taken unless another one is there. -/
theorem answered_cons (hp : s.isAt p = true) : ((p :: ps).reverse.find? s.isAt).or (p :: ps).head? =
    some ((ps.reverse.find? s.isAt).getD p) := by
  rw [List.reverse_cons, List.find?_append, List.find?_cons_of_pos hp]
  cases ps.reverse.find? s.isAt <;> rfl

/-- None of the entries is at the place, if nobody is found. -/
theorem find?_reverse_eq_none : ps.reverse.find? s.isAt = none ↔ ∀ p ∈ ps, s.isAt p = false := by
  simp only [List.find?_eq_none, List.mem_reverse, Bool.not_eq_true]

end Seed

namespace Membership

variable {m r : Membership} {p q : Peer} {ps : List Peer}

/-- What a node knows when newcomers have presented themselves to it. -/
def meeting (self : Peer) (newcomers : List Peer) : Membership :=
  newcomers.foldl learn ⟨self, .empty⟩

theorem learn_self (m : Membership) (p : Peer) : (m.learn p).self = m.self := by
  unfold learn
  split <;> rfl

theorem mem_peers_of_learn (h : p ∈ (m.learn q).directory.peers) :
    p ∈ m.directory.peers ∨ p.same m.self = false := by
  unfold learn at h
  split at h
  next hnew =>
    rw [isNew, Bool.and_eq_true, Bool.not_eq_true'] at hnew
    rcases Directory.mem_peers_of_add h with h | rfl
    · exact .inl h
    · exact .inr hnew.1
  next => exact .inl h

/-- A node learns of others only. -/
theorem same_self_of_foldl_learn (h : ∀ p ∈ m.directory.peers, p.same m.self = false)
    (ps : List Peer) : (ps.foldl learn m).self = m.self ∧
      ∀ p ∈ (ps.foldl learn m).directory.peers, p.same m.self = false := by
  induction ps generalizing m with
  | nil => exact ⟨rfl, h⟩
  | cons q ps ih =>
    have hlearn : ∀ p ∈ (m.learn q).directory.peers, p.same (m.learn q).self = false := by
      intro p hp
      rw [learn_self]
      exact (mem_peers_of_learn hp).elim (h p) id
    have hps := ih hlearn
    rwa [learn_self] at hps

theorem meeting_self (self : Peer) (newcomers : List Peer) :
    (meeting self newcomers).self = self :=
  (same_self_of_foldl_learn (fun _ hp => absurd hp Directory.not_mem_peers_empty) newcomers).1

theorem same_self_of_meeting {self : Peer} {newcomers : List Peer}
    (hp : p ∈ (meeting self newcomers).directory.peers) : p.same self = false :=
  (same_self_of_foldl_learn (fun _ hp => absurd hp Directory.not_mem_peers_empty) newcomers).2 p hp

/-- A list that names somebody is taken in, all of it but the node itself. -/
theorem absorb_eq_ok {s : Seed} (hp : (ps.reverse.find? s.isAt).or ps.head? = some p) :
    r.absorb s ps = .ok
      ({ r with directory := (ps.filter fun p => !p.same r.self).foldl Directory.add r.directory },
        ⟨p, ps.filter fun p => !p.same r.self⟩) := by
  rw [absorb, hp]

variable {self : Peer} {newcomers : List Peer}

/-- The others that the joiner is told of. -/
def others (self : Peer) (newcomers : List Peer) (joiner : Peer) : List Peer :=
  (meeting self newcomers).directory.peers.filter fun p => !p.same joiner

theorem same_self_of_others {joiner : Peer} (hp : p ∈ others self newcomers joiner) :
    p.same self = false :=
  same_self_of_meeting (List.mem_filter.1 hp).1

theorem absorb_joinResponse (self : Peer) (newcomers : List Peer) (r : Membership) :
    ∃ r' joined, r.absorb ⟨self.host, self.discoveryPort⟩
      ((meeting self newcomers).joinResponseFor r.self) = .ok (r', joined) ∧
    joined.seed = ((others self newcomers r.self).reverse.find?
      (Seed.isAt ⟨self.host, self.discoveryPort⟩)).getD self ∧
    r'.self = r.self ∧
    ∀ p ∈ r'.directory.peers, p ∈ r.directory.peers ∨
      (p = self ∨ p ∈ others self newcomers r.self) ∧ p.same r.self = false := by
  have hresponse : (meeting self newcomers).joinResponseFor r.self =
      self :: others self newcomers r.self := by
    rw [joinResponseFor, meeting_self]
    rfl
  rw [hresponse, absorb_eq_ok (Seed.answered_cons (Seed.isAt_iff.2 ⟨rfl, rfl⟩))]
  refine ⟨_, _, rfl, rfl, rfl, fun p hp => ?_⟩
  rcases Directory.mem_peers_of_foldl_add hp with hp | hp
  · exact .inl hp
  · obtain ⟨hmem, hother⟩ := List.mem_filter.1 hp
    exact .inr ⟨List.mem_cons.1 hmem, by simpa using hother⟩

theorem ne_of_same_eq_false (h : p.same q = false) : p ≠ q := by
  rintro rfl
  simp [Peer.same] at h

/-- A joiner takes the node that answered for its seed, exactly if no other peer that it is told of
is at the place where it asked. Then it announces itself to all that it lists but the seed, unless
it has listed somebody else before who counts as the seed. -/
theorem seed_found_iff_alone_at_place (self : Peer) (newcomers : List Peer) (r : Membership) :
    ∃ r' joined, r.absorb ⟨self.host, self.discoveryPort⟩
      ((meeting self newcomers).joinResponseFor r.self) = .ok (r', joined) ∧
    (joined.seed = self ↔ ∀ p ∈ (meeting self newcomers).directory.peers,
      p.same r.self = false → ¬ (p.host = self.host ∧ p.discoveryPort = self.discoveryPort)) ∧
    (joined.seed = self →
      (∀ p ∈ r.directory.peers, p.same r.self = false ∧ (p.same self = true → p = self)) →
      ∀ p, p ∈ r'.announceTargets joined.seed ↔ p ∈ r'.directory.peers ∧ p ≠ self) := by
  obtain ⟨r', joined, habsorb, hseed, hself, hpeers⟩ := absorb_joinResponse self newcomers r
  refine ⟨r', joined, habsorb, ⟨fun hfound p hp hjoiner hat => ?_, fun halone => ?_⟩, ?_⟩
  · have hother : p ∈ others self newcomers r.self :=
      List.mem_filter.2 ⟨hp, by simpa using hjoiner⟩
    have hplace : Seed.isAt ⟨self.host, self.discoveryPort⟩ p = true :=
      Seed.isAt_iff.2 ⟨hat.1.symm, hat.2.symm⟩
    cases hfind : (others self newcomers r.self).reverse.find?
        (Seed.isAt ⟨self.host, self.discoveryPort⟩) with
    | none =>
      rw [Seed.find?_reverse_eq_none.1 hfind p hother] at hplace
      cases hplace
    | some q =>
      have hq := List.mem_reverse.1 (List.mem_of_find?_eq_some hfind)
      rw [hfind] at hseed
      exact ne_of_same_eq_false (same_self_of_others hq) (hseed.symm.trans hfound)
  · have hnone : (others self newcomers r.self).reverse.find?
        (Seed.isAt ⟨self.host, self.discoveryPort⟩) = none := by
      refine Seed.find?_reverse_eq_none.2 fun p hp => Bool.eq_false_iff.2 fun hplace => ?_
      obtain ⟨hmem, hjoiner⟩ := List.mem_filter.1 hp
      obtain ⟨hhost, hport⟩ := Seed.isAt_iff.1 hplace
      exact halone p hmem (by simpa using hjoiner) ⟨hhost.symm, hport.symm⟩
    rw [hseed, hnone]
    rfl
  · intro hfound hknown p
    rw [hfound, announceTargets, List.mem_filter, hself, Bool.and_eq_true, Bool.not_eq_true',
      Bool.not_eq_true']
    constructor
    · rintro ⟨hp, hother, -⟩
      exact ⟨hp, ne_of_same_eq_false hother⟩
    · rintro ⟨hp, hne⟩
      refine ⟨hp, ?_⟩
      obtain hp | ⟨hp, hjoiner⟩ := hpeers p hp
      · obtain ⟨hjoiner, hsame⟩ := hknown p hp
        exact ⟨Bool.eq_false_iff.2 (hne ∘ hsame), hjoiner⟩
      · exact ⟨same_self_of_others (hp.resolve_left hne), hjoiner⟩

/-! Newcomers at the place of the seed, or next to it. -/

def host : Peer := ⟨"a", "host", 7001, 7002, 7003⟩

def lodger : Peer := ⟨"l", "host", 7101, 7102, 7103⟩

def neighbour : Peer := ⟨"n", "host", 7201, 7002, 7203⟩

def guest : Peer := ⟨"b", "elsewhere", 8001, 8002, 8003⟩

/-- A guest that has listed its host before comes back. -/
theorem lodger_told_of_guest : guest.same host = false ∧ ∃ r' joined,
    (⟨guest, Directory.empty.add host⟩ : Membership).absorb ⟨host.host, host.discoveryPort⟩
      ((meeting host [lodger]).joinResponseFor guest) = .ok (r', joined) ∧ joined.seed = host ∧
    ∀ p, p ∈ r'.announceTargets joined.seed ↔ p ∈ r'.directory.peers ∧ p ≠ host := by
  obtain ⟨r', joined, habsorb, hseed, htargets⟩ :=
    seed_found_iff_alone_at_place host [lodger] ⟨guest, Directory.empty.add host⟩
  have hfound : joined.seed = host := hseed.2 (by decide +kernel)
  exact ⟨by decide +kernel, r', joined, habsorb, hfound, htargets hfound (by decide +kernel)⟩

/-- The one that answered is told of the guest a second time, and the one that only shares its place
is never told. -/
theorem neighbour_taken_for_seed : guest.same host = false ∧
    (((⟨guest, .empty⟩ : Membership).absorb ⟨host.host, host.discoveryPort⟩
      ((meeting host [neighbour]).joinResponseFor guest)).toOption.map
        fun x => (x.2.seed, x.1.announceTargets x.2.seed)) = some (neighbour, [host]) :=
  ⟨by decide +kernel, by cbv⟩

end Membership
end CausalStore
