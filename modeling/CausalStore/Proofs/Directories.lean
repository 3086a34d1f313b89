import CausalStore.Node
import CausalStore.Proofs.MapLookup
import Mathlib.Logic.Basic

/-!
# What a directory lists

Peers are added to a directory and never leave it. It keeps each under its own address (`Keyed`), so
where no two peers share one, a peer is listed as soon as its address is.
-/

namespace CausalStore

namespace Directory

variable {d : Directory} {p q : Peer} {ps : List Peer} {a : Address}

theorem mem_peers : p ∈ d.peers ↔ ∃ a, d.byAddress.get? a = some p := by
  simp [peers, SortedMap.mem_entries_iff]

theorem not_mem_peers_empty : p ∉ Directory.empty.peers := fun h => by
  obtain ⟨a, ha⟩ := mem_peers.1 h
  cases ha

theorem contains_iff : d.contains p = true ↔ ∃ q, d.byAddress.get? p.address = some q :=
  Option.isSome_iff_exists

theorem get?_add_of_get? (h : d.byAddress.get? a = some p) (q : Peer) :
    (d.add q).byAddress.get? a = some p := by
  rcases eq_or_ne a q.address with rfl | hne
  · rw [add, SortedMap.get?_insertNew_self, h]
    rfl
  · rw [add, SortedMap.get?_insertNew_of_ne _ hne, h]

theorem get?_of_get?_add (h : (d.add q).byAddress.get? a = some p) :
    d.byAddress.get? a = some p ∨ a = q.address ∧ p = q := by
  rcases eq_or_ne a q.address with rfl | hne
  · rw [add, SortedMap.get?_insertNew_self] at h
    cases hold : d.byAddress.get? q.address with
    | none => rw [hold] at h; exact .inr ⟨rfl, (Option.some.inj h).symm⟩
    | some r => rw [hold] at h; exact .inl h
  · rw [add, SortedMap.get?_insertNew_of_ne _ hne] at h
    exact .inl h

/-- Of several peers with one address the first that was told is kept. -/
theorem get?_foldl_add (d : Directory) (ps : List Peer) (a : Address) :
    (ps.foldl add d).byAddress.get? a = (d.byAddress.get? a).or (ps.find? (·.address = a)) := by
  induction ps generalizing d with
  | nil => exact (Option.or_none ..).symm
  | cons q ps ih =>
    rw [List.foldl_cons, ih, add]
    rcases eq_or_ne q.address a with rfl | hne
    · rw [SortedMap.get?_insertNew_self, List.find?_cons, decide_eq_true rfl]
      cases d.byAddress.get? q.address <;> rfl
    · rw [SortedMap.get?_insertNew_of_ne _ hne.symm, List.find?_cons, decide_eq_false hne]

theorem add_of_contains (h : d.contains p = true) : d.add p = d := by
  obtain ⟨q, hq⟩ := contains_iff.1 h
  refine congrArg Directory.mk (SortedMap.ext_get? fun a => ?_)
  rcases eq_or_ne a p.address with rfl | hne
  · rw [SortedMap.get?_insertNew_self, hq]
    rfl
  · rw [SortedMap.get?_insertNew_of_ne _ hne]

theorem mem_peers_add (h : p ∈ d.peers) (q : Peer) : p ∈ (d.add q).peers := by
  obtain ⟨a, ha⟩ := mem_peers.1 h
  exact mem_peers.2 ⟨a, get?_add_of_get? ha q⟩

theorem mem_peers_foldl_add (h : p ∈ d.peers) (ps : List Peer) : p ∈ (ps.foldl add d).peers := by
  induction ps generalizing d with
  | nil => exact h
  | cons q ps ih => exact ih (mem_peers_add h q)

theorem mem_peers_of_add (h : p ∈ (d.add q).peers) : p ∈ d.peers ∨ p = q := by
  obtain ⟨a, ha⟩ := mem_peers.1 h
  exact (get?_of_get?_add ha).imp (fun ha => mem_peers.2 ⟨a, ha⟩) And.right

theorem mem_peers_of_foldl_add (h : p ∈ (ps.foldl add d).peers) : p ∈ d.peers ∨ p ∈ ps := by
  induction ps generalizing d with
  | nil => exact .inl h
  | cons q ps ih =>
    rcases ih h with h | h
    · rcases mem_peers_of_add h with h | rfl
      · exact .inl h
      · exact .inr List.mem_cons_self
    · exact .inr (List.mem_cons_of_mem _ h)

theorem contains_add_self : (d.add p).contains p = true := by
  rw [contains, add, SortedMap.contains, SortedMap.get?_insertNew_self]
  rfl

theorem contains_add (h : d.contains p = true) (q : Peer) : (d.add q).contains p = true := by
  obtain ⟨r, hr⟩ := contains_iff.1 h
  exact contains_iff.2 ⟨r, get?_add_of_get? hr q⟩

theorem contains_foldl_add (h : d.contains p = true ∨ p ∈ ps) :
    (ps.foldl add d).contains p = true := by
  induction ps generalizing d with
  | nil => exact h.resolve_right List.not_mem_nil
  | cons q ps ih =>
    refine ih ?_
    rcases h with h | h
    · exact .inl (contains_add h q)
    · rcases List.mem_cons.1 h with rfl | h
      · exact .inl contains_add_self
      · exact .inr h

/-- Each peer is kept under its own address. -/
def Keyed (d : Directory) : Prop := ∀ a p, d.byAddress.get? a = some p → p.address = a

namespace Keyed

theorem empty : Directory.empty.Keyed := fun _ _ h => nomatch h

theorem add (h : d.Keyed) (q : Peer) : (d.add q).Keyed := by
  intro a p hp
  rcases get?_of_get?_add hp with hp | ⟨rfl, rfl⟩
  · exact h a p hp
  · rfl

theorem foldl_add (h : d.Keyed) (ps : List Peer) : (ps.foldl Directory.add d).Keyed := by
  induction ps generalizing d with
  | nil => exact h
  | cons q ps ih => exact ih (h.add q)

theorem get?_of_mem (h : d.Keyed) (hp : p ∈ d.peers) : d.byAddress.get? p.address = some p := by
  obtain ⟨a, ha⟩ := mem_peers.1 hp
  rwa [h a p ha]

/-- A peer is listed if its address is, and nobody listed has the address except the peer. -/
theorem mem_peers_of_contains (h : d.Keyed) (hp : d.contains p = true)
    (haddr : ∀ q ∈ d.peers, q.address = p.address → q = p) : p ∈ d.peers := by
  obtain ⟨q, hq⟩ := contains_iff.1 hp
  have hmem : q ∈ d.peers := mem_peers.2 ⟨_, hq⟩
  exact haddr q hmem (h _ q hq) ▸ hmem

end Keyed

end Directory

/-- The peer that presents itself in the message. -/
def Message.newcomer? : Message → Option Peer
  | .joinRequest p | .newPeerAnnounce p => some p
  | _ => none

namespace Node

variable {n : Node} {p q : Peer}

/-- The peer counts as the node itself, or its address is in the directory. -/
def Knows (n : Node) (p : Peer) : Prop := p.same n.identity = true ∨ n.directory.contains p = true

theorem meet_settings (n : Node) (p : Peer) : (n.meet p).settings = n.settings := by
  unfold meet
  split <;> rfl

theorem meet_identity (n : Node) (p : Peer) : (n.meet p).identity = n.identity :=
  congrArg Settings.identity (n.meet_settings p)

theorem meet_outbox (n : Node) (p : Peer) : (n.meet p).outbox = n.outbox := by
  unfold meet
  split <;> rfl

theorem meet_directory (n : Node) (p : Peer) : (n.meet p).directory = n.directory ∨
    p.same n.identity = false ∧ (n.meet p).directory = n.directory.add p := by
  unfold meet
  split
  next => exact .inl rfl
  next h =>
    dsimp only [Membership.learn]
    split
    next => exact .inr ⟨Bool.eq_false_iff.2 h, rfl⟩
    next => exact .inl rfl

theorem meet_knows (n : Node) (p : Peer) : (n.meet p).Knows p := by
  unfold meet
  split
  next h => exact .inl h
  next h =>
    refine .inr ?_
    dsimp only [Membership.learn]
    split
    next => exact Directory.contains_add_self
    next hnew => simpa [Membership.isNew, membership, h] using hnew

end Node

end CausalStore
