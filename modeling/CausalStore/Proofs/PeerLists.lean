import CausalStore.Proofs.NodeRuns

/-!
# What a node lists

Others may present themselves to a node as they like: under its own id or address, or under one that
it knows already. Whatever they say, the node lists others only, each address once, and its clock
counts the writes of all of them (`Node.Listing`). An entry that was made stays as it is.
-/

namespace CausalStore

namespace Directory

variable {d d' d'' : Directory} {ps : List Peer}

/-- The entries of `d` are entries of `d'`, each under its address and with all that it says. -/
def KeptIn (d d' : Directory) : Prop :=
  ∀ a p, d.byAddress.get? a = some p → d'.byAddress.get? a = some p

namespace KeptIn

theorem refl (d : Directory) : d.KeptIn d := fun _ _ hp => hp

theorem add (d : Directory) (q : Peer) : d.KeptIn (d.add q) := fun _ _ hp => get?_add_of_get? hp q

theorem trans (h : d.KeptIn d') (h' : d'.KeptIn d'') : d.KeptIn d'' :=
  fun a p hp => h' a p (h a p hp)

theorem foldl_add (d : Directory) (ps : List Peer) : d.KeptIn (ps.foldl Directory.add d) := by
  induction ps generalizing d with
  | nil => exact .refl d
  | cons q ps ih => exact (add d q).trans (ih (d.add q))

theorem mem_peers {p : Peer} (h : d.KeptIn d') (hp : p ∈ d.peers) : p ∈ d'.peers := by
  obtain ⟨a, ha⟩ := Directory.mem_peers.1 hp
  exact Directory.mem_peers.2 ⟨a, h a p ha⟩

end KeptIn

/-! ## The list of peers -/

/-- A peer is listed once for each entry that it has. -/
theorem peers_perm (d : Directory) : d.peers.Perm (d.byAddress.entries.map (·.2)) :=
  List.mergeSort_perm ..

theorem peers_ascending (d : Directory) : d.peers.Pairwise fun p q => p.id ≤ q.id := by
  have htrans : ∀ p q r : Peer, decide (p.id ≤ q.id) = true → decide (q.id ≤ r.id) = true →
      decide (p.id ≤ r.id) = true := by
    simp only [decide_eq_true_eq]
    exact fun p q r => String.le_trans
  have htotal : ∀ p q : Peer, (decide (p.id ≤ q.id) || decide (q.id ≤ p.id)) = true := by
    simp only [Bool.or_eq_true, decide_eq_true_eq]
    exact fun p q => String.le_total p.id q.id
  exact (List.pairwise_mergeSort htrans htotal _).imp of_decide_eq_true

theorem Keyed.peers_apart (h : d.Keyed) : d.peers.Pairwise fun p q => p.address ≠ q.address := by
  have hkey {e : Address × Peer} (he : e ∈ d.byAddress.entries) : e.2.address = e.1 :=
    h e.1 e.2 ((SortedMap.mem_entries_iff d.byAddress).1 he)
  refine (d.peers_perm.pairwise_iff fun hne => hne.symm).2 (List.pairwise_map.2 ?_)
  refine (List.pairwise_map.1 d.byAddress.keys_nodup).imp_of_mem fun {e f} he hf hne => ?_
  rwa [hkey he, hkey hf]

end Directory

namespace Engine

variable {e : Engine} {id : NodeId} {ps : List Peer}

theorem get_addServers :
    (ps.foldl (fun e p => e.addServer p.id) e).clock.get id = e.clock.get id := by
  rw [addServers_eq]
  exact e.clock.agrees_addDimensions _ id

theorem contains_addServers : (ps.foldl (fun e p => e.addServer p.id) e).clock.contains id = true ↔
    e.clock.contains id = true ∨ id ∈ ps.map (·.id) := by
  rw [addServers_eq]
  exact Clock.contains_addDimensions

end Engine

namespace Node

variable {n n' : Node}

/-- What a node knows are others, each under its own address, and its clock knows them too. -/
structure Acquainted (n : Node) : Prop where
  keyed : n.directory.Keyed
  /-- No peer that it lists counts as the node itself. -/
  others : ∀ p ∈ n.directory.peers, p.same n.identity = false
  counted : ∀ p ∈ n.directory.peers, n.engine.clock.contains p.id = true

/-- What is true of the list of peers of a node. -/
structure Listing (n : Node) : Prop extends n.Acquainted where
  /-- Each entry of the directory is listed once. -/
  complete : n.directory.peers.Perm (n.directory.byAddress.entries.map (·.2))
  apart : n.directory.peers.Pairwise fun p q => p.address ≠ q.address
  ascending : n.directory.peers.Pairwise fun p q => p.id ≤ q.id

namespace Acquainted

theorem fresh (s : Settings) : (Node.fresh s).Acquainted where
  keyed := .empty
  others _ hp := absurd hp Directory.not_mem_peers_empty
  counted _ hp := absurd hp Directory.not_mem_peers_empty

theorem engine (h : n.Acquainted) (a : Engine.Action) :
    ({ n with engine := n.engine.act a } : Node).Acquainted :=
  { h with counted := fun p hp => Engine.contains_act (h.counted p hp) a }

theorem meet (h : n.Acquainted) (p : Peer) : (n.meet p).Acquainted := by
  by_cases hself : p.same n.identity = true
  · rw [Node.meet, if_pos hself]
    exact h
  have hclock : (n.meet p).engine = n.engine.addServer p.id := by rw [Node.meet, if_neg hself]
  have hadd {q : Peer} (hq : q ∈ (n.meet p).directory.peers) : q ∈ n.directory.peers ∨ q = p := by
    obtain hd | ⟨-, hd⟩ := n.meet_directory p <;> rw [hd] at hq
    · exact .inl hq
    · exact Directory.mem_peers_of_add hq
  refine ⟨?_, fun q hq => ?_, fun q hq => ?_⟩
  · obtain hd | ⟨-, hd⟩ := n.meet_directory p <;> rw [hd]
    · exact h.keyed
    · exact h.keyed.add p
  · rw [meet_identity]
    rcases hadd hq with hq | rfl
    · exact h.others q hq
    · exact Bool.eq_false_iff.2 hself
  · rw [hclock]
    rcases hadd hq with hq | rfl
    · exact Clock.contains_addDimension (h.counted q hq) p.id
    · exact Clock.contains_addDimension_self ..

theorem learnAll (h : n.Acquainted) {ps : List Peer} (hps : ∀ p ∈ ps, p.same n.identity = false) :
    (n.learnAll ps).Acquainted where
  keyed := h.keyed.foldl_add ps
  others p hp := by
    rcases Directory.mem_peers_of_foldl_add hp with hp | hp
    · exact h.others p hp
    · exact hps p hp
  counted p hp := by
    rcases Directory.mem_peers_of_foldl_add hp with hp | hp
    · exact Engine.contains_addServers.2 (.inl (h.counted p hp))
    · exact Engine.contains_addServers.2 (.inr (List.mem_map_of_mem hp))

theorem change (h : n.Acquainted) (hc : n.Change n') : n'.Acquainted := by
  cases hc with
  | nothing => exact h
  | engine a => exact h.engine a
  | meet p => exact h.meet p
  | learn hps => exact h.learnAll hps
  | outbox o => exact { h with }

theorem actAll (h : n.Acquainted) (as : List Action) : (n.actAll as).Acquainted := by
  induction as generalizing n with
  | nil => exact h
  | cons a as ih => exact ih (h.change (n.act_change a))

theorem listing (h : n.Acquainted) : n.Listing :=
  { h with
    complete := n.directory.peers_perm
    apart := h.keyed.peers_apart
    ascending := n.directory.peers_ascending }

end Acquainted

/-- No entry of the directory is changed or taken away. -/
theorem Change.keptIn (h : n.Change n') : n.directory.KeptIn n'.directory := by
  cases h with
  | meet p =>
    obtain hd | ⟨-, hd⟩ := n.meet_directory p <;> rw [hd]
    · exact .refl _
    · exact .add _ p
  | learn => exact .foldl_add _ _
  | nothing | engine a | outbox o => exact .refl _

/-- Whatever happened to a new node, it lists other nodes only, each entry of its directory once and
by ascending id, no two under one address, and all ids are in its clock. Whatever happens next, the
entries stay as they are. -/
theorem directory_lists_others (s : Settings) (as : List Action) (a : Action) :
    ((fresh s).actAll as).Listing ∧
    ((fresh s).actAll as).directory.KeptIn (((fresh s).actAll as).act a).directory := by
  have hacquainted : ((fresh s).actAll as).Acquainted := (Acquainted.fresh s).actAll as
  exact ⟨hacquainted.listing, (((fresh s).actAll as).act_change a).keptIn⟩

/-- Of four newcomers the first two go by the id and by the address of the node, and the last one by
an address that is taken. -/
example : ((fresh (.onLoopback "a" 7000)).actAll
    [.handle (.newPeerAnnounce ⟨"a", "h", 1, 2, 3⟩),
      .handle (.joinRequest ⟨"x", "127.0.0.1", 7001, 2, 3⟩),
      .handle (.joinRequest ⟨"b", "h", 1, 2, 3⟩),
      .handle (.newPeerAnnounce ⟨"c", "h", 1, 8, 9⟩)]).directory.peers = [⟨"b", "h", 1, 2, 3⟩] := by
  decide +kernel

end Node
end CausalStore
