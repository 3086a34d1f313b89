import CausalStore.Proofs.NodeRuns

/-!
# Messages that come again

Once a node has handled a message it has taken from it all there is (`Node.Took`), and this stays
so, whatever became of the message and whatever happens next: an update is covered or waits, and a
newcomer is listed. So the message changes nothing when it comes again.
-/

namespace CausalStore

/-- An engine that has drained its buffer does not take an update again that it has. -/
theorem Engine.receive_of_has {e : Engine} {u : Update} (hset : e.Settled) (h : e.Has u) :
    (e.receive u).1 = e ∧ ((e.receive u).2 = .discarded ∨ (e.receive u).2 = .buffered) := by
  unfold receive
  rcases h with hcov | hpend
  · rw [if_pos hcov]
    exact ⟨rfl, .inl rfl⟩
  · obtain ⟨hcov, hadm⟩ := hset u hpend
    rw [if_neg (Bool.eq_false_iff.1 hcov), if_neg (Bool.eq_false_iff.1 hadm), if_pos hpend]
    exact ⟨rfl, .inr rfl⟩

namespace Node

variable {n n' : Node} {p : Peer} {m : Message} {as : List Action}

/-- The peer counts as the node itself, or the directory has its address and the clock its id. -/
def Lists (n : Node) (p : Peer) : Prop :=
  p.same n.identity = true ∨
    n.directory.contains p = true ∧ n.engine.clock.contains p.id = true

/-- The node has taken from the message all that it can. -/
def Took (n : Node) : Message → Prop
  | .update u => n.engine.Has u
  | .joinRequest p | .newPeerAnnounce p => n.Lists p
  | .joinResponse _ | .stateRequest | .stateResponse _ => True

theorem lists_meet (n : Node) (p : Peer) : (n.meet p).Lists p := by
  have hid := n.meet_identity p
  rcases hself : p.same n.identity with - | -
  · right
    refine ⟨(n.meet_knows p).resolve_left ?_, ?_⟩
    · rw [hid, hself]
      exact Bool.false_ne_true
    · rw [meet, if_neg (Bool.eq_false_iff.1 hself)]
      exact Clock.contains_addDimension_self ..
  · left
    rw [hid, hself]

/-- Whoever is listed already changes nothing by presenting itself. -/
theorem meet_of_lists (h : n.Lists p) : n.meet p = n := by
  unfold meet
  split
  next => rfl
  next hself =>
    obtain ⟨hdir, hclock⟩ := h.resolve_left hself
    have hknown : n.membership.isNew p = false := by
      rw [Membership.isNew, show n.membership.directory.contains p = true from hdir]
      exact Bool.and_false _
    have hlearn : (n.membership.learn p).directory = n.directory := by
      rw [Membership.learn, if_neg (Bool.eq_false_iff.1 hknown)]
      rfl
    rw [hlearn, Engine.addServer, Clock.addDimension_of_contains hclock]

theorem Lists.change (h : n.Lists p) (hc : n.Change n') : n'.Lists p := by
  obtain ⟨bs, hbs⟩ := hc.engine_run
  have hid : n'.identity = n.identity := congrArg Settings.identity hc.settings
  rcases h with hself | ⟨hdir, hclock⟩
  · left
    rwa [hid]
  · right
    refine ⟨hc.contains hdir, ?_⟩
    rw [hbs]
    exact Engine.contains_actAll hclock bs

/-! ## What a node has taken it keeps -/

theorem Took.change (h : n.Took m) (hc : n.Change n') : n'.Took m := by
  cases m with
  | update u =>
    obtain ⟨bs, hbs⟩ := hc.engine_run
    have hgrows : n.engine.Grows n'.engine := hbs ▸ .actAll n.engine bs
    exact hgrows.has h
  | joinRequest p | newPeerAnnounce p => exact Lists.change h hc
  | joinResponse ps | stateRequest | stateResponse s => trivial

theorem Took.actAll (h : n.Took m) (as : List Action) : (n.actAll as).Took m := by
  induction as generalizing n with
  | nil => exact h
  | cons a as ih => exact ih (h.change (n.act_change a))

theorem took_handle (n : Node) (m : Message) : (n.act (.handle m)).Took m := by
  cases m with
  | update u => exact n.engine.has_receive u
  | joinRequest p | newPeerAnnounce p => exact n.lists_meet p
  | joinResponse ps | stateRequest | stateResponse s => trivial

theorem took_of_mem (n : Node) (h : .handle m ∈ as) : (n.actAll as).Took m := by
  induction as generalizing n with
  | nil => cases h
  | cons a as ih =>
    rcases List.mem_cons.1 h with rfl | h
    · exact (n.took_handle m).actAll as
    · exact ih (n.act a) h

theorem act_handle_of_took (hset : n.engine.Settled) (h : n.Took m) : n.act (.handle m) = n := by
  cases m with
  | update u =>
    have he := (Engine.receive_of_has hset h).1
    rw [act_handle_update, he]
  | joinRequest p | newPeerAnnounce p => exact meet_of_lists h
  | joinResponse ps | stateRequest | stateResponse s => rfl

/-- Whatever happened to a new node, every message that it has handled changes nothing when it comes
again, and an update among them is not applied again. -/
theorem handled_again_changes_nothing (s : Settings) (h : .handle m ∈ as) :
    ((fresh s).actAll as).act (.handle m) = (fresh s).actAll as ∧
    ∀ u, m = .update u → (((fresh s).actAll as).receive u).2 = .discarded ∨
      (((fresh s).actAll as).receive u).2 = .buffered := by
  have htook : ((fresh s).actAll as).Took m := took_of_mem (fresh s) h
  have hset : ((fresh s).actAll as).engine.Settled := by
    obtain ⟨bs, hbs⟩ := (fresh s).actAll_engine as
    rw [hbs]
    exact ((Engine.Tidy.new s.nodeId).actAll bs).settled
  refine ⟨act_handle_of_took hset htook, ?_⟩
  rintro u rfl
  exact (Engine.receive_of_has hset htook).2

/-! The second write of `b` waits for the first, is applied after it, and then comes again. -/

def early : Update := ⟨"k", "v2", "b", .ofList [("b", 2)]⟩

def bustle : List Action :=
  [.handle (.update early), .handle (.joinRequest (Settings.onLoopback "c" 9000).identity),
    .put "k" "v", .handle (.update ⟨"k", "v1", "b", .ofList [("b", 1)]⟩),
    .transfer (.ok (some (.stateResponse ⟨.empty, .ofList [("c", 4)]⟩))), .reconcile]

theorem early_again_changes_nothing :
    ((fresh (.onLoopback "a" 7000)).actAll bustle).get "k" = some "v2" ∧
    ((fresh (.onLoopback "a" 7000)).actAll bustle).act (.handle (.update early)) =
      (fresh (.onLoopback "a" 7000)).actAll bustle ∧
    (((fresh (.onLoopback "a" 7000)).actAll bustle).receive early).2 = .discarded := by
  have hmem : .handle (.update early) ∈ bustle := List.mem_cons_self
  obtain ⟨hsame, hfate⟩ := handled_again_changes_nothing (.onLoopback "a" 7000) hmem
  have hget : ((fresh (.onLoopback "a" 7000)).actAll bustle).get "k" = some "v2" := by
    decide +kernel
  have hpend : (((fresh (.onLoopback "a" 7000)).actAll bustle).receive early).2 ≠ .buffered := by
    decide +kernel
  exact ⟨hget, hsame, (hfate early rfl).resolve_right hpend⟩

end Node
end CausalStore
