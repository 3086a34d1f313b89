import CausalStore.Proofs.Wiring

/-!
# What a cluster keeps

What was once made, sent, received or learned stays so (`Cluster.Grows`). With it every state that a
run of new nodes reaches is well-formed (`Cluster.Proper`).
-/

namespace CausalStore

theorem Engine.Grows.addServers (e : Engine) (ps : List Peer) :
    e.Grows (ps.foldl (fun e p => e.addServer p.id) e) := by
  induction ps generalizing e with
  | nil => exact .refl e
  | cons p ps ih => exact (Engine.Grows.addServer e p.id).trans (ih _)

namespace Cluster

variable {ι : Type} {c c' c'' : Cluster ι} {i j : ι} {n : Node} {l : Log ι}
  {writes : ι → Prop} {installs : Cluster ι → ι → Capture → Prop}

structure Grows (c c' : Cluster ι) : Prop where
  settings : ∀ j, (c'.node j).settings = (c.node j).settings
  peers : ∀ j, ∀ p ∈ (c.node j).directory.peers, p ∈ (c'.node j).directory.peers
  engine : ∀ j, (c.node j).engine.Grows (c'.node j).engine
  made : ∀ u ∈ c.made, u ∈ c'.made
  history : ∀ j, ∀ u ∈ c.history j, u ∈ c'.history j
  captures : ∀ k ∈ c.captures, k ∈ c'.captures
  sent : ∀ m ∈ c.sent, m ∈ c'.sent
  installs : ∀ k ∈ c.installs, k ∈ c'.installs
  queued : ∀ j, c.queued j ≤ c'.queued j

namespace Grows

theorem refl (c : Cluster ι) : c.Grows c :=
  ⟨fun _ => rfl, fun _ _ h => h, fun _ => .refl _, fun _ h => h, fun _ _ h => h, fun _ h => h,
    fun _ h => h, fun _ h => h, fun _ => Nat.le_refl _⟩

theorem trans (h₁ : c.Grows c') (h₂ : c'.Grows c'') : c.Grows c'' where
  settings j := (h₂.settings j).trans (h₁.settings j)
  peers j p hp := h₂.peers j p (h₁.peers j p hp)
  engine j := (h₁.engine j).trans (h₂.engine j)
  made u hu := h₂.made u (h₁.made u hu)
  history j u hu := h₂.history j u (h₁.history j u hu)
  captures k hk := h₂.captures k (h₁.captures k hk)
  sent m hm := h₂.sent m (h₁.sent m hm)
  installs k hk := h₂.installs k (h₁.installs k hk)
  queued j := (h₁.queued j).trans (h₂.queued j)

theorem has (h : c.Grows c') (j : ι) (u : Update) (hu : (c.node j).engine.Has u) :
    (c'.node j).engine.Has u :=
  (h.engine j).has hu

theorem identity (h : c.Grows c') : (c'.node j).identity = (c.node j).identity :=
  congrArg Settings.identity (h.settings j)

variable [DecidableEq ι]

theorem set (hsettings : n.settings = (c.node i).settings)
    (hpeers : ∀ p ∈ (c.node i).directory.peers, p ∈ n.directory.peers)
    (hengine : (c.node i).engine.Grows n.engine) (hmade : ∀ u ∈ c.made, u ∈ l.made)
    (hhistory : ∀ j, ∀ u ∈ c.history j, u ∈ l.history j)
    (hcap : ∀ k ∈ c.captures, k ∈ l.captures) : c.Grows (c.set i n l) where
  settings := forall_set_node (P := fun j m => m.settings = (c.node j).settings) hsettings
    fun _ _ => rfl
  peers := forall_set_node
    (P := fun j m => ∀ p ∈ (c.node j).directory.peers, p ∈ m.directory.peers) hpeers
    fun _ _ _ h => h
  engine := forall_set_node (P := fun j m => (c.node j).engine.Grows m.engine) hengine
    fun _ _ => .refl _
  made := hmade
  history := hhistory
  captures := hcap
  sent _ h := h
  installs _ h := h
  queued _ := Nat.le_refl _

end Grows

theorem Move.grows [DecidableEq ι] (h : Move writes installs c c') : c.Grows c' := by
  cases h with
  | @write i _ _ e v _ hw =>
    have h := Grows.set (c := c) (i := i) (n := { c.node i with engine := e })
      (l := (c.group.wrote i e v).toLog)
      rfl (fun _ h => h) (.write hw) (fun u hu => List.mem_cons_of_mem _ hu)
      (fun _ _ hu => Group.mem_set_history e _ hu) fun _ h => h
    exact { h with }
  | launch => exact { Grows.refl c with sent := fun m hm => List.mem_append_right _ hm }
  | discharge | answer | close | owe => exact { Grows.refl c with }
  | receive =>
    exact .set rfl (fun _ h => h) (.receive ..) (fun _ h => h)
      (fun _ _ hu => Group.mem_set_history _ _ hu) fun _ h => h
  | meet =>
    unfold Node.meet
    split
    · exact .set rfl (fun _ h => h) (.refl _) (fun _ h => h) (fun _ _ h => h) fun _ h => h
    · refine .set rfl (fun p hp => ?_) (.addServer ..) (fun _ h => h) (fun _ _ h => h) fun _ h => h
      dsimp only [Membership.learn]
      split
      · exact Directory.mem_peers_add hp _
      · exact hp
  | capture =>
    exact .set rfl (fun _ h => h) (.refl _) (fun _ h => h) (fun _ _ h => h)
      fun k hk => List.mem_cons_of_mem _ hk
  | reconcile =>
    exact .set rfl (fun _ h => h) (.reconcile _) (fun _ h => h)
      (fun _ _ hu => Group.mem_set_history _ _ hu) fun _ h => h
  | @learn i ps =>
    exact .set rfl (fun p hp => Directory.mem_peers_foldl_add hp ps) (.addServers _ ps)
      (fun _ h => h) (fun _ _ h => h) fun _ h => h
  | @install x k =>
    have h := Grows.set (c := c) (i := x.source)
      (n := { c.node x.source with engine := ((c.node x.source).engine.install k.snapshot).1 })
      (l := (c.group.installed x.source k).toLog)
      rfl (fun _ h => h) (.install ..) (fun _ h => h)
      (fun _ _ hu => Group.mem_set_history _ _ hu) fun _ h => h
    exact { h with installs := fun _ hk => List.mem_cons_of_mem _ hk }
  | @enqueue x s =>
    have h := Grows.set (c := c) (i := x.source) (l := c.toLog)
      (n := { c.node x.source with outbox := (c.node x.source).outbox.enqueue s.peer s.message })
      rfl (fun _ h => h) (.refl _) (fun _ h => h) (fun _ _ h => h) fun _ h => h
    refine { h with queued := fun j => ?_ }
    by_cases hj : j = x.source
    · subst hj
      dsimp only
      rw [Function.update_self]
      exact Nat.le_succ _
    · dsimp only
      rw [Function.update_of_ne hj]
  | remove =>
    exact .set rfl (fun _ h => h) (.refl _) (fun _ h => h) (fun _ _ h => h) fun _ h => h

theorem Moves.grows [DecidableEq ι] (h : Moves writes installs c c') : c.Grows c' := by
  induction h with
  | refl => exact .refl c
  | tail _ h ih => exact ih.trans h.grows

/-- A state that a run can lead to. -/
structure Proper (ids : ι → NodeId) (c : Cluster ι) : Prop where
  wired : c.Wired
  sound : c.group.Sound ids
  settled : ∀ i, (c.node i).engine.Settled

namespace Proper

variable {ids : ι → NodeId}

theorem start {node : ι → Node} (h : ∀ i, (node i).Unused) :
    (start node).Proper fun i => (node i).settings.nodeId where
  wired := .start h
  sound := .unused (fun i => (h i).localId) fun i => (h i).engine
  settled i u hu := by
    rw [Cluster.start, (h i).engine.pending] at hu
    cases hu

variable [DecidableEq ι] {a : Action ι} {allowed : Cluster ι → Action ι → Prop}

theorem move (hids : Function.Injective ids) (P : c.Proper ids) (h : Move writes installs c c') :
    c'.Proper ids where
  wired := P.wired.move h
  sound := P.sound.of_reaches hids (h.group P.wired)
  settled := (h.group P.wired).keeps (P := fun g => ∀ i, (g.engine i).Settled) P.settled
    fun H _ hs => Group.step_settled H hs

theorem moves (hids : Function.Injective ids) (P : c.Proper ids) (h : Moves writes installs c c') :
    c'.Proper ids := by
  induction h with
  | refl => exact P
  | tail _ h ih => exact ih.move hids h

/-- A step as moves that are free to write, and to install what the step installs. -/
theorem step_moves (P : c.Proper ids) (h : c.step a = some c') :
    Moves (fun _ => True) (fun c₀ i k => c₀ = c ∧ installing a = some (i, k)) c c' :=
  Cluster.step_moves P.wired.exchanges (fun _ _ _ _ => trivial) (fun _ _ hk => ⟨rfl, hk⟩) h

theorem step (hids : Function.Injective ids) (P : c.Proper ids) (h : c.step a = some c') :
    c'.Proper ids :=
  P.moves hids (P.step_moves h)

theorem of_reaches (hids : Function.Injective ids) (P : c.Proper ids)
    (h : Reaches Cluster.step allowed c c') : c'.Proper ids :=
  h.keeps P fun P _ h => P.step hids h

end Proper

end Cluster
end CausalStore
