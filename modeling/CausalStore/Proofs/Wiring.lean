import CausalStore.Proofs.Moves

/-!
# What is under way comes from what was done

Whatever a cluster carries about, the updates in it were made and the snapshots were taken
(`Cluster.Wired`). So each move of a cluster is a run of the group of its engines (`Move.group`),
and all that holds of groups holds of clusters.
-/

namespace CausalStore

namespace Group

variable {ι : Type} [DecidableEq ι] {g : Group ι} {i : ι}

theorem extended_toLog (g : Group ι) (i : ι) (id : NodeId) : (g.extended i id).toLog = g.toLog := by
  unfold extended set
  simp only [Finset.union_empty, Function.update_eq_self]

/-- Listing nodes one after the other is a run. -/
theorem reaches_extended (g : Group ι) {allowed : Group ι → Action ι → Prop} (ps : List Peer)
    (ha : ∀ g id, allowed g (.addServer i id)) : Reaches step allowed g
      ⟨g.toLog, Function.update g.engine i
        (ps.foldl (fun e p => e.addServer p.id) (g.engine i))⟩ := by
  induction ps generalizing g with
  | nil => rw [List.foldl_nil, Function.update_eq_self]; exact .refl
  | cons p ps ih =>
    have h := (Reaches.single (ha g p.id) rfl).trans (ih (g.extended i p.id))
    rw [extended_toLog, extended, set_engine_self] at h
    simpa only [set, Function.update_idem, List.foldl_cons] using h

end Group

namespace Cluster

variable {ι : Type} [DecidableEq ι] {c c' : Cluster ι} {i j : ι} {n : Node} {l : Log ι}
  {writes : ι → Prop} {installs : Cluster ι → ι → Capture → Prop}

/-- Updates under way were made, and sent to the address whose queue they are in. Snapshots under
way were taken. -/
structure Wired (c : Cluster ι) : Prop where
  duties : ∀ i u, (i, Duty.broadcast u) ∈ c.duties → u ∈ c.made
  sent : ∀ e u, (e, Message.update u) ∈ c.sent → u ∈ c.made
  exchanges : ∀ x ∈ c.exchanges, (x.errand.endpoint, x.errand.message) ∈ c.sent
  batches : ∀ x ∈ c.exchanges, ∀ p q rest, x.errand = .retry p q rest →
    ∀ q' ∈ rest, ∀ u, q'.message = .update u → c.Sent p.address u
  queues : ∀ i a, ∀ q ∈ (c.node i).outbox.pendingFor a, ∀ u, q.message = .update u → c.Sent a u
  addressed : ∀ i, (c.node i).outbox.Addressed
  replies : ∀ x ∈ c.exchanges, ∀ k, x.capture? = some k → k ∈ c.captures

namespace Wired

omit [DecidableEq ι] in
theorem start {node : ι → Node} (h : ∀ i, (node i).Unused) : (Cluster.start node).Wired where
  duties _ _ hu := nomatch hu
  sent _ _ hu := nomatch hu
  exchanges _ hx := nomatch hx
  batches _ hx := nomatch hx
  queues i a q hq := by
    rw [Cluster.start, (h i).outbox] at hq
    cases hq
  addressed i := by
    rw [Cluster.start, (h i).outbox]
    exact .empty
  replies _ hx := nomatch hx

theorem set (W : c.Wired) (hn : n.outbox = (c.node i).outbox) (hmade : ∀ u ∈ c.made, u ∈ l.made)
    (hcap : ∀ k ∈ c.captures, k ∈ l.captures) : (c.set i n l).Wired where
  duties i u hu := hmade u (W.duties i u hu)
  sent e u hu := hmade u (W.sent e u hu)
  exchanges := W.exchanges
  batches := W.batches
  queues := forall_set_node (P := fun _ m => ∀ a, ∀ q ∈ m.outbox.pendingFor a, ∀ u,
    q.message = .update u → c.Sent a u) (hn ▸ W.queues i) fun j _ => W.queues j
  addressed := forall_set_node (P := fun _ m => m.outbox.Addressed) (hn ▸ W.addressed i)
    fun j _ => W.addressed j
  replies x hx k hk := hcap k (W.replies x hx k hk)

theorem mail (W : c.Wired) {o : Outbox}
    (ho : ∀ a, ∀ q ∈ o.pendingFor a, ∀ u, q.message = .update u → c.Sent a u)
    (haddr : o.Addressed) : (c.set i { c.node i with outbox := o } c.toLog).Wired where
  duties := W.duties
  sent := W.sent
  exchanges := W.exchanges
  batches := W.batches
  queues := forall_set_node (P := fun _ m => ∀ a, ∀ q ∈ m.outbox.pendingFor a, ∀ u,
    q.message = .update u → c.Sent a u) ho fun j _ => W.queues j
  addressed := forall_set_node (P := fun _ m => m.outbox.Addressed) haddr fun j _ => W.addressed j
  replies := W.replies

omit [DecidableEq ι] in
theorem owe (W : c.Wired) {d : Duty} (hd : ∀ u, d = .broadcast u → u ∈ c.made) :
    (c.owe i d).Wired :=
  { W with
    duties := fun j u hu => by
      rcases List.mem_cons.1 hu with h | hu
      · cases h; exact hd u rfl
      · exact W.duties j u hu }

omit [DecidableEq ι] in
/-- The updates in a batch that a node may start, or go on with, were sent to its address. -/
theorem ready_retry (W : c.Wired) {p : Peer} {q : Queued} {rest : List Queued}
    (hx : c.Ready i (.retry p q rest)) :
    ∀ q' ∈ q :: rest, ∀ u, q'.message = .update u → c.Sent p.address u := by
  obtain ⟨a, hq⟩ | ⟨x, hx, -, q₀, he⟩ := hx.retry_cases
  · obtain rfl : p.address = a := W.addressed i a _ hq
    refine fun q' hq' => W.queues i _ q' ?_
    rw [Outbox.pendingFor, hq]
    exact hq'
  · exact W.batches x hx p q₀ _ he

omit [DecidableEq ι] in
/-- An update that a node may send was made. -/
theorem ready (W : c.Wired) {x : Errand} (hx : c.Ready i x) {u : Update}
    (hu : x.message = .update u) : u ∈ c.made := by
  cases x with
  | send s =>
    cases hx with
    | duty hd hx =>
      obtain ⟨p, -, m, he, ⟨v, rfl, rfl⟩ | rfl⟩ | ⟨source, he⟩ := Duty.errands_cases hx
      · cases he
        cases hu
        exact W.duties i _ hd
      · cases he
        cases hu
      · cases he
  | retry p q rest => exact W.sent _ _ (W.ready_retry hx q List.mem_cons_self u hu)
  | join self seed => cases hu
  | transfer source => cases hu

omit [DecidableEq ι] in
theorem launch (W : c.Wired) {xs : List Errand} (hxs : ∀ x ∈ xs, c.Ready i x) :
    (c.launch i xs).Wired where
  duties := W.duties
  sent e u hu := by
    rcases List.mem_append.1 hu with hu | hu
    · obtain ⟨x, hx, he⟩ := List.mem_map.1 hu
      exact W.ready (hxs x hx) (Prod.mk.inj he).2
    · exact W.sent e u hu
  exchanges x hx := by
    rcases List.mem_append.1 hx with hx | hx
    · exact List.mem_append_right _ (W.exchanges x hx)
    · obtain ⟨y, hy, rfl⟩ := List.mem_map.1 hx
      exact List.mem_append_left _ (List.mem_map_of_mem hy)
  batches x hx p q rest he q' hq' u hu := by
    refine List.mem_append_right _ ?_
    rcases List.mem_append.1 hx with hx | hx
    · exact W.batches x hx p q rest he q' hq' u hu
    · obtain ⟨y, hy, rfl⟩ := List.mem_map.1 hx
      cases he
      exact W.ready_retry (hxs _ hy) q' (List.mem_cons_of_mem _ hq') u hu
  queues j a q hq u hu := List.mem_append_right _ (W.queues j a q hq u hu)
  addressed := W.addressed
  replies x hx k hk := by
    rcases List.mem_append.1 hx with hx | hx
    · exact W.replies x hx k hk
    · obtain ⟨y, hy, rfl⟩ := List.mem_map.1 hx
      cases hk

theorem answer (W : c.Wired) {x : Exchange ι} {r : Reply} (hx : x ∈ c.exchanges)
    (hr : ∀ k, r.capture? = some k → k ∈ c.captures) : (c.answer x r).Wired :=
  { W with
    exchanges := fun y hy => by
      rcases List.mem_cons.1 hy with rfl | hy
      · exact W.exchanges x hx
      · exact W.exchanges y (List.mem_of_mem_erase hy)
    batches := fun y hy => by
      rcases List.mem_cons.1 hy with rfl | hy
      · exact W.batches x hx
      · exact W.batches y (List.mem_of_mem_erase hy)
    replies := fun y hy => by
      rcases List.mem_cons.1 hy with rfl | hy
      · exact hr
      · exact W.replies y (List.mem_of_mem_erase hy) }

omit [DecidableEq ι] in
theorem enqueue (W : c.Wired) {x : Exchange ι} {s : Send} (hx : x ∈ c.exchanges)
    (he : x.errand = .send s) :
    ∀ a, ∀ q ∈ ((c.node i).outbox.enqueue s.peer s.message).pendingFor a,
      ∀ u, q.message = .update u → c.Sent a u := by
  intro a q hq u hu
  rcases Outbox.mem_enqueue.1 hq with hq | ⟨rfl, rfl⟩
  · exact W.queues i a q hq u hu
  · have h := W.exchanges x hx
    simp only [he, Errand.endpoint, Errand.message, Send.endpoint] at h
    change s.message = _ at hu
    rw [hu] at h
    exact h

theorem move (W : c.Wired) (h : Move writes installs c c') : c'.Wired := by
  cases h with
  | write _ hw =>
    refine owe ?_ fun v hv => ?_
    · exact W.set rfl (fun u hu => List.mem_cons_of_mem _ hu) fun k hk => hk
    · cases hv; exact List.mem_cons_self
  | launch hxs => exact W.launch hxs
  | discharge => exact { W with duties := fun j u hu => W.duties j u (List.mem_of_mem_erase hu) }
  | receive => exact W.set rfl (fun _ h => h) fun _ h => h
  | meet => exact W.set (Node.meet_outbox ..) (fun _ h => h) fun _ h => h
  | capture => exact W.set rfl (fun _ h => h) fun k hk => List.mem_cons_of_mem _ hk
  | reconcile => exact W.set rfl (fun _ h => h) fun _ h => h
  | learn => exact W.set rfl (fun _ h => h) fun _ h => h
  | @install x k =>
    have := W.set (i := x.source)
      (n := { c.node x.source with engine := ((c.node x.source).engine.install k.snapshot).1 })
      (l := (c.group.installed x.source k).toLog) rfl (fun _ h => h) fun _ h => h
    exact { this with }
  | answer hx _ hr => exact W.answer hx hr
  | close =>
    exact { W with
      exchanges := fun y hy => W.exchanges y (List.mem_of_mem_erase hy)
      batches := fun y hy => W.batches y (List.mem_of_mem_erase hy)
      replies := fun y hy => W.replies y (List.mem_of_mem_erase hy) }
  | enqueue hx he => exact { W.mail (W.enqueue hx he) ((W.addressed _).enqueue _ _) with }
  | remove =>
    refine W.mail (fun a q hq => ?_) ((W.addressed _).remove _ _)
    exact W.queues _ a q (Outbox.mem_remove.1 hq).1
  | owe => exact W.owe nofun

end Wired

/-! ## The group of the engines -/

theorem group_set : (c.set i n l).group = ⟨l, Function.update c.group.engine i n.engine⟩ := by
  refine congrArg (Group.mk l) (funext fun j => ?_)
  refine forall_set_node (P := fun j m => m.engine = Function.update c.group.engine i n.engine j)
    (Function.update_self i n.engine c.group.engine).symm (fun j hj => ?_) j
  rw [Function.update_of_ne hj]
  rfl

omit [DecidableEq ι] in
theorem group_owe {d : Duty} : (c.owe i d).group = c.group := rfl

theorem group_mail {o : Outbox} :
    (c.set i { c.node i with outbox := o } c.toLog).group = c.group :=
  group_set.trans (congrArg (Group.mk c.toLog) (Function.update_eq_self i c.group.engine))

/-- The actions of the group that a move of the cluster may come to. -/
def Permits (writes : ι → Prop) (installs : Cluster ι → ι → Capture → Prop) (c : Cluster ι)
    (g : Group ι) : Group.Action ι → Prop
  | .write i _ _ => writes i
  | .install i k => g = c.group ∧ installs c i k
  | _ => True

/-- A move of a cluster is a run of its engines. -/
theorem Move.group (W : c.Wired) (h : Move writes installs c c') :
    Reaches Group.step (Permits writes installs c) c.group c'.group := by
  cases h with
  | @write i key value e u hi hw =>
    refine .single (a := .write i key value) hi ?_
    have : (c.group.engine i).write key value = .ok (e, u) := hw
    simp only [Group.step, this]
    rw [group_owe, group_set]
    rfl
  | @receive j u hu =>
    refine .single (a := .receive j u) trivial ?_
    rw [Group.step, if_pos (show u ∈ c.group.made from W.sent _ _ hu)]
    rw [group_set]
    rfl
  | @meet j p =>
    unfold Node.meet
    split
    · rw [set_self]; exact .refl
    · refine .single (a := .addServer j p.id) trivial (congrArg some ?_)
      rw [group_set]
      exact congrArg (Group.mk · _) (c.group.extended_toLog j p.id)
  | @capture j =>
    refine .single (a := .capture j) trivial (congrArg some ?_)
    rw [group_set]
    exact congrArg (Group.mk _) (Function.update_eq_self j c.group.engine).symm
  | @reconcile i =>
    refine .single (a := .reconcile i) trivial ?_
    rw [group_set]
    rfl
  | @learn i ps =>
    rw [group_set]
    exact c.group.reaches_extended ps fun _ _ => trivial
  | @install x k hx hk hI =>
    refine .single (a := .install x.source k) ⟨rfl, hI⟩ ?_
    rw [Group.step, if_pos (show k ∈ c.group.captures from W.replies x hx k hk)]
    change _ = some (c.set x.source _ _).group
    rw [group_set]
    rfl
  | @enqueue x s => exact (group_mail (c := c)).symm ▸ .refl
  | remove => rw [group_mail]; exact .refl
  | launch | discharge | answer | close | owe => exact .refl

end Cluster
end CausalStore
