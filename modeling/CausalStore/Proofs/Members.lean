import CausalStore.Proofs.Stations

/-!
# The nodes of a cluster are stations

Each node of a cluster, with its own duties and exchanges, is where some run of a station leads
(`Cluster.exists_station`): to the node the others are whoever may send it anything. So what holds of
all runs of a station holds of the nodes of a cluster.
-/

namespace CausalStore

theorem perm_map_filter_erase {α β : Type} [BEq α] [LawfulBEq α] {l : List α} {a : α} (ha : a ∈ l)
    (p : α → Bool) (f : α → β) : ((l.filter p).map f).Perm
      ((if p a = true then [f a] else []) ++ ((l.erase a).filter p).map f) := by
  have hall := ((List.perm_cons_erase ha).filter p).map f
  rw [List.filter_cons] at hall
  split at hall
  next hp => rwa [if_pos hp]
  next hp => rwa [if_neg hp]

theorem Node.act_handle_of_handleOn {n n' : Node} {channel : Channel} {m : Message}
    {reply : Option Message} (h : n.handleOn channel m = .ok (n', reply)) :
    n.act (.handle m) = n' := by
  unfold handleOn at h
  split at h
  next => rw [act, h]; rfl
  next => cases h

theorem Exchange.exists_capture {ι : Type} {x : Exchange ι} {failure : Option ExchangeError}
    {s : Snapshot} (h : x.outcome? failure = some (.ok (some (.stateResponse s)))) :
    ∃ k, x.capture? = some k := by
  obtain ⟨e, -, he⟩ | ⟨-, ⟨m, history⟩, hr, hm⟩ := Exchange.outcome?_eq_some h
  · cases he
  · cases hm
    exact ⟨⟨s, history⟩, by rw [capture?, hr]; rfl⟩

namespace Cluster

variable {ι : Type} [DecidableEq ι] {c c' : Cluster ι} {i j : ι} {x : Exchange ι} {d : Duty}
  {r : Reply} {o : Outcome} {t t' : Station}

/-! ## What a node has yet to do -/

def dutiesOf (c : Cluster ι) (i : ι) : List Duty := (c.duties.filter (·.1 = i)).map (·.2)

def errandsOf (c : Cluster ι) (i : ι) : List Errand :=
  (c.exchanges.filter (·.source = i)).map (·.errand)

theorem dutiesOf_owe (c : Cluster ι) (i j : ι) (d : Duty) :
    (c.owe j d).dutiesOf i = (if j = i then [d] else []) ++ c.dutiesOf i := by
  rw [dutiesOf, owe, List.filter_cons]
  by_cases h : j = i <;> simp [h, dutiesOf]

theorem dutiesOf_discharge (h : (j, d) ∈ c.duties) (i : ι) :
    (c.dutiesOf i).Perm ((if j = i then [d] else []) ++ (c.discharge j d).dutiesOf i) := by
  simpa [dutiesOf, discharge] using perm_map_filter_erase h (fun e => e.1 = i) (·.2)

theorem errandsOf_launch (c : Cluster ι) (i j : ι) (xs : List Errand) :
    (c.launch j xs).errandsOf i = c.errandsOf i ++ if j = i then xs else [] := by
  rw [errandsOf, launch, List.filter_append, List.map_append, List.filter_map, List.map_map]
  by_cases h : j = i <;> simp [h, errandsOf, Function.comp_def]

theorem errandsOf_close (hx : x ∈ c.exchanges) (i : ι) :
    (c.errandsOf i).Perm ((if x.source = i then [x.errand] else []) ++ (c.close x).errandsOf i) := by
  simpa [errandsOf, close] using perm_map_filter_erase hx (fun x => x.source = i) (·.errand)

theorem errandsOf_answer (hx : x ∈ c.exchanges) (r : Reply) (i : ι) :
    ((c.answer x r).errandsOf i).Perm (c.errandsOf i) := by
  refine .trans ?_ (errandsOf_close hx i).symm
  rw [errandsOf, answer, List.filter_cons]
  by_cases h : x.source = i <;> simp [h, errandsOf, close]

/-! ## What others do -/

/-- The node at `i`, its duties and its exchanges are those of a station. -/
structure Hosts (c : Cluster ι) (i : ι) (t : Station) : Prop where
  node : t.node = c.node i
  duties : t.duties.Perm (c.dutiesOf i)
  errands : t.errands.Perm (c.errandsOf i)

namespace Hosts

theorem congr (h : c.Hosts i t) (hnode : c'.node i = c.node i)
    (hduties : (c.dutiesOf i).Perm (c'.dutiesOf i))
    (herrands : (c.errandsOf i).Perm (c'.errandsOf i)) : c'.Hosts i t :=
  ⟨h.node.trans hnode.symm, h.duties.trans hduties, h.errands.trans herrands⟩

theorem set_of_ne (h : c.Hosts i t) (hne : j ≠ i) (n : Node) (l : Log ι) : (c.set j n l).Hosts i t :=
  h.congr (Function.update_of_ne hne.symm ..) (.refl _) (.refl _)

theorem set_self (h : c.Hosts i t) (n : Node) (l : Log ι) :
    (c.set i n l).Hosts i { t with node := n } :=
  ⟨(Function.update_self i n c.node).symm, h.duties, h.errands⟩

theorem launch_of_ne (h : c.Hosts i t) (hne : j ≠ i) (xs : List Errand) :
    (c.launch j xs).Hosts i t := by
  refine h.congr rfl (.refl _) ?_
  rw [errandsOf_launch, if_neg hne, List.append_nil]

theorem launch_self (h : c.Hosts i t) (xs : List Errand) :
    (c.launch i xs).Hosts i (t.launch xs) := by
  refine ⟨h.node, h.duties, ?_⟩
  rw [errandsOf_launch, if_pos rfl]
  exact h.errands.append_right _

theorem owe_of_ne (h : c.Hosts i t) (hne : j ≠ i) (d : Duty) : (c.owe j d).Hosts i t := by
  refine h.congr rfl ?_ (.refl _)
  rw [dutiesOf_owe, if_neg hne, List.nil_append]

theorem owe_self (h : c.Hosts i t) (d : Duty) : (c.owe i d).Hosts i (t.owe d) := by
  refine ⟨h.node, ?_, h.errands⟩
  rw [dutiesOf_owe, if_pos rfl]
  exact h.duties.cons d

theorem answer (h : c.Hosts i t) (hx : x ∈ c.exchanges) (r : Reply) : (c.answer x r).Hosts i t :=
  h.congr rfl (.refl _) (errandsOf_answer hx r i).symm

theorem discharge_of_ne (h : c.Hosts i t) (hne : j ≠ i) (hd : (j, d) ∈ c.duties) :
    (c.discharge j d).Hosts i t := by
  refine h.congr rfl ?_ (.refl _)
  have hduties := dutiesOf_discharge hd i
  rwa [if_neg hne] at hduties

theorem discharge_self (h : c.Hosts i t) (hd : (i, d) ∈ c.duties) :
    d ∈ t.duties ∧ (c.discharge i d).Hosts i { t with duties := t.duties.erase d } := by
  have hduties := dutiesOf_discharge hd i
  rw [if_pos rfl] at hduties
  have hall : t.duties.Perm (d :: (c.discharge i d).dutiesOf i) := h.duties.trans hduties
  have hmem : d ∈ t.duties := hall.mem_iff.2 List.mem_cons_self
  exact ⟨hmem, h.node, (List.cons_perm_iff_perm_erase.1 hall.symm).2.symm, h.errands⟩

theorem close_of_ne (h : c.Hosts i t) (hne : x.source ≠ i) (hx : x ∈ c.exchanges) :
    (c.close x).Hosts i t := by
  refine h.congr rfl (.refl _) ?_
  have herrands := errandsOf_close hx i
  rwa [if_neg hne] at herrands

theorem close_self (h : c.Hosts i t) (hi : x.source = i) (hx : x ∈ c.exchanges) :
    x.errand ∈ t.errands ∧
      (c.close x).Hosts i { t with errands := t.errands.erase x.errand } := by
  have herrands := errandsOf_close hx i
  rw [if_pos hi] at herrands
  have hall : t.errands.Perm (x.errand :: (c.close x).errandsOf i) := h.errands.trans herrands
  have hmem : x.errand ∈ t.errands := hall.mem_iff.2 List.mem_cons_self
  exact ⟨hmem, h.node, h.duties, (List.cons_perm_iff_perm_erase.1 hall.symm).2.symm⟩

end Hosts

/-! ## What the node itself does -/

/-- A run of the station leads to where it is hosted by the cluster. -/
def Follows (c' : Cluster ι) (i : ι) (t : Station) : Prop :=
  ∃ t', Reaches Station.step (fun _ _ => True) t t' ∧ c'.Hosts i t'

theorem Hosts.follows (h : c.Hosts i t) : c.Follows i t := ⟨t, .refl, h⟩

theorem follows_of_step {a : Station.Action} (hstep : t.step a = some t') (h : c.Hosts i t') :
    c.Follows i t := ⟨t', .single trivial hstep, h⟩

namespace Hosts

theorem put (h : c.Hosts i t) {key value : String} (hstep : c.put j key value = some c') :
    c'.Follows i t := by
  unfold Cluster.put at hstep
  split at hstep
  next => cases hstep
  next n u hput =>
    cases hstep
    by_cases hj : j = i
    · subst hj
      refine follows_of_step (a := .put key value) ?_ ((h.set_self n _).owe_self (.broadcast u))
      rw [Station.step, Station.put, h.node, hput]
    · exact ((h.set_of_ne hj n _).owe_of_ne hj _).follows

theorem perform (h : c.Hosts i t) (hstep : c.perform j d = some c') : c'.Follows i t := by
  unfold Cluster.perform at hstep
  split at hstep
  next hd =>
    cases hstep
    by_cases hj : j = i
    · subst hj
      obtain ⟨hmem, hdischarged⟩ := h.discharge_self hd
      refine follows_of_step (a := .perform d) ?_ (hdischarged.launch_self (d.errands (c.node j)))
      rw [Station.step, Station.perform, if_pos hmem, h.node]
    · exact ((h.launch_of_ne hj _).discharge_of_ne hj hd).follows
  next => cases hstep

theorem retry (h : c.Hosts i t) (haddressed : t.node.outbox.Addressed) {a : Address}
    (hstep : c.retry j a = some c') : c'.Follows i t := by
  unfold Cluster.retry at hstep
  split at hstep
  next p q rest hqueue =>
    cases hstep
    by_cases hj : j = i
    · subst hj
      rw [← h.node] at hqueue
      obtain rfl : p.address = a := haddressed a _ hqueue
      have hp : p ∈ t.startPass.batches :=
        List.mem_append_right _ (List.mem_map.2 ⟨_, Outbox.mem_waiting.2 ⟨⟨_, hqueue⟩, nofun⟩, rfl⟩)
      have hcopy : t.startPass.step (.copy p) = some
          ({ t.startPass with batches := t.startPass.batches.erase p }.launch
            [.retry p q rest]) := by
        have hpending : t.startPass.node.outbox.pendingFor p.address = q :: rest := by
          rw [Station.startPass, Outbox.pendingFor, hqueue]
        rw [Station.step, Station.copy, if_pos hp, hpending]
        rfl
      have hpass : Reaches Station.step (fun _ _ => True) t t.startPass :=
        .single (a := .startPass) trivial rfl
      have hhosts : c.Hosts j { t.startPass with batches := t.startPass.batches.erase p } :=
        ⟨h.node, h.duties, h.errands⟩
      exact ⟨_, hpass.step trivial hcopy, hhosts.launch_self _⟩
    · exact (h.launch_of_ne hj _).follows
  next => cases hstep

theorem join (h : c.Hosts i t) (hstep : c.join j = some c') : c'.Follows i t := by
  obtain ⟨seed, hseed, rfl⟩ := Option.map_eq_some_iff.1 hstep
  by_cases hj : j = i
  · subst hj
    refine follows_of_step (a := .join) ?_ (h.launch_self [.join (c.node j).identity seed])
    rw [Station.step, Station.join, h.node, hseed]
    rfl
  · exact (h.launch_of_ne hj _).follows

theorem bootstrap (h : c.Hosts i t) (source : Peer) :
    (c.launch j [.transfer source]).Follows i t := by
  by_cases hj : j = i
  · subst hj
    exact follows_of_step (a := .bootstrap source) rfl (h.launch_self _)
  · exact (h.launch_of_ne hj _).follows

theorem reconcile (h : c.Hosts i t) (l : Log ι) : (c.set j (c.node j).reconcile l).Follows i t := by
  by_cases hj : j = i
  · subst hj
    refine follows_of_step (a := .reconcile) ?_ (h.set_self _ l)
    rw [Station.step, h.node]
  · exact (h.set_of_ne hj _ l).follows

theorem handle (h : c.Hosts i t) {channel : Channel} {m : Message}
    (hstep : c.handle j channel m = some (c', r)) :
    c'.Follows i t ∧ c'.exchanges = c.exchanges := by
  unfold Cluster.handle at hstep
  split at hstep
  next => cases hstep
  next n reply hhandle =>
    cases hstep
    refine ⟨?_, rfl⟩
    by_cases hj : j = i
    · subst hj
      refine follows_of_step (a := .handle m) ?_ (h.set_self n _)
      rw [Station.step, h.node, Node.act_handle_of_handleOn hhandle]
    · exact (h.set_of_ne hj n _).follows

theorem arrive (h : c.Hosts i t) (hstep : c.arrive x j = some c') : c'.Follows i t := by
  unfold Cluster.arrive at hstep
  split at hstep
  next hx =>
    obtain ⟨⟨c₁, r⟩, hhandle, rfl⟩ := Option.map_eq_some_iff.1 hstep
    obtain ⟨⟨t', hrun, h'⟩, hexchanges⟩ := h.handle hhandle
    exact ⟨t', hrun, h'.answer (hexchanges ▸ hx.1) r⟩
  next => cases hstep

theorem stray (h : c.Hosts i t) {e : Endpoint} {m : Message} (hstep : c.stray e m j = some c') :
    c'.Follows i t := by
  unfold Cluster.stray at hstep
  split at hstep
  next =>
    obtain ⟨⟨c₁, r⟩, hhandle, rfl⟩ := Option.map_eq_some_iff.1 hstep
    exact (h.handle hhandle).1
  next => cases hstep

theorem afterSend (h : c.Hosts i t) (s : Send) (o : Outcome) :
    (c.afterSend i s o).Hosts i (t.afterSend s o) := by
  have hset := h.set_self ((c.node i).afterSend s o) c.toLog
  exact ⟨(congrArg (·.afterSend s o) h.node).trans hset.node, h.duties, h.errands⟩

theorem afterRetry (h : c.Hosts i t) (p : Peer) (q : Queued) (rest : List Queued) (o : Outcome) :
    (c.afterRetry i p q rest o).Hosts i (t.afterRetry p q rest o) := by
  unfold Cluster.afterRetry Station.afterRetry
  rw [h.node]
  exact (h.set_self _ _).launch_self _

theorem afterJoin (h : c.Hosts i t) (seed : Seed) (o : Outcome) :
    (c.afterJoin i seed o).Hosts i (t.afterJoin seed o) := by
  unfold Cluster.afterJoin Station.afterJoin
  rw [h.node]
  cases (c.node i).concludeJoin seed o with
  | error e => exact h
  | ok r => exact (h.set_self _ _).owe_self _

theorem afterTransfer (h : c.Hosts i t) {failure : Option ExchangeError}
    (ho : x.outcome? failure = some o) :
    (c.afterTransfer i x.capture? o).Hosts i { t with node := t.node.act (.transfer o) } := by
  unfold Cluster.afterTransfer
  rw [Node.act, h.node]
  cases hend : (c.node i).concludeTransfer o with
  | error e => exact ⟨rfl, h.duties, h.errands⟩
  | ok r =>
    obtain ⟨s, rfl, -⟩ := Node.concludeTransfer_eq_ok hend
    obtain ⟨k, hk⟩ := Exchange.exists_capture ho
    rw [hk]
    have hset := h.set_self r.1 (c.group.installed i k).toLog
    exact ⟨hset.node, hset.duties, hset.errands⟩

theorem conclude_self (h : c.Hosts x.source t) {failure : Option ExchangeError}
    (ho : x.outcome? failure = some o) :
    (c.conclude x o).Hosts x.source (t.conclude x.errand o) := by
  obtain ⟨i, errand, reply⟩ := x
  cases errand with
  | send s => exact h.afterSend s o
  | retry p q rest => exact h.afterRetry p q rest o
  | join self seed => exact h.afterJoin seed o
  | transfer source => exact h.afterTransfer ho

theorem conclude_of_ne (h : c.Hosts i t) (hne : x.source ≠ i) (o : Outcome) :
    (c.conclude x o).Hosts i t := by
  obtain ⟨j, errand, reply⟩ := x
  cases errand with
  | send s =>
    have hset := h.set_of_ne hne ((c.node j).afterSend s o) c.toLog
    exact ⟨hset.node, hset.duties, hset.errands⟩
  | retry p q rest => exact (h.set_of_ne hne _ _).launch_of_ne hne _
  | join self seed =>
    change (c.afterJoin j seed o).Hosts i t
    unfold Cluster.afterJoin
    split
    next => exact h
    next => exact (h.set_of_ne hne _ _).owe_of_ne hne _
  | transfer source =>
    change (c.afterTransfer j _ o).Hosts i t
    unfold Cluster.afterTransfer
    split
    next n report k _ _ =>
      have hset := h.set_of_ne hne n (c.group.installed j k).toLog
      exact ⟨hset.node, hset.duties, hset.errands⟩
    next => exact h

end Hosts

/-- What ends an exchange does not go by the exchange itself. -/
theorem conclude_close (hx : x ∈ c.exchanges) (o : Outcome) :
    (c.conclude x o).close x = (c.close x).conclude x o := by
  obtain ⟨i, errand, reply⟩ := x
  cases errand with
  | send s => rfl
  | retry p q rest =>
    dsimp only [conclude, afterRetry, launch, close, set]
    rw [List.erase_append_left _ hx]
  | join self seed =>
    dsimp only [conclude, afterJoin, close]
    cases (c.node i).concludeJoin seed o <;> rfl
  | transfer source =>
    dsimp only [conclude, afterTransfer, close]
    cases (c.node i).concludeTransfer o with
    | error e => rfl
    | ok r => cases Exchange.capture? ⟨i, .transfer source, reply⟩ <;> rfl

theorem Hosts.finish (h : c.Hosts i t) {failure : Option ExchangeError}
    (hstep : c.finish x failure = some c') : c'.Follows i t := by
  unfold Cluster.finish at hstep
  split at hstep
  next hx =>
    obtain ⟨o, ho, rfl⟩ := Option.map_eq_some_iff.1 hstep
    rw [conclude_close hx]
    by_cases hi : x.source = i
    · subst hi
      obtain ⟨hmem, hclosed⟩ := h.close_self rfl hx
      refine follows_of_step (a := .finish x.errand o) ?_ (hclosed.conclude_self ho)
      rw [Station.step, Station.finish, if_pos hmem]
    · exact ((h.close_of_ne hi hx).conclude_of_ne hi o).follows
  next => cases hstep

theorem Hosts.step (h : c.Hosts i t) (haddressed : t.node.outbox.Addressed) {a : Action ι}
    (hstep : c.step a = some c') : c'.Follows i t := by
  cases a with
  | put j key value => exact h.put hstep
  | perform j d => exact h.perform hstep
  | retry j a => exact h.retry haddressed hstep
  | join j => exact h.join hstep
  | bootstrap j source => cases hstep; exact h.bootstrap source
  | reconcile j => cases hstep; exact h.reconcile _
  | arrive x j => exact h.arrive hstep
  | stray e m j => exact h.stray hstep
  | finish x failure => exact h.finish hstep

/-- Whatever happens in a cluster, each of its nodes does what a station can do. -/
theorem exists_station {conf : ι → Settings} {allowed : Cluster ι → Action ι → Prop}
    (h : Reaches step allowed (start fun i => .fresh (conf i)) c) (i : ι) :
    ∃ t, Reaches Station.step (fun _ _ => True) (.start (.fresh (conf i))) t ∧ c.Hosts i t := by
  induction h with
  | refl => exact ⟨_, .refl, rfl, .refl _, .refl _⟩
  | step _ _ hstep ih =>
    obtain ⟨t, ht, hhosts⟩ := ih
    obtain ⟨t', ht', hhosts'⟩ := hhosts.step (Station.Sound.of_reaches ht).addressed hstep
    exact ⟨t', ht.trans ht', hhosts'⟩

/-- In a cluster too, retries go where the first attempts went. -/
theorem exists_faithful {conf : ι → Settings} {allowed : Cluster ι → Action ι → Prop}
    (h : Reaches step allowed (start fun i => .fresh (conf i)) c) (i : ι) :
    ∃ t, c.Hosts i t ∧ t.Faithful := by
  obtain ⟨t, ht, hhosts⟩ := exists_station h i
  exact ⟨t, hhosts, (Station.Sound.of_reaches ht).faithful⟩

end Cluster
end CausalStore
