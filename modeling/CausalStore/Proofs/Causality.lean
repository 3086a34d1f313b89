import CausalStore.Proofs.Groups

/-!
# Clocks capture causality

`Group.Sound` relates every clock of a group, live, frozen in an update, or on its way in a
snapshot, to the history that it stands for. Each action keeps it (`SoundFor.step`), so it holds of
every run, and there the order of two clocks is the order in which the writes happened
(`Sound.happenedBefore_iff`).
-/

namespace CausalStore

variable {ι : Type} {made : List Update} {e : Engine} {us : List Update}
  {h : Finset Update}

/-- The clock of `u` stands for some of the writes, `u` among them. -/
def Frozen (made : List Update) (u : Update) : Prop := ∃ k, Covers made u.clock k ∧ u ∈ k

theorem Covers.applyAll (hN : Numbered made) (H : Covers made e.clock h) (hus : e.InTurn us)
    (hfrozen : ∀ u ∈ us, Frozen made u) : Covers made (e.applyAll us).clock (h ∪ us.toFinset) := by
  induction us generalizing e h with
  | nil => simpa using H
  | cons u us ih =>
    obtain ⟨k, Hu, hu⟩ := hfrozen u List.mem_cons_self
    have := ih (H.apply hN Hu hu hus.1) hus.2 fun v hv => hfrozen v (List.mem_cons_of_mem _ hv)
    rwa [Finset.insert_union, ← Finset.union_insert, ← List.toFinset_cons] at this

theorem Covers.reconcile (hN : Numbered made) (H : Covers made e.clock h)
    (hfrozen : ∀ u ∈ e.pending, Frozen made u) :
    Covers made e.reconcile.1.clock (h ∪ e.reconciled.toFinset) := by
  rw [Engine.reconcile_clock]
  exact H.applyAll hN e.inTurn_reconciled fun u hu =>
    hfrozen u (Engine.mem_pending_of_mem_reconciled hu)

namespace Group

variable {ids : ι → NodeId} {g g' : Group ι} {i : ι} {e' : Engine} {gained : Finset Update}
  {u v : Update} {c : Capture}

/-- Every clock stands for a history, and the engines in `author` have counted all writes that were
made under their ids. -/
structure SoundFor (ids : ι → NodeId) (author : ι → Prop) (g : Group ι) : Prop where
  localId : ∀ i, (g.engine i).localId = ids i
  numbered : Numbered g.made
  live : ∀ i, Covers g.made (g.engine i).clock (g.history i)
  own : ∀ i, author i → (g.engine i).clock.count (ids i) = writesOf g.made (ids i)
  frozen : ∀ w ∈ g.writes, Covers g.made w.update.clock (insert w.update w.past) ∧ w.update ∉ w.past
  ordered : g.writes.Pairwise fun later earlier => later.update ∉ earlier.past
  captured : ∀ c ∈ g.captures, Covers g.made c.snapshot.clock c.history
  buffered : ∀ i, ∀ u ∈ (g.engine i).pending, u ∈ g.made

/-- Every clock stands for a history, and every engine has counted all that it wrote. -/
abbrev Sound (ids : ι → NodeId) (g : Group ι) : Prop := g.SoundFor ids fun _ => True

theorem exists_write (hu : u ∈ g.made) : ∃ w ∈ g.writes, w.update = u := List.mem_map.1 hu

theorem mem_made_of_write {w : Write} (hw : w ∈ g.writes) : w.update ∈ g.made :=
  List.mem_map_of_mem hw

namespace Sound

theorem unused {engine : ι → Engine} (hid : ∀ i, (engine i).localId = ids i)
    (h : ∀ i, (engine i).Unused) : Group.Sound ids ⟨.empty, engine⟩ where
  localId := hid
  numbered := trivial
  live i := .empty trivial (h i).clock
  own i _ := (h i).clock _
  frozen _ hw := nomatch hw
  ordered := .nil
  captured _ hc := nomatch hc
  buffered i u hu := by rw [(h i).pending] at hu; cases hu

theorem start : (start ids).Sound ids := unused (fun _ => rfl) fun _ => .new

end Sound

namespace SoundFor

variable {author : ι → Prop}

theorem frozen_of_mem (H : g.SoundFor ids author) (hu : u ∈ g.made) : Frozen g.made u := by
  obtain ⟨w, hw, rfl⟩ := exists_write hu
  exact ⟨_, (H.frozen w hw).1, Finset.mem_insert_self ..⟩

theorem capture (H : g.SoundFor ids author) : (g.captured i).SoundFor ids author :=
  { H with
    captured := fun c hc => by
      rcases List.mem_cons.1 hc with rfl | hc
      · exact H.live i
      · exact H.captured c hc }

end SoundFor

/-! ## The actions -/

variable [DecidableEq ι]

/-- A write is counted and stored, and then the buffer is drained. -/
theorem wrote_eq : g.wrote i ((g.engine i).record u).reconcile.1 u = Group.reconciled
    { g.set i ((g.engine i).record u) {u} with writes := ⟨u, g.history i⟩ :: g.writes } i := by
  simp only [wrote, reconciled, set, Function.update_self, Function.update_idem, Finset.insert_eq,
    Finset.union_assoc]

theorem set_engine_self : (g.set i e' gained).engine i = e' := Function.update_self ..

theorem set_engine_of_ne {j : ι} (hj : j ≠ i) : (g.set i e' gained).engine j = g.engine j :=
  Function.update_of_ne hj ..

theorem set_history_self : (g.set i e' gained).history i = g.history i ∪ gained :=
  Function.update_self ..

theorem set_history_of_ne {j : ι} (hj : j ≠ i) : (g.set i e' gained).history j = g.history j :=
  Function.update_of_ne hj ..

/-- What holds of the engine that is set and of all others holds of each engine. -/
theorem forall_set {P : ι → Engine → Finset Update → Prop} (gained : Finset Update)
    (hi : P i e' (g.history i ∪ gained)) (hne : ∀ j, j ≠ i → P j (g.engine j) (g.history j))
    (j : ι) : P j ((g.set i e' gained).engine j) ((g.set i e' gained).history j) := by
  rcases eq_or_ne j i with rfl | hj
  · rwa [set_engine_self, set_history_self]
  · rw [set_engine_of_ne hj, set_history_of_ne hj]
    exact hne j hj

theorem mem_set_history (e : Engine) (gained : Finset Update) {j : ι} (hu : u ∈ g.history j) :
    u ∈ (g.set i e gained).history j := by
  have hsub : g.history j ⊆ (g.set i e gained).history j :=
    forall_set (P := fun j _ h => g.history j ⊆ h) gained Finset.subset_union_left
      (fun _ _ => subset_rfl) j
  exact hsub hu

namespace SoundFor

variable {author : ι → Prop}

/-- What an engine turns into keeps the group sound when its clock has only grown, and stands for
what it has gained. -/
theorem set (H : g.SoundFor ids author) (hid : e'.localId = (g.engine i).localId)
    (hlive : Covers g.made e'.clock (g.history i ∪ gained))
    (hdom : e'.clock.dominates (g.engine i).clock = true) (hbuf : ∀ u ∈ e'.pending, u ∈ g.made) :
    (g.set i e' gained).SoundFor ids author where
  localId := forall_set (P := fun j e _ => e.localId = ids j) gained
    (hid.trans (H.localId i)) fun j _ => H.localId j
  numbered := H.numbered
  live := forall_set (P := fun _ e h => Covers g.made e.clock h) gained hlive fun j _ => H.live j
  own := by
    refine forall_set
      (P := fun j e _ => author j → e.clock.count (ids j) = writesOf g.made (ids j)) gained
      (fun hi => ?_) fun j _ => H.own j
    refine Nat.le_antisymm (hlive.bounded _) ?_
    exact (H.own i hi).ge.trans (Clock.dominates_iff.1 hdom _)
  frozen := H.frozen
  ordered := H.ordered
  captured := H.captured
  buffered := forall_set (P := fun _ e _ => ∀ u ∈ e.pending, u ∈ g.made) gained hbuf
    fun j _ => H.buffered j

/-- An engine that applied writes, or covered a snapshot, and then drained its buffer. -/
theorem set_reconcile (H : g.SoundFor ids author) (hid : e.localId = (g.engine i).localId)
    (hlive : Covers g.made e.clock (g.history i ∪ gained))
    (hdom : e.clock.dominates (g.engine i).clock = true)
    (hpend : e.pending = (g.engine i).pending) :
    (g.set i e.reconcile.1 (gained ∪ e.reconciled.toFinset)).SoundFor ids author := by
  have hbuf : ∀ u ∈ e.pending, u ∈ g.made := fun u hu => H.buffered i u (hpend ▸ hu)
  refine H.set (e.reconcile_localId.trans hid) ?_
    (Clock.dominates_trans e.reconcile_dominates hdom)
    fun u hu => hbuf u (Engine.mem_pending_of_mem_reconcile hu)
  rw [← Finset.union_assoc]
  exact hlive.reconcile H.numbered fun u hu => H.frozen_of_mem (hbuf u hu)

theorem received (H : g.SoundFor ids author) (hu : u ∈ g.made) :
    (g.received i u).SoundFor ids author := by
  unfold Group.received
  obtain ⟨-, he, hd⟩ | ⟨hadm, he, hd⟩ | ⟨-, -, he, hd⟩ := (g.engine i).receive_cases u
  · rw [he, hd]
    refine H.set rfl ?_ (Clock.dominates_refl _) (H.buffered i)
    rw [List.toFinset_nil, Finset.union_empty]
    exact H.live i
  · obtain ⟨k, Hu, hk⟩ := H.frozen_of_mem hu
    rw [he, hd, List.toFinset_cons, Finset.insert_eq]
    refine H.set_reconcile rfl ?_ (Clock.dominates_merge_left ..) rfl
    rw [Finset.union_comm, ← Finset.insert_eq]
    exact (H.live i).apply H.numbered Hu hk hadm
  · rw [he, hd]
    refine H.set rfl ?_ (Clock.dominates_refl _) fun v hv => ?_
    · rw [List.toFinset_nil, Finset.union_empty]
      exact H.live i
    · dsimp only at hv
      split at hv
      · exact H.buffered i v hv
      · rcases List.mem_append.1 hv with hv | hv
        · exact H.buffered i v hv
        · exact List.mem_singleton.1 hv ▸ hu

theorem extended (H : g.SoundFor ids author) (id : NodeId) :
    (g.extended i id).SoundFor ids author := by
  refine H.set rfl ?_ (Clock.dominates_iff.2 fun o => ?_) (H.buffered i)
  · rw [Finset.union_empty]
    exact (H.live i).congr fun o => Clock.count_addDimension
  · exact Clock.count_addDimension.ge

theorem reconciled (H : g.SoundFor ids author) : (g.reconciled i).SoundFor ids author := by
  have hlive : Covers g.made (g.engine i).clock (g.history i ∪ ∅) := by
    rw [Finset.union_empty]
    exact H.live i
  have := H.set_reconcile rfl hlive (Clock.dominates_refl _) rfl
  rwa [Finset.empty_union] at this

theorem installed (H : g.SoundFor ids author) (hc : c ∈ g.captures) :
    (g.installed i c).SoundFor ids author :=
  H.set_reconcile rfl ((H.live i).merge (H.captured c hc)) (Clock.dominates_merge_left ..) rfl

/-- Once the author of a new write has counted it, everything else in the group stays as it was. -/
theorem record (hids : Function.Injective ids) (H : g.SoundFor ids author) (hi : author i)
    (ho : u.origin = ids i) (hinc : (g.engine i).clock.increment (ids i) = .ok u.clock) :
    Group.SoundFor ids author { g.set i ((g.engine i).record u) {u} with
      writes := ⟨u, g.history i⟩ :: g.writes } := by
  have hown : (g.engine i).clock.count u.origin = writesOf g.made u.origin :=
    ho ▸ H.own i hi
  have hnum : u.number = writesOf g.made u.origin + 1 := by
    rw [Update.number, ← hown, ho]
    exact (Clock.increment_spec hinc).1
  have hcov := (H.live i).increment H.numbered hown (ho ▸ hinc)
  have hnew : u ∉ g.made := Numbered.not_mem ⟨hnum, H.numbered⟩
  have hpast : ∀ w ∈ g.writes, u ∉ w.past := fun w hw hu =>
    hnew ((H.frozen w hw).1.mem (Finset.mem_insert_of_mem hu))
  refine ⟨?_, ⟨hnum, H.numbered⟩, ?_, ?_, fun w hw => ?_,
    List.pairwise_cons.2 ⟨hpast, H.ordered⟩, fun c hc => (H.captured c hc).cons hnum, ?_⟩
  · exact forall_set (P := fun j e _ => e.localId = ids j) {u} (H.localId i)
      fun j _ => H.localId j
  · refine forall_set (P := fun _ e h => Covers (u :: g.made) e.clock h) {u} ?_
      fun j _ => (H.live j).cons hnum
    rwa [Finset.union_comm, ← Finset.insert_eq]
  · refine forall_set
      (P := fun j e _ => author j → e.clock.count (ids j) = writesOf (u :: g.made) (ids j)) {u}
      (fun _ => ?_) fun j hj hauthor => ?_
    · exact ho ▸ hnum.trans writesOf_cons_self.symm
    · rw [H.own j hauthor]
      exact (writesOf_cons_of_ne fun e => hj (hids (e.symm.trans ho))).symm
  · rcases List.mem_cons.1 hw with rfl | hw
    · exact ⟨hcov, fun hu => hnew ((H.live i).mem hu)⟩
    · exact ⟨(H.frozen w hw).1.cons hnum, (H.frozen w hw).2⟩
  · have hbuf : ∀ j, ∀ v ∈ (g.engine j).pending, v ∈ u :: g.made := fun j v hv =>
      List.mem_cons_of_mem _ (H.buffered j v hv)
    exact forall_set (P := fun _ e _ => ∀ v ∈ e.pending, v ∈ u :: g.made) {u} (hbuf i)
      fun j _ => hbuf j

theorem wrote (hids : Function.Injective ids) (H : g.SoundFor ids author) (hi : author i)
    {key value : String} (hw : (g.engine i).write key value = .ok (e, u)) :
    (g.wrote i e u).SoundFor ids author := by
  obtain ⟨-, -, ho, hinc, rfl⟩ := Engine.write_eq_ok_iff.1 hw
  rw [H.localId i] at ho hinc
  rw [wrote_eq]
  exact (H.record hids hi ho hinc).reconciled

theorem step (hids : Function.Injective ids) (H : g.SoundFor ids author) {a : Action ι}
    (ha : ∀ i key value, a = .write i key value → author i) (h : g.step a = some g') :
    g'.SoundFor ids author := by
  cases a with
  | write i key value =>
    simp only [Group.step] at h
    split at h
    next => cases h
    next e u hw => cases h; exact H.wrote hids (ha i key value rfl) hw
  | receive i u =>
    simp only [Group.step, Option.ite_none_right_eq_some, Option.some.injEq] at h
    obtain ⟨hu, rfl⟩ := h
    exact H.received hu
  | addServer i id => cases h; exact H.extended id
  | reconcile i => cases h; exact H.reconciled
  | capture i => cases h; exact H.capture
  | install i c =>
    simp only [Group.step, Option.ite_none_right_eq_some, Option.some.injEq] at h
    obtain ⟨hc, rfl⟩ := h
    exact H.installed hc

end SoundFor

namespace Sound

theorem record (hids : Function.Injective ids) (H : g.Sound ids) (ho : u.origin = ids i)
    (hinc : (g.engine i).clock.increment (ids i) = .ok u.clock) :
    Group.Sound ids { g.set i ((g.engine i).record u) {u} with
      writes := ⟨u, g.history i⟩ :: g.writes } :=
  SoundFor.record hids H trivial ho hinc

theorem step (hids : Function.Injective ids) (H : g.Sound ids) {a : Action ι}
    (h : g.step a = some g') : g'.Sound ids :=
  SoundFor.step hids H (fun _ _ _ _ => trivial) h

theorem of_reaches {allowed : Group ι → Action ι → Prop} (hids : Function.Injective ids)
    (H : g.Sound ids) (h : Reaches Group.step allowed g g') : g'.Sound ids :=
  h.keeps H fun H _ hs => H.step hids hs

end Sound

/-! ## What happened before what -/

namespace Sound

omit [DecidableEq ι]

theorem happenedBefore_iff (H : g.Sound ids) (hu : u ∈ g.made) (hv : v ∈ g.made) (hne : u ≠ v) :
    g.HappenedBefore u v ↔ v.clock.dominates u.clock = true := by
  have hpast : ∀ w ∈ g.writes, w.update = v → (u ∈ w.past ↔ v.clock.dominates u.clock = true) := by
    rintro w hw rfl
    rw [(H.frozen w hw).1.dominates_iff hu, Finset.mem_insert]
    exact ⟨.inr, fun h => h.resolve_left hne⟩
  obtain ⟨w, hw, hwv⟩ := exists_write hv
  constructor
  · rintro ⟨w, hw, hwv, hmem⟩
    exact (hpast w hw hwv).1 hmem
  · exact fun hdom => ⟨w, hw, hwv, (hpast w hw hwv).2 hdom⟩

/-- Two writes do not know each other: the earlier one was made before the later one existed. -/
theorem happenedBefore_asymm (H : g.Sound ids) (huv : g.HappenedBefore u v) :
    ¬ g.HappenedBefore v u := by
  obtain ⟨w, hw, rfl, hu⟩ := huv
  rintro ⟨w', hw', rfl, hv⟩
  let R (w w' : Write) : Prop := w.update ∉ w'.past ∨ w'.update ∉ w.past
  have hR : ∀ w ∈ g.writes, ∀ w' ∈ g.writes, R w w' := fun _ h₁ _ h₂ =>
    List.Pairwise.forall_of_forall_of_flip (R := R) (fun w hw => .inl (H.frozen w hw).2)
      (H.ordered.imp fun h => .inl h) (H.ordered.imp fun h => .inr h) h₁ h₂
  rcases hR w hw w' hw' with h | h
  · exact h hv
  · exact h hu

/-- A history holds, with each write, all that happened before it. -/
theorem mem_history_of_happenedBefore (H : g.Sound ids) (hu : u ∈ g.history i)
    (hvu : g.HappenedBefore v u) : v ∈ g.history i := by
  obtain ⟨w, hw, rfl, hv⟩ := hvu
  obtain ⟨hmade, hle⟩ := ((H.frozen w hw).1.mem_iff v).1 (Finset.mem_insert_of_mem hv)
  have hdom := Clock.dominates_iff.1 ((H.live i).closed _ hu) v.origin
  exact ((H.live i).mem_iff v).2 ⟨hmade, hle.trans hdom⟩

end Sound

/-- In every run of engines with distinct ids, a history is the set of writes that the clock has
reached, it is closed under what happened before, no write is made twice, and the clocks of two
writes tell which of them happened before the other, if either did. -/
theorem clocks_capture_causality (hids : Function.Injective ids)
    (h : Reaches step (fun _ _ => True) (start ids) g) :
    (∀ i u, u ∈ g.history i ↔ u ∈ g.made ∧ u.sequence ≤ (g.engine i).clock.get u.origin) ∧
    (∀ i u v, u ∈ g.history i → g.HappenedBefore v u → v ∈ g.history i) ∧
    g.made.Nodup ∧
    ∀ u ∈ g.made, ∀ v ∈ g.made, u ≠ v →
      (u.clock.order v.clock = .before ↔ g.HappenedBefore u v) ∧
      (u.clock.order v.clock = .after ↔ g.HappenedBefore v u) ∧
      (u.clock.order v.clock = .concurrent ↔ ¬ g.HappenedBefore u v ∧ ¬ g.HappenedBefore v u) := by
  have H : g.Sound ids := Sound.start.of_reaches hids h
  refine ⟨fun i u => ?_, fun i u v => H.mem_history_of_happenedBefore, H.numbered.nodup,
    fun u hu v hv hne => ?_⟩
  · rw [(H.live i).mem_iff, Update.sequence, Clock.get_le_get_iff]
    rfl
  have huv := H.happenedBefore_iff hu hv hne
  have hvu := H.happenedBefore_iff hv hu hne.symm
  rw [Clock.order_eq_before_iff, Clock.order_eq_after_iff, Clock.order_eq_concurrent_iff,
    ← Bool.not_eq_true, ← Bool.not_eq_true, ← huv, ← hvu]
  refine ⟨⟨And.left, fun h => ⟨h, H.happenedBefore_asymm h⟩⟩,
    ⟨And.left, fun h => ⟨h, H.happenedBefore_asymm h⟩⟩, and_comm⟩

/-! A write that is passed on: `b` has `first` when it writes `second`, which reaches `c` before
`first` does. -/

def trio : Fin 3 → NodeId := fun i => ["a", "b", "c"][i]

def first : Update := ⟨"x", "1", "a", .ofList [("a", 1)]⟩

def second : Update := ⟨"y", "2", "b", .ofList [("a", 1), ("b", 1)]⟩

def relay : List (Action (Fin 3)) :=
  [.write 0 "x" "1", .receive 1 first, .write 1 "y" "2", .receive 2 second, .capture 0,
    .install 2 ⟨⟨.ofList [("x", first.entry)], first.clock⟩, {first}⟩]

theorem relay_first_happenedBefore_second :
    ∃ g, runAll step (start trio) relay = some g ∧ g.HappenedBefore first second := by
  have hids : Function.Injective trio := by unfold Function.Injective; decide
  have hmade : (runAll step (start trio) relay).map (·.made) = some [second, first] := by
    decide +kernel
  obtain ⟨g, hg, hmade⟩ := Option.map_eq_some_iff.1 hmade
  have hrun : Reaches step (fun _ _ => True) (start trio) g := .of_runAll hg
  refine ⟨g, hg, ?_⟩
  have horder := (clocks_capture_causality hids hrun).2.2.2 first (by simp [hmade]) second
    (by simp [hmade]) (by decide)
  exact horder.1.1 (by decide +kernel)

end Group

end CausalStore
