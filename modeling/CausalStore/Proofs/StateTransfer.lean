import CausalStore.Proofs.Growth
import CausalStore.Proofs.Stores

/-!
# Stores and clocks across state transfer

A node's store keeps up with its clock as long as no snapshot is installed that has an older entry
for a key than the node has writes to it. The transfer overwrites such keys without looking, and the
clock then covers what the store has lost.
-/

namespace CausalStore

namespace Cluster

variable {ι : Type} [DecidableEq ι] {ids : ι → NodeId} {c c' : Cluster ι} {i : ι} {a : Action ι}
  {key : String} {writes : ι → Prop} {installs : Cluster ι → ι → Capture → Prop} {k : Capture}
  {P : Finset Update → Store → Prop}

/-- The node has an entry for the key that is not before any write to the key which its clock
covers. -/
def KeepsUp (key : String) (c : Cluster ι) (i : ι) : Prop :=
  ∀ u ∈ c.made, u.key = key → (c.node i).engine.clock.dominates u.clock = true →
    ∃ e, (c.node i).engine.store.get? key = some e ∧ e.clock.order u.clock ≠ .before

/-- The action installs a snapshot whose entry for the key is older than a write to it which the
installing node covers. -/
def InstallsStale (key : String) (c : Cluster ι) (a : Action ι) : Prop :=
  ∃ p ∈ installing a, c.group.Stale key p.1 p.2.snapshot

instance : Decidable (c.InstallsStale key a) :=
  inferInstanceAs (Decidable (∃ p ∈ installing a, c.group.Stale key p.1 p.2.snapshot))

theorem Move.everywhere (hP : Absorbs P) (hids : Function.Injective ids) (H : c.Proper ids)
    (E : c.group.Everywhere P) (h : Move writes installs c c')
    (hinstall : ∀ i, ∀ k ∈ c.captures, installs c i k →
      P (c.history i ∪ k.history) ((c.node i).engine.overwrite k.snapshot).store) :
    c'.group.Everywhere P := by
  refine ((h.group H.wired).keeps (P := fun g => g.Sound ids ∧ g.Everywhere P) ⟨H.sound, E⟩ ?_).2
  rintro g g' b ⟨S, E⟩ hb hs
  refine ⟨S.step hids hs, E.step hP hids S ?_ hs⟩
  rintro i k hk rfl
  obtain ⟨rfl, hI⟩ := hb
  exact hinstall i k hk hI

theorem step_holds (hids : Function.Injective ids) (H : c.Proper ids)
    (E : c.group.Everywhere Holds) (h : c.step a = some c') : c'.group.Everywhere Holds := by
  have hmoves := H.step_moves h
  clear h
  induction hmoves with
  | refl => exact E
  | tail hm h ih =>
    exact h.everywhere Holds.absorbs hids (H.moves hids hm) ih fun i k hk _ =>
      (ih.engine i).overwrite (ih.capture k hk)

theorem step_upToDate (hids : Function.Injective ids) (H : c.Proper ids)
    (E : c.group.Everywhere Holds) (U : c.group.Everywhere (UpToDate key))
    (hstale : ¬ c.InstallsStale key a) (h : c.step a = some c') :
    c'.group.Everywhere (UpToDate key) := by
  have hmoves := H.step_moves h
  clear h
  induction hmoves with
  | refl => exact U
  | tail hm h ih =>
    refine h.everywhere UpToDate.absorbs hids (H.moves hids hm) ih ?_
    rintro i k hk ⟨rfl, hk'⟩
    refine (U.engine i).overwrite (U.capture k hk) (E.capture k hk) fun d hd u hu huk hb => ?_
    refine hstale ⟨(i, k), hk', d, hd, u, (H.sound.live i).mem hu, huk, ?_, hb⟩
    exact (H.sound.live i).closed u hu

omit [DecidableEq ι] in
/-- A write that the clock of a node covers is in its history. -/
theorem Proper.mem_history (H : c.Proper ids) {u : Update} (hu : u ∈ c.made)
    (hd : (c.node i).engine.clock.dominates u.clock = true) : u ∈ c.history i :=
  ((H.sound.live i).dominates_iff hu).1 hd

omit [DecidableEq ι] in
theorem keepsUp_of_upToDate (H : c.Proper ids) (E : c.group.Everywhere Holds)
    (U : c.group.Everywhere (UpToDate key)) (i : ι) : c.KeepsUp key i := by
  intro u hu huk hd
  have hmem := H.mem_history hu hd
  obtain ⟨e, he⟩ := (E.engine i).exists_entry u hmem
  exact ⟨e, huk ▸ he, (U.engine i) u hmem huk e (huk ▸ he)⟩

omit [DecidableEq ι] in
theorem installing_eq_some (h : installing a = some (i, k)) : ∃ source,
    a = .finish ⟨i, .transfer source, some ⟨some (.stateResponse k.snapshot), k.history⟩⟩ none := by
  unfold installing at h
  split at h
  next j source reply =>
    obtain ⟨k', hk', h⟩ := Option.map_eq_some_iff.1 h
    cases h
    cases reply with
    | none => cases hk'
    | some r => exact ⟨source, by rw [Reply.capture?_eq_some hk']⟩
  next => cases h

/-- What a step makes of the node that installs a snapshot in it. -/
theorem step_installing (ha : installing a = some (i, k)) (h : c.step a = some c') :
    c'.made = c.made ∧ (c'.node i).engine = ((c.node i).engine.install k.snapshot).1 := by
  obtain ⟨source, rfl⟩ := installing_eq_some ha
  simp only [step, finish, Option.ite_none_right_eq_some, Option.map_eq_some_iff] at h
  obtain ⟨-, o, ho, rfl⟩ := h
  cases ho
  refine ⟨rfl, ?_⟩
  exact congrArg Node.engine (set_node_self (c := c) (l := (c.group.installed i k).toLog))

/-- No entry is replaced by an older one, unless a stale snapshot is installed. -/
theorem step_entry_not_before (hids : Function.Injective ids) (H : c.Proper ids)
    (E : c.group.Everywhere Holds) (U : c.group.Everywhere (UpToDate key))
    (hstale : ¬ c.InstallsStale key a) (h : c.step a = some c') {e e' : Entry}
    (he : (c.node i).engine.store.get? key = some e)
    (he' : (c'.node i).engine.store.get? key = some e') : e'.clock.order e.clock ≠ .before := by
  obtain ⟨u, hu, huk, rfl⟩ := (E.engine i).exists_write key e he
  have hgrows := (H.step_moves h).grows
  have hmade := hgrows.made u ((H.sound.live i).mem hu)
  have hdom : (c'.node i).engine.clock.dominates u.clock = true :=
    Clock.dominates_trans (hgrows.engine i).clock ((H.sound.live i).closed u hu)
  have hkeep : c'.KeepsUp key i := keepsUp_of_upToDate (H.step hids h) (step_holds hids H E h)
    (step_upToDate hids H E U hstale h) i
  obtain ⟨d, hd, hb⟩ := hkeep u hmade huk hdom
  cases he'.symm.trans hd
  exact hb

/-- Once a stale snapshot is installed, only a buffered update to the key can make up for it. -/
theorem not_keepsUp_of_stale (ha : installing a = some (i, k))
    (hstale : c.group.Stale key i k.snapshot) (h : c.step a = some c')
    (hpend : ∀ u ∈ ((c.node i).engine.overwrite k.snapshot).reconciled, u.key ≠ key) :
    ¬ c'.KeepsUp key i := by
  intro hkeep
  obtain ⟨e, he, u, hu, huk, hd, hb⟩ := hstale
  obtain ⟨hmade, hengine⟩ := step_installing ha h
  have hget : (c'.node i).engine.store.get? key = some e := by
    rw [hengine, Engine.install_fst, Engine.reconcile_store, Engine.applyAll_get?_of_ne hpend,
      Engine.overwrite_get?, Option.mem_def.1 he]
    rfl
  have hdom : (c'.node i).engine.clock.dominates u.clock = true := by
    rw [hengine, Engine.install_fst]
    exact Clock.dominates_trans (Engine.reconcile_dominates _)
      (Clock.dominates_trans (Clock.dominates_merge_left ..) hd)
  obtain ⟨e', he', hb'⟩ := hkeep u (hmade ▸ hu) huk hdom
  cases hget.symm.trans he'
  exact hb' hb

section
variable {node : ι → Node} {allowed : Cluster ι → Action ι → Prop}
  (hids : Function.Injective fun i => (node i).settings.nodeId) (hnew : ∀ i, (node i).Unused)
include hids hnew

omit [DecidableEq ι] hids in
theorem everywhere_start (hP : P ∅ .empty) : (start node).group.Everywhere P where
  engine i := by
    rw [show ((start node).group.engine i).store = .empty from (hnew i).engine.store]
    exact hP
  capture := nofun

theorem holds_of_reaches (h : Reaches step allowed (start node) c) :
    c.Proper (fun i => (node i).settings.nodeId) ∧ c.group.Everywhere Holds := by
  induction h with
  | refl => exact ⟨.start hnew, everywhere_start hnew .empty⟩
  | step _ _ h ih =>
    obtain ⟨H, E⟩ := ih
    exact ⟨H.step hids h, step_holds hids H E h⟩

theorem upToDate_of_reaches
    (h : Reaches step (fun c a => ¬ c.InstallsStale key a) (start node) c) :
    c.Proper (fun i => (node i).settings.nodeId) ∧ c.group.Everywhere Holds ∧
      c.group.Everywhere (UpToDate key) := by
  induction h with
  | refl => exact ⟨.start hnew, everywhere_start hnew .empty, everywhere_start hnew .empty⟩
  | step _ ha h ih =>
    obtain ⟨H, E, U⟩ := ih
    exact ⟨H.step hids h, step_holds hids H E h, step_upToDate hids H E U ha h⟩

end

/-- In every run of new nodes with distinct ids, a node has an entry for each key to which its clock
covers a write. As long as nobody installs a snapshot that is stale at a key, that entry is before
no write to the key which the clock covers, and no step replaces it by an older one. An install that
is stale at the key, and applies no buffered update to it, leaves the store behind the clock. -/
theorem store_keeps_up_with_clock {node : ι → Node}
    (hids : Function.Injective fun i => (node i).settings.nodeId) (hnew : ∀ i, (node i).Unused)
    (key : String) :
    (∀ c, Reaches step (fun _ _ => True) (start node) c → ∀ i, ∀ u ∈ c.made, u.key = key →
      (c.node i).engine.clock.dominates u.clock = true →
      ∃ e, (c.node i).engine.store.get? key = some e) ∧
    (∀ c, Reaches step (fun c a => ¬ c.InstallsStale key a) (start node) c →
      (∀ i, c.KeepsUp key i) ∧
      ∀ a c', ¬ c.InstallsStale key a → c.step a = some c' → ∀ i e e',
        (c.node i).engine.store.get? key = some e → (c'.node i).engine.store.get? key = some e' →
        e'.clock.order e.clock ≠ .before) ∧
    ∀ (c : Cluster ι) a c' i k, installing a = some (i, k) → c.group.Stale key i k.snapshot →
      c.step a = some c' →
      (∀ u ∈ ((c.node i).engine.overwrite k.snapshot).reconciled, u.key ≠ key) →
      ¬ c'.KeepsUp key i := by
  refine ⟨fun c hc i u hu huk hd => ?_, fun c hc => ?_, fun c a c' i k ha hstale h hpend => ?_⟩
  · obtain ⟨H, E⟩ := holds_of_reaches hids hnew hc
    exact huk ▸ (E.engine i).exists_entry u (H.mem_history hu hd)
  · obtain ⟨H, E, U⟩ := upToDate_of_reaches hids hnew hc
    refine ⟨keepsUp_of_upToDate H E U, fun a c' ha h i e e' he he' => ?_⟩
    exact step_entry_not_before hids H E U ha h he he'
  · exact not_keepsUp_of_stale ha hstale h hpend

/-! A node that joins twice. The second time its seed still lacks the write that the node made in
between, whose own entry the snapshot then replaces by the one that it was made over. -/

inductive Pair where
  | a
  | b
  deriving DecidableEq

instance : Fintype Pair := ⟨{.a, .b}, fun i => by cases i <;> decide⟩

def Pair.settings : Pair → Settings
  | .a => { Settings.onLoopback "a" 7000 with advertisedHost := "a" }
  | .b => { Settings.onLoopback "b" 8000 with advertisedHost := "b", seed := some ⟨"a", 7002⟩ }

def Pair.node (i : Pair) : Node := .fresh i.settings

def first : Update := ⟨"k", "v1", "a", .ofList [("a", 1)]⟩

def second : Update := ⟨"k", "v2", "b", .ofList [("a", 1), ("b", 1)]⟩

/-- How `b` joins while `a` has `first` alone. -/
def joining : List (Action Pair) :=
  let a := Pair.a.settings.identity
  let join := Errand.join Pair.b.settings.identity ⟨"a", 7002⟩
  let snapshot : Snapshot := ⟨.ofList [("k", first.entry)], .ofList [("a", 1), ("b", 0)]⟩
  [.join .b, .arrive ⟨.b, join, none⟩ .a,
    .finish ⟨.b, join, some ⟨some (.joinResponse [a]), {first}⟩⟩ none,
    .perform .b (.settle a), .arrive ⟨.b, .transfer a, none⟩ .a,
    .finish ⟨.b, .transfer a, some ⟨some (.stateResponse snapshot), {first}⟩⟩ none]

def overwriting : List (Action Pair) := .put .a "k" "v1" :: joining ++ [.put .b "k" "v2"]

theorem Pair.id_injective : Function.Injective fun i : Pair => i.node.settings.nodeId := by
  unfold Function.Injective
  decide

theorem overwriting_keeps_up :
    ∃ c, Reaches step (fun c a => ¬ c.InstallsStale "k" a) (start Pair.node) c ∧ second ∈ c.made ∧
      c.KeepsUp "k" .b := by
  have hmade : (runAll (fun c a => if ¬ c.InstallsStale "k" a then step c a else none)
      (start Pair.node) overwriting).map (·.made) = some [second, first] := by decide +kernel
  obtain ⟨c, hc, hmade⟩ := Option.map_eq_some_iff.1 hmade
  have hrun : Reaches step (fun c a => ¬ c.InstallsStale "k" a) (start Pair.node) c :=
    .of_runAll_guarded hc
  have hkeep := store_keeps_up_with_clock Pair.id_injective (fun _ => .fresh _) "k"
  exact ⟨c, hrun, by simp [hmade], (hkeep.2.1 c hrun).1 .b⟩

theorem rejoining_falls_behind :
    Function.Injective (fun i : Pair => i.node.settings.nodeId) ∧ (∀ i : Pair, i.node.Unused) ∧
    ∃ c, Reaches step (fun _ _ => True) (start Pair.node) c ∧ second ∈ c.made ∧
      (c.node .b).engine.clock.dominates second.clock = true ∧
      (c.node .b).engine.store.get? "k" = some first.entry ∧
      first.entry.clock.order second.clock = .before := by
  have hrun : (runAll step (start Pair.node) (overwriting ++ joining)).map (fun c =>
      (c.made, (c.node .b).engine.clock.dominates second.clock,
        (c.node .b).engine.store.get? "k")) =
      some ([second, first], true, some first.entry) := by decide +kernel
  obtain ⟨c, hc, h⟩ := Option.map_eq_some_iff.1 hrun
  obtain ⟨hmade, hrest⟩ := Prod.mk.inj h
  obtain ⟨hdom, hget⟩ := Prod.mk.inj hrest
  refine ⟨Pair.id_injective, fun _ => .fresh _, c, .of_runAll hc, ?_, hdom, hget, ?_⟩
  · simp [hmade]
  · decide +kernel

end Cluster
end CausalStore
