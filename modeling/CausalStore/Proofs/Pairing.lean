import CausalStore.Proofs.EngineRuns
import CausalStore.Proofs.Runs

/-!
# Clocks cover what is stored beside them

The entries of a store never outrun the clock that is kept with it (`Store.Within`), in an engine as
in a snapshot. Each action of an engine keeps this whatever it receives, an install included as long
as the snapshot's own entries are within the snapshot's clock (`Engine.Paired.act`). So in a fleet of
engines, where snapshots are taken from engines and may be installed anywhere at any later moment, an
update whose write is in the store is covered, and it is discarded when it comes again.
-/

namespace CausalStore

variable {c d : Clock} {s t : Store} {x : Entry} {key : String}

/-- The clock covers the clock of every entry of the store. -/
def Store.Within (s : Store) (c : Clock) : Prop :=
  ∀ key x, s.get? key = some x → c.dominates x.clock = true

namespace Store.Within

theorem empty (c : Clock) : Store.Within .empty c := nofun

theorem mono (h : s.Within c) (hd : d.dominates c = true) : s.Within d :=
  fun key x hx => Clock.dominates_trans hd (h key x hx)

theorem insert (h : s.Within c) (hx : c.dominates x.clock = true) (key : String) :
    Store.Within (s.insert key x) c := by
  intro key' y hy
  rcases eq_or_ne key' key with rfl | hne
  · rw [SortedMap.get?_insert_self] at hy
    cases hy
    exact hx
  · rw [SortedMap.get?_insert_of_ne _ hne] at hy
    exact h key' y hy

end Store.Within

/-- The clock of the snapshot covers its entries. -/
def Snapshot.Paired (s : Snapshot) : Prop := s.store.Within s.clock

namespace Engine

variable {e : Engine} {u : Update} {us : List Update} {snap : Snapshot} {a : Action}

/-- The snapshot that an action installs, if it installs one. -/
def Action.installed? : Action → Option Snapshot
  | .install s => some s
  | .addServer _ | .write _ _ | .receive _ | .reconcile => none

/-- The clock of the engine covers the entries of its store. -/
def Paired (e : Engine) : Prop := e.store.Within e.clock

/-- The update that wrote a stored entry is covered. It is discarded when it comes again. -/
theorem Paired.receive_eq_discarded (h : e.Paired) (hu : e.store.get? u.key = some u.entry) :
    e.receive u = (e, .discarded) := by
  have hcov : e.clock.dominates u.clock = true := h u.key u.entry hu
  rw [receive, if_pos hcov]

namespace Paired

theorem new (id : NodeId) : (Engine.new id).Paired := .empty _

theorem apply (h : e.Paired) (u : Update) : (e.apply u).Paired := by
  have hgrown : e.store.Within (e.clock.merge u.clock) := h.mono (Clock.dominates_merge_left ..)
  exact hgrown.insert (x := u.entry) (Clock.dominates_merge_right ..) u.key

theorem applyAll (h : e.Paired) (us : List Update) : (e.applyAll us).Paired := by
  induction us generalizing e with
  | nil => exact h
  | cons u us ih => exact ih (h.apply u)

theorem reconcile (h : e.Paired) : e.reconcile.1.Paired := by
  unfold Paired
  rw [reconcile_store, reconcile_clock]
  exact h.applyAll e.reconciled

theorem record (h : e.Paired) (hinc : e.clock.increment e.localId = .ok u.clock) :
    (e.record u).Paired := by
  have hgrown : e.store.Within u.clock := h.mono (Clock.increment_dominates hinc)
  exact hgrown.insert (x := u.entry) (Clock.dominates_refl _) u.key

theorem receive (h : e.Paired) (u : Update) : (e.receive u).1.Paired := by
  obtain ⟨-, he, -⟩ | ⟨-, he, -⟩ | ⟨-, -, he, -⟩ := e.receive_cases u
  · rwa [he]
  · rw [he]
    exact (h.apply u).reconcile
  · rw [he]
    exact h

theorem addServer (h : e.Paired) (id : NodeId) : (e.addServer id).Paired :=
  h.mono (Clock.dominates_iff.2 fun _ => Clock.count_addDimension.ge)

/-- The entries that are taken over are covered once the snapshot's clock is merged. -/
theorem overwrite (h : e.Paired) (hs : snap.Paired) : (e.overwrite snap).Paired := by
  intro key x hx
  rw [overwrite_get?] at hx
  rcases Option.or_eq_some_iff.1 hx with hx | ⟨-, hx⟩
  · exact hs.mono (Clock.dominates_merge_right ..) key x hx
  · exact h.mono (Clock.dominates_merge_left ..) key x hx

/-- Each action keeps clock and store paired, if a snapshot that it installs is so. -/
theorem act (h : e.Paired) (a : Action) (ha : ∀ snap ∈ a.installed?, snap.Paired) :
    (e.act a).Paired := by
  cases a with
  | addServer id => exact h.addServer id
  | write key value =>
    obtain he | ⟨u, -, hinc, he⟩ := e.act_write_cases key value
    · rwa [he]
    · rw [he]
      exact (h.record hinc).reconcile
  | receive u => exact h.receive u
  | reconcile => exact h.reconcile
  | install snap => exact (h.overwrite (ha snap rfl)).reconcile

end Paired

end Engine

/-! ## Fleets -/

/-- Engines, and the snapshots that were taken from them so far. -/
structure Fleet (ι : Type) where
  engine : ι → Engine
  snapshots : List Snapshot

namespace Fleet

variable {ι : Type} [DecidableEq ι] {f f' : Fleet ι}

inductive Action (ι : Type) where
  | act (i : ι) (a : Engine.Action)
  | capture (i : ι)

/-- Engines that have seen nothing. -/
def start (ids : ι → NodeId) : Fleet ι := ⟨fun i => .new (ids i), []⟩

/-- What an action makes of a fleet. Engines may receive any updates, but only snapshots that were
taken from one of them are installed. -/
def step (f : Fleet ι) : Action ι → Option (Fleet ι)
  | .act i a =>
    if ∀ s ∈ a.installed?, s ∈ f.snapshots then
      some { f with engine := Function.update f.engine i ((f.engine i).act a) }
    else none
  | .capture i => some { f with snapshots := (f.engine i).capture :: f.snapshots }

/-- In every engine and every snapshot the clock covers the entries. -/
structure Paired (f : Fleet ι) : Prop where
  engine : ∀ i, (f.engine i).Paired
  snapshot : ∀ s ∈ f.snapshots, s.Paired

namespace Paired

omit [DecidableEq ι] in
theorem start (ids : ι → NodeId) : (Fleet.start ids).Paired := ⟨fun i => .new (ids i), nofun⟩

theorem step (h : f.Paired) {a : Action ι} (hs : f.step a = some f') : f'.Paired := by
  cases a with
  | act i a =>
    simp only [Fleet.step, Option.ite_none_right_eq_some, Option.some.injEq] at hs
    obtain ⟨hfrom, rfl⟩ := hs
    refine ⟨fun j => ?_, h.snapshot⟩
    dsimp only
    rcases eq_or_ne j i with rfl | hne
    · rw [Function.update_self]
      exact (h.engine j).act a fun s hs => h.snapshot s (hfrom s hs)
    · rw [Function.update_of_ne hne]
      exact h.engine j
  | capture i =>
    cases hs
    refine ⟨h.engine, fun s hs => ?_⟩
    rcases List.mem_cons.1 hs with rfl | hs
    · exact h.engine i
    · exact h.snapshot s hs

theorem of_reaches {allowed : Fleet ι → Action ι → Prop} (h : f.Paired)
    (hrun : Reaches Fleet.step allowed f f') : f'.Paired :=
  hrun.keeps h fun h _ hs => h.step hs

end Paired

/-- Whatever the engines of a fleet receive, and whenever snapshots are taken from some of them and
installed in others: the clock of every engine and of every snapshot covers all entries beside it.
An update that wrote an entry of the store is therefore discarded, and nothing changes. -/
theorem store_within_clock {ids : ι → NodeId}
    (h : Reaches step (fun _ _ => True) (start ids) f) :
    (∀ i key x, (f.engine i).store.get? key = some x →
      (f.engine i).clock.dominates x.clock = true) ∧
    (∀ s ∈ f.snapshots, ∀ key x, s.store.get? key = some x → s.clock.dominates x.clock = true) ∧
    ∀ i u, (f.engine i).store.get? u.key = some u.entry →
      (f.engine i).receive u = (f.engine i, .discarded) := by
  have hpaired : f.Paired := (Paired.start ids).of_reaches h
  exact ⟨hpaired.engine, hpaired.snapshot, fun i u hu => (hpaired.engine i).receive_eq_discarded hu⟩

/-! Nobody wrote `forged`. A snapshot that has it is installed in `c` late, over a write that `c` made
to the same key, and then `forged` comes to `c`. -/

def forged : Update := ⟨"k", "2", "a", .ofList [("a", 1), ("z", 0)]⟩

def lateInstall : List (Action (Fin 2)) :=
  [.act 0 (.receive forged), .capture 0, .act 0 (.receive ⟨"k", "3", "a", .ofList [("a", 2)]⟩),
    .act 1 (.write "k" "1"), .act 1 (.install ⟨.ofList [("k", forged.entry)],
      .ofList [("a", 1), ("b", 0), ("z", 0)]⟩)]

theorem forged_discarded_after_install :
    ∃ f, runAll step (start fun i => ["b", "c"][i]) lateInstall = some f ∧
      (f.engine 1).clock = .ofList [("a", 1), ("b", 0), ("c", 1), ("z", 0)] ∧
      (f.engine 1).receive forged = (f.engine 1, .discarded) := by
  have hrun : (runAll step (start fun i => ["b", "c"][i]) lateInstall).map
      (fun f => ((f.engine 1).clock, (f.engine 1).store.get? "k")) =
      some (.ofList [("a", 1), ("b", 0), ("c", 1), ("z", 0)], some forged.entry) := by
    decide +kernel
  obtain ⟨f, hf, hend⟩ := Option.map_eq_some_iff.1 hrun
  obtain ⟨hclock, hget⟩ := Prod.mk.inj hend
  exact ⟨f, hf, hclock, (store_within_clock (.of_runAll hf)).2.2 1 forged hget⟩

end Fleet
end CausalStore
