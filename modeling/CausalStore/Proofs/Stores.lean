import CausalStore.Proofs.Causality

/-!
# Stores and what they hold

How a store stands to the history of its engine: every write of the history has left an entry under
its key (`Holds`), and no entry is older than a write of the history to its key (`UpToDate`).
Applying an update keeps both. A snapshot that is installed keeps the first, and it keeps the second
unless it is stale (`Group.Stale`).
-/

namespace CausalStore

/-- Each of the writes has an entry under its key, and each entry is one of them. -/
structure Holds (h : Finset Update) (s : Store) : Prop where
  exists_entry : ∀ u ∈ h, ∃ e, s.get? u.key = some e
  exists_write : ∀ key e, s.get? key = some e → ∃ u ∈ h, u.key = key ∧ u.entry = e

/-- The entry of the key is not before any of the writes to it. -/
def UpToDate (key : String) (h : Finset Update) (s : Store) : Prop :=
  ∀ u ∈ h, u.key = key → ∀ e, s.get? key = some e → e.clock.order u.clock ≠ .before

/-- What is kept when an update is stored that none of the writes so far has seen. -/
def Absorbs (P : Finset Update → Store → Prop) : Prop :=
  ∀ {h s u}, P h s → (∀ v ∈ h, v.clock.dominates u.clock = false) →
    P (insert u h) (s.insert u.key u.entry)

variable {key : String} {h k : Finset Update} {s t : Store} {u : Update} {made : List Update}
  {e : Engine} {us : List Update} {P : Finset Update → Store → Prop}

theorem Holds.empty : Holds ∅ .empty where
  exists_entry u hu := absurd hu (Finset.notMem_empty u)
  exists_write _ _ he := nomatch he

theorem UpToDate.empty : UpToDate key ∅ .empty := fun u hu => absurd hu (Finset.notMem_empty u)

theorem Holds.absorbs : Absorbs Holds := by
  intro h s u H _
  refine ⟨fun v hv => ?_, fun key e he => ?_⟩
  · by_cases hk : v.key = u.key
    · exact ⟨u.entry, by rw [hk, SortedMap.get?_insert_self]⟩
    · rw [SortedMap.get?_insert_of_ne _ hk]
      exact H.exists_entry v (Finset.mem_of_mem_insert_of_ne hv fun e => hk (congrArg _ e))
  · by_cases hk : key = u.key
    · subst hk
      rw [SortedMap.get?_insert_self] at he
      cases he
      exact ⟨u, Finset.mem_insert_self .., rfl, rfl⟩
    · rw [SortedMap.get?_insert_of_ne _ hk] at he
      obtain ⟨v, hv, h⟩ := H.exists_write key e he
      exact ⟨v, Finset.mem_insert_of_mem hv, h⟩

theorem UpToDate.absorbs : Absorbs (UpToDate key) := by
  intro h s u H hnew v hv hvk e he hb
  by_cases hk : key = u.key
  · subst hk
    rw [SortedMap.get?_insert_self] at he
    cases he
    obtain ⟨hdom, hnot⟩ := Clock.order_eq_before_iff.1 hb
    rcases Finset.mem_insert.1 hv with rfl | hv
    · exact absurd hdom (Bool.eq_false_iff.1 hnot)
    · exact absurd hdom (Bool.eq_false_iff.1 (hnew v hv))
  · rw [SortedMap.get?_insert_of_ne _ hk] at he
    refine H v (Finset.mem_of_mem_insert_of_ne hv ?_) hvk e he hb
    rintro rfl
    exact hk hvk.symm

/-- A snapshot that holds its history, written over a store that holds its own. -/
theorem Holds.overwrite {c : Snapshot} (H : Holds h e.store) (Hc : Holds k c.store) :
    Holds (h ∪ k) (e.overwrite c).store where
  exists_entry u hu := by
    rw [Engine.overwrite_get?]
    cases hs : c.store.get? u.key with
    | some d => exact ⟨d, rfl⟩
    | none =>
      rcases Finset.mem_union.1 hu with hu | hu
      · exact H.exists_entry u hu
      · obtain ⟨d, hd⟩ := Hc.exists_entry u hu
        cases hs.symm.trans hd
  exists_write key d hd := by
    rw [Engine.overwrite_get?] at hd
    cases hs : c.store.get? key with
    | some d' =>
      rw [hs] at hd
      cases hd
      obtain ⟨u, hu, h⟩ := Hc.exists_write key d hs
      exact ⟨u, Finset.mem_union_right _ hu, h⟩
    | none =>
      rw [hs] at hd
      obtain ⟨u, hu, h⟩ := H.exists_write key d hd
      exact ⟨u, Finset.mem_union_left _ hu, h⟩

theorem UpToDate.overwrite {c : Snapshot} (H : UpToDate key h e.store)
    (Hc : UpToDate key k c.store) (Hk : Holds k c.store)
    (hfresh : ∀ d, c.store.get? key = some d → ∀ u ∈ h, u.key = key →
      d.clock.order u.clock ≠ .before) :
    UpToDate key (h ∪ k) (e.overwrite c).store := by
  intro u hu huk d hd
  rw [Engine.overwrite_get?] at hd
  cases hs : c.store.get? key with
  | some d' =>
    rw [hs] at hd
    cases hd
    rcases Finset.mem_union.1 hu with hu | hu
    · exact hfresh d hs u hu huk
    · exact Hc u hu huk d hs
  | none =>
    rw [hs] at hd
    rcases Finset.mem_union.1 hu with hu | hu
    · exact H u hu huk d hd
    · obtain ⟨d', hd'⟩ := Hk.exists_entry u hu
      rw [huk, hs] at hd'
      cases hd'

theorem Absorbs.applyAll (hP : Absorbs P) (hN : Numbered made) (Hc : Covers made e.clock h)
    (hturn : e.InTurn us) (hfrozen : ∀ u ∈ us, Frozen made u) (H : P h e.store) :
    P (h ∪ us.toFinset) (e.applyAll us).store := by
  induction us generalizing e h with
  | nil => simpa using H
  | cons u us ih =>
    obtain ⟨k, Hu, hu⟩ := hfrozen u List.mem_cons_self
    have hnot := Hc.not_mem_of_admits hN (Hu.mem hu) hturn.1
    have hnew : ∀ v ∈ h, v.clock.dominates u.clock = false := fun v hv =>
      Bool.eq_false_iff.2 fun hd => hnot <| (Hc.dominates_iff (Hu.mem hu)).1
        (Clock.dominates_trans (Hc.closed v hv) hd)
    have := ih (Hc.apply hN Hu hu hturn.1) hturn.2
      (fun v hv => hfrozen v (List.mem_cons_of_mem _ hv)) (hP H hnew)
    rwa [Finset.insert_union, ← Finset.union_insert, ← List.toFinset_cons] at this

namespace Group

variable {ι : Type} {ids : ι → NodeId} {g g' : Group ι} {i : ι} {gained : Finset Update}
  {c : Capture}

/-- So stands every store, and every snapshot that was taken. -/
structure Everywhere (P : Finset Update → Store → Prop) (g : Group ι) : Prop where
  engine : ∀ i, P (g.history i) (g.engine i).store
  capture : ∀ c ∈ g.captures, P c.history c.snapshot.store

/-- The snapshot has an entry for the key that is older than a write to it which `i` has. -/
def Stale (key : String) (g : Group ι) (i : ι) (s : Snapshot) : Prop :=
  ∃ e ∈ s.store.get? key, ∃ u ∈ g.made, u.key = key ∧
    (g.engine i).clock.dominates u.clock = true ∧ e.clock.order u.clock = .before

instance {s : Snapshot} : Decidable (g.Stale key i s) :=
  inferInstanceAs (Decidable (∃ e ∈ s.store.get? key, ∃ u ∈ g.made, u.key = key ∧
    (g.engine i).clock.dominates u.clock = true ∧ e.clock.order u.clock = .before))

namespace Everywhere

variable [DecidableEq ι]

theorem set (E : g.Everywhere P) {e : Engine} (he : P (g.history i ∪ gained) e.store) :
    (g.set i e gained).Everywhere P where
  engine := forall_set (P := fun _ e h => P h e.store) gained he fun j _ => E.engine j
  capture := E.capture

theorem set_reconcile (hP : Absorbs P) (S : g.Sound ids) (E : g.Everywhere P) {e : Engine}
    (hlive : Covers g.made e.clock (g.history i ∪ gained))
    (hpend : e.pending = (g.engine i).pending) (he : P (g.history i ∪ gained) e.store) :
    (g.set i e.reconcile.1 (gained ∪ e.reconciled.toFinset)).Everywhere P := by
  refine E.set ?_
  rw [← Finset.union_assoc, Engine.reconcile_store]
  refine hP.applyAll S.numbered hlive e.inTurn_reconciled (fun u hu => ?_) he
  exact S.frozen_of_mem (S.buffered i u (hpend ▸ Engine.mem_pending_of_mem_reconciled hu))

theorem reconciled (hP : Absorbs P) (S : g.Sound ids) (E : g.Everywhere P) :
    (g.reconciled i).Everywhere P := by
  have hlive : Covers g.made (g.engine i).clock (g.history i ∪ ∅) := by
    rw [Finset.union_empty]
    exact S.live i
  have := E.set_reconcile hP S hlive rfl (by rw [Finset.union_empty]; exact E.engine i)
  rwa [Finset.empty_union] at this

theorem received (hP : Absorbs P) (S : g.Sound ids) (E : g.Everywhere P) (hu : u ∈ g.made) :
    (g.received i u).Everywhere P := by
  unfold Group.received
  obtain ⟨-, he, hd⟩ | ⟨hadm, he, hd⟩ | ⟨-, -, he, hd⟩ := (g.engine i).receive_cases u
  · rw [he, hd]
    refine E.set ?_
    rw [List.toFinset_nil, Finset.union_empty]
    exact E.engine i
  · obtain ⟨k, Hu, hk⟩ := S.frozen_of_mem hu
    have hone : P (g.history i ∪ [u].toFinset) ((g.engine i).applyAll [u]).store :=
      hP.applyAll S.numbered (S.live i) ⟨hadm, trivial⟩
        (fun v hv => List.mem_singleton.1 hv ▸ ⟨k, Hu, hk⟩) (E.engine i)
    rw [he, hd, List.toFinset_cons, Finset.insert_eq]
    refine E.set_reconcile hP S ?_ rfl hone
    rw [Finset.union_comm, ← Finset.insert_eq]
    exact (S.live i).apply S.numbered Hu hk hadm
  · rw [he, hd]
    refine E.set ?_
    rw [List.toFinset_nil, Finset.union_empty]
    exact E.engine i

theorem wrote (hP : Absorbs P) (hids : Function.Injective ids) (S : g.Sound ids)
    (E : g.Everywhere P) {key value : String}
    (hw : (g.engine i).write key value = .ok (e, u)) : (g.wrote i e u).Everywhere P := by
  obtain ⟨-, -, ho, hinc, rfl⟩ := Engine.write_eq_ok_iff.1 hw
  rw [S.localId i] at ho hinc
  rw [wrote_eq]
  refine reconciled hP (S.record hids ho hinc) { E.set ?_ with }
  rw [Finset.union_comm, ← Finset.insert_eq]
  refine hP (E.engine i) fun v hv => Bool.eq_false_iff.2 fun hd => ?_
  have hle := Clock.dominates_iff.1 (Clock.dominates_trans ((S.live i).closed v hv) hd) (ids i)
  have := (Clock.increment_spec hinc).1
  omega

/-- What holds of all stores is kept by every action that keeps it where a snapshot is installed. -/
theorem step (hP : Absorbs P) (hids : Function.Injective ids) (S : g.Sound ids)
    (E : g.Everywhere P) {a : Action ι}
    (hinstall : ∀ i, ∀ c ∈ g.captures, a = .install i c →
      P (g.history i ∪ c.history) ((g.engine i).overwrite c.snapshot).store)
    (h : g.step a = some g') : g'.Everywhere P := by
  cases a with
  | write i key value =>
    simp only [Group.step] at h
    split at h
    next => cases h
    next e u hw => cases h; exact E.wrote hP hids S hw
  | receive i u =>
    simp only [Group.step, Option.ite_none_right_eq_some, Option.some.injEq] at h
    obtain ⟨hu, rfl⟩ := h
    exact E.received hP S hu
  | addServer i id =>
    cases h
    refine E.set ?_
    rw [Finset.union_empty]
    exact E.engine i
  | reconcile i => cases h; exact E.reconciled hP S
  | capture i =>
    cases h
    refine ⟨E.engine, fun c hc => ?_⟩
    rcases List.mem_cons.1 hc with rfl | hc
    · exact E.engine i
    · exact E.capture c hc
  | install i c =>
    simp only [Group.step, Option.ite_none_right_eq_some, Option.some.injEq] at h
    obtain ⟨hc, rfl⟩ := h
    exact E.set_reconcile hP S ((S.live i).merge (S.captured c hc)) rfl (hinstall i c hc rfl)

end Everywhere

end Group

end CausalStore
