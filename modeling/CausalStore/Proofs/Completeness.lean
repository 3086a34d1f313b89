import CausalStore.Proofs.Causality

/-!
# Nothing gets stuck

What reached an engine stays with it, covered or buffered (`Engine.Has`), and its buffer is always
drained as far as it can be (`Engine.Settled`). An engine that has every write of its group has
therefore applied them all: the first that it had not applied would be next.
-/

namespace CausalStore

namespace Engine

variable {e e' : Engine} {u v : Update} {us : List Update} {key value : String}

/-- The update is covered, or it waits. -/
def Has (e : Engine) (u : Update) : Prop := e.clock.dominates u.clock = true ∨ u ∈ e.pending

theorem applyAll_dominates_of_mem (h : u ∈ us) :
    (e.applyAll us).clock.dominates u.clock = true := by
  induction us generalizing e with
  | nil => cases h
  | cons v us ih =>
    rcases List.mem_cons.1 h with rfl | h
    · have hall : ((e.apply u).applyAll us).clock.dominates (e.apply u).clock = true :=
        applyAll_dominates
      exact Clock.dominates_trans hall (Clock.dominates_merge_right ..)
    · exact ih h

/-- Nothing is uncovered, and nothing that waits is dropped before it is covered. -/
structure Grows (e e' : Engine) : Prop where
  clock : e'.clock.dominates e.clock = true
  pending : ∀ u ∈ e.pending, e'.Has u

namespace Grows

theorem has (h : e.Grows e') (hu : e.Has u) : e'.Has u :=
  hu.elim (fun hd => .inl (Clock.dominates_trans h.clock hd)) (h.pending u)

theorem trans {e'' : Engine} (h₁ : e.Grows e') (h₂ : e'.Grows e'') : e.Grows e'' :=
  ⟨Clock.dominates_trans h₂.clock h₁.clock, fun u hu => h₂.has (h₁.pending u hu)⟩

theorem of_pending (hdom : e'.clock.dominates e.clock = true) (hpend : e'.pending = e.pending) :
    e.Grows e' :=
  ⟨hdom, fun _ hu => .inr (hpend ▸ hu)⟩

theorem refl (e : Engine) : e.Grows e := .of_pending (Clock.dominates_refl _) rfl

theorem reconcile (e : Engine) : e.Grows e.reconcile.1 where
  clock := e.reconcile_dominates
  pending u hu := by
    rcases mem_reconcile hu with h | h | h
    · exact .inr h
    · refine .inl ?_
      rw [reconcile_clock]
      exact applyAll_dominates_of_mem h
    · exact .inl h

theorem receive (e : Engine) (u : Update) : e.Grows (e.receive u).1 := by
  obtain ⟨-, he, -⟩ | ⟨-, he, -⟩ | ⟨-, -, he, -⟩ := e.receive_cases u
  · rw [he]
    exact refl e
  · rw [he]
    have h : e.Grows (e.apply u) := of_pending (Clock.dominates_merge_left ..) rfl
    exact h.trans (reconcile _)
  · rw [he]
    refine ⟨Clock.dominates_refl _, fun v hv => .inr ?_⟩
    dsimp only
    split
    · exact hv
    · exact List.mem_append_left _ hv

theorem addServer (e : Engine) (id : NodeId) : e.Grows (e.addServer id) :=
  .of_pending (Clock.dominates_iff.2 fun _ => Clock.count_addDimension.ge) rfl

theorem install (e : Engine) (s : Snapshot) : e.Grows (e.install s).1 := by
  have h : e.Grows (e.overwrite s) := of_pending (Clock.dominates_merge_left ..) rfl
  exact h.trans (reconcile _)

theorem write (hw : e.write key value = .ok (e', u)) : e.Grows e' := by
  obtain ⟨-, -, -, hinc, rfl⟩ := write_eq_ok_iff.1 hw
  have h : e.Grows (e.record u) := of_pending (Clock.increment_dominates hinc) rfl
  exact h.trans (reconcile _)

end Grows

theorem has_receive (e : Engine) (u : Update) : (e.receive u).1.Has u := by
  obtain ⟨hdom, he, -⟩ | ⟨-, he, -⟩ | ⟨-, -, he, -⟩ := e.receive_cases u
  · rw [he]
    exact .inl hdom
  · rw [he]
    exact .inl (Clock.dominates_trans (reconcile_dominates _) (Clock.dominates_merge_right ..))
  · rw [he]
    refine .inr ?_
    dsimp only
    split
    next h => exact h
    next => exact List.mem_append_right _ (List.mem_singleton.2 rfl)

/-- Draining brings nothing new. -/
theorem mem_pending_of_drain (e : Engine)
    (h : v ∈ e.reconciled.toFinset ∨ v ∈ e.reconcile.1.pending) : v ∈ e.pending :=
  h.elim (fun h => mem_pending_of_mem_reconciled (List.mem_toFinset.1 h))
    mem_pending_of_mem_reconcile

/-- A receipt brings what is received alone. -/
theorem mem_pending_of_receive (e : Engine)
    (h : v ∈ (e.delivered u).toFinset ∨ v ∈ (e.receive u).1.pending) : v = u ∨ v ∈ e.pending := by
  obtain ⟨-, he, hd⟩ | ⟨-, he, hd⟩ | ⟨-, -, he, hd⟩ := e.receive_cases u
  · rw [he, hd] at h
    exact .inr (h.resolve_left (Finset.notMem_empty v))
  · rw [he, hd, List.toFinset_cons, Finset.mem_insert, or_assoc] at h
    exact h.imp_right (mem_pending_of_drain (e.apply u))
  · rw [he, hd] at h
    have h := h.resolve_left (Finset.notMem_empty v)
    dsimp only at h
    split at h
    · exact .inr h
    · exact (List.mem_append.1 h).symm.imp_left List.mem_singleton.1

namespace Settled

theorem receive (h : e.Settled) (u : Update) : (e.receive u).1.Settled := by
  obtain ⟨-, he, -⟩ | ⟨-, he, -⟩ | ⟨hdom, hadm, he, -⟩ := e.receive_cases u
  · rwa [he]
  · rw [he]
    exact reconcile_settled _
  · rw [he]
    intro v hv
    dsimp only at hv ⊢
    split at hv
    · exact h v hv
    · rcases List.mem_append.1 hv with hv | hv
      · exact h v hv
      · rw [List.mem_singleton.1 hv]
        exact ⟨hdom, hadm⟩

theorem addServer (h : e.Settled) (id : NodeId) : (e.addServer id).Settled := fun u hu => by
  simpa [Engine.addServer, Clock.dominates, Clock.admits] using h u hu

theorem write (hw : e.write key value = .ok (e', u)) : e'.Settled := by
  obtain ⟨-, -, -, -, rfl⟩ := write_eq_ok_iff.1 hw
  exact reconcile_settled _

end Settled

end Engine

/-- A clock that stands for no more of the writes of an origin counts no more of them. -/
theorem Covers.count_le {made : List Update} {c d : Clock} {h k : Finset Update} {o : NodeId}
    (hN : Numbered made) (Hc : Covers made c h) (Hd : Covers made d k)
    (hsub : ∀ u ∈ h, u.origin = o → u ∈ k) : c.count o ≤ d.count o := by
  by_cases h0 : c.count o = 0
  · omega
  · obtain ⟨u, hu, rfl, hn⟩ := hN.exists_number (Nat.one_le_iff_ne_zero.2 h0) (Hc.bounded o)
    have hk := hsub u ((Hc.mem_iff u).2 ⟨hu, hn.le⟩) rfl
    exact hn ▸ ((Hd.mem_iff u).1 hk).2

namespace Group

variable {ι : Type} {ids : ι → NodeId} {g g' : Group ι} {i j : ι} {u : Update}

namespace Sound

theorem past_sublist (H : g.Sound ids) {w : Write} {later earlier : List Write}
    (hw : g.writes = later ++ w :: earlier) (hu : u ∈ w.past) :
    ∃ v ∈ earlier, v.update = u := by
  have hmem : w ∈ g.writes := hw ▸ List.mem_append_right _ List.mem_cons_self
  obtain ⟨hcov, hnot⟩ := H.frozen w hmem
  obtain ⟨v, hv, rfl⟩ := exists_write (hcov.mem (Finset.mem_insert_of_mem hu))
  have hord := H.ordered
  rw [hw, List.pairwise_append] at hord
  rw [hw] at hv
  rcases List.mem_append.1 hv with hv | hv
  · exact absurd hu (hord.2.2 v hv w List.mem_cons_self)
  · rcases List.mem_cons.1 hv with rfl | hv
    · exact absurd hu hnot
    · exact ⟨v, hv, rfl⟩

theorem mem_history_of_own (H : g.Sound ids) (hu : u ∈ g.made) (ho : u.origin = ids i) :
    u ∈ g.history i := by
  have hle := H.numbered.le hu
  rw [ho, ← H.own i trivial, ← ho] at hle
  exact ((H.live i).mem_iff u).2 ⟨hu, hle⟩

/-- A write all of whose past was applied is next, unless it was applied as well. -/
theorem admits_of_past (H : g.Sound ids) {w : Write} (hw : w ∈ g.writes)
    (hpast : ∀ u ∈ w.past, u ∈ g.history j) (hmiss : w.update ∉ g.history j) :
    (g.engine j).clock.admits w.update.origin w.update.clock = true := by
  obtain ⟨hcov, -⟩ := H.frozen w hw
  have hmade := mem_made_of_write hw
  have hpos := H.numbered.pos hmade
  refine (Clock.admits_iff_of_count_ne_zero (Nat.one_le_iff_ne_zero.1 hpos)).2
    ⟨?_, fun o ho => ?_⟩
  · have hlt : (g.engine j).clock.count w.update.origin < w.update.number :=
      Nat.lt_of_not_le fun hle => hmiss (((H.live j).mem_iff _).2 ⟨hmade, hle⟩)
    refine Nat.le_antisymm (show w.update.number ≤ _ from ?_) hlt
    by_cases h1 : w.update.number = 1
    · omega
    -- the write before it, of the same origin, lies in its past
    have hle := H.numbered.le hmade
    obtain ⟨v, hv, ho, hn⟩ := H.numbered.exists_number (o := w.update.origin)
      (n := w.update.number - 1) (by omega) (by omega)
    have hne : v ≠ w.update := fun e => by subst e; omega
    have hle : v.number ≤ w.update.clock.count v.origin := by
      rw [ho, hn]
      exact Nat.sub_le ..
    have hk := Finset.mem_of_mem_insert_of_ne ((hcov.mem_iff v).2 ⟨hv, hle⟩) hne
    have := (((H.live j).mem_iff v).1 (hpast v hk)).2
    rw [ho] at this
    omega
  · refine hcov.count_le H.numbered (H.live j) fun u hu huo => ?_
    exact hpast u (Finset.mem_of_mem_insert_of_ne hu fun e => ho (e ▸ huo).symm)

/-- An engine that has all writes has applied them all. -/
theorem mem_history_of_has (H : g.Sound ids) (hset : (g.engine j).Settled)
    (hhas : ∀ u ∈ g.made, (g.engine j).Has u) (hu : u ∈ g.made) : u ∈ g.history j := by
  obtain ⟨w, hw, rfl⟩ := exists_write hu
  -- from the first write on: `earlier` are the writes up to one of them
  suffices h : ∀ earlier later, g.writes = later ++ earlier →
      ∀ w ∈ earlier, w.update ∈ g.history j from h g.writes [] rfl w hw
  intro earlier
  induction earlier with
  | nil => exact fun _ _ _ h => nomatch h
  | cons w earlier ih =>
    intro later hlater
    have hearlier := ih (later ++ [w]) (by rw [hlater, List.append_assoc]; rfl)
    have hmem : w ∈ g.writes := hlater ▸ List.mem_append_right _ List.mem_cons_self
    have hw : w.update ∈ g.history j := by
      by_contra hmiss
      have hadm := H.admits_of_past hmem (fun u hu => by
        obtain ⟨v, hv, rfl⟩ := H.past_sublist hlater hu
        exact hearlier v hv) hmiss
      rcases hhas _ (mem_made_of_write hmem) with hdom | hpend
      · exact hmiss (((H.live j).dominates_iff (mem_made_of_write hmem)).1 hdom)
      · rw [(hset _ hpend).2] at hadm
        cases hadm
    intro v hv
    rcases List.mem_cons.1 hv with rfl | hv
    · exact hw
    · exact hearlier v hv

theorem count_eq_of_complete (H : g.Sound ids) (hall : ∀ u ∈ g.made, u ∈ g.history j) (o : NodeId) :
    (g.engine j).clock.count o = writesOf g.made o := by
  refine Nat.le_antisymm ((H.live j).bounded o) ?_
  by_cases h0 : writesOf g.made o = 0
  · omega
  · obtain ⟨u, hu, rfl, hn⟩ :=
      H.numbered.exists_number (Nat.one_le_iff_ne_zero.2 h0) (Nat.le_refl (writesOf g.made o))
    exact hn ▸ (((H.live j).mem_iff u).1 (hall u hu)).2

theorem pending_eq_nil_of_complete (H : g.Sound ids) (hset : (g.engine j).Settled)
    (hall : ∀ u ∈ g.made, u ∈ g.history j) : (g.engine j).pending = [] := by
  refine List.eq_nil_iff_forall_not_mem.2 fun u hu => ?_
  have hdom := (H.live j).closed u (hall u (H.buffered j u hu))
  rw [(hset u hu).1] at hdom
  cases hdom

end Sound

/-! ## The actions -/

variable [DecidableEq ι] {a : Action ι}

theorem step_settled (H : ∀ j, (g.engine j).Settled) (h : g.step a = some g') :
    ∀ j, (g'.engine j).Settled := by
  have hset {i : ι} {e : Engine} (he : e.Settled) :
      ∀ j, (Function.update g.engine i e j).Settled :=
    forall_set (P := fun _ e _ => e.Settled) ∅ he fun j _ => H j
  cases a with
  | write i key value =>
    simp only [step] at h
    split at h
    · cases h
    next e u hw => cases h; exact hset (.write hw)
  | receive i u =>
    simp only [step, Option.ite_none_right_eq_some, Option.some.injEq] at h
    obtain ⟨-, rfl⟩ := h
    exact hset ((H i).receive u)
  | addServer i id => cases h; exact hset ((H i).addServer id)
  | reconcile i => cases h; exact hset (g.engine i).reconcile_settled
  | capture i => cases h; exact H
  | install i c =>
    simp only [step, Option.ite_none_right_eq_some, Option.some.injEq] at h
    obtain ⟨-, rfl⟩ := h
    exact hset (Engine.reconcile_settled _)

end Group

end CausalStore
