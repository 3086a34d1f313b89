import CausalStore.Proofs.ClockListing
import CausalStore.Proofs.Completeness

/-!
# The order of receipts does not matter

An engine that has received some updates has applied all of them that can be applied in any order:
whatever another engine has applied in turn is covered by its clock (`Engine.dominates_of_inTurn`).
So two engines that received the same updates agree, whichever updates these are, as far as no two
of them claim to be the same write.
-/

namespace CausalStore

namespace Clock

variable {c d : Clock} {id origin : NodeId}

/-- An update that is next and not covered counts itself. -/
theorem count_ne_zero_of_admits (hcov : c.dominates d = false) (hadm : c.admits origin d = true) :
    d.count origin ≠ 0 := by
  intro h0
  obtain ⟨hnext, hrest⟩ := admits_iff.1 hadm
  refine Bool.eq_false_iff.1 hcov (dominates_iff.2 fun id => ?_)
  by_cases hid : id = origin
  · subst hid
    omega
  · exact hrest id hid

/-- What an admitted update counts besides itself is covered. -/
theorem count_le_of_admits (hadm : c.admits origin d = true) (hne : id ≠ origin) :
    d.count id ≤ c.count id :=
  (admits_iff.1 hadm).2 id hne

/-- An update that is next for a clock is covered by each clock that has more, unless it is next for
that one as well. -/
theorem dominates_of_admits {e : Clock} (hadm : c.admits origin d = true)
    (hle : ∀ id, c.count id ≤ e.count id) (hnot : e.admits origin d = false) :
    e.dominates d = true := by
  obtain ⟨hnext, hrest⟩ := admits_iff.1 hadm
  refine dominates_iff.2 fun id => ?_
  by_cases hid : id = origin
  · subst hid
    by_contra hlt
    refine Bool.eq_false_iff.1 hnot (admits_iff.2 ⟨fun n hn => ?_, fun o ho => ?_⟩)
    · have hcount : d.count id = n.toNat := by simp [count, get, hn]
      have := hnext n hn
      have := hle id
      omega
    · exact (hrest o ho).trans (hle o)
  · exact (hrest id hid).trans (hle id)

end Clock

namespace Engine

variable {e f : Engine} {u v : Update} {us vs : List Update} {key : String} {o : NodeId}
  {p : List Update}

/-- The engine after it received updates one after the other. -/
def receiveAll (e : Engine) (us : List Update) : Engine := us.foldl (fun e u => (e.receive u).1) e

/-- The updates that the receipts make the engine apply, in order. -/
def deliveredAll (e : Engine) : List Update → List Update
  | [] => []
  | u :: us => e.delivered u ++ (e.receive u).1.deliveredAll us

/-! ## What receipts apply -/

/-- Applying does not look at the buffer. -/
theorem applyAll_pending : ({ e with pending := p } : Engine).applyAll us =
    { e.applyAll us with pending := p } := by
  induction us generalizing e with
  | nil => rfl
  | cons u us ih => exact ih (e := e.apply u)

theorem inTurn_pending : ({ e with pending := p } : Engine).InTurn us ↔ e.InTurn us := by
  induction us generalizing e with
  | nil => exact Iff.rfl
  | cons u us ih => exact and_congr_right fun _ => ih (e := e.apply u)

theorem receive_eq (e : Engine) (u : Update) : (e.receive u).1 =
    { e.applyAll (e.delivered u) with pending := (e.receive u).1.pending } := by
  obtain ⟨-, he, hd⟩ | ⟨-, he, hd⟩ | ⟨-, -, he, hd⟩ := e.receive_cases u
  · rw [he, hd, applyAll_nil]
  · rw [he, hd, applyAll_cons]
    exact reconcile_eq (e.apply u)
  · rw [he, hd, applyAll_nil]

theorem applyAll_receive (e : Engine) (u : Update) (us : List Update) :
    (e.receive u).1.applyAll us =
    { (e.applyAll (e.delivered u)).applyAll us with pending := (e.receive u).1.pending } := by
  rw [receive_eq e u]
  exact applyAll_pending

theorem inTurn_receive : (e.receive u).1.InTurn us ↔ (e.applyAll (e.delivered u)).InTurn us := by
  rw [receive_eq e u]
  exact inTurn_pending

theorem inTurn_delivered (e : Engine) (u : Update) : e.InTurn (e.delivered u) := by
  obtain ⟨-, -, hd⟩ | ⟨hadm, -, hd⟩ | ⟨-, -, -, hd⟩ := e.receive_cases u
  · rw [hd]
    trivial
  · rw [hd]
    exact ⟨hadm, inTurn_reconciled _⟩
  · rw [hd]
    trivial

/-- Receipts apply `deliveredAll`, and change nothing else but the buffer. -/
theorem receiveAll_eq (e : Engine) (us : List Update) : e.receiveAll us =
    { e.applyAll (e.deliveredAll us) with pending := (e.receiveAll us).pending } := by
  induction us generalizing e with
  | nil => rfl
  | cons u us ih =>
    have h := ih (e.receive u).1
    rw [applyAll_receive, ← applyAll_append] at h
    exact h

theorem inTurn_deliveredAll (e : Engine) (us : List Update) : e.InTurn (e.deliveredAll us) := by
  induction us generalizing e with
  | nil => trivial
  | cons u us ih => exact (inTurn_delivered e u).append (inTurn_receive.1 (ih (e.receive u).1))

/-! ## What is applied counts itself -/

theorem number_pos_of_swept (h : u ∈ e.swept us) : 1 ≤ u.number := by
  induction us generalizing e with
  | nil => cases h
  | cons v us ih =>
    simp only [swept] at h
    split at h
    · exact ih h
    next hcov =>
      split at h
      next hadm =>
        rcases List.mem_cons.1 h with rfl | h
        · exact Nat.one_le_iff_ne_zero.2
            (Clock.count_ne_zero_of_admits (Bool.eq_false_iff.2 hcov) hadm)
        · exact ih h
      next => exact ih h

theorem number_pos_of_drained (h : u ∈ e.drained us) : 1 ≤ u.number := by
  induction e, us using drained.induct with
  | case1 e us h0 => rw [drained, dif_pos h0] at h; cases h
  | case2 e us h0 ih =>
    rw [drained_of_ne_zero h0] at h
    exact (List.mem_append.1 h).elim number_pos_of_swept ih

theorem number_pos_of_delivered (h : v ∈ e.delivered u) : 1 ≤ v.number := by
  unfold delivered at h
  split at h
  next => cases h
  next hcov =>
    split at h
    next hadm =>
      rcases List.mem_cons.1 h with rfl | h
      · exact Nat.one_le_iff_ne_zero.2
          (Clock.count_ne_zero_of_admits (Bool.eq_false_iff.2 hcov) hadm)
      · exact number_pos_of_drained h
    next => cases h

theorem number_pos_of_deliveredAll (h : u ∈ e.deliveredAll us) : 1 ≤ u.number := by
  induction us generalizing e with
  | nil => cases h
  | cons v us ih => exact (List.mem_append.1 h).elim number_pos_of_delivered ih

/-! ## What is received stays -/

theorem mem_pending_of_receiveAll
    (h : v ∈ e.deliveredAll us ∨ v ∈ (e.receiveAll us).pending) : v ∈ us ∨ v ∈ e.pending := by
  induction us generalizing e with
  | nil => exact .inr (h.resolve_left nofun)
  | cons u us ih =>
    have hone (h : v ∈ e.delivered u ∨ v ∈ (e.receive u).1.pending) :
        v ∈ u :: us ∨ v ∈ e.pending := by
      rcases mem_pending_of_receive e (h.imp_left List.mem_toFinset.2) with rfl | h
      · exact .inl List.mem_cons_self
      · exact .inr h
    rw [deliveredAll, List.mem_append, or_assoc] at h
    rcases h with h | h
    · exact hone (.inl h)
    · rcases ih h with h | h
      · exact .inl (List.mem_cons_of_mem _ h)
      · exact hone (.inr h)

theorem grows_receiveAll (e : Engine) (us : List Update) : e.Grows (e.receiveAll us) := by
  induction us generalizing e with
  | nil => exact .refl e
  | cons u us ih => exact (Grows.receive e u).trans (ih _)

theorem has_receiveAll (h : u ∈ us) : (e.receiveAll us).Has u := by
  induction us generalizing e with
  | nil => cases h
  | cons v us ih =>
    rcases List.mem_cons.1 h with rfl | h
    · exact (grows_receiveAll (e.receive u).1 us).has (has_receive e u)
    · exact ih h

theorem Settled.receiveAll (h : e.Settled) (us : List Update) : (e.receiveAll us).Settled := by
  induction us generalizing e with
  | nil => exact h
  | cons u us ih => exact ih (h.receive u)

theorem nodup_receive (h : e.pending.Nodup) (u : Update) : (e.receive u).1.pending.Nodup := by
  obtain ⟨-, he, -⟩ | ⟨-, he, -⟩ | ⟨-, -, he, -⟩ := e.receive_cases u
  · rwa [he]
  · rw [he]
    exact h.sublist (drain_pending_sublist (e.apply u) e.pending)
  · rw [he]
    dsimp only
    split
    next => exact h
    next hu =>
      refine List.nodup_append.2 ⟨h, List.nodup_singleton u, fun v hv w hw => ?_⟩
      rintro rfl
      exact hu (List.mem_singleton.1 hw ▸ hv)

theorem nodup_receiveAll (h : e.pending.Nodup) (us : List Update) :
    (e.receiveAll us).pending.Nodup := by
  induction us generalizing e with
  | nil => exact h
  | cons u us ih => exact ih (nodup_receive h u)

/-- What waits is what was received and is not covered. -/
theorem mem_receiveAll_pending_iff (hset : e.Settled) (hnil : e.pending = []) :
    u ∈ (e.receiveAll us).pending ↔
      u ∈ us ∧ (e.receiveAll us).clock.dominates u.clock = false := by
  constructor
  · intro h
    have hu : u ∈ us ∨ u ∈ e.pending := mem_pending_of_receiveAll (.inr h)
    rw [hnil] at hu
    exact ⟨hu.resolve_right List.not_mem_nil, (hset.receiveAll us u h).1⟩
  · rintro ⟨hu, hcov⟩
    exact (has_receiveAll (e := e) hu).resolve_left (Bool.eq_false_iff.1 hcov)

/-! ## Whatever can be applied is -/

/-- An engine that has some updates, and has drained its buffer as far as it can be, covers whatever
of them an engine that was not ahead of it applies in turn. -/
theorem dominates_of_inTurn (hset : f.Settled) (hturn : e.InTurn us) (hhas : ∀ u ∈ us, f.Has u)
    (hle : ∀ id, e.clock.count id ≤ f.clock.count id) :
    f.clock.dominates (e.applyAll us).clock = true := by
  induction us generalizing e with
  | nil => exact Clock.dominates_iff.2 hle
  | cons u us ih =>
    have hu : f.clock.dominates u.clock = true := by
      rcases hhas u List.mem_cons_self with hcov | hpend
      · exact hcov
      · exact Clock.dominates_of_admits hturn.1 hle (hset u hpend).2
    refine ih hturn.2 (fun v hv => hhas v (List.mem_cons_of_mem _ hv)) fun id => ?_
    change (e.clock.merge u.clock).count id ≤ _
    rw [Clock.count_merge]
    exact Nat.max_le.2 ⟨hle id, Clock.dominates_iff.1 hu id⟩

/-- A counter that was raised has been through each number on the way, by the update that has it. -/
theorem exists_applied {n : Nat} (hturn : e.InTurn us) (hlt : e.clock.count o < n)
    (hle : n ≤ (e.applyAll us).clock.count o) : ∃ u ∈ us, u.origin = o ∧ u.number = n := by
  induction us generalizing e with
  | nil => exact absurd hle (Nat.not_le_of_lt hlt)
  | cons u us ih =>
    by_cases hu : n ≤ (e.apply u).clock.count o
    · change n ≤ (e.clock.merge u.clock).count o at hu
      rw [Clock.count_merge] at hu
      have ho : u.origin = o := by
        by_contra hne
        have := Clock.count_le_of_admits hturn.1 (Ne.symm hne)
        omega
      subst ho
      have hpos : u.clock.count u.origin ≠ 0 := by omega
      have hnext := ((Clock.admits_iff_of_count_ne_zero hpos).1 hturn.1).1
      exact ⟨u, List.mem_cons_self, rfl, by rw [Update.number]; omega⟩
    · obtain ⟨v, hv, h⟩ := ih hturn.2 (Nat.lt_of_not_le hu) hle
      exact ⟨v, List.mem_cons_of_mem _ hv, h⟩

/-- No update covers one that is applied after it. -/
theorem pairwise_of_inTurn (hturn : e.InTurn us) (hpos : ∀ u ∈ us, 1 ≤ u.number) :
    us.Pairwise fun u v => u.clock.dominates v.clock = false := by
  have hafter {e : Engine} {us : List Update} (hturn : e.InTurn us)
      (hpos : ∀ u ∈ us, 1 ≤ u.number) : ∀ v ∈ us, e.clock.dominates v.clock = false := by
    induction us generalizing e with
    | nil => nofun
    | cons u us ih =>
      intro v hv
      rcases List.mem_cons.1 hv with rfl | hv
      · have hne := Nat.one_le_iff_ne_zero.1 (hpos v List.mem_cons_self)
        have hnext := ((Clock.admits_iff_of_count_ne_zero hne).1 hturn.1).1
        refine Bool.eq_false_iff.2 fun hcov => ?_
        have := Clock.dominates_iff.1 hcov v.origin
        omega
      · refine Bool.eq_false_iff.2 fun hcov => ?_
        have hnot := ih hturn.2 (fun w hw => hpos w (List.mem_cons_of_mem _ hw)) v hv
        exact Bool.eq_false_iff.1 hnot
          (Clock.dominates_trans (Clock.dominates_merge_left e.clock u.clock) hcov)
  induction us generalizing e with
  | nil => exact .nil
  | cons u us ih =>
    have hrest : ∀ v ∈ us, 1 ≤ v.number := fun v hv => hpos v (List.mem_cons_of_mem _ hv)
    refine List.pairwise_cons.2 ⟨fun v hv => Bool.eq_false_iff.2 fun hcov => ?_, ih hturn.2 hrest⟩
    exact Bool.eq_false_iff.1 (hafter hturn.2 hrest v hv)
      (Clock.dominates_trans (Clock.dominates_merge_right e.clock u.clock) hcov)

/-- The entry of a key is that of the last update to it, which none of the others covers. -/
theorem exists_last (hafter : us.Pairwise fun u v => u.clock.dominates v.clock = false)
    (hkey : ∃ u ∈ us, u.key = key) : ∃ u ∈ us, u.key = key ∧
      (e.applyAll us).store.get? key = some u.entry ∧
      ∀ v ∈ us, v.key = key → v = u ∨ v.clock.dominates u.clock = false := by
  induction us generalizing e with
  | nil => obtain ⟨u, hu, -⟩ := hkey; cases hu
  | cons w us ih =>
    obtain ⟨hw, hus⟩ := List.pairwise_cons.1 hafter
    by_cases hlater : ∃ u ∈ us, u.key = key
    · obtain ⟨u, hu, huk, hget, hlast⟩ := ih (e := e.apply w) hus hlater
      refine ⟨u, List.mem_cons_of_mem _ hu, huk, hget, fun v hv hvk => ?_⟩
      rcases List.mem_cons.1 hv with rfl | hv
      · exact .inr (hw u hu)
      · exact hlast v hv hvk
    · have hnone : ∀ u ∈ us, u.key ≠ key := fun u hu huk => hlater ⟨u, hu, huk⟩
      obtain ⟨u, hu, huk⟩ := hkey
      obtain rfl : u = w := (List.mem_cons.1 hu).resolve_right fun hu => hnone u hu huk
      refine ⟨u, List.mem_cons_self, huk, ?_, fun v hv hvk => ?_⟩
      · rw [applyAll_cons, applyAll_get?_of_ne hnone, ← huk]
        exact SortedMap.get?_insert_self ..
      · exact .inl ((List.mem_cons.1 hv).resolve_right fun hv => hnone v hv hvk)

theorem contains_applyAll (e : Engine) (us : List Update) (id : NodeId) :
    (e.applyAll us).clock.contains id = true ↔
      e.clock.contains id = true ∨ ∃ u ∈ us, u.clock.contains id = true := by
  induction us generalizing e with
  | nil => simp
  | cons u us ih =>
    have hmerge : (e.apply u).clock.contains id = (e.clock.contains id || u.clock.contains id) :=
      Clock.contains_merge ..
    rw [applyAll_cons, ih, hmerge, Bool.or_eq_true]
    simp only [List.mem_cons, exists_eq_or_imp, or_assoc]

/-! ## Two engines -/

section
variable {id : NodeId}

theorem settled_new (id : NodeId) : (new id).Settled := nofun

theorem receiveAll_clock (e : Engine) (us : List Update) :
    (e.receiveAll us).clock = (e.applyAll (e.deliveredAll us)).clock := by
  rw [receiveAll_eq]

theorem receiveAll_store (e : Engine) (us : List Update) :
    (e.receiveAll us).store = (e.applyAll (e.deliveredAll us)).store := by
  rw [receiveAll_eq]

theorem mem_of_mem_deliveredAll (h : u ∈ (new id).deliveredAll us) : u ∈ us :=
  (mem_pending_of_receiveAll (.inl h)).resolve_right List.not_mem_nil

variable (hsub : ∀ u ∈ us, u ∈ vs)
include hsub

/-- Of two new engines the one that received more covers what the other one does. -/
theorem receiveAll_dominates (id : NodeId) : ((new id).receiveAll vs).clock.dominates
    ((new id).receiveAll us).clock = true := by
  rw [receiveAll_clock _ us]
  refine dominates_of_inTurn ((settled_new id).receiveAll vs) (inTurn_deliveredAll _ us)
    (fun u hu => has_receiveAll (hsub u (mem_of_mem_deliveredAll hu))) fun o => ?_
  exact Clock.dominates_iff.1 (grows_receiveAll (new id) vs).clock o

/-- It also applied what the other one did, where no two updates claim to be the same write. -/
theorem mem_deliveredAll_of_subset
    (huniq : ∀ u ∈ vs, ∀ v ∈ vs, u.origin = v.origin → u.number = v.number → 1 ≤ u.number → u = v)
    (h : u ∈ (new id).deliveredAll us) : u ∈ (new id).deliveredAll vs := by
  have hpos := number_pos_of_deliveredAll h
  have hown : ((new id).receiveAll us).clock.dominates u.clock = true := by
    rw [receiveAll_clock]
    exact applyAll_dominates_of_mem h
  have hcov := Clock.dominates_trans (receiveAll_dominates hsub id) hown
  have hle := Clock.dominates_iff.1 hcov u.origin
  rw [receiveAll_clock] at hle
  have hzero : (new id).clock.count u.origin = 0 := Clock.count_seeded
  obtain ⟨v, hv, ho, hn⟩ := exists_applied (inTurn_deliveredAll (new id) vs)
    (hzero ▸ hpos) hle
  obtain rfl : u = v := huniq u (hsub u (mem_of_mem_deliveredAll h)) v
    (mem_of_mem_deliveredAll hv) ho.symm hn.symm hpos
  exact hv

end

/-- Where the updates to a key are ordered, the entry depends only on which updates are applied. -/
theorem applyAll_get?_congr (hmem : ∀ u, u ∈ us ↔ u ∈ vs)
    (hus : us.Pairwise fun u v => u.clock.dominates v.clock = false)
    (hvs : vs.Pairwise fun u v => u.clock.dominates v.clock = false)
    (hord : ∀ u ∈ us, ∀ v ∈ us, u.key = key → v.key = key → u.clock.order v.clock ≠ .concurrent) :
    (e.applyAll us).store.get? key = (e.applyAll vs).store.get? key := by
  by_cases hkey : ∃ u ∈ us, u.key = key
  · obtain ⟨u, hu, huk, hget, hlast⟩ := exists_last (e := e) hus hkey
    obtain ⟨v, hv, hvk, hget', hlast'⟩ :=
      exists_last (e := e) hvs (hkey.imp fun u => And.imp_left (hmem u).1)
    have hvu := hlast v ((hmem v).2 hv) hvk
    have huv := hlast' u ((hmem u).1 hu) huk
    obtain rfl : u = v := by
      by_contra hne
      refine hord u hu v ((hmem v).2 hv) huk hvk (Clock.order_eq_concurrent_iff.2 ?_)
      exact ⟨huv.resolve_left hne, hvu.resolve_left (Ne.symm hne)⟩
    rw [hget, hget']
  · have hnone : ∀ u ∈ us, u.key ≠ key := fun u hu huk => hkey ⟨u, hu, huk⟩
    rw [applyAll_get?_of_ne hnone, applyAll_get?_of_ne fun u hu => hnone u ((hmem u).2 hu)]

/-- Two new engines of one id that receive the same updates, in any order and as often as may be,
end with the same clock, with the same updates applied and waiting, and with the same entry of each
key whose updates are ordered, unless two of the updates claim to be the same write. -/
theorem receiveAll_confluent {S : Finset Update} (id : NodeId) (hus : us.toFinset = S)
    (hvs : vs.toFinset = S) (huniq : ∀ u ∈ S, ∀ v ∈ S, u.origin = v.origin →
      u.sequence = v.sequence → 1 ≤ u.sequence → u = v) :
    ((new id).receiveAll us).clock = ((new id).receiveAll vs).clock ∧
    ((new id).receiveAll us).pending.Nodup ∧ ((new id).receiveAll vs).pending.Nodup ∧
    (∀ u, u ∈ ((new id).receiveAll us).pending ↔ u ∈ ((new id).receiveAll vs).pending) ∧
    (∀ u, u ∈ (new id).deliveredAll us ↔ u ∈ (new id).deliveredAll vs) ∧
    ∀ key, (∀ u ∈ S, ∀ v ∈ S, u.key = key → v.key = key → u.clock.order v.clock ≠ .concurrent) →
      ((new id).receiveAll us).store.get? key = ((new id).receiveAll vs).store.get? key := by
  have hmemS : ∀ u, u ∈ us ↔ u ∈ S := fun u => by rw [← hus, List.mem_toFinset]
  have hmem : ∀ u, u ∈ us ↔ u ∈ vs := fun u => by rw [hmemS, ← hvs, List.mem_toFinset]
  have hnumber : ∀ u ∈ us, ∀ v ∈ us, u.origin = v.origin → u.number = v.number → 1 ≤ u.number →
      u = v := fun u hu v hv ho hn hpos =>
    huniq u ((hmemS u).1 hu) v ((hmemS v).1 hv) ho (UInt64.toNat_inj.1 hn)
      (UInt64.le_iff_toNat_le.2 hpos)
  have happlied : ∀ u, u ∈ (new id).deliveredAll us ↔ u ∈ (new id).deliveredAll vs := fun u =>
    ⟨mem_deliveredAll_of_subset (fun v => (hmem v).1) fun v hv w hw =>
        hnumber v ((hmem v).2 hv) w ((hmem w).2 hw),
      mem_deliveredAll_of_subset (fun v => (hmem v).2) hnumber⟩
  have hclock : ((new id).receiveAll us).clock = ((new id).receiveAll vs).clock := by
    refine Clock.ext_contains (fun o => ?_) fun o => UInt64.toNat_inj.1 (Nat.le_antisymm ?_ ?_)
    · rw [receiveAll_clock, receiveAll_clock, Bool.eq_iff_iff, contains_applyAll, contains_applyAll]
      simp only [happlied]
    · exact Clock.dominates_iff.1 (receiveAll_dominates (fun u => (hmem u).1) id) o
    · exact Clock.dominates_iff.1 (receiveAll_dominates (fun u => (hmem u).2) id) o
  have hnil : (new id).pending.Nodup := .nil
  refine ⟨hclock, nodup_receiveAll hnil us, nodup_receiveAll hnil vs, fun u => ?_, happlied,
    fun key hord => ?_⟩
  · rw [mem_receiveAll_pending_iff (settled_new id) rfl,
      mem_receiveAll_pending_iff (settled_new id) rfl, hmem, hclock]
  · have hafter (us : List Update) : ((new id).deliveredAll us).Pairwise
        fun u v => u.clock.dominates v.clock = false :=
      pairwise_of_inTurn (inTurn_deliveredAll _ us) fun u => number_pos_of_deliveredAll
    rw [receiveAll_store, receiveAll_store]
    refine applyAll_get?_congr happlied (hafter us) (hafter vs) fun u hu v hv => ?_
    exact hord u ((hmemS u).1 (mem_of_mem_deliveredAll hu)) v
      ((hmemS v).1 (mem_of_mem_deliveredAll hv))

/-- Two writes of `b`, one of `c` that depends on them, and an update that does not count itself. -/
def chain : List Update :=
  [⟨"x", "1", "b", .ofList [("b", 1)]⟩, ⟨"x", "2", "b", .ofList [("b", 2)]⟩,
    ⟨"y", "3", "c", .ofList [("b", 2), ("c", 1)]⟩, ⟨"x", "4", "d", .ofList [("b", 3)]⟩]

theorem reversed_chain_confluent :
    (∀ u ∈ chain.toFinset, ∀ v ∈ chain.toFinset, u.origin = v.origin →
      u.sequence = v.sequence → 1 ≤ u.sequence → u = v) ∧
    ((new "a").receiveAll chain).clock = ((new "a").receiveAll chain.reverse).clock ∧
    ((new "a").receiveAll chain).store.get? "x" =
      ((new "a").receiveAll chain.reverse).store.get? "x" ∧
    ((new "a").receiveAll chain.reverse).store.get? "x" = some ⟨"2", .ofList [("b", 2)]⟩ := by
  have huniq : ∀ u ∈ chain.toFinset, ∀ v ∈ chain.toFinset, u.origin = v.origin →
      u.sequence = v.sequence → 1 ≤ u.sequence → u = v := by
    simp only [List.mem_toFinset]
    decide +kernel
  have hord : ∀ u ∈ chain.toFinset, ∀ v ∈ chain.toFinset, u.key = "x" → v.key = "x" →
      u.clock.order v.clock ≠ .concurrent := by
    simp only [List.mem_toFinset]
    decide +kernel
  obtain ⟨hclock, -, -, -, -, hstore⟩ :=
    receiveAll_confluent "a" rfl (List.toFinset_reverse (l := chain)) huniq
  exact ⟨huniq, hclock, hstore "x" hord, by decide +kernel⟩

end Engine
end CausalStore
