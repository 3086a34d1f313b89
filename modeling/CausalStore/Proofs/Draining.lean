import CausalStore.Engine
import CausalStore.Proofs.ClockOrder

/-!
# What draining a buffer applies

`Engine.drained` lists the updates that `Engine.drain` applies, in their order. Each of them is next
when its turn comes (`inTurn_drained`), the engine afterwards is the old one with all of them
applied (`drain_eq`), and what stays in the buffer is neither covered nor next (`drain_settled`).
-/

namespace CausalStore
namespace Engine

variable {e : Engine} {u : Update} {us : List Update}

/-- The engine after it applied updates one after the other. -/
def applyAll (e : Engine) (us : List Update) : Engine := us.foldl apply e

/-- Each of the updates may be applied when the ones before it were. -/
def InTurn (e : Engine) : List Update → Prop
  | [] => True
  | u :: us => e.clock.admits u.origin u.clock = true ∧ (e.apply u).InTurn us

/-- The updates that one pass applies, in order. -/
def swept (e : Engine) : List Update → List Update
  | [] => []
  | u :: rest =>
    if e.clock.dominates u.clock then e.swept rest
    else if e.clock.admits u.origin u.clock then u :: (e.apply u).swept rest
    else e.swept rest

/-- The updates that draining applies, in order. -/
def drained (e : Engine) (us : List Update) : List Update :=
  if _h : (e.sweep us).applied = 0 then []
  else e.swept us ++ (e.sweep us).engine.drained (e.sweep us).kept
termination_by us.length
decreasing_by
  have := length_sweep e us
  omega

/-- No buffered update is covered or could be applied. -/
def Settled (e : Engine) : Prop :=
  ∀ u ∈ e.pending, e.clock.dominates u.clock = false ∧ e.clock.admits u.origin u.clock = false

@[simp] theorem applyAll_nil : e.applyAll [] = e := rfl

@[simp] theorem applyAll_cons : e.applyAll (u :: us) = (e.apply u).applyAll us := rfl

theorem applyAll_append {vs : List Update} : e.applyAll (us ++ vs) = (e.applyAll us).applyAll vs :=
  List.foldl_append

@[simp] theorem applyAll_localId : (e.applyAll us).localId = e.localId := by
  induction us generalizing e with
  | nil => rfl
  | cons u us ih => exact ih

/-- Applying never uncovers anything. -/
theorem applyAll_dominates : (e.applyAll us).clock.dominates e.clock = true := by
  induction us generalizing e with
  | nil => exact Clock.dominates_refl _
  | cons u us ih => exact Clock.dominates_trans ih (Clock.dominates_merge_left _ _)

theorem applyAll_get?_of_ne {key : String} (h : ∀ u ∈ us, u.key ≠ key) :
    (e.applyAll us).store.get? key = e.store.get? key := by
  induction us generalizing e with
  | nil => rfl
  | cons u us ih =>
    rw [applyAll_cons, ih fun v hv => h v (List.mem_cons_of_mem _ hv)]
    exact SortedMap.get?_insert_of_ne _ (h u List.mem_cons_self).symm _

theorem InTurn.append {vs : List Update} (h₁ : e.InTurn us) (h₂ : (e.applyAll us).InTurn vs) :
    e.InTurn (us ++ vs) := by
  induction us generalizing e with
  | nil => exact h₂
  | cons u us ih => exact ⟨h₁.1, ih h₁.2 h₂⟩

/-! ## One pass -/

theorem sweep_engine (e : Engine) (us : List Update) :
    (e.sweep us).engine = e.applyAll (e.swept us) := by
  induction us generalizing e with
  | nil => rfl
  | cons u us ih =>
    simp only [sweep, swept]
    split
    · exact ih e
    · split
      · exact ih (e.apply u)
      · exact ih e

theorem sweep_applied (e : Engine) (us : List Update) :
    (e.sweep us).applied = (e.swept us).length := by
  induction us generalizing e with
  | nil => rfl
  | cons u us ih =>
    simp only [sweep, swept]
    split
    · exact ih e
    · split
      · exact congrArg (· + 1) (ih (e.apply u))
      · exact ih e

theorem inTurn_swept (e : Engine) (us : List Update) : e.InTurn (e.swept us) := by
  induction us generalizing e with
  | nil => trivial
  | cons u us ih =>
    simp only [swept]
    split
    · exact ih e
    · split
      next h => exact ⟨h, ih (e.apply u)⟩
      next => exact ih e

theorem swept_sublist (e : Engine) (us : List Update) : (e.swept us).Sublist us := by
  induction us generalizing e with
  | nil => exact .slnil
  | cons u us ih =>
    simp only [swept]
    split
    · exact (ih e).cons u
    · split
      · exact (ih (e.apply u)).cons_cons u
      · exact (ih e).cons u

theorem kept_sublist (e : Engine) (us : List Update) : (e.sweep us).kept.Sublist us := by
  induction us generalizing e with
  | nil => exact .slnil
  | cons u us ih =>
    simp only [sweep]
    split
    · exact (ih e).cons u
    · split
      · exact (ih (e.apply u)).cons u
      · exact (ih e).cons_cons u

/-- A pass loses no update: it is kept or applied, unless it is covered afterwards. -/
theorem mem_sweep (e : Engine) {us : List Update} (h : u ∈ us) : u ∈ (e.sweep us).kept ∨
    u ∈ e.swept us ∨ (e.sweep us).engine.clock.dominates u.clock = true := by
  induction us generalizing e with
  | nil => cases h
  | cons v us ih =>
    simp only [sweep, swept]
    split
    next hcov =>
      rcases List.mem_cons.1 h with rfl | h
      · refine .inr (.inr (Clock.dominates_trans ?_ hcov))
        rw [sweep_engine]
        exact applyAll_dominates
      · exact ih e h
    next =>
      split
      next =>
        rcases List.mem_cons.1 h with rfl | h
        · exact .inr (.inl List.mem_cons_self)
        · exact (ih (e.apply v) h).imp_right (Or.imp_left (List.mem_cons_of_mem _))
      next =>
        rcases List.mem_cons.1 h with rfl | h
        · exact .inl List.mem_cons_self
        · exact (ih e h).imp_left (List.mem_cons_of_mem _)

/-- What a pass keeps that applies nothing has to wait. -/
theorem sweep_settled (h : (e.sweep us).applied = 0) : ∀ u ∈ (e.sweep us).kept,
    e.clock.dominates u.clock = false ∧ e.clock.admits u.origin u.clock = false := by
  induction us with
  | nil => exact fun _ hu => nomatch hu
  | cons v us ih =>
    simp only [sweep] at h ⊢
    split at h
    next hcov => rw [if_pos hcov]; exact ih h
    next hcov =>
      split at h
      next => exact absurd h (Nat.succ_ne_zero _)
      next hadm =>
        rw [if_neg hcov, if_neg hadm]
        rintro u hu
        rcases List.mem_cons.1 hu with rfl | hu
        · exact ⟨Bool.eq_false_iff.2 hcov, Bool.eq_false_iff.2 hadm⟩
        · exact ih h u hu

/-- A pass over updates that all have to wait keeps them all. -/
theorem sweep_of_waiting (h : ∀ u ∈ us,
    e.clock.dominates u.clock = false ∧ e.clock.admits u.origin u.clock = false) :
    e.sweep us = ⟨e, us, 0⟩ := by
  induction us with
  | nil => rfl
  | cons u us ih =>
    obtain ⟨hcov, hadm⟩ := h u List.mem_cons_self
    have hrest := ih fun v hv => h v (List.mem_cons_of_mem _ hv)
    rw [sweep, if_neg (Bool.eq_false_iff.1 hcov), if_neg (Bool.eq_false_iff.1 hadm), hrest]

/-! ## All passes -/

theorem drain_of_zero (h : (e.sweep us).applied = 0) :
    e.drain us = ({ e with pending := (e.sweep us).kept }, 0) := by
  have hnil : e.swept us = [] := List.eq_nil_of_length_eq_zero (sweep_applied e us ▸ h)
  rw [drain, dif_pos h, sweep_engine, hnil, applyAll_nil]

theorem drain_of_ne_zero (h : (e.sweep us).applied ≠ 0) : e.drain us =
    (((e.sweep us).engine.drain (e.sweep us).kept).1,
      (e.sweep us).applied + ((e.sweep us).engine.drain (e.sweep us).kept).2) := by
  rw [drain, dif_neg h]

theorem drained_of_ne_zero (h : (e.sweep us).applied ≠ 0) :
    e.drained us = e.swept us ++ (e.sweep us).engine.drained (e.sweep us).kept := by
  rw [drained, dif_neg h]

/-- Draining applies `drained`, and changes nothing else but the buffer. -/
theorem drain_eq (e : Engine) (us : List Update) :
    (e.drain us).1 = { e.applyAll (e.drained us) with pending := (e.drain us).1.pending } := by
  induction e, us using drained.induct with
  | case1 e us h => rw [drain_of_zero h, drained, dif_pos h]; rfl
  | case2 e us h ih =>
    rw [drain_of_ne_zero h, drained_of_ne_zero h, applyAll_append, ← sweep_engine]
    exact ih

/-- The number that draining returns counts what it applied. -/
theorem drain_count (e : Engine) (us : List Update) : (e.drain us).2 = (e.drained us).length := by
  induction e, us using drained.induct with
  | case1 e us h => rw [drain_of_zero h, drained, dif_pos h]; rfl
  | case2 e us h ih =>
    rw [drain_of_ne_zero h, drained_of_ne_zero h, List.length_append, ← sweep_applied]
    exact congrArg _ ih

theorem inTurn_drained (e : Engine) (us : List Update) : e.InTurn (e.drained us) := by
  induction e, us using drained.induct with
  | case1 e us h => rw [drained, dif_pos h]; trivial
  | case2 e us h ih =>
    rw [drained_of_ne_zero h]
    refine (inTurn_swept e us).append ?_
    rw [← sweep_engine]
    exact ih

theorem mem_of_mem_drained (h : u ∈ e.drained us) : u ∈ us := by
  induction e, us using drained.induct with
  | case1 e us h0 => rw [drained, dif_pos h0] at h; cases h
  | case2 e us h0 ih =>
    rw [drained_of_ne_zero h0] at h
    rcases List.mem_append.1 h with h | h
    · exact (swept_sublist e us).mem h
    · exact (kept_sublist e us).mem (ih h)

theorem drain_pending_sublist (e : Engine) (us : List Update) :
    (e.drain us).1.pending.Sublist us := by
  induction e, us using drained.induct with
  | case1 e us h => rw [drain_of_zero h]; exact kept_sublist e us
  | case2 e us h ih =>
    rw [drain_of_ne_zero h]
    exact List.Sublist.trans ih (kept_sublist e us)

/-- Draining loses no update: it stays or is applied, unless it is covered afterwards. -/
theorem mem_drain (h : u ∈ us) : u ∈ (e.drain us).1.pending ∨ u ∈ e.drained us ∨
    (e.drain us).1.clock.dominates u.clock = true := by
  induction e, us using drained.induct with
  | case1 e us h0 =>
    rw [drain_of_zero h0, drained, dif_pos h0]
    have hnil : e.swept us = [] := List.eq_nil_of_length_eq_zero (sweep_applied e us ▸ h0)
    have := mem_sweep e h
    rwa [sweep_engine, hnil] at this
  | case2 e us h0 ih =>
    rw [drain_of_ne_zero h0, drained_of_ne_zero h0, List.mem_append]
    rcases mem_sweep e h with hk | hs | hd
    · exact (ih hk).imp_right (Or.imp_left .inr)
    · exact .inr (.inl (.inl hs))
    · refine .inr (.inr (Clock.dominates_trans ?_ hd))
      have := drain_eq (e.sweep us).engine (e.sweep us).kept
      exact (congrArg Engine.clock this) ▸ applyAll_dominates

theorem drain_settled (e : Engine) (us : List Update) : (e.drain us).1.Settled := by
  induction e, us using drained.induct with
  | case1 e us h => rw [drain_of_zero h]; exact sweep_settled h
  | case2 e us h ih => rw [drain_of_ne_zero h]; exact ih

end Engine

end CausalStore
