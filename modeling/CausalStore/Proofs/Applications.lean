import CausalStore.Proofs.EngineRuns

/-!
# The order of applications

The journal of a run (`Engine.journalAll`) lists every update that took effect, the node's own
writes among them, each with the clock just before and just after it. Whatever is received, an
update takes effect only as the next one of its origin and moves the counter of that origin alone
(`Application.IsNext`). So the journal leads from the first clock to the last one without a gap
(`Leads`), and each counter of the clock is a count of the journal.
-/

namespace CausalStore

/-- An update that took effect, with the clock just before it and just after. -/
structure Application where
  update : Update
  before : Clock
  after : Clock

namespace Application

variable {a : Application} {js ks : List Application} {c d f : Clock} {o : NodeId}

/-- How many of the applications are of the origin `o`. -/
def tally (js : List Application) (o : NodeId) : Nat := js.countP fun a => a.update.origin = o

/-- The store after the applications wrote to it. -/
def writeAll (s : Store) (js : List Application) : Store :=
  js.foldl (fun s a => s.insert a.update.key a.update.entry) s

/-- The update was next, and only its own count was moved. -/
structure IsNext (a : Application) : Prop where
  number : a.update.number = a.before.count a.update.origin + 1
  self : a.after.count a.update.origin = a.update.number
  others : ∀ o, o ≠ a.update.origin → a.after.count o = a.before.count o
  covers : a.after.dominates a.update.clock = true

/-- The applications lead from one clock to another, each from where the one before it ended. -/
inductive Leads : Clock → List Application → Clock → Prop
  | stay {c d : Clock} : (∀ o, d.count o = c.count o) → Leads c [] d
  | step {c d : Clock} {a : Application} {js : List Application} :
      (∀ o, a.before.count o = c.count o) → a.IsNext → Leads a.after js d → Leads c (a :: js) d

theorem IsNext.count (h : a.IsNext) (o : NodeId) :
    a.after.count o = a.before.count o + tally [a] o := by
  by_cases ho : o = a.update.origin
  · subst ho
    rw [h.self, h.number]
    simp [tally]
  · rw [h.others o ho]
    simp [tally, Ne.symm ho]

theorem tally_append : tally (js ++ ks) o = tally js o + tally ks o := List.countP_append

theorem tally_cons : tally (a :: js) o = tally [a] o + tally js o := by
  rw [← tally_append]
  rfl

namespace Leads

theorem of_count_eq (h : Leads d js f) (hd : ∀ o, d.count o = c.count o) : Leads c js f := by
  cases h with
  | stay hf => exact .stay fun o => (hf o).trans (hd o)
  | step ha hnext h => exact .step (fun o => (ha o).trans (hd o)) hnext h

theorem append (h₁ : Leads c js d) (h₂ : Leads d ks f) : Leads c (js ++ ks) f := by
  induction h₁ with
  | stay hd => exact h₂.of_count_eq hd
  | step ha hnext _ ih => exact .step ha hnext (ih h₂)

/-- A counter has grown by the number of applications. -/
theorem count_eq (h : Leads c js d) (o : NodeId) : d.count o = c.count o + tally js o := by
  induction h with
  | stay hd => exact hd o
  | @step c d a js ha hnext _ ih =>
    have hcons : tally (a :: js) o = tally [a] o + tally js o := tally_cons
    rw [ih, hnext.count, ha, hcons]
    omega

theorem split {pre post : List Application} (h : Leads c js d) (hjs : js = pre ++ a :: post) :
    Leads c pre a.before ∧ a.IsNext ∧ Leads a.after post d := by
  induction pre generalizing c js with
  | nil =>
    subst hjs
    cases h with
    | step ha hnext h => exact ⟨.stay ha, hnext, h⟩
  | cons b pre ih =>
    subst hjs
    cases h with
    | step hb hnext h =>
      obtain ⟨hpre, hrest⟩ := ih h rfl
      exact ⟨.step hb hnext hpre, hrest⟩

/-- What takes effect was not covered before. -/
theorem count_lt (h : Leads c js d) (ha : a ∈ js) :
    c.count a.update.origin < a.update.number := by
  obtain ⟨pre, post, hjs⟩ := List.append_of_mem ha
  obtain ⟨hpre, hnext, -⟩ := h.split hjs
  have hcount := hpre.count_eq a.update.origin
  have hnumber := hnext.number
  omega

/-- No update covers one that takes effect after it. -/
theorem pairwise (h : Leads c js d) :
    js.Pairwise fun a b => a.update.clock.dominates b.update.clock = false := by
  induction h with
  | stay => exact .nil
  | @step c d a js _ hnext h ih =>
    refine List.pairwise_cons.2 ⟨?_, ih⟩
    intro b hb
    refine Bool.eq_false_iff.2 fun hcov => ?_
    have hcovered := Clock.dominates_trans hnext.covers hcov
    have hle := Clock.dominates_iff.1 hcovered b.update.origin
    have hlt := h.count_lt hb
    rw [Update.number] at hlt
    omega

end Leads

/-- Applying an update that counts itself, when its turn has come. -/
theorem isNext_apply {e : Engine} {u : Update} (hadm : e.clock.admits u.origin u.clock = true)
    (hpos : 1 ≤ u.number) : IsNext ⟨u, e.clock, (e.apply u).clock⟩ := by
  have hne : u.clock.count u.origin ≠ 0 := Nat.one_le_iff_ne_zero.1 hpos
  obtain ⟨hself, hother⟩ := (Clock.admits_iff_of_count_ne_zero hne).1 hadm
  refine ⟨hself, ?_, ?_, Clock.dominates_merge_right ..⟩
  · change (e.clock.merge u.clock).count u.origin = u.clock.count u.origin
    rw [Clock.count_merge]
    omega
  · intro o ho
    change (e.clock.merge u.clock).count o = e.clock.count o
    rw [Clock.count_merge]
    exact Nat.max_eq_left (hother o ho)

/-- Writing counts the write. -/
theorem isNext_write {e : Engine} {u : Update} (ho : u.origin = e.localId)
    (hinc : e.clock.increment e.localId = .ok u.clock) : IsNext ⟨u, e.clock, u.clock⟩ := by
  obtain ⟨hself, hother⟩ := Clock.increment_spec hinc
  rw [← ho] at hself hother
  exact ⟨hself, rfl, hother, Clock.dominates_refl _⟩

end Application

namespace Engine

open Application

variable {e : Engine} {us : List Update} {a : Action} {as : List Action}

/-- The applications of updates, one after the other. -/
def applications (e : Engine) : List Update → List Application
  | [] => []
  | u :: us => ⟨u, e.clock, (e.apply u).clock⟩ :: (e.apply u).applications us

/-- What takes effect in an action, in order. -/
def journal (e : Engine) : Action → List Application
  | .addServer _ => []
  | .write key value =>
    match e.write key value with
    | .ok (_, u) => ⟨u, e.clock, u.clock⟩ :: (e.record u).applications (e.record u).reconciled
    | .error _ => []
  | .receive u => e.applications (e.delivered u)
  | .reconcile => e.applications e.reconciled
  | .install s => (e.overwrite s).applications (e.overwrite s).reconciled

/-- What takes effect in a run, in order. -/
def journalAll (e : Engine) : List Action → List Application
  | [] => []
  | a :: as => e.journal a ++ (e.act a).journalAll as

theorem leads_applications (hturn : e.InTurn us) (hpos : ∀ u ∈ us, 1 ≤ u.number) :
    Leads e.clock (e.applications us) (e.applyAll us).clock := by
  induction us generalizing e with
  | nil => exact .stay fun _ => rfl
  | cons u us ih =>
    have hnext := isNext_apply hturn.1 (hpos u List.mem_cons_self)
    exact .step (fun _ => rfl) hnext (ih hturn.2 fun v hv => hpos v (List.mem_cons_of_mem _ hv))

theorem leads_reconcile (e : Engine) :
    Leads e.clock (e.applications e.reconciled) e.reconcile.1.clock := by
  rw [reconcile_clock]
  exact leads_applications (inTurn_reconciled e) fun u => number_pos_of_drained

theorem store_applications (e : Engine) (us : List Update) :
    (e.applyAll us).store = writeAll e.store (e.applications us) := by
  induction us generalizing e with
  | nil => rfl
  | cons u us ih => exact ih (e.apply u)

theorem store_reconcile (e : Engine) :
    e.reconcile.1.store = writeAll e.store (e.applications e.reconciled) := by
  rw [reconcile_store, store_applications]

/-- An action leads from one clock to the next by what takes effect in it, unless it takes over a
clock from elsewhere. -/
theorem leads_act (ha : ∀ s, a ≠ .install s) :
    Leads e.clock (e.journal a) (e.act a).clock ∧
      (e.act a).store = writeAll e.store (e.journal a) := by
  cases a with
  | addServer id => exact ⟨.stay fun _ => Clock.count_addDimension, rfl⟩
  | write key value =>
    simp only [journal, act]
    split
    next e' u hw =>
      obtain ⟨-, -, ho, hinc, rfl⟩ := write_eq_ok_iff.1 hw
      rw [hw]
      refine ⟨.step (fun _ => rfl) (isNext_write ho hinc) ?_, ?_⟩
      · exact leads_reconcile (e.record u)
      · exact store_reconcile (e.record u)
    next x hw =>
      rw [hw]
      exact ⟨.stay fun _ => rfl, rfl⟩
  | receive u =>
    rw [act, receive_eq]
    refine ⟨leads_applications (inTurn_delivered e u) fun v => number_pos_of_delivered, ?_⟩
    exact store_applications e (e.delivered u)
  | reconcile => exact ⟨leads_reconcile e, store_reconcile e⟩
  | install s => exact absurd rfl (ha s)

theorem leads_actAll (has : ∀ s, .install s ∉ as) :
    Leads e.clock (e.journalAll as) (e.actAll as).clock ∧
      (e.actAll as).store = writeAll e.store (e.journalAll as) := by
  induction as generalizing e with
  | nil => exact ⟨.stay fun _ => rfl, rfl⟩
  | cons a as ih =>
    obtain ⟨hclock, hstore⟩ := leads_act (e := e) fun s h => has s (h ▸ List.mem_cons_self)
    obtain ⟨hclock', hstore'⟩ := ih (e := e.act a) fun s h => has s (List.mem_cons_of_mem _ h)
    refine ⟨hclock.append hclock', ?_⟩
    rw [hstore] at hstore'
    exact hstore'.trans List.foldl_append.symm

/-- Whatever a new engine receives, as long as it takes over no snapshot: each counter of its clock
is the number of updates of that origin that took effect, at the end of the run and before each of
them; an update takes effect with the next number of its origin and moves no other counter; none is
covered by one that took effect before; and the store holds what they wrote, in their order. -/
theorem applied_in_sequence (id : NodeId) (has : ∀ s, .install s ∉ as) :
    (∀ o, ((new id).actAll as).clock.count o = tally ((new id).journalAll as) o) ∧
    (∀ pre a post, (new id).journalAll as = pre ++ a :: post →
      (∀ o, a.before.count o = tally pre o) ∧
      a.update.sequence.toNat = tally pre a.update.origin + 1 ∧
      a.after.count a.update.origin = a.before.count a.update.origin + 1 ∧
      ∀ o, o ≠ a.update.origin → a.after.count o = a.before.count o) ∧
    ((new id).journalAll as).Pairwise
      (fun a b => a.update.clock.dominates b.update.clock = false) ∧
    ((new id).actAll as).store = writeAll .empty ((new id).journalAll as) := by
  have hzero (o : NodeId) : (new id).clock.count o = 0 := Clock.count_seeded
  obtain ⟨hleads, hstore⟩ := leads_actAll (e := new id) has
  refine ⟨fun o => ?_, fun pre a post hjs => ?_, hleads.pairwise, hstore⟩
  · rw [hleads.count_eq, hzero, Nat.zero_add]
  · obtain ⟨hpre, hnext, -⟩ := hleads.split hjs
    have hbefore (o : NodeId) : a.before.count o = tally pre o := by
      rw [hpre.count_eq, hzero, Nat.zero_add]
    refine ⟨hbefore, ?_, ?_, hnext.others⟩
    · rw [← hbefore]
      exact hnext.number
    · rw [hnext.self, hnext.number]

/-- A node `a` that is told of a write of its own which it never made, of the last write that `b` can
make before any other, of two that do not count themselves, and of the first two of `b`. -/
def forgeries : List Action :=
  [.receive ⟨"k", "forged", "a", .ofList [("a", 1)]⟩, .write "k" "written",
    .receive ⟨"x", "last", "b", .ofList [("b", 18446744073709551615)]⟩,
    .receive ⟨"x", "uncounted", "c", .ofList [("a", 1)]⟩,
    .receive ⟨"x", "uncounted", "c", .ofList [("b", 2)]⟩,
    .receive ⟨"x", "second", "b", .ofList [("a", 2), ("b", 2)]⟩, .addServer "d",
    .receive ⟨"x", "first", "b", .ofList [("b", 1)]⟩, .reconcile]

theorem forgeries_apply_in_sequence : (∀ s, .install s ∉ forgeries) ∧
    ((new "a").journalAll forgeries).map (fun a => (a.update.value, a.update.sequence)) =
      [("forged", 1), ("written", 2), ("first", 1), ("second", 2)] ∧
    ((new "a").actAll forgeries).clock.count "a" = 2 ∧
    ((new "a").actAll forgeries).clock.count "b" = 2 ∧
    ((new "a").journalAll forgeries).Pairwise
      (fun a b => a.update.clock.dominates b.update.clock = false) := by
  have has : ∀ s, .install s ∉ forgeries := by
    intro s h
    simp [forgeries] at h
  have hjournal : ((new "a").journalAll forgeries).map
      (fun a => (a.update.value, a.update.sequence)) =
        [("forged", 1), ("written", 2), ("first", 1), ("second", 2)] := by decide +kernel
  have htally : tally ((new "a").journalAll forgeries) "a" = 2 ∧
      tally ((new "a").journalAll forgeries) "b" = 2 := by decide +kernel
  obtain ⟨hcount, -, hafter, -⟩ := applied_in_sequence "a" has
  rw [hcount, hcount]
  exact ⟨has, hjournal, htally.1, htally.2, hafter⟩

end Engine
end CausalStore
