/-!
# Runs

A system is a step function on its states, which may refuse an action. `Reaches` is the closure of
its steps, over the actions that are let pass.
-/

namespace CausalStore

variable {σ α : Type} {step : σ → α → Option σ} {allowed allowed' : σ → α → Prop} {s t t' : σ}
  {a : α}

/-- The states to which steps lead from `s`, each by an action that is allowed where it is taken. -/
inductive Reaches (step : σ → α → Option σ) (allowed : σ → α → Prop) (s : σ) : σ → Prop
  | refl : Reaches step allowed s s
  | step {t t' : σ} {a : α} : Reaches step allowed s t → allowed t a → step t a = some t' →
      Reaches step allowed s t'

/-- The state to which the actions of a list lead, one after the other. -/
def runAll (step : σ → α → Option σ) (s : σ) : List α → Option σ
  | [] => some s
  | a :: as => (step s a).bind fun t => runAll step t as

namespace Reaches

theorem single (ha : allowed s a) (h : step s a = some t) : Reaches step allowed s t :=
  .step .refl ha h

theorem trans (h₁ : Reaches step allowed s t) (h₂ : Reaches step allowed t t') :
    Reaches step allowed s t' := by
  induction h₂ with
  | refl => exact h₁
  | step _ ha h ih => exact .step ih ha h

theorem mono (h : Reaches step allowed s t) (hle : ∀ s a, allowed s a → allowed' s a) :
    Reaches step allowed' s t := by
  induction h with
  | refl => exact .refl
  | step _ ha h ih => exact .step ih (hle _ _ ha) h

/-- What every step keeps holds of every state reached. -/
theorem keeps {P : σ → Prop} (h : Reaches step allowed s t) (hs : P s)
    (hstep : ∀ {s t a}, P s → allowed s a → step s a = some t → P t) : P t := by
  induction h with
  | refl => exact hs
  | step _ ha h ih => exact hstep ih ha h

theorem of_runAll {as : List α} (h : runAll step s as = some t) :
    Reaches step (fun _ _ => True) s t := by
  induction as generalizing s with
  | nil => cases h; exact .refl
  | cons a as ih =>
    obtain ⟨s', hs', h⟩ := Option.bind_eq_some_iff.1 h
    exact (single trivial hs').trans (ih h)

/-- A list of actions each of which is allowed where it is taken is a run. -/
theorem of_runAll_guarded [∀ s a, Decidable (allowed s a)] {as : List α}
    (h : runAll (fun s a => if allowed s a then step s a else none) s as = some t) :
    Reaches step allowed s t := by
  induction as generalizing s with
  | nil => cases h; exact .refl
  | cons a as ih =>
    obtain ⟨s', hs', h⟩ := Option.bind_eq_some_iff.1 h
    dsimp only at hs'
    split at hs'
    next ha => exact (single ha hs').trans (ih h)
    next => cases hs'

end Reaches

end CausalStore
