import Mathlib.Tactic.Common

/-!
# Simulations

Machines take steps that can be seen from outside as events. A machine refines a specification
if every run of it is one of the specification, with the same events. Clients only do what the
specification admits, so the runs are those whose events are admitted.

Results:
1. `Runs.append`: runs are put together.
2. `Runs.invariant`: what every step keeps, a run keeps.
3. `Simulation.runs`: what is simulated step by step is simulated run by run.
-/

namespace Simulations

variable {σ τ ε : Type}

/-- A run with its events, the first one first. -/
inductive Runs (step : σ → ε → σ → Prop) : σ → List ε → σ → Prop where
  | nil (s : σ) : Runs step s [] s
  | cons {s s₁ s₂ : σ} {e : ε} {es : List ε} (first : step s e s₁) (rest : Runs step s₁ es s₂) :
      Runs step s (e :: es) s₂

section Runs
variable {step : σ → ε → σ → Prop} {s s₁ s₂ : σ} {e : ε} {es fs : List ε}

theorem runs_cons : Runs step s (e :: es) s₂ ↔ ∃ s₁, step s e s₁ ∧ Runs step s₁ es s₂ := by
  constructor
  · intro h
    cases h with
    | cons first rest => exact ⟨_, first, rest⟩
  · rintro ⟨s₁, first, rest⟩
    exact .cons first rest

theorem Runs.append (h : Runs step s es s₁) (h' : Runs step s₁ fs s₂) :
    Runs step s (es ++ fs) s₂ := by
  induction h with
  | nil => exact h'
  | cons first _ ih => exact .cons first (ih h')

/-- What every step keeps, a run keeps. -/
theorem Runs.invariant {I : σ → Prop} (hstep : ∀ s e s', I s → step s e s' → I s')
    (h : Runs step s es s₂) (hs : I s) : I s₂ := by
  induction h with
  | nil => exact hs
  | cons first _ ih => exact ih (hstep _ _ _ hs first)

end Runs

/-- Each event is admitted in every state that the specification may be in when it happens. -/
def Guarded (spec : τ → ε → τ → Prop) (admits : τ → ε → Prop) (t : τ) (es : List ε) : Prop :=
  ∀ fs e gs t', es = fs ++ e :: gs → Runs spec t fs t' → admits t' e

/-- `R` ties the states together, and the specification can follow every step that is admitted. -/
structure Simulation (step : σ → ε → σ → Prop) (spec : τ → ε → τ → Prop) (admits : τ → ε → Prop)
    (R : σ → τ → Prop) : Prop where
  follows : ∀ {s s' : σ} {t : τ} {e : ε}, R s t → admits t e → step s e s' →
    ∃ t', spec t e t' ∧ R s' t'

section Simulation
variable {step : σ → ε → σ → Prop} {spec : τ → ε → τ → Prop} {admits : τ → ε → Prop}
  {R : σ → τ → Prop} {s s' : σ} {t t' : τ} {e : ε} {es fs : List ε}

/-- The first event is admitted, and so are the others in every state behind it. -/
theorem Guarded.cons (h : Guarded spec admits t (e :: es)) :
    admits t e ∧ ∀ t', spec t e t' → Guarded spec admits t' es := by
  constructor
  · exact h [] e es t rfl (.nil t)
  · intro t' hspec fs f gs t'' hes hrun
    exact h (e :: fs) f gs t'' (congrArg (e :: ·) hes) (.cons hspec hrun)

theorem guarded_nil : Guarded spec admits t [] := by
  intro fs f gs t' h _
  cases fs <;> cases h

theorem guarded_cons (hmay : admits t e) (hrest : ∀ t', spec t e t' → Guarded spec admits t' es) :
    Guarded spec admits t (e :: es) := by
  intro fs f gs t' h hrun
  cases fs with
  | nil =>
    cases h
    cases hrun
    exact hmay
  | cons f' fs =>
    cases h
    obtain ⟨t₁, hspec, hrun⟩ := runs_cons.mp hrun
    exact hrest t₁ hspec fs f gs t' rfl hrun

/-- A guarded run begins with a guarded run, and the rest is guarded behind it. -/
theorem Guarded.split (h : Guarded spec admits t (es ++ fs)) :
    Guarded spec admits t es ∧ ∀ t', Runs spec t es t' → Guarded spec admits t' fs := by
  constructor
  · intro fs' f gs t' hes hrun
    exact h fs' f (gs ++ fs) t' (by rw [hes, List.append_assoc, List.cons_append]) hrun
  · intro t' hrun fs' f gs t'' hfs hrun'
    exact h (es ++ fs') f gs t'' (by rw [hfs, List.append_assoc]) (hrun.append hrun')

/-- Every guarded run is a run of the specification with the same events. -/
theorem Simulation.runs (h : Simulation step spec admits R) (hR : R s t)
    (hguard : Guarded spec admits t es) (hrun : Runs step s es s') :
    ∃ t', Runs spec t es t' ∧ R s' t' := by
  induction hrun generalizing t with
  | nil s => exact ⟨t, .nil t, hR⟩
  | cons first _ ih =>
    obtain ⟨hmay, hrest⟩ := hguard.cons
    obtain ⟨t₁, hspec, hR₁⟩ := h.follows hR hmay first
    obtain ⟨t', hrun', hR'⟩ := ih hR₁ (hrest t₁ hspec)
    exact ⟨t', .cons hspec hrun', hR'⟩

end Simulation

end Simulations
