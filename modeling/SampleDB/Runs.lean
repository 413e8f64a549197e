import Mathlib.Data.Int.Notation

/-!
Runs of a labelled transition system, and the rule that carries an invariant from
one step to a whole run.
-/
namespace SampleDB.Runs

variable {σ ℓ : Type*}

/-- The labels `ls` lead from one state to another. -/
inductive Run (step : σ → ℓ → σ → Prop) : σ → List ℓ → σ → Prop
  | nil (s : σ) : Run step s [] s
  | cons {s s' s'' : σ} {l : ℓ} {ls : List ℓ} (hstep : step s l s')
      (hrest : Run step s' ls s'') : Run step s (l :: ls) s''

variable {step step' : σ → ℓ → σ → Prop} {s s' : σ} {ls : List ℓ}

theorem Run.invariant (h : Run step s ls s') (P : σ → Prop)
    (hstep : ∀ s l s', P s → step s l s' → P s') (hs : P s) : P s' := by
  induction h with
  | nil s => exact hs
  | cons hfirst hrest ih => exact ih (hstep _ _ _ hs hfirst)

theorem Run.mono (h : Run step s ls s') (himp : ∀ s l s', step s l s' → step' s l s') :
    Run step' s ls s' := by
  induction h with
  | nil s => exact .nil s
  | cons hfirst hrest ih => exact .cons (himp _ _ _ hfirst) ih

theorem Run.append {s'' : σ} {ls' : List ℓ} (h : Run step s ls s') (h' : Run step s' ls' s'') :
    Run step s (ls ++ ls') s'' := by
  induction h with
  | nil s => exact h'
  | cons hfirst hrest ih => exact .cons hfirst (ih h')

/-- A fold that can fail is a run of its steps. -/
theorem run_of_foldlM {f : σ → ℓ → Option σ} (h : ls.foldlM f s = some s') :
    Run (fun s l s' => f s l = some s') s ls s' := by
  induction ls generalizing s with
  | nil =>
    cases h
    exact .nil _
  | cons l ls ih =>
    rw [List.foldlM_cons] at h
    obtain ⟨s₁, hfirst, hrest⟩ := Option.bind_eq_some_iff.mp h
    exact .cons hfirst (ih hrest)

end SampleDB.Runs
