import Mathlib.Logic.Function.Basic
import Mathlib.Data.List.Basic

/-!
Stores whose operations each act on one cell and can fail. Running a list of
operations on the store is the same as running, on each cell, those that act on it;
so two runs agree on a cell whatever happens on the others.
-/
namespace SampleDB.Cells

variable {κ α ω : Type} [DecidableEq κ]

/-- One cell under the operations that act on it. -/
def runCell (act : ω → α → Option α) (a : α) (ops : List ω) : Option α :=
  ops.foldlM (fun a op => act op a) a

def run (cell : ω → κ) (act : ω → α → Option α) (store : κ → α) (ops : List ω) :
    Option (κ → α) :=
  ops.foldlM (fun store op =>
    (act op (store (cell op))).map (Function.update store (cell op))) store

/-- The operations on one cell. -/
def opsOn (cell : ω → κ) (k : κ) (ops : List ω) : List ω := ops.filter (fun op => cell op = k)

section Basic

variable (cell : ω → κ) (act : ω → α → Option α)

theorem runCell_append (a : α) (ops ops' : List ω) :
    runCell act a (ops ++ ops') = (runCell act a ops).bind (fun a => runCell act a ops') := by
  unfold runCell
  rw [List.foldlM_append]
  rfl

theorem runCell_singleton (a : α) (op : ω) : runCell act a [op] = act op a := by
  simp [runCell]

theorem runCell_cons (a : α) (op : ω) (ops : List ω) :
    runCell act a (op :: ops) = (act op a).bind (fun a => runCell act a ops) := by
  unfold runCell
  rw [List.foldlM_cons]
  rfl

@[simp] theorem opsOn_append (k : κ) (ops ops' : List ω) :
    opsOn cell k (ops ++ ops') = opsOn cell k ops ++ opsOn cell k ops' :=
  List.filter_append ops ops'

theorem opsOn_cons_self (op : ω) (ops : List ω) :
    opsOn cell (cell op) (op :: ops) = op :: opsOn cell (cell op) ops := by
  unfold opsOn
  rw [List.filter_cons_of_pos (by simp)]

theorem opsOn_cons_ne {k : κ} {op : ω} (h : cell op ≠ k) (ops : List ω) :
    opsOn cell k (op :: ops) = opsOn cell k ops := by
  unfold opsOn
  rw [List.filter_cons_of_neg (by simpa using h)]

/-- A run of the store is a run of each cell. -/
theorem run_eq_some_iff (ops : List ω) (store store' : κ → α) :
    run cell act store ops = some store' ↔
      ∀ k, runCell act (store k) (opsOn cell k ops) = some (store' k) := by
  induction ops generalizing store with
  | nil =>
    constructor
    · intro h k
      cases h
      rfl
    · intro h
      have heq : store = store' := by
        funext k
        exact Option.some.inj (h k)
      rw [heq]
      rfl
  | cons op ops ih =>
    unfold run
    rw [List.foldlM_cons]
    cases hact : act op (store (cell op)) with
    | none =>
      constructor
      · intro h
        cases h
      · intro h
        have hcell := h (cell op)
        rw [opsOn_cons_self, runCell_cons, hact] at hcell
        cases hcell
    | some a =>
      have hcells : ∀ k, runCell act (store k) (opsOn cell k (op :: ops)) =
          runCell act (Function.update store (cell op) a k) (opsOn cell k ops) := by
        intro k
        by_cases hk : cell op = k
        · subst hk
          rw [opsOn_cons_self, runCell_cons, hact, Function.update_self]
          rfl
        · rw [opsOn_cons_ne cell hk, Function.update_of_ne (Ne.symm hk)]
      simp only [hcells]
      exact ih (Function.update store (cell op) a)

end Basic

end SampleDB.Cells
