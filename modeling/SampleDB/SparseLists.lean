import Mathlib.Data.List.TakeDrop
import SampleDB.Slices

/-!
Lists that are filled up with a default element behind their end. A write may begin behind
the end, and a window may reach over it; both are described element by element.
-/
namespace SampleDB.SparseLists

open Slices

variable {α : Type*} (gap : α)

/-- The elements from `pos` on are replaced. -/
def writeAt (xs : List α) (pos : ℕ) (ys : List α) : List α :=
  xs.takeD pos gap ++ ys ++ xs.drop (pos + ys.length)

/-- The `n` elements from `pos` on. -/
def window (xs : List α) (pos n : ℕ) : List α := (xs.drop pos).takeD n gap

variable {gap} {xs ys zs : List α} {pos n i : ℕ}

theorem getElem?_takeD (xs : List α) (n i : ℕ) :
    (xs.takeD n gap)[i]? = if i < n then some (xs[i]?.getD gap) else none := by
  induction n generalizing xs i with
  | zero => rfl
  | succ n ih =>
    rw [List.takeD_succ]
    cases i with
    | zero =>
      rw [List.getElem?_cons_zero, if_pos n.succ_pos, List.head?_eq_getElem?]
    | succ i =>
      rw [List.getElem?_cons_succ, ih, List.getElem?_tail]
      exact if_congr (Nat.succ_lt_succ_iff).symm rfl rfl

theorem window_length : (window gap xs pos n).length = n :=
  List.takeD_length n _ gap

theorem getElem?_window :
    (window gap xs pos n)[i]? = if i < n then some (xs[pos + i]?.getD gap) else none := by
  unfold window
  rw [getElem?_takeD, List.getElem?_drop]

theorem writeAt_length : (writeAt gap xs pos ys).length = max xs.length (pos + ys.length) := by
  unfold writeAt
  rw [List.length_append, List.length_append, List.takeD_length, List.length_drop]
  omega

/-- What is written is found again, and nothing else changes. -/
theorem getD_writeAt : (writeAt gap xs pos ys)[i]?.getD gap =
    if pos ≤ i ∧ i < pos + ys.length then ys[i - pos]?.getD gap else xs[i]?.getD gap := by
  have hlen : (xs.takeD pos gap).length = pos := List.takeD_length pos xs gap
  unfold writeAt
  rw [List.append_assoc]
  by_cases hlow : i < pos
  · rw [List.getElem?_append_left (by omega), getElem?_takeD, if_pos hlow, if_neg (by omega)]
    rfl
  · rw [List.getElem?_append_right (by omega), hlen]
    by_cases hin : i < pos + ys.length
    · rw [List.getElem?_append_left (by omega), if_pos ⟨by omega, hin⟩]
    · rw [List.getElem?_append_right (by omega), List.getElem?_drop, if_neg (by omega)]
      congr 2
      omega

theorem window_congr (h : ∀ i, i < n → xs[pos + i]?.getD gap = zs[pos + i]?.getD gap) :
    window gap xs pos n = window gap zs pos n := by
  apply List.ext_getElem?
  intro i
  rw [getElem?_window, getElem?_window]
  by_cases hi : i < n
  · rw [if_pos hi, if_pos hi, h i hi]
  · rw [if_neg hi, if_neg hi]

theorem window_writeAt_self : window gap (writeAt gap xs pos ys) pos ys.length = ys := by
  apply List.ext_getElem?
  intro i
  rw [getElem?_window]
  by_cases hi : i < ys.length
  · rw [if_pos hi, getD_writeAt, if_pos ⟨by omega, by omega⟩, Nat.add_sub_cancel_left,
      List.getElem?_eq_getElem hi]
    rfl
  · rw [if_neg hi]
    exact (List.getElem?_eq_none (by omega)).symm

/-- A write in front of the window or behind it does not change it. -/
theorem window_writeAt_other {at' : ℕ} (h : at' + ys.length ≤ pos ∨ pos + n ≤ at') :
    window gap (writeAt gap xs at' ys) pos n = window gap xs pos n := by
  apply window_congr
  intro i hi
  rw [getD_writeAt, if_neg (by omega)]

theorem window_behind (h : xs.length ≤ pos) : window gap xs pos n = List.replicate n gap := by
  unfold window
  rw [List.drop_eq_nil_of_le h, List.takeD_nil]

/-- A window that is present as a whole. -/
theorem slice_eq_window (h : pos + n ≤ xs.length) : slice xs pos n = window gap xs pos n := by
  apply List.ext_getElem?
  intro i
  rw [getElem?_window, slice_getElem?]
  by_cases hi : i < n
  · rw [if_pos hi, if_pos hi, List.getElem?_eq_getElem (by omega)]
    rfl
  · rw [if_neg hi, if_neg hi]

end SampleDB.SparseLists
