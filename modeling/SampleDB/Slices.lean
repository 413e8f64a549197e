import Mathlib.Data.List.Basic

/-!
Fixed-length windows of a list and their replacement in place. A splice keeps
the length of the list and every position outside the replaced window, so the
laws of a read after a write follow position by position.
-/
namespace SampleDB.Slices

variable {α : Type*}

/-- The `n` elements of `xs` from position `i` on. -/
def slice (xs : List α) (i n : ℕ) : List α := (xs.drop i).take n

/-- `xs` with the elements from position `i` on replaced by `ys`. -/
def splice (xs : List α) (i : ℕ) (ys : List α) : List α :=
  xs.take i ++ ys ++ xs.drop (i + ys.length)

theorem slice_length (xs : List α) (i n : ℕ) (h : i + n ≤ xs.length) :
    (slice xs i n).length = n := by
  simp only [slice, List.length_take, List.length_drop]
  omega

theorem slice_getElem? (xs : List α) (i n j : ℕ) :
    (slice xs i n)[j]? = if j < n then xs[i + j]? else none := by
  unfold slice
  split
  · rename_i h
    rw [List.getElem?_take_of_lt h, List.getElem?_drop]
  · rename_i h
    exact List.getElem?_eq_none (by simp only [List.length_take]; omega)

@[simp] theorem splice_length (xs : List α) (i : ℕ) (ys : List α)
    (h : i + ys.length ≤ xs.length) : (splice xs i ys).length = xs.length := by
  simp only [splice, List.length_append, List.length_take, List.length_drop]
  omega

/-- A splice reads `ys` inside its window and the old list outside it. -/
theorem splice_getElem? (xs : List α) (i : ℕ) (ys : List α) (j : ℕ)
    (h : i + ys.length ≤ xs.length) :
    (splice xs i ys)[j]? = if i ≤ j ∧ j < i + ys.length then ys[j - i]? else xs[j]? := by
  unfold splice
  have htake : (xs.take i).length = i := by
    simp only [List.length_take]
    omega
  rw [List.append_assoc]
  by_cases hlow : j < i
  · rw [List.getElem?_append_left (by omega), List.getElem?_take_of_lt hlow]
    rw [if_neg (by omega)]
  · rw [List.getElem?_append_right (by omega), htake]
    by_cases hin : j < i + ys.length
    · rw [List.getElem?_append_left (by omega), if_pos ⟨by omega, hin⟩]
    · rw [List.getElem?_append_right (by omega), List.getElem?_drop, if_neg (by omega)]
      congr 1
      omega

theorem slice_splice_self (xs : List α) (i : ℕ) (ys : List α)
    (h : i + ys.length ≤ xs.length) : slice (splice xs i ys) i ys.length = ys := by
  apply List.ext_getElem?
  intro j
  rw [slice_getElem?, splice_getElem? xs i ys _ h]
  by_cases hj : j < ys.length
  · rw [if_pos hj, if_pos ⟨by omega, by omega⟩]
    congr 1
    omega
  · rw [if_neg hj, List.getElem?_eq_none (by omega)]

/-- A window that the splice does not meet reads as before. -/
theorem slice_splice_of_disjoint (xs : List α) (i : ℕ) (ys : List α) (k n : ℕ)
    (h : i + ys.length ≤ xs.length) (hd : k + n ≤ i ∨ i + ys.length ≤ k) :
    slice (splice xs i ys) k n = slice xs k n := by
  apply List.ext_getElem?
  intro j
  rw [slice_getElem?, slice_getElem?]
  by_cases hj : j < n
  · rw [if_pos hj, if_pos hj, splice_getElem? xs i ys _ h, if_neg (by omega)]
  · rw [if_neg hj, if_neg hj]

theorem splice_slice_self (xs : List α) (i n : ℕ) (h : i + n ≤ xs.length) :
    splice xs i (slice xs i n) = xs := by
  have hn := slice_length xs i n h
  apply List.ext_getElem?
  intro j
  rw [splice_getElem? xs i _ _ (by omega), hn]
  by_cases hj : i ≤ j ∧ j < i + n
  · rw [if_pos hj, slice_getElem?, if_pos (by omega)]
    congr 1
    omega
  · rw [if_neg hj]

/-- Of two splices of one window the second is what remains. -/
theorem splice_splice_self (xs : List α) (i : ℕ) (ys zs : List α)
    (hlen : ys.length = zs.length) (h : i + ys.length ≤ xs.length) :
    splice (splice xs i ys) i zs = splice xs i zs := by
  apply List.ext_getElem?
  intro j
  rw [splice_getElem? _ i zs _ (by rw [splice_length xs i ys h]; omega),
    splice_getElem? xs i zs _ (by omega), splice_getElem? xs i ys _ h, hlen]
  by_cases hj : i ≤ j ∧ j < i + zs.length
  · rw [if_pos hj, if_pos hj]
  · rw [if_neg hj, if_neg hj, if_neg hj]

/-- Two adjacent splices are the splice of the joined window. -/
theorem splice_append (xs : List α) (i : ℕ) (ys zs : List α)
    (h : i + (ys.length + zs.length) ≤ xs.length) :
    splice xs i (ys ++ zs) = splice (splice xs i ys) (i + ys.length) zs := by
  have hys := splice_length xs i ys (by omega)
  apply List.ext_getElem?
  intro j
  rw [splice_getElem? xs i (ys ++ zs) _ (by simp only [List.length_append]; omega),
    splice_getElem? (splice xs i ys) _ zs _ (by omega), splice_getElem? xs i ys _ (by omega),
    List.length_append]
  by_cases hfirst : i ≤ j ∧ j < i + ys.length
  · rw [if_pos (by omega), if_neg (by omega), if_pos hfirst,
      List.getElem?_append_left (by omega)]
  · by_cases hsecond : i + ys.length ≤ j ∧ j < i + ys.length + zs.length
    · rw [if_pos (by omega), if_pos hsecond, List.getElem?_append_right (by omega)]
      congr 1
      omega
    · rw [if_neg (by omega), if_neg hsecond, if_neg hfirst]

/-- Everything from the end of the window on is untouched. -/
theorem drop_splice (xs : List α) (i : ℕ) (ys : List α)
    (h : i + ys.length ≤ xs.length) :
    (splice xs i ys).drop i = ys ++ xs.drop (i + ys.length) := by
  have htake : (xs.take i).length = i := by
    simp only [List.length_take]
    omega
  unfold splice
  rw [List.append_assoc, List.drop_append, htake]
  simp [List.drop_eq_nil_of_le, htake]

theorem drop_splice_of_le (xs : List α) (i : ℕ) (ys : List α) (k : ℕ)
    (h : i + ys.length ≤ xs.length) (hk : i + ys.length ≤ k) :
    (splice xs i ys).drop k = xs.drop k := by
  apply List.ext_getElem?
  intro j
  rw [List.getElem?_drop, List.getElem?_drop, splice_getElem? xs i ys _ h,
    if_neg (by omega)]

theorem slice_add (xs : List α) (i n m : ℕ) :
    slice xs i (n + m) = slice xs i n ++ slice xs (i + n) m := by
  unfold slice
  rw [List.take_add, List.drop_drop]

/-- Wherever a splice puts an element into the window from `k` on, it puts the one that is
there. -/
def Agrees (xs : List α) (i : ℕ) (ys : List α) (k n : ℕ) : Prop :=
  ∀ j, k ≤ j → j < k + n → i ≤ j → j < i + ys.length → ys[j - i]? = xs[j]?

theorem slice_splice_iff (xs : List α) (i : ℕ) (ys : List α) (k n : ℕ)
    (h : i + ys.length ≤ xs.length) :
    slice (splice xs i ys) k n = slice xs k n ↔ Agrees xs i ys k n := by
  constructor
  · intro heq j hk hn hi hlt
    have hj : (slice (splice xs i ys) k n)[j - k]? = (slice xs k n)[j - k]? := by rw [heq]
    rw [slice_getElem?, slice_getElem?, if_pos (by omega), if_pos (by omega),
      show k + (j - k) = j by omega, splice_getElem? xs i ys j h, if_pos ⟨hi, hlt⟩] at hj
    exact hj
  · intro hagrees
    apply List.ext_getElem?
    intro j
    rw [slice_getElem?, slice_getElem?]
    by_cases hj : j < n
    · rw [if_pos hj, if_pos hj, splice_getElem? xs i ys _ h]
      by_cases hin : i ≤ k + j ∧ k + j < i + ys.length
      · rw [if_pos hin]
        exact hagrees (k + j) (by omega) (by omega) hin.1 hin.2
      · rw [if_neg hin]
    · rw [if_neg hj, if_neg hj]

end SampleDB.Slices
