import SampleDB.Slices

/-!
Lists that are patched one window after another. A position that some patch covers
ends with what the last such patch has there, whatever stood there before; so the
outcome depends only on the positions that no patch covers.
-/
namespace SampleDB.Patches

open Slices

variable {α : Type*}

/-- The elements `vals` from position `pos` on. -/
structure Patch (α : Type*) where
  pos : ℕ
  vals : List α

namespace Patch

def apply (p : Patch α) (xs : List α) : List α := splice xs p.pos p.vals

def Covers (p : Patch α) (j : ℕ) : Prop := p.pos ≤ j ∧ j < p.pos + p.vals.length

/-- The window lies inside a list of `n` elements. -/
def Fits (n : ℕ) (p : Patch α) : Prop := p.pos + p.vals.length ≤ n

theorem apply_length {p : Patch α} {xs : List α} (h : p.Fits xs.length) :
    (p.apply xs).length = xs.length :=
  splice_length xs p.pos p.vals h

theorem apply_getElem?_of_covers {p : Patch α} {xs : List α} {j : ℕ} (h : p.Fits xs.length)
    (hj : p.Covers j) : (p.apply xs)[j]? = p.vals[j - p.pos]? :=
  (splice_getElem? xs p.pos p.vals j h).trans (if_pos hj)

theorem apply_getElem?_of_not_covers {p : Patch α} {xs : List α} {j : ℕ}
    (h : p.Fits xs.length) (hj : ¬ p.Covers j) : (p.apply xs)[j]? = xs[j]? :=
  (splice_getElem? xs p.pos p.vals j h).trans (if_neg hj)

end Patch

/-- The patches one after another, the first of the list first. -/
def applyAll (ps : List (Patch α)) (xs : List α) : List α := ps.foldl (fun xs p => p.apply xs) xs

@[simp] theorem applyAll_nil (xs : List α) : applyAll [] xs = xs := rfl

@[simp] theorem applyAll_cons (p : Patch α) (ps : List (Patch α)) (xs : List α) :
    applyAll (p :: ps) xs = applyAll ps (p.apply xs) := rfl

theorem applyAll_append (ps qs : List (Patch α)) (xs : List α) :
    applyAll (ps ++ qs) xs = applyAll qs (applyAll ps xs) := List.foldl_append

variable {ps : List (Patch α)} {xs ys : List α}

theorem applyAll_length (h : ∀ p ∈ ps, p.Fits xs.length) :
    (applyAll ps xs).length = xs.length := by
  induction ps generalizing xs with
  | nil => rfl
  | cons p ps ih =>
    have hlen := Patch.apply_length (h p List.mem_cons_self)
    rw [applyAll_cons, ih, hlen]
    intro q hq
    rw [hlen]
    exact h q (List.mem_cons_of_mem p hq)

theorem applyAll_getElem?_of_not_covers {j : ℕ} (h : ∀ p ∈ ps, p.Fits xs.length)
    (hj : ∀ p ∈ ps, ¬ p.Covers j) : (applyAll ps xs)[j]? = xs[j]? := by
  induction ps generalizing xs with
  | nil => rfl
  | cons p ps ih =>
    have hp := h p List.mem_cons_self
    rw [applyAll_cons, ih, Patch.apply_getElem?_of_not_covers hp (hj p List.mem_cons_self)]
    · intro q hq
      rw [Patch.apply_length hp]
      exact h q (List.mem_cons_of_mem p hq)
    · exact fun q hq => hj q (List.mem_cons_of_mem p hq)

/-- Two lists that differ only where some patch covers them end the same. -/
theorem applyAll_congr (hlen : xs.length = ys.length) (h : ∀ p ∈ ps, p.Fits xs.length)
    (hsame : ∀ j, (∀ p ∈ ps, ¬ p.Covers j) → xs[j]? = ys[j]?) :
    applyAll ps xs = applyAll ps ys := by
  induction ps generalizing xs ys with
  | nil =>
    apply List.ext_getElem?
    intro j
    exact hsame j (fun p hp => by cases hp)
  | cons p ps ih =>
    have hp := h p List.mem_cons_self
    have hp' : p.Fits ys.length := hlen ▸ hp
    rw [applyAll_cons, applyAll_cons]
    apply ih
    · rw [Patch.apply_length hp, Patch.apply_length hp', hlen]
    · intro q hq
      rw [Patch.apply_length hp]
      exact h q (List.mem_cons_of_mem p hq)
    · intro j hj
      by_cases hcov : p.Covers j
      · rw [Patch.apply_getElem?_of_covers hp hcov, Patch.apply_getElem?_of_covers hp' hcov]
      · rw [Patch.apply_getElem?_of_not_covers hp hcov,
          Patch.apply_getElem?_of_not_covers hp' hcov]
        apply hsame
        intro q hq
        rcases List.mem_cons.mp hq with rfl | hq
        · exact hcov
        · exact hj q hq

/-- A patch keeps its window when no later one covers a position of it. -/
theorem slice_applyAll (p : Patch α) (h : ∀ q ∈ p :: ps, q.Fits xs.length)
    (hlater : ∀ q ∈ ps, ∀ j, p.Covers j → ¬ q.Covers j) :
    slice (applyAll (p :: ps) xs) p.pos p.vals.length = p.vals := by
  have hp := h p List.mem_cons_self
  rw [applyAll_cons]
  apply List.ext_getElem?
  intro j
  rw [slice_getElem?]
  split
  · rename_i hj
    have hcov : p.Covers (p.pos + j) := ⟨by omega, by omega⟩
    rw [applyAll_getElem?_of_not_covers, Patch.apply_getElem?_of_covers hp hcov]
    · congr 1
      omega
    · intro q hq
      rw [Patch.apply_length hp]
      exact h q (List.mem_cons_of_mem p hq)
    · exact fun q hq => hlater q hq _ hcov
  · rename_i hj
    exact (List.getElem?_eq_none (by omega)).symm

end SampleDB.Patches
