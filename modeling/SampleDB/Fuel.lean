import Mathlib.Order.Lattice
import Mathlib.Order.Lattice.Nat
import Mathlib.Order.Nat

/-!
Computations whose loops have a bound on their rounds, or several bounds. Such a computation
returns a result when it gives the result for all bounds that are large enough.
-/
namespace SampleDB.Fuel

variable {ε α β ι : Type} [SemilatticeSup ι] {a a' : α} {b : β}

def Returns (f : ι → Except ε α) (a : α) : Prop := ∃ N, ∀ n, N ≤ n → f n = .ok a

section Results

variable {f f' : ι → Except ε α} {g : ι → α → Except ε β}

theorem returns_of_forall [Nonempty ι] (h : ∀ n, f n = .ok a) : Returns f a := by
  obtain ⟨N⟩ := ‹Nonempty ι›
  exact ⟨N, fun n _ => h n⟩

theorem returns_ok [Nonempty ι] (a : α) : Returns (fun _ : ι => (.ok a : Except ε α)) a :=
  returns_of_forall (fun _ => rfl)

theorem Returns.eventually (h : Returns f a) : ∃ n, f n = .ok a := by
  obtain ⟨N, hN⟩ := h
  exact ⟨N, hN N le_rfl⟩

theorem Returns.unique (h : Returns f a) (h' : Returns f a') : a = a' := by
  obtain ⟨N, hN⟩ := h
  obtain ⟨N', hN'⟩ := h'
  exact Except.ok.inj ((hN _ le_sup_left).symm.trans (hN' (N ⊔ N') le_sup_right))

theorem Returns.congr (h : Returns f a) (heq : ∀ n, f' n = f n) : Returns f' a := by
  obtain ⟨N, hN⟩ := h
  exact ⟨N, fun n hn => (heq n).trans (hN n hn)⟩

/-- One computation after the other. -/
theorem Returns.bind (hf : Returns f a) (hg : Returns (fun n => g n a) b) :
    Returns (fun n => f n >>= g n) b := by
  obtain ⟨N, hN⟩ := hf
  obtain ⟨N', hN'⟩ := hg
  refine ⟨N ⊔ N', fun n hn => ?_⟩
  have hfn := hN n (le_sup_left.trans hn)
  have hgn := hN' n (le_sup_right.trans hn)
  dsimp only
  rw [hfn]
  exact hgn

end Results

section Bounds

/-- A round that is counted. -/
theorem Returns.of_succ {f : ℕ → Except ε α}
    (h : Returns (fun n => f (n + 1)) a) : Returns f a := by
  obtain ⟨N, hN⟩ := h
  refine ⟨N + 1, fun n hn => ?_⟩
  obtain ⟨m, rfl⟩ : ∃ m, n = m + 1 := Nat.exists_eq_succ_of_ne_zero (by omega)
  exact hN m (by omega)

/-- A round of the inner one of two loops. -/
theorem Returns.of_inner {f : ℕ → ℕ → Except ε α}
    (h : Returns (fun n : ℕ × ℕ => f n.1 (n.2 + 1)) a) :
    Returns (fun n : ℕ × ℕ => f n.1 n.2) a := by
  obtain ⟨⟨N, M⟩, hN⟩ := h
  refine ⟨⟨N, M + 1⟩, ?_⟩
  rintro ⟨n, m⟩ hle
  obtain ⟨hn, hm⟩ := Prod.mk_le_mk.mp hle
  obtain ⟨m', rfl⟩ : ∃ m', m = m' + 1 := Nat.exists_eq_succ_of_ne_zero (by omega)
  exact hN (n, m') (Prod.mk_le_mk.mpr ⟨hn, by omega⟩)

/-- A computation without the inner loop. -/
theorem Returns.outer {f : ℕ → Except ε α} (h : Returns f a) :
    Returns (fun n : ℕ × ℕ => f n.1) a := by
  obtain ⟨N, hN⟩ := h
  exact ⟨(N, 0), fun n hn => hN n.1 (Prod.le_def.mp hn).1⟩

/-- Two loops have one bound. -/
theorem Returns.diagonal {f : ℕ → ℕ → Except ε α} (h : Returns (fun n : ℕ × ℕ => f n.1 n.2) a) :
    Returns (fun n => f n n) a := by
  obtain ⟨⟨N, M⟩, hN⟩ := h
  exact ⟨N ⊔ M, fun n hn =>
    hN (n, n) (Prod.mk_le_mk.mpr ⟨le_sup_left.trans hn, le_sup_right.trans hn⟩)⟩

end Bounds

end SampleDB.Fuel
