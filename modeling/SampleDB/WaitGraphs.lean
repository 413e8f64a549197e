import Mathlib.Data.Fintype.Pigeonhole
import Mathlib.Data.Set.Defs
import Mathlib.Logic.Relation

/-!
Who waits for whom. A set whose members all wait for members of it can only be left from
outside; where there are finitely many, it is the same to wait, through others, for one who
waits through others for itself.
-/
namespace SampleDB.WaitGraphs

open Relation

variable {α : Type*} {waits waits' : α → α → Prop} {a : α} {D : Set α}

/-- Every member waits for a member. -/
def Stuck (waits : α → α → Prop) (D : Set α) : Prop := ∀ a ∈ D, ∃ b ∈ D, waits a b

theorem Stuck.mono (h : Stuck waits D) (himp : ∀ a ∈ D, ∀ b ∈ D, waits a b → waits' a b) :
    Stuck waits' D := by
  intro a ha
  obtain ⟨b, hb, hab⟩ := h a ha
  exact ⟨b, hb, himp a ha b hb hab⟩

/-- If nobody that is waited for is free, all of them are stuck. -/
theorem stuck_reachable (h : ∀ b, ReflTransGen waits a b → ∃ c, waits b c) :
    Stuck waits {b | ReflTransGen waits a b} := by
  intro b hb
  obtain ⟨c, hbc⟩ := h b hb
  exact ⟨c, hb.tail hbc, hbc⟩

/-- Whoever is in no stuck set waits, through others, for somebody who waits for nobody. -/
theorem exists_free (h : ∀ D, Stuck waits D → a ∉ D) :
    ∃ b, ReflTransGen waits a b ∧ ∀ c, ¬ waits b c := by
  by_contra hnone
  push Not at hnone
  exact h _ (stuck_reachable hnone) .refl

/-- Those who wait, through others, for somebody on a cycle are stuck. -/
theorem stuck_of_cycle {b : α} (hcycle : TransGen waits b b) :
    Stuck waits {c | ReflTransGen waits c b} := by
  intro c hcb
  obtain ⟨d, hcd, hdb⟩ := TransGen.head'_iff.mp (TransGen.trans_right hcb hcycle)
  exact ⟨d, hdb, hcd⟩

/-- Going on from one member of a stuck set to the next. -/
theorem Stuck.exists_walk (h : Stuck waits D) (ha : a ∈ D) :
    ∃ walk : ℕ → α, walk 0 = a ∧ ∀ n, waits (walk n) (walk (n + 1)) := by
  choose next hmem hnext using h
  let walk : ℕ → D := fun n => (fun b : D => ⟨next b.1 b.2, hmem b.1 b.2⟩)^[n] ⟨a, ha⟩
  refine ⟨fun n => (walk n).1, rfl, fun n => ?_⟩
  have hstep : walk (n + 1) = ⟨next (walk n).1 (walk n).2, hmem (walk n).1 (walk n).2⟩ :=
    Function.iterate_succ_apply' _ n _
  dsimp only
  rw [hstep]
  exact hnext (walk n).1 (walk n).2

theorem walk_transGen {walk : ℕ → α} (h : ∀ n, waits (walk n) (walk (n + 1))) (m n : ℕ) :
    TransGen waits (walk m) (walk (m + n + 1)) := by
  induction n with
  | zero => exact .single (h m)
  | succ n ih => exact ih.tail (h (m + n + 1))

/-- Among finitely many, to be in a stuck set is to wait, through others, for a cycle. -/
theorem mem_stuck_iff [Finite α] : (∃ D, Stuck waits D ∧ a ∈ D) ↔
    ∃ b, ReflTransGen waits a b ∧ TransGen waits b b := by
  constructor
  · rintro ⟨D, hD, ha⟩
    obtain ⟨walk, hzero, hwalk⟩ := hD.exists_walk ha
    obtain ⟨m, n, hne, heq⟩ := Finite.exists_ne_map_eq_of_infinite walk
    wlog hlt : m < n generalizing m n
    · exact this n m (Ne.symm hne) heq.symm (by omega)
    have hcycle := walk_transGen hwalk m (n - m - 1)
    rw [show m + (n - m - 1) + 1 = n by omega, ← heq] at hcycle
    refine ⟨walk m, ?_, hcycle⟩
    rw [← hzero]
    cases m with
    | zero => exact .refl
    | succ m =>
      have hfrom := walk_transGen hwalk 0 m
      rw [Nat.zero_add] at hfrom
      exact hfrom.to_reflTransGen
  · rintro ⟨b, hab, hcycle⟩
    exact ⟨_, stuck_of_cycle hcycle, hab⟩

end SampleDB.WaitGraphs
