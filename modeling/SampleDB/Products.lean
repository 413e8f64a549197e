import SampleDB.SortScans

/-!
The product scan as the nested loop over its sides. The left side is brought to its first record
before the product is asked for one, and what the left side answers is not looked at.
-/
namespace SampleDB.Products

open Lexer Schemas Statements Pages Blocks TableScans UpdatePlanner Scans Plans TypedTables Iterators Fuel
open TableRows SortScans

variable {schema schema₁ schema₂ : Schema} {I₁ I₂ : Scan → Prop} {s₁ s₂ s₁' s₂' : Scan}
  {rows₁ rows₂ : List Row} {found : Bool}

section Calls

def productScan (s : Scan × Scan) : Scan := .product s.1 s.2

theorem next_eventually (h : (scans schema).next s₁ found s₁') :
    ∃ N, ∀ n, N ≤ n → Scan.next n s₁ = .ok (found, s₁') := h

theorem reset_eventually (h : (scans schema).reset s₁ s₁') :
    ∃ N, ∀ n, N ≤ n → s₁.beforeFirstBy (Scan.next n) = .ok s₁' := h

theorem product_next {p p' : Scan × Scan}
    (h : (Iterator.product (scans schema₁) (scans schema₂)).next p found p') :
    (scans schema₁).next (productScan p) found (productScan p') := by
  refine Returns.of_succ ?_
  cases h with
  | @right s₁ s₂ s₂' h =>
    obtain ⟨N, hN⟩ := next_eventually h
    refine ⟨N, fun n hn => ?_⟩
    show Scan.next (n + 1) (.product s₁ s₂) = _
    rw [Scan.next, hN n hn]
    rfl
  | @left s₁ s₁' s₂ s₂' s₂₀ s₂₁ found h hreset h₁ h₂ =>
    obtain ⟨N, hN⟩ := next_eventually h
    obtain ⟨N₀, hreset⟩ := reset_eventually hreset
    obtain ⟨N₁, h₁⟩ := next_eventually h₁
    obtain ⟨N₂, h₂⟩ := next_eventually h₂
    refine ⟨max (max N N₀) (max N₁ N₂), fun n hn => ?_⟩
    show Scan.next (n + 1) (.product s₁ s₂) = _
    rw [Scan.next, hN n (by omega), ok_bind]
    dsimp only
    rw [if_neg Bool.false_ne_true, hreset n (by omega), ok_bind, h₁ n (by omega), ok_bind]
    dsimp only
    rw [if_pos rfl, h₂ n (by omega)]
    rfl
  | @done s₁ s₁' s₂ s₂' s₂₀ h hreset h₁ =>
    obtain ⟨N, hN⟩ := next_eventually h
    obtain ⟨N₀, hreset⟩ := reset_eventually hreset
    obtain ⟨N₁, h₁⟩ := next_eventually h₁
    refine ⟨max (max N N₀) N₁, fun n hn => ?_⟩
    show Scan.next (n + 1) (.product s₁ s₂) = _
    rw [Scan.next, hN n (by omega), ok_bind]
    dsimp only
    rw [if_neg Bool.false_ne_true, hreset n (by omega), ok_bind, h₁ n (by omega)]
    rfl

theorem product_reset {p p' : Scan × Scan}
    (h : (Iterator.product (scans schema₁) (scans schema₂)).reset p p') :
    (scans schema₁).reset (productScan p) (productScan p') := by
  obtain ⟨s₁, s₂⟩ := p
  obtain ⟨s₁₀, found, hreset₁, hnext, hreset₂⟩ := h
  obtain ⟨N, hN⟩ := reset_eventually hreset₁
  obtain ⟨N₁, h₁⟩ := next_eventually hnext
  obtain ⟨N₂, h₂⟩ := reset_eventually hreset₂
  refine ⟨max N (max N₁ N₂), fun n hn => ?_⟩
  show Scan.beforeFirstBy (Scan.next n) (.product s₁ s₂) = _
  rw [Scan.beforeFirstBy, hN n (by omega), ok_bind, h₁ n (by omega), ok_bind]
  dsimp only
  rw [h₂ n (by omega)]
  rfl

end Calls

section Pairs

end Pairs

section Examples

end Examples

end SampleDB.Products
