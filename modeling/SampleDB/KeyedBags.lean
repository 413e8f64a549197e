import Mathlib.Data.Multiset.Filter
import Mathlib.Order.WithBot

/-!
Bags of keys with values, and their parts in ranges of keys. A range has a first key and ends in
front of another key, or never.
-/
namespace SampleDB.KeyedBags

variable {κ δ : Type*} [LinearOrder κ]

def InRange (lo : κ) (hi : WithTop κ) (k : κ) : Prop := lo ≤ k ∧ (k : WithTop κ) < hi

instance (lo : κ) (hi : WithTop κ) (k : κ) : Decidable (InRange lo hi k) := by
  unfold InRange
  exact inferInstance

/-- The part of a bag with keys in the range. -/
def within (bag : Multiset (κ × δ)) (lo : κ) (hi : WithTop κ) : Multiset (κ × δ) :=
  bag.filter (fun e => InRange lo hi e.1)

variable {bag part part' : Multiset (κ × δ)} {lo s k : κ} {hi : WithTop κ} {e : κ × δ}

theorem within_cons (h : InRange lo hi e.1) : within (e ::ₘ bag) lo hi = e ::ₘ within bag lo hi :=
  Multiset.filter_cons_of_pos _ h

theorem within_cons_other (h : ¬ InRange lo hi e.1) :
    within (e ::ₘ bag) lo hi = within bag lo hi :=
  Multiset.filter_cons_of_neg _ h

/-- A range that is divided at a key divides its part of the bag. -/
theorem within_divide (h : part + part' = within bag lo hi) (hs : (s : WithTop κ) ≤ hi)
    (hlo : lo ≤ s) (hpart : ∀ e ∈ part, e.1 < s) (hpart' : ∀ e ∈ part', s ≤ e.1) :
    part = within bag lo s ∧ part' = within bag s hi := by
  have hbelow : within bag lo s = (within bag lo hi).filter (fun e => e.1 < s) := by
    unfold within
    rw [Multiset.filter_filter]
    apply Multiset.filter_congr
    intro e _
    constructor
    · rintro ⟨hle, hlt⟩
      exact ⟨WithTop.coe_lt_coe.mp hlt, hle, hlt.trans_le hs⟩
    · rintro ⟨hlt, hle, -⟩
      exact ⟨hle, WithTop.coe_lt_coe.mpr hlt⟩
  have habove : within bag s hi = (within bag lo hi).filter (fun e => s ≤ e.1) := by
    unfold within
    rw [Multiset.filter_filter]
    apply Multiset.filter_congr
    intro e _
    constructor
    · rintro ⟨hle, hlt⟩
      exact ⟨hle, hlo.trans hle, hlt⟩
    · rintro ⟨hle, -, hlt⟩
      exact ⟨hle, hlt⟩
  rw [hbelow, habove, ← h, Multiset.filter_add, Multiset.filter_add]
  rw [Multiset.filter_eq_self.mpr hpart, Multiset.filter_eq_self.mpr hpart',
    Multiset.filter_eq_nil.mpr fun e he => not_lt.mpr (hpart' e he),
    Multiset.filter_eq_nil.mpr fun e he => not_le.mpr (hpart e he), Multiset.add_zero,
    Multiset.zero_add]
  exact ⟨rfl, rfl⟩

section Erase

variable [DecidableEq (κ × δ)]

end Erase

end SampleDB.KeyedBags
