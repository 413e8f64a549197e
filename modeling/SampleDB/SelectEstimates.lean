import SampleDB.Estimates

/-!
How many values a field has after a selection. The source takes the minimum of one estimate
with itself: of the field that the predicate equates this one with. So the estimate is the one
of the other field, which is larger where its table has more records.
-/
namespace SampleDB.SelectEstimates

open Lexer Schemas Statements Pages Estimates CheckedInts

/-- The plans of tables, products, selections and projections. -/
def Basic : Plan → Prop
  | .table _ _ => True
  | .select p _ => Basic p
  | .project p _ => Basic p
  | .product p₁ p₂ => Basic p₁ ∧ Basic p₂
  | _ => False

/-- The predicate equates the field with a constant. -/
def Pinned (pred : Predicate) (F : Name) : Prop := (pred.equatesWithConstant F).isNull = false

instance (pred : Predicate) (F : Name) : Decidable (Pinned pred F) :=
  inferInstanceAs (Decidable (_ = false))

/-- A term of the predicate equates the field with the field `G`. -/
def Equates (pred : Predicate) (F G : Name) : Prop :=
  G ≠ [] ∧ ∃ t ∈ pred, t.equatesWithField F = G

/-- The first term that equates the field with any field equates it with `G`. -/
def FirstEquates (pred : Predicate) (F G : Name) : Prop :=
  G ≠ [] ∧ pred.equatesWithField F = G

/-- The statistics that the estimate for a field goes back to. There are none where a selection
equates the field with a constant. -/
def origin : Plan → Name → Option StatInfo
  | .table _ statInfo, _ => some statInfo
  | .select p pred, F =>
      if Pinned pred F then none
      else if pred.equatesWithField F ≠ [] then origin p (pred.equatesWithField F)
      else origin p F
  | .project p _, F => origin p F
  | .product p₁ p₂, F => if p₁.schema.hasField F then origin p₁ F else origin p₂ F
  | _, _ => none

/-- A third of the records, as the source counts the values of a field. -/
def thirds : Option StatInfo → ℕ
  | none => 0
  | some statInfo => statInfo.records / 3

/-- The estimate for the field is at least one, and at most what it is without the selection,
for the field and for the fields that it is equated with. -/
def Bounded (p : Plan) (pred : Predicate) (F : Name) (equated : Name → Prop) : Prop :=
  ∃ n, (Plan.select p pred).distinctValues F = .ok n ∧ 1 ≤ n.toInt ∧
    ∀ G, G = F ∨ equated G → ∃ m, p.distinctValues G = .ok m ∧ n.toInt ≤ m.toInt

section Values

variable {p : Plan} {pred : Predicate} {F G : Name}

/-- The field that is answered is one that a term equates `F` with. -/
theorem firstEquates (h : pred.equatesWithField F ≠ []) :
    Equates pred F (pred.equatesWithField F) := by
  obtain ⟨t, ht, heq⟩ := SubPredicates.mem_equatesWithField h
  exact ⟨h, t, ht, heq.symm⟩

theorem Equates.ne_nil (h : Equates pred F G) : pred.equatesWithField F ≠ [] := by
  obtain ⟨hne, t, ht, rfl⟩ := h
  induction pred with
  | nil => cases ht
  | cons t' terms ih =>
    rw [Predicate.equatesWithField]
    by_cases hfirst : t'.equatesWithField F ≠ []
    · rw [if_pos hfirst]
      exact hfirst
    · rw [if_neg hfirst]
      cases ht with
      | head => exact absurd hne hfirst
      | tail _ ht => exact ih ht

/-- The numbers of values in these plans always fit in 32 bits. -/
theorem valuesFit_of_basic (h : Basic p) (F : Name) : p.ValuesFit F := by
  induction p generalizing F with
  | table schema statInfo => trivial
  | select p pred ih =>
    rw [Plan.ValuesFit]
    split
    · trivial
    · split
      · exact ih h _
      · exact ih h F
  | project p fields ih => exact ih h F
  | product p₁ p₂ ih₁ ih₂ =>
    rw [Plan.ValuesFit]
    split
    · exact ih₁ h.1 F
    · exact ih₂ h.2 F
  | materialize p ih => exact h.elim
  | sort p sortFields ih => exact h.elim
  | groupBy p groupFields aggFns ih => exact h.elim
  | mergeJoin p₁ p₂ fld₁ fld₂ ih₁ ih₂ => exact h.elim

theorem values_eq_thirds (h : Basic p) (F : Name) : p.values F = 1 + thirds (origin p F) := by
  induction p generalizing F with
  | table schema statInfo => rfl
  | select p pred ih =>
    rw [Plan.values, origin]
    by_cases hpinned : Pinned pred F
    · rw [if_pos hpinned, if_pos (by rw [hpinned]; rfl)]
      rfl
    · rw [if_neg hpinned, if_neg (by simpa [Pinned] using hpinned)]
      split
      · exact ih h _
      · exact ih h F
  | project p fields ih => exact ih h F
  | product p₁ p₂ ih₁ ih₂ =>
    rw [Plan.values, origin]
    split
    · exact ih₁ h.1 F
    · exact ih₂ h.2 F
  | materialize p ih => exact h.elim
  | sort p sortFields ih => exact h.elim
  | groupBy p groupFields aggFns ih => exact h.elim
  | mergeJoin p₁ p₂ fld₁ fld₂ ih₁ ih₂ => exact h.elim

/-- The estimate for a field, exactly. -/
theorem distinctValues_eq (hb : Basic p) (hp : p.Nonneg) (F : Name) :
    ∃ n, p.distinctValues F = .ok n ∧ n.toInt = 1 + thirds (origin p F) := by
  have hvalues := computes_values hp F
  have hfit := valuesFit_of_basic hb F
  refine ⟨_, hvalues.returns hfit, ?_⟩
  rw [toInt_ofNat (hvalues.fits hfit), values_eq_thirds hb]
  omega

end Values

section Results

variable {p : Plan}

/-- The bounds, in thirds of the tables' records. -/
theorem bounded_iff (hb : Basic p) (hp : p.Nonneg) (pred : Predicate) (F : Name)
    (equated : Name → Prop) :
    Bounded p pred F equated ↔
      ∀ G, G = F ∨ equated G → thirds (origin (.select p pred) F) ≤ thirds (origin p G) := by
  obtain ⟨n, hn, hvalue⟩ := distinctValues_eq (show Basic (.select p pred) from hb) hp F
  constructor
  · rintro ⟨n', hn', -, hle⟩ G hG
    obtain ⟨m, hm, hnm⟩ := hle G hG
    obtain ⟨m', hm', hvalue'⟩ := distinctValues_eq hb hp G
    cases hn.symm.trans hn'
    cases hm.symm.trans hm'
    omega
  · intro h
    refine ⟨n, hn, by omega, fun G hG => ?_⟩
    obtain ⟨m, hm, hvalue'⟩ := distinctValues_eq hb hp G
    have hle := h G hG
    exact ⟨m, hm, by omega⟩

/-- A selection keeps the estimate of every field within those of the plan below it if and only
if it equates the field with a constant, or with no field, or the first field that it is equated
with has no more of the records than the field, and than the others that it is equated with. -/
theorem distinctValues_le_iff (hb : Basic p) (hp : p.Nonneg) (pred : Predicate) (F : Name) :
    (Bounded p pred F (FirstEquates pred F) ↔
      Pinned pred F ∨ pred.equatesWithField F = [] ∨
        thirds (origin p (pred.equatesWithField F)) ≤ thirds (origin p F)) ∧
    (Bounded p pred F (Equates pred F) ↔
      Pinned pred F ∨ pred.equatesWithField F = [] ∨
        ∀ G, G = F ∨ Equates pred F G →
          thirds (origin p (pred.equatesWithField F)) ≤ thirds (origin p G)) := by
  rw [bounded_iff hb hp, bounded_iff hb hp, origin]
  by_cases hpinned : Pinned pred F
  · rw [if_pos hpinned]
    exact ⟨iff_of_true (fun G _ => Nat.zero_le _) (Or.inl hpinned),
      iff_of_true (fun G _ => Nat.zero_le _) (Or.inl hpinned)⟩
  by_cases hnone : pred.equatesWithField F = []
  · rw [if_neg hpinned, if_neg (not_not_intro hnone)]
    refine ⟨iff_of_true ?_ (Or.inr (Or.inl hnone)), iff_of_true ?_ (Or.inr (Or.inl hnone))⟩
    · rintro G (rfl | ⟨hne, hG⟩)
      · exact Nat.le_refl _
      · exact absurd (hG.symm.trans hnone) hne
    · rintro G (rfl | hG)
      · exact Nat.le_refl _
      · exact absurd hnone hG.ne_nil
  rw [if_neg hpinned, if_pos hnone]
  constructor
  · constructor
    · intro h
      exact Or.inr (Or.inr (h F (Or.inl rfl)))
    · rintro (h | h | h)
      · exact absurd h hpinned
      · exact absurd h hnone
      · rintro G (rfl | ⟨-, rfl⟩)
        · exact h
        · exact Nat.le_refl _
  · constructor
    · intro h
      exact Or.inr (Or.inr h)
    · rintro (h | h | h)
      · exact absurd h hpinned
      · exact absurd h hnone
      · exact h

/-- The pairs of the records of two tables, with the field `a` and the field `b`. -/
def joined (numRecords numRecords' : Int32) : Plan :=
  .product (.table (.ofFields [(['a'], ⟨.integer, 0⟩)]) ⟨numRecords⟩)
    (.table (.ofFields [(['b'], ⟨.integer, 0⟩)]) ⟨numRecords'⟩)

theorem joined_nonneg {numRecords numRecords' : Int32} (h : 0 ≤ numRecords.toInt)
    (h' : 0 ≤ numRecords'.toInt) : (joined numRecords numRecords').Nonneg := ⟨h, h'⟩

def aEqualsB : Predicate := [⟨.ofField ['a'], .ofField ['b']⟩]

theorem distinctValues_le_joined :
    Bounded (joined 300 30) aEqualsB ['a'] (Equates aEqualsB ['a']) := by
  have hb : Basic (joined 300 30) := ⟨trivial, trivial⟩
  have hp : (joined 300 30).Nonneg := joined_nonneg (by decide) (by decide)
  refine (distinctValues_le_iff hb hp aEqualsB ['a']).2.mpr (Or.inr (Or.inr ?_))
  rintro G (rfl | ⟨-, t, ht, rfl⟩)
  · decide
  · cases List.mem_singleton.mp ht
    exact Nat.le_refl _

/-- Where the table of `a` is empty, there are as many values of `a` as of `b`. -/
theorem not_distinctValues_le : ¬ ∀ (p : Plan) (pred : Predicate) (F : Name), Basic p → p.Nonneg →
    (∀ t ∈ pred, t.appliesTo p.schema = true) → p.schema.hasField F = true →
      Bounded p pred F (FirstEquates pred F) := by
  intro h
  have hover : ∀ t ∈ aEqualsB, t.appliesTo (joined 0 300).schema = true := by
    intro t ht
    cases List.mem_singleton.mp ht
    rfl
  obtain ⟨n, hn, -, hle⟩ := h (joined 0 300) aEqualsB ['a'] ⟨trivial, trivial⟩
    (joined_nonneg (by decide) (by decide)) hover rfl
  obtain ⟨m, hm, hnm⟩ := hle ['a'] (Or.inl rfl)
  cases hn
  cases hm
  revert hnm
  decide

end Results

end SampleDB.SelectEstimates
