import SampleDB.Scans
import SampleDB.TypedTables

/-!
The parts of a predicate over two schemas, and the constants and fields that it equates a
field with. A term belongs to a schema that has all of its fields; a term of constants
belongs to every schema.
-/
namespace SampleDB.Statements

open Lexer Schemas

namespace Expression

def isFieldName (e : Expression) : Bool := e.fieldName ≠ []

def appliesTo (e : Expression) (schema : Schema) : Bool :=
  if e.value.isNull then schema.hasField e.fieldName else true

end Expression

namespace Term

def appliesTo (t : Term) (schema : Schema) : Bool :=
  t.lhs.appliesTo schema && t.rhs.appliesTo schema

/-- The null constant where the term says nothing about the field. -/
def equatesWithConstant (t : Term) (fieldName : Name) : Constant :=
  if t.lhs.isFieldName && t.lhs.fieldName = fieldName && !t.rhs.isFieldName then t.rhs.value
  else if t.rhs.isFieldName && t.rhs.fieldName = fieldName && !t.lhs.isFieldName then t.lhs.value
  else .null

/-- The empty name where the term says nothing about the field. -/
def equatesWithField (t : Term) (fieldName : Name) : Name :=
  if t.lhs.isFieldName && t.lhs.fieldName = fieldName && t.rhs.isFieldName then t.rhs.fieldName
  else if t.rhs.isFieldName && t.rhs.fieldName = fieldName && t.lhs.isFieldName then
    t.lhs.fieldName
  else []

end Term

namespace Predicate

def selectSubPredicate (pred : Predicate) (schema : Schema) : Predicate :=
  pred.filter (fun t => t.appliesTo schema)

def joinSubPredicate (pred : Predicate) (schema₁ schema₂ : Schema) : Predicate :=
  let newSchema := (Schema.empty.addAll schema₁).addAll schema₂
  pred.filter (fun t => !t.appliesTo schema₁ && !t.appliesTo schema₂ && t.appliesTo newSchema)

def equatesWithConstant (fieldName : Name) : Predicate → Constant
  | [] => .null
  | t :: terms =>
      let constant := t.equatesWithConstant fieldName
      if !constant.isNull then constant else equatesWithConstant fieldName terms

def equatesWithField (fieldName : Name) : Predicate → Name
  | [] => []
  | t :: terms =>
      let field := t.equatesWithField fieldName
      if field ≠ [] then field else equatesWithField fieldName terms

end Predicate

end SampleDB.Statements

namespace SampleDB.SubPredicates

open Lexer Schemas Statements Pages UpdatePlanner Scans TypedTables

section Schemas

variable {schema schema₁ schema₂ : Schema} {t : Term} {pred : Predicate}

theorem hasField_addAll (s : Schema) (h : Listed schema) (fieldName : Name) :
    (s.addAll schema).hasField fieldName = (s.hasField fieldName || schema.hasField fieldName) := by
  have hloop : ∀ (names : List Name) (s : Schema), (∀ n ∈ names, schema.hasField n = true) →
      (s.addAll ⟨names, schema.fieldInfo⟩).hasField fieldName =
        (s.hasField fieldName || decide (fieldName ∈ names)) := by
    intro names
    induction names with
    | nil =>
      intro s _
      show s.hasField fieldName = _
      simp
    | cons n names ih =>
      intro s hnames
      obtain ⟨info, hinfo⟩ := Option.isSome_iff_exists.mp (hnames n List.mem_cons_self)
      have hrest := ih (s.addField n info) (fun m hm => hnames m (List.mem_cons_of_mem n hm))
      have hstep : s.addAll ⟨n :: names, schema.fieldInfo⟩ =
          (s.addField n info).addAll ⟨names, schema.fieldInfo⟩ := by
        unfold Schema.addAll
        rw [List.foldl_cons, hinfo]
      rw [hstep, hrest, hasField_addField]
      simp only [List.mem_cons, Bool.decide_or]
      rw [Bool.or_comm (decide (fieldName = n)), Bool.or_assoc]
  have hmem : decide (fieldName ∈ schema.fields) = schema.hasField fieldName :=
    Bool.eq_iff_iff.mpr (decide_eq_true_iff.trans (h fieldName))
  rw [← hmem]
  exact hloop schema.fields s (fun n hn => (h n).mp hn)

/-- The names that a term takes from the record are fields of one of the schemas. -/
def Over (schema₁ schema₂ : Schema) (t : Term) : Prop :=
  ∀ e, e = t.lhs ∨ e = t.rhs → e.value.isNull = true →
    schema₁.hasField e.fieldName = true ∨ schema₂.hasField e.fieldName = true

theorem appliesTo_union (h₁ : Listed schema₁) (h₂ : Listed schema₂)
    (h : Over schema₁ schema₂ t) :
    t.appliesTo ((Schema.empty.addAll schema₁).addAll schema₂) = true := by
  have hside : ∀ e, e = t.lhs ∨ e = t.rhs →
      e.appliesTo ((Schema.empty.addAll schema₁).addAll schema₂) = true := by
    intro e he
    unfold Expression.appliesTo
    by_cases hnull : e.value.isNull = true
    · rw [if_pos hnull, hasField_addAll _ h₂, hasField_addAll _ h₁, Bool.or_eq_true,
        Bool.or_eq_true]
      exact (h e he hnull).imp_left Or.inr
    · rw [if_neg hnull]
  unfold Term.appliesTo
  rw [hside t.lhs (Or.inl rfl), hside t.rhs (Or.inr rfl)]
  rfl

/-- No term falls through all three filters. -/
theorem mem_parts (h₁ : Listed schema₁) (h₂ : Listed schema₂)
    (h : ∀ t ∈ pred, Over schema₁ schema₂ t) :
    t ∈ pred ↔ t ∈ pred.selectSubPredicate schema₁ ∨ t ∈ pred.selectSubPredicate schema₂ ∨
      t ∈ pred.joinSubPredicate schema₁ schema₂ := by
  unfold Predicate.selectSubPredicate Predicate.joinSubPredicate
  simp only [List.mem_filter, Bool.and_eq_true, Bool.not_eq_true']
  constructor
  · intro ht
    by_cases hfirst : t.appliesTo schema₁ = true
    · exact Or.inl ⟨ht, hfirst⟩
    · by_cases hsecond : t.appliesTo schema₂ = true
      · exact Or.inr (Or.inl ⟨ht, hsecond⟩)
      · refine Or.inr (Or.inr ⟨ht, ⟨?_, ?_⟩, appliesTo_union h₁ h₂ (h t ht)⟩)
        · exact Bool.eq_false_iff.mpr hfirst
        · exact Bool.eq_false_iff.mpr hsecond
  · rintro (⟨ht, -⟩ | ⟨ht, -⟩ | ⟨ht, -⟩)
    · exact ht
    · exact ht
    · exact ht

end Schemas

section Satisfaction

variable {read : Name → Result Constant} {pred : Predicate} {t : Term}

theorem satisfies_iff : satisfies read pred = .ok true ↔
    ∀ t ∈ pred, satisfiesTerm read t = .ok true := by
  induction pred with
  | nil => simp [satisfies]
  | cons t terms ih =>
    rw [satisfies, List.forall_mem_cons, ← ih]
    constructor
    · intro h
      obtain ⟨b, hterm, hrest⟩ := bind_eq_ok.mp h
      cases b with
      | false => cases hrest
      | true => exact ⟨hterm, hrest⟩
    · rintro ⟨hterm, hrest⟩
      rw [hterm]
      exact hrest

theorem satisfiesTerm_iff : satisfiesTerm read t = .ok true ↔
    ∃ v w, evaluateBy read t.lhs = .ok v ∧ evaluateBy read t.rhs = .ok w ∧
      constantEq v w = .ok true := by
  unfold satisfiesTerm
  constructor
  · intro h
    obtain ⟨v, hv, h⟩ := bind_eq_ok.mp h
    obtain ⟨w, hw, h⟩ := bind_eq_ok.mp h
    exact ⟨v, w, hv, hw, h⟩
  · rintro ⟨v, w, hv, hw, h⟩
    rw [hv, hw]
    exact h

/-- The values of a record are integers and strings. -/
def Plain (read : Name → Result Constant) : Prop :=
  ∀ fieldName v, read fieldName = .ok v → ∃ k, OfKind k v

/-- An expression that one of its constructors has made, from a constant or from a name. -/
def Single (e : Expression) : Prop := e.value.isNull = true ∨ e.fieldName = []

theorem constantEq_symm {k : Kind} {c v : Constant} (hv : OfKind k v)
    (h : constantEq c v = .ok true) : constantEq v c = .ok true := by
  obtain ⟨ival, sval⟩ := c
  cases k with
  | integer =>
    obtain ⟨n, rfl⟩ := hv
    cases ival with
    | none => cases sval <;> cases h
    | some m =>
      have hm : decide (m = n) = true := Except.ok.inj h
      exact congrArg Except.ok (decide_eq_true (of_decide_eq_true hm).symm)
  | string =>
    obtain ⟨s, rfl⟩ := hv
    cases ival with
    | some m => cases h
    | none =>
      cases sval with
      | none => cases h
      | some s' =>
        have hs : decide (s' = s) = true := Except.ok.inj h
        exact congrArg Except.ok (decide_eq_true (of_decide_eq_true hs).symm)

theorem eq_of_constantEq {k k' : Kind} {v w : Constant} (hv : OfKind k v) (hw : OfKind k' w)
    (h : constantEq v w = .ok true) : v = w := by
  cases k with
  | integer =>
    obtain ⟨n, rfl⟩ := hv
    cases k' with
    | integer =>
      obtain ⟨m, rfl⟩ := hw
      exact congrArg Constant.ofInt (of_decide_eq_true (Except.ok.inj h))
    | string =>
      obtain ⟨s, rfl⟩ := hw
      cases h
  | string =>
    obtain ⟨s, rfl⟩ := hv
    cases k' with
    | integer =>
      obtain ⟨m, rfl⟩ := hw
      cases h
    | string =>
      obtain ⟨s', rfl⟩ := hw
      exact congrArg Constant.ofString (of_decide_eq_true (Except.ok.inj h))

theorem evaluateBy_field {e : Expression} (h : Single e) (hfield : e.isFieldName = true) :
    evaluateBy read e = read e.fieldName := by
  have hne : e.fieldName ≠ [] := of_decide_eq_true hfield
  exact if_pos (h.resolve_right hne)

theorem evaluateBy_constant {e : Expression} (h : e.value.isNull = false) :
    evaluateBy read e = .ok e.value :=
  if_neg (by rw [h]; decide)

/-- What a satisfied term equates a field with is the value of the field. -/
theorem term_constant (hread : Plain read) (hlhs : Single t.lhs) (hrhs : Single t.rhs)
    (hsat : satisfiesTerm read t = .ok true) {F : Name}
    (hc : (t.equatesWithConstant F).isNull = false) :
    ∃ v, read F = .ok v ∧ constantEq v (t.equatesWithConstant F) = .ok true := by
  obtain ⟨v, w, hv, hw, heq⟩ := satisfiesTerm_iff.mp hsat
  unfold Term.equatesWithConstant at hc ⊢
  by_cases hleft : (t.lhs.isFieldName && t.lhs.fieldName = F && !t.rhs.isFieldName) = true
  · rw [if_pos hleft] at hc ⊢
    simp only [Bool.and_eq_true, decide_eq_true_eq] at hleft
    obtain ⟨⟨hfield, hname⟩, -⟩ := hleft
    rw [evaluateBy_field hlhs hfield, hname] at hv
    rw [evaluateBy_constant hc] at hw
    cases hw
    exact ⟨v, hv, heq⟩
  · rw [if_neg hleft] at hc ⊢
    by_cases hright : (t.rhs.isFieldName && t.rhs.fieldName = F && !t.lhs.isFieldName) = true
    · rw [if_pos hright] at hc ⊢
      simp only [Bool.and_eq_true, decide_eq_true_eq] at hright
      obtain ⟨⟨hfield, hname⟩, -⟩ := hright
      rw [evaluateBy_field hrhs hfield, hname] at hw
      rw [evaluateBy_constant hc] at hv
      cases hv
      obtain ⟨k, hkind⟩ := hread F w hw
      exact ⟨w, hw, constantEq_symm hkind heq⟩
    · rw [if_neg hright] at hc
      cases hc

theorem term_field (hread : Plain read) (hlhs : Single t.lhs) (hrhs : Single t.rhs)
    (hsat : satisfiesTerm read t = .ok true) {F : Name} (hF : t.equatesWithField F ≠ []) :
    ∃ v, read F = .ok v ∧ read (t.equatesWithField F) = .ok v := by
  obtain ⟨v, w, hv, hw, heq⟩ := satisfiesTerm_iff.mp hsat
  have hsides : t.lhs.isFieldName = true → t.rhs.isFieldName = true →
      read t.lhs.fieldName = .ok v ∧ read t.rhs.fieldName = .ok v := by
    intro hl hr
    rw [evaluateBy_field hlhs hl] at hv
    rw [evaluateBy_field hrhs hr] at hw
    obtain ⟨k, hkind⟩ := hread _ v hv
    obtain ⟨k', hkind'⟩ := hread _ w hw
    rw [eq_of_constantEq hkind hkind' heq] at hv ⊢
    exact ⟨hv, hw⟩
  unfold Term.equatesWithField at hF ⊢
  by_cases hleft : (t.lhs.isFieldName && t.lhs.fieldName = F && t.rhs.isFieldName) = true
  · rw [if_pos hleft]
    simp only [Bool.and_eq_true, decide_eq_true_eq] at hleft
    obtain ⟨⟨hl, rfl⟩, hr⟩ := hleft
    exact ⟨v, hsides hl hr⟩
  · rw [if_neg hleft] at hF ⊢
    by_cases hright : (t.rhs.isFieldName && t.rhs.fieldName = F && t.lhs.isFieldName) = true
    · rw [if_pos hright]
      simp only [Bool.and_eq_true, decide_eq_true_eq] at hright
      obtain ⟨⟨hr, rfl⟩, hl⟩ := hright
      exact ⟨v, (hsides hl hr).symm⟩
    · rw [if_neg hright] at hF
      exact absurd rfl hF

end Satisfaction

section Predicates

variable {read : Name → Result Constant} {schema₁ schema₂ : Schema} {pred : Predicate} {F : Name}

theorem mem_equatesWithConstant (h : (pred.equatesWithConstant F).isNull = false) :
    ∃ t ∈ pred, pred.equatesWithConstant F = t.equatesWithConstant F := by
  induction pred with
  | nil => cases h
  | cons t terms ih =>
    rw [Predicate.equatesWithConstant] at h ⊢
    cases hnull : (t.equatesWithConstant F).isNull with
    | false => exact ⟨t, List.mem_cons_self, rfl⟩
    | true =>
      rw [hnull] at h
      obtain ⟨t', ht', heq⟩ := ih h
      exact ⟨t', List.mem_cons_of_mem t ht', heq⟩

theorem mem_equatesWithField (h : pred.equatesWithField F ≠ []) :
    ∃ t ∈ pred, pred.equatesWithField F = t.equatesWithField F := by
  induction pred with
  | nil => exact absurd rfl h
  | cons t terms ih =>
    rw [Predicate.equatesWithField] at h ⊢
    by_cases hempty : t.equatesWithField F ≠ []
    · rw [if_pos hempty]
      exact ⟨t, List.mem_cons_self, rfl⟩
    · rw [if_neg hempty] at h ⊢
      obtain ⟨t', ht', heq⟩ := ih h
      exact ⟨t', List.mem_cons_of_mem t ht', heq⟩

/-- The parts mean what the predicate means, and what it equates a field with is what the
field has in every record that satisfies it. -/
structure KeepsMeaning (read : Name → Result Constant) (schema₁ schema₂ : Schema)
    (pred : Predicate) : Prop where
  split : satisfies read pred = .ok true ↔
    satisfies read (pred.selectSubPredicate schema₁) = .ok true ∧
      satisfies read (pred.selectSubPredicate schema₂) = .ok true ∧
        satisfies read (pred.joinSubPredicate schema₁ schema₂) = .ok true
  constant : satisfies read pred = .ok true → ∀ F, (pred.equatesWithConstant F).isNull = false →
    ∃ v, read F = .ok v ∧ constantEq v (pred.equatesWithConstant F) = .ok true
  field : satisfies read pred = .ok true → ∀ F, pred.equatesWithField F ≠ [] →
    ∃ v, read F = .ok v ∧ read (pred.equatesWithField F) = .ok v

theorem split_predicate (h₁ : Listed schema₁) (h₂ : Listed schema₂) (hread : Plain read)
    (hover : ∀ t ∈ pred, Over schema₁ schema₂ t)
    (hsingle : ∀ t ∈ pred, Single t.lhs ∧ Single t.rhs) :
    KeepsMeaning read schema₁ schema₂ pred where
  split := by
    simp only [satisfies_iff]
    constructor
    · intro h
      have hpart : ∀ part : Predicate, (∀ t ∈ part, t ∈ pred) →
          ∀ t ∈ part, satisfiesTerm read t = .ok true := fun part hsub t ht => h t (hsub t ht)
      exact ⟨hpart _ (fun t ht => List.mem_of_mem_filter ht),
        hpart _ (fun t ht => List.mem_of_mem_filter ht),
        hpart _ (fun t ht => List.mem_of_mem_filter ht)⟩
    · rintro ⟨hfirst, hsecond, hjoin⟩ t ht
      rcases (mem_parts h₁ h₂ hover).mp ht with ht | ht | ht
      · exact hfirst t ht
      · exact hsecond t ht
      · exact hjoin t ht
  constant := by
    intro hsat F hc
    obtain ⟨t, ht, heq⟩ := mem_equatesWithConstant hc
    rw [heq] at hc ⊢
    exact term_constant hread (hsingle t ht).1 (hsingle t ht).2 (satisfies_iff.mp hsat t ht) hc
  field := by
    intro hsat F hF
    obtain ⟨t, ht, heq⟩ := mem_equatesWithField hF
    rw [heq] at hF ⊢
    exact term_field hread (hsingle t ht).1 (hsingle t ht).2 (satisfies_iff.mp hsat t ht) hF

/-- A constant, a join over a shared field, and a term with the sides the other way. -/
theorem split_shared :
    KeepsMeaning (fun f => if f = ['a'] then .ok (.ofInt 3) else .ok (.ofInt 5))
      (.ofFields [(['a'], ⟨.integer, 0⟩), (['b'], ⟨.integer, 0⟩)])
      (.ofFields [(['b'], ⟨.integer, 0⟩), (['c'], ⟨.integer, 0⟩)])
      [⟨.ofField ['a'], .ofConstant (.ofInt 3)⟩, ⟨.ofField ['b'], .ofField ['c']⟩,
        ⟨.ofConstant (.ofInt 5), .ofField ['c']⟩] := by
  refine split_predicate (listed_ofFields _) (listed_ofFields _) ?_ ?_ ?_
  · intro fieldName v hv
    dsimp only at hv
    by_cases hname : fieldName = ['a']
    · rw [if_pos hname] at hv
      exact ⟨.integer, 3, (Except.ok.inj hv).symm⟩
    · rw [if_neg hname] at hv
      exact ⟨.integer, 5, (Except.ok.inj hv).symm⟩
  · intro t ht e he hnull
    simp only [List.mem_cons, List.not_mem_nil, or_false] at ht
    rcases ht with rfl | rfl | rfl <;> rcases he with rfl | rfl <;>
      first
        | exact Or.inl (by decide)
        | exact Or.inr (by decide)
        | exact absurd hnull (by decide)
  · intro t ht
    simp only [List.mem_cons, List.not_mem_nil, or_false] at ht
    rcases ht with rfl | rfl | rfl
    · exact ⟨Or.inl rfl, Or.inr rfl⟩
    · exact ⟨Or.inl rfl, Or.inl rfl⟩
    · exact ⟨Or.inr rfl, Or.inl rfl⟩

end Predicates

end SampleDB.SubPredicates
