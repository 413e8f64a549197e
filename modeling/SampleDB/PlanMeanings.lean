import SampleDB.ExactUpdates
import SampleDB.GroupScans
import SampleDB.RowProperties

/-!
What plans mean, apart from how their scans go through it. A row is a partial map from names to
constants, null where it has no value. The order of a sort among rows with equal keys, and the order
of groups, are left open; all other plans have one meaning over that of their sources. The columns
of a plan say which values its rows have; they differ from what it declares only where the greatest
or the least of strings is declared as an integer.
-/
namespace SampleDB.PlanMeanings

open Lexer Schemas Statements SqlParser Pages Blocks TableScans UpdatePlanner Scans Plans
open TypedTables PlanSchemas SchemaAgreement ExactUpdates SortedLists TableRows SortOrder Grouping
open RowProperties GroupScans

section Meaning

/-- The first row, and the second one where the first has no value. -/
def joined (r₁ r₂ : Row) : Row := fun F => if (r₁ F).isNull then r₂ F else r₁ F

def restrict (fields : List Name) (r : Row) : Row := fun F => if F ∈ fields then r F else .null

/-- A result has nothing else than its group fields and the values of the functions. -/
def OnlyResults (groupFields : List Name) (fns : List AggregationFn) (result : Row) : Prop :=
  ∀ F, F ∉ groupFields → fnNamed fns F = none → result F = .null

inductive Means (db : Db) : Plan → List Row → Prop
  | table {tableName : Name} {layout : Option Layout} {t : Table}
      (ht : db.tables tableName = some t) :
      Means db (.table tableName layout) (t.records.map Prod.snd)
  | select {p : Plan} {pred : Predicate} {rows : List Row} (h : Means db p rows) :
      Means db (.select p pred) (rows.filter (fun r => Satisfies r pred))
  | project {p : Plan} {fields : List Name} {rows : List Row} (h : Means db p rows) :
      Means db (.project p fields) (rows.map (restrict fields))
  | product {p₁ p₂ : Plan} {rows₁ rows₂ : List Row} (h₁ : Means db p₁ rows₁)
      (h₂ : Means db p₂ rows₂) :
      Means db (.product p₁ p₂) ((rows₁ ×ˢ rows₂).map (fun r => joined r.1 r.2))
  | materialize {p : Plan} {rows : List Row} (h : Means db p rows) : Means db (.materialize p) rows
  | sort {p : Plan} {sortFields : List Name} {rows rows' : List Row} (h : Means db p rows)
      (hperm : rows'.Perm rows) (hsorted : Sorted (sortKey sortFields) rows') :
      Means db (.sort p sortFields) rows'
  | groupBy {p : Plan} {groupFields : List Name} {fns : List AggregationFn}
      {rows results : List Row} (h : Means db p rows)
      (hgrouped : Grouped IsAggregate groupFields fns rows results)
      (honly : ∀ result ∈ results, OnlyResults groupFields fns result) :
      Means db (.groupBy p groupFields fns) results

end Meaning

section Columns

/-- The type of the values of a function. -/
def resultInfo (infoOf : Name → Option FieldInfo) : AggregationFn → FieldInfo
  | .max f => (infoOf f).getD ⟨.integer, 0⟩
  | .min f => (infoOf f).getD ⟨.integer, 0⟩
  | .sum _ => ⟨.integer, 0⟩
  | .count => ⟨.integer, 0⟩

/-- The type of what the rows of a plan have in a field. -/
def columnInfo : Plan → Name → Option FieldInfo
  | .table _ layout, F => (layoutSchema layout).fieldInfo F
  | .select p _, F => columnInfo p F
  | .project p fields, F => if F ∈ fields then columnInfo p F else none
  | .product p₁ p₂, F => (columnInfo p₁ F).or (columnInfo p₂ F)
  | .materialize p, F => p.schema.fieldInfo F
  | .sort p _, F => p.schema.fieldInfo F
  | .groupBy p groupFields fns, F =>
      if F ∈ groupFields then columnInfo p F
      else (fnNamed fns F).map (resultInfo (columnInfo p))

def columns (p : Plan) : Schema := ⟨p.schema.fields, columnInfo p⟩

/-- The rows of the plan have what it declares. -/
def Declared (p : Plan) : Prop := ∀ F, columnInfo p F = p.schema.fieldInfo F

variable {db : Db} {p : Plan}

end Columns

section Values

/-- A value that fits in a field of this type; where there is no field, there is no value. -/
def FitsValue : Option FieldInfo → Constant → Prop
  | some info, c => OfKind (kind info.type) c ∧
      ∀ s, c.sval = some s → (s.length : ℤ) ≤ info.length.toInt
  | none, c => c = .null

variable {schema : Schema} {r : Row} {info : Option FieldInfo} {c : Constant}

theorem FitsValue.isNull (h : FitsValue info c) : c.isNull = info.isNone := by
  cases info with
  | none =>
    have hnull : c = .null := h
    rw [hnull]
    rfl
  | some info => exact h.1.not_null

variable {groupFields : List Name} {fns : List AggregationFn} {group : List Row}
  {aggFns : Aggregates}

end Values

section Conditions

/-- A plan whose scan can be asked again at its end. A product then reads its left side, which has
no record, and a grouping is never without one. -/
def Steady : Plan → Prop
  | .table _ _ => True
  | .select p _ => Steady p
  | .project p _ => Steady p
  | .product _ _ => False
  | .materialize _ => True
  | .sort _ _ => True
  | .groupBy _ _ _ => False

/-- What the code relies on and does not check: tables that are there; predicates that compare
values of one kind; products of tables with different fields, with a record on the left side where
there is one on the right; records that are copied as they are declared, into blocks that have room
for them; sorts with a record; results with names of their own. -/
def Sound (B : BlockSize) (db : Db) : Plan → Prop
  | .table tableName _ => ∃ t, db.tables tableName = some t ∧ Sized t.schema
  | .select p pred => Sound B db p ∧ WellTyped (columns p) pred
  | .project p _ => Sound B db p
  | .product p₁ p₂ => Sound B db p₁ ∧ Sound B db p₂ ∧
      (∀ F, p₁.schema.hasField F = true → p₂.schema.hasField F = false) ∧
      ∀ rows₁ rows₂, Means db p₁ rows₁ → Means db p₂ rows₂ →
        rows₁ ≠ [] ∨ rows₂ = [] ∧ Steady p₁
  | .materialize p => Sound B db p ∧ Declared p ∧ ∃ f, form B p.schema = some f
  | .sort p sortFields => Sound B db p ∧ Declared p ∧ (∃ f, form B p.schema = some f) ∧
      (∀ F ∈ sortFields, p.schema.hasField F = true) ∧ ∀ rows, Means db p rows → rows ≠ []
  | .groupBy p groupFields fns => Sound B db p ∧ (∀ fn ∈ fns, Suits p.schema fn) ∧
      Distinct groupFields fns

end Conditions

end SampleDB.PlanMeanings
