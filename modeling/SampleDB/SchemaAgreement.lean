import SampleDB.PlanSchemas

/-!
When a plan declares what its scan gives. Between the plan and the copied tables below it a field
can change its declared kind in two places: a product whose two sides have the field, and a
grouping whose aggregates it is one of.
-/
namespace SampleDB.SchemaAgreement

open Lexer Schemas Statements SqlParser Pages Blocks TableScans UpdatePlanner Scans Plans
open TypedTables PlanSchemas Runs

section Condition

/-- The declared kind of a field is the one of the column that the scan reads it from. Two
differences on the way cancel out, since there are two kinds. -/
def Agrees : Plan → Name → Prop
  | .table _ _, _ => True
  | .select p _, F => Agrees p F
  | .project p _, F => Agrees p F
  | .product p₁ p₂, F =>
      if p₁.schema.hasField F then
        if p₂.schema.hasField F then
          (Agrees p₁ F ↔ declaredKind p₁.schema F = declaredKind p₂.schema F)
        else Agrees p₁ F
      else Agrees p₂ F
  | .materialize _, _ => True
  | .sort _ _, _ => True
  | .groupBy p groupFields aggFns, F =>
      match fnNamed aggFns F with
      | none => True
      | some fn =>
          if groupFields.contains F then declaredKind p.schema F = some .integer
          else ∀ f, fn.source = some f → declaredKind p.schema f = some .integer

/-- The open table that the scan reads a field from stands on a record; for an aggregate, a
record has been taken in. -/
def OnRecord : Scan → Name → Prop
  | .table t, _ => ∃ i slot, t.ts.current t.form = some i ∧ t.ts.slots[i]? = some slot
  | .select s _, F => OnRecord s F
  | .project s _, F => OnRecord s F
  | .product s₁ s₂, F =>
      match s₁.hasField F with
      | .ok true => OnRecord s₁ F
      | .ok false => OnRecord s₂ F
      | .error _ => False
  | .sort s, _ =>
      match s.currentScan with
      | some t => ∃ i slot, t.ts.current t.form = some i ∧ t.ts.slots[i]? = some slot
      | none => False
  | .groupBy _ groupFields aggFns currentGroup _, F =>
      if groupFields.contains F then currentGroup.isSome = true
      else ∀ a, aggFns.find? (fun a => a.1.fieldName = F) = some a → a.2.isNull = false

end Condition

section Schemas

end Schemas

section Plans

variable {db : Db} {p : Plan} {F : Name}

end Plans

section Values

variable {db : Db} {p : Plan} {s : Scan} {F : Name} {c : Constant}

end Values

end SampleDB.SchemaAgreement
