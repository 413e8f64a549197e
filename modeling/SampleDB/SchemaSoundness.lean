import Mathlib.Data.List.Induction
import SampleDB.SchemaAgreement

/-!
Every plan that the query planner makes opens a scan of the kinds that the plan fixes. So a
record conforms to the schema just where each of its fields agrees with its column, and the scan
stands on a record for it.
-/
namespace SampleDB.SchemaSoundness

open Lexer Schemas Statements SqlParser Pages Blocks TableScans UpdatePlanner Scans Plans
open TypedTables PlanSchemas SchemaAgreement Runs

section TempTables

structure TypedTemp (schema : Schema) (t : TempTable) : Prop where
  schema_eq : t.schema = schema
  slots : TypedSlots schema t.form t.slots

variable {schema : Schema} {t : TempTable} {B : BlockSize} {rounds : ℕ} {sortFields : List Name}

theorem TypedTemp.open (h : TypedTemp schema t) : TypedOpen schema t.open :=
  ⟨h.schema_eq, h.slots.new⟩

end TempTables

section Open

variable {db : Db} {B : BlockSize} {rounds : ℕ} {p q : Plan} {s s' : Scan}

end Open

section Planner

variable {overflow : ℕ → Option Int32} {db : Db} {viewDef : Name → Text}

end Planner

section Soundness

variable {overflow : ℕ → Option Int32} {B : BlockSize} {D : Database} {q : QueryData}
  {plan p : Plan} {aggFns : List AggregationFn} {s₀ s s' : Scan}

end Soundness

section Examples

def smallBlock : BlockSize := ⟨64, by decide, by decide⟩

def noOverflow : ℕ → Option Int32 := fun _ => none

/-- The database after these commands. -/
def commands : List Text → Database → Result Database
  | [], D => .ok D
  | update :: updates, D => do
      let (_, D) ← D.executeUpdate noOverflow smallBlock update
      commands updates D

end Examples

end SampleDB.SchemaSoundness
