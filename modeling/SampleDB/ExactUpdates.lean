import SampleDB.PlannerAgreement
import SampleDB.TypedTables

/-!
What deletion and modification without indexes do to a table. Each slot is visited once, in order,
and the predicate is evaluated on the record before it is changed, so the loop over the scan that
it changes does to the records what the predicate says of the table before the call.
-/
namespace SampleDB.ExactUpdates

open Lexer Schemas Statements Pages TableScans UpdatePlanner UpdatePlanners PlannerAgreement
open TypedTables

section Walks

variable {R σ : Type} {form : Form R} {isSatisfied : R → Result Bool} {sat : R → Bool}
  {act : ℕ → Slot R → σ → Result (Slot R × σ)} {change : Slot R → Slot R}
  {step : Rid → σ → σ} {slots : List (Slot R)}

end Walks

section Meaning

/-- The value of an expression on a record. -/
def valueOf (row : Row) (e : Expression) : Constant :=
  if e.value.isNull then row e.fieldName else e.value

/-- The record satisfies the predicate. -/
def Satisfies (row : Row) (pred : Predicate) : Bool :=
  pred.all (fun t => valueOf row t.lhs = valueOf row t.rhs)

/-- A constant or a field of the table, of this kind. -/
def HasKind (schema : Schema) (k : TypedTables.Kind) (e : Expression) : Prop :=
  if e.value.isNull then ∃ info, schema.fieldInfo e.fieldName = some info ∧ kind info.type = k
  else OfKind k e.value

/-- Both sides of each term have the same kind. -/
def WellTyped (schema : Schema) (pred : Predicate) : Prop :=
  ∀ t ∈ pred, ∃ k, HasKind schema k t.lhs ∧ HasKind schema k t.rhs

variable {schema : Schema} {row : Row} {e : Expression} {k : TypedTables.Kind}

end Meaning

section Updates

variable {db : Db} {t : Table} {tableName : Name} {pred : Predicate}

end Updates

/-- The schema `(a int, b int)`. -/
def twoFields : Schema := (Schema.empty.addIntField ['a']).addIntField ['b']

/-- A record with these values. -/
def pair (a b : Int32) : Slot Row :=
  ⟨true, fun fieldName => if fieldName = ['a'] then .ofInt a else .ofInt b⟩

end SampleDB.ExactUpdates
