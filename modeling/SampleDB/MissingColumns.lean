import SampleDB.FreedSlots
import SampleDB.Plans

/-!
Commands that name a column which is not there. No command is compared with the catalog before it
is executed: a column is looked up where it is used, and the lookup of one that is missing raises
an exception. What is never looked up, as a column of a predicate without records, is not
found out, and neither the number of the values nor their types are checked.
-/
namespace SampleDB.MissingColumns

open Lexer Schemas Statements SqlParser Pages Blocks TableScans UpdatePlanner UpdatePlanners
open PlannerAgreement FreedSlots Scans Plans

section Predicates

variable {missing : Name → Prop} {read : Name → Result Constant} {pred : Predicate}

end Predicates

section Walks

variable {R σ : Type} {form : Form R} {sat : R → Result Bool}
  {act : ℕ → Slot R → σ → Result (Slot R × σ)} {slots : List (Slot R)} {i : ℕ}
    {pre post : List (Rid × R)}
  {r : Rid × R} {e : Fault}

end Walks

section Updates

variable {S : Type} {work : UpdatePlanners.IndexOp → S → Result S} {db : Db} {t : Table}

/-- A value that a column takes. -/
def Suits (info : FieldInfo) (val : Constant) : Prop :=
  match info.type with
  | .varchar => ∃ s, val.sval = some s ∧ (s.length : ℤ) ≤ info.length.toInt
  | _ => ∃ n, val.ival = some n

/-- A value that a column of the table takes. -/
def Takes (schema : Schema) (field : Name) (val : Constant) : Prop :=
  ∃ info, schema.fieldInfo field = some info ∧ Suits info val

end Updates

section Scans

variable {s s₁ : Scan} {F : Name}

end Scans

section Queries

variable {overflow : ℕ → Option Int32} {db : Db} {viewDef : Name → Text} {F : Name}

/-- All tables that are named, also in views and subqueries, are in the catalog. -/
def Known (overflow : ℕ → Option Int32) (db : Db) (viewDef : Name → Text) : ℕ → QueryData → Prop
  | 0, _ => True
  | n + 1, .mk _ tables queryTables _ _ _ =>
      (∀ tableName ∈ tables, (viewDef tableName = [] → db.tables tableName ≠ none) ∧
        ∀ viewData, parse (query overflow) (viewDef tableName) = .ok viewData →
          Known overflow db viewDef n viewData) ∧
      ∀ queryData ∈ queryTables, Known overflow db viewDef n queryData

end Queries

section Examples

def commandOf : Update → Command
  | .insert data => .insert data
  | .delete data => .delete data
  | .modify data => .modify data

/-- The text is that of the command, which ends so with either planner. -/
def Ends (db : Db) (text : Text) (u : Update) (r : Result ℕ) : Prop :=
  parse (updateCmd (fun _ => none)) text = .ok (commandOf u) ∧
    (basicExecute db u).map Prod.fst = r ∧
    (indexedExecute noIndexes db () u).map (fun p => p.1.1) = r

end Examples

end SampleDB.MissingColumns
