import SampleDB.PlanScans

/-!
What a query asks for, and that its plan yields it. The answer is said of the query alone: the rows
of its tables, views and subqueries are joined, those that satisfy the predicate are kept, grouped
where there are group fields, cut to the selected fields and sorted. A selected field that is named
after an aggregation function has the value of this function for the group.
-/
namespace SampleDB.QueryAnswers

open Lexer Schemas Statements SqlParser Pages Blocks TableScans UpdatePlanner Scans Plans Iterators
open Fuel Runs TypedTables PlanSchemas SchemaAgreement SchemaSoundness ExactUpdates SortedLists
open TableRows SortOrder Grouping Products RowProperties PlanMeanings PlanScans

section Answers

/-- The rows of the first list, each with each of the second one, and so on. -/
def joinAll : List (List Row) → List Row
  | [] => []
  | rows :: sources =>
      sources.foldl (fun rows rows' => (rows ×ˢ rows').map (fun r => joined r.1 r.2)) rows

/-- One result for each combination of values of the group fields. Whatever function a selected
field is named after, it has the value of this function. -/
structure GroupResults (groupFields fields : List Name) (rows results : List Row) : Prop where
  once : (results.map (values groupFields)).Nodup
  combinations : ∀ vs, vs ∈ results.map (values groupFields) ↔ vs ∈ rows.map (values groupFields)
  value : ∀ result ∈ results, ∀ fn : AggregationFn, fn.fieldName ∈ fields →
    fn.fieldName ∉ groupFields →
    IsAggregate fn (groupOf groupFields rows result) (result fn.fieldName)

def GroupedRows (groupFields fields : List Name) (rows results : List Row) : Prop :=
  if groupFields.isEmpty then results = rows else GroupResults groupFields fields rows results

def SortedTo (sortFields : List Name) (rows rows' : List Row) : Prop :=
  if sortFields.isEmpty then rows' = rows
  else rows'.Perm rows ∧ Sorted (sortKey sortFields) rows'

variable (overflow : ℕ → Option Int32) (db : Db) (viewDef : Name → Text)

mutual

/-- The rows of a table, or the answer to the query that a view stands for. -/
inductive SourceRows : Name → List Row → Prop
  | table {tableName : Name} {t : Table} (hview : viewDef tableName = [])
      (ht : db.tables tableName = some t) : SourceRows tableName (t.records.map Prod.snd)
  | view {viewName : Name} {q : QueryData} {rows : List Row} (hview : viewDef viewName ≠ [])
      (hparse : parse (query overflow) (viewDef viewName) = .ok q) (h : Answers q rows) :
      SourceRows viewName rows

inductive Answers : QueryData → List Row → Prop
  | mk {fields tables : List Name} {queryTables : List QueryData} {predicate : Predicate}
      {groupFields sortFields : List Name} {tableRows queryRows : List (List Row)}
      {results rows : List Row} (htables : List.Forall₂ SourceRows tables tableRows)
      (hqueries : List.Forall₂ Answers queryTables queryRows)
      (hgroups : GroupedRows groupFields fields
        ((joinAll (tableRows ++ queryRows)).filter (fun r => Satisfies r predicate)) results)
      (hsorted : SortedTo sortFields (results.map (restrict fields)) rows) :
      Answers (.mk fields tables queryTables predicate groupFields sortFields) rows

end

end Answers

variable {overflow : ℕ → Option Int32} {B : BlockSize} {db : Db} {viewDef : Name → Text}
  {p : Plan} {rows : List Row}

section Names

end Names

section Operators

end Operators

section Planning

variable {α β γ : Type} {R : α → β → Prop} {S : β → γ → Prop} {T : α → γ → Prop}

variable {planner : QueryData → Result (Plan × List AggregationFn)}

end Planning

section Queries

variable {D : Database} {updates : List Text} {n : ℕ} {q : QueryData} {fns : List AggregationFn}

end Queries

section Examples

variable {D : Database} {t s : Table} {F F' : Name}

end Examples

end SampleDB.QueryAnswers
