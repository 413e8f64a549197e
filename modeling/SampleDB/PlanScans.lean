import SampleDB.ExhaustedScans
import SampleDB.PlanMeanings

/-!
The scans of plans yield what the plans mean. Each operator takes this over from its sources: the
scan that it opens goes through the rows of a meaning, and through the same rows again whenever it
is reset, which is what a product needs of its right side and a sort of its source.
-/
namespace SampleDB.PlanScans

open Lexer Schemas Statements Pages Blocks TableScans UpdatePlanner Scans Plans Iterators Fuel
open TypedTables PlanSchemas SchemaAgreement ExactUpdates SortedLists TableRows SortOrder
open ExternalSort SortScans Grouping GroupScans Products RowProperties PlanMeanings

variable {B : BlockSize} {db : Db} {p p₁ p₂ : Plan} {rows rows₁ rows₂ : List Row}

section Tables

variable {t : Table} {tableName : Name}

end Tables

section Selections

variable {schema : Schema} {r : Row} {pred : Predicate} {fields : List Name}

end Selections

section Pairs

end Pairs

section Copies

variable {schema : Schema} {f : Form Row} {done : List Row} {dest : OpenTable} {src : Scan}
  {I : Scan → Prop}

end Copies

section Sorts

variable {sortFields groupFields : List Name} {fns : List AggregationFn} {f : Form Row}

end Sorts

end SampleDB.PlanScans
