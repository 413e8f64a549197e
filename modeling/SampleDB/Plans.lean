import SampleDB.Scans

/-!
Plans, the scans that they open, and the query planner. Temporary tables are kept by value: a
scan of one is the only user of its file. One whose slots do not fit in a block is not part of
the model. The aggregation functions of a query are listed in a member of the planner, which a
view or a subquery that is planned in between clears and leaves with its own.
-/
namespace SampleDB.Plans

open Lexer Schemas Statements Pages Blocks TableScans SqlParser UpdatePlanner Scans

/-- `Schema::add` of one field after another; a field that the other schema does not have would
be an exception. -/
def addFrom (other : Schema) (s : Schema) (fields : List Name) : Schema :=
  fields.foldl (fun s fieldName =>
    match other.fieldInfo fieldName with
    | some info => s.addField fieldName info
    | none => s) s

/-- What `getLayout` gives for a table of the catalog. -/
structure Layout where
  schema : Schema
  form : Form Row

def getLayout (db : Db) (tableName : Name) : Option Layout :=
  (db.tables tableName).map (fun t => ⟨t.schema, t.form⟩)

/-- A table that is not in the catalog has a layout without fields. -/
def layoutSchema : Option Layout → Schema
  | some layout => layout.schema
  | none => .empty

inductive Plan
  | table (tableName : Name) (layout : Option Layout)
  | select (p : Plan) (pred : Predicate)
  | project (p : Plan) (fields : List Name)
  | product (p₁ p₂ : Plan)
  | materialize (p : Plan)
  | sort (p : Plan) (sortFields : List Name)
  | groupBy (p : Plan) (groupFields : List Name) (aggFns : List AggregationFn)

namespace Plan

/-- The result of each aggregation function is declared as an integer. -/
def schema : Plan → Schema
  | .table _ layout => layoutSchema layout
  | .select p _ => p.schema
  | .project p fields => addFrom p.schema .empty fields
  | .product p₁ p₂ => (Schema.empty.addAll p₁.schema).addAll p₂.schema
  | .materialize p => p.schema
  | .sort p _ => p.schema
  | .groupBy p groupFields aggFns =>
      aggFns.foldl (fun s fn => s.addIntField fn.fieldName) (addFrom p.schema .empty groupFields)

/-- The constructor of `ProjectPlan`. -/
def newProject (p : Plan) (fields : List Name) : Result Plan :=
  if fields.all p.schema.hasField then .ok (.project p fields) else .error .exception

/-- The constructor of `GroupByPlan`, which sorts its source. -/
def newGroupBy (p : Plan) (groupFields : List Name) (aggFns : List AggregationFn) : Result Plan :=
  if groupFields.all p.schema.hasField then
    .ok (.groupBy (.sort p groupFields) groupFields aggFns)
  else .error .exception

end Plan

section TempTables

structure TempTable where
  schema : Schema
  form : Form Row
  slots : List (Slot Row)

def TempTable.new (B : BlockSize) (schema : Schema) : Result TempTable :=
  match UpdatePlanner.form B schema with
  | some form => .ok ⟨schema, form, []⟩
  | none => .error .outside

def TempTable.open (t : TempTable) : OpenTable := ⟨t.schema, t.form, TableScan.new t.form t.slots⟩

/-- What a scan leaves in the file. -/
def tempTable (t : OpenTable) : TempTable := ⟨t.schema, t.form, t.ts.slots⟩

def setValues (read : Name → Result Constant) : List Name → OpenTable → Result OpenTable
  | [], dest => .ok dest
  | fieldName :: fields, dest => do
      let c ← read fieldName
      setValues read fields (← dest.setValue fieldName c)

/-- A new record with the values of another one. -/
def copyRecord (read : Name → Result Constant) (dest : OpenTable) : Result OpenTable :=
  setValues read dest.schema.fields dest.insert

end TempTables

section Sorting

variable (rounds : ℕ) (B : BlockSize)

/-- The loop of `splitIntoRuns`. -/
def splitLoop (sortFields : List Name) :
    ℕ → Scan → OpenTable → List TempTable → Result (List TempTable)
  | 0, _, _, _ => .error .outside
  | n + 1, src, currentScan, temps => do
      let currentScan ← copyRecord src.getValue currentScan
      let (more, src) ← src.next rounds
      if more then
        let c ← compare src.getValue currentScan.getValue sortFields
        if c < 0 then
          let currentTemp ← TempTable.new B currentScan.schema
          splitLoop sortFields n src currentTemp.open (temps ++ [tempTable currentScan])
        else splitLoop sortFields n src currentScan temps
      else return temps ++ [tempTable currentScan]

def splitIntoRuns (schema : Schema) (sortFields : List Name) (src : Scan) :
    Result (List TempTable) := do
  let src ← src.beforeFirst rounds
  let (found, src) ← src.next rounds
  if found then
    let currentTemp ← TempTable.new B schema
    splitLoop rounds B sortFields rounds src currentTemp.open []
  else return []

/-- The loops of `mergeTwoRuns`; the flags say which of the runs has a next record. -/
def mergeLoop (sortFields : List Name) :
    ℕ → Bool × OpenTable → Bool × OpenTable → OpenTable → Result OpenTable
  | 0, _, _, _ => .error .outside
  | n + 1, (true, src₁), (true, src₂), dest => do
      let c ← compare src₁.getValue src₂.getValue sortFields
      if c < 0 then mergeLoop sortFields n src₁.next (true, src₂) (← copyRecord src₁.getValue dest)
      else mergeLoop sortFields n (true, src₁) src₂.next (← copyRecord src₂.getValue dest)
  | n + 1, (true, src₁), (false, src₂), dest => do
      mergeLoop sortFields n src₁.next (false, src₂) (← copyRecord src₁.getValue dest)
  | n + 1, (false, src₁), (true, src₂), dest => do
      mergeLoop sortFields n (false, src₁) src₂.next (← copyRecord src₂.getValue dest)
  | _ + 1, (false, _), (false, _), dest => .ok dest

def mergeTwoRuns (schema : Schema) (sortFields : List Name) (p₁ p₂ : TempTable) :
    Result TempTable := do
  let result ← TempTable.new B schema
  let dest ← mergeLoop sortFields rounds p₁.open.next p₂.open.next result.open
  return tempTable dest

def doAMergeIteration (schema : Schema) (sortFields : List Name) :
    List TempTable → Result (List TempTable)
  | p₁ :: p₂ :: runs => do
      let merged ← mergeTwoRuns rounds B schema sortFields p₁ p₂
      return merged :: (← doAMergeIteration schema sortFields runs)
  | runs => .ok runs

/-- The loop of `SortPlan::open`. -/
def mergeRuns (schema : Schema) (sortFields : List Name) :
    ℕ → List TempTable → Result (List TempTable)
  | n, runs =>
      if 2 < runs.length then
        match n with
        | 0 => .error .outside
        | n + 1 => do
            mergeRuns schema sortFields n (← doAMergeIteration rounds B schema sortFields runs)
      else .ok runs

/-- The constructor of `SortScan`; it reads the first run also where there is none. -/
def newSortScan (sortFields : List Name) : List TempTable → Result SortScan
  | [] => .error .outside
  | p₁ :: runs => .ok (.restart sortFields p₁.open (runs.head?.map TempTable.open))

/-- `SortPlan::open`. -/
def openSort (schema : Schema) (sortFields : List Name) (src : Scan) : Result SortScan := do
  let runs ← splitIntoRuns rounds B schema sortFields src
  newSortScan sortFields (← mergeRuns rounds B schema sortFields rounds runs)

/-- The loop of `MaterializePlan::open`. -/
def materializeLoop : ℕ → Scan → OpenTable → Result OpenTable
  | 0, _, _ => .error .outside
  | n + 1, src, dest => do
      let (found, src) ← src.next rounds
      if found then materializeLoop n src (← copyRecord src.getValue dest)
      else return dest

/-- `MaterializePlan::open`. -/
def openMaterialized (schema : Schema) (src : Scan) : Result OpenTable := do
  let temp ← TempTable.new B schema
  let dest ← materializeLoop rounds rounds src temp.open
  return dest.beforeFirst

/-- The constructor of `ProductScan`. -/
def newProductScan (scan₁ scan₂ : Scan) : Result Scan := do
  let (_, scan₁) ← scan₁.next rounds
  return .product scan₁ scan₂

/-- The constructor of `GroupByScan`. -/
def newGroupByScan (src : Scan) (groupFields : List Name) (aggFns : List AggregationFn) :
    Result Scan :=
  Scan.beforeFirst rounds
    (.groupBy src groupFields (aggFns.map (fun fn => (fn, fn.start))) none false)

/-- The slots of a file; it is empty before it is there. -/
def fileSlots (db : Db) (tableName : Name) : List (Slot Row) :=
  match db.tables tableName with
  | some t => t.slots
  | none => []

/-- A scan of a table without a layout formats a block with slots of a negative size. -/
def Plan.open (db : Db) : Plan → Result Scan
  | .table tableName layout =>
      match layout with
      | some layout => .ok (.table
          ⟨layout.schema, layout.form, TableScan.new layout.form (fileSlots db tableName)⟩)
      | none => .error .outside
  | .select p pred => do return .select (← Plan.open db p) pred
  | .project p fields => do
      return .project (← Plan.open db p) (addFrom p.schema .empty fields).fields
  | .product p₁ p₂ => do
      let scan₁ ← Plan.open db p₁
      let scan₂ ← Plan.open db p₂
      newProductScan rounds scan₁ scan₂
  | .materialize p => do
      return .table (← openMaterialized rounds B p.schema (← Plan.open db p))
  | .sort p sortFields => do
      return .sort (← openSort rounds B p.schema sortFields (← Plan.open db p))
  | .groupBy p groupFields aggFns => do
      newGroupByScan rounds (← Plan.open db p) groupFields aggFns

end Sorting

section Planner

/-- The plans of the sources, and the list of the aggregation functions. -/
abbrev Sources := List Plan × List AggregationFn

/-- What a table adds to the functions of a query with groups. -/
def fieldFns (schema : Schema) : List AggregationFn :=
  schema.fields.flatMap (fun fieldName =>
    match schema.fieldInfo fieldName with
    | some ⟨.integer, _⟩ => [.max fieldName, .min fieldName, .sum fieldName]
    | _ => [.max fieldName, .min fieldName])

def addTablePlan (db : Db) (grouped : Bool) (tableName : Name) (sources : Sources) : Sources :=
  let layout := getLayout db tableName
  (sources.1 ++ [.table tableName layout],
    if grouped then sources.2 ++ fieldFns (layoutSchema layout) else sources.2)

/-- The product of all sources. -/
def productOf : List Plan → Result Plan
  | [] => .error .outside
  | p :: plans => .ok (plans.foldl Plan.product p)

/-- Grouping, where there are group fields, with the list of functions that the planner keeps. -/
def addGroups (p : Plan) (groupFields : List Name) (aggFns : List AggregationFn) :
    Result (Plan × List AggregationFn) :=
  if groupFields.isEmpty then .ok (p, aggFns)
  else do return (← p.newGroupBy groupFields (aggFns ++ [.count]), aggFns ++ [.count])

def addSort (p : Plan) (sortFields : List Name) : Plan :=
  if sortFields.isEmpty then p else .sort p sortFields

variable (overflow : ℕ → Option Int32) (db : Db) (viewDef : Name → Text)

/-- A view or a table. The definition of a view is parsed again. -/
def addSource (createPlan : QueryData → Result (Plan × List AggregationFn)) (grouped : Bool)
    (sources : Sources) (tableName : Name) : Result Sources :=
  if viewDef tableName = [] then .ok (addTablePlan db grouped tableName sources)
  else
    match parse (query overflow) (viewDef tableName) with
    | .error _ => .error .exception
    | .ok viewData => do
        let (p, aggFns) ← createPlan viewData
        return (sources.1 ++ [p], aggFns)

def addSubquery (createPlan : QueryData → Result (Plan × List AggregationFn)) (sources : Sources)
    (queryData : QueryData) : Result Sources := do
  let (p, aggFns) ← createPlan queryData
  return (sources.1 ++ [.materialize p], aggFns)

/-- `BasicQueryPlanner::createPlan`, with the functions that stay in the planner. Queries and views
are nested at most so deep; a view of itself would be planned without an end. -/
def createPlan : ℕ → QueryData → Result (Plan × List AggregationFn)
  | 0, _ => .error .outside
  | n + 1, .mk fields tables queryTables predicate groupFields sortFields => do
      let sources ← tables.foldlM
        (addSource overflow db viewDef (createPlan n) (!groupFields.isEmpty)) ([], [])
      let sources ← queryTables.foldlM (addSubquery (createPlan n)) sources
      let p ← productOf sources.1
      let (p, aggFns) ← addGroups (.select p predicate) groupFields sources.2
      let p ← p.newProject fields
      return (addSort p sortFields, aggFns)

end Planner

end SampleDB.Plans
