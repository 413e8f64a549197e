import Mathlib.Data.Char
import Mathlib.Data.List.Lex
import Mathlib.Data.List.Sort
import SampleDB.BTreeIndexes
import SampleDB.UpdatePlanner

/-!
BasicUpdatePlanner and IndexUpdatePlanner over the same tables. What an operation of an index
does to the files and buffers of the transaction is a parameter: an index is opened, loses and
gets entries, and is closed, and each of these can fail. The B-tree over its two files is one
such index. The entries that stand in the database itself are not used here.
-/
namespace SampleDB.UpdatePlanners

open Lexer Schemas Statements Pages Blocks TableScans UpdatePlanner KeyOrder BTreePages BTreeIndexes

/-- What `IndexInfo::open` and `createIndexLayout` go by. -/
structure IndexId where
  indexName : Name
  field : FieldInfo
  deriving DecidableEq

inductive IndexOp
  | openIndex (id : IndexId)
  | remove (val : Constant) (rid : Rid)
  | insert (val : Constant) (rid : Rid)
  | close
  deriving DecidableEq

def indexId (schema : Schema) (info : IndexInfo) : IndexId :=
  ⟨info.indexName, (schema.fieldInfo info.fieldName).getD ⟨.integer, 0⟩⟩

inductive Update
  | insert (data : InsertData)
  | delete (data : DeleteData)
  | modify (data : ModifyData)

-- BasicUpdatePlanner
section Basic

variable (db : Db)

def basicValues (schema : Schema) : List Name → List Constant → Row → Result Row
  | [], _, row => .ok row
  | _ :: _, [], _ => .error .outside
  | field :: fields, value :: values, row => do
      basicValues schema fields values (← setValue schema row field value)

def basicInsert (data : InsertData) : Result (ℕ × Db) := do
  let t ← tablePlan db data.tableName
  let updateScan := (TableScan.new t.form t.slots).insert t.form
  let (i, slot) ← updateScan.get t.form
  let row ← basicValues t.schema data.fieldNames data.values slot.row
  let updateScan := updateScan.setSlot i { slot with row := row }
  return (1, db.setTable data.tableName (t.withSlots updateScan.slots))

def basicDelete (data : DeleteData) : Result (ℕ × Db) := do
  let t ← tablePlan db data.tableName
  let updateScan := TableScan.new t.form t.slots
  let (updateScan, count) ← whileNext t.form (fun row => isSatisfied t.schema row data.predicate)
    (fun updateScan count => do return (← updateScan.remove t.form, count + 1))
    (updateScan.slots.length + 1) updateScan 0
  return (count, db.setTable data.tableName (t.withSlots updateScan.slots))

def basicModifyBody (t : Table) (data : ModifyData) (updateScan : TableScan Row) (count : ℕ) :
    Result (TableScan Row × ℕ) := do
  let (i, slot) ← updateScan.get t.form
  let value ← evaluate t.schema slot.row data.newValue
  let row ← setValue t.schema slot.row data.targetField value
  return (updateScan.setSlot i { slot with row := row }, count + 1)

def basicModify (data : ModifyData) : Result (ℕ × Db) := do
  let t ← tablePlan db data.tableName
  let updateScan := TableScan.new t.form t.slots
  let (updateScan, count) ← whileNext t.form (fun row => isSatisfied t.schema row data.predicate)
    (basicModifyBody t data) (updateScan.slots.length + 1) updateScan 0
  return (count, db.setTable data.tableName (t.withSlots updateScan.slots))

def basicExecute : Update → Result (ℕ × Db)
  | .insert data => basicInsert db data
  | .delete data => basicDelete db data
  | .modify data => basicModify db data

end Basic

-- IndexUpdatePlanner
section Indexed

variable {S : Type} (work : IndexOp → S → Result S) (db : Db)

def runOps : List IndexOp → S → Result S
  | [], s => .ok s
  | op :: ops, s => do runOps ops (← work op s)

/-- The entry of a column that was set, where it has an index. -/
def addEntry (schema : Schema) (rid : Rid) (value : Constant) : Option IndexInfo → S → Result S
  | some info, s =>
      runOps work [.openIndex (indexId schema info), .insert value rid, .close] s
  | none, s => .ok s

def indexedValues (schema : Schema) (infos : List IndexInfo) (rid : Rid) :
    List Name → List Constant → Row × S → Result (Row × S)
  | [], _, p => .ok p
  | _ :: _, [], _ => .error .outside
  | field :: fields, value :: values, (row, s) => do
      let row ← setValue schema row field value
      let s ← addEntry work schema rid value (infoOn infos field) s
      indexedValues schema infos rid fields values (row, s)

def indexedInsert (data : InsertData) (s : S) : Result ((ℕ × Db) × S) := do
  let t ← tablePlan db data.tableName
  let updateScan := (TableScan.new t.form t.slots).insert t.form
  let rid ← updateScan.getRid
  let infos ← getIndexInfo db data.tableName t.schema
  let (i, slot) ← updateScan.get t.form
  let (row, s) ← indexedValues work t.schema infos rid data.fieldNames data.values (slot.row, s)
  let updateScan := updateScan.setSlot i { slot with row := row }
  return ((1, db.setTable data.tableName (t.withSlots updateScan.slots)), s)

/-- The loop over the map of the indexes, which is ordered by the names of the fields. -/
def byField (infos : List IndexInfo) : List IndexInfo :=
  infos.insertionSort (fun info info' => info.fieldName ≤ info'.fieldName)

/-- All indexes on the table lose their entry of a record. -/
def dropEntries (schema : Schema) (row : Row) (rid : Rid) : List IndexInfo → S → Result S
  | [], s => .ok s
  | info :: infos, s => do
      let value ← getValue schema row info.fieldName
      let s ← runOps work [.openIndex (indexId schema info), .remove value rid, .close] s
      dropEntries schema row rid infos s

def indexedDeleteBody (t : Table) (infos : List IndexInfo) (updateScan : TableScan Row)
    (p : ℕ × S) : Result (TableScan Row × ℕ × S) := do
  let rid ← updateScan.getRid
  let (_, slot) ← updateScan.get t.form
  let s ← dropEntries work t.schema slot.row rid infos p.2
  let updateScan ← updateScan.remove t.form
  return (updateScan, p.1 + 1, s)

def indexedDelete (data : DeleteData) (s : S) : Result ((ℕ × Db) × S) := do
  let t ← tablePlan db data.tableName
  let infos ← getIndexInfo db data.tableName t.schema
  let updateScan := TableScan.new t.form t.slots
  let (updateScan, count, s) ← whileNext t.form
    (fun row => isSatisfied t.schema row data.predicate) (indexedDeleteBody work t (byField infos))
    (updateScan.slots.length + 1) updateScan (0, s)
  return ((count, db.setTable data.tableName (t.withSlots updateScan.slots)), s)

/-- The index that was opened gets the entry of the new value for the one of the old value. -/
def moveEntry (rid : Rid) (oldValue newValue : Constant) : Option IndexInfo → S → Result S
  | some _, s => runOps work [.remove oldValue rid, .insert newValue rid] s
  | none, s => .ok s

def indexedModifyBody (t : Table) (info : Option IndexInfo) (data : ModifyData)
    (updateScan : TableScan Row) (p : ℕ × S) : Result (TableScan Row × ℕ × S) := do
  let (i, slot) ← updateScan.get t.form
  let newValue ← evaluate t.schema slot.row data.newValue
  let oldValue ← getValue t.schema slot.row data.targetField
  let row ← setValue t.schema slot.row data.targetField newValue
  let updateScan := updateScan.setSlot i { slot with row := row }
  let rid ← updateScan.getRid
  let s ← moveEntry work rid oldValue newValue info p.2
  return (updateScan, p.1 + 1, s)

/-- The index of the column is open during the whole loop. -/
def openInfo (schema : Schema) : Option IndexInfo → List IndexOp
  | some info => [.openIndex (indexId schema info)]
  | none => []

def closeInfo : Option IndexInfo → List IndexOp
  | some _ => [.close]
  | none => []

def indexedModify (data : ModifyData) (s : S) : Result ((ℕ × Db) × S) := do
  let t ← tablePlan db data.tableName
  let infos ← getIndexInfo db data.tableName t.schema
  let info := infoOn infos data.targetField
  let s ← runOps work (openInfo t.schema info) s
  let updateScan := TableScan.new t.form t.slots
  let (updateScan, count, s) ← whileNext t.form
    (fun row => isSatisfied t.schema row data.predicate) (indexedModifyBody work t info data)
    (updateScan.slots.length + 1) updateScan (0, s)
  let s ← runOps work (closeInfo info) s
  return ((count, db.setTable data.tableName (t.withSlots updateScan.slots)), s)

def indexedExecute (s : S) : Update → Result ((ℕ × Db) × S)
  | .insert data => indexedInsert work db data s
  | .delete data => indexedDelete work db data s
  | .modify data => indexedModify work db data s

end Indexed

section BTrees

/-- The files of the indexes, and the index that is open. -/
structure BTrees where
  files : Name → IndexFile Rid × IndexFile ℕ
  opened : Option (Name × BTreeIndex)

/-- The open index; without one a null pointer is followed. -/
def BTrees.change (s : BTrees) (f : BTreeIndex → Result BTreeIndex) : Result BTrees :=
  match s.opened with
  | some (name, idx) => do return { s with opened := some (name, ← f idx) }
  | none => .error .outside

end BTrees

-- The index operations of a command follow from the tables and the command alone.
section Operations

variable (db : Db)

/-- The records that a command selects, in their order. -/
def selected (t : Table) (predicate : Predicate) : List (Rid × Row) :=
  (TableScans.records t.form t.opened).filter
    (fun r => isSatisfied t.schema r.2 predicate matches .ok true)

end Operations

end SampleDB.UpdatePlanners
