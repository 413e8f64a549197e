import SampleDB.Directory
import SampleDB.RecordPages
import SampleDB.UpdatePlanner

/-!
The update planner over the pages of the table files. A value of a record is read from the bytes
of its field and is written to them, with the old value in the log; the commands of one
transaction follow each other. What the catalogs say stands beside the files, and an index is a
bag of keys and record identifiers.
-/
namespace SampleDB.PagePlanner

open Words Pages Blocks LogRecords Logging Lexer Schemas Statements SqlParser Directory
open UpdatePlanner TableScans
open RecordPages hiding TableScan

abbrev TableScan := RecordPages.TableScan

/-- A `char` is a byte. -/
def bytesOf (s : Text) : Bytes := s.map (fun c => c.toNat.toUInt8)

def textOf (s : Bytes) : Text := s.map (fun b => Char.ofNat b.toNat)

def constantOf : Rollback.Value → Constant
  | .int n => .ofInt n
  | .string s => .ofString (textOf s)

structure PageDb where
  txNum : Int32
  log : LogMgr
  layouts : Name → Option Layout
  files : FileName → List Page
  idxcat : List IndexInfo
  index : Indexes

def PageDb.empty (txNum : Int32) (log : LogMgr) : PageDb :=
  ⟨txNum, log, fun _ => none, fun _ => [], [], fun _ => []⟩

/-- What `MetaDataMgr::getIndexInfo` reads. -/
def PageDb.catalog (db : PageDb) : Db := ⟨fun _ => none, db.idxcat, db.index⟩

section Scans

variable (B : BlockSize) (layout : Layout)

def getValue (ts : TableScan) (fieldName : Name) : Result Constant := do
  return constantOf (← ts.getValue layout fieldName)

def asInt (c : Constant) : Result Int32 :=
  match c.ival with
  | some n => .ok n
  | none => .error .outside

def asString (c : Constant) : Result Text :=
  match c.sval with
  | some s => .ok s
  | none => .error .outside

def setValue (ts : TableScan) (fieldName : Name) (val : Constant) : Result TableScan := do
  match ← layout.fieldType fieldName with
  | .integer => ts.setInt B layout fieldName (← asInt val)
  | .boolean => ts.setInt B layout fieldName (← asInt val)
  | .varchar => ts.setString B layout fieldName (bytesOf (← asString val))

def evaluate (ts : TableScan) (e : Expression) : Result Constant :=
  if e.value.isNull then getValue layout ts e.fieldName else .ok e.value

def termIsSatisfied (ts : TableScan) (t : Term) : Result Bool := do
  constantEq (← evaluate layout ts t.lhs) (← evaluate layout ts t.rhs)

def isSatisfied (ts : TableScan) : Predicate → Result Bool
  | [] => .ok true
  | t :: terms => do
      if ← termIsSatisfied layout ts t then isSatisfied ts terms else return false

/-- `SelectScan::next`, in at most so many steps. -/
def selectNext (pred : Predicate) : ℕ → TableScan → Result (Bool × TableScan)
  | 0, _ => .error .outside
  | n + 1, ts => do
      let (found, ts) ← ts.next B layout
      if found then
        if ← isSatisfied layout ts pred then return (true, ts) else selectNext pred n ts
      else return (false, ts)

/-- A file has no more slots than bytes. -/
def steps (ts : TableScan) : ℕ := ts.tx.size * B.bytes + 1

/-- The loop over the records that a scan selects, in at most so many steps. -/
def whileNext {σ : Type} (pred : Predicate) (body : TableScan → σ → Result (TableScan × σ)) :
    ℕ → TableScan → σ → Result (TableScan × σ)
  | 0, _, _ => .error .outside
  | n + 1, ts, s => do
      let (found, ts) ← selectNext B layout pred (steps B ts) ts
      if found then
        let (ts, s) ← body ts s
        whileNext pred body n ts s
      else return (ts, s)

end Scans

section Commands

variable (B : BlockSize) (db : PageDb)

/-- `TablePlan`; the scan of a table that is not in the catalog formats a block with slots of
a negative size. -/
def tablePlan (tableName : Name) : Result Layout :=
  match db.layouts tableName with
  | some layout => .ok layout
  | none => .error .outside

/-- `TablePlan::open`. -/
def openTable (layout : Layout) (tableName : Name) : Result TableScan :=
  RecordPages.TableScan.new B layout ⟨db.txNum, bytesOf (tableFile tableName), db.log,
    db.files (tableFile tableName)⟩

/-- What a command leaves behind. -/
def PageDb.close (tableName : Name) (ts : TableScan) (index : Indexes) : PageDb :=
  { db with
    log := ts.tx.log
    files := Function.update db.files (tableFile tableName) ts.tx.blocks
    index := index }

/-- The columns of a new record, with the values that they are given. -/
def insertValues (layout : Layout) (infos : List IndexInfo) (rid : Rid) :
    List Name → List Constant → TableScan × Indexes → Result (TableScan × Indexes)
  | [], _, s => .ok s
  | _ :: _, [], _ => .error .outside
  | field :: fields, value :: values, (ts, index) => do
      let ts ← setValue B layout ts field value
      let index ← insertEntry layout.schema rid value (infoOn infos field) index
      insertValues layout infos rid fields values (ts, index)

def executeInsert (data : InsertData) : Result (ℕ × PageDb) := do
  let layout ← tablePlan db data.tableName
  let updateScan ← openTable B db layout data.tableName
  let updateScan ← updateScan.insert B layout
  let rid ← updateScan.getRid
  let infos ← getIndexInfo db.catalog data.tableName layout.schema
  let (updateScan, index) ← insertValues B layout infos rid data.fieldNames data.values
    (updateScan, db.index)
  return (1, db.close data.tableName updateScan index)

/-- All indexes on the table lose their entry of a record. -/
def removeEntries (layout : Layout) (ts : TableScan) (rid : Rid) :
    List IndexInfo → Indexes → Result Indexes
  | [], index => .ok index
  | info :: infos, index => do
      let value ← getValue layout ts info.fieldName
      removeEntries layout ts rid infos (← indexRemove layout.schema info value rid index)

/-- The body of the loop of `executeDelete`. -/
def deleteBody (layout : Layout) (infos : List IndexInfo) (updateScan : TableScan)
    (s : ℕ × Indexes) : Result (TableScan × ℕ × Indexes) := do
  let rid ← updateScan.getRid
  let index ← removeEntries layout updateScan rid infos s.2
  let updateScan ← updateScan.remove B layout
  return (updateScan, s.1 + 1, index)

def executeDelete (data : DeleteData) : Result (ℕ × PageDb) := do
  let layout ← tablePlan db data.tableName
  let infos ← getIndexInfo db.catalog data.tableName layout.schema
  let updateScan ← openTable B db layout data.tableName
  let (updateScan, count, index) ← whileNext B layout data.predicate (deleteBody B layout infos)
    (steps B updateScan) updateScan (0, db.index)
  return (count, db.close data.tableName updateScan index)

/-- The body of the loop of `executeModify`. -/
def modifyBody (layout : Layout) (info : Option IndexInfo) (data : ModifyData)
    (updateScan : TableScan) (s : ℕ × Indexes) : Result (TableScan × ℕ × Indexes) := do
  let newValue ← evaluate layout updateScan data.newValue
  let oldValue ← getValue layout updateScan data.targetField
  let updateScan ← setValue B layout updateScan data.targetField newValue
  let rid ← updateScan.getRid
  let index ← modifyEntry layout.schema rid oldValue newValue info s.2
  return (updateScan, s.1 + 1, index)

def executeModify (data : ModifyData) : Result (ℕ × PageDb) := do
  let layout ← tablePlan db data.tableName
  let infos ← getIndexInfo db.catalog data.tableName layout.schema
  let updateScan ← openTable B db layout data.tableName
  let (updateScan, count, index) ← whileNext B layout data.predicate
    (modifyBody B layout (infoOn infos data.targetField) data) (steps B updateScan) updateScan
    (0, db.index)
  return (count, db.close data.tableName updateScan index)

/-- The layout of a new table is the one that the catalogs give back. -/
def executeCreateTable (data : CreateTableData) : Result (ℕ × PageDb) := do
  let layout ← Layout.new data.newSchema
  if fitsCatalog data.tableName && data.newSchema.fields.all fitsCatalog &&
      (db.layouts data.tableName).isNone then
    return (0, { db with layouts := Function.update db.layouts data.tableName (some layout) })
  else .error .outside

def executeCreateIndex (data : CreateIndexData) : Result (ℕ × PageDb) :=
  if fitsCatalog data.indexName && fitsCatalog data.tableName && fitsCatalog data.fieldName then
    .ok (0, { db with idxcat := db.idxcat ++ [⟨data.indexName, data.tableName, data.fieldName⟩] })
  else .error .outside

/-- The views are kept apart from the tables and the indexes. -/
def executeCreateView (_ : CreateViewData) : Result (ℕ × PageDb) := .ok (0, db)

def execute : Command → Result (ℕ × PageDb)
  | .insert data => executeInsert B db data
  | .delete data => executeDelete B db data
  | .modify data => executeModify B db data
  | .createTable data => executeCreateTable db data
  | .createView data => executeCreateView db data
  | .createIndex data => executeCreateIndex db data

end Commands

end SampleDB.PagePlanner
