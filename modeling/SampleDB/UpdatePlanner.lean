import Mathlib.Algebra.Ring.Int.Defs
import SampleDB.Blocks
import SampleDB.SqlParser
import SampleDB.TableScans

/-!
The update planner over the records of tables and the entries of indexes. What the
catalogs say stands beside the tables, which are the other ones. An index is a bag of keys
and record identifiers, kept under its name. A string that does not fit its field would
run into what is stored behind it, and a second table of one name would share the file of
the first; neither is part of the model, so both end in `outside`. Where a null pointer is
followed, the result is `outside` as well.
-/
namespace SampleDB.UpdatePlanner

open Lexer Schemas Statements Pages Blocks TableScans SqlParser

abbrev Row := Name → Constant

/-- No field has the empty name. -/
structure Table where
  schema : Schema
  form : Form Row
  slots : List (Slot Row)
  named : schema.fieldInfo [] = none

def Table.records (t : Table) : List (Rid × Row) := TableScans.records t.form t.slots

def Table.withSlots (t : Table) (slots : List (Slot Row)) : Table := { t with slots := slots }

structure IndexInfo where
  indexName : Name
  tableName : Name
  fieldName : Name
  deriving DecidableEq

def IndexInfo.isNull (info : IndexInfo) : Bool := info.indexName = [] || info.fieldName = []

/-- `idxcat` has the oldest index first. -/
structure Db where
  tables : Name → Option Table
  idxcat : List IndexInfo
  index : Name → List (Constant × Rid)

def Db.empty : Db := ⟨fun _ => none, [], fun _ => []⟩

def Db.setTable (db : Db) (tableName : Name) (t : Table) : Db :=
  { db with tables := Function.update db.tables tableName (some t) }

theorem setTable_self (db : Db) (tableName : Name) (t : Table) :
    (db.setTable tableName t).tables tableName = some t := by
  unfold Db.setTable
  exact Function.update_self _ _ _

theorem setTable_ne (db : Db) {tableName tableName' : Name} (t : Table)
    (h : tableName' ≠ tableName) : (db.setTable tableName t).tables tableName' =
      db.tables tableName' := by
  unfold Db.setTable
  exact Function.update_of_ne h _ _

section Scans

/-- `operator==`. -/
def constantEq (lhs rhs : Constant) : Result Bool :=
  match lhs.ival with
  | some n => match rhs.ival with
    | some m => .ok (n = m)
    | none => .error .outside
  | none => match lhs.sval, rhs.sval with
    | some s, some s' => .ok (s = s')
    | _, _ => .error .outside

variable (schema : Schema) (row : Row)

def getValue (fieldName : Name) : Result Constant :=
  match schema.fieldInfo fieldName with
  | some _ => .ok (row fieldName)
  | none => .error .exception

def evaluate (e : Expression) : Result Constant :=
  if e.value.isNull then getValue schema row e.fieldName else .ok e.value

def termIsSatisfied (t : Term) : Result Bool := do
  constantEq (← evaluate schema row t.lhs) (← evaluate schema row t.rhs)

def isSatisfied : Predicate → Result Bool
  | [] => .ok true
  | t :: terms => do
      if ← termIsSatisfied schema row t then isSatisfied terms else return false

def setValue (fieldName : Name) (val : Constant) : Result Row :=
  match schema.fieldInfo fieldName with
  | none => .error .exception
  | some info => match info.type with
    | .varchar => match val.sval with
      | some s =>
          if s.length ≤ info.length.toInt then .ok (Function.update row fieldName (.ofString s))
          else .error .outside
      | none => .error .outside
    | _ => match val.ival with
      | some n => .ok (Function.update row fieldName (.ofInt n))
      | none => .error .outside

end Scans

section Indexes

/-- The key that an index keeps; on a field that is no integer it keeps strings. -/
def keyOf (type : FieldType) (val : Constant) : Option Constant :=
  match type with
  | .integer => val.ival.map Constant.ofInt
  | _ => val.sval.map Constant.ofString

variable (db : Db)

/-- The constructor of `IndexInfo` looks up the type of its field. -/
def addIndexInfo (schema : Schema) (infos : List IndexInfo) (info : IndexInfo) :
    Result (List IndexInfo) :=
  match schema.fieldInfo info.fieldName with
  | some _ => .ok (infos.filter (fun i => i.fieldName ≠ info.fieldName) ++ [info])
  | none => .error .exception

/-- A field keeps its newest index. -/
def getIndexInfo (tableName : Name) (schema : Schema) : Result (List IndexInfo) :=
  (db.idxcat.filter (fun info => info.tableName = tableName)).foldlM (addIndexInfo schema) []

def infoOn (infos : List IndexInfo) (fieldName : Name) : Option IndexInfo :=
  (infos.find? (fun info => info.fieldName = fieldName)).filter (fun info => !info.isNull)

abbrev Indexes := Name → List (Constant × Rid)

/-- A change of the entries of one index, with a key. -/
def changeIndex (schema : Schema) (info : IndexInfo) (val : Constant)
    (f : Constant → List (Constant × Rid) → List (Constant × Rid)) (index : Indexes) :
    Result Indexes :=
  match (schema.fieldInfo info.fieldName).bind (fun fieldInfo => keyOf fieldInfo.type val) with
  | some key => .ok (Function.update index info.indexName (f key (index info.indexName)))
  | none => .error .outside

def indexInsert (schema : Schema) (info : IndexInfo) (val : Constant) (rid : Rid) :
    Indexes → Result Indexes :=
  changeIndex schema info val (fun key entries => (key, rid) :: entries)

def indexRemove (schema : Schema) (info : IndexInfo) (val : Constant) (rid : Rid) :
    Indexes → Result Indexes :=
  changeIndex schema info val (fun key entries => entries.erase (key, rid))

end Indexes

section Layouts

/-- The value that `format` writes. -/
def blankValue : FieldType → Constant
  | .varchar => .ofString []
  | _ => .ofInt 0

def blankRow (schema : Schema) : Row := fun fieldName =>
  match schema.fieldInfo fieldName with
  | some info => blankValue info.type
  | none => .null

def lengthInBytes (schema : Schema) (fieldName : Name) : ℤ :=
  match schema.fieldInfo fieldName with
  | some info => match info.type with
    | .varchar => 4 + info.length.toInt
    | _ => 4
  | none => 0

def slotSize (schema : Schema) : ℤ := 4 + (schema.fields.map (lengthInBytes schema)).sum

/-- A block holds as many slots as fit; a table whose slots do not fit is not part of the model,
since the search for a free slot would not end. -/
def form (B : BlockSize) (schema : Schema) : Option (Form Row) :=
  if h : 0 < (B.bytes / slotSize schema).toNat then some ⟨_, h, blankRow schema⟩ else none

end Layouts

section Commands

variable (db : Db)

/-- `TablePlan`; the scan of a table that is not in the catalog formats a block with slots of
a negative size. -/
def tablePlan (tableName : Name) : Result Table :=
  match db.tables tableName with
  | some t => .ok t
  | none => .error .outside

/-- The entry of a column of a new record, where the column has an index. -/
def insertEntry (schema : Schema) (rid : Rid) (value : Constant) :
    Option IndexInfo → Indexes → Result Indexes
  | some info, index => indexInsert schema info value rid index
  | none, index => .ok index

/-- The columns of a new record, with the values that they are given. -/
def insertValues (schema : Schema) (infos : List IndexInfo) (rid : Rid) :
    List Name → List Constant → Row × Indexes → Result (Row × Indexes)
  | [], _, s => .ok s
  | _ :: _, [], _ => .error .outside
  | field :: fields, value :: values, (row, index) => do
      let row ← setValue schema row field value
      let index ← insertEntry schema rid value (infoOn infos field) index
      insertValues schema infos rid fields values (row, index)

def executeInsert (data : InsertData) : Result (ℕ × Db) := do
  let t ← tablePlan db data.tableName
  let updateScan := (TableScan.new t.form t.slots).insert t.form
  let rid ← updateScan.getRid
  let infos ← getIndexInfo db data.tableName t.schema
  let (i, slot) ← updateScan.get t.form
  let (row, index) ← insertValues t.schema infos rid data.fieldNames data.values
    (slot.row, db.index)
  let updateScan := updateScan.setSlot i { slot with row := row }
  return (1, { db.setTable data.tableName (t.withSlots updateScan.slots) with index := index })

/-- All indexes on the table lose their entry of a record. -/
def removeEntries (schema : Schema) (row : Row) (rid : Rid) :
    List IndexInfo → Indexes → Result Indexes
  | [], index => .ok index
  | info :: infos, index => do
      let value ← getValue schema row info.fieldName
      removeEntries schema row rid infos (← indexRemove schema info value rid index)

/-- The body of the loop of `executeDelete`. -/
def deleteBody (t : Table) (infos : List IndexInfo) (updateScan : TableScan Row)
    (s : ℕ × Indexes) : Result (TableScan Row × ℕ × Indexes) := do
  let rid ← updateScan.getRid
  let (_, slot) ← updateScan.get t.form
  let index ← removeEntries t.schema slot.row rid infos s.2
  let updateScan ← updateScan.remove t.form
  return (updateScan, s.1 + 1, index)

def executeDelete (data : DeleteData) : Result (ℕ × Db) := do
  let t ← tablePlan db data.tableName
  let infos ← getIndexInfo db data.tableName t.schema
  let updateScan := TableScan.new t.form t.slots
  let (updateScan, count, index) ←
    whileNext t.form (fun row => isSatisfied t.schema row data.predicate)
    (deleteBody t infos) (updateScan.slots.length + 1) updateScan (0, db.index)
  return (count,
    { db.setTable data.tableName (t.withSlots updateScan.slots) with index := index })

/-- The old entry of a record is replaced, where the changed field has an index. -/
def modifyEntry (schema : Schema) (rid : Rid) (oldValue newValue : Constant) :
    Option IndexInfo → Indexes → Result Indexes
  | some info, index => do
      indexInsert schema info newValue rid (← indexRemove schema info oldValue rid index)
  | none, index => .ok index

/-- The body of the loop of `executeModify`. -/
def modifyBody (t : Table) (info : Option IndexInfo) (data : ModifyData)
    (updateScan : TableScan Row) (s : ℕ × Indexes) : Result (TableScan Row × ℕ × Indexes) := do
  let (i, slot) ← updateScan.get t.form
  let newValue ← evaluate t.schema slot.row data.newValue
  let oldValue ← getValue t.schema slot.row data.targetField
  let row ← setValue t.schema slot.row data.targetField newValue
  let updateScan := updateScan.setSlot i { slot with row := row }
  let rid ← updateScan.getRid
  let index ← modifyEntry t.schema rid oldValue newValue info s.2
  return (updateScan, s.1 + 1, index)

def executeModify (data : ModifyData) : Result (ℕ × Db) := do
  let t ← tablePlan db data.tableName
  let infos ← getIndexInfo db data.tableName t.schema
  let updateScan := TableScan.new t.form t.slots
  let (updateScan, count, index) ←
    whileNext t.form (fun row => isSatisfied t.schema row data.predicate)
    (modifyBody t (infoOn infos data.targetField) data) (updateScan.slots.length + 1) updateScan
    (0, db.index)
  return (count,
    { db.setTable data.tableName (t.withSlots updateScan.slots) with index := index })

/-- `TableMgr::MAX_NAME`. -/
def fitsCatalog (name : Name) : Bool := name.length ≤ 16

def executeCreateTable (B : BlockSize) (data : CreateTableData) : Result (ℕ × Db) :=
  if h : data.newSchema.fieldInfo [] = none then
    if fitsCatalog data.tableName && data.newSchema.fields.all fitsCatalog &&
        (db.tables data.tableName).isNone then
      match form B data.newSchema with
      | some form => .ok (0, db.setTable data.tableName ⟨data.newSchema, form, [], h⟩)
      | none => .error .outside
    else .error .outside
  else .error .outside

def executeCreateIndex (data : CreateIndexData) : Result (ℕ × Db) :=
  if fitsCatalog data.indexName && fitsCatalog data.tableName && fitsCatalog data.fieldName then
    .ok (0, { db with idxcat := db.idxcat ++ [⟨data.indexName, data.tableName, data.fieldName⟩] })
  else .error .outside

/-- The views are kept apart from the tables and the indexes. -/
def executeCreateView (_ : CreateViewData) : Result (ℕ × Db) := .ok (0, db)

def execute (B : BlockSize) : Command → Result (ℕ × Db)
  | .insert data => executeInsert db data
  | .delete data => executeDelete db data
  | .modify data => executeModify db data
  | .createTable data => executeCreateTable db B data
  | .createView data => executeCreateView db data
  | .createIndex data => executeCreateIndex db data

/-- `Planner::executeUpdate`. Every error of the parser is an exception. -/
def executeUpdate (overflow : ℕ → Option Int32) (B : BlockSize) (update : Text) : Result (ℕ × Db) :=
  match parse (updateCmd overflow) update with
  | .ok cmd => execute db B cmd
  | .error _ => .error .exception

end Commands

section Loops

variable {db : Db} {t : Table} {infos : List IndexInfo}

/-- What a command does to the table, its indexes and its count. -/
def finish (db : Db) (tableName : Name) (t : Table)
    (p : List (Slot Row) × ℕ × Indexes) : ℕ × Db :=
  (p.2.1, { db.setTable tableName (t.withSlots p.1) with index := p.2.2 })

/-- The slots of the file once a scan of it is open. -/
def Table.opened (t : Table) : List (Slot Row) := (TableScan.new t.form t.slots).slots

/-- The loop over a table that was just opened. -/
theorem loop_walk {τ : Type} {pred : Predicate}
    {body : TableScan Row → τ → Result (TableScan Row × τ)}
    {act : ℕ → Slot Row → τ → Result (Slot Row × τ)}
    (hbody : ∀ (ts : TableScan Row) (i : ℕ) (slot : Slot Row) (s : τ),
      ts.slots[i]? = some slot → body (ts.moveTo t.form i) s =
        (act i slot s).map (fun p => ((ts.moveTo t.form i).setSlot i p.1, p.2)))
    (s : τ) :
    (whileNext t.form (fun row => isSatisfied t.schema row pred) body
      ((TableScan.new t.form t.slots).slots.length + 1) (TableScan.new t.form t.slots) s).map
        (fun p => (p.1.slots, p.2)) =
      walk (fun row => isSatisfied t.schema row pred) act 0 t.opened s := by
  have hstart : (TableScan.new t.form t.slots).start t.form = 0 := Nat.zero_mul t.form.perBlock
  have hloop : (whileNext t.form (fun row => isSatisfied t.schema row pred) body
      ((TableScan.new t.form t.slots).slots.length + 1) (TableScan.new t.form t.slots) s).map
        (fun p => (p.1.slots, p.2)) = _ := whileNext_eq hbody (by omega)
  rw [hstart, List.drop_zero, List.take_zero] at hloop
  rw [hloop]
  unfold Table.opened
  cases walk (fun row => isSatisfied t.schema row pred) act 0
    (TableScan.new t.form t.slots).slots s <;> rfl

/-- What follows the loop goes by the slots and the state only. -/
theorem loop_bind {α τ : Type} {x : Result (TableScan Row × τ)} {w : Result (List (Slot Row) × τ)}
    (h : x.map (fun p => (p.1.slots, p.2)) = w) (f : List (Slot Row) × τ → Result α) :
    (x >>= fun p => f (p.1.slots, p.2)) = w >>= f := by
  rw [← h]
  cases x <;> rfl

theorem loop_eq {pred : Predicate}
    {body : TableScan Row → ℕ × Indexes → Result (TableScan Row × ℕ × Indexes)}
    {act : ℕ → Slot Row → ℕ × Indexes → Result (Slot Row × ℕ × Indexes)}
    (hbody : ∀ (ts : TableScan Row) (i : ℕ) (slot : Slot Row) (s : ℕ × Indexes),
      ts.slots[i]? = some slot → body (ts.moveTo t.form i) s =
        (act i slot s).map (fun p => ((ts.moveTo t.form i).setSlot i p.1, p.2)))
    (s : ℕ × Indexes) (tableName : Name) :
    (do
      let (updateScan, count, index) ←
        whileNext t.form (fun row => isSatisfied t.schema row pred) body
        ((TableScan.new t.form t.slots).slots.length + 1) (TableScan.new t.form t.slots) s
      return (count, ({ db.setTable tableName (t.withSlots updateScan.slots) with
        index := index } : Db))) =
      (walk (fun row => isSatisfied t.schema row pred) act 0 t.opened s).map
        (finish db tableName t) := by
  refine (loop_bind (loop_walk hbody s) (fun p => .ok (finish db tableName t p))).trans ?_
  cases walk (fun row => isSatisfied t.schema row pred) act 0 t.opened s <;> rfl

/-- A record that is deleted. -/
def deleteSlot (t : Table) (infos : List IndexInfo) (i : ℕ) (slot : Slot Row)
    (s : ℕ × Indexes) : Result (Slot Row × ℕ × Indexes) := do
  let index ← removeEntries t.schema slot.row (t.form.rid i) infos s.2
  return ({ slot with used := false }, s.1 + 1, index)

/-- A record that is changed. -/
def modifySlot (t : Table) (info : Option IndexInfo) (data : ModifyData) (i : ℕ)
    (slot : Slot Row) (s : ℕ × Indexes) : Result (Slot Row × ℕ × Indexes) := do
  let newValue ← evaluate t.schema slot.row data.newValue
  let oldValue ← getValue t.schema slot.row data.targetField
  let row ← setValue t.schema slot.row data.targetField newValue
  let index ← modifyEntry t.schema (t.form.rid i) oldValue newValue info s.2
  return ({ slot with row := row }, s.1 + 1, index)

theorem executeDelete_eq (data : DeleteData) : executeDelete db data = (do
    let t ← tablePlan db data.tableName
    let infos ← getIndexInfo db data.tableName t.schema
    (walk (fun row => isSatisfied t.schema row data.predicate) (deleteSlot t infos) 0 t.opened
      (0, db.index)).map (finish db data.tableName t)) := by
  unfold executeDelete
  refine bind_congr fun t => bind_congr fun infos => ?_
  refine loop_eq ?_ (0, db.index) data.tableName
  intro ts i slot s hslot
  unfold deleteBody deleteSlot
  rw [getRid_moveTo, get_moveTo t.form ts hslot]
  simp only [ok_bind, TableScan.remove, get_moveTo t.form ts hslot]
  cases removeEntries t.schema slot.row (t.form.rid i) infos s.2 <;> rfl

theorem executeModify_eq (data : ModifyData) : executeModify db data = (do
    let t ← tablePlan db data.tableName
    let infos ← getIndexInfo db data.tableName t.schema
    (walk (fun row => isSatisfied t.schema row data.predicate)
      (modifySlot t (infoOn infos data.targetField) data) 0 t.opened (0, db.index)).map
        (finish db data.tableName t)) := by
  unfold executeModify
  refine bind_congr fun t => bind_congr fun infos => ?_
  refine loop_eq ?_ (0, db.index) data.tableName
  intro ts i slot s hslot
  unfold modifyBody modifySlot
  rw [get_moveTo t.form ts hslot]
  simp only [ok_bind]
  cases evaluate t.schema slot.row data.newValue with
  | error e => rfl
  | ok newValue =>
    cases getValue t.schema slot.row data.targetField with
    | error e => rfl
    | ok oldValue =>
      simp only [ok_bind]
      cases setValue t.schema slot.row data.targetField newValue with
      | error e => rfl
      | ok row =>
        have hrid : ((ts.moveTo t.form i).setSlot i { slot with row := row }).getRid =
            .ok (t.form.rid i) := rfl
        simp only [ok_bind, hrid]
        cases modifyEntry t.schema (t.form.rid i) oldValue newValue
          (infoOn infos data.targetField) s.2 <;> rfl

end Loops

section Catalogs

/-- The indexes of a table are on its columns, or one of them ends the search with an exception. -/
theorem getIndexInfo_cases (db : Db) (tableName : Name) (schema : Schema) :
    (getIndexInfo db tableName schema = .error .exception ∧
      ∃ info ∈ db.idxcat, info.tableName = tableName ∧ schema.fieldInfo info.fieldName = none) ∨
    ∃ infos, getIndexInfo db tableName schema = .ok infos ∧
      (∀ info ∈ infos, schema.fieldInfo info.fieldName ≠ none) ∧
      ∀ info ∈ db.idxcat, info.tableName = tableName → schema.fieldInfo info.fieldName ≠ none := by
  have hloop : ∀ infos acc : List IndexInfo,
      (∀ info ∈ acc, schema.fieldInfo info.fieldName ≠ none) →
      (infos.foldlM (addIndexInfo schema) acc = .error .exception ∧
        ∃ info ∈ infos, schema.fieldInfo info.fieldName = none) ∨
      ∃ infos', infos.foldlM (addIndexInfo schema) acc = .ok infos' ∧
        (∀ info ∈ infos', schema.fieldInfo info.fieldName ≠ none) ∧
        ∀ info ∈ infos, schema.fieldInfo info.fieldName ≠ none := by
    intro infos
    induction infos with
    | nil => exact fun acc hacc => Or.inr ⟨acc, rfl, hacc, List.forall_mem_nil _⟩
    | cons info infos ih =>
      intro acc hacc
      rw [List.foldlM_cons]
      cases hfield : schema.fieldInfo info.fieldName with
      | none =>
        have hadd : addIndexInfo schema acc info = .error .exception := by
          unfold addIndexInfo
          rw [hfield]
        rw [hadd]
        exact Or.inl ⟨rfl, info, List.mem_cons_self, hfield⟩
      | some field =>
        have hinfo : schema.fieldInfo info.fieldName ≠ none := by
          rw [hfield]
          exact Option.some_ne_none field
        have hadd : addIndexInfo schema acc info =
            .ok (acc.filter (fun i => i.fieldName ≠ info.fieldName) ++ [info]) := by
          unfold addIndexInfo
          rw [hfield]
        rw [hadd, ok_bind]
        have hacc' : ∀ info' ∈ acc.filter (fun i => i.fieldName ≠ info.fieldName) ++ [info],
            schema.fieldInfo info'.fieldName ≠ none := by
          intro info' hmem
          rcases List.mem_append.mp hmem with hold | hnew
          · exact hacc info' (List.mem_of_mem_filter hold)
          · rw [List.mem_singleton.mp hnew]
            exact hinfo
        rcases ih _ hacc' with ⟨hnone, info', hmem, hinfo'⟩ | ⟨infos', hrest, hall, hinfos⟩
        · exact Or.inl ⟨hnone, info', List.mem_cons_of_mem _ hmem, hinfo'⟩
        · exact Or.inr ⟨infos', hrest, hall, List.forall_mem_cons.mpr ⟨hinfo, hinfos⟩⟩
  rcases hloop (db.idxcat.filter (fun info => info.tableName = tableName)) []
    (List.forall_mem_nil _) with ⟨hnone, info, hmem, hinfo⟩ | ⟨infos, hget, hall, hinfos⟩
  · obtain ⟨hcat, hname⟩ := List.mem_filter.mp hmem
    exact Or.inl ⟨hnone, info, hcat, of_decide_eq_true hname, hinfo⟩
  · exact Or.inr ⟨infos, hget, hall, fun info hcat hname =>
      hinfos info (List.mem_filter.mpr ⟨hcat, decide_eq_true hname⟩)⟩

end Catalogs

section Keys

variable {db : Db} {t : Table} {schema : Schema} {info : IndexInfo} {index index' : Indexes}
  {row row' : Row} {val key : Constant}

/-- A constant has at most one of its pointers. -/
def Plain (c : Constant) : Prop := c.ival = none ∨ c.sval = none

def PlainRow (row : Row) : Prop := ∀ fieldName, Plain (row fieldName)

theorem keyOf_eq (type : FieldType) (hplain : Plain val) (h : keyOf type val = some key) :
    key = val := by
  obtain ⟨ival, sval⟩ := val
  cases type with
  | integer =>
    obtain ⟨n, hn, rfl⟩ := Option.map_eq_some_iff.mp h
    rcases hplain with hnone | hnone
    · rw [show ival = none from hnone] at hn
      cases hn
    · cases hn
      rw [show sval = none from hnone]
      rfl
  | varchar | boolean =>
    obtain ⟨s, hs, rfl⟩ := Option.map_eq_some_iff.mp h
    rcases hplain with hnone | hnone
    · cases hs
      rw [show ival = none from hnone]
      rfl
    · rw [show sval = none from hnone] at hs
      cases hs

/-- A change of an index changes the entries under its name only. -/
theorem changeIndex_cases
    {f : Constant → List (Constant × Rid) → List (Constant × Rid)} (hplain : Plain val)
    (h : changeIndex schema info val f index = .ok index') :
    index' info.indexName = f val (index info.indexName) ∧
      ∀ name ≠ info.indexName, index' name = index name := by
  unfold changeIndex at h
  split at h
  · rename_i key hkey
    obtain ⟨fieldInfo, -, hkey⟩ := Option.bind_eq_some_iff.mp hkey
    cases h
    rw [Function.update_self, keyOf_eq _ hplain hkey]
    exact ⟨rfl, fun name hne => Function.update_of_ne hne _ _⟩
  · cases h

theorem getValue_eq_ok {fieldName : Name} (h : getValue schema row fieldName = .ok val) :
    val = row fieldName := by
  unfold getValue at h
  split at h
  · cases h
    rfl
  · cases h

theorem evaluate_plain {e : Expression} (he : Plain e.value) (hrow : PlainRow row)
    (h : evaluate schema row e = .ok val) : Plain val := by
  unfold evaluate at h
  split at h
  · rw [getValue_eq_ok h]
    exact hrow e.fieldName
  · cases h
    exact he

/-- A field that is set holds a constant of its type. -/
theorem setValue_cases {fieldName : Name} (h : setValue schema row fieldName val = .ok row') :
    ∃ c, row' = Function.update row fieldName c ∧ Plain c ∧ (Plain val → c = val) := by
  unfold setValue at h
  split at h
  · cases h
  · rename_i fieldInfo hinfo
    split at h
    · split at h
      · rename_i s hs
        split at h
        · cases h
          refine ⟨_, rfl, Or.inl rfl, ?_⟩
          intro hplain
          exact keyOf_eq .varchar hplain (congrArg (Option.map Constant.ofString) hs)
        · cases h
      · cases h
    · split at h
      · rename_i n hn
        cases h
        refine ⟨_, rfl, Or.inr rfl, ?_⟩
        intro hplain
        exact keyOf_eq .integer hplain (congrArg (Option.map Constant.ofInt) hn)
      · cases h

theorem tablePlan_eq_ok {tableName : Name} (h : tablePlan db tableName = .ok t) :
    db.tables tableName = some t := by
  unfold tablePlan at h
  split at h
  · cases h
    assumption
  · cases h

end Keys

end SampleDB.UpdatePlanner
