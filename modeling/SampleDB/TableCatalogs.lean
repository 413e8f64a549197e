import SampleDB.RecordPages

/-!
TableMgr over the records of its two catalogs. A table has one record in `tblcat`, and one
in `fldcat` for each of its fields. A name that does not fit its field of a catalog would run
into the field behind it, which is not part of the model.
-/
namespace SampleDB.TableCatalogs

open Pages Schemas TableScans Lexer
open RecordPages (Layout)

/-- A record of `tblcat`. -/
structure TblRow where
  tblname : Name
  slotsize : Int32
  deriving DecidableEq

/-- A record of `fldcat`. -/
structure FldRow where
  tblname : Name
  fldname : Name
  type : Int32
  length : Int32
  offset : Int32
  deriving DecidableEq

structure Catalog where
  tcat : List (Slot TblRow)
  fcat : List (Slot FldRow)

def Catalog.empty : Catalog := ⟨[], []⟩

/-- The name is in `tblcat`. -/
def Catalog.Registered (cat : Catalog) (tableName : Name) : Prop :=
  ∃ slot ∈ cat.tcat, slot.used = true ∧ slot.row.tblname = tableName

def MAX_NAME : Int32 := 16

def tcatSchema : Schema := (Schema.empty.addStringField "tblname".toList MAX_NAME).addIntField
  "slotsize".toList

def fcatSchema : Schema := ((((Schema.empty.addStringField "tblname".toList MAX_NAME).addStringField
  "fldname".toList MAX_NAME).addIntField "type".toList).addIntField "length".toList).addIntField
  "offset".toList

/-- `Schema::INTEGER`, `Schema::VARCHAR` and `Schema::BOOLEAN`. -/
def typeCode : FieldType → Int32
  | .integer => 0
  | .varchar => 1
  | .boolean => 2

def storedName (s : Name) : Result Name :=
  if s.length ≤ MAX_NAME.toInt then .ok s else .error .outside

/-- The current record is written. -/
def setRow {R : Type} (form : Form R) (ts : TableScan R) (f : R → Result R) :
    Result (TableScan R) := do
  let (i, slot) ← ts.get form
  return ts.setSlot i { slot with row := ← f slot.row }

/-- How many records of the catalogs fit in a block. -/
structure TableMgr where
  tcat : Form TblRow
  fcat : Form FldRow

namespace TableMgr

variable (m : TableMgr)

def addTable (tableName : Name) (layout : Layout) (tcat : TableScan TblRow) :
    Result (TableScan TblRow) := do
  let tcat := tcat.insert m.tcat
  let tcat ← setRow m.tcat tcat (fun row => return { row with tblname := ← storedName tableName })
  setRow m.tcat tcat (fun row => return { row with slotsize := layout.slotSize })

def addField (tableName : Name) (schema : Schema) (layout : Layout) (fcat : TableScan FldRow)
    (fieldName : Name) : Result (TableScan FldRow) := do
  let fcat := fcat.insert m.fcat
  let fcat ← setRow m.fcat fcat (fun row => return { row with tblname := ← storedName tableName })
  let fcat ← setRow m.fcat fcat (fun row => return { row with fldname := ← storedName fieldName })
  let info ← (schema.fieldInfo fieldName).elim (.error .exception) .ok
  let fcat ← setRow m.fcat fcat (fun row => return { row with type := typeCode info.type })
  let fcat ← setRow m.fcat fcat (fun row => return { row with length := info.length })
  let offset ← layout.offset fieldName
  setRow m.fcat fcat (fun row => return { row with offset := offset })

def createTable (cat : Catalog) (tableName : Name) (schema : Schema) : Result Catalog := do
  let layout ← Layout.new schema
  let tcat ← m.addTable tableName layout (TableScan.new m.tcat cat.tcat)
  let fcat ← schema.fields.foldlM (m.addField tableName schema layout)
    (TableScan.new m.fcat cat.fcat)
  return ⟨tcat.slots, fcat.slots⟩

/-- The slot size of the first record of the table, if there is one. -/
def findSize (tableName : Name) (tcat : TableScan TblRow) : Result Int32 := do
  let (found, tcat) ← selectNext m.tcat (fun row => .ok (row.tblname = tableName))
    (tcat.slots.length + 1) tcat
  if found then return (← tcat.get m.tcat).2.row.slotsize else return -1

/-- A field that is read from the catalog. -/
def readField (s : Schema × (Name → Option Int32)) (row : FldRow) :
    Schema × (Name → Option Int32) :=
  (if row.type = typeCode .integer then s.1.addIntField row.fldname
    else if row.type = typeCode .boolean then s.1.addBoolField row.fldname
    else if row.type = typeCode .varchar then s.1.addStringField row.fldname row.length
    else s.1, Function.update s.2 row.fldname (some row.offset))

def getLayout (cat : Catalog) (tableName : Name) : Result Layout := do
  let size ← m.findSize tableName (TableScan.new m.tcat cat.tcat)
  let fcat := TableScan.new m.fcat cat.fcat
  let (_, schema, offsets) ← whileNext m.fcat (fun row => .ok (row.tblname = tableName))
    (fun fcat s => do return (fcat, readField s (← fcat.get m.fcat).2.row))
    (fcat.slots.length + 1) fcat (Schema.empty, fun _ => none)
  return ⟨schema, offsets, size⟩

/-- The constructor for a new database. -/
def new : Result Catalog := do
  m.createTable (← m.createTable Catalog.empty "tblcat".toList tcatSchema) "fldcat".toList fcatSchema

end TableMgr

end SampleDB.TableCatalogs
