import SampleDB.Endings
import SampleDB.Schemas
import SampleDB.TableScans

/-!
Records in the blocks of a table file. A layout gives each field a place in the slot,
behind the flag. A record page reads and writes slots through the transaction, which logs
the old value of what it overwrites; a scan moves through the blocks of the file and adds
one where no slot is free. Positions are `int`s. A loop over the slots of a block that goes
on for longer than the block has bytes does not end.
-/
namespace SampleDB.RecordPages

open Words Pages Blocks LogRecords Logging Lexer Schemas Rollback Endings TableScans

structure Layout where
  schema : Schema
  offsets : Name → Option Int32
  slotSize : Int32

namespace Layout

/-- `file::Page::maxLength`, whose argument is an `int` here. -/
def maxLength (strlen : Int32) : Int32 := Int32.ofInt (4 + strlen.toInt)

def lengthInBytes (schema : Schema) (fieldName : Name) : Result Int32 :=
  match schema.fieldInfo fieldName with
  | some ⟨.integer, _⟩ => .ok 4
  | some ⟨.boolean, _⟩ => .ok 4
  | some ⟨.varchar, length⟩ => .ok (maxLength length)
  | none => .error .exception

/-- The next field goes to the end of the slot. -/
def addField (layout : Layout) (fieldName : Name) : Result Layout := do
  let length ← lengthInBytes layout.schema fieldName
  return ⟨layout.schema, Function.update layout.offsets fieldName (some layout.slotSize),
    Int32.ofInt (layout.slotSize.toInt + length.toInt)⟩

def new (schema : Schema) : Result Layout :=
  schema.fields.foldlM addField ⟨schema, fun _ => none, 4⟩

def offset (layout : Layout) (fieldName : Name) : Result Int32 :=
  match layout.offsets fieldName with
  | some pos => .ok pos
  | none => .error .exception

def fieldType (layout : Layout) (fieldName : Name) : Result FieldType :=
  match layout.schema.fieldInfo fieldName with
  | some info => .ok info.type
  | none => .error .exception

end Layout

/-- A transaction and the file that it works on. -/
structure Transaction where
  txNum : Int32
  fileName : Bytes
  log : LogMgr
  blocks : List Page

namespace Transaction

def size (tx : Transaction) : ℕ := tx.blocks.length

/-- The buffer of a block. A block behind the end of the file is not used. -/
def contents (tx : Transaction) (blk : ℕ) : Result Page :=
  match tx.blocks[blk]? with
  | some page => .ok page
  | none => .error .outside

def blockId (tx : Transaction) (blk : ℕ) : BlockId := ⟨tx.fileName, Int32.ofInt blk⟩

def getInt (tx : Transaction) (blk : ℕ) (offset : Int32) : Result Int32 := do
  (← tx.contents blk).getInt offset.toInt

def getString (tx : Transaction) (blk : ℕ) (offset : Int32) : Result Bytes := do
  (← tx.contents blk).getString offset.toInt

/-- `RecoveryMgr::setInt` and `RecoveryMgr::setString` log the value that is overwritten. -/
def logOld (B : BlockSize) (tx : Transaction) (blk : ℕ) (page : Page) (offset : Int32)
    (k : Kind) : Result LogMgr := do
  let oldVal ← get page offset k
  let logRec ← (record tx.txNum (tx.blockId blk) offset oldVal).writeToLog
  let (log, _) ← tx.log.append B logRec
  return log

def logUpdate (B : BlockSize) (tx : Transaction) (blk : ℕ) (page : Page) (offset : Int32)
    (k : Kind) (okToLog : Bool) : Result LogMgr :=
  if okToLog then tx.logOld B blk page offset k else .ok tx.log

def set (B : BlockSize) (tx : Transaction) (blk : ℕ) (offset : Int32) (val : Value)
    (okToLog : Bool) : Result Transaction := do
  let page ← tx.contents blk
  let log ← tx.logUpdate B blk page offset (kind val) okToLog
  let page ← Endings.set page offset val
  return { tx with log := log, blocks := tx.blocks.set blk page }

def setInt (B : BlockSize) (tx : Transaction) (blk : ℕ) (offset val : Int32) (okToLog : Bool) :
    Result Transaction :=
  tx.set B blk offset (.int val) okToLog

def setString (B : BlockSize) (tx : Transaction) (blk : ℕ) (offset : Int32) (val : Bytes)
    (okToLog : Bool) : Result Transaction :=
  tx.set B blk offset (.string val) okToLog

/-- The new block is the last one. -/
def append (B : BlockSize) (tx : Transaction) : Transaction :=
  { tx with blocks := tx.blocks ++ [zeroPage B.bytes] }

end Transaction

namespace RecordPage

def EMPTY : Int32 := 0
def USED : Int32 := 1

def offset (layout : Layout) (slot : ℤ) : Int32 := Int32.ofInt (slot * layout.slotSize.toInt)

def fieldPos (layout : Layout) (slot : ℤ) (fieldName : Name) : Result Int32 := do
  let pos ← layout.offset fieldName
  return Int32.ofInt ((offset layout slot).toInt + pos.toInt)

def isValidSlot (B : BlockSize) (layout : Layout) (slot : ℤ) : Bool :=
  (offset layout (slot + 1)).toInt ≤ B.bytes

def getInt (layout : Layout) (tx : Transaction) (blk : ℕ) (slot : ℤ) (fieldName : Name) :
    Result Int32 := do
  tx.getInt blk (← fieldPos layout slot fieldName)

def getString (layout : Layout) (tx : Transaction) (blk : ℕ) (slot : ℤ) (fieldName : Name) :
    Result Bytes := do
  tx.getString blk (← fieldPos layout slot fieldName)

def setInt (B : BlockSize) (layout : Layout) (tx : Transaction) (blk : ℕ) (slot : ℤ)
    (fieldName : Name) (val : Int32) : Result Transaction := do
  tx.setInt B blk (← fieldPos layout slot fieldName) val true

def setString (B : BlockSize) (layout : Layout) (tx : Transaction) (blk : ℕ) (slot : ℤ)
    (fieldName : Name) (val : Bytes) : Result Transaction := do
  tx.setString B blk (← fieldPos layout slot fieldName) val true

def setFlag (B : BlockSize) (layout : Layout) (tx : Transaction) (blk : ℕ) (slot : ℤ)
    (flag : Int32) : Result Transaction :=
  tx.setInt B blk (offset layout slot) flag true

def remove (B : BlockSize) (layout : Layout) (tx : Transaction) (blk : ℕ) (slot : ℤ) :
    Result Transaction :=
  setFlag B layout tx blk slot EMPTY

/-- The value that `format` writes to a field. -/
def blankField (B : BlockSize) (layout : Layout) (blk : ℕ) (slot : ℤ) (tx : Transaction)
    (fieldName : Name) : Result Transaction := do
  let pos ← fieldPos layout slot fieldName
  match ← layout.fieldType fieldName with
  | .integer => tx.setInt B blk pos 0 false
  | .boolean => tx.setInt B blk pos 0 false
  | .varchar => tx.setString B blk pos [] false

def formatSlot (B : BlockSize) (layout : Layout) (tx : Transaction) (blk : ℕ) (slot : ℤ) :
    Result Transaction := do
  let tx ← tx.setInt B blk (offset layout slot) EMPTY true
  layout.schema.fields.foldlM (blankField B layout blk slot) tx

/-- The loop of `format`, in at most so many steps. -/
def formatFrom (B : BlockSize) (layout : Layout) (blk : ℕ) :
    ℕ → Transaction → ℤ → Result Transaction
  | 0, _, _ => .error .outside
  | n + 1, tx, slot =>
      if isValidSlot B layout slot then do
        let tx ← formatSlot B layout tx blk slot
        formatFrom B layout blk n tx (slot + 1)
      else .ok tx

def format (B : BlockSize) (layout : Layout) (tx : Transaction) (blk : ℕ) : Result Transaction :=
  formatFrom B layout blk (B.bytes + 2) tx 0

/-- The loop of `searchAfter`, in at most so many steps. -/
def searchFrom (B : BlockSize) (layout : Layout) (tx : Transaction) (blk : ℕ) (flag : Int32) :
    ℕ → ℤ → Result ℤ
  | 0, _ => .error .outside
  | n + 1, slot =>
      if isValidSlot B layout slot then do
        let found ← tx.getInt blk (offset layout slot)
        if found = flag then return slot else searchFrom B layout tx blk flag n (slot + 1)
      else .ok (-1)

def searchAfter (B : BlockSize) (layout : Layout) (tx : Transaction) (blk : ℕ) (slot : ℤ)
    (flag : Int32) : Result ℤ :=
  searchFrom B layout tx blk flag (B.bytes + 2) (slot + 1)

def nextAfter (B : BlockSize) (layout : Layout) (tx : Transaction) (blk : ℕ) (slot : ℤ) :
    Result ℤ :=
  searchAfter B layout tx blk slot USED

def insertAfter (B : BlockSize) (layout : Layout) (tx : Transaction) (blk : ℕ) (slot : ℤ) :
    Result (ℤ × Transaction) := do
  let newSlot ← searchAfter B layout tx blk slot EMPTY
  if newSlot ≥ 0 then return (newSlot, ← setFlag B layout tx blk newSlot USED)
  else return (newSlot, tx)

end RecordPage

/-- `block` is the block of the record page. -/
structure TableScan where
  tx : Transaction
  block : ℕ
  currentSlot : ℤ

namespace TableScan

def moveToBlock (ts : TableScan) (blknum : ℕ) : TableScan :=
  { ts with block := blknum, currentSlot := -1 }

def moveToNewBlock (B : BlockSize) (layout : Layout) (tx : Transaction) : Result TableScan := do
  let tx' ← RecordPage.format B layout (tx.append B) tx.size
  return ⟨tx', tx.size, -1⟩

/-- The constructor. -/
def new (B : BlockSize) (layout : Layout) (tx : Transaction) : Result TableScan :=
  if tx.size = 0 then moveToNewBlock B layout tx else .ok ⟨tx, 0, -1⟩

def beforeFirst (ts : TableScan) : TableScan := ts.moveToBlock 0

def atEndOfBlock (ts : TableScan) : Bool := (ts.block : ℤ) = ts.tx.size - 1

/-- The loop of `next`, in at most so many steps. -/
def nextFrom (B : BlockSize) (layout : Layout) : ℕ → TableScan → Result (Bool × TableScan)
  | 0, _ => .error .outside
  | n + 1, ts => do
      let slot ← RecordPage.nextAfter B layout ts.tx ts.block ts.currentSlot
      if slot ≥ 0 then return (true, { ts with currentSlot := slot })
      else if ts.atEndOfBlock then return (false, { ts with currentSlot := slot })
      else nextFrom B layout n (ts.moveToBlock (ts.block + 1))

def next (B : BlockSize) (layout : Layout) (ts : TableScan) : Result (Bool × TableScan) :=
  nextFrom B layout (ts.tx.size + 1) ts

/-- The block that `insert` goes on with. -/
def moveOn (B : BlockSize) (layout : Layout) (ts : TableScan) : Result TableScan :=
  if ts.atEndOfBlock then moveToNewBlock B layout ts.tx else .ok (ts.moveToBlock (ts.block + 1))

/-- The loop of `insert`, in at most so many steps. -/
def insertFrom (B : BlockSize) (layout : Layout) : ℕ → TableScan → Result TableScan
  | 0, _ => .error .outside
  | n + 1, ts => do
      let (slot, tx) ← RecordPage.insertAfter B layout ts.tx ts.block ts.currentSlot
      if slot ≥ 0 then return { ts with tx := tx, currentSlot := slot }
      else
        let ts ← moveOn B layout { ts with tx := tx }
        insertFrom B layout n ts

def insert (B : BlockSize) (layout : Layout) (ts : TableScan) : Result TableScan :=
  insertFrom B layout (ts.tx.size + 2) ts

def remove (B : BlockSize) (layout : Layout) (ts : TableScan) : Result TableScan := do
  return { ts with tx := ← RecordPage.remove B layout ts.tx ts.block ts.currentSlot }

def getInt (layout : Layout) (ts : TableScan) (fieldName : Name) : Result Int32 :=
  RecordPage.getInt layout ts.tx ts.block ts.currentSlot fieldName

def getString (layout : Layout) (ts : TableScan) (fieldName : Name) : Result Bytes :=
  RecordPage.getString layout ts.tx ts.block ts.currentSlot fieldName

/-- The constant with the integer or the string that was read. -/
def getValue (layout : Layout) (ts : TableScan) (fieldName : Name) : Result Value := do
  match ← layout.fieldType fieldName with
  | .integer => return .int (← ts.getInt layout fieldName)
  | .boolean => return .int (← ts.getInt layout fieldName)
  | .varchar => return .string (← ts.getString layout fieldName)

def setInt (B : BlockSize) (layout : Layout) (ts : TableScan) (fieldName : Name) (val : Int32) :
    Result TableScan := do
  return { ts with tx := ← RecordPage.setInt B layout ts.tx ts.block ts.currentSlot fieldName val }

def setString (B : BlockSize) (layout : Layout) (ts : TableScan) (fieldName : Name)
    (val : Bytes) : Result TableScan := do
  return { ts with
    tx := ← RecordPage.setString B layout ts.tx ts.block ts.currentSlot fieldName val }

/-- The integer of a constant; the pointer to it is null in a constant with a string. -/
def asInt : Value → Result Int32
  | .int n => .ok n
  | .string _ => .error .outside

def asString : Value → Result Bytes
  | .int _ => .error .outside
  | .string s => .ok s

def setValue (B : BlockSize) (layout : Layout) (ts : TableScan) (fieldName : Name) (val : Value) :
    Result TableScan := do
  match ← layout.fieldType fieldName with
  | .integer => ts.setInt B layout fieldName (← asInt val)
  | .boolean => ts.setInt B layout fieldName (← asInt val)
  | .varchar => ts.setString B layout fieldName (← asString val)

def moveToRid (ts : TableScan) (rid : Rid) : TableScan :=
  { ts with block := rid.blockNumber, currentSlot := rid.slotNumber }

/-- The place in front of the first slot of a block is not the identifier of a record. -/
def getRid (ts : TableScan) : Result Rid :=
  if ts.currentSlot < 0 then .error .outside else .ok ⟨ts.block, ts.currentSlot.toNat⟩

end TableScan

end SampleDB.RecordPages
