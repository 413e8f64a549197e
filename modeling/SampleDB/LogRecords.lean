import SampleDB.Blocks

/-!
The six kinds of log record and their byte form. Each kind computes the positions
of its fields once where it is written and once where it is read; the two
computations agree except for SETSTRING, which is written with its old value one
value length further on than where it is read.
-/
namespace SampleDB.LogRecords

open Words Pages Blocks

/-- A log record; `τ` is the type of transaction numbers. -/
inductive LogRecord (τ : Type)
  | checkpoint
  | start (txNum : τ)
  | commit (txNum : τ)
  | rollback (txNum : τ)
  | setInt (txNum : τ) (blk : BlockId) (offset val : Int32)
  | setString (txNum : τ) (blk : BlockId) (offset : Int32) (str : Bytes)
  deriving DecidableEq, Repr

namespace LogRecord

def CHECKPOINT : Int32 := 0
def START : Int32 := 1
def COMMIT : Int32 := 2
def ROLLBACK : Int32 := 3
def SETINT : Int32 := 4
def SETSTRING : Int32 := 5

/-- A checkpoint belongs to no transaction; the source gives it the number -1. -/
def txNumber {τ : Type} : LogRecord τ → Option τ
  | checkpoint => none
  | start txNum => some txNum
  | commit txNum => some txNum
  | rollback txNum => some txNum
  | setInt txNum _ _ _ => some txNum
  | setString txNum _ _ _ => some txNum

end LogRecord

/-- `std::vector<char>(recSize, 0)`; a negative size throws. -/
def newPage (recSize : ℤ) : Result Page :=
  if recSize < 0 then .error .exception else .ok (zeroPage recSize.toNat)

def CheckpointRecord.writeToLog : Result Bytes := do
  let page ← newPage 4
  page.setInt 0 LogRecord.CHECKPOINT

/-- The common form of the records that carry only a transaction number. -/
def txRecordBytes (op txNum : Int32) : Result Bytes := do
  let tpos : ℤ := 4
  let recSize := tpos + 4
  let page ← newPage recSize
  let page ← page.setInt 0 op
  page.setInt tpos txNum

def StartRecord.writeToLog (txNum : Int32) : Result Bytes :=
  txRecordBytes LogRecord.START txNum

def CommitRecord.writeToLog (txNum : Int32) : Result Bytes :=
  txRecordBytes LogRecord.COMMIT txNum

def RollbackRecord.writeToLog (txNum : Int32) : Result Bytes :=
  txRecordBytes LogRecord.ROLLBACK txNum

def SetIntRecord.writeToLog (txNum : Int32) (blkId : BlockId) (offset val : Int32) :
    Result Bytes := do
  let tpos : ℤ := 4
  let fpos := tpos + 4
  let bpos := toInt (fpos + maxLength blkId.fileName.length)
  let opos := toInt (bpos + 4)
  let vpos := toInt (opos + 4)
  let recSize := toInt (vpos + 4)
  let page ← newPage recSize
  let page ← page.setInt 0 LogRecord.SETINT
  let page ← page.setInt tpos txNum
  let page ← page.setString fpos blkId.fileName
  let page ← page.setInt bpos blkId.number
  let page ← page.setInt opos offset
  page.setInt vpos val

/-- The value goes to `opos + maxLength(str.size())`, not to `opos + sizeof(int)`. -/
def SetStringRecord.writeToLog (txNum : Int32) (blkId : BlockId) (offset : Int32)
    (str : Bytes) : Result Bytes := do
  let tpos : ℤ := 4
  let fpos := tpos + 4
  let bpos := toInt (fpos + maxLength blkId.fileName.length)
  let opos := toInt (bpos + 4)
  let vpos := toInt (opos + maxLength str.length)
  let recSize := toInt (vpos + maxLength str.length)
  let page ← newPage recSize
  let page ← page.setInt 0 LogRecord.SETSTRING
  let page ← page.setInt tpos txNum
  let page ← page.setString fpos blkId.fileName
  let page ← page.setInt bpos blkId.number
  let page ← page.setInt opos offset
  page.setString vpos str

/-- The byte vector that a record's `writeToLog` hands to `LogMgr::append`. -/
def LogRecord.writeToLog : LogRecord Int32 → Result Bytes
  | .checkpoint => CheckpointRecord.writeToLog
  | .start txNum => StartRecord.writeToLog txNum
  | .commit txNum => CommitRecord.writeToLog txNum
  | .rollback txNum => RollbackRecord.writeToLog txNum
  | .setInt txNum blk offset val => SetIntRecord.writeToLog txNum blk offset val
  | .setString txNum blk offset str => SetStringRecord.writeToLog txNum blk offset str

/-- The constructors of StartRecord, CommitRecord and RollbackRecord. -/
def readTxNum (p : Page) : Result Int32 :=
  let tpos : ℤ := 4
  p.getInt tpos

def SetIntRecord.read (p : Page) : Result (LogRecord Int32) := do
  let tpos : ℤ := 4
  let txNum ← p.getInt tpos
  let fpos := tpos + 4
  let fileName ← p.getString fpos
  let bpos := toInt (fpos + maxLength fileName.length)
  let blkNum ← p.getInt bpos
  let opos := toInt (bpos + 4)
  let offset ← p.getInt opos
  let vpos := toInt (opos + 4)
  let val ← p.getInt vpos
  .ok (.setInt txNum ⟨fileName, blkNum⟩ offset val)

def SetStringRecord.read (p : Page) : Result (LogRecord Int32) := do
  let tpos : ℤ := 4
  let txNum ← p.getInt tpos
  let fpos := tpos + 4
  let fileName ← p.getString fpos
  let bpos := toInt (fpos + maxLength fileName.length)
  let blkNum ← p.getInt bpos
  let opos := toInt (bpos + 4)
  let offset ← p.getInt opos
  let vpos := toInt (opos + 4)
  let str ← p.getString vpos
  .ok (.setString txNum ⟨fileName, blkNum⟩ offset str)

/-- An unknown kind gives the null pointer. -/
def createLogRecord (bytes : Bytes) : Result (Option (LogRecord Int32)) := do
  let page : Page := bytes
  let op ← page.getInt 0
  if op = LogRecord.CHECKPOINT then .ok (some .checkpoint)
  else if op = LogRecord.START then .ok (some (.start (← readTxNum page)))
  else if op = LogRecord.COMMIT then .ok (some (.commit (← readTxNum page)))
  else if op = LogRecord.ROLLBACK then .ok (some (.rollback (← readTxNum page)))
  else if op = LogRecord.SETINT then .ok (some (← SetIntRecord.read page))
  else if op = LogRecord.SETSTRING then .ok (some (← SetStringRecord.read page))
  else .ok none

/-- What the log gives back for a record that was written to it. -/
def LogRecord.readBack (r : LogRecord Int32) : Result (Option (LogRecord Int32)) := do
  createLogRecord (← r.writeToLog)

end SampleDB.LogRecords
