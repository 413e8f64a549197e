import SampleDB.Blocks

/-!
The log manager. Records are packed into the log page from its end towards its
boundary word, which holds the position of the newest record; a record that does
not fit goes to a new block. The iterator starts at the boundary of the newest
block and moves to the block before whenever it has reached the end of one.
-/
namespace SampleDB.Logging

open Words Pages Blocks

structure LogMgr where
  file : File
  page : Page
  currBlk : ℕ
  latestLsn : ℤ
  lastSaveLsn : ℤ
  deriving DecidableEq

namespace LogMgr

/-- The private `flush()`. -/
def flushPage (lm : LogMgr) : LogMgr :=
  { lm with file := lm.file.write lm.currBlk lm.page, lastSaveLsn := lm.latestLsn }

def flush (lm : LogMgr) (lsn : ℤ) : LogMgr :=
  if lsn ≥ lm.lastSaveLsn then lm.flushPage else lm

/-- The zeroed block is in the file before its boundary word is written. -/
def appendNewBlock (B : BlockSize) (lm : LogMgr) : Result (LogMgr × ℕ) := do
  let blk := lm.file.length B
  let file := lm.file.append
  let page ← lm.page.setInt 0 (Int32.ofInt B.bytes)
  .ok ({ lm with file := file.write blk page, page := page }, blk)

/-- The constructor, on the log file as it is on disk. -/
def new (B : BlockSize) (file : File) : Result LogMgr := do
  let lm : LogMgr := ⟨file, zeroPage B.bytes, 0, 0, 0⟩
  let logFileLength := file.length B
  if logFileLength = 0 then
    let (lm, blk) ← lm.appendNewBlock B
    .ok { lm with currBlk := blk }
  else
    .ok { lm with currBlk := logFileLength - 1, page := file.read B (logFileLength - 1 : ℕ) }

/-- The log page gets the record in front of the boundary, then the new boundary. -/
def pack (lm : LogMgr) (boundary bytesNeeded : ℤ) (logRec : Bytes) : Result (LogMgr × ℤ) := do
  let recPos := toInt (boundary - bytesNeeded)
  let page ← lm.page.setBytes recPos logRec
  let page ← page.setInt 0 (Int32.ofInt recPos)
  let lsn := lm.latestLsn + 1
  .ok ({ lm with page := page, latestLsn := lsn }, lsn)

def append (B : BlockSize) (lm : LogMgr) (logRec : Bytes) : Result (LogMgr × ℤ) := do
  let boundary := (← lm.page.getInt 0).toInt
  let recSize := toInt logRec.length
  let bytesNeeded := toInt (recSize + 4)
  if toInt (boundary - bytesNeeded) < 4 then
    let (lm, blk) ← lm.flushPage.appendNewBlock B
    let lm := { lm with currBlk := blk }
    let boundary := (← lm.page.getInt 0).toInt
    lm.pack boundary bytesNeeded logRec
  else lm.pack boundary bytesNeeded logRec

end LogMgr

structure LogIterator where
  page : Page
  blk : ℤ
  currPos : ℤ
  deriving DecidableEq

namespace LogIterator

def moveToBlock (B : BlockSize) (file : File) (blk : ℤ) : Result LogIterator := do
  let page := file.read B blk
  let boundary := (← page.getInt 0).toInt
  .ok ⟨page, blk, boundary⟩

def hasNext (B : BlockSize) (it : LogIterator) : Bool :=
  it.currPos < B.bytes || it.blk > 0

def next (B : BlockSize) (file : File) (it : LogIterator) : Result (Bytes × LogIterator) := do
  let it ← if it.currPos = B.bytes then moveToBlock B file (it.blk - 1) else .ok it
  let logRec ← it.page.getBytes it.currPos
  .ok (logRec, { it with currPos := it.currPos + (4 + logRec.length) })

/-- Reading `hasNext` and `next` in turn gives these records, and then `hasNext` is false. -/
inductive Yields (B : BlockSize) (file : File) : LogIterator → List Bytes → Prop
  | done (it : LogIterator) (h : it.hasNext B = false) : Yields B file it []
  | more (it it' : LogIterator) (r : Bytes) (rs : List Bytes) (h : it.hasNext B = true)
      (hnext : it.next B file = .ok (r, it')) (hrest : Yields B file it' rs) :
      Yields B file it (r :: rs)

theorem Yields.unique {B : BlockSize} {file : File} {it : LogIterator} {rs rs' : List Bytes}
    (h : Yields B file it rs) (h' : Yields B file it rs') : rs = rs' := by
  induction h generalizing rs' with
  | done it hno =>
    cases h' with
    | done => rfl
    | more _ it' r rs hyes hnext hrest => exact absurd (hno.symm.trans hyes) (by decide)
  | more it it' r rs hyes hnext hrest ih =>
    cases h' with
    | done _ hno => exact absurd (hno.symm.trans hyes) (by decide)
    | more _ it'' r' rs'' hyes' hnext' hrest' =>
      cases hnext.symm.trans hnext'
      rw [ih hrest']

end LogIterator

/-- `LogMgr::iterator`: the log page is flushed, and the iterator starts at its block. -/
def LogMgr.iterator (B : BlockSize) (lm : LogMgr) : Result (LogMgr × LogIterator) := do
  let lm := lm.flushPage
  let it ← LogIterator.moveToBlock B lm.file lm.currBlk
  .ok (lm, it)

end SampleDB.Logging
