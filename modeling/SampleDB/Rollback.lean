import SampleDB.LogRecords
import SampleDB.LogSequence
import SampleDB.Runs

/-!
Logged updates and their rollback. An update writes the old value to the log before
the page changes; `doRollback` reads the log back from its end, decodes every record
and undoes those of its transaction, up to its START record. A page here is the
contents of the buffer in which the block is pinned.
-/
namespace SampleDB.Rollback

open Words Pages Blocks LogRecords Logging

/-- `LogRecord::undo`. -/
def undo (pages : BlockId → Page) : LogRecord Int32 → Result (BlockId → Page)
  | .setInt _ blk offset val => do
      let page ← (pages blk).setInt offset.toInt val
      .ok (Function.update pages blk page)
  | .setString _ blk offset str => do
      let page ← (pages blk).setString offset.toInt str
      .ok (Function.update pages blk page)
  | _ => .ok pages

/-- The loop of `RecoveryMgr::doRollback`, `none` when the fuel does not suffice. -/
def doRollback (B : BlockSize) (file : File) (txNum : Int32) :
    ℕ → LogIterator → (BlockId → Page) → Result (Option (BlockId → Page))
  | 0, _, _ => .ok none
  | fuel + 1, it, pages =>
      if it.hasNext B then do
        let (bytes, it) ← it.next B file
        match ← createLogRecord bytes with
        | none => .error .outside
        | some logRec =>
          if logRec.txNumber = some txNum then
            match logRec with
            | .start _ => .ok (some pages)
            | _ => doRollback B file txNum fuel it (← undo pages logRec)
          else doRollback B file txNum fuel it pages
      else .ok (some pages)

/-- What a location holds, by the call that reads it. -/
inductive Value
  | int (n : Int32)
  | string (s : Bytes)
  deriving DecidableEq, Repr

namespace Value

def size : Value → ℕ
  | int _ => 4
  | string s => 4 + s.length

/-- The location reads as this value. -/
def ReadsAt (p : Page) (offset : Int32) : Value → Prop
  | int n => p.getInt offset.toInt = .ok n
  | string s => p.getString offset.toInt = .ok s

end Value

/-- A logged update, and the value that it found. -/
structure Write where
  txNum : Int32
  blk : BlockId
  offset : Int32
  old : Value
  deriving DecidableEq, Repr

namespace Write

/-- The two updates are of one location. -/
def SameLocation (w w' : Write) : Prop :=
  w.blk = w'.blk ∧ w.offset = w'.offset ∧
    ((∃ n n', w.old = .int n ∧ w'.old = .int n') ∨
      (∃ s s', w.old = .string s ∧ w'.old = .string s'))

/-- The bytes of the value that the update found. -/
def Covers (w : Write) (j : ℕ) : Prop :=
  w.offset.toInt ≤ j ∧ j < w.offset.toInt + w.old.size

end Write

/-- `active` are the transactions that are not finished. `writes` is not in the source: it
has the logged updates, the newest first. -/
structure Db where
  log : LogMgr
  pages : BlockId → Page
  nextTxNum : Int32
  active : List Int32
  writes : List Write

inductive DbOp
  | begin
  | setInt (txNum : Int32) (blk : BlockId) (offset val : Int32)
  | setString (txNum : Int32) (blk : BlockId) (offset : Int32) (val : Bytes)
  | commit (txNum : Int32)
  | rollback (txNum : Int32)
  | flush (lsn : ℤ)
  deriving DecidableEq, Repr

namespace Db

/-- The constructor of a transaction. Counting past the largest `int` is undefined. -/
def begin (B : BlockSize) (s : Db) : Result Db := do
  if s.nextTxNum.toInt = 2147483647 then .error .outside
  else
    let txNum := s.nextTxNum + 1
    let (log, _) ← s.log.append B (← StartRecord.writeToLog txNum)
    .ok { s with log := log, nextTxNum := txNum, active := txNum :: s.active }

def setInt (B : BlockSize) (s : Db) (txNum : Int32) (blk : BlockId) (offset val : Int32) :
    Result Db := do
  let oldVal ← (s.pages blk).getInt offset.toInt
  let (log, _) ← s.log.append B (← SetIntRecord.writeToLog txNum blk offset oldVal)
  let page ← (s.pages blk).setInt offset.toInt val
  let pages := Function.update s.pages blk page
  .ok { s with log := log, pages := pages, writes := ⟨txNum, blk, offset, .int oldVal⟩ :: s.writes }

def setString (B : BlockSize) (s : Db) (txNum : Int32) (blk : BlockId) (offset : Int32)
    (val : Bytes) : Result Db := do
  let oldVal ← (s.pages blk).getString offset.toInt
  let (log, _) ← s.log.append B (← SetStringRecord.writeToLog txNum blk offset oldVal)
  let page ← (s.pages blk).setString offset.toInt val
  let pages := Function.update s.pages blk page
  let write : Write := ⟨txNum, blk, offset, .string oldVal⟩
  .ok { s with log := log, pages := pages, writes := write :: s.writes }

def commit (B : BlockSize) (s : Db) (txNum : Int32) : Result Db := do
  let (log, lsn) ← s.log.append B (← CommitRecord.writeToLog txNum)
  .ok { s with log := log.flush lsn, active := s.active.erase txNum }

def rollback (B : BlockSize) (fuel : ℕ) (s : Db) (txNum : Int32) : Result (Option Db) := do
  let (log, it) ← s.log.iterator B
  match ← doRollback B log.file txNum fuel it s.pages with
  | none => .ok none
  | some pages =>
    let (log, lsn) ← log.append B (← RollbackRecord.writeToLog txNum)
    let active := s.active.erase txNum
    .ok (some { s with log := log.flush lsn, pages := pages, active := active })

/-- The calls of transactions, in any order. Writing buffers back flushes the log. -/
def Step (B : BlockSize) (s : Db) (op : DbOp) (s' : Db) : Prop :=
  match op with
  | .begin => s.begin B = .ok s'
  | .setInt txNum blk offset val =>
      txNum ∈ s.active ∧ s.setInt B txNum blk offset val = .ok s'
  | .setString txNum blk offset val =>
      txNum ∈ s.active ∧ s.setString B txNum blk offset val = .ok s'
  | .commit txNum => txNum ∈ s.active ∧ s.commit B txNum = .ok s'
  | .rollback txNum => txNum ∈ s.active ∧ ∃ fuel, s.rollback B fuel txNum = .ok (some s')
  | .flush lsn => s' = { s with log := s.log.flush lsn }

/-- The start of a session on the log file that the operations `earlier` have left. -/
def new (B : BlockSize) (earlier : List LogSequence.LogOp) (pages : BlockId → Page) :
    Result Db := do
  let session ← LogSequence.LogSession.run B (earlier ++ [.reopen])
  .ok ⟨session.lm, pages, 0, [], []⟩

end Db

end SampleDB.Rollback
