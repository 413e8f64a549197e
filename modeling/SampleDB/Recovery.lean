import SampleDB.BufferPool
import SampleDB.LockSafety
import SampleDB.RecoveryLog

/-!
Sessions of transactions on one database, with crashes. Every block that is in the
pool has one buffer; which blocks are loaded, written back and given up, and when, is
left open. A crash keeps the files, and the next session begins with `recover`. A call
that does not return ends the process, which is a crash as well.
-/
namespace SampleDB.Recovery

open Words Pages Blocks LogRecords Logging BufferPool Locking LockSafety RecoveryLog

/-- The record that ends `commit`, `rollback` and `recover`. -/
inductive End
  | commit
  | rollback
  | checkpoint
  deriving DecidableEq, Repr

/-- The loops of `doRollback` and of `doRecover`; `fin` are the finished transactions. -/
inductive Scan
  | rollback
  | recover (fin : List Int32)
  deriving DecidableEq, Repr

/-- Where a transaction stands. `flushing`, `appended` and `releasing` are in `commit`,
`rollback` and `recover`: before the record is appended, before it is flushed, and in the
release of the locks. -/
inductive Pc
  | fresh
  | starting
  | ready
  | setInt (blk : BlockId) (offset val : Int32)
  | scanning (k : Scan) (it : LogIterator)
  | undoing (k : Scan) (blk : BlockId) (offset val : Int32) (it : LogIterator)
  | flushing (e : End)
  | appended (e : End) (lsn : ℤ)
  | releasing (e : End)
  | ended

/-- `recovered` is set when the first transaction of the session has returned from `recover`,
or when the database is new. `entries` is not in the source: it has the records of the log,
the newest first, with the values that were written. -/
structure Db where
  log : LogMgr
  disk : BlockId → Page
  pool : BlockId → Option (Buffer Page)
  locks : LockState Int32
  nextTxNum : Int32
  pc : Int32 → Pc
  isNew : Bool
  recovered : Bool
  entries : List Entry

/-- `setInt` is the request for the lock and `write` the update behind it; `scan` is one turn
of a loop up to the lock of the undo, and `undo` its write. `append` writes the record at the
end of a call, when all buffers of the transaction are flushed, and `sync` flushes the log and
begins the release. -/
inductive Label
  | begin
  | setInt (t : Int32) (blk : BlockId) (offset val : Int32)
  | granted (t : Int32)
  | timeout (t : Int32)
  | write (t : Int32)
  | commit (t : Int32)
  | rollback (t : Int32)
  | recover (t : Int32)
  | scan (t : Int32)
  | undo (t : Int32)
  | append (t : Int32)
  | sync (t : Int32)
  | unlock (t : Int32) (blk : BlockId)
  | clear (t : Int32)
  | load (blk : BlockId) (lsn : ℤ)
  | flushBuffer (blk : BlockId)
  | evict (blk : BlockId)
  | crash
  deriving DecidableEq, Repr

/-- What a loop does with a record. -/
inductive Visit
  | stop
  | next (k : Scan)
  | undo (blk : BlockId) (offset val : Int32)
  deriving DecidableEq, Repr

/-- The body of the loop of `RecoveryMgr::doRollback`. These transactions log no strings. -/
def doRollback (t : Int32) (logRec : LogRecord Int32) : Option Visit :=
  if logRec.txNumber = some t then
    match logRec with
    | .start _ => some .stop
    | .setInt _ blk offset val => some (.undo blk offset val)
    | .setString _ _ _ _ => none
    | _ => some (.next .rollback)
  else some (.next .rollback)

/-- The body of the loop of `RecoveryMgr::doRecover`. -/
def doRecover (fin : List Int32) (logRec : LogRecord Int32) : Option Visit :=
  match logRec with
  | .checkpoint => some .stop
  | .commit t => some (.next (.recover (t :: fin)))
  | .rollback t => some (.next (.recover (t :: fin)))
  | .start _ => some (.next (.recover fin))
  | .setInt t blk offset val =>
      if t ∈ fin then some (.next (.recover fin)) else some (.undo blk offset val)
  | .setString t _ _ _ => if t ∈ fin then some (.next (.recover fin)) else none

namespace Scan

def visit (t : Int32) (logRec : LogRecord Int32) : Scan → Option Visit
  | rollback => doRollback t logRec
  | recover fin => doRecover fin logRec

/-- How the call of the loop ends. -/
def ends : Scan → End
  | rollback => .rollback
  | recover _ => .checkpoint

end Scan

namespace End

def logRec (t : Int32) : End → LogRecord Int32
  | commit => .commit t
  | rollback => .rollback t
  | checkpoint => .checkpoint

end End

namespace Db

/-- A database that does not exist before. -/
def new (B : BlockSize) (disk : BlockId → Page) : Option Db :=
  (LogMgr.new B []).toOption.map (fun log =>
    ⟨log, disk, fun _ => none, .new, 0, fun _ => .fresh, true, false, []⟩)

def setPc (s : Db) (t : Int32) (pc : Pc) : Db := { s with pc := Function.update s.pc t pc }

def setLocks (s : Db) (locks : LockState Int32) : Db := { s with locks := locks }

def setBuffer (s : Db) (blk : BlockId) (buf : Option (Buffer Page)) : Db :=
  { s with pool := Function.update s.pool blk buf }

/-- `writeToLog` of a record. -/
def append (B : BlockSize) (s : Db) (e : Entry) : Option (Db × ℤ) := do
  let bytes ← e.logRec.writeToLog.toOption
  let (log, lsn) ← (s.log.append B bytes).toOption
  some ({ s with log := log, entries := e :: s.entries }, lsn)

/-- The constructor of a transaction. The first one of a session that is not on a new
database recovers before anything else. -/
def begin (B : BlockSize) (s : Db) : Option Db :=
  if s.nextTxNum.toInt = 2147483647 then none
  else if s.nextTxNum = 0 ∨ s.recovered then do
    let t := s.nextTxNum + 1
    let (s, _) ← s.append B ⟨.start t, 0⟩
    let s := { s with nextTxNum := t, recovered := s.recovered || s.isNew }
    some (s.setPc t (if s.recovered then .ready else .starting))
  else none

/-- `Transaction::setInt` behind its lock, with `RecoveryMgr::setInt`. -/
def write (B : BlockSize) (s : Db) (t : Int32) : Option Db :=
  match s.pc t, (s.locks.mgrs t).pc with
  | .setInt blk offset val, .idle => do
    let buf ← s.pool blk
    let oldVal ← (buf.contents.getInt offset.toInt).toOption
    let (s, lsn) ← s.append B ⟨.setInt t blk offset oldVal, val⟩
    let page ← (buf.contents.setInt offset.toInt val).toOption
    let buf := { buf with contents := page }.setModified t.toInt lsn
    some ((s.setBuffer blk (some buf)).setPc t .ready)
  | _, _ => none

/-- `LogMgr::iterator` at the begin of a loop. -/
def startScan (B : BlockSize) (s : Db) (t : Int32) (k : Scan) : Option Db := do
  let (log, it) ← (s.log.iterator B).toOption
  some ({ s with log := log }.setPc t (.scanning k it))

/-- The next record of a loop, read and decoded, and what the loop does with it. -/
def visited (B : BlockSize) (s : Db) (t : Int32) : Option (Scan × Visit × LogIterator) :=
  match s.pc t with
  | .scanning k it =>
    if it.hasNext B then do
      let (bytes, it) ← (it.next B s.log.file).toOption
      let logRec ← (createLogRecord bytes).toOption.join
      let v ← k.visit t logRec
      some (k, v, it)
    else some (k, .stop, it)
  | _ => none

def scan (B : BlockSize) (s : Db) (t : Int32) : Option Db := do
  let (k, v, it) ← s.visited B t
  match v with
  | .stop => some (s.setPc t (.flushing k.ends))
  | .next k => some (s.setPc t (.scanning k it))
  | .undo blk offset val =>
    let locks ← s.locks.step (.xLock t blk)
    some ((s.setLocks locks).setPc t (.undoing k blk offset val it))

/-- `SetIntRecord::undo` behind its lock. The update is not logged, its LSN is -1. -/
def undo (s : Db) (t : Int32) : Option Db :=
  match s.pc t, (s.locks.mgrs t).pc with
  | .undoing k blk offset val it, .idle => do
    let buf ← s.pool blk
    let page ← (buf.contents.setInt offset.toInt val).toOption
    let buf := { buf with contents := page }.setModified t.toInt (-1)
    some ((s.setBuffer blk (some buf)).setPc t (.scanning k it))
  | _, _ => none

/-- What FileMgr has written, and a log manager on its log file. -/
def crash (B : BlockSize) (s : Db) : Option Db :=
  (LogMgr.new B s.log.file).toOption.map (fun log =>
    let unsaved := (s.log.latestLsn - s.log.lastSaveLsn).toNat
    ⟨log, s.disk, fun _ => none, .new, 0, fun _ => .fresh, false, false, s.entries.drop unsaved⟩)

def step (B : BlockSize) (s : Db) : Label → Option Db
  | .begin => s.begin B
  | .setInt t blk offset val =>
      match s.pc t with
      | .ready => do
        let locks ← s.locks.step (.xLock t blk)
        some ((s.setLocks locks).setPc t (.setInt blk offset val))
      | _ => none
  | .granted t => (s.locks.step (.granted t)).map s.setLocks
  | .timeout t =>
      -- the exception leaves `setInt`; out of an undo it ends the process
      match s.pc t with
      | .setInt _ _ _ => do
        let locks ← s.locks.step (.timeout t)
        some ((s.setLocks locks).setPc t .ready)
      | _ => none
  | .write t => s.write B t
  | .commit t =>
      match s.pc t with
      | .ready => some (s.setPc t (.flushing .commit))
      | _ => none
  | .rollback t =>
      match s.pc t with
      | .ready => s.startScan B t .rollback
      | _ => none
  | .recover t =>
      match s.pc t with
      | .starting => s.startScan B t (.recover [])
      | _ => none
  | .scan t => s.scan B t
  | .undo t => s.undo t
  | .append t =>
      match s.pc t with
      | .flushing e => do
        let (s, lsn) ← s.append B ⟨e.logRec t, 0⟩
        some (s.setPc t (.appended e lsn))
      | _ => none
  | .sync t =>
      match s.pc t with
      | .appended e lsn => do
        let locks ← s.locks.step (.release t)
        some (({ s with log := s.log.flush lsn }.setLocks locks).setPc t (.releasing e))
      | _ => none
  | .unlock t blk => (s.locks.step (.unlock t blk)).map s.setLocks
  | .clear t =>
      match s.pc t with
      | .releasing e => do
        let locks ← s.locks.step (.clear t)
        let s := { s with recovered := s.recovered || (e = End.checkpoint) }.setLocks locks
        some (s.setPc t (if e = End.checkpoint then .ready else .ended))
      | _ => none
  | .load blk lsn =>
      -- the buffer keeps the LSN of the block that it had before
      match s.pool blk with
      | none => some (s.setBuffer blk (some ⟨s.disk blk, blk, 0, -1, lsn⟩))
      | some _ => none
  | .flushBuffer blk => do
      let buf ← s.pool blk
      let (files, buf) := buf.flush ⟨s.log, s.disk⟩
      some ({ s with log := files.log, disk := files.disk }.setBuffer blk (some buf))
  | .evict blk => do
      let buf ← s.pool blk
      if buf.txnum ≥ 0 then none else some (s.setBuffer blk none)
  | .crash => s.crash B

/-- What `BufferMgr::flushAll` leaves behind. -/
def Flushed (s : Db) (t : Int32) : Prop :=
  ∀ blk buf, s.pool blk = some buf → buf.txnum ≠ t.toInt

def Step (B : BlockSize) (s : Db) (l : Label) (s' : Db) : Prop :=
  s.step B l = some s' ∧ (∀ t, l = .append t ∨ l = .recover t → s.Flushed t)

/-- The call on the lock manager that a step makes. -/
def lockCall (B : BlockSize) (s : Db) : Label → Option (LockLabel Int32)
  | .setInt t blk _ _ => some (.xLock t blk)
  | .scan t =>
      match s.visited B t with
      | some (_, .undo blk _ _, _) => some (.xLock t blk)
      | _ => none
  | .sync t => some (.release t)
  | _ => none

end Db

/-- The transaction goes on only with blocks that it was granted, and its log records fit
the log blocks. -/
def Proceeds (B : BlockSize) (s : Db) (l : Label) : Prop :=
  (∀ call, s.lockCall B l = some call → Matched s.locks call) ∧
    match l with
    | .setInt _ blk _ _ => blk.fileName.length + 32 ≤ B.bytes
    | _ => 16 ≤ B.bytes

end SampleDB.Recovery
