import SampleDB.Locking
import SampleDB.LogRecords

/-!
Transactions that read and write integers of pinned blocks under the block locks.
The steps of different transactions interleave: the requests for locks, the page
reads and writes, the undo of one log record after another, and the unlocking. A page
here is the contents of the buffer in which the block is pinned, and the log is the
list of its records.
-/
namespace SampleDB.Transactions

open Words Pages Blocks LogRecords Locking

/-- An access to a page, with the value that was read or is written. -/
inductive PageOp
  | read (blk : BlockId) (offset val : Int32)
  | write (blk : BlockId) (offset val : Int32)
  deriving DecidableEq, Repr

namespace PageOp

def blk : PageOp → BlockId
  | read blk _ _ => blk
  | write blk _ _ => blk

/-- The page behind the access. A read has to find its value. -/
def act : PageOp → Page → Option Page
  | read _ offset val, p => if (p.getInt offset.toInt).toOption = some val then some p else none
  | write _ offset val, p => (p.setInt offset.toInt val).toOption

end PageOp

/-- Where a transaction stands; `getInt` and `setInt` before the page is accessed, and the
log records that a rollback has not come to yet. -/
inductive TxPc (Tx : Type)
  | fresh
  | ready
  | getInt (blk : BlockId) (offset : Int32)
  | setInt (blk : BlockId) (offset val : Int32)
  | rolling (rest : List (LogRecord Tx))
  | undoing (blk : BlockId) (offset val : Int32) (rest : List (LogRecord Tx))
  | ending
  | ended

/-- `log` has the newest record first. `ops` and `committed` are not in the source: they
record the accesses of each transaction and the order of the COMMIT records. -/
structure TxState (Tx : Type) where
  locks : LockState Tx
  pages : BlockId → Page
  log : List (LogRecord Tx)
  pc : Tx → TxPc Tx
  ops : Tx → List PageOp
  committed : List Tx

/-- `getInt` and `setInt` are the requests for the locks, `read` and `write` the accesses
behind them. `rolledBack` is the end of the undo, and the COMMIT record is written with
`commit`, the ROLLBACK record with `rolledBack`. -/
inductive TxLabel (Tx : Type)
  | begin (t : Tx)
  | getInt (t : Tx) (blk : BlockId) (offset : Int32)
  | setInt (t : Tx) (blk : BlockId) (offset val : Int32)
  | granted (t : Tx)
  | read (t : Tx)
  | write (t : Tx)
  | commit (t : Tx)
  | rollback (t : Tx)
  | undo (t : Tx)
  | undoWrite (t : Tx)
  | rolledBack (t : Tx)
  | unlock (t : Tx) (blk : BlockId)
  | clear (t : Tx)
  deriving DecidableEq

namespace TxState

variable {Tx : Type} [DecidableEq Tx]

def new (log : List (LogRecord Tx)) (pages : BlockId → Page) : TxState Tx :=
  ⟨.new, pages, log, fun _ => .fresh, fun _ => [], []⟩

def setPc (s : TxState Tx) (t : Tx) (pc : TxPc Tx) : TxState Tx :=
  { s with pc := Function.update s.pc t pc }

def setLocks (s : TxState Tx) (locks : LockState Tx) : TxState Tx := { s with locks := locks }

def append (s : TxState Tx) (logRec : LogRecord Tx) : TxState Tx :=
  { s with log := logRec :: s.log }

def setPage (s : TxState Tx) (blk : BlockId) (p : Page) : TxState Tx :=
  { s with pages := Function.update s.pages blk p }

def addOp (s : TxState Tx) (t : Tx) (op : PageOp) : TxState Tx :=
  { s with ops := Function.update s.ops t (s.ops t ++ [op]) }

def addCommitted (s : TxState Tx) (t : Tx) : TxState Tx :=
  { s with committed := s.committed ++ [t] }

/-- `SetIntRecord::undo` as far as the lock, for a record of this transaction; the records
of other transactions are passed over. These transactions log no strings. -/
def undo (s : TxState Tx) (t : Tx) (logRec : LogRecord Tx) (rest : List (LogRecord Tx)) :
    Option (TxState Tx) :=
  if logRec.txNumber = some t then
    match logRec with
    | .start _ => some (s.setPc t (.rolling []))
    | .setInt _ blk offset val =>
      (s.locks.step (.xLock t blk)).map
        (fun locks => (s.setLocks locks).setPc t (.undoing blk offset val rest))
    | .setString _ _ _ _ => none
    | _ => some (s.setPc t (.rolling rest))
  else some (s.setPc t (.rolling rest))

def step (s : TxState Tx) : TxLabel Tx → Option (TxState Tx)
  | .begin t =>
      match s.pc t with
      | .fresh => some ((s.append (.start t)).setPc t .ready)
      | _ => none
  | .getInt t blk offset =>
      match s.pc t with
      | .ready =>
        (s.locks.step (.sLock t blk)).map
          (fun locks => (s.setLocks locks).setPc t (.getInt blk offset))
      | _ => none
  | .setInt t blk offset val =>
      match s.pc t with
      | .ready =>
        (s.locks.step (.xLock t blk)).map
          (fun locks => (s.setLocks locks).setPc t (.setInt blk offset val))
      | _ => none
  | .granted t => (s.locks.step (.granted t)).map s.setLocks
  | .read t =>
      match s.pc t, (s.locks.mgrs t).pc with
      | .getInt blk offset, .idle =>
        ((s.pages blk).getInt offset.toInt).toOption.map
          (fun val => (s.addOp t (.read blk offset val)).setPc t .ready)
      | _, _ => none
  | .write t =>
      match s.pc t, (s.locks.mgrs t).pc with
      | .setInt blk offset val, .idle => do
        let oldVal ← ((s.pages blk).getInt offset.toInt).toOption
        let page ← ((s.pages blk).setInt offset.toInt val).toOption
        let s := s.append (.setInt t blk offset oldVal)
        some (((s.setPage blk page).addOp t (.write blk offset val)).setPc t .ready)
      | _, _ => none
  | .commit t =>
      match s.pc t with
      | .ready =>
        (s.locks.step (.release t)).map
          (fun locks => (((s.append (.commit t)).addCommitted t).setLocks locks).setPc t .ending)
      | _ => none
  | .rollback t =>
      match s.pc t with
      | .ready => some (s.setPc t (.rolling s.log))
      | _ => none
  | .undo t =>
      match s.pc t with
      | .rolling (logRec :: rest) => s.undo t logRec rest
      | _ => none
  | .undoWrite t =>
      match s.pc t, (s.locks.mgrs t).pc with
      | .undoing blk offset val rest, .idle =>
        ((s.pages blk).setInt offset.toInt val).toOption.map
          (fun page => (s.setPage blk page).setPc t (.rolling rest))
      | _, _ => none
  | .rolledBack t =>
      match s.pc t with
      | .rolling [] =>
        (s.locks.step (.release t)).map
          (fun locks => ((s.append (.rollback t)).setLocks locks).setPc t .ending)
      | _ => none
  | .unlock t blk =>
      match s.pc t with
      | .ending => (s.locks.step (.unlock t blk)).map s.setLocks
      | _ => none
  | .clear t =>
      match s.pc t with
      | .ending =>
        (s.locks.step (.clear t)).map (fun locks => (s.setLocks locks).setPc t .ended)
      | _ => none

end TxState

end SampleDB.Transactions
