import SampleDB.Rollback
import SampleDB.Transactions

/-!
Transactions that end in one of three ways: by a commit, by a rollback, or by being
destroyed unfinished, which releases the locks and leaves the pages as they are. They read
and write integers and strings; a write need not be logged. The steps of different
transactions interleave, and no request for a lock times out.
-/
namespace SampleDB.Endings

open Words Pages Blocks LogRecords Locking Rollback

/-- The call that reads a location. -/
inductive Kind
  | int
  | string
  deriving DecidableEq, Repr

def kind : Value → Kind
  | .int _ => .int
  | .string _ => .string

structure Location where
  blk : BlockId
  offset : Int32
  kind : Kind
  deriving DecidableEq, Repr

def get (p : Page) (offset : Int32) : Kind → Result Value
  | .int => do return .int (← p.getInt offset.toInt)
  | .string => do return .string (← p.getString offset.toInt)

def set (p : Page) (offset : Int32) : Value → Result Page
  | .int n => p.setInt offset.toInt n
  | .string s => p.setString offset.toInt s

/-- The log record of an update, by the value that it found. -/
def record {Tx : Type} (t : Tx) (blk : BlockId) (offset : Int32) : Value → LogRecord Tx
  | .int n => .setInt t blk offset n
  | .string s => .setString t blk offset s

/-- The update that a record undoes, with the value as the log gives it back: an old string
of one to three bytes stops the reader of the log, a longer one comes back empty. -/
def undone {Tx : Type} : LogRecord Tx → Option (BlockId × Int32 × Value)
  | .setInt _ blk offset n => some (blk, offset, .int n)
  | .setString _ blk offset s =>
      if s = [] ∨ 4 ≤ s.length then some (blk, offset, .string []) else none
  | _ => none

/-- Where a transaction stands; `get` and `set` before the page is accessed, and the log
records that a rollback has not come to yet. -/
inductive TxPc (Tx : Type)
  | fresh
  | ready
  | get (loc : Location)
  | set (blk : BlockId) (offset : Int32) (val : Value) (okToLog : Bool)
  | rolling (rest : List (LogRecord Tx))
  | undoing (blk : BlockId) (offset : Int32) (val : Value) (rest : List (LogRecord Tx))
  | ending
  | ended

/-- A write, with the value that it found where it is logged. -/
structure Update (Tx : Type) where
  txNum : Tx
  blk : BlockId
  offset : Int32
  val : Value
  old : Option Value
  deriving DecidableEq

def Update.location {Tx : Type} (u : Update Tx) : Location := ⟨u.blk, u.offset, kind u.val⟩

/-- `log` and `updates` have the newest first. `updates` and `committed` are not in the
source. -/
structure TxState (Tx : Type) where
  locks : LockState Tx
  pages : BlockId → Page
  log : List (LogRecord Tx)
  pc : Tx → TxPc Tx
  updates : List (Update Tx)
  committed : List Tx

/-- `get` and `set` are the requests for the locks, `read` and `write` the accesses behind
them; `destroy` is the destructor of a transaction that is not finished. -/
inductive TxLabel (Tx : Type)
  | begin (t : Tx)
  | get (t : Tx) (loc : Location)
  | set (t : Tx) (blk : BlockId) (offset : Int32) (val : Value) (okToLog : Bool)
  | granted (t : Tx)
  | read (t : Tx)
  | write (t : Tx)
  | commit (t : Tx)
  | rollback (t : Tx)
  | undo (t : Tx)
  | undoWrite (t : Tx)
  | rolledBack (t : Tx)
  | destroy (t : Tx)
  | unlock (t : Tx) (blk : BlockId)
  | clear (t : Tx)

namespace TxState

variable {Tx : Type} [DecidableEq Tx]

def new (log : List (LogRecord Tx)) (pages : BlockId → Page) : TxState Tx :=
  ⟨.new, pages, log, fun _ => .fresh, [], []⟩

def setPc (s : TxState Tx) (t : Tx) (pc : TxPc Tx) : TxState Tx :=
  { s with pc := Function.update s.pc t pc }

def setLocks (s : TxState Tx) (locks : LockState Tx) : TxState Tx := { s with locks := locks }

def append (s : TxState Tx) (logRec : LogRecord Tx) : TxState Tx :=
  { s with log := logRec :: s.log }

def setPage (s : TxState Tx) (blk : BlockId) (p : Page) : TxState Tx :=
  { s with pages := Function.update s.pages blk p }

def addUpdate (s : TxState Tx) (u : Update Tx) : TxState Tx := { s with updates := u :: s.updates }

def addCommitted (s : TxState Tx) (t : Tx) : TxState Tx := { s with committed := t :: s.committed }

/-- `setInt` and `setString` behind the lock. Only a logged update reads the old value. -/
def write (s : TxState Tx) (t : Tx) (blk : BlockId) (offset : Int32) (val : Value) :
    Bool → Option (TxState Tx)
  | true => do
      let old ← (Endings.get (s.pages blk) offset (kind val)).toOption
      let page ← (Endings.set (s.pages blk) offset val).toOption
      return ((s.append (record t blk offset old)).setPage blk page).addUpdate
        ⟨t, blk, offset, val, some old⟩
  | false => do
      let page ← (Endings.set (s.pages blk) offset val).toOption
      return (s.setPage blk page).addUpdate ⟨t, blk, offset, val, none⟩

/-- One record of `doRollback`, as far as the lock. -/
def undo (s : TxState Tx) (t : Tx) (logRec : LogRecord Tx) (rest : List (LogRecord Tx)) :
    Option (TxState Tx) :=
  if logRec.txNumber = some t then
    match logRec with
    | .start _ => some (s.setPc t (.rolling []))
    | .setInt _ _ _ _ | .setString _ _ _ _ => do
        let (blk, offset, val) ← undone logRec
        let locks ← s.locks.step (.xLock t blk)
        return (s.setLocks locks).setPc t (.undoing blk offset val rest)
    | _ => some (s.setPc t (.rolling rest))
  else some (s.setPc t (.rolling rest))

def step (s : TxState Tx) : TxLabel Tx → Option (TxState Tx)
  | .begin t =>
      match s.pc t with
      | .fresh => some ((s.append (.start t)).setPc t .ready)
      | _ => none
  | .get t loc =>
      match s.pc t with
      | .ready =>
        (s.locks.step (.sLock t loc.blk)).map
          (fun locks => (s.setLocks locks).setPc t (.get loc))
      | _ => none
  | .set t blk offset val okToLog =>
      match s.pc t with
      | .ready =>
        (s.locks.step (.xLock t blk)).map
          (fun locks => (s.setLocks locks).setPc t (.set blk offset val okToLog))
      | _ => none
  | .granted t => (s.locks.step (.granted t)).map s.setLocks
  | .read t =>
      match s.pc t, (s.locks.mgrs t).pc with
      | .get loc, .idle =>
        (Endings.get (s.pages loc.blk) loc.offset loc.kind).toOption.map (fun _ => s.setPc t .ready)
      | _, _ => none
  | .write t =>
      match s.pc t, (s.locks.mgrs t).pc with
      | .set blk offset val okToLog, .idle =>
        (s.write t blk offset val okToLog).map (fun s => s.setPc t .ready)
      | _, _ => none
  | .commit t =>
      match s.pc t with
      | .ready =>
        (s.locks.step (.release t)).map
          (fun locks => (((s.append (.commit t)).addCommitted t).setLocks locks).setPc t .ending)
      | _ => none
  | .rollback t =>
      match s.pc t with
      | .ready => some (s.setPc t (.rolling s.log))
      | _ => none
  | .undo t =>
      match s.pc t with
      | .rolling (logRec :: rest) => s.undo t logRec rest
      | _ => none
  | .undoWrite t =>
      match s.pc t, (s.locks.mgrs t).pc with
      | .undoing blk offset val rest, .idle =>
        (Endings.set (s.pages blk) offset val).toOption.map
          (fun page => (s.setPage blk page).setPc t (.rolling rest))
      | _, _ => none
  | .rolledBack t =>
      match s.pc t with
      | .rolling [] =>
        (s.locks.step (.release t)).map
          (fun locks => ((s.append (.rollback t)).setLocks locks).setPc t .ending)
      | _ => none
  | .destroy t =>
      match s.pc t with
      | .ready | .get _ | .set _ _ _ _ | .rolling _ | .undoing _ _ _ _ =>
        (s.locks.step (.release t)).map (fun locks => (s.setLocks locks).setPc t .ending)
      | _ => none
  | .unlock t blk =>
      match s.pc t with
      | .ending => (s.locks.step (.unlock t blk)).map s.setLocks
      | _ => none
  | .clear t =>
      match s.pc t with
      | .ending =>
        (s.locks.step (.clear t)).map (fun locks => (s.setLocks locks).setPc t .ended)
      | _ => none

/-- The value that `read` returns. -/
def Returns (s : TxState Tx) (t : Tx) (loc : Location) (val : Value) : Prop :=
  s.pc t = .get loc ∧ (s.locks.mgrs t).pc = .idle ∧
    Endings.get (s.pages loc.blk) loc.offset loc.kind = .ok val

end TxState

end SampleDB.Endings
