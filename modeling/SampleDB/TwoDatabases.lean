import Mathlib.Logic.Function.Basic
import SampleDB.Directory
import SampleDB.Programs
import SampleDB.Schemas
import SampleDB.SharedLocks

/-!
Two databases in one process. Files, buffers and log belong to a database; the lock table, the
numbers of transactions and of temporary tables, and the managers of MetaDataMgr are statics
of the process. A statement is any program that calls the operations of its transaction and
the managers; statements follow one another. The same operations on one database, with names
of its own for temporary tables and transactions, are the database by itself.
-/
namespace SampleDB.TwoDatabases

open Lexer Schemas SharedLocks Programs
open Locking (LockType)
open Directory (FileName tableFile tempName)

inductive Database
  | first
  | second
  deriving DecidableEq

def Database.other : Database → Database
  | .first => .second
  | .second => .first

/-- A file that a statement names, or the file of the i-th temporary table of its database. -/
inductive FileRef
  | file (fileName : FileName)
  | temp (i : ℕ)
  deriving DecidableEq

structure BlockId (F : Type) where
  file : F
  number : ℤ
  deriving DecidableEq

/-- A page has a value at each offset. -/
abbrev Page := ℕ → Constant

def blank : Page := fun _ => .ofInt 0

inductive LogRecord (F : Type)
  | start (txNum : ℕ)
  | setVal (txNum : ℕ) (blk : BlockId F) (offset : ℕ) (oldVal : Constant)
  | finish (txNum : ℕ)

/-- What a database has for itself: the files as its buffers show them, the log of this process
with the newest record first, and the rest, such as the buffer pool. -/
structure Store (F X : Type) where
  length : F → ℕ
  page : BlockId F → Page
  log : List (LogRecord F)
  rest : X

/-- The static managers of MetaDataMgr: StatMgr counts its calls, and its statistics are made
anew wherever there are any; IndexMgr has the layout of `idxcat`. -/
structure Managers (L : Type) where
  numCalls : ℕ
  tableStats : Name → Bool
  layout : Option L

inductive ManagerOp (L : Type)
  | create
  | setLayout (layout : L)
  | getLayout
  | countCall
  | find (tableName : Name)
  | store (tableName : Name)
  | clear

inductive Answer (A L : Type)
  | value (val : Constant)
  | number (n : ℕ)
  | flag (b : Bool)
  | layout (layout : Option L)
  | other (a : A)
  | done
  | deadlock

inductive FileOp
  | get (number : ℤ) (offset : ℕ)
  | set (number : ℤ) (offset : ℕ) (val : Constant) (okToLog : Bool)
  | size
  | append

inductive Op (X A L : Type)
  | file (ref : FileRef) (op : FileOp)
  | newTemp
  | manager (op : ManagerOp L)
  | rest (f : X → X × A)

/-- The number of a table's calls after which StatMgr makes its statistics anew. -/
def maxCalls : ℕ := 100

def Managers.new (L : Type) : Managers L := ⟨0, fun _ => false, none⟩

def Managers.apply {A L : Type} (m : Managers L) : ManagerOp L → Managers L × Answer A L
  | .create => (.new L, .done)
  | .setLayout layout => ({ m with layout := some layout }, .done)
  | .getLayout => (m, .layout m.layout)
  | .countCall => ({ m with numCalls := m.numCalls + 1 }, .flag (m.numCalls + 1 > maxCalls))
  | .find tableName => (m, .flag (m.tableStats tableName))
  | .store tableName =>
      ({ m with tableStats := Function.update m.tableStats tableName true }, .done)
  | .clear => ({ m with numCalls := 0, tableStats := fun _ => false }, .done)

namespace FileOp

/-- The block that is locked; the size of a file is locked as its block -1. -/
def number : FileOp → ℤ
  | get number _ => number
  | set number _ _ _ => number
  | size => -1
  | append => -1

def lock : FileOp → LockType
  | get _ _ => .S
  | set _ _ _ _ => .X
  | size => .S
  | append => .X

end FileOp

section Stores

variable {F X A L : Type} [DecidableEq F]

def write (page : BlockId F → Page) (blk : BlockId F) (offset : ℕ) (val : Constant) :
    BlockId F → Page :=
  Function.update page blk (Function.update (page blk) offset val)

/-- What an operation does once its lock is granted. -/
def Store.apply (st : Store F X) (txNum : ℕ) (file : F) : FileOp → Store F X × Answer A L
  | .get number offset => (st, .value (st.page ⟨file, number⟩ offset))
  | .set number offset val okToLog =>
      let blk := ⟨file, number⟩
      let log := if okToLog then .setVal txNum blk offset (st.page blk offset) :: st.log else st.log
      ({ st with log := log, page := write st.page blk offset val }, .done)
  | .size => (st, .number (st.length file))
  | .append =>
      ({ st with
        length := Function.update st.length file (st.length file + 1)
        page := Function.update st.page ⟨file, st.length file⟩ blank }, .number (st.length file))

/-- `doRollback`, over the records that the log iterator gives. -/
def undo (txNum : ℕ) : List (LogRecord F) → (BlockId F → Page) → BlockId F → Page
  | [], page => page
  | .start n :: records, page => if n = txNum then page else undo txNum records page
  | .setVal n blk offset oldVal :: records, page =>
      undo txNum records (if n = txNum then write page blk offset oldVal else page)
  | .finish _ :: records, page => undo txNum records page

def Store.append (st : Store F X) (record : LogRecord F) : Store F X :=
  { st with log := record :: st.log }

def Store.rollback (st : Store F X) (txNum : ℕ) : Store F X :=
  { st with page := undo txNum st.log st.page }

/-- The lock table, and the map of a manager, after a release. -/
def unlockAll (table : BlockId F → ℤ) (locks : BlockId F → Option LockType) : BlockId F → ℤ :=
  fun blk => Cell.release ⟨table blk, locks blk⟩

end Stores

/-- A transaction with the map of its concurrency manager. -/
structure Transaction where
  txNum : ℕ
  locks : BlockId FileName → Option LockType

def Transaction.new (txNum : ℕ) : Transaction := ⟨txNum, fun _ => none⟩

/-- The transactions that a database has begun, and the numbers of its temporary tables. -/
structure Engine (X : Type) where
  store : Store FileName X
  txs : List Transaction
  temps : List ℕ

/-- `own` is not in the source. It records for each database the managers that it would have
in a process without the other one. -/
structure Process (X L : Type) where
  lockTable : BlockId FileName → ℤ
  nextTxNum : ℕ
  nextTableNum : ℕ
  managers : Managers L
  engine : Database → Engine X
  own : Database → Managers L

inductive Action (X A L R : Type)
  | begin
  | statement (tx : ℕ) (prog : Prog (Op X A L) (Answer A L) R)
  | commit (tx : ℕ)
  | rollback (tx : ℕ)
  | destroy (tx : ℕ)

structure Event (X A L R : Type) where
  database : Database
  action : Action X A L R

def tempFile (n : ℕ) : FileName := tableFile (tempName n)

/-- The file of a reference, when the temporary tables have these numbers. -/
def fileName (temps : List ℕ) : FileRef → FileName
  | .file fileName => fileName
  | .temp i => tempFile (temps.getD i 0)

/-- The entries that the maps of managers have for a block. -/
def entriesAt {F : Type} (maps : List (BlockId F → Option LockType)) (blk : BlockId F) : Entries :=
  maps.map (fun locks => locks blk)

namespace Process

variable {X A L R : Type} (s : Process X L) (d : Database)

def fileName (ref : FileRef) : FileName := TwoDatabases.fileName (s.engine d).temps ref

def setEngine (e : Engine X) : Process X L := { s with engine := Function.update s.engine d e }

def setStore (st : Store FileName X) : Process X L := s.setEngine d { s.engine d with store := st }

def tx (i : ℕ) : Transaction := (s.engine d).txs.getD i (.new 0)

def setLocks (i : ℕ) (locks : BlockId FileName → Option LockType) : Process X L :=
  s.setEngine d { s.engine d with txs := (s.engine d).txs.set i { s.tx d i with locks := locks } }

def maps : List (BlockId FileName → Option LockType) := (s.engine d).txs.map Transaction.locks

/-- What the lock table and a transaction have for a block. -/
def cell (i : ℕ) (blk : BlockId FileName) : Cell := ⟨s.lockTable blk, (s.tx d i).locks blk⟩

def setCell (i : ℕ) (blk : BlockId FileName) (c : Cell) : Process X L :=
  { s.setLocks d i (Function.update (s.tx d i).locks blk c.entry) with
    lockTable := Function.update s.lockTable blk c.value }

/-- Transaction. -/
def access (i : ℕ) (ref : FileRef) (op : FileOp) : Process X L × Answer A L :=
  let blk := ⟨s.fileName d ref, op.number⟩
  let (c, granted) := Cell.request op.lock (s.cell d i blk)
  let s := s.setCell d i blk c
  if granted then
    let (st, answer) := (s.engine d).store.apply (s.tx d i).txNum (s.fileName d ref) op
    (s.setStore d st, answer)
  else (s, .deadlock)

def step (i : ℕ) : Op X A L → Process X L × Answer A L
  | .file ref op => s.access d i ref op
  | .newTemp =>
      let e := s.engine d
      ({ s.setEngine d { e with temps := e.temps ++ [s.nextTableNum + 1] } with
        nextTableNum := s.nextTableNum + 1 }, .number e.temps.length)
  | .manager op =>
      let (managers, answer) := s.managers.apply op
      ({ s with
          managers := managers
          own := Function.update s.own d ((s.own d).apply (A := A) op).1 }, answer)
  | .rest f =>
      let st := (s.engine d).store
      (s.setStore d { st with rest := (f st.rest).1 }, .other (f st.rest).2)

def release (i : ℕ) : Process X L :=
  { s.setLocks d i (fun _ => none) with lockTable := unlockAll s.lockTable (s.tx d i).locks }

/-- `RecoveryMgr` writes a start record. -/
def begin : Process X L :=
  let e := s.engine d
  { s.setEngine d { e with
      store := e.store.append (.start (s.nextTxNum + 1))
      txs := e.txs ++ [.new (s.nextTxNum + 1)] } with nextTxNum := s.nextTxNum + 1 }

def act (s : Process X L) (e : Event X A L R) : Process X L × Option R :=
  let d := e.database
  let n := (s.engine d).txs.length
  match e.action with
  | .begin => (s.begin d, none)
  | .statement i prog =>
      if i < n then
        let (s, r) := exec (fun s => s.step d i) prog s
        (s, some r)
      else (s, none)
  | .commit i =>
      if i < n then
        ((s.setStore d ((s.engine d).store.append (.finish (s.tx d i).txNum))).release d i, none)
      else (s, none)
  | .rollback i =>
      if i < n then
        let st := ((s.engine d).store.rollback (s.tx d i).txNum).append (.finish (s.tx d i).txNum)
        ((s.setStore d st).release d i, none)
      else (s, none)
  | .destroy i => if i < n then (s.release d i, none) else (s, none)

end Process

end SampleDB.TwoDatabases
