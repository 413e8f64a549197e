import SampleDB.UpdatePlanner

/-!
Statements on a connection. What the update planner and the transactions do is given by
an engine, whose calls may change the database and then not return. A statement that
meets an exception rolls back; the exception that it builds there is not thrown.
-/
namespace SampleDB.SqlStatements

open Lexer Statements SqlParser Pages

/-- The calls of the update planner and of the transactions, by the number of the transaction.
The database that a call leaves is also known where it does not return. -/
structure Engine (S : Type) where
  executeInsert : InsertData → ℕ → S → Result ℕ × S
  executeDelete : DeleteData → ℕ → S → Result ℕ × S
  executeModify : ModifyData → ℕ → S → Result ℕ × S
  executeCreateTable : CreateTableData → ℕ → S → Result ℕ × S
  executeCreateView : CreateViewData → ℕ → S → Result ℕ × S
  executeCreateIndex : CreateIndexData → ℕ → S → Result ℕ × S
  commit : ℕ → S → Result Unit × S
  rollback : ℕ → S → Result Unit × S
  newTransaction : S → Result ℕ × S

structure Connection (S : Type) where
  db : S
  transaction : ℕ

variable {S C : Type} (overflow : ℕ → Option Int32) (e : Engine S)

/-- `Planner::executeUpdate`. -/
def plannerExecuteUpdate (update : Text) (tx : ℕ) (db : S) : Result ℕ × S :=
  match parse (updateCmd overflow) update with
  | .error _ => (.error .exception, db)
  | .ok (.insert data) => e.executeInsert data tx db
  | .ok (.delete data) => e.executeDelete data tx db
  | .ok (.modify data) => e.executeModify data tx db
  | .ok (.createTable data) => e.executeCreateTable data tx db
  | .ok (.createView data) => e.executeCreateView data tx db
  | .ok (.createIndex data) => e.executeCreateIndex data tx db

namespace Connection

/-- A transaction that has ended is replaced by a new one. -/
def renew (conn : Connection S) : Result Unit × S → Result Unit × Connection S
  | (.error f, db) => (.error f, { conn with db := db })
  | (.ok (), db) =>
      match e.newTransaction db with
      | (.error f, db) => (.error f, { conn with db := db })
      | (.ok tx, db) => (.ok (), ⟨db, tx⟩)

def commit (conn : Connection S) : Result Unit × Connection S :=
  conn.renew e (e.commit conn.transaction conn.db)

def rollback (conn : Connection S) : Result Unit × Connection S :=
  conn.renew e (e.rollback conn.transaction conn.db)

end Connection

/-- The handler of `executeUpdate`. -/
def handle (conn : Connection S) : Result ℕ × Connection S :=
  match conn.rollback e with
  | (.ok (), conn) => (.ok 0, conn)
  | (.error f, conn) => (.error f, conn)

/-- `Statement::executeUpdate`; only an exception is caught. -/
def executeUpdate (cmd : Text) (conn : Connection S) : Result ℕ × Connection S :=
  match plannerExecuteUpdate overflow e cmd conn.transaction conn.db with
  | (.error .exception, db) => handle e { conn with db := db }
  | (.error f, db) => (.error f, { conn with db := db })
  | (.ok result, db) =>
    match ({ conn with db := db } : Connection S).commit e with
    | (.ok (), conn) => (.ok result, conn)
    | (.error .exception, conn) => handle e conn
    | (.error f, conn) => (.error f, conn)

section Calls

variable {overflow e} {cmd : Text} {conn conn' : Connection S} {db : S}

end Calls

section Records

open Blocks UpdatePlanner

/-- A database of records, with its contents at the start of the current transaction. -/
structure Session where
  current : Db
  saved : Db
  nextTxNum : ℕ

/-- What a command that succeeds makes of the records. -/
def Session.run (s : Session) : Result (ℕ × Db) → Result ℕ × Session
  | .ok (n, db) => (.ok n, { s with current := db })
  | .error f => (.error f, s)

end Records

end SampleDB.SqlStatements
