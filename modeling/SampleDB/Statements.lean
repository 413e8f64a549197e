import SampleDB.Schemas

/-!
What the parser makes of a command: expressions, terms and predicates, queries with
their subqueries, and the update commands. The tables of a query are a set of names,
kept in order.
-/
namespace SampleDB.Statements

open Lexer Schemas

/-- A constant, or a field name where the constant is null. -/
structure Expression where
  value : Constant
  fieldName : Name
  deriving DecidableEq, Repr

namespace Expression

/-- The default constructor. -/
def null : Expression := ⟨.null, []⟩

def ofConstant (value : Constant) : Expression := ⟨value, []⟩

def ofField (fieldName : Name) : Expression := ⟨.null, fieldName⟩

def toString (e : Expression) : Text :=
  if e.value.isNull then e.fieldName else e.value.toString

end Expression

structure Term where
  lhs : Expression
  rhs : Expression
  deriving DecidableEq, Repr

def Term.toString (t : Term) : Text := t.lhs.toString ++ '=' :: t.rhs.toString

abbrev Predicate := List Term

/-- `std::set<std::string>::insert`. -/
def insertName (name : Name) : List Name → List Name
  | [] => [name]
  | n :: names =>
      if name < n then name :: n :: names
      else if name = n then n :: names
      else n :: insertName name names

inductive QueryData
  | mk (fields tables : List Name) (queryTables : List QueryData) (predicate : Predicate)
    (groupFields sortFields : List Name)

structure TableData where
  tables : List Name
  queryData : List QueryData

namespace TableData

def empty : TableData := ⟨[], []⟩

def addTableName (data : TableData) (tableName : Name) : TableData :=
  { data with tables := insertName tableName data.tables }

def addQueryData (data : TableData) (q : QueryData) : TableData :=
  { data with queryData := data.queryData ++ [q] }

end TableData

structure InsertData where
  tableName : Name
  fieldNames : List Name
  values : List Constant

structure DeleteData where
  tableName : Name
  predicate : Predicate

structure ModifyData where
  tableName : Name
  targetField : Name
  newValue : Expression
  predicate : Predicate

structure CreateTableData where
  tableName : Name
  newSchema : Schema

structure CreateViewData where
  viewName : Name
  queryData : QueryData

structure CreateIndexData where
  indexName : Name
  tableName : Name
  fieldName : Name

/-- What `updateCmd` returns. -/
inductive Command
  | insert (data : InsertData)
  | delete (data : DeleteData)
  | modify (data : ModifyData)
  | createTable (data : CreateTableData)
  | createView (data : CreateViewData)
  | createIndex (data : CreateIndexData)

section Sets

end Sets

end SampleDB.Statements
