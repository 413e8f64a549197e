import SampleDB.Statements

/-!
The parser, a method for each nonterminal. The recursions of the source are on the
tokens that remain; here they are on their number. The parser does not look behind the
last token that it needs, and in `modify` it does not read the new value.
-/
namespace SampleDB.SqlParser

open Parsing Lexer Schemas Statements

def commaList {α : Type} (item : Parse α) : Parse (List α) := do
  listFrom item (matchDelimiter Word.comma) (eatDelimiter Word.comma) (← get).length

def fieldName : Parse Name := eatIdentifier

def selectList : Parse (List Name) := commaList fieldName

def fieldList : Parse (List Name) := commaList fieldName

/-- The clause that begins with GROUP or with ORDER. -/
def clauseFieldList (word : Token) : Parse (List Name) := do
  if matchKeyword word (← get) then
    eatKeyword word
    if matchKeyword Word.byWord (← get) then
      eatKeyword Word.byWord
      fieldList
    else return []
  else return []

def groupFieldList : Parse (List Name) := clauseFieldList Word.groupWord

def sortFieldList : Parse (List Name) := clauseFieldList Word.orderWord

variable (overflow : ℕ → Option Int32)

def constant : Parse Constant := do
  if matchKeyword Word.trueWord (← get) then
    eatKeyword Word.trueWord
    return .ofInt 1
  else if matchKeyword Word.falseWord (← get) then
    eatKeyword Word.falseWord
    return .ofInt 0
  else if matchString (← get) then
    return .ofString (← eatString)
  else
    return .ofInt (← eatInteger overflow)

def constantList : Parse (List Constant) := commaList (constant overflow)

def expression : Parse Expression := do
  if matchIdentifier (← get) then return .ofField (← fieldName)
  else return .ofConstant (← constant overflow)

def term : Parse Term := do
  let lhs ← expression overflow
  eatDelimiter Word.equalSign
  let rhs ← expression overflow
  return ⟨lhs, rhs⟩

def predicate : Parse Predicate := do
  listFrom (term overflow) (matchKeyword Word.andWord) (eatKeyword Word.andWord) (← get).length

/-- `WHERE` and a predicate, or nothing. -/
def wherePredicate : Parse Predicate := do
  if matchKeyword Word.whereWord (← get) then
    eatKeyword Word.whereWord
    predicate overflow
  else return []

/-- A table name, or a query in parentheses. -/
def tableItem (query : Parse QueryData) : Parse (QueryData ⊕ Name) := do
  if matchDelimiter Word.leftParen (← get) then
    eatDelimiter Word.leftParen
    let queryData ← query
    eatDelimiter Word.rightParen
    return .inl queryData
  else return .inr (← eatIdentifier)

def addTable (data : TableData) : QueryData ⊕ Name → TableData
  | .inl queryData => data.addQueryData queryData
  | .inr tableName => data.addTableName tableName

def tableList (query : Parse QueryData) : Parse TableData := do
  return (← commaList (tableItem query)).foldl addTable .empty

/-- A query that has at most `n` tokens. -/
def queryFrom : ℕ → Parse QueryData
  | 0 => fun _ => .error (.keyword Word.selectWord)
  | n + 1 => do
      eatKeyword Word.selectWord
      let fields ← selectList
      eatKeyword Word.fromWord
      let tableData ← tableList (queryFrom n)
      let pred ← wherePredicate overflow
      let groupFields ← groupFieldList
      let sortFields ← sortFieldList
      return .mk fields tableData.tables tableData.queryData pred groupFields sortFields

def query : Parse QueryData := do queryFrom overflow (← get).length

def remove : Parse DeleteData := do
  eatKeyword Word.deleteWord
  eatKeyword Word.fromWord
  let tableName ← eatIdentifier
  let pred ← wherePredicate overflow
  return ⟨tableName, pred⟩

def insert : Parse InsertData := do
  eatKeyword Word.insertWord
  eatKeyword Word.intoWord
  let tableName ← eatIdentifier
  eatDelimiter Word.leftParen
  let fields ← fieldList
  eatDelimiter Word.rightParen
  eatKeyword Word.valuesWord
  eatDelimiter Word.leftParen
  let values ← constantList overflow
  eatDelimiter Word.rightParen
  return ⟨tableName, fields, values⟩

/-- The new value stays the null expression. -/
def modify : Parse ModifyData := do
  eatKeyword Word.updateWord
  let tableName ← eatIdentifier
  eatKeyword Word.setWord
  let fdName ← fieldName
  eatDelimiter Word.equalSign
  let pred ← wherePredicate overflow
  return ⟨tableName, fdName, .null, pred⟩

def fieldType (fieldName : Name) : Parse Schema := do
  if matchKeyword Word.intWord (← get) then
    eatKeyword Word.intWord
    return Schema.empty.addIntField fieldName
  else if matchKeyword Word.boolWord (← get) then
    eatKeyword Word.boolWord
    return Schema.empty.addBoolField fieldName
  else
    eatKeyword Word.varcharWord
    eatDelimiter Word.leftParen
    let stringLength ← eatInteger overflow
    eatDelimiter Word.rightParen
    return Schema.empty.addStringField fieldName stringLength

def fieldDefinition : Parse Schema := do
  let fdName ← fieldName
  fieldType overflow fdName

/-- The schema of the first definition with all fields of the others. -/
def addSchemas : List Schema → Schema
  | [] => .empty
  | [schema] => schema
  | schema :: schemas => schema.addAll (addSchemas schemas)

def fieldDefinitionList : Parse Schema := do
  return addSchemas (← commaList (fieldDefinition overflow))

def createTable : Parse CreateTableData := do
  eatKeyword Word.tableWord
  let tableName ← eatIdentifier
  eatDelimiter Word.leftParen
  let schema ← fieldDefinitionList overflow
  eatDelimiter Word.rightParen
  return ⟨tableName, schema⟩

def createView : Parse CreateViewData := do
  eatKeyword Word.viewWord
  let viewName ← eatIdentifier
  eatKeyword Word.asWord
  let queryData ← query overflow
  return ⟨viewName, queryData⟩

def createIndex : Parse CreateIndexData := do
  eatKeyword Word.indexWord
  let indexName ← eatIdentifier
  eatKeyword Word.onWord
  let tableName ← eatIdentifier
  eatDelimiter Word.leftParen
  let fdName ← fieldName
  eatDelimiter Word.rightParen
  return ⟨indexName, tableName, fdName⟩

def create : Parse Command := do
  eatKeyword Word.createWord
  if matchKeyword Word.tableWord (← get) then return .createTable (← createTable overflow)
  else if matchKeyword Word.viewWord (← get) then return .createView (← createView overflow)
  else return .createIndex (← createIndex)

def updateCmd : Parse Command := do
  if matchKeyword Word.insertWord (← get) then return .insert (← insert overflow)
  else if matchKeyword Word.deleteWord (← get) then return .delete (← remove overflow)
  else if matchKeyword Word.updateWord (← get) then return .modify (← modify overflow)
  else create overflow

/-- What a parser made of a text returns; the tokens that remain are not looked at. -/
def parse {α : Type} (p : Parse α) (text : Text) : Except ParseError α :=
  (p (tokens text)).map Prod.fst

end SampleDB.SqlParser
