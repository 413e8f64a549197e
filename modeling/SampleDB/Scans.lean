import SampleDB.UpdatePlanner

/-!
Scans as states of their objects. The leaves of a scan are open tables; SortScan merges two
of them, and GroupByScan is one record ahead of the group that it is on. The loops of a call
have so many rounds; a call that needs more ends in `outside`, as does a null pointer that
is followed.
-/
namespace SampleDB.Scans

open Lexer Schemas Statements Pages TableScans UpdatePlanner

section Constants

/-- `operator<` and `operator>`: the left side decides which of the two is compared. -/
def compareBy (onInts : Int32 → Int32 → Bool) (onStrings : Text → Text → Bool)
    (lhs rhs : Constant) : Result Bool :=
  match lhs.ival with
  | some n => match rhs.ival with
    | some m => .ok (onInts n m)
    | none => .error .outside
  | none => match lhs.sval, rhs.sval with
    | some s, some s' => .ok (onStrings s s')
    | _, _ => .error .outside

def constantLt : Constant → Constant → Result Bool := compareBy (· < ·) (· < ·)

def constantGt : Constant → Constant → Result Bool :=
  compareBy (fun n m => m < n) (fun s s' => s' < s)

/-- `operator=`; a pointer that is null on the right side keeps its value. -/
def assign (c other : Constant) : Constant := ⟨other.ival.or c.ival, other.sval.or c.sval⟩

/-- `operator+=`; the sum wraps, and strings stay as they are. -/
def addAssign (lhs rhs : Constant) : Result Constant :=
  match lhs.ival with
  | some n => match rhs.ival with
    | some m => .ok { lhs with ival := some (n + m) }
    | none => .error .outside
  | none => .ok lhs

end Constants

section Predicates

variable (read : Name → Result Constant)

def evaluateBy (e : Expression) : Result Constant :=
  if e.value.isNull then read e.fieldName else .ok e.value

def satisfiesTerm (t : Term) : Result Bool := do
  constantEq (← evaluateBy read t.lhs) (← evaluateBy read t.rhs)

/-- `Predicate::isSatisfied`, by the values that the scan gives. -/
def satisfies : Predicate → Result Bool
  | [] => .ok true
  | t :: terms => do
      if ← satisfiesTerm read t then satisfies terms else return false

/-- `RecordComparator::compare`. -/
def compare (read read' : Name → Result Constant) : List Name → Result Int
  | [] => .ok 0
  | fieldName :: sortFields => do
      let c₁ ← read fieldName
      let c₂ ← read' fieldName
      if ← constantLt c₁ c₂ then return -1
      else if ← constantGt c₁ c₂ then return 1
      else compare read read' sortFields

end Predicates

section Aggregation

def maxWord : Text := "max".toList
def minWord : Text := "min".toList
def sumWord : Text := "sum".toList
def countWord : Text := "count".toList

inductive AggregationFn
  | max (fieldName : Name)
  | min (fieldName : Name)
  | sum (fieldName : Name)
  | count
  deriving DecidableEq, Repr

namespace AggregationFn

/-- The name of the result. -/
def fieldName : AggregationFn → Name
  | .max f => maxWord ++ f
  | .min f => minWord ++ f
  | .sum f => sumWord ++ f
  | .count => countWord

/-- The field whose values are aggregated. -/
def source : AggregationFn → Option Name
  | .max f => some f
  | .min f => some f
  | .sum f => some f
  | .count => none

/-- The value of a new object. -/
def start : AggregationFn → Constant
  | .count => .ofInt 0
  | _ => .null

variable (read : Name → Result Constant)

def processFirst : AggregationFn → Constant → Result Constant
  | .max f, value => do return assign value (← read f)
  | .min f, value => do return assign value (← read f)
  | .sum f, value => do return assign value (← read f)
  | .count, _ => .ok (.ofInt 1)

def processNext : AggregationFn → Constant → Result Constant
  | .max f, value => do
      let newValue ← read f
      if ← constantGt newValue value then return assign value newValue else return value
  | .min f, value => do
      let newValue ← read f
      if ← constantLt newValue value then return assign value newValue else return value
  | .sum f, value => do addAssign value (← read f)
  | .count, value => .ok (.ofInt (value.ival.getD 0 + 1))

end AggregationFn

/-- Aggregation functions with their values. -/
abbrev Aggregates := List (AggregationFn × Constant)

/-- All functions take a record in. -/
def processAll (process : AggregationFn → Constant → Result Constant) :
    Aggregates → Result Aggregates
  | [] => .ok []
  | (fn, value) :: aggFns => do
      let value ← process fn value
      return (fn, value) :: (← processAll process aggFns)

/-- The values of the group fields, by their names. -/
abbrev GroupValue := List (Name × Constant)

def groupValue (read : Name → Result Constant) : List Name → Result GroupValue
  | [] => .ok []
  | fieldName :: groupFields => do
      let value ← read fieldName
      return (fieldName, value) :: (← groupValue read groupFields)

/-- `operator==` of group values. -/
def groupEq : GroupValue → GroupValue → Result Bool
  | [], _ => .ok true
  | (fieldName, value) :: gv₁, gv₂ =>
      match gv₂.lookup fieldName with
      | some value' => do
          if ← constantEq value' value then groupEq gv₁ gv₂ else return false
      | none => .ok false

end Aggregation

/-- A TableScan with its layout. -/
structure OpenTable where
  schema : Schema
  form : Form Row
  ts : TableScan Row

namespace OpenTable

def hasField (t : OpenTable) (fieldName : Name) : Bool := t.schema.hasField fieldName

def getValue (t : OpenTable) (fieldName : Name) : Result Constant :=
  match t.schema.fieldInfo fieldName with
  | none => .error .exception
  | some _ => do
      let (_, slot) ← t.ts.get t.form
      return slot.row fieldName

def beforeFirst (t : OpenTable) : OpenTable := { t with ts := t.ts.beforeFirst }

def next (t : OpenTable) : Bool × OpenTable :=
  let (found, ts) := t.ts.next t.form
  (found, { t with ts := ts })

def insert (t : OpenTable) : OpenTable := { t with ts := t.ts.insert t.form }

def setValue (t : OpenTable) (fieldName : Name) (val : Constant) : Result OpenTable := do
  let (i, slot) ← t.ts.get t.form
  let row ← UpdatePlanner.setValue t.schema slot.row fieldName val
  return { t with ts := t.ts.setSlot i { slot with row := row } }

end OpenTable

inductive Side
  | first
  | second
  deriving DecidableEq, Repr

/-- A second run need not be there. -/
structure SortScan where
  sortFields : List Name
  s₁ : OpenTable
  hasMore₁ : Bool
  s₂ : Option OpenTable
  hasMore₂ : Bool
  current : Option Side

namespace SortScan

def currentScan (s : SortScan) : Option OpenTable :=
  match s.current with
  | some .first => some s.s₁
  | some .second => s.s₂
  | none => none

def getValue (s : SortScan) (fieldName : Name) : Result Constant :=
  match s.currentScan with
  | some t => t.getValue fieldName
  | none => .error .outside

def hasField (s : SortScan) (fieldName : Name) : Result Bool :=
  match s.currentScan with
  | some t => .ok (t.hasField fieldName)
  | none => .error .outside

/-- The first record of each run is the next one. -/
def restart (sortFields : List Name) (s₁ : OpenTable) (s₂ : Option OpenTable) : SortScan :=
  { sortFields := sortFields
    s₁ := s₁.next.2
    hasMore₁ := s₁.next.1
    s₂ := s₂.map (fun t => t.next.2)
    hasMore₂ := s₂.elim false (fun t => t.next.1)
    current := none }

def beforeFirst (s : SortScan) : SortScan :=
  restart s.sortFields s.s₁.beforeFirst (s.s₂.map OpenTable.beforeFirst)

/-- The run that the current record comes from goes on. -/
def advance (s : SortScan) : SortScan :=
  match s.current with
  | some .first => { s with s₁ := s.s₁.next.2, hasMore₁ := s.s₁.next.1 }
  | some .second => { s with
      s₂ := s.s₂.map (fun t => t.next.2), hasMore₂ := s.s₂.elim false (fun t => t.next.1) }
  | none => s

/-- The run with the smaller record. -/
def smaller (s : SortScan) : Result Side :=
  match s.s₂ with
  | some t => do
      let c ← compare s.s₁.getValue t.getValue s.sortFields
      return if c < 0 then .first else .second
  | none => .error .outside

def choose (s : SortScan) : Result (Bool × SortScan) :=
  match s.hasMore₁, s.hasMore₂ with
  | false, false => .ok (false, s)
  | true, true => do return (true, { s with current := some (← s.smaller) })
  | true, false => .ok (true, { s with current := some .first })
  | false, true => .ok (true, { s with current := some .second })

def next (s : SortScan) : Result (Bool × SortScan) := s.advance.choose

end SortScan

inductive Scan
  | table (t : OpenTable)
  | select (s : Scan) (pred : Predicate)
  | project (s : Scan) (fields : List Name)
  | product (s₁ s₂ : Scan)
  | sort (s : SortScan)
  | groupBy (src : Scan) (groupFields : List Name) (aggFns : Aggregates)
      (currentGroup : Option GroupValue) (moreGroups : Bool)

namespace Scan

def hasField : Scan → Name → Result Bool
  | .table t, fieldName => .ok (t.hasField fieldName)
  | .select s _, fieldName => s.hasField fieldName
  | .project _ fields, fieldName => .ok (fields.contains fieldName)
  | .product s₁ s₂, fieldName => do
      if ← s₁.hasField fieldName then return true else s₂.hasField fieldName
  | .sort s, fieldName => s.hasField fieldName
  | .groupBy _ groupFields aggFns _ _, fieldName =>
      .ok (groupFields.contains fieldName || aggFns.any (fun a => a.1.fieldName = fieldName))

/-- GroupValue is a null pointer until the first group. -/
def groupField (currentGroup : Option GroupValue) (fieldName : Name) : Result Constant :=
  match currentGroup with
  | none => .error .outside
  | some group => match group.lookup fieldName with
    | some value => .ok value
    | none => .error .exception

def aggregate (aggFns : Aggregates) (fieldName : Name) : Result Constant :=
  match aggFns.find? (fun a => a.1.fieldName = fieldName) with
  | some a => .ok a.2
  | none => .error .exception

def getValue : Scan → Name → Result Constant
  | .table t, fieldName => t.getValue fieldName
  | .select s _, fieldName => s.getValue fieldName
  | .project s fields, fieldName =>
      if fields.contains fieldName then s.getValue fieldName else .error .exception
  | .product s₁ s₂, fieldName => do
      if ← s₁.hasField fieldName then s₁.getValue fieldName else s₂.getValue fieldName
  | .sort s, fieldName => s.getValue fieldName
  | .groupBy _ groupFields aggFns currentGroup _, fieldName =>
      if groupFields.contains fieldName then groupField currentGroup fieldName
      else aggregate aggFns fieldName

section Steps

variable (next : Scan → Result (Bool × Scan))

/-- `beforeFirst`, where `next` goes on in the scans below. -/
def beforeFirstBy : Scan → Result Scan
  | .table t => .ok (.table t.beforeFirst)
  | .select s pred => do return .select (← beforeFirstBy s) pred
  | .project s fields => do return .project (← beforeFirstBy s) fields
  | .product s₁ s₂ => do
      let s₁ ← beforeFirstBy s₁
      let (_, s₁) ← next s₁
      let s₂ ← beforeFirstBy s₂
      return .product s₁ s₂
  | .sort s => .ok (.sort s.beforeFirst)
  | .groupBy src groupFields aggFns currentGroup _ => do
      let src ← beforeFirstBy src
      let (moreGroups, src) ← next src
      return .groupBy src groupFields aggFns currentGroup moreGroups

/-- The loop over the other records of a group. -/
def gather (groupFields : List Name) (group : GroupValue) :
    ℕ → Scan → Aggregates → Result (Bool × Scan × Aggregates)
  | 0, _, _ => .error .outside
  | n + 1, src, aggFns => do
      let (moreGroups, src) ← next src
      if moreGroups then
        let gv ← groupValue src.getValue groupFields
        if ← groupEq group gv then
          let aggFns ← processAll (AggregationFn.processNext src.getValue) aggFns
          gather groupFields group n src aggFns
        else return (true, src, aggFns)
      else return (false, src, aggFns)

end Steps

/-- The loops below have so many rounds. -/
def next : ℕ → Scan → Result (Bool × Scan)
  | 0, _ => .error .outside
  | _ + 1, .table t => .ok (t.next.1, .table t.next.2)
  | n + 1, .select s pred => do
      let (found, s) ← next n s
      if found then
        if ← satisfies s.getValue pred then return (true, .select s pred)
        else next n (.select s pred)
      else return (false, .select s pred)
  | n + 1, .project s fields => do
      let (found, s) ← next n s
      return (found, .project s fields)
  | n + 1, .product s₁ s₂ => do
      let (found, s₂) ← next n s₂
      if found then return (true, .product s₁ s₂)
      else
        let s₂ ← s₂.beforeFirstBy (next n)
        let (found, s₁) ← next n s₁
        if found then
          let (found, s₂) ← next n s₂
          return (found, .product s₁ s₂)
        else return (false, .product s₁ s₂)
  | _ + 1, .sort s => do
      let (found, s) ← s.next
      return (found, .sort s)
  | n + 1, .groupBy src groupFields aggFns currentGroup moreGroups =>
      if moreGroups then do
        let aggFns ← processAll (AggregationFn.processFirst src.getValue) aggFns
        let group ← groupValue src.getValue groupFields
        let (moreGroups, src, aggFns) ← gather (next n) groupFields group n src aggFns
        return (true, .groupBy src groupFields aggFns (some group) moreGroups)
      else .ok (false, .groupBy src groupFields aggFns currentGroup moreGroups)

def beforeFirst (n : ℕ) (s : Scan) : Result Scan := s.beforeFirstBy (next n)

end Scan

end SampleDB.Scans
