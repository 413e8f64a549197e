import SampleDB.CheckedInts
import SampleDB.Plans
import SampleDB.RecordPages
import SampleDB.SubPredicates

/-!
The estimates of how many records a plan gives, and how many values a field has in them.
They are computed with integers of 32 bits; a result that does not fit, a division by zero
and a null pointer that is followed are outside of what the source defines. In exact
arithmetic no divisor is zero.
-/
namespace SampleDB.Statements

open Lexer Pages UpdatePlanner CheckedInts

def Term.reductionFactor (distinctValues : Name → Result Int32) (t : Term) : Result Int32 :=
  if t.lhs.isFieldName && t.rhs.isFieldName then do
    return max (← distinctValues t.lhs.fieldName) (← distinctValues t.rhs.fieldName)
  else if t.lhs.isFieldName then distinctValues t.lhs.fieldName
  else if t.rhs.isFieldName then distinctValues t.rhs.fieldName
  else do
    if ← constantEq t.lhs.value t.rhs.value then return 1 else return 2147483647

def Predicate.reductionFactor (distinctValues : Name → Result Int32) (pred : Predicate) :
    Result Int32 :=
  pred.foldlM (fun factor term => do mul .outside factor (← term.reductionFactor distinctValues)) 1

end SampleDB.Statements

namespace SampleDB.Estimates

open Lexer Schemas Statements Pages Blocks UpdatePlanner Scans CheckedInts

section Plans

structure StatInfo where
  numRecords : Int32

namespace StatInfo

def recordsOutput (s : StatInfo) : Int32 := s.numRecords

/-- The same for every field. -/
def distinctValues (s : StatInfo) (_ : Name) : Result Int32 := do
  add .outside 1 (← div .outside s.numRecords 3)

end StatInfo

/-- The plans, with the statistics of their tables. -/
inductive Plan
  | table (schema : Schema) (statInfo : StatInfo)
  | select (p : Plan) (pred : Predicate)
  | project (p : Plan) (fields : List Name)
  | product (p₁ p₂ : Plan)
  | materialize (p : Plan)
  | sort (p : Plan) (sortFields : List Name)
  | groupBy (p : Plan) (groupFields : List Name) (aggFns : List AggregationFn)
  | mergeJoin (p₁ p₂ : Plan) (fld₁ fld₂ : Name)

/-- The loop of `GroupByPlan::recordsOutput`. -/
def numGroups (distinctValues : Name → Result Int32) (groupFields : List Name) : Result Int32 :=
  groupFields.foldlM (fun n fieldName => do mul .outside n (← distinctValues fieldName)) 1

namespace Plan

def schema : Plan → Schema
  | .table schema _ => schema
  | .select p _ => p.schema
  | .project p fields => Plans.addFrom p.schema .empty fields
  | .product p₁ p₂ => (Schema.empty.addAll p₁.schema).addAll p₂.schema
  | .materialize p => p.schema
  | .sort p _ => p.schema
  | .groupBy p groupFields aggFns =>
      aggFns.foldl (fun s fn => s.addIntField fn.fieldName)
        (Plans.addFrom p.schema .empty groupFields)
  | .mergeJoin p₁ p₂ _ _ => (Schema.empty.addAll p₁.schema).addAll p₂.schema

def distinctValues : Plan → Name → Result Int32
  | .table _ statInfo, F => statInfo.distinctValues F
  | .select p pred, F =>
      if !(pred.equatesWithConstant F).isNull then .ok 1
      else if pred.equatesWithField F ≠ [] then do
        return min (← p.distinctValues (pred.equatesWithField F))
          (← p.distinctValues (pred.equatesWithField F))
      else p.distinctValues F
  | .project p _, F => p.distinctValues F
  | .product p₁ p₂, F =>
      if p₁.schema.hasField F then p₁.distinctValues F else p₂.distinctValues F
  | .materialize p, F => p.distinctValues F
  | .sort p _, F => p.distinctValues F
  | .groupBy p groupFields _, F =>
      if p.schema.hasField F then p.distinctValues F
      else numGroups (fun f => p.distinctValues f) groupFields
  | .mergeJoin p₁ p₂ _ _, F =>
      if p₁.schema.hasField F then p₁.distinctValues F else p₂.distinctValues F

def recordsOutput : Plan → Result Int32
  | .table _ statInfo => .ok statInfo.recordsOutput
  | .select p pred => do
      div .outside (← p.recordsOutput) (← pred.reductionFactor p.distinctValues)
  | .project p _ => p.recordsOutput
  | .product p₁ p₂ => do mul .outside (← p₁.recordsOutput) (← p₂.recordsOutput)
  | .materialize p => p.recordsOutput
  | .sort p _ => p.recordsOutput
  | .groupBy p groupFields _ => numGroups p.distinctValues groupFields
  | .mergeJoin p₁ p₂ fld₁ fld₂ => do
      let maxValues ← (do return max (← p₁.distinctValues fld₁) (← p₂.distinctValues fld₂))
      let records ← (do mul .outside (← p₁.recordsOutput) (← p₂.recordsOutput))
      div .outside records maxValues

end Plan

/-- The plans of the query planner, with statistics. -/
def ofPlan (statInfo : Name → StatInfo) : Plans.Plan → Plan
  | .table tableName layout => .table (Plans.layoutSchema layout) (statInfo tableName)
  | .select p pred => .select (ofPlan statInfo p) pred
  | .project p fields => .project (ofPlan statInfo p) fields
  | .product p₁ p₂ => .product (ofPlan statInfo p₁) (ofPlan statInfo p₂)
  | .materialize p => .materialize (ofPlan statInfo p)
  | .sort p sortFields => .sort (ofPlan statInfo p) sortFields
  | .groupBy p groupFields aggFns => .groupBy (ofPlan statInfo p) groupFields aggFns

theorem schema_ofPlan (statInfo : Name → StatInfo) (p : Plans.Plan) :
    (ofPlan statInfo p).schema = p.schema := by
  induction p with
  | table tableName layout => rfl
  | select p pred ih => exact ih
  | project p fields ih => exact congrArg (fun s => Plans.addFrom s .empty fields) ih
  | product p₁ p₂ ih₁ ih₂ =>
    exact congrArg₂ (fun s s' => (Schema.empty.addAll s).addAll s') ih₁ ih₂
  | materialize p ih => exact ih
  | sort p sortFields ih => exact ih
  | groupBy p groupFields aggFns ih =>
    exact congrArg (fun s => aggFns.foldl (fun s fn => s.addIntField fn.fieldName)
      (Plans.addFrom s .empty groupFields)) ih

end Plans

section Exact

/-- The factor of a term, from the numbers of values. -/
def termFactor (values : Name → ℕ) (t : Term) : ℕ :=
  if t.lhs.isFieldName && t.rhs.isFieldName then
    max (values t.lhs.fieldName) (values t.rhs.fieldName)
  else if t.lhs.isFieldName then values t.lhs.fieldName
  else if t.rhs.isFieldName then values t.rhs.fieldName
  else if constantEq t.lhs.value t.rhs.value = .ok true then 1 else 2147483647

def factor (values : Name → ℕ) (pred : Predicate) : ℕ := (pred.map (termFactor values)).prod

/-- Two constants that are compared are both integers or both strings. -/
def TermFits (fit : Name → Prop) (t : Term) : Prop :=
  if t.lhs.isFieldName && t.rhs.isFieldName then fit t.lhs.fieldName ∧ fit t.rhs.fieldName
  else if t.lhs.isFieldName then fit t.lhs.fieldName
  else if t.rhs.isFieldName then fit t.rhs.fieldName
  else ∃ b, constantEq t.lhs.value t.rhs.value = .ok b

def FactorFits (fit : Name → Prop) (values : Name → ℕ) (pred : Predicate) : Prop :=
  (∀ t ∈ pred, TermFits fit t) ∧ factor values pred < 2147483648

def groups (values : Name → ℕ) (groupFields : List Name) : ℕ := (groupFields.map values).prod

def GroupsFit (fit : Name → Prop) (values : Name → ℕ) (groupFields : List Name) : Prop :=
  (∀ F ∈ groupFields, fit F) ∧ groups values groupFields < 2147483648

def StatInfo.records (s : StatInfo) : ℕ := s.numRecords.toInt.toNat

namespace Plan

def Nonneg : Plan → Prop
  | .table _ statInfo => 0 ≤ statInfo.numRecords.toInt
  | .select p _ => p.Nonneg
  | .project p _ => p.Nonneg
  | .product p₁ p₂ => p₁.Nonneg ∧ p₂.Nonneg
  | .materialize p => p.Nonneg
  | .sort p _ => p.Nonneg
  | .groupBy p _ _ => p.Nonneg
  | .mergeJoin p₁ p₂ _ _ => p₁.Nonneg ∧ p₂.Nonneg

/-- The number of values of a field, in exact arithmetic. -/
def values : Plan → Name → ℕ
  | .table _ statInfo, _ => 1 + statInfo.records / 3
  | .select p pred, F =>
      if !(pred.equatesWithConstant F).isNull then 1
      else if pred.equatesWithField F ≠ [] then p.values (pred.equatesWithField F)
      else p.values F
  | .project p _, F => p.values F
  | .product p₁ p₂, F => if p₁.schema.hasField F then p₁.values F else p₂.values F
  | .materialize p, F => p.values F
  | .sort p _, F => p.values F
  | .groupBy p groupFields _, F =>
      if p.schema.hasField F then p.values F else groups (fun f => p.values f) groupFields
  | .mergeJoin p₁ p₂ _ _, F => if p₁.schema.hasField F then p₁.values F else p₂.values F

/-- The products under the number of values fit in 32 bits. -/
def ValuesFit : Plan → Name → Prop
  | .table _ _, _ => True
  | .select p pred, F =>
      if !(pred.equatesWithConstant F).isNull then True
      else if pred.equatesWithField F ≠ [] then p.ValuesFit (pred.equatesWithField F)
      else p.ValuesFit F
  | .project p _, F => p.ValuesFit F
  | .product p₁ p₂, F => if p₁.schema.hasField F then p₁.ValuesFit F else p₂.ValuesFit F
  | .materialize p, F => p.ValuesFit F
  | .sort p _, F => p.ValuesFit F
  | .groupBy p groupFields _, F =>
      if p.schema.hasField F then p.ValuesFit F
      else GroupsFit (fun f => p.ValuesFit f) (fun f => p.values f) groupFields
  | .mergeJoin p₁ p₂ _ _, F => if p₁.schema.hasField F then p₁.ValuesFit F else p₂.ValuesFit F

/-- The number of records, in exact arithmetic. -/
def records : Plan → ℕ
  | .table _ statInfo => statInfo.records
  | .select p pred => p.records / factor p.values pred
  | .project p _ => p.records
  | .product p₁ p₂ => p₁.records * p₂.records
  | .materialize p => p.records
  | .sort p _ => p.records
  | .groupBy p groupFields _ => groups p.values groupFields
  | .mergeJoin p₁ p₂ fld₁ fld₂ =>
      p₁.records * p₂.records / max (p₁.values fld₁) (p₂.values fld₂)

/-- The products under the number of records fit in 32 bits. -/
def RecordsFit : Plan → Prop
  | .table _ _ => True
  | .select p pred => p.RecordsFit ∧ FactorFits p.ValuesFit p.values pred
  | .project p _ => p.RecordsFit
  | .product p₁ p₂ => p₁.RecordsFit ∧ p₂.RecordsFit ∧ p₁.records * p₂.records < 2147483648
  | .materialize p => p.RecordsFit
  | .sort p _ => p.RecordsFit
  | .groupBy p groupFields _ => GroupsFit p.ValuesFit p.values groupFields
  | .mergeJoin p₁ p₂ fld₁ fld₂ => (p₁.ValuesFit fld₁ ∧ p₂.ValuesFit fld₂) ∧
      p₁.RecordsFit ∧ p₂.RecordsFit ∧ p₁.records * p₂.records < 2147483648

end Plan

end Exact

section Computed

variable {dv : Name → Result Int32} {fit : Name → Prop} {v : Name → ℕ}

theorem StatInfo.records_lt (s : StatInfo) : s.records < 2147483648 := by
  have hint := s.numRecords.toInt_lt
  unfold StatInfo.records
  omega

theorem StatInfo.numRecords_eq {s : StatInfo} (h : 0 ≤ s.numRecords.toInt) :
    s.numRecords = Int32.ofNat s.records := (ofNat_toInt h).symm

theorem StatInfo.computes {s : StatInfo} (h : 0 ≤ s.numRecords.toInt) (F : Name) :
    Computes Fault.outside (s.distinctValues F) True (1 + s.records / 3) := by
  have hlt := s.records_lt
  have hrecords : Computes Fault.outside (div .outside s.numRecords 3) True (s.records / 3) := by
    rw [numRecords_eq h]
    exact computes_div hlt (by decide) (by decide)
  refine (hrecords.bind (fun _ => computes_add (n := 1) (by decide) ?_)).congr ?_
  · omega
  · exact iff_true_intro ⟨trivial, by omega⟩

theorem constantEq_error {c c' : Constant} {e : Fault} (h : constantEq c c' = .error e) :
    e = .outside := by
  unfold constantEq at h
  split at h
  · split at h
    · cases h
    · exact (Except.error.inj h).symm
  · split at h
    · cases h
    · exact (Except.error.inj h).symm

theorem computes_term (h : ∀ F, Computes Fault.outside (dv F) (fit F) (v F)) (t : Term) :
    Computes Fault.outside (t.reductionFactor dv) (TermFits fit t) (termFactor v t) := by
  refine .ite (fun _ => (h _).max (h _)) (fun _ => ?_)
  refine .ite (fun _ => h _) (fun _ => ?_)
  refine .ite (fun _ => h _) (fun _ => ?_)
  cases heq : constantEq t.lhs.value t.rhs.value with
  | error e =>
    refine ⟨fun hfit => ?_, fun hfit => ?_, fun _ => ?_⟩
    · obtain ⟨b, hb⟩ := hfit
      cases hb
    · obtain ⟨b, hb⟩ := hfit
      cases hb
    · rw [constantEq_error heq]
      rfl
  | ok b =>
    cases b with
    | false => exact (computes_ofNat (by decide)).congr ⟨fun _ => ⟨false, rfl⟩, fun _ => trivial⟩
    | true => exact (computes_ofNat (by decide)).congr ⟨fun _ => ⟨true, rfl⟩, fun _ => trivial⟩

theorem termFactor_pos (hv : ∀ F, 0 < v F) (t : Term) : 0 < termFactor v t := by
  unfold termFactor
  split
  · exact Nat.lt_of_lt_of_le (hv t.lhs.fieldName) (Nat.le_max_left _ _)
  · split
    · exact hv t.lhs.fieldName
    · split
      · exact hv t.rhs.fieldName
      · split <;> decide

theorem computes_factor (h : ∀ F, Computes Fault.outside (dv F) (fit F) (v F))
    (hv : ∀ F, 0 < v F) (pred : Predicate) :
    Computes Fault.outside (pred.reductionFactor dv) (FactorFits fit v pred) (factor v pred) := by
  have hprod := computes_prod (l := pred) (fun t _ => computes_term h t)
    (fun t _ => termFactor_pos hv t) (k := 1) (by decide) (by decide)
  rw [Nat.one_mul] at hprod
  exact hprod

theorem computes_groups (h : ∀ F, Computes Fault.outside (dv F) (fit F) (v F))
    (hv : ∀ F, 0 < v F) (groupFields : List Name) :
    Computes Fault.outside (numGroups dv groupFields) (GroupsFit fit v groupFields)
      (groups v groupFields) := by
  have hprod := computes_prod (l := groupFields) (fun F _ => h F) (fun F _ => hv F) (k := 1)
    (by decide) (by decide)
  rw [Nat.one_mul] at hprod
  exact hprod

/-- No estimate of a number of values is zero. -/
theorem values_pos (p : Plan) (F : Name) : 0 < p.values F := by
  induction p generalizing F with
  | table schema statInfo =>
    rw [Plan.values]
    omega
  | select p pred ih =>
    rw [Plan.values]
    split
    · decide
    · split
      · exact ih _
      · exact ih F
  | project p fields ih => exact ih F
  | product p₁ p₂ ih₁ ih₂ =>
    rw [Plan.values]
    split
    · exact ih₁ F
    · exact ih₂ F
  | materialize p ih => exact ih F
  | sort p sortFields ih => exact ih F
  | groupBy p groupFields aggFns ih =>
    rw [Plan.values]
    split
    · exact ih F
    · exact prod_pos (fun F _ => ih F)
  | mergeJoin p₁ p₂ fld₁ fld₂ ih₁ ih₂ =>
    rw [Plan.values]
    split
    · exact ih₁ F
    · exact ih₂ F

theorem computes_values {p : Plan} (h : p.Nonneg) (F : Name) :
    Computes Fault.outside (p.distinctValues F) (p.ValuesFit F) (p.values F) := by
  induction p generalizing F with
  | table schema statInfo => exact StatInfo.computes h F
  | select p pred ih =>
    refine .ite (fun _ => computes_ofNat (by decide)) (fun _ => ?_)
    refine .ite (fun _ => ?_) (fun _ => ih h F)
    exact (ih h _).min_self
  | project p fields ih => exact ih h F
  | product p₁ p₂ ih₁ ih₂ => exact .ite (fun _ => ih₁ h.1 F) (fun _ => ih₂ h.2 F)
  | materialize p ih => exact ih h F
  | sort p sortFields ih => exact ih h F
  | groupBy p groupFields aggFns ih =>
    exact .ite (fun _ => ih h F) (fun _ => computes_groups (ih h) (values_pos p) groupFields)
  | mergeJoin p₁ p₂ fld₁ fld₂ ih₁ ih₂ => exact .ite (fun _ => ih₁ h.1 F) (fun _ => ih₂ h.2 F)

theorem computes_records {p : Plan} (h : p.Nonneg) :
    Computes Fault.outside p.recordsOutput p.RecordsFit p.records := by
  induction p with
  | table schema statInfo =>
    show Computes _ (.ok statInfo.numRecords) _ _
    rw [StatInfo.numRecords_eq h]
    exact computes_ofNat statInfo.records_lt
  | select p pred ih =>
    exact (ih h).div (computes_factor (@computes_values p h) (values_pos p) pred)
      (prod_pos (fun t _ => termFactor_pos (values_pos p) t))
  | project p fields ih => exact ih h
  | product p₁ p₂ ih₁ ih₂ => exact (ih₁ h.1).mul (ih₂ h.2)
  | materialize p ih => exact ih h
  | sort p sortFields ih => exact ih h
  | groupBy p groupFields aggFns ih =>
    exact computes_groups (@computes_values p h) (values_pos p) groupFields
  | mergeJoin p₁ p₂ fld₁ fld₂ ih₁ ih₂ =>
    have hmax := (computes_values h.1 fld₁).max (computes_values h.2 fld₂)
    have hprod := (ih₁ h.1).mul (ih₂ h.2)
    have hpos : 0 < max (p₁.values fld₁) (p₂.values fld₂) :=
      Nat.lt_of_lt_of_le (values_pos p₁ fld₁) (Nat.le_max_left _ _)
    have hdiv := hmax.bind (f := fun maxValues => do
      let records ← (do mul .outside (← p₁.recordsOutput) (← p₂.recordsOutput))
      div .outside records maxValues) (fun hm => hprod.bind (fun hp =>
        computes_div (hprod.fits hp) (hmax.fits hm) hpos))
    refine hdiv.congr ?_
    rw [and_true]
    rfl

end Computed

section Indexes

structure IndexInfo where
  fieldName : Name
  statInfo : StatInfo
  layout : RecordPages.Layout

namespace IndexInfo

def createIndexLayout (schema : Schema) (fieldName : Name) : Result RecordPages.Layout :=
  let indexSchema := (Schema.empty.addIntField "block".toList).addIntField "id".toList
  match schema.fieldInfo fieldName with
  | some ⟨.integer, _⟩ => RecordPages.Layout.new (indexSchema.addIntField "dataval".toList)
  | some ⟨_, fieldLength⟩ =>
      RecordPages.Layout.new (indexSchema.addStringField "dataval".toList fieldLength)
  | none => .error .exception

def new (fieldName : Name) (schema : Schema) (statInfo : StatInfo) : Result IndexInfo := do
  return ⟨fieldName, statInfo, ← createIndexLayout schema fieldName⟩

/-- The records of the index in a block. -/
def rpb (B : BlockSize) (info : IndexInfo) : Result Int32 :=
  div .outside (Int32.ofNat B.bytes) info.layout.slotSize

def numBlocks (B : BlockSize) (info : IndexInfo) : Result Int32 := do
  div .outside info.statInfo.recordsOutput (← info.rpb B)

def recordsOutput (info : IndexInfo) : Result Int32 := do
  div .outside info.statInfo.recordsOutput (← info.statInfo.distinctValues info.fieldName)

def distinctValues (info : IndexInfo) (fieldName : Name) : Result Int32 :=
  if info.fieldName = fieldName then .ok 1 else info.statInfo.distinctValues fieldName

end IndexInfo

/-- A flag, a block, a slot, and the value with its length if it has one. -/
def indexSlot : FieldInfo → ℤ
  | ⟨.integer, _⟩ => 16
  | ⟨_, length⟩ => 16 + length.toInt

variable {B : BlockSize} {info : IndexInfo} {fieldInfo : FieldInfo} {schema : Schema}
  {fieldName : Name} {statInfo : StatInfo}

theorem slotSize_index (hnew : IndexInfo.new fieldName schema statInfo = .ok info)
    (hfield : schema.fieldInfo fieldName = some fieldInfo) :
    info.statInfo = statInfo ∧ info.layout.slotSize.toInt = Words.toInt (indexSlot fieldInfo) := by
  obtain ⟨layout, hlayout, hinfo⟩ := bind_eq_ok.mp hnew
  cases hinfo
  refine ⟨rfl, ?_⟩
  obtain ⟨type, length⟩ := fieldInfo
  unfold IndexInfo.createIndexLayout at hlayout
  rw [hfield] at hlayout
  have hstring : RecordPages.Layout.new (((Schema.empty.addIntField "block".toList).addIntField
      "id".toList).addStringField "dataval".toList length) = .ok layout →
      layout.slotSize.toInt = Words.toInt (16 + length.toInt) := by
    intro h
    cases h
    show Words.toInt (12 + Words.toInt (4 + length.toInt)) = _
    have h₁ := Words.toInt_emod (4 + length.toInt)
    have h₂ := Words.toInt_emod (12 + Words.toInt (4 + length.toInt))
    have h₃ := Words.toInt_emod (16 + length.toInt)
    have h₄ := Words.toInt_range (12 + Words.toInt (4 + length.toInt))
    have h₅ := Words.toInt_range (16 + length.toInt)
    omega
  cases type with
  | integer =>
    cases hlayout
    rfl
  | varchar => exact hstring hlayout
  | boolean => exact hstring hlayout

/-- A slot of the index fits in a block. -/
def SlotFits (B : BlockSize) (fieldInfo : FieldInfo) : Prop :=
  0 < indexSlot fieldInfo ∧ indexSlot fieldInfo ≤ B.bytes

theorem slotFits_iff (hslot : info.layout.slotSize.toInt = Words.toInt (indexSlot fieldInfo)) :
    SlotFits B fieldInfo ↔
      0 < info.layout.slotSize.toInt ∧ info.layout.slotSize.toInt ≤ B.bytes := by
  have hlt := B.lt_int
  have hrange : -2147483648 < indexSlot fieldInfo ∧ indexSlot fieldInfo < 2147483664 := by
    obtain ⟨type, length⟩ := fieldInfo
    have hle := length.le_toInt
    have hlt := length.toInt_lt
    cases type <;> simp only [indexSlot] <;> omega
  have hmod := Words.toInt_emod (indexSlot fieldInfo)
  have hvalue := Words.toInt_range (indexSlot fieldInfo)
  unfold SlotFits
  rw [hslot]
  omega

theorem computes_rpb (hpos : 0 < info.layout.slotSize.toInt) :
    Computes Fault.outside (info.rpb B) True (B.bytes / info.layout.slotSize.toInt.toNat) := by
  have hlt := info.layout.slotSize.toInt_lt
  have hdiv : Computes Fault.outside (div .outside (Int32.ofNat B.bytes)
      (Int32.ofNat info.layout.slotSize.toInt.toNat)) True _ :=
    computes_div B.lt_int (by omega) (by omega)
  rw [ofNat_toInt (by omega)] at hdiv
  exact hdiv

/-- With no room for a record the blocks of the index are counted by a division by zero, or by
a negative number. -/
theorem rpb_defined_iff (hstat : 0 ≤ info.statInfo.numRecords.toInt) :
    ((∃ n, info.rpb B = .ok n ∧ 0 ≤ n.toInt) ∧ ∃ n, info.numBlocks B = .ok n ∧ 0 ≤ n.toInt) ↔
      0 < info.layout.slotSize.toInt ∧ info.layout.slotSize.toInt ≤ B.bytes := by
  constructor
  · rintro ⟨⟨n, hn, hnonneg⟩, m, hm, -⟩
    unfold IndexInfo.numBlocks at hm
    rw [hn] at hm
    obtain ⟨hne, -⟩ := div_ok hm
    have hpos : n.toInt ≠ 0 := fun hzero => hne (Int32.toInt_inj.mp hzero)
    obtain ⟨-, hquotient⟩ := div_ok hn
    rw [toInt_ofNat B.lt_int] at hquotient
    refine ⟨Int.lt_of_not_ge (fun hle => ?_), Int.le_of_not_gt (fun hlt => ?_)⟩
    · have hopposite : 0 ≤ (B.bytes : ℤ).tdiv (-info.layout.slotSize.toInt) :=
        Int.tdiv_nonneg (by omega) (by omega)
      rw [Int.tdiv_neg] at hopposite
      omega
    · rw [Int.tdiv_eq_zero_of_lt (by omega) hlt] at hquotient
      exact hpos hquotient
  · rintro ⟨hpos, hle⟩
    have hrpb := @computes_rpb B info hpos
    have hone : 0 < B.bytes / info.layout.slotSize.toInt.toNat := Nat.div_pos (by omega) (by omega)
    have hblocks : Computes Fault.outside (info.numBlocks B) True
        (info.statInfo.records / (B.bytes / info.layout.slotSize.toInt.toNat)) := by
      unfold IndexInfo.numBlocks StatInfo.recordsOutput
      rw [StatInfo.numRecords_eq hstat]
      exact (hrpb.bind (fun h => computes_div (StatInfo.records_lt _) (hrpb.fits h) hone)).congr
        (by rw [and_true])
    exact ⟨(hrpb.defined_iff (Int.natCast_nonneg _)).mpr trivial,
      (hblocks.defined_iff (Int.natCast_nonneg _)).mpr trivial⟩

theorem index_records (hstat : 0 ≤ info.statInfo.numRecords.toInt) :
    ∃ n, info.recordsOutput = .ok n ∧ 0 ≤ n.toInt := by
  have hvalues := StatInfo.computes hstat info.fieldName
  have hquotient : Computes Fault.outside info.recordsOutput True
      (info.statInfo.records / (1 + info.statInfo.records / 3)) := by
    unfold IndexInfo.recordsOutput StatInfo.recordsOutput
    rw [StatInfo.numRecords_eq hstat]
    exact (hvalues.bind (fun h =>
      computes_div (StatInfo.records_lt _) (hvalues.fits h) (by omega))).congr (by rw [and_true])
  exact (hquotient.defined_iff (Int.natCast_nonneg _)).mpr trivial

theorem index_values (hstat : 0 ≤ info.statInfo.numRecords.toInt) (F : Name) :
    ∃ n, info.distinctValues F = .ok n ∧ 0 ≤ n.toInt := by
  have hvalues : Computes Fault.outside (info.distinctValues F) (if info.fieldName = F then True
      else True) (if info.fieldName = F then 1 else _) :=
    .ite (fun _ => computes_ofNat (by decide)) (fun _ => StatInfo.computes hstat F)
  exact (hvalues.defined_iff (Int.natCast_nonneg _)).mpr (by rw [ite_self]; trivial)

end Indexes

section Results

/-- The estimates of a plan, of a predicate over it and of an index are computed, the factor
is at least one, and nothing is negative. -/
structure WellDefined (B : BlockSize) (p : Plan) (pred : Predicate) (info : IndexInfo) : Prop where
  records : ∃ n, p.recordsOutput = .ok n ∧ 0 ≤ n.toInt
  values : ∀ F, ∃ n, p.distinctValues F = .ok n ∧ 0 ≤ n.toInt
  factor : ∃ n, pred.reductionFactor p.distinctValues = .ok n ∧ 1 ≤ n.toInt
  rpb : ∃ n, info.rpb B = .ok n ∧ 0 ≤ n.toInt
  numBlocks : ∃ n, info.numBlocks B = .ok n ∧ 0 ≤ n.toInt
  indexRecords : ∃ n, info.recordsOutput = .ok n ∧ 0 ≤ n.toInt
  indexValues : ∀ F, ∃ n, info.distinctValues F = .ok n ∧ 0 ≤ n.toInt

/-- The products fit in 32 bits, and a slot of the index in a block. -/
structure Small (B : BlockSize) (p : Plan) (pred : Predicate) (fieldInfo : FieldInfo) : Prop where
  records : p.RecordsFit
  values : ∀ F, p.ValuesFit F
  factor : FactorFits p.ValuesFit p.values pred
  slot : SlotFits B fieldInfo

theorem estimates_defined_iff {B : BlockSize} {p : Plan} (hp : p.Nonneg) (pred : Predicate)
    {schema : Schema} {fieldName : Name} {fieldInfo : FieldInfo} {statInfo : StatInfo}
    {info : IndexInfo} (hfield : schema.fieldInfo fieldName = some fieldInfo)
    (hstat : 0 ≤ statInfo.numRecords.toInt)
    (hnew : IndexInfo.new fieldName schema statInfo = .ok info) :
    WellDefined B p pred info ↔ Small B p pred fieldInfo := by
  obtain ⟨rfl, hslot⟩ := slotSize_index hnew hfield
  have hrecords := (computes_records hp).defined_iff (Int.natCast_nonneg _)
  have hvalues := fun F => (computes_values hp F).defined_iff (Int.natCast_nonneg _)
  have hpos : (1 : ℤ) ≤ (factor p.values pred : ℕ) :=
    Int.ofNat_le.mpr (prod_pos (fun t _ => termFactor_pos (values_pos p) t))
  have hfactor := (computes_factor (computes_values hp) (values_pos p) pred).defined_iff hpos
  have hindex := (@rpb_defined_iff B info hstat).trans (slotFits_iff hslot).symm
  constructor
  · intro h
    exact ⟨hrecords.mp h.records, fun F => (hvalues F).mp (h.values F), hfactor.mp h.factor,
      hindex.mp ⟨h.rpb, h.numBlocks⟩⟩
  · intro h
    obtain ⟨hrpb, hblocks⟩ := hindex.mpr h.slot
    exact ⟨hrecords.mpr h.records, fun F => (hvalues F).mpr (h.values F), hfactor.mpr h.factor,
      hrpb, hblocks, index_records hstat, index_values hstat⟩

/-- The pairs of the records of two tables with so many records each. -/
def pairsOf (numRecords : Int32) : Plan :=
  .product (.table (.ofFields [(['a'], ⟨.integer, 0⟩)]) ⟨numRecords⟩)
    (.table (.ofFields [(['b'], ⟨.integer, 0⟩)]) ⟨numRecords⟩)

theorem pairsOf_nonneg {numRecords : Int32} (h : 0 ≤ numRecords.toInt) :
    (pairsOf numRecords).Nonneg := ⟨h, h⟩

theorem index_new (statInfo : StatInfo) : ∃ info,
    IndexInfo.new ['a'] (.ofFields [(['a'], ⟨.integer, 0⟩)]) statInfo = .ok info := ⟨_, rfl⟩

theorem estimates_defined_hundred : ∃ info,
    IndexInfo.new ['a'] (.ofFields [(['a'], ⟨.integer, 0⟩)]) ⟨100⟩ = .ok info ∧
      WellDefined ⟨400, by decide, by decide⟩ (pairsOf 100)
        [⟨.ofField ['a'], .ofConstant (.ofInt 3)⟩, ⟨.ofField ['b'], .ofField ['a']⟩] info := by
  obtain ⟨info, hnew⟩ := index_new ⟨100⟩
  have hp : (pairsOf 100).Nonneg := pairsOf_nonneg (by decide)
  have hvalues : ∀ F, (pairsOf 100).ValuesFit F := by
    intro F
    unfold pairsOf
    rw [Plan.ValuesFit]
    split <;> trivial
  refine ⟨info, hnew, (estimates_defined_iff hp _ rfl (by decide) hnew).mpr ?_⟩
  refine ⟨⟨trivial, trivial, by decide⟩, hvalues, ⟨?_, by decide⟩, by decide, by decide⟩
  intro t ht
  simp only [List.mem_cons, List.not_mem_nil, or_false] at ht
  rcases ht with rfl | rfl
  · exact hvalues ['a']
  · exact ⟨hvalues ['b'], hvalues ['a']⟩

/-- Of `2 ^ 16` records each there are `2 ^ 32` pairs. -/
theorem not_defined_pairs : ¬ ∀ (B : BlockSize) (p : Plan) (pred : Predicate) (info : IndexInfo)
    (schema : Schema) (fieldName : Name) (statInfo : StatInfo), p.Nonneg →
      0 ≤ statInfo.numRecords.toInt → IndexInfo.new fieldName schema statInfo = .ok info →
        WellDefined B p pred info := by
  intro h
  obtain ⟨info, hnew⟩ := index_new ⟨100⟩
  have hdefined := h ⟨400, by decide, by decide⟩ (pairsOf 65536) [] info _ _ _
    (pairsOf_nonneg (by decide)) (by decide) hnew
  obtain ⟨n, hn, -⟩ := hdefined.records
  have herror : (pairsOf 65536).recordsOutput = .error .outside := rfl
  rw [herror] at hn
  cases hn

end Results

end SampleDB.Estimates
