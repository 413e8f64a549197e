import SampleDB.Plans
import SampleDB.Runs
import SampleDB.TypedTables

/-!
What a plan declares, and what its scans give. The kinds that the scan of a plan reads follow
from the plan alone: a copied table has the declared ones, a product takes a field from its left
side where both have it, and an aggregate has the kind of the field under it. The schema counts
the right side of a product and declares every aggregate as an integer.
-/
namespace SampleDB.PlanSchemas

open Lexer Schemas Statements SqlParser Pages Blocks TableScans UpdatePlanner Scans Plans
open TypedTables Runs

section Columns

def declaredKind (schema : Schema) (fieldName : Name) : Option Kind :=
  (schema.fieldInfo fieldName).map (fun info => kind info.type)

def fnNamed (aggFns : List AggregationFn) (fieldName : Name) : Option AggregationFn :=
  aggFns.find? (fun fn => fn.fieldName = fieldName)

end Columns

section Open

/-- The tables that a scan stands in have the schema of their plan, and typed records. -/
structure TypedOpen (schema : Schema) (t : OpenTable) : Prop where
  schema_eq : t.schema = schema
  slots : TypedSlots schema t.form t.ts.slots

structure TypedSort (schema : Schema) (s : SortScan) : Prop where
  first : TypedOpen schema s.s₁
  second : ∀ t ∈ s.s₂, TypedOpen schema t

end Open

section OpenTables

variable {schema : Schema} {t t' : OpenTable} {F : Name} {c : Constant}

theorem declaredKind_eq_some {k : Kind} :
    declaredKind schema F = some k ↔ ∃ info, schema.fieldInfo F = some info ∧
      kind info.type = k := by
  unfold declaredKind
  rw [Option.map_eq_some_iff]

theorem TypedOpen.getValue (h : TypedOpen schema t) (hget : t.getValue F = .ok c) :
    ∃ k, declaredKind schema F = some k ∧ OfKind k c := by
  unfold OpenTable.getValue at hget
  rw [h.schema_eq] at hget
  split at hget
  · cases hget
  · rename_i info hinfo
    obtain ⟨⟨i, slot⟩, hslot, hget⟩ := bind_eq_ok.mp hget
    cases hget
    exact ⟨_, declaredKind_eq_some.mpr ⟨info, hinfo, rfl⟩, h.slots.get hslot F info hinfo⟩

theorem next_slots {R : Type} (form : Form R) (ts : TableScan R) :
    (ts.next form).2.slots = ts.slots := by
  unfold TableScan.next
  split <;> rfl

theorem TypedOpen.next (h : TypedOpen schema t) : TypedOpen schema t.next.2 := by
  refine ⟨h.schema_eq, ?_⟩
  show TypedSlots schema t.form (t.ts.next t.form).2.slots
  rw [next_slots]
  exact h.slots

theorem TypedOpen.beforeFirst (h : TypedOpen schema t) : TypedOpen schema t.beforeFirst :=
  ⟨h.schema_eq, h.slots⟩

theorem TypedOpen.insert (h : TypedOpen schema t) : TypedOpen schema t.insert :=
  ⟨h.schema_eq, h.slots.insert⟩

theorem TypedOpen.setValue (h : TypedOpen schema t) (hset : t.setValue F c = .ok t') :
    TypedOpen schema t' := by
  unfold OpenTable.setValue at hset
  obtain ⟨⟨i, slot⟩, hslot, hset⟩ := bind_eq_ok.mp hset
  obtain ⟨row, hrow, hset⟩ := bind_eq_ok.mp hset
  rw [h.schema_eq] at hrow
  cases hset
  exact ⟨h.schema_eq, h.slots.set i (setValue_typed (h.slots.get hslot) hrow)⟩

theorem TypedOpen.setValues {read : Name → Result Constant} {fields : List Name}
    (h : TypedOpen schema t) (hset : setValues read fields t = .ok t') : TypedOpen schema t' := by
  induction fields generalizing t with
  | nil =>
    cases hset
    exact h
  | cons field fields ih =>
    obtain ⟨c, -, hset⟩ := bind_eq_ok.mp hset
    obtain ⟨t₁, hone, hset⟩ := bind_eq_ok.mp hset
    exact ih (h.setValue hone) hset

theorem TypedOpen.copyRecord {read : Name → Result Constant} (h : TypedOpen schema t)
    (hcopy : copyRecord read t = .ok t') : TypedOpen schema t' := h.insert.setValues hcopy

end OpenTables

section Sorts

variable {schema : Schema} {s s' : SortScan} {F : Name} {c : Constant}

theorem TypedSort.currentScan (h : TypedSort schema s) {t : OpenTable}
    (ht : s.currentScan = some t) : TypedOpen schema t := by
  unfold SortScan.currentScan at ht
  split at ht
  · cases ht
    exact h.first
  · exact h.second t ht
  · cases ht

theorem TypedSort.getValue (h : TypedSort schema s) (hget : s.getValue F = .ok c) :
    ∃ k, declaredKind schema F = some k ∧ OfKind k c := by
  unfold SortScan.getValue at hget
  split at hget
  · rename_i t ht
    exact (h.currentScan ht).getValue hget
  · cases hget

theorem forall_map {f : OpenTable → OpenTable} {o : Option OpenTable}
    (hf : ∀ t, TypedOpen schema t → TypedOpen schema (f t)) (h : ∀ t ∈ o, TypedOpen schema t) :
    ∀ t ∈ o.map f, TypedOpen schema t := by
  intro t ht
  obtain ⟨t', ht', rfl⟩ := Option.map_eq_some_iff.mp ht
  exact hf t' (h t' ht')

theorem typedSort_restart (sortFields : List Name) {t₁ : OpenTable} {t₂ : Option OpenTable}
    (h₁ : TypedOpen schema t₁) (h₂ : ∀ t ∈ t₂, TypedOpen schema t) :
    TypedSort schema (.restart sortFields t₁ t₂) :=
  ⟨h₁.next, forall_map (fun _ h => h.next) h₂⟩

theorem TypedSort.beforeFirst (h : TypedSort schema s) : TypedSort schema s.beforeFirst :=
  typedSort_restart _ h.first.beforeFirst (forall_map (fun _ ht => ht.beforeFirst) h.second)

theorem TypedSort.advance (h : TypedSort schema s) : TypedSort schema s.advance := by
  unfold SortScan.advance
  split
  · exact ⟨h.first.next, h.second⟩
  · exact ⟨h.first, forall_map (fun _ ht => ht.next) h.second⟩
  · exact h

theorem TypedSort.next {found : Bool} (h : TypedSort schema s) (hnext : s.next = .ok (found, s')) :
    TypedSort schema s' := by
  have hadv := h.advance
  unfold SortScan.next SortScan.choose at hnext
  split at hnext
  · cases hnext
    exact hadv
  · obtain ⟨side, -, hnext⟩ := bind_eq_ok.mp hnext
    cases hnext
    exact ⟨hadv.first, hadv.second⟩
  · cases hnext
    exact ⟨hadv.first, hadv.second⟩
  · cases hnext
    exact ⟨hadv.first, hadv.second⟩

end Sorts

section Aggregation

variable {schema : Schema} {read : Name → Result Constant} {fn : AggregationFn}
  {value value' c : Constant} {k : Kind}

end Aggregation

section Steps

variable {p : Plan} {s s' : Scan}

end Steps

end SampleDB.PlanSchemas
