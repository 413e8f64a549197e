import SampleDB.SchemaSoundness
import SampleDB.TableRows

/-!
Properties of all rows of a database. One that blank rows have, and that a value which is written
does not take away, is kept by every command, so it holds after every run of updates. That a row
fits in the fields of its table is such a property, where no string has a negative length.
-/
namespace SampleDB.RowProperties

open Lexer Schemas Statements SqlParser Pages Blocks TableScans UpdatePlanner Scans TypedTables
open TableRows Runs SchemaSoundness

variable {P : Schema → Row → Prop} {schema : Schema} {form : Form Row} {slots : List (Slot Row)}

section Slots

structure Kept (P : Schema → Row → Prop) : Prop where
  blank : ∀ schema, P schema (blankRow schema)
  set : ∀ {schema row row' F val}, P schema row → setValue schema row F val = .ok row' →
    P schema row'

/-- The rows of all slots, and the row that a new slot gets. -/
structure SlotRows (P : Schema → Row → Prop) (schema : Schema) (form : Form Row)
    (slots : List (Slot Row)) : Prop where
  blank : P schema form.blank
  rows : ∀ slot ∈ slots, P schema slot.row

theorem SlotRows.append (h : SlotRows P schema form slots) :
    SlotRows P schema form (slots ++ form.emptyBlock) := by
  refine ⟨h.blank, fun slot hslot => ?_⟩
  rcases List.mem_append.mp hslot with hold | hnew
  · exact h.rows slot hold
  · rw [(List.mem_replicate.mp hnew).2]
    exact h.blank

theorem SlotRows.new (h : SlotRows P schema form slots) :
    SlotRows P schema form (TableScan.new form slots).slots := by
  unfold TableScan.new
  split
  · have happend := h.append
    rename_i hnil
    rw [hnil, List.nil_append] at happend
    exact happend
  · exact h

theorem SlotRows.set (h : SlotRows P schema form slots) {slot : Slot Row} (i : ℕ)
    (hslot : P schema slot.row) : SlotRows P schema form (slots.set i slot) := by
  refine ⟨h.blank, fun slot' hslot' => ?_⟩
  rcases List.mem_or_eq_of_mem_set hslot' with hmem | heq
  · exact h.rows slot' hmem
  · rw [heq]
    exact hslot

theorem SlotRows.insert {ts : TableScan Row} (h : SlotRows P schema form ts.slots) :
    SlotRows P schema form (ts.insert form).slots := by
  obtain ⟨slots, i, slot, hslots, hslot, -, heq, -⟩ := insert_cases form ts
  have hall : SlotRows P schema form slots := by
    rcases hslots with hsame | hlonger
    · rw [hsame]
      exact h
    · rw [hlonger]
      exact h.append
  rw [heq]
  apply hall.set
  exact hall.rows slot (List.mem_of_getElem? hslot)

theorem SlotRows.get {ts : TableScan Row} (h : SlotRows P schema form ts.slots) {i : ℕ}
    {slot : Slot Row} (hget : ts.get form = .ok (i, slot)) : P schema slot.row := by
  unfold TableScan.get at hget
  split at hget
  · split at hget
    · rename_i hslot
      cases hget
      exact h.rows slot (List.mem_of_getElem? hslot)
    · cases hget
  · cases hget

end Slots

section Commands

/-- All rows of all tables have the property. -/
def RowsAre (P : Schema → Row → Prop) (db : Db) : Prop :=
  ∀ tableName t, db.tables tableName = some t → SlotRows P t.schema t.form t.slots

variable {db db' : Db} {n : ℕ} {t : Table}

theorem RowsAre.setTable (h : RowsAre P db) {tableName : Name}
    (ht : SlotRows P t.schema t.form t.slots) (index : Indexes) :
    RowsAre P { db.setTable tableName t with index := index } := by
  intro tableName' t' ht'
  by_cases heq : tableName' = tableName
  · rw [heq] at ht'
    have hsame : t = t' := Option.some.inj ((setTable_self db tableName t).symm.trans ht')
    rw [← hsame]
    exact ht
  · apply h tableName'
    exact (setTable_ne db t heq).symm.trans ht'

theorem insertValues_kept (hP : Kept P) {infos : List IndexInfo} {rid : Rid}
    {fields : List Name} {values : List Constant} {row row' : Row} {index index' : Indexes}
    (hrow : P schema row)
    (h : insertValues schema infos rid fields values (row, index) = .ok (row', index')) :
    P schema row' := by
  induction fields generalizing values row index with
  | nil =>
    cases h
    exact hrow
  | cons field fields ih =>
    cases values with
    | nil => cases h
    | cons value values =>
      obtain ⟨row₁, hset, h⟩ := bind_eq_ok.mp h
      obtain ⟨index₁, -, h⟩ := bind_eq_ok.mp h
      exact ih (hP.set hrow hset) h

theorem RowsAre.insert (hP : Kept P) (h : RowsAre P db) {data : InsertData}
    (hok : executeInsert db data = .ok (n, db')) : RowsAre P db' := by
  unfold executeInsert at hok
  obtain ⟨t, htp, hok⟩ := bind_eq_ok.mp hok
  have ht := h data.tableName t (tablePlan_eq_ok htp)
  obtain ⟨rid, -, hok⟩ := bind_eq_ok.mp hok
  obtain ⟨infos, -, hok⟩ := bind_eq_ok.mp hok
  obtain ⟨⟨i, slot⟩, hget, hok⟩ := bind_eq_ok.mp hok
  obtain ⟨⟨row, index⟩, hvalues, hok⟩ := bind_eq_ok.mp hok
  have hrow := insertValues_kept hP (ht.new.insert.get hget) hvalues
  cases hok
  apply h.setTable
  exact ht.new.insert.set i hrow

/-- A loop over the records whose body keeps the property. -/
theorem RowsAre.walked (h : RowsAre P db) {tableName : Name} {sat : Row → Result Bool}
    {act : ℕ → Slot Row → ℕ × Indexes → Result (Slot Row × ℕ × Indexes)}
    {p : List (Slot Row) × ℕ × Indexes} (htable : db.tables tableName = some t)
    (hact : ∀ i slot s slot' s', P t.schema slot.row → act i slot s = .ok (slot', s') →
      P t.schema slot'.row)
    (hwalk : walk sat act 0 t.opened (0, db.index) = .ok p) :
    RowsAre P (finish db tableName t p).2 := by
  have ht := h tableName t htable
  have hrows := (walk_invariant (P := fun _ => True)
    (fun i slot s slot' s' _ hrow _ hok => ⟨hact i slot s slot' s' hrow hok, trivial⟩)
    ht.new.rows trivial hwalk).1
  apply h.setTable
  exact ⟨ht.blank, hrows⟩

theorem RowsAre.delete (h : RowsAre P db) {data : DeleteData}
    (hok : executeDelete db data = .ok (n, db')) : RowsAre P db' := by
  rw [executeDelete_eq] at hok
  obtain ⟨t, htp, hok⟩ := bind_eq_ok.mp hok
  obtain ⟨infos, -, hok⟩ := bind_eq_ok.mp hok
  obtain ⟨p, hwalk, hfinish⟩ := map_eq_ok.mp hok
  have hdb : db' = (finish db data.tableName t p).2 := (congrArg Prod.snd hfinish).symm
  rw [hdb]
  refine h.walked (tablePlan_eq_ok htp) ?_ hwalk
  intro i slot s slot' s' hrow hslot
  obtain ⟨index, -, hslot⟩ := bind_eq_ok.mp hslot
  cases hslot
  exact hrow

theorem RowsAre.modify (hP : Kept P) (h : RowsAre P db) {data : ModifyData}
    (hok : executeModify db data = .ok (n, db')) : RowsAre P db' := by
  rw [executeModify_eq] at hok
  obtain ⟨t, htp, hok⟩ := bind_eq_ok.mp hok
  obtain ⟨infos, -, hok⟩ := bind_eq_ok.mp hok
  obtain ⟨p, hwalk, hfinish⟩ := map_eq_ok.mp hok
  have hdb : db' = (finish db data.tableName t p).2 := (congrArg Prod.snd hfinish).symm
  rw [hdb]
  refine h.walked (tablePlan_eq_ok htp) ?_ hwalk
  intro i slot s slot' s' hrow hslot
  obtain ⟨newValue, -, hslot⟩ := bind_eq_ok.mp hslot
  obtain ⟨oldValue, -, hslot⟩ := bind_eq_ok.mp hslot
  obtain ⟨row, hset, hslot⟩ := bind_eq_ok.mp hslot
  obtain ⟨index, -, hslot⟩ := bind_eq_ok.mp hslot
  cases hslot
  exact hP.set hrow hset

theorem RowsAre.createTable (hP : Kept P) (h : RowsAre P db) {B : BlockSize}
    {data : CreateTableData} (hok : executeCreateTable db B data = .ok (n, db')) :
    RowsAre P db' := by
  unfold executeCreateTable at hok
  split at hok
  · split at hok
    · split at hok
      · rename_i f hform
        cases hok
        refine h.setTable ⟨?_, by simp⟩ db.index
        show P data.newSchema f.blank
        rw [form_blank hform]
        exact hP.blank data.newSchema
      · cases hok
    · cases hok
  · cases hok

/-- Every command that succeeds keeps the property. -/
theorem RowsAre.execute (hP : Kept P) (h : RowsAre P db) {B : BlockSize} {cmd : Command}
    (hok : UpdatePlanner.execute db B cmd = .ok (n, db')) : RowsAre P db' := by
  cases cmd with
  | insert data => exact h.insert hP hok
  | delete data => exact h.delete hok
  | modify data => exact h.modify hP hok
  | createTable data => exact h.createTable hP hok
  | createView data =>
    cases hok
    exact h
  | createIndex data =>
    unfold UpdatePlanner.execute executeCreateIndex at hok
    dsimp only at hok
    split at hok
    · cases hok
      exact h
    · cases hok

end Commands

section Fitting

/-- No string of the schema has a negative length. -/
def Sized (schema : Schema) : Prop :=
  ∀ F info, schema.fieldInfo F = some info → 0 ≤ info.length.toInt

/-- What a value that is written leaves of a row. -/
theorem setValue_cases {row row' : Row} {F : Name} {val : Constant}
    (h : setValue schema row F val = .ok row') :
    ∃ info c, schema.fieldInfo F = some info ∧ row' = Function.update row F c ∧
      ∀ s, c.sval = some s → (s.length : ℤ) ≤ info.length.toInt := by
  unfold setValue at h
  split at h
  · cases h
  · rename_i info hinfo
    split at h
    · split at h
      · split at h
        · rename_i s _ hlength
          cases h
          refine ⟨info, .ofString s, hinfo, rfl, fun s' hs' => ?_⟩
          cases hs'
          exact hlength
        · cases h
      · cases h
    · split at h
      · rename_i n _
        cases h
        refine ⟨info, .ofInt n, hinfo, rfl, fun s hs => ?_⟩
        cases hs
      · cases h

end Fitting

section Updates

variable {overflow : ℕ → Option Int32} {B : BlockSize}

end Updates

section Examples

/-- Whether each field of the schema has a length that is not negative. -/
def sizedFields (schema : Schema) : Bool :=
  schema.fields.all (fun F => (schema.fieldInfo F).all (fun info => 0 ≤ info.length.toInt))

/-- The number of records of the table after these updates, and whether its lengths are not
negative. -/
def recordsOf (updates : List Text) (tableName : Name) : Result (ℕ × Bool) := do
  let D ← commands updates .empty
  let t ← tablePlan D.db tableName
  return (t.records.length, sizedFields t.schema)

end Examples

end SampleDB.RowProperties
