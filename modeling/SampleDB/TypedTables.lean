import SampleDB.CommandAcceptance
import SampleDB.Printing
import SampleDB.Scans

/-!
Tables whose records hold a value of its declared type in every field. A field is read and
written by its declared type, so every table is one of these: the commands of the update planner
keep that it is. A database has such tables, and views.
-/
namespace SampleDB.TypedTables

open Lexer Schemas Statements SqlParser Acceptance Pages Blocks TableScans UpdatePlanner Scans

section Values

/-- The two kinds of constants; a boolean is an integer. -/
inductive Kind
  | integer
  | string
  deriving DecidableEq, Repr

def kind : FieldType → Kind
  | .integer => .integer
  | .varchar => .string
  | .boolean => .integer

/-- An integer constant, or a string constant. -/
def OfKind : Kind → Constant → Prop
  | .integer, c => ∃ n, c = .ofInt n
  | .string, c => ∃ s, c = .ofString s

theorem OfKind.unique {k k' : Kind} {c : Constant} (h : OfKind k c) (h' : OfKind k' c) :
    k = k' := by
  cases k with
  | integer =>
    obtain ⟨n, rfl⟩ := h
    cases k' with
    | integer => rfl
    | string =>
      obtain ⟨s, hs⟩ := h'
      cases hs
  | string =>
    obtain ⟨s, rfl⟩ := h
    cases k' with
    | integer =>
      obtain ⟨n, hn⟩ := h'
      cases hn
    | string => rfl

theorem OfKind.not_null {k : Kind} {c : Constant} (h : OfKind k c) : c.isNull = false := by
  cases k with
  | integer =>
    obtain ⟨n, rfl⟩ := h
    rfl
  | string =>
    obtain ⟨s, rfl⟩ := h
    rfl

end Values

section Listed

/-- A schema lists the fields that it has. -/
def Listed (schema : Schema) : Prop :=
  ∀ fieldName, fieldName ∈ schema.fields ↔ schema.hasField fieldName = true

theorem listed_empty : Listed .empty := by
  intro fieldName
  simp [Schema.empty, Schema.hasField]

theorem hasField_addField (s : Schema) (name fieldName : Name) (info : FieldInfo) :
    (s.addField name info).hasField fieldName =
    (decide (fieldName = name) || s.hasField fieldName) := by
  unfold Schema.hasField
  by_cases heq : fieldName = name
  · rw [heq, Schema.addField_info_self, decide_eq_true rfl]
    rfl
  · rw [Schema.addField_info_ne s info heq, decide_eq_false heq]
    rfl

theorem listed_addField {s : Schema} (h : Listed s) (name : Name) (info : FieldInfo) :
    Listed (s.addField name info) := by
  intro fieldName
  rw [hasField_addField, Bool.or_eq_true, decide_eq_true_iff]
  show fieldName ∈ s.fields ++ [name] ↔ _
  rw [List.mem_append, List.mem_singleton, h fieldName]
  exact or_comm

theorem listed_ofFields (defs : List (Name × FieldInfo)) : Listed (.ofFields defs) := by
  have hloop : ∀ (defs : List (Name × FieldInfo)) (s : Schema), Listed s →
      Listed (defs.foldl (fun s d => s.addField d.1 d.2) s) := by
    intro defs
    induction defs with
    | nil => exact fun s h => h
    | cons d defs ih => exact fun s h => ih _ (listed_addField h d.1 d.2)
  exact hloop defs .empty listed_empty

/-- The schema that a command makes a table with. -/
theorem listed_createTable {overflow : ℕ → Option Int32} {update : Text} {data : CreateTableData}
    (h : parse (updateCmd overflow) update = .ok (.createTable data)) : Listed data.newSchema := by
  unfold parse at h
  cases hcmd : updateCmd overflow (tokens update) with
  | error e =>
    rw [hcmd] at h
    cases h
  | ok p =>
    obtain ⟨cmd, rest⟩ := p
    rw [hcmd] at h
    obtain ⟨ts, last, -, hcmd, -⟩ := (updateCmd_eq_ok overflow).mp hcmd
    cases h
    cases hcmd with
    | createTable hcreate hword htable hleft hdefs hright => exact listed_ofFields _

end Listed

section Rows

/-- Every field holds a value of its declared type. -/
def TypedRow (schema : Schema) (row : Row) : Prop :=
  ∀ fieldName info, schema.fieldInfo fieldName = some info → OfKind (kind info.type) (row fieldName)

theorem blankRow_typed (schema : Schema) : TypedRow schema (blankRow schema) := by
  intro fieldName info hinfo
  unfold blankRow
  rw [hinfo]
  cases htype : info.type with
  | integer => exact ⟨0, congrArg blankValue htype⟩
  | varchar => exact ⟨[], congrArg blankValue htype⟩
  | boolean => exact ⟨0, congrArg blankValue htype⟩

/-- A value is written by the declared type of its field. -/
theorem setValue_typed {schema : Schema} {row row' : Row} {fieldName : Name} {val : Constant}
    (hrow : TypedRow schema row) (h : setValue schema row fieldName val = .ok row') :
    TypedRow schema row' := by
  unfold setValue at h
  split at h
  · cases h
  · rename_i info hinfo
    obtain ⟨c, hc, hrow'⟩ : ∃ c, OfKind (kind info.type) c ∧
      row' = Function.update row fieldName c := by
      split at h
      · rename_i htype
        split at h
        · split at h
          · cases h
            exact ⟨_, htype ▸ ⟨_, rfl⟩, rfl⟩
          · cases h
        · cases h
      · rename_i htype
        split at h
        · cases h
          refine ⟨_, ?_, rfl⟩
          cases hkind : info.type with
          | integer => exact ⟨_, rfl⟩
          | varchar => exact absurd hkind htype
          | boolean => exact ⟨_, rfl⟩
        · cases h
    rw [hrow']
    intro name info' hinfo'
    by_cases heq : name = fieldName
    · rw [heq] at hinfo' ⊢
      obtain rfl := Option.some.inj (hinfo.symm.trans hinfo')
      rw [Function.update_self]
      exact hc
    · rw [Function.update_of_ne heq]
      exact hrow name info' hinfo'

end Rows

section Slots

/-- The rows of all slots, and the row that a new slot gets. -/
structure TypedSlots (schema : Schema) (form : Form Row) (slots : List (Slot Row)) : Prop where
  blank : TypedRow schema form.blank
  rows : ∀ slot ∈ slots, TypedRow schema slot.row

variable {schema : Schema} {form : Form Row} {slots : List (Slot Row)}

theorem TypedSlots.new (h : TypedSlots schema form slots) :
    TypedSlots schema form (TableScan.new form slots).slots := by
  refine ⟨h.blank, ?_⟩
  unfold TableScan.new
  split
  · intro slot hslot
    rw [(List.mem_replicate.mp hslot).2]
    exact h.blank
  · exact h.rows

theorem TypedSlots.set (h : TypedSlots schema form slots) {slot : Slot Row} (i : ℕ)
    (hslot : TypedRow schema slot.row) : TypedSlots schema form (slots.set i slot) := by
  refine ⟨h.blank, ?_⟩
  intro slot' hslot'
  rcases List.mem_or_eq_of_mem_set hslot' with hmem | rfl
  · exact h.rows slot' hmem
  · exact hslot

theorem TypedSlots.insert {ts : TableScan Row} (h : TypedSlots schema form ts.slots) :
    TypedSlots schema form (ts.insert form).slots := by
  obtain ⟨slots, i, slot, hslots, hslot, -, heq, -⟩ := insert_cases form ts
  have hall : TypedSlots schema form slots := by
    rcases hslots with rfl | rfl
    · exact h
    · refine ⟨h.blank, ?_⟩
      intro slot' hslot'
      rcases List.mem_append.mp hslot' with hslot' | hslot'
      · exact h.rows slot' hslot'
      · rw [(List.mem_replicate.mp hslot').2]
        exact h.blank
  rw [heq]
  exact hall.set i (hall.rows slot (List.mem_of_getElem? hslot))

theorem TypedSlots.get {ts : TableScan Row} (h : TypedSlots schema form ts.slots) {i : ℕ}
    {slot : Slot Row} (hget : ts.get form = .ok (i, slot)) : TypedRow schema slot.row := by
  unfold TableScan.get at hget
  split at hget
  · split at hget
    · rename_i hslot
      cases hget
      exact h.rows slot (List.mem_of_getElem? hslot)
    · cases hget
  · cases hget

end Slots

section Tables

structure TypedTable (t : Table) : Prop where
  listed : Listed t.schema
  slots : TypedSlots t.schema t.form t.slots

def TypedDb (db : Db) : Prop := ∀ tableName t, db.tables tableName = some t → TypedTable t

variable {db db' : Db} {n : ℕ}

theorem typedDb_empty : TypedDb .empty := by
  intro tableName t ht
  cases ht

theorem TypedDb.setTable (h : TypedDb db) {tableName : Name} {t : Table} (ht : TypedTable t)
    (index : Indexes) : TypedDb { db.setTable tableName t with index := index } := by
  intro tableName' t' ht'
  by_cases heq : tableName' = tableName
  · rw [heq] at ht'
    cases (setTable_self db tableName t).symm.trans ht'
    exact ht
  · exact h tableName' t' ((setTable_ne db t heq).symm.trans ht')

theorem TypedTable.withSlots {t : Table} (h : TypedTable t) {slots : List (Slot Row)}
    (hslots : TypedSlots t.schema t.form slots) : TypedTable (t.withSlots slots) :=
  ⟨h.listed, hslots⟩

theorem insertValues_typed {schema : Schema} {infos : List IndexInfo} {rid : Rid}
    {fields : List Name} {values : List Constant} {row row' : Row} {index index' : Indexes}
    (hrow : TypedRow schema row)
    (h : insertValues schema infos rid fields values (row, index) = .ok (row', index')) :
    TypedRow schema row' := by
  induction fields generalizing values row index with
  | nil =>
    cases h
    exact hrow
  | cons field fields ih =>
    cases values with
    | nil => cases h
    | cons value values =>
      obtain ⟨row₁, hset, h⟩ := bind_eq_ok.mp h
      obtain ⟨index₁, -, h⟩ := bind_eq_ok.mp h
      exact ih (setValue_typed hrow hset) h

theorem TypedDb.insert (h : TypedDb db) {data : InsertData}
    (hok : executeInsert db data = .ok (n, db')) : TypedDb db' := by
  unfold executeInsert at hok
  obtain ⟨t, htp, hok⟩ := bind_eq_ok.mp hok
  have ht := h data.tableName t (tablePlan_eq_ok htp)
  obtain ⟨rid, -, hok⟩ := bind_eq_ok.mp hok
  obtain ⟨infos, -, hok⟩ := bind_eq_ok.mp hok
  obtain ⟨⟨i, slot⟩, hget, hok⟩ := bind_eq_ok.mp hok
  obtain ⟨⟨row, index⟩, hvalues, hok⟩ := bind_eq_ok.mp hok
  have hinserted := ht.slots.new.insert
  have hrow := insertValues_typed (hinserted.get hget) hvalues
  cases hok
  exact h.setTable (ht.withSlots (hinserted.set i hrow)) index

/-- A loop over the records that leaves each of them typed. -/
theorem TypedDb.walked (h : TypedDb db) {tableName : Name} {t : Table} {sat : Row → Result Bool}
    {act : ℕ → Slot Row → ℕ × Indexes → Result (Slot Row × ℕ × Indexes)}
    {p : List (Slot Row) × ℕ × Indexes} (htable : db.tables tableName = some t)
    (hact : ∀ i slot s slot' s', TypedRow t.schema slot.row → act i slot s = .ok (slot', s') →
      TypedRow t.schema slot'.row)
    (hwalk : walk sat act 0 t.opened (0, db.index) = .ok p) :
    TypedDb (finish db tableName t p).2 := by
  have ht := h tableName t htable
  have hrows := (walk_invariant (P := fun _ => True)
    (fun i slot s slot' s' _ hrow _ hok => ⟨hact i slot s slot' s' hrow hok, trivial⟩)
    ht.slots.new.rows trivial hwalk).1
  exact h.setTable (ht.withSlots ⟨ht.slots.blank, hrows⟩) p.2.2

theorem TypedDb.delete (h : TypedDb db) {data : DeleteData}
    (hok : executeDelete db data = .ok (n, db')) : TypedDb db' := by
  rw [executeDelete_eq] at hok
  obtain ⟨t, htp, hok⟩ := bind_eq_ok.mp hok
  obtain ⟨infos, -, hok⟩ := bind_eq_ok.mp hok
  obtain ⟨p, hwalk, hfinish⟩ := map_eq_ok.mp hok
  have hdb : db' = (finish db data.tableName t p).2 := (congrArg Prod.snd hfinish).symm
  rw [hdb]
  refine h.walked (tablePlan_eq_ok htp) ?_ hwalk
  intro i slot s slot' s' hrow hslot
  obtain ⟨index, -, hslot⟩ := bind_eq_ok.mp hslot
  cases hslot
  exact hrow

theorem TypedDb.modify (h : TypedDb db) {data : ModifyData}
    (hok : executeModify db data = .ok (n, db')) : TypedDb db' := by
  rw [executeModify_eq] at hok
  obtain ⟨t, htp, hok⟩ := bind_eq_ok.mp hok
  obtain ⟨infos, -, hok⟩ := bind_eq_ok.mp hok
  obtain ⟨p, hwalk, hfinish⟩ := map_eq_ok.mp hok
  have hdb : db' = (finish db data.tableName t p).2 := (congrArg Prod.snd hfinish).symm
  rw [hdb]
  refine h.walked (tablePlan_eq_ok htp) ?_ hwalk
  intro i slot s slot' s' hrow hslot
  obtain ⟨newValue, -, hslot⟩ := bind_eq_ok.mp hslot
  obtain ⟨oldValue, -, hslot⟩ := bind_eq_ok.mp hslot
  obtain ⟨row, hset, hslot⟩ := bind_eq_ok.mp hslot
  obtain ⟨index, -, hslot⟩ := bind_eq_ok.mp hslot
  cases hslot
  exact setValue_typed hrow hset

theorem form_blank {B : BlockSize} {schema : Schema} {f : Form Row} (h : form B schema = some f) :
    f.blank = blankRow schema := by
  unfold form at h
  split at h
  · cases h
    rfl
  · cases h

theorem TypedDb.createTable (h : TypedDb db) {B : BlockSize} {data : CreateTableData}
    (hlisted : Listed data.newSchema) (hok : executeCreateTable db B data = .ok (n, db')) :
    TypedDb db' := by
  unfold executeCreateTable at hok
  split at hok
  · split at hok
    · split at hok
      · rename_i f hform
        cases hok
        refine h.setTable ⟨hlisted, ?_, by simp⟩ db.index
        show TypedRow data.newSchema f.blank
        rw [form_blank hform]
        exact blankRow_typed data.newSchema
      · cases hok
    · cases hok
  · cases hok

/-- Every command that succeeds leaves the records typed. -/
theorem TypedDb.execute (h : TypedDb db) {B : BlockSize} {cmd : Command}
    (hlisted : ∀ data, cmd = .createTable data → Listed data.newSchema)
    (hok : execute db B cmd = .ok (n, db')) : TypedDb db' := by
  cases cmd with
  | insert data => exact h.insert hok
  | delete data => exact h.delete hok
  | modify data => exact h.modify hok
  | createTable data => exact h.createTable (hlisted data rfl) hok
  | createView data =>
    cases hok
    exact h
  | createIndex data =>
    unfold UpdatePlanner.execute executeCreateIndex at hok
    dsimp only at hok
    split at hok
    · cases hok
      exact h
    · cases hok

end Tables

section Databases

/-- Tables and their indexes, and the views, the oldest first. -/
structure Database where
  db : Db
  views : List (Name × Text)
  typed : TypedDb db

namespace Database

def empty : Database := ⟨.empty, [], typedDb_empty⟩

/-- A view is stored as the text of its query, of at most `MAX_VIEW_DEF` characters. -/
def addView (views : List (Name × Text)) : Command → Result (List (Name × Text))
  | .createView data =>
      if fitsCatalog data.viewName && data.queryData.toString.length ≤ 100 then
        .ok (views ++ [(data.viewName, data.queryData.toString)])
      else .error .outside
  | _ => .ok views

/-- An update leaves a database of typed tables. -/
def executeUpdate (overflow : ℕ → Option Int32) (B : BlockSize) (D : Database) (update : Text) :
    Result (ℕ × Database) :=
  match hparse : parse (updateCmd overflow) update with
  | .error _ => .error .exception
  | .ok cmd =>
    match addView D.views cmd, hok : execute D.db B cmd with
    | .ok views, .ok (n, db) =>
        .ok (n, ⟨db, views, D.typed.execute
          (fun _ hdata => listed_createTable (hdata ▸ hparse)) hok⟩)
    | .error f, _ => .error f
    | _, .error f => .error f

end Database

end Databases

end SampleDB.TypedTables
