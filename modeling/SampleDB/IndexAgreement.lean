import Mathlib.Data.List.Nodup
import SampleDB.Runs
import SampleDB.UpdatePlanner

/-!
Indexes and tables. A run of commands on an empty database keeps every index equal to the
field values of its table, as long as an index is created on an empty table, as the only
one on its field and under a name of its own, and an insertion lists every indexed field.
-/
namespace SampleDB.IndexAgreement

open Lexer Schemas Statements Pages Blocks TableScans UpdatePlanner

/-- What a lookup of a key returns. -/
def lookup (entries : List (Constant × Rid)) (val : Constant) : List Rid :=
  (entries.filter (fun e => e.1 = val)).map Prod.snd

/-- The records whose field has this value. -/
def holders (t : Table) (fieldName : Name) (val : Constant) : List Rid :=
  (t.records.filter (fun r => r.2 fieldName = val)).map Prod.fst

/-- A lookup in any index of the catalog returns exactly the records with that value. -/
def Agree (db : Db) : Prop :=
  ∀ info ∈ db.idxcat, ∀ t, db.tables info.tableName = some t → ∀ val,
    (lookup (db.index info.indexName) val).Perm (holders t info.fieldName val)

/-- An insertion lists each indexed field once; an index is created on a table without records,
under a new name, as the only one on its field. -/
def Proceeds (db : Db) : Command → Prop
  | .insert data =>
      (∀ info ∈ db.idxcat, info.tableName = data.tableName →
        data.fieldNames.count info.fieldName = 1) ∧ ∀ val ∈ data.values, Plain val
  | .modify data => Plain data.newValue.value
  | .createIndex data =>
      data.indexName ≠ [] ∧ (∀ info ∈ db.idxcat, info.indexName ≠ data.indexName) ∧
        (∀ info ∈ db.idxcat, info.tableName = data.tableName →
          info.fieldName ≠ data.fieldName) ∧
        ∀ t, db.tables data.tableName = some t → t.records = []
  | _ => True

/-- The entries that an index on the field should have. -/
def entry (fieldName : Name) (r : Rid × Row) : Constant × Rid := (r.2 fieldName, r.1)

structure PlainTable (t : Table) : Prop where
  blank : PlainRow t.form.blank
  slots : ∀ slot ∈ t.slots, PlainRow slot.row

structure Inv (db : Db) : Prop where
  names : (db.idxcat.map IndexInfo.indexName).Nodup
  fields : (db.idxcat.map (fun info => (info.tableName, info.fieldName))).Nodup
  named : ∀ info ∈ db.idxcat, info.indexName ≠ []
  fresh : ∀ name, (∀ info ∈ db.idxcat, info.indexName ≠ name) → db.index name = []
  missing : ∀ info ∈ db.idxcat, db.tables info.tableName = none → db.index info.indexName = []
  agree : ∀ info ∈ db.idxcat, ∀ t, db.tables info.tableName = some t →
    (db.index info.indexName).Perm (t.records.map (entry info.fieldName))
  plain : ∀ tableName t, db.tables tableName = some t → PlainTable t

variable {db db' : Db} {t : Table} {schema : Schema} {info : IndexInfo} {infos : List IndexInfo}
  {index index' : Indexes} {row row' : Row} {rid : Rid} {val key : Constant}

theorem Inv.agrees (h : Inv db) : Agree db := by
  intro info hinfo t ht val
  have hperm := ((h.agree info hinfo t ht).filter (fun e => e.1 = val)).map Prod.snd
  have hsame : ((t.records.map (entry info.fieldName)).filter (fun e => e.1 = val)).map Prod.snd =
      holders t info.fieldName val := by
    rw [List.filter_map, List.map_map]
    rfl
  rw [hsame] at hperm
  exact hperm

section Infos

/-- The indexes on one table. -/
structure Proper (infos : List IndexInfo) : Prop where
  fields : (infos.map IndexInfo.fieldName).Nodup
  names : (infos.map IndexInfo.indexName).Nodup
  notNull : ∀ info ∈ infos, info.isNull = false

theorem Proper.name_ne {info' : IndexInfo} (h : Proper infos) (hinfo : info ∈ infos)
    (hinfo' : info' ∈ infos) (hne : info.fieldName ≠ info'.fieldName) :
    info.indexName ≠ info'.indexName := by
  intro heq
  have hsame := List.inj_on_of_nodup_map h.names hinfo hinfo' heq
  exact hne (congrArg IndexInfo.fieldName hsame)

theorem infoOn_cases {fieldName : Name} (h : infoOn infos fieldName = some info) :
    info ∈ infos ∧ info.fieldName = fieldName := by
  obtain ⟨hfind, -⟩ := Option.filter_eq_some_iff.mp h
  exact ⟨List.mem_of_find?_eq_some hfind, by simpa using List.find?_some hfind⟩

theorem Proper.infoOn (h : Proper infos) (hinfo : info ∈ infos) :
    infoOn infos info.fieldName = some info := by
  unfold UpdatePlanner.infoOn
  have hfind : infos.find? (fun i => i.fieldName = info.fieldName) = some info := by
    cases hfound : infos.find? (fun i => i.fieldName = info.fieldName) with
    | none =>
      have hnone := List.find?_eq_none.mp hfound info hinfo
      exact absurd (decide_eq_true rfl) hnone
    | some i =>
      have hi : i.fieldName = info.fieldName := by simpa using List.find?_some hfound
      rw [List.inj_on_of_nodup_map h.fields (List.mem_of_find?_eq_some hfound) hinfo hi]
  rw [hfind, Option.filter_some, h.notNull info hinfo]
  rfl

/-- Indexes on different fields are all kept. -/
theorem foldlM_addIndexInfo {acc kept : List IndexInfo}
    (hnodup : ((acc ++ infos).map IndexInfo.fieldName).Nodup)
    (h : infos.foldlM (addIndexInfo schema) acc = .ok kept) :
    kept = acc ++ infos ∧ ∀ info ∈ infos, schema.hasField info.fieldName := by
  induction infos generalizing acc with
  | nil =>
    cases h
    exact ⟨(List.append_nil _).symm, by simp⟩
  | cons info infos ih =>
    rw [List.foldlM_cons] at h
    obtain ⟨acc₁, hadd, hrest⟩ := bind_eq_ok.mp h
    unfold addIndexInfo at hadd
    split at hadd
    · rename_i fieldInfo hinfo
      cases hadd
      have hkeep : acc.filter (fun i => i.fieldName ≠ info.fieldName) = acc := by
        refine List.filter_eq_self.mpr (fun i hi => decide_eq_true (fun heq => ?_))
        rw [List.map_append, List.map_cons] at hnodup
        exact (List.nodup_append.mp hnodup).2.2 _ (List.mem_map_of_mem hi) _ List.mem_cons_self heq
      rw [hkeep] at hrest
      rw [List.append_cons] at hnodup
      obtain ⟨rfl, hall⟩ := ih hnodup hrest
      refine ⟨by rw [List.append_assoc]; rfl, List.forall_mem_cons.mpr ⟨?_, hall⟩⟩
      unfold Schema.hasField
      rw [hinfo]
      rfl
    · cases hadd

/-- The indexes on a table are all those that the catalog has. -/
theorem Inv.getIndexInfo (h : Inv db) {tableName : Name} (ht : t.schema = schema)
    (hinfos : UpdatePlanner.getIndexInfo db tableName schema = .ok infos) :
    infos = db.idxcat.filter (fun info => info.tableName = tableName) ∧ Proper infos := by
  have hsub := List.filter_sublist (p := fun info : IndexInfo => info.tableName = tableName)
    (l := db.idxcat)
  have hpairs := h.fields.sublist (hsub.map (fun info => (info.tableName, info.fieldName)))
  have hsame : (db.idxcat.filter (fun info => info.tableName = tableName)).map
      (fun info => (info.tableName, info.fieldName)) =
      ((db.idxcat.filter (fun info => info.tableName = tableName)).map IndexInfo.fieldName).map
        (fun fieldName => (tableName, fieldName)) := by
    rw [List.map_map]
    refine List.map_congr_left (fun info hinfo => ?_)
    rw [of_decide_eq_true (List.mem_filter.mp hinfo).2]
    rfl
  rw [hsame] at hpairs
  have hfields := hpairs.of_map
  obtain ⟨heq, hhas⟩ := foldlM_addIndexInfo (by simpa using hfields) hinfos
  rw [List.nil_append] at heq
  rw [heq]
  refine ⟨rfl, hfields, h.names.sublist (hsub.map _), ?_⟩
  intro info hinfo
  have hname := h.named info (List.mem_filter.mp hinfo).1
  have hfield : info.fieldName ≠ [] := by
    intro hnil
    have hsome := hhas info hinfo
    unfold Schema.hasField at hsome
    rw [← ht, hnil, t.named] at hsome
    cases hsome
  unfold IndexInfo.isNull
  rw [decide_eq_false hname, decide_eq_false hfield]
  rfl

end Infos

section Entries

/-- The entries of a column that an insertion lists, and of one that it does not list. -/
structure Inserted (infos : List IndexInfo) (rid : Rid) (fields : List Name) (row : Row)
    (index : Indexes) (row' : Row) (index' : Indexes) : Prop where
  plain : PlainRow row → PlainRow row'
  frame : ∀ name, (∀ info ∈ infos, info.indexName ≠ name) → index' name = index name
  unlisted : ∀ info ∈ infos, fields.count info.fieldName = 0 →
    row' info.fieldName = row info.fieldName ∧ index' info.indexName = index info.indexName
  listed : ∀ info ∈ infos, fields.count info.fieldName = 1 →
    index' info.indexName = (row' info.fieldName, rid) :: index info.indexName

/-- One column. -/
theorem insertValue_cases {field : Name} {value : Constant} (hproper : Proper infos)
    (hplain : Plain value) (hrow : setValue schema row field value = .ok row')
    (hindex : insertEntry schema rid value (infoOn infos field) index = .ok index') :
    (PlainRow row → PlainRow row') ∧
    (∀ name, (∀ info ∈ infos, info.indexName ≠ name) → index' name = index name) ∧
    ∀ info ∈ infos,
      if info.fieldName = field then
        row' info.fieldName = value ∧
          index' info.indexName = (value, rid) :: index info.indexName
      else row' info.fieldName = row info.fieldName ∧
        index' info.indexName = index info.indexName := by
  obtain ⟨c, rfl, hc, hvalue⟩ := setValue_cases hrow
  rw [hvalue hplain]
  refine ⟨?_, ?_, ?_⟩
  · intro hprow name
    by_cases heq : name = field
    · rw [heq, Function.update_self]
      exact hplain
    · rw [Function.update_of_ne heq]
      exact hprow name
  · intro name hname
    cases hon : infoOn infos field with
    | some info =>
      rw [hon] at hindex
      exact (changeIndex_cases hplain hindex).2 name (Ne.symm (hname info (infoOn_cases hon).1))
    | none =>
      rw [hon] at hindex
      cases hindex
      rfl
  · intro info hinfo
    by_cases heq : info.fieldName = field
    · rw [if_pos heq, heq, Function.update_self]
      rw [← heq, hproper.infoOn hinfo] at hindex
      exact ⟨rfl, (changeIndex_cases hplain hindex).1⟩
    · rw [if_neg heq, Function.update_of_ne heq]
      refine ⟨rfl, ?_⟩
      cases hon : infoOn infos field with
      | some info' =>
        rw [hon] at hindex
        obtain ⟨hmem, rfl⟩ := infoOn_cases hon
        exact (changeIndex_cases hplain hindex).2 _ (hproper.name_ne hinfo hmem heq)
      | none =>
        rw [hon] at hindex
        cases hindex
        rfl

theorem insertValues_cases {fields : List Name} {values : List Constant} (hproper : Proper infos)
    (hplain : ∀ val ∈ values, Plain val)
    (h : insertValues schema infos rid fields values (row, index) = .ok (row', index')) :
    Inserted infos rid fields row index row' index' := by
  induction fields generalizing values row index with
  | nil =>
    rw [insertValues] at h
    cases h
    exact ⟨id, fun _ _ => rfl, fun _ _ _ => ⟨rfl, rfl⟩, fun _ _ hcount => by cases hcount⟩
  | cons field fields ih =>
    cases values with
    | nil =>
      rw [insertValues] at h
      cases h
    | cons value values =>
      rw [List.forall_mem_cons] at hplain
      rw [insertValues] at h
      obtain ⟨row₁, hrow, h⟩ := bind_eq_ok.mp h
      obtain ⟨index₁, hindex, h⟩ := bind_eq_ok.mp h
      obtain ⟨hplain₁, hframe₁, hentry₁⟩ := insertValue_cases hproper hplain.1 hrow hindex
      have hrest := ih hplain.2 h
      constructor
      · exact fun hprow => hrest.plain (hplain₁ hprow)
      · intro name hname
        rw [hrest.frame name hname, hframe₁ name hname]
      · intro info hinfo hcount
        rw [List.count_cons] at hcount
        have hne : ¬ info.fieldName = field := by
          intro heq
          rw [heq, beq_self_eq_true, if_pos rfl] at hcount
          omega
        obtain ⟨hrow', hindex'⟩ := hrest.unlisted info hinfo (by omega)
        have hone := hentry₁ info hinfo
        rw [if_neg hne] at hone
        rw [hrow', hindex', hone.1, hone.2]
        exact ⟨rfl, rfl⟩
      · intro info hinfo hcount
        rw [List.count_cons] at hcount
        have hone := hentry₁ info hinfo
        by_cases heq : info.fieldName = field
        · rw [if_pos heq] at hone
          rw [heq, beq_self_eq_true, if_pos rfl, ← heq] at hcount
          obtain ⟨hrow', hindex'⟩ := hrest.unlisted info hinfo (by omega)
          rw [hrow', hindex', hone.1, hone.2]
        · rw [if_neg heq] at hone
          rw [if_neg (by simpa using Ne.symm heq)] at hcount
          rw [hrest.listed info hinfo hcount, hone.2]

/-- The entries of a record that is deleted. -/
theorem removeEntries_cases (hnames : (infos.map IndexInfo.indexName).Nodup) (hplain : PlainRow row)
    (h : removeEntries schema row rid infos index = .ok index') :
    (∀ name, (∀ info ∈ infos, info.indexName ≠ name) → index' name = index name) ∧
    ∀ info ∈ infos, index' info.indexName =
      (index info.indexName).erase (row info.fieldName, rid) := by
  induction infos generalizing index with
  | nil =>
    cases h
    exact ⟨fun _ _ => rfl, by simp⟩
  | cons info infos ih =>
    rw [removeEntries] at h
    obtain ⟨value, hvalue, h⟩ := bind_eq_ok.mp h
    obtain ⟨index₁, hindex, h⟩ := bind_eq_ok.mp h
    rw [getValue_eq_ok hvalue] at hindex
    obtain ⟨hself, hother⟩ := changeIndex_cases (hplain info.fieldName) hindex
    rw [List.map_cons, List.nodup_cons] at hnames
    obtain ⟨hframe, hentries⟩ := ih hnames.2 h
    constructor
    · intro name hname
      rw [List.forall_mem_cons] at hname
      rw [hframe name hname.2, hother name (Ne.symm hname.1)]
    · rw [List.forall_mem_cons]
      constructor
      · rw [hframe info.indexName, hself]
        intro info' hinfo' heq
        exact hnames.1 (heq ▸ List.mem_map_of_mem hinfo')
      · intro info' hinfo'
        rw [hentries info' hinfo', hother]
        intro heq
        exact hnames.1 (heq ▸ List.mem_map_of_mem hinfo')

end Entries

section Steps

/-- The indexes on one table. -/
def onTable (db : Db) (tableName : Name) : List IndexInfo :=
  db.idxcat.filter (fun info => info.tableName = tableName)

theorem mem_onTable {tableName : Name} :
    info ∈ onTable db tableName ↔ info ∈ db.idxcat ∧ info.tableName = tableName := by
  unfold onTable
  rw [List.mem_filter, decide_eq_true_eq]

/-- A command that changes the records of one table and the entries of its indexes. -/
theorem Inv.changed (h : Inv db) {tableName : Name} {slots : List (Slot Row)}
    (htable : db.tables tableName = some t)
    (hframe : ∀ name, (∀ info ∈ onTable db tableName, info.indexName ≠ name) →
      index' name = db.index name)
    (hagree : ∀ info ∈ onTable db tableName, (index' info.indexName).Perm
      ((t.withSlots slots).records.map (entry info.fieldName)))
    (hplain : ∀ slot ∈ slots, PlainRow slot.row) :
    Inv { db.setTable tableName (t.withSlots slots) with index := index' } where
  names := h.names
  fields := h.fields
  named := h.named
  fresh := by
    intro name hname
    have hnone := hframe name (fun info hinfo => hname info (mem_onTable.mp hinfo).1)
    exact hnone.trans (h.fresh name hname)
  missing := by
    intro info hinfo hnone
    have hne : info.tableName ≠ tableName := by
      intro heq
      have hnone' : (db.setTable tableName (t.withSlots slots)).tables info.tableName =
        none := hnone
      rw [heq, setTable_self] at hnone'
      cases hnone'
    have hsame : db.tables info.tableName = none :=
      (setTable_ne db (t.withSlots slots) hne).symm.trans hnone
    have hkept : index' info.indexName = db.index info.indexName := by
      refine hframe info.indexName (fun info' hinfo' heq => hne ?_)
      obtain ⟨hmem', rfl⟩ := mem_onTable.mp hinfo'
      rw [List.inj_on_of_nodup_map h.names hmem' hinfo heq]
    exact hkept.trans (h.missing info hinfo hsame)
  agree := by
    intro info hinfo t' ht'
    by_cases heq : info.tableName = tableName
    · have hsome : (db.setTable tableName (t.withSlots slots)).tables info.tableName =
        some t' := ht'
      rw [heq, setTable_self] at hsome
      cases hsome
      exact hagree info (mem_onTable.mpr ⟨hinfo, heq⟩)
    · have hsame : db.tables info.tableName = some t' :=
        (setTable_ne db (t.withSlots slots) heq).symm.trans ht'
      have hkept : index' info.indexName = db.index info.indexName := by
        refine hframe info.indexName (fun info' hinfo' heq' => heq ?_)
        obtain ⟨hmem', rfl⟩ := mem_onTable.mp hinfo'
        rw [List.inj_on_of_nodup_map h.names hmem' hinfo heq']
      show (index' info.indexName).Perm _
      rw [hkept]
      exact h.agree info hinfo t' hsame
  plain := by
    intro tableName' t' ht'
    by_cases heq : tableName' = tableName
    · rw [heq] at ht'
      cases (setTable_self db tableName (t.withSlots slots)).symm.trans ht'
      exact ⟨(h.plain tableName t htable).blank, hplain⟩
    · exact h.plain tableName' t' ((setTable_ne db (t.withSlots slots) heq).symm.trans ht')

theorem PlainTable.opened (h : PlainTable t) : ∀ slot ∈ t.opened, PlainRow slot.row := by
  unfold Table.opened TableScan.new
  split
  · intro slot hslot
    rw [(List.mem_replicate.mp hslot).2]
    exact h.blank
  · exact h.slots

/-- A loop over the records that keeps the entries of each index in step with each record. -/
theorem Inv.walked (h : Inv db) {tableName : Name} {sat : Row → Result Bool}
    {act : ℕ → Slot Row → ℕ × Indexes → Result (Slot Row × ℕ × Indexes)}
    {p : List (Slot Row) × ℕ × Indexes} (htable : db.tables tableName = some t)
    (hframe : ∀ name, (∀ info ∈ onTable db tableName, info.indexName ≠ name) →
      ∀ i slot s slot' s', PlainRow slot.row → act i slot s = .ok (slot', s') →
        s'.2 name = s.2 name)
    (hplain : ∀ i slot s slot' s', PlainRow slot.row → act i slot s = .ok (slot', s') →
      PlainRow slot'.row)
    (hact : ∀ info ∈ onTable db tableName, ∀ i slot s slot' s', slot.used = true →
      PlainRow slot.row → act i slot s = .ok (slot', s') → ∀ A,
        (s.2 info.indexName).Perm
          ((recordOf t.form i slot).map (entry info.fieldName) ++ A) →
        (s'.2 info.indexName).Perm
          ((recordOf t.form i slot').map (entry info.fieldName) ++ A))
    (hwalk : walk sat act 0 t.opened (0, db.index) = .ok p) :
    Inv (finish db tableName t p).2 := by
  obtain ⟨slots, count, index'⟩ := p
  have hopened := (h.plain tableName t htable).opened
  refine h.changed htable ?_ ?_ ?_
  · intro name hname
    refine (walk_invariant (P := fun s : ℕ × Indexes => s.2 name = db.index name) ?_ hopened rfl
      hwalk).2
    intro i slot s slot' s' _ hrow hs hok
    exact ⟨hplain i slot s slot' s' hrow hok,
      (hframe name hname i slot s slot' s' hrow hok).trans hs⟩
  · intro info hinfo
    obtain ⟨hmem, rfl⟩ := mem_onTable.mp hinfo
    have hbefore := h.agree info hmem t htable
    have hsame : t.records = recordsFrom t.form 0 t.opened := (records_new t.slots).symm
    rw [hsame] at hbefore
    have hafter := walk_entries t.form (fun s : ℕ × Indexes => s.2 info.indexName)
      (entry info.fieldName) (hact info hinfo) hopened hwalk []
      (by rw [List.append_nil]; exact hbefore)
    rw [List.append_nil] at hafter
    exact hafter
  · refine (walk_invariant (P := fun _ : ℕ × Indexes => True) ?_ hopened trivial hwalk).1
    intro i slot s slot' s' _ hrow _ hok
    exact ⟨hplain i slot s slot' s' hrow hok, trivial⟩

theorem Inv.delete (h : Inv db) {data : DeleteData} {n : ℕ}
    (hok : executeDelete db data = .ok (n, db')) : Inv db' := by
  rw [executeDelete_eq] at hok
  obtain ⟨t, htp, hok⟩ := bind_eq_ok.mp hok
  obtain ⟨infos, hinfos, hok⟩ := bind_eq_ok.mp hok
  obtain ⟨p, hwalk, hfinish⟩ := map_eq_ok.mp hok
  obtain ⟨rfl, hproper⟩ := h.getIndexInfo rfl hinfos
  have hdb : db' = (finish db data.tableName t p).2 := (congrArg Prod.snd hfinish).symm
  rw [hdb]
  have hcases : ∀ i (slot : Slot Row) (s : ℕ × Indexes) slot' (s' : ℕ × Indexes),
      deleteSlot t (onTable db data.tableName) i slot s = .ok (slot', s') →
      removeEntries t.schema slot.row (t.form.rid i) (onTable db data.tableName) s.2 = .ok s'.2 ∧
        slot' = { slot with used := false } := by
    intro i slot s slot' s' hslot
    obtain ⟨index', hremove, hslot⟩ := bind_eq_ok.mp hslot
    cases hslot
    exact ⟨hremove, rfl⟩
  refine h.walked (tablePlan_eq_ok htp) ?_ ?_ ?_ hwalk
  · intro name hname i slot s slot' s' hplain hslot
    exact (removeEntries_cases hproper.names hplain (hcases i slot s slot' s' hslot).1).1 name hname
  · intro i slot s slot' s' hplain hslot
    rw [(hcases i slot s slot' s' hslot).2]
    exact hplain
  · intro info hinfo i slot s slot' s' hused hplain hslot A hperm
    obtain ⟨hremove, rfl⟩ := hcases i slot s slot' s' hslot
    rw [(removeEntries_cases hproper.names hplain hremove).2 info hinfo]
    rw [recordOf_used hused] at hperm
    have herase := hperm.erase (slot.row info.fieldName, t.form.rid i)
    rw [show ([(t.form.rid i, slot.row)].map (entry info.fieldName) ++ A) =
      (slot.row info.fieldName, t.form.rid i) :: A from rfl, List.erase_cons_head] at herase
    exact herase

/-- The entries of a record that is changed. -/
theorem modifyEntry_cases {fieldName : Name} {oldValue newValue : Constant}
    (hproper : Proper infos) (hold : Plain oldValue) (hnew : Plain newValue)
    (h : modifyEntry schema rid oldValue newValue (infoOn infos fieldName) index = .ok index') :
    (∀ name, (∀ info ∈ infos, info.indexName ≠ name) → index' name = index name) ∧
    ∀ info ∈ infos, index' info.indexName =
      if info.fieldName = fieldName then
        (newValue, rid) :: (index info.indexName).erase (oldValue, rid)
      else index info.indexName := by
  cases hon : infoOn infos fieldName with
  | none =>
    rw [hon] at h
    cases h
    refine ⟨fun _ _ => rfl, fun info hinfo => ?_⟩
    rw [if_neg]
    rintro rfl
    rw [hproper.infoOn hinfo] at hon
    cases hon
  | some info =>
    rw [hon] at h
    obtain ⟨index₁, hremove, hinsert⟩ := bind_eq_ok.mp h
    obtain ⟨hself₁, hother₁⟩ := changeIndex_cases hold hremove
    obtain ⟨hself, hother⟩ := changeIndex_cases hnew hinsert
    obtain ⟨hmem, rfl⟩ := infoOn_cases hon
    refine ⟨fun name hname => ?_, fun info' hinfo' => ?_⟩
    · rw [hother name (Ne.symm (hname info hmem)), hother₁ name (Ne.symm (hname info hmem))]
    · by_cases heq : info'.fieldName = info.fieldName
      · rw [if_pos heq, List.inj_on_of_nodup_map hproper.fields hinfo' hmem heq, hself, hself₁]
      · have hne := hproper.name_ne hinfo' hmem heq
        rw [if_neg heq, hother _ hne, hother₁ _ hne]

theorem Inv.modify (h : Inv db) {data : ModifyData} {n : ℕ} (hvalue : Plain data.newValue.value)
    (hok : executeModify db data = .ok (n, db')) : Inv db' := by
  rw [executeModify_eq] at hok
  obtain ⟨t, htp, hok⟩ := bind_eq_ok.mp hok
  obtain ⟨infos, hinfos, hok⟩ := bind_eq_ok.mp hok
  obtain ⟨p, hwalk, hfinish⟩ := map_eq_ok.mp hok
  obtain ⟨rfl, hproper⟩ := h.getIndexInfo rfl hinfos
  have hdb : db' = (finish db data.tableName t p).2 := (congrArg Prod.snd hfinish).symm
  rw [hdb]
  have hcases : ∀ i (slot : Slot Row) (s : ℕ × Indexes) slot' (s' : ℕ × Indexes),
      PlainRow slot.row →
      modifySlot t (infoOn (onTable db data.tableName) data.targetField) data i slot s =
        .ok (slot', s') →
      ∃ newValue, Plain newValue ∧
        modifyEntry t.schema (t.form.rid i) (slot.row data.targetField) newValue
          (infoOn (onTable db data.tableName) data.targetField) s.2 = .ok s'.2 ∧
        slot' = { slot with row := Function.update slot.row data.targetField newValue } := by
    intro i slot s slot' s' hplain hslot
    obtain ⟨newValue, hnew, hslot⟩ := bind_eq_ok.mp hslot
    obtain ⟨oldValue, hold, hslot⟩ := bind_eq_ok.mp hslot
    obtain ⟨row, hrow, hslot⟩ := bind_eq_ok.mp hslot
    obtain ⟨index', hentry, hslot⟩ := bind_eq_ok.mp hslot
    cases hslot
    have hplainNew := evaluate_plain hvalue hplain hnew
    obtain ⟨c, rfl, -, hc⟩ := setValue_cases hrow
    rw [getValue_eq_ok hold] at hentry
    rw [hc hplainNew]
    exact ⟨newValue, hplainNew, hentry, rfl⟩
  refine h.walked (tablePlan_eq_ok htp) ?_ ?_ ?_ hwalk
  · intro name hname i slot s slot' s' hplain hslot
    obtain ⟨newValue, hnew, hentry, -⟩ := hcases i slot s slot' s' hplain hslot
    exact (modifyEntry_cases hproper (hplain _) hnew hentry).1 name hname
  · intro i slot s slot' s' hplain hslot
    obtain ⟨newValue, hnew, -, rfl⟩ := hcases i slot s slot' s' hplain hslot
    intro fieldName
    dsimp only
    by_cases heq : fieldName = data.targetField
    · rw [heq, Function.update_self]
      exact hnew
    · rw [Function.update_of_ne heq]
      exact hplain fieldName
  · intro info hinfo i slot s slot' s' hused hplain hslot A hperm
    obtain ⟨newValue, hnew, hentry, rfl⟩ := hcases i slot s slot' s' hplain hslot
    rw [(modifyEntry_cases hproper (hplain _) hnew hentry).2 info hinfo]
    rw [recordOf_used hused] at hperm
    have hrecord : recordOf t.form i
        { slot with row := Function.update slot.row data.targetField newValue } =
        [(t.form.rid i, Function.update slot.row data.targetField newValue)] := recordOf_used hused
    rw [hrecord]
    by_cases heq : info.fieldName = data.targetField
    · rw [if_pos heq]
      have herase := hperm.erase (slot.row data.targetField, t.form.rid i)
      rw [show ([(t.form.rid i, slot.row)].map (entry info.fieldName) ++ A) =
        (slot.row info.fieldName, t.form.rid i) :: A from rfl, heq, List.erase_cons_head] at herase
      have hentry' : entry info.fieldName
          (t.form.rid i, Function.update slot.row data.targetField newValue) =
          (newValue, t.form.rid i) := by
        unfold entry
        dsimp only
        rw [heq, Function.update_self]
      rw [List.map_cons, hentry']
      exact herase.cons _
    · rw [if_neg heq]
      have hentry' : entry info.fieldName
          (t.form.rid i, Function.update slot.row data.targetField newValue) =
          entry info.fieldName (t.form.rid i, slot.row) := by
        unfold entry
        dsimp only
        rw [Function.update_of_ne heq]
      rw [List.map_cons, hentry']
      exact hperm

theorem Inv.insert (h : Inv db) {data : InsertData} {n : ℕ}
    (hlisted : ∀ info ∈ db.idxcat, info.tableName = data.tableName →
      data.fieldNames.count info.fieldName = 1)
    (hvalues : ∀ val ∈ data.values, Plain val) (hok : executeInsert db data = .ok (n, db')) :
    Inv db' := by
  unfold executeInsert at hok
  obtain ⟨t, htp, hok⟩ := bind_eq_ok.mp hok
  have htable := tablePlan_eq_ok htp
  obtain ⟨slots, i, slot, hslots, hslot, hunused, heq, -⟩ :=
    insert_cases t.form (TableScan.new t.form t.slots)
  have hset : (slots.set i { slot with used := true })[i]? = some { slot with used := true } :=
    List.getElem?_set_self (List.getElem?_eq_some_iff.mp hslot).1
  dsimp only at hok
  rw [heq, getRid_moveTo, ok_bind] at hok
  obtain ⟨infos, hinfos, hok⟩ := bind_eq_ok.mp hok
  rw [get_moveTo t.form _ hset, ok_bind] at hok
  obtain ⟨⟨row', index'⟩, hinsert, hdone⟩ := bind_eq_ok.mp hok
  obtain ⟨rfl, hproper⟩ := h.getIndexInfo rfl hinfos
  have hcases := insertValues_cases hproper hvalues hinsert
  have hplainSlots : ∀ slot ∈ slots, PlainRow slot.row := by
    have hopened := (h.plain data.tableName t htable).opened
    rcases hslots with rfl | rfl
    · exact hopened
    · intro slot' hslot'
      rcases List.mem_append.mp hslot' with hslot' | hslot'
      · exact hopened slot' hslot'
      · rw [(List.mem_replicate.mp hslot').2]
        exact (h.plain data.tableName t htable).blank
  have hsame : recordsFrom t.form 0 slots = t.records := by
    rcases hslots with rfl | rfl
    · exact records_new t.slots
    · exact (records_append_emptyBlock _).trans (records_new t.slots)
  have hslots' : (((({ (TableScan.new t.form t.slots) with
      slots := slots.set i { slot with used := true } } : TableScan Row).moveTo t.form i).setSlot i
        ⟨true, row'⟩)).slots = slots.set i ⟨true, row'⟩ := List.set_set _
  have hdb : db' = { db.setTable data.tableName (t.withSlots (slots.set i ⟨true, row'⟩)) with
      index := index' } := by
    rw [← hslots']
    cases hdone
    rfl
  rw [hdb]
  refine h.changed htable hcases.frame ?_ ?_
  · intro info hinfo
    obtain ⟨hmem, heqt⟩ := mem_onTable.mp hinfo
    have hperm := (recordsFrom_set t.form hslot hunused 0 row').map (entry info.fieldName)
    rw [hcases.listed info hinfo (hlisted info hmem heqt)]
    rw [Nat.zero_add, hsame, List.map_cons] at hperm
    refine List.Perm.trans ?_ hperm.symm
    have hbefore := h.agree info hmem t (heqt ▸ htable)
    exact hbefore.cons _
  · intro slot' hslot'
    rcases List.mem_or_eq_of_mem_set hslot' with hmem | rfl
    · exact hplainSlots slot' hmem
    · exact hcases.plain (hplainSlots slot (List.mem_of_getElem? hslot))

theorem blankRow_plain (schema : Schema) : PlainRow (blankRow schema) := by
  intro fieldName
  unfold blankRow
  split
  · rename_i info hinfo
    unfold blankValue
    split
    · exact Or.inl rfl
    · exact Or.inr rfl
  · exact Or.inl rfl

theorem Inv.createTable (h : Inv db) (B : BlockSize) {data : CreateTableData} {n : ℕ}
    (hok : executeCreateTable db B data = .ok (n, db')) : Inv db' := by
  unfold executeCreateTable at hok
  split at hok
  · rename_i hnamed
    split at hok
    · rename_i hcheck
      have hnone : db.tables data.tableName = none := by
        have hnew := (Bool.and_eq_true_iff.mp hcheck).2
        exact Option.isNone_iff_eq_none.mp hnew
      split at hok
      · rename_i f hform
        cases hok
        have hne : ∀ info ∈ db.idxcat, ∀ t, db.tables info.tableName = some t →
            info.tableName ≠ data.tableName := by
          intro info _ t ht heq
          rw [heq, hnone] at ht
          cases ht
        have hblank : f.blank = blankRow data.newSchema := by
          unfold form at hform
          split at hform
          · cases hform
            rfl
          · cases hform
        refine ⟨h.names, h.fields, h.named, h.fresh, ?_, ?_, ?_⟩
        · intro info hinfo hmissing
          by_cases heq : info.tableName = data.tableName
          · rw [heq, setTable_self] at hmissing
            cases hmissing
          · rw [setTable_ne db _ heq] at hmissing
            exact h.missing info hinfo hmissing
        · intro info hinfo t ht
          by_cases heq : info.tableName = data.tableName
          · rw [heq, setTable_self] at ht
            cases ht
            have hnil := h.missing info hinfo (heq ▸ hnone)
            show (db.index info.indexName).Perm _
            rw [hnil]
            exact List.Perm.refl _
          · rw [setTable_ne db _ heq] at ht
            exact h.agree info hinfo t ht
        · intro tableName t ht
          by_cases heq : tableName = data.tableName
          · rw [heq, setTable_self] at ht
            cases ht
            exact ⟨hblank ▸ blankRow_plain data.newSchema, by simp⟩
          · rw [setTable_ne db _ heq] at ht
            exact h.plain tableName t ht
      · cases hok
    · cases hok
  · cases hok

theorem Inv.createIndex (h : Inv db) {data : CreateIndexData} {n : ℕ}
    (hproceeds : Proceeds db (.createIndex data))
    (hok : executeCreateIndex db data = .ok (n, db')) : Inv db' := by
  obtain ⟨hname, hnames, hfields, hempty⟩ := hproceeds
  unfold executeCreateIndex at hok
  split at hok
  · cases hok
    have hnil : db.index data.indexName = [] := h.fresh data.indexName hnames
    have hmem : ∀ {info : IndexInfo},
        info ∈ db.idxcat ++ [⟨data.indexName, data.tableName, data.fieldName⟩] →
        info ∈ db.idxcat ∨ info = ⟨data.indexName, data.tableName, data.fieldName⟩ := by
      intro info hinfo
      rcases List.mem_append.mp hinfo with hinfo | hinfo
      · exact Or.inl hinfo
      · exact Or.inr (List.mem_singleton.mp hinfo)
    constructor
    · rw [List.map_append, List.map_singleton, List.nodup_append]
      refine ⟨h.names, List.nodup_singleton _, ?_⟩
      intro name hold name' hnew heq
      obtain ⟨info, hinfo, rfl⟩ := List.mem_map.mp hold
      exact hnames info hinfo (heq.trans (List.mem_singleton.mp hnew))
    · rw [List.map_append, List.map_singleton, List.nodup_append]
      refine ⟨h.fields, List.nodup_singleton _, ?_⟩
      intro pair hold pair' hnew heq
      obtain ⟨info, hinfo, rfl⟩ := List.mem_map.mp hold
      have hpair := heq.trans (List.mem_singleton.mp hnew)
      exact hfields info hinfo (congrArg Prod.fst hpair) (congrArg Prod.snd hpair)
    · intro info hinfo
      rcases hmem hinfo with hinfo | rfl
      · exact h.named info hinfo
      · exact hname
    · intro name hall
      exact h.fresh name (fun info hinfo => hall info (List.mem_append_left _ hinfo))
    · intro info hinfo hnone
      rcases hmem hinfo with hinfo | rfl
      · exact h.missing info hinfo hnone
      · exact hnil
    · intro info hinfo t ht
      rcases hmem hinfo with hinfo | rfl
      · exact h.agree info hinfo t ht
      · show (db.index data.indexName).Perm _
        rw [hnil, hempty t ht]
        exact List.Perm.refl _
    · exact h.plain
  · cases hok

/-- A command that meets the condition and succeeds keeps the indexes equal to their tables. -/
theorem Inv.execute (h : Inv db) (B : BlockSize) {cmd : Command} {n : ℕ}
    (hproceeds : Proceeds db cmd) (hok : execute db B cmd = .ok (n, db')) : Inv db' := by
  cases cmd with
  | insert data => exact h.insert hproceeds.1 hproceeds.2 hok
  | delete data => exact h.delete hok
  | modify data => exact h.modify hproceeds hok
  | createTable data => exact h.createTable B hok
  | createView data =>
    cases hok
    exact h
  | createIndex data => exact h.createIndex hproceeds hok

end Steps

section Runs

/-- A command that succeeds. -/
def Executes (B : BlockSize) (db : Db) (cmd : Command) (db' : Db) : Prop :=
  ∃ n, execute db B cmd = .ok (n, db')

theorem inv_empty : Inv Db.empty where
  names := List.nodup_nil
  fields := List.nodup_nil
  named := by simp [Db.empty]
  fresh := fun _ _ => rfl
  missing := by simp [Db.empty]
  agree := by simp [Db.empty]
  plain := by simp [Db.empty]

/-- After every run of commands that meet the condition, indexes and tables agree. -/
theorem agree_of_proceeds (B : BlockSize) {cmds : List Command}
    (hrun : Runs.Run (fun db cmd db' => Proceeds db cmd ∧ Executes B db cmd db') Db.empty cmds db) :
    Agree db := by
  refine Inv.agrees (hrun.invariant Inv ?_ inv_empty)
  rintro db cmd db' hinv ⟨hproceeds, n, hok⟩
  exact hinv.execute B hproceeds hok

end Runs

section Examples

instance (c : Constant) : Decidable (Plain c) := by
  unfold Plain
  infer_instance

/-- Whether `Proceeds` holds of a command. -/
def proceeds (db : Db) : Command → Bool
  | .insert data =>
      db.idxcat.all (fun info => info.tableName != data.tableName ||
        data.fieldNames.count info.fieldName == 1) && data.values.all (fun val => Plain val)
  | .modify data => Plain data.newValue.value
  | .createIndex data =>
      data.indexName != [] && db.idxcat.all (fun info => info.indexName != data.indexName &&
        (info.tableName != data.tableName || info.fieldName != data.fieldName)) &&
        (db.tables data.tableName).all (fun t => t.records.isEmpty)
  | _ => true

theorem proceeds_of_eq_true {cmd : Command} (h : proceeds db cmd = true) : Proceeds db cmd := by
  cases cmd with
  | insert data =>
    obtain ⟨hlisted, hplain⟩ := Bool.and_eq_true_iff.mp h
    rw [List.all_eq_true] at hlisted hplain
    refine ⟨fun info hinfo heq => ?_, fun val hval => of_decide_eq_true (hplain val hval)⟩
    simpa [heq] using hlisted info hinfo
  | modify data =>
    have hplain : decide (Plain data.newValue.value) = true := h
    have hvalue : Plain data.newValue.value := of_decide_eq_true hplain
    exact hvalue
  | createIndex data =>
    obtain ⟨hboth, hempty⟩ := Bool.and_eq_true_iff.mp h
    obtain ⟨hname, hall⟩ := Bool.and_eq_true_iff.mp hboth
    rw [List.all_eq_true] at hall
    refine ⟨by simpa using hname, ?_, ?_, ?_⟩
    · intro info hinfo
      have hboth := Bool.and_eq_true_iff.mp (hall info hinfo)
      simpa using hboth.1
    · intro info hinfo heq
      have hboth := Bool.and_eq_true_iff.mp (hall info hinfo)
      simpa [heq] using hboth.2
    · intro t ht
      rw [ht] at hempty
      exact List.isEmpty_iff.mp hempty
  | delete data | createTable data | createView data => trivial

/-- A command under a condition. -/
def stepOn (B : BlockSize) (p : Db → Command → Bool) (db : Db) (cmd : Command) : Option Db :=
  if p db cmd then (execute db B cmd).toOption.map Prod.snd else none

/-- A run found by evaluation. -/
theorem run_of_stepOn {B : BlockSize} {p : Db → Command → Bool} {cmds : List Command}
    (h : cmds.foldlM (stepOn B p) db = some db') :
    Runs.Run (fun db cmd db' => p db cmd = true ∧ Executes B db cmd db') db cmds db' := by
  refine (Runs.run_of_foldlM h).mono ?_
  intro db cmd db' hstep
  unfold stepOn at hstep
  split at hstep
  · rename_i hp
    obtain ⟨⟨n, db₁⟩, hok, rfl⟩ := Option.map_eq_some_iff.mp hstep
    exact ⟨hp, n, toOption_eq_some.mp hok⟩
  · cases hstep

def nameT : Name := ['t']
def nameA : Name := ['a']
def nameB : Name := ['b']
def nameI : Name := ['i']

def twoColumns : Schema := (Schema.empty.addIntField nameA).addIntField nameB

/-- Two records, one of which is deleted. -/
def kept : List Command :=
  [.createTable ⟨nameT, twoColumns⟩, .createIndex ⟨nameI, nameT, nameB⟩,
    .insert ⟨nameT, [nameA, nameB], [.ofInt 1, .ofInt 5]⟩,
    .insert ⟨nameT, [nameB, nameA], [.ofInt 5, .ofInt 2]⟩,
    .delete ⟨nameT, [⟨.ofField nameA, .ofConstant (.ofInt 1)⟩]⟩]

theorem agree_of_proceeds_kept : ∃ db : Db, Agree db ∧
    lookup (db.index nameI) (.ofInt 5) = [⟨0, 1⟩] := by
  have hexists : (kept.foldlM (stepOn ⟨400, by decide, by decide⟩ proceeds) Db.empty).any
      (fun db => lookup (db.index nameI) (.ofInt 5) = [⟨0, 1⟩]) = true := by
    decide +kernel
  obtain ⟨db, hfold, hlookup⟩ := (Option.any_eq_true _ _).mp hexists
  have hrun := (run_of_stepOn hfold).mono
    (fun db cmd db' h => And.intro (proceeds_of_eq_true h.1) h.2)
  exact ⟨db, agree_of_proceeds ⟨400, by decide, by decide⟩ hrun, of_decide_eq_true hlookup⟩

/-- A record whose indexed column is left out. -/
def omitted : List Command :=
  [.createTable ⟨nameT, twoColumns⟩, .createIndex ⟨nameI, nameT, nameB⟩,
    .insert ⟨nameT, [nameA], [.ofInt 1]⟩]

/-- The record has 0 in the column, and the index has no entry. -/
theorem not_agree_omitted : ∃ db : Db,
    Runs.Run (Executes ⟨400, by decide, by decide⟩) Db.empty omitted db ∧ ¬ Agree db := by
  have hexists : (omitted.foldlM (stepOn ⟨400, by decide, by decide⟩ (fun _ _ => true))
      Db.empty).any (fun db => (db.tables nameT).any (fun t =>
        db.idxcat.contains ⟨nameI, nameT, nameB⟩ &&
        decide (lookup (db.index nameI) (.ofInt 0) = []) &&
        decide (holders t nameB (.ofInt 0) = [⟨0, 0⟩]))) = true := by
    decide +kernel
  obtain ⟨db, hfold, hany⟩ := (Option.any_eq_true _ _).mp hexists
  obtain ⟨t, ht, hall⟩ := (Option.any_eq_true _ _).mp hany
  obtain ⟨hboth, hholders⟩ := Bool.and_eq_true_iff.mp hall
  obtain ⟨hinfo, hlookup⟩ := Bool.and_eq_true_iff.mp hboth
  refine ⟨db, (run_of_stepOn hfold).mono (fun db cmd db' h => h.2), fun hagree => ?_⟩
  have hperm := hagree _ (List.contains_iff_mem.mp hinfo) t ht (.ofInt 0)
  have hlength := hperm.length_eq
  rw [of_decide_eq_true hlookup, of_decide_eq_true hholders] at hlength
  cases hlength

end Examples

end SampleDB.IndexAgreement
