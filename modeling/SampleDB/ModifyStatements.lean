import SampleDB.Conformance
import SampleDB.UpdatePlanner

/-!
What an UPDATE statement does to a table. The parser leaves the new value null, and the
evaluation of the null expression looks for a field without a name, so the statement
ends at the first record that it comes to.
-/
namespace SampleDB.ModifyStatements

open Lexer Schemas Statements Grammar SqlParser Acceptance Conformance Pages
open Blocks TableScans UpdatePlanner

variable (overflow : ℕ → Option Int32)

/-- The record satisfies the predicate of the statement. -/
def Chosen (t : Table) (data : ModifyData) (row : Row) : Bool :=
  isSatisfied t.schema row data.predicate = .ok true

/-- The record with the new value, evaluated on the old record. -/
def changed (t : Table) (data : ModifyData) (row : Row) : Row :=
  match evaluate t.schema row data.newValue with
  | .ok val => Function.update row data.targetField val
  | .error _ => row

/-- The statement does what it says: the records that satisfied its predicate are changed, all
others are as they were, and the result is the number of the changed records. -/
def UpdatesAsSaid (db : Db) (data : ModifyData) (t : Table) (result : Result (ℕ × Db)) : Prop :=
  ∃ db' t', result = .ok ((t.records.filter (fun r => Chosen t data r.2)).length, db') ∧
    db'.tables data.tableName = some t' ∧ t'.schema = t.schema ∧
    (∀ tableName ≠ data.tableName, db'.tables tableName = db.tables tableName) ∧
    t'.records = t.records.map
      (fun r => (r.1, if Chosen t data r.2 then changed t data r.2 else r.2))

section Parsing

/-- The parser stops in front of the new value, so it sees no WHERE either. -/
theorem parse_update {text : Text} {data : ModifyData} {last : Last}
    (h : IsCommand documented (tokens text) (.modify data) last) :
    parse (updateCmd overflow) text =
      .ok (.modify ⟨data.tableName, data.targetField, .null, []⟩) := by
  have hdelim := (documented_weaker overflow).delimiter
  generalize htoks : tokens text = toks at h
  cases h with
  | @modify u t s f eq vs ws tableName fieldName newValue pred wl hu ht hs hf heq hvalue hws =>
    obtain ⟨v, rfl, hv⟩ := hvalue
    have heq' : (parsed overflow).delimiter Word.equalSign eq :=
      hdelim _ eq ⟨by decide, by decide⟩ trivial heq
    refine parse_eq_ok.mpr ⟨v :: ws, (updateCmd_eq_ok overflow).mpr
      ⟨[u, t, s, f, eq], _, htoks, .modify hu ht hs hf heq' ⟨rfl, rfl⟩ .absent, ?_⟩⟩
    rw [stops_cons]
    rintro (hown | ⟨word, hword, hkey⟩)
    · exact hown
    · rw [List.mem_singleton.mp hword] at hkey
      exact not_where_of_expression hv hkey

end Parsing

section Tables

variable {db : Db} {t : Table}

theorem getIndexInfo_isOk (tableName : Name) (schema : Schema) :
    (∃ infos, getIndexInfo db tableName schema = .ok infos) ↔
      ∀ info ∈ db.idxcat, info.tableName = tableName → schema.hasField info.fieldName := by
  constructor
  · rintro ⟨infos, hget⟩ info hmem hname
    rcases getIndexInfo_cases db tableName schema with ⟨hnone, -⟩ | ⟨-, -, -, hall⟩
    · rw [hnone] at hget
      cases hget
    · exact Option.isSome_iff_ne_none.mpr (hall info hmem hname)
  · intro hall
    rcases getIndexInfo_cases db tableName schema with ⟨-, info, hmem, hname, hnone⟩ |
      ⟨infos, hget, -⟩
    · exact absurd hnone (Option.isSome_iff_ne_none.mp (hall info hmem hname))
    · exact ⟨infos, hget⟩

theorem opened_unused (h : ∀ slot ∈ t.slots, slot.used = false) :
    ∀ slot ∈ t.opened, slot.used = false := by
  unfold Table.opened TableScan.new
  split
  · intro slot hslot
    rw [(List.mem_replicate.mp hslot).2]
  · exact h

theorem opened_used (h : ∃ slot ∈ t.slots, slot.used = true) :
    ∃ slot ∈ t.opened, slot.used = true := by
  unfold Table.opened TableScan.new
  rw [if_neg]
  · exact h
  · obtain ⟨slot, hmem, -⟩ := h
    exact List.ne_nil_of_mem hmem

end Tables

section Statement

variable {db : Db} {t : Table} {data : ModifyData} (B : BlockSize)

/-- The null expression has no value in any record. -/
theorem modifySlot_null (t : Table) (info : Option IndexInfo) (tableName targetField : Name) (i : ℕ)
    (slot : Slot Row) (s : ℕ × Indexes) :
    modifySlot t info ⟨tableName, targetField, .null, []⟩ i slot s = .error .exception := by
  have hnull : evaluate t.schema slot.row .null = .error .exception := by
    have hvalue : evaluate t.schema slot.row .null = getValue t.schema slot.row [] := rfl
    rw [hvalue]
    unfold getValue
    rw [t.named]
  unfold modifySlot
  rw [hnull]
  rfl

theorem tablePlan_eq (htable : db.tables data.tableName = some t) :
    tablePlan db data.tableName = .ok t := by
  unfold tablePlan
  rw [htable]

/-- What the planner makes of a table without records. -/
theorem executeModify_unused (htable : db.tables data.tableName = some t)
    (hunused : ∀ slot ∈ t.slots, slot.used = false)
    (hindexes : ∀ info ∈ db.idxcat, info.tableName = data.tableName →
      t.schema.hasField info.fieldName) :
    executeModify db data = .ok (finish db data.tableName t (t.opened, 0, db.index)) := by
  obtain ⟨infos, hinfos⟩ := (getIndexInfo_isOk data.tableName t.schema).mpr hindexes
  rw [executeModify_eq, tablePlan_eq htable, ok_bind, hinfos, ok_bind,
    walk_unused (opened_unused hunused)]
  rfl

/-- A statement that succeeds has found no record. -/
theorem unused_of_updatesAsSaid {text : Text} {last : Last}
    (hstatement : IsCommand documented (tokens text) (.modify data) last)
    (htable : db.tables data.tableName = some t)
    (h : UpdatesAsSaid db data t (executeUpdate db overflow B text)) :
    (∀ slot ∈ t.slots, slot.used = false) ∧ ∀ info ∈ db.idxcat, info.tableName = data.tableName →
      t.schema.hasField info.fieldName := by
  unfold executeUpdate at h
  rw [parse_update overflow hstatement] at h
  obtain ⟨db', t', hok, -⟩ := h
  have hok' : executeModify db ⟨data.tableName, data.targetField, .null, []⟩ = _ := hok
  rw [executeModify_eq, tablePlan_eq htable, ok_bind] at hok'
  obtain ⟨infos, hinfos, hwalk⟩ := bind_eq_ok.mp hok'
  refine ⟨?_, (getIndexInfo_isOk data.tableName t.schema).mp ⟨infos, hinfos⟩⟩
  by_contra hused
  have hsome : ∃ slot ∈ t.slots, slot.used = true := by simpa using hused
  have hfails : walk (fun row => isSatisfied t.schema row [])
      (modifySlot t (infoOn infos data.targetField)
        ⟨data.tableName, data.targetField, .null, []⟩) 0 t.opened (0, db.index) =
      .error .exception :=
    walk_error (fun row => rfl) (modifySlot_null t _ data.tableName data.targetField)
      (opened_used hsome) 0 _
  dsimp only at hwalk
  rw [hfails] at hwalk
  cases hwalk

/-- An UPDATE statement does what it says if and only if its table has no record, and all
indexes on the table are on fields of it. -/
theorem updatesAsSaid_iff {text : Text} {last : Last}
    (hstatement : IsCommand documented (tokens text) (.modify data) last)
    (htable : db.tables data.tableName = some t) :
    UpdatesAsSaid db data t (executeUpdate db overflow B text) ↔
      (∀ slot ∈ t.slots, slot.used = false) ∧
        ∀ info ∈ db.idxcat, info.tableName = data.tableName →
          t.schema.hasField info.fieldName := by
  constructor
  · exact unused_of_updatesAsSaid overflow B hstatement htable
  · rintro ⟨hunused, hindexes⟩
    have hnone : t.records = [] := recordsFrom_unused hunused 0
    have hnone' : (t.withSlots t.opened).records = [] :=
      recordsFrom_unused (opened_unused hunused) 0
    have hok := @executeModify_unused db t ⟨data.tableName, data.targetField, .null, []⟩ htable
      hunused hindexes
    refine ⟨(finish db data.tableName t (t.opened, 0, db.index)).2, t.withSlots t.opened, ?_, ?_,
      rfl, ?_, ?_⟩
    · unfold executeUpdate
      rw [parse_update overflow hstatement, hnone]
      exact hok
    · exact setTable_self db data.tableName (t.withSlots t.opened)
    · exact fun tableName hne => setTable_ne db (t.withSlots t.opened) hne
    · rw [hnone, hnone']
      rfl

end Statement

section Planner

variable {db : Db} {t : Table} {data : ModifyData}

/-- What a command with these data makes of a record. -/
def updated (t : Table) (data : ModifyData) (r : Rid × Row) : Rid × Row :=
  (r.1, if Chosen t data r.2 then changed t data r.2 else r.2)

/-- One slot. -/
theorem visit_modify {info : Option IndexInfo} {i : ℕ} {slot slot' : Slot Row}
    {s s' : ℕ × Indexes} (hvalue : Plain data.newValue.value)
    (hplain : PlainRow slot.row)
    (h : visit (fun row => isSatisfied t.schema row data.predicate) (modifySlot t info data) i slot
      s = .ok (slot', s')) :
    recordOf t.form i slot' = (recordOf t.form i slot).map (updated t data) ∧
      s'.1 = s.1 + ((recordOf t.form i slot).filter (fun r => Chosen t data r.2)).length := by
  cases hused : slot.used with
  | false =>
    rw [visit_unused hused] at h
    cases h
    rw [recordOf_unused hused]
    exact ⟨rfl, rfl⟩
  | true =>
    cases hsat : isSatisfied t.schema slot.row data.predicate with
    | error e =>
      unfold visit isSelected at h
      rw [if_pos hused] at h
      dsimp only at h
      rw [hsat] at h
      cases h
    | ok selected =>
      rw [visit_used hused hsat] at h
      have hchosen : Chosen t data slot.row = selected := by
        unfold Chosen
        rw [hsat]
        cases selected <;> rfl
      cases selected with
      | false =>
        cases h
        rw [recordOf_used hused]
        simp [updated, hchosen]
      | true =>
        obtain ⟨newValue, hnew, h⟩ := bind_eq_ok.mp h
        obtain ⟨oldValue, hold, h⟩ := bind_eq_ok.mp h
        obtain ⟨row, hrow, h⟩ := bind_eq_ok.mp h
        obtain ⟨index', hentry, h⟩ := bind_eq_ok.mp h
        cases h
        obtain ⟨c, rfl, -, hc⟩ := setValue_cases hrow
        rw [hc (evaluate_plain hvalue hplain hnew)]
        have hchanged : changed t data slot.row =
            Function.update slot.row data.targetField newValue := by
          unfold changed
          rw [hnew]
        have hrecord : recordOf t.form i
            { slot with row := Function.update slot.row data.targetField newValue } =
            [(t.form.rid i, Function.update slot.row data.targetField newValue)] :=
          recordOf_used hused
        rw [recordOf_used hused, hrecord]
        simp [updated, hchosen, hchanged]

theorem walk_modify {info : Option IndexInfo} {i : ℕ} {slots slots' : List (Slot Row)}
    {s s' : ℕ × Indexes} (hvalue : UpdatePlanner.Plain data.newValue.value)
    (hplain : ∀ slot ∈ slots, PlainRow slot.row)
    (h : walk (fun row => isSatisfied t.schema row data.predicate) (modifySlot t info data) i slots
      s = .ok (slots', s')) :
    recordsFrom t.form i slots' = (recordsFrom t.form i slots).map (updated t data) ∧
      s'.1 = s.1 + ((recordsFrom t.form i slots).filter (fun r => Chosen t data r.2)).length := by
  induction slots generalizing i s slots' with
  | nil =>
    cases h
    exact ⟨rfl, rfl⟩
  | cons slot slots ih =>
    rw [List.forall_mem_cons] at hplain
    obtain ⟨slot₁, s₁, slots₁, hvisit, hwalk, rfl⟩ := walk_cases h
    obtain ⟨hrecord, hcount⟩ := visit_modify hvalue hplain.1 hvisit
    obtain ⟨hrecords, hcounts⟩ := ih hplain.2 hwalk
    rw [recordsFrom_cons, recordsFrom_cons, hrecord, hrecords, List.map_append, List.filter_append,
      List.length_append]
    exact ⟨rfl, by omega⟩

/-- A modification that succeeds has changed the records that satisfied its predicate, and no
others. -/
theorem executeModify_updates (hvalue : UpdatePlanner.Plain data.newValue.value)
    (htable : db.tables data.tableName = some t) (hplain : ∀ slot ∈ t.opened, PlainRow slot.row)
    {n : ℕ} {db' : Db} (h : executeModify db data = .ok (n, db')) :
    UpdatesAsSaid db data t (.ok (n, db')) := by
  rw [executeModify_eq, tablePlan_eq htable, ok_bind] at h
  obtain ⟨infos, hinfos, h⟩ := bind_eq_ok.mp h
  obtain ⟨⟨slots, count, index⟩, hwalk, hfinish⟩ := map_eq_ok.mp h
  cases hfinish
  obtain ⟨hrecords, hcount⟩ := walk_modify hvalue hplain hwalk
  have hopened : recordsFrom t.form 0 t.opened = t.records := records_new t.slots
  rw [hopened] at hrecords hcount
  have hlength : count = (t.records.filter (fun r => Chosen t data r.2)).length :=
    hcount.trans (Nat.zero_add _)
  refine ⟨(finish db data.tableName t (slots, count, index)).2, t.withSlots slots, ?_,
    setTable_self db data.tableName (t.withSlots slots), rfl,
    fun tableName hne => setTable_ne db (t.withSlots slots) hne, hrecords⟩
  rw [← hlength]
  rfl

end Planner

section Examples

def oneColumn : Schema := Schema.empty.addIntField ['a']

/-- A table with one INT column. -/
def tableOf (slots : List (Slot Row)) : Table :=
  ⟨oneColumn, ⟨50, by decide, blankRow oneColumn⟩, slots, by decide⟩

def dbOf (t : Table) : Db :=
  ⟨fun tableName => if tableName = ['t'] then some t else none, [], fun _ => []⟩

def setOne : Text := "update t set a = 1".toList

def setOneData : ModifyData := ⟨['t'], ['a'], .ofConstant (.ofInt 1), []⟩

theorem setOne_documented :
    IsCommand documented (tokens setOne) (.modify setOneData) .unfiltered := by
  have htoks : tokens setOne = "update".toList :: "t".toList :: "set".toList :: "a".toList ::
      "=".toList :: (["1".toList] ++ []) := by decide
  rw [htoks]
  refine .modify ⟨by decide, by decide⟩ ⟨by decide, by decide, by decide⟩
    ⟨by decide, by decide⟩ ⟨by decide, by decide, by decide⟩ rfl ?_ .absent
  have hone : documentedLiterals.integer "1".toList 1 :=
    ⟨by decide, by decide, by decide, by decide⟩
  exact ⟨"1".toList, rfl, Or.inr ⟨.ofInt 1, Or.inr (Or.inr (Or.inr ⟨1, hone, rfl⟩)), rfl⟩⟩

theorem updatesAsSaid_iff_empty : UpdatesAsSaid (dbOf (tableOf [])) setOneData (tableOf [])
    (executeUpdate (dbOf (tableOf [])) (fun _ => none) ⟨400, by decide, by decide⟩ setOne) :=
  (updatesAsSaid_iff (fun _ => none) ⟨400, by decide, by decide⟩ setOne_documented rfl).mpr
    ⟨by simp [tableOf], by simp [dbOf]⟩

/-- The statement ends with an exception at the only record. -/
theorem not_updatesAsSaid_record : ¬ ∀ (db : Db) (t : Table) (text : Text) (data : ModifyData)
    (last : Last), IsCommand documented (tokens text) (.modify data) last →
      db.tables data.tableName = some t →
      UpdatesAsSaid db data t
        (executeUpdate db (fun _ => none) ⟨400, by decide, by decide⟩ text) := by
  intro h
  have hsaid := h (dbOf (tableOf [⟨true, fun _ => .ofInt 0⟩])) (tableOf [⟨true, fun _ => .ofInt 0⟩])
    setOne setOneData _ setOne_documented rfl
  obtain ⟨hunused, -⟩ := unused_of_updatesAsSaid (fun _ => none) ⟨400, by decide, by decide⟩
    setOne_documented rfl hsaid
  exact absurd (hunused ⟨true, fun _ => .ofInt 0⟩ (List.mem_singleton_self _)) (by decide)

end Examples

end SampleDB.ModifyStatements
