import SampleDB.PageRecords
import SampleDB.Relations

/-!
The update planner on pages. Every run of the planner on records is a run of the planner on
pages, with the same counts, where no log record is longer than a block and all strings are
bytes. So the pages of the table files stand for a relational database.
-/
namespace SampleDB.PageRefinement

open Words Pages Blocks Logging Lexer Schemas Statements SqlParser Directory
open MappedScans PagePlanner PageRecords StoredTables TypedTables Relations SlotBags Runs
open StoredRecords (Sound perBlock Declared widthOf slotBytes layout_new)
open UpdatePlanner (Row Table IndexInfo Indexes Db)
open RecordPages (Layout)
open TableScans (Slot Form Rid)

variable {B : BlockSize}

section Tables

/-- The pages of a table file store the slots of the table. -/
structure Keeps (B : BlockSize) (fileName : Bytes) (blocks : List Page) (t : Table)
    (layout : Layout) : Prop where
  schema : t.schema = layout.schema
  listed : Listed layout.schema
  logged : Logged B fileName layout.schema
  form : ∃ hl : Sound B layout, t.form = recordForm hl
  stored : ∃ slots, Stored B layout blocks slots ∧
    t.slots = slots.map (mapSlot (rowOf layout.schema))

/-- The pages and the catalogs are those of this database. -/
structure Stores (B : BlockSize) (db : Db) (pdb : PageDb) : Prop where
  log : Usable B pdb.log.page
  idxcat : pdb.idxcat = db.idxcat
  index : pdb.index = db.index
  tables : ∀ tableName, Option.Rel (Keeps B (bytesOf (tableFile tableName))
    (pdb.files (tableFile tableName))) (db.tables tableName) (pdb.layouts tableName)
  files : ∀ tableName, db.tables tableName = none → pdb.files (tableFile tableName) = []

variable {db db' : Db} {pdb : PageDb} {tableName : Name} {t : Table} {layout : Layout} {n : ℕ}

theorem Stores.find (h : Stores B db pdb) (ht : UpdatePlanner.tablePlan db tableName = .ok t) :
    ∃ layout, PagePlanner.tablePlan pdb tableName = .ok layout ∧
      Keeps B (bytesOf (tableFile tableName)) (pdb.files (tableFile tableName)) t layout := by
  have hrel := h.tables tableName
  rw [UpdatePlanner.tablePlan_eq_ok ht] at hrel
  unfold PagePlanner.tablePlan
  cases hlayout : pdb.layouts tableName with
  | none =>
    rw [hlayout] at hrel
    cases hrel
  | some layout =>
    rw [hlayout] at hrel
    cases hrel with
    | some hkeeps => exact ⟨layout, rfl, hkeeps⟩

theorem Stores.getIndexInfo (h : Stores B db pdb) (tableName : Name) (schema : Schema) :
    UpdatePlanner.getIndexInfo pdb.catalog tableName schema =
      UpdatePlanner.getIndexInfo db tableName schema := by
  unfold UpdatePlanner.getIndexInfo PageDb.catalog
  rw [h.idxcat]

/-- Both planners open a scan of the table. -/
theorem Stores.open (h : Stores B db pdb) (hl : Sound B layout)
    (hkeeps : Keeps B (bytesOf (tableFile tableName)) (pdb.files (tableFile tableName)) t layout) :
    ∃ ts, openTable B pdb layout tableName = .ok ts ∧
      Shows hl (bytesOf (tableFile tableName)) ts
        (TableScans.TableScan.new (recordForm hl) t.slots) := by
  obtain ⟨slots, hstored, hslots⟩ := hkeeps.stored
  rw [hslots]
  exact Shows.new ⟨rfl, h.log, hstored⟩ hkeeps.logged

theorem tableFile_inj {tableName tableName' : Name}
    (h : tableFile tableName = tableFile tableName') : tableName = tableName' :=
  List.append_cancel_right h

/-- The scan is closed, and the other tables are as they were. -/
theorem Stores.close (h : Stores B db pdb) {hl : Sound B layout} {ts : PagePlanner.TableScan}
    {cs : TableScans.TableScan Row} (hlayout : PagePlanner.tablePlan pdb tableName = .ok layout)
    (hkeeps : Keeps B (bytesOf (tableFile tableName)) (pdb.files (tableFile tableName)) t layout)
    (hshows : Shows hl (bytesOf (tableFile tableName)) ts cs) (index : Indexes) :
    Stores B { db.setTable tableName (t.withSlots cs.slots) with index := index }
      (pdb.close tableName ts index) := by
  obtain ⟨rs, hrs, rfl⟩ := hshows
  refine ⟨hrs.contains.log, h.idxcat, rfl, fun tableName' => ?_, fun tableName' hnone => ?_⟩
  · show Option.Rel (Keeps B _ (Function.update pdb.files (tableFile tableName) ts.tx.blocks
      (tableFile tableName'))) ((db.setTable tableName _).tables tableName')
        (pdb.layouts tableName')
    by_cases heq : tableName' = tableName
    · have hfind : pdb.layouts tableName = some layout := by
        unfold PagePlanner.tablePlan at hlayout
        split at hlayout
        · cases hlayout
          assumption
        · cases hlayout
      rw [heq, Function.update_self, UpdatePlanner.setTable_self, hfind]
      exact .some ⟨hkeeps.schema, hkeeps.listed, hkeeps.logged, hkeeps.form,
        rs.slots, hrs.contains.stored, rfl⟩
    · rw [Function.update_of_ne (fun hfile => heq (tableFile_inj hfile)),
        UpdatePlanner.setTable_ne db _ heq]
      exact h.tables tableName'
  · have heq : tableName' ≠ tableName := by
      rintro rfl
      cases (UpdatePlanner.setTable_self db _ _).symm.trans hnone
    show Function.update pdb.files (tableFile tableName) ts.tx.blocks (tableFile tableName') = []
    rw [Function.update_of_ne (fun hfile => heq (tableFile_inj hfile))]
    exact h.files tableName' ((UpdatePlanner.setTable_ne db _ heq).symm.trans hnone)

end Tables

section Commands

variable {db db' : Db} {pdb : PageDb} {tableName : Name} {t : Table} {layout : Layout} {n : ℕ}
  {hl : Sound B layout} {fileName : Bytes} {ts : PagePlanner.TableScan}
  {cs cs' : TableScans.TableScan Row} {i : ℕ} {slot : Slot Row} {infos : List IndexInfo}
  {rid : Rid} {index index' : Indexes}

/-- A loop over the records of a table that was just opened. -/
theorem Stores.loop (h : Stores B db pdb) (hl : Sound B layout)
    (hlayout : PagePlanner.tablePlan pdb tableName = .ok layout)
    (hkeeps : Keeps B (bytesOf (tableFile tableName)) (pdb.files (tableFile tableName)) t layout)
    {σ : Type} {pred : Predicate}
    {body : TableScans.TableScan Row → σ → Result (TableScans.TableScan Row × σ)}
    {body' : PagePlanner.TableScan → σ → Result (PagePlanner.TableScan × σ)} {s s' : σ}
    (hbody : SameBody hl (bytesOf (tableFile tableName)) body body')
    (hok : TableScans.whileNext (recordForm hl)
      (fun row => UpdatePlanner.isSatisfied layout.schema row pred) body
      ((TableScans.TableScan.new (recordForm hl) t.slots).slots.length + 1)
      (TableScans.TableScan.new (recordForm hl) t.slots) s = .ok (cs', s')) :
    ∃ ts ts', openTable B pdb layout tableName = .ok ts ∧
      PagePlanner.whileNext B layout pred body' (steps B ts) ts s = .ok (ts', s') ∧
      ∀ index, Stores B { db.setTable tableName (t.withSlots cs'.slots) with index := index }
        (pdb.close tableName ts' index) := by
  obtain ⟨ts, hopen, hshows⟩ := h.open hl hkeeps
  have hle := hshows.length_le
  obtain ⟨ts', hloop, hshows'⟩ := hshows.whileNext hbody hkeeps.listed
    (n := ts.tx.size * B.bytes) (by omega) (Nat.le_add_right _ _) hok
  exact ⟨ts, ts', hopen, hloop, h.close hlayout hkeeps hshows'⟩

/-- The planner counts the bytes of a slot as the layout does. -/
theorem slotSize_eq {schema : Schema} (hdeclared : Declared schema) :
    UpdatePlanner.slotSize schema = slotBytes schema schema.fields := by
  have hlength : ∀ fields : List Name, (∀ F ∈ fields, F ∈ schema.fields) →
      (fields.map (UpdatePlanner.lengthInBytes schema)).sum =
        ((fields.map (widthOf schema)).sum : ℕ) := by
    intro fields
    induction fields with
    | nil => exact fun _ => rfl
    | cons F fields ih =>
      intro hmem
      rw [List.forall_mem_cons] at hmem
      obtain ⟨⟨type, length⟩, hinfo, hpos⟩ := hdeclared F hmem.1
      have hF : UpdatePlanner.lengthInBytes schema F = widthOf schema F := by
        unfold UpdatePlanner.lengthInBytes widthOf
        rw [hinfo, Option.elim_some]
        cases type with
        | integer | boolean => rfl
        | varchar =>
          have h0 : 0 ≤ length.toInt := hpos rfl
          show 4 + length.toInt = ((4 + length.toInt.toNat : ℕ) : ℤ)
          omega
      rw [List.map_cons, List.sum_cons, List.map_cons, List.sum_cons, ih hmem.2, hF]
      exact (Int.natCast_add _ _).symm
  unfold UpdatePlanner.slotSize slotBytes
  rw [hlength schema.fields (fun _ h => h)]
  exact (Int.natCast_add 4 _).symm

/-- A table that is new has no pages yet. -/
theorem Stores.create (h : Stores B db pdb) {t : Table} (hnone : db.tables tableName = none)
    (hkeeps : Keeps B (bytesOf (tableFile tableName)) [] t layout) :
    Stores B (db.setTable tableName t)
      { pdb with layouts := Function.update pdb.layouts tableName (some layout) } := by
  refine ⟨h.log, h.idxcat, h.index, fun tableName' => ?_, fun tableName' hfile => ?_⟩
  · show Option.Rel _ ((db.setTable tableName t).tables tableName')
      (Function.update pdb.layouts tableName (some layout) tableName')
    by_cases heq : tableName' = tableName
    · rw [heq, UpdatePlanner.setTable_self, Function.update_self]
      apply Option.Rel.some
      rw [← h.files tableName hnone] at hkeeps
      exact hkeeps
    · rw [UpdatePlanner.setTable_ne db t heq, Function.update_of_ne heq]
      exact h.tables tableName'
  · have heq : tableName' ≠ tableName := by
      rintro rfl
      cases (UpdatePlanner.setTable_self db _ _).symm.trans hfile
    exact h.files tableName' ((UpdatePlanner.setTable_ne db t heq).symm.trans hfile)

end Commands

section Runs

variable {db : Db} {pdb : PageDb} {t : Table} {tableName : Name}

section Reading

variable {layout : Layout} {hl : Sound B layout} {fileName : Bytes}

/-- A loop that reads records. -/
def readRecord (t : Table) (cs : TableScans.TableScan Row) (rows : List (List Constant)) :
    Result (TableScans.TableScan Row × List (List Constant)) := do
  let (_, slot) ← cs.get t.form
  return (cs, rows ++ [t.schema.fields.map slot.row])

end Reading

end Runs

section Examples

open SchemaSoundness

theorem Logged.addField {schema : Schema} {fileName : Bytes} (h : Logged B fileName schema)
    {F : Name} {info : FieldInfo} (hinfo : info.type = .varchar →
      fileName.length + 28 + 2 * info.length.toInt.toNat ≤ B.bytes) :
    Logged B fileName (schema.addField F info) := by
  refine ⟨h.int, fun F' info' hinfo' htype => ?_⟩
  by_cases heq : F' = F
  · rw [heq, Schema.addField_info_self] at hinfo'
    cases hinfo'
    exact hinfo htype
  · rw [Schema.addField_info_ne schema info heq] at hinfo'
    exact h.string F' info' hinfo' htype

end Examples

end SampleDB.PageRefinement
