import SampleDB.Runs
import SampleDB.TableCatalogs

/-!
The catalogs give back the layout of every table. New records go behind each other into
free slots, so the fields of a table are read in the order in which they were written,
whatever slots were freed before.
-/
namespace SampleDB.CatalogRoundTrip

open Pages Schemas TableScans Lexer TableCatalogs Runs
open RecordPages (Layout)

/-- The rows of the slots in use. -/
def rows {R : Type} (slots : List (Slot R)) : List R :=
  (slots.filter (fun slot => slot.used)).map (fun slot => slot.row)

section Rows

variable {R σ : Type} {form : Form R} {slots : List (Slot R)} {ts : TableScan R} {p : R → Bool}

theorem rows_append (slots slots' : List (Slot R)) :
    rows (slots ++ slots') = rows slots ++ rows slots' := by
  unfold rows
  rw [List.filter_append, List.map_append]

theorem rows_used (row : R) (slots : List (Slot R)) :
    rows (⟨true, row⟩ :: slots) = row :: rows slots := rfl

theorem rows_unused {slot : Slot R} (h : slot.used = false) (slots : List (Slot R)) :
    rows (slot :: slots) = rows slots := by
  unfold rows
  rw [List.filter_cons, h]
  rfl

theorem rows_free (h : ∀ slot ∈ slots, slot.used = false) : rows slots = [] := by
  unfold rows
  rw [List.filter_eq_nil_iff.mpr (fun slot hslot => by rw [h slot hslot]; exact Bool.false_ne_true)]
  rfl

theorem mem_rows {row : R} :
    row ∈ rows slots ↔ ∃ slot ∈ slots, slot.used = true ∧ slot.row = row := by
  unfold rows
  rw [List.mem_map]
  refine exists_congr (fun slot => ?_)
  rw [List.mem_filter, and_assoc]

theorem rows_new (form : Form R) (slots : List (Slot R)) :
    rows (TableScan.new form slots).slots = rows slots := by
  unfold TableScan.new
  by_cases hnil : slots = []
  · rw [if_pos hnil, hnil]
    exact rows_free (emptyBlock_unused form)
  · rw [if_neg hnil]

/-- A walk over the selected rows that changes none. -/
theorem walk_rows (f : σ → R → σ) (i : ℕ) (s : σ) :
    walk (fun row => .ok (p row)) (fun _ slot s => .ok (slot, f s slot.row)) i slots s =
      .ok (slots, ((rows slots).filter p).foldl f s) := by
  induction slots generalizing i s with
  | nil => rfl
  | cons slot slots ih =>
    obtain ⟨used, row⟩ := slot
    cases used with
    | false =>
      rw [walk_cons (visit_unused rfl s), ih, rows_unused rfl]
      rfl
    | true =>
      have hvisit : visit (fun row => .ok (p row)) (fun _ slot s => .ok (slot, f s slot.row)) i
          ⟨true, row⟩ s = if p row then .ok (⟨true, row⟩, f s row) else .ok (⟨true, row⟩, s) :=
        @visit_used R σ (fun row => .ok (p row)) (fun _ slot s => .ok (slot, f s slot.row))
          ⟨true, row⟩ i rfl (p row) rfl s
      rw [rows_used, List.filter_cons]
      by_cases hp : p row = true
      · rw [if_pos hp] at hvisit ⊢
        rw [walk_cons hvisit, ih]
        rfl
      · rw [if_neg hp] at hvisit ⊢
        rw [walk_cons hvisit, ih]
        rfl

/-- The loop of a scan over the selected rows that only reads them. -/
theorem whileNext_rows (form : Form R) (ts : TableScan R) (p : R → Bool) (f : σ → R → σ) (s : σ)
    (h : ts.start form = 0) :
    ∃ ts', whileNext form (fun row => .ok (p row))
      (fun ts s => do return (ts, f s (← ts.get form).2.row)) (ts.slots.length + 1) ts s =
        .ok (ts', ((rows ts.slots).filter p).foldl f s) := by
  have hbody : ∀ (ts : TableScan R) (i : ℕ) (slot : Slot R) (s : σ), ts.slots[i]? = some slot →
      (do return (ts.moveTo form i, f s (← (ts.moveTo form i).get form).2.row) :
        Result (TableScan R × σ)) =
        (Except.ok (slot, f s slot.row) : Result (Slot R × σ)).map
          (fun p => ((ts.moveTo form i).setSlot i p.1, p.2)) := by
    intro ts i slot s hslot
    have hset : ((ts.moveTo form i).setSlot i slot) = ts.moveTo form i := by
      obtain ⟨hlt, rfl⟩ := List.getElem?_eq_some_iff.mp hslot
      unfold TableScan.setSlot
      rw [show (ts.moveTo form i).slots = ts.slots from rfl, List.set_getElem_self]
      rfl
    rw [get_moveTo form ts hslot, ok_bind]
    show _ = Except.ok ((ts.moveTo form i).setSlot i slot, _)
    rw [hset]
    rfl
  have hloop := @whileNext_eq R σ form (fun row => .ok (p row)) ts
    (fun ts s => do return (ts, f s (← ts.get form).2.row))
      (fun _ slot s => .ok (slot, f s slot.row))
    hbody ts.slots.length s (Nat.le_add_right _ _)
  rw [h, List.drop_zero, walk_rows] at hloop
  obtain ⟨⟨ts', s'⟩, hrun, hs'⟩ := map_eq_ok.mp hloop
  have hfold : s' = ((rows ts.slots).filter p).foldl f s := congrArg Prod.snd hs'
  rw [hfold] at hrun
  exact ⟨ts', hrun⟩

/-- The first selected row, as the slots from a place on have it. -/
theorem firstSelected_rows (p : R → Bool) (slots : List (Slot R)) (i : ℕ) :
    (firstSelected (fun row => .ok (p row)) i slots = .ok none ∧ (rows slots).find? p = none) ∨
      ∃ k slot, firstSelected (fun row => .ok (p row)) i slots = .ok (some (i + k)) ∧
        slots[k]? = some slot ∧ (rows slots).find? p = some slot.row := by
  induction slots generalizing i with
  | nil => exact Or.inl ⟨rfl, rfl⟩
  | cons slot slots ih =>
    obtain ⟨used, row⟩ := slot
    have hskip : firstSelected (fun row => .ok (p row)) i (⟨used, row⟩ :: slots) =
          firstSelected (fun row => .ok (p row)) (i + 1) slots →
        (rows (⟨used, row⟩ :: slots)).find? p = (rows slots).find? p →
        (firstSelected (fun row => .ok (p row)) i (⟨used, row⟩ :: slots) = .ok none ∧
          (rows (⟨used, row⟩ :: slots)).find? p = none) ∨
        ∃ k slot, firstSelected (fun row => .ok (p row)) i (⟨used, row⟩ :: slots) =
          .ok (some (i + k)) ∧ (⟨used, row⟩ :: slots)[k]? = some slot ∧
          (rows (⟨used, row⟩ :: slots)).find? p = some slot.row := by
      intro hfirst hrows
      rw [hfirst, hrows]
      refine (ih (i + 1)).imp_right ?_
      rintro ⟨k, slot, hk, hslot, hfind⟩
      refine ⟨k + 1, slot, ?_, hslot, hfind⟩
      rw [hk, Nat.add_right_comm]
      rfl
    cases used with
    | false => exact hskip rfl (by rw [rows_unused rfl])
    | true =>
      by_cases hp : p row = true
      · refine Or.inr ⟨0, ⟨true, row⟩, ?_, rfl, ?_⟩
        · unfold firstSelected isSelected
          rw [if_pos rfl, ok_bind, if_pos hp]
          rfl
        · rw [rows_used, List.find?_cons_of_pos hp]
      · apply hskip
        · conv => lhs; unfold firstSelected isSelected
          rw [if_pos rfl, ok_bind, if_neg hp]
        · rw [rows_used, List.find?_cons_of_neg hp]

/-- A scan on a slot that was taken and given a row. -/
def onRow (form : Form R) (slots : List (Slot R)) (i : ℕ) (row : R) : TableScan R :=
  ⟨slots.set i ⟨true, row⟩, i / form.perBlock, some (i % form.perBlock)⟩

theorem start_onRow (i : ℕ) (row : R) : (onRow form slots i row).start form = i + 1 :=
  start_moveTo form (onRow form slots i row) i

theorem setRow_onRow {i : ℕ} (h : i < slots.length) (row row' : R) {f : R → Result R}
    (hf : f row = .ok row') :
    setRow form (onRow form slots i row) f = .ok (onRow form slots i row') := by
  have hget : (onRow form slots i row).get form = .ok (i, ⟨true, row⟩) :=
    get_moveTo form (onRow form slots i row) (List.getElem?_set_self h)
  unfold setRow
  rw [hget, ok_bind]
  dsimp only
  rw [hf, ok_bind]
  show Except.ok ((onRow form slots i row).setSlot i ⟨true, row'⟩) = _
  unfold TableScan.setSlot onRow
  rw [List.set_set]

theorem setRow_pure {i : ℕ} (h : i < slots.length) (row : R) (f : R → R) :
    setRow form (onRow form slots i row) (fun row => return f row) =
      .ok (onRow form slots i (f row)) :=
  setRow_onRow h row _ rfl

theorem rows_set {i : ℕ} (h : i < slots.length) (row : R) :
    rows (slots.set i ⟨true, row⟩) = rows (slots.take i) ++ row :: rows (slots.drop (i + 1)) := by
  rw [List.set_eq_take_append_cons_drop, if_pos h, rows_append, rows_used]

/-- A new row is put between others, and none that is in front of the cursor is behind it. -/
theorem exists_insert (form : Form R) (ts : TableScan R) (h : ts.start form ≤ ts.slots.length) :
    ∃ slots i row₀ front back, i < slots.length ∧ ts.insert form = onRow form slots i row₀ ∧
      rows ts.slots = front ++ back ∧
      (∀ row, rows (slots.set i ⟨true, row⟩) = front ++ row :: back) ∧
      rows (slots.drop (i + 1)) = back ∧
        ∃ mid, rows (ts.slots.drop (ts.start form)) = mid ++ back := by
  obtain ⟨slots, i, slot, hslots, hslot, hunused, hinsert, hle⟩ := insert_cases form ts
  obtain ⟨hlt, hget⟩ := List.getElem?_eq_some_iff.mp hslot
  rw [Nat.min_eq_left h] at hle
  have hrows : ∀ j, j ≤ ts.slots.length → rows (ts.slots.drop j) = rows (slots.drop j) := by
    intro j hj
    rcases hslots with rfl | rfl
    · rfl
    · rw [List.drop_append_of_le_length hj, rows_append, rows_free (emptyBlock_unused form),
        List.append_nil]
  have hback : rows (slots.drop i) = rows (slots.drop (i + 1)) := by
    rw [List.drop_eq_getElem_cons hlt, rows_unused]
    rw [hget]
    exact hunused
  refine ⟨slots, i, slot.row, rows (slots.take i), rows (slots.drop (i + 1)), hlt, ?_, ?_,
    fun row => rows_set hlt row, rfl,
      rows ((slots.drop (ts.start form)).take (i - ts.start form)), ?_⟩
  · rw [hinsert]
    rfl
  · have hall := hrows 0 (Nat.zero_le _)
    rw [List.drop_zero, List.drop_zero] at hall
    rw [hall, ← hback, ← rows_append, List.take_append_drop]
  · rw [hrows _ h, ← hback, ← rows_append]
    congr 1
    have hdrop : slots.drop i = (slots.drop (ts.start form)).drop (i - ts.start form) := by
      rw [List.drop_drop]
      congr 1
      omega
    rw [hdrop, List.take_append_drop]

end Rows

section Layouts

variable {m : TableMgr} {cat cat' : Catalog} {tableName other : Name} {schema : Schema}
  {layout : Layout}

/-- What the catalogs say about a table. -/
theorem getLayout_eq : m.getLayout cat tableName = .ok
    (let s := ((rows cat.fcat).filter (fun row => row.tblname = tableName)).foldl
      TableMgr.readField (Schema.empty, fun _ => none)
    ⟨s.1, s.2, ((rows cat.tcat).find? (fun row => row.tblname = tableName)).elim (-1)
      TblRow.slotsize⟩) := by
  have hsize : m.findSize tableName (TableScan.new m.tcat cat.tcat) =
      .ok (((rows cat.tcat).find? (fun row => row.tblname = tableName)).elim (-1)
        TblRow.slotsize) := by
    have hstart : (TableScan.new m.tcat cat.tcat).start m.tcat = 0 := Nat.zero_mul _
    unfold TableMgr.findSize
    rw [selectNext_eq (by omega), hstart, List.drop_zero, ← rows_new m.tcat cat.tcat]
    rcases firstSelected_rows (fun row : TblRow => decide (row.tblname = tableName))
      (TableScan.new m.tcat cat.tcat).slots 0 with ⟨hfirst, hfind⟩ | ⟨k, slot, hfirst, hslot, hfind⟩
    · rw [hfirst, hfind]
      rfl
    · rw [hfirst, hfind, Nat.zero_add]
      show ((TableScan.moveTo m.tcat _ k).get m.tcat >>= _) = _
      rw [get_moveTo m.tcat _ hslot]
      rfl
  obtain ⟨ts', hloop⟩ := whileNext_rows m.fcat (TableScan.new m.fcat cat.fcat)
    (fun row : FldRow => decide (row.tblname = tableName)) TableMgr.readField
    (Schema.empty, fun _ => none) (Nat.zero_mul _)
  unfold TableMgr.getLayout
  rw [hsize, ok_bind]
  dsimp only
  rw [hloop, rows_new]
  rfl

theorem storedName_eq {name : Name} (h : name.length ≤ MAX_NAME.toInt) :
    storedName name = .ok name := if_pos h

/-- The new table is the only one of its name, and the other ones are found as before. -/
theorem addTable_rows (layout : Layout) (tcat : TableScan TblRow)
    (hstart : tcat.start m.tcat ≤ tcat.slots.length)
    (hname : tableName.length ≤ MAX_NAME.toInt) :
    ∃ tcat' front back, m.addTable tableName layout tcat = .ok tcat' ∧
      rows tcat.slots = front ++ back ∧
      rows tcat'.slots = front ++ ⟨tableName, layout.slotSize⟩ :: back := by
  obtain ⟨slots, i, row₀, front, back, hlt, hinsert, hsplit, hset, -, -⟩ :=
    exists_insert m.tcat tcat hstart
  refine ⟨onRow m.tcat slots i ⟨tableName, layout.slotSize⟩, front, back, ?_, hsplit, hset _⟩
  unfold TableMgr.addTable
  dsimp only
  rw [hinsert, setRow_onRow hlt row₀ { row₀ with tblname := tableName } (by
    rw [storedName_eq hname]
    rfl), ok_bind]
  exact setRow_pure hlt _ _

/-- The record of a field. -/
def fieldRow (schema : Schema) (layout : Layout) (tableName fieldName : Name) : FldRow :=
  let info := (schema.fieldInfo fieldName).getD ⟨.integer, 0⟩
  ⟨tableName, fieldName, typeCode info.type, info.length, (layout.offsets fieldName).getD 0⟩

/-- The record of a field is put between the others. -/
theorem addField_split {fcat : TableScan FldRow} (hstart : fcat.start m.fcat ≤ fcat.slots.length)
    {fieldName : Name} (hname : tableName.length ≤ MAX_NAME.toInt)
    (hfield : fieldName.length ≤ MAX_NAME.toInt) (hinfo : schema.fieldInfo fieldName ≠ none)
    (hoffset : layout.offsets fieldName ≠ none) :
    ∃ fcat' front back, m.addField tableName schema layout fcat fieldName = .ok fcat' ∧
      rows fcat.slots = front ++ back ∧
      rows fcat'.slots = front ++ fieldRow schema layout tableName fieldName :: back ∧
      fcat'.start m.fcat ≤ fcat'.slots.length ∧
      rows (fcat'.slots.drop (fcat'.start m.fcat)) = back ∧
      ∃ mid, rows (fcat.slots.drop (fcat.start m.fcat)) = mid ++ back := by
  obtain ⟨info, hinfo⟩ := Option.ne_none_iff_exists'.mp hinfo
  obtain ⟨offset, hoffset⟩ := Option.ne_none_iff_exists'.mp hoffset
  obtain ⟨slots, i, row₀, front, back, hlt, hinsert, hsplit, hset, hdrop, hmid⟩ :=
    exists_insert m.fcat fcat hstart
  have hrow : fieldRow schema layout tableName fieldName =
      ⟨tableName, fieldName, typeCode info.type, info.length, offset⟩ := by
    unfold fieldRow
    rw [hinfo, hoffset]
    rfl
  refine ⟨onRow m.fcat slots i (fieldRow schema layout tableName fieldName), front, back, ?_,
    hsplit, hset _, ?_, ?_, hmid⟩
  · unfold TableMgr.addField
    dsimp only
    rw [hinsert, setRow_onRow hlt row₀ { row₀ with tblname := tableName } (by
        rw [storedName_eq hname]
        rfl), ok_bind,
      setRow_onRow hlt _ { row₀ with tblname := tableName, fldname := fieldName } (by
        rw [storedName_eq hfield]
        rfl), ok_bind, hinfo]
    show (setRow m.fcat _ _ >>= _) = _
    rw [setRow_pure hlt, ok_bind, setRow_pure hlt, ok_bind]
    unfold Layout.offset
    rw [hoffset, ok_bind, setRow_pure hlt, hrow]
  · rw [start_onRow]
    show i + 1 ≤ (slots.set i _).length
    rw [List.length_set]
    exact hlt
  · rw [start_onRow]
    show rows ((slots.set i _).drop (i + 1)) = back
    rw [List.drop_set_of_lt (Nat.lt_succ_self i), hdrop]

/-- What the records of all fields keep. -/
theorem addFields_invariant {names : List Name} (fcat : TableScan FldRow)
    (P : TableScan FldRow → Prop) (hname : tableName.length ≤ MAX_NAME.toInt)
    (hfields : ∀ name ∈ names, name.length ≤ MAX_NAME.toInt)
    (hinfo : ∀ name ∈ names, schema.fieldInfo name ≠ none)
    (hoffset : ∀ name ∈ names, layout.offsets name ≠ none)
    (hstart : fcat.start m.fcat ≤ fcat.slots.length) (hP : P fcat)
    (hstep : ∀ fcat fcat' front back name, P fcat → rows fcat.slots = front ++ back →
      rows fcat'.slots = front ++ fieldRow schema layout tableName name :: back → P fcat') :
    ∃ fcat', names.foldlM (m.addField tableName schema layout) fcat = .ok fcat' ∧ P fcat' := by
  induction names generalizing fcat with
  | nil => exact ⟨fcat, rfl, hP⟩
  | cons name names ih =>
    rw [List.forall_mem_cons] at hfields hinfo hoffset
    obtain ⟨fcat₁, front, back, hfirst, hsplit, hrows, hstart₁, -, -⟩ :=
      addField_split (m := m) hstart hname hfields.1 hinfo.1 hoffset.1
    obtain ⟨fcat', hrest, hP'⟩ := ih fcat₁ hfields.2 hinfo.2 hoffset.2 hstart₁
      (hstep fcat fcat₁ front back name hP hsplit hrows)
    refine ⟨fcat', ?_, hP'⟩
    rw [List.foldlM_cons, hfirst, ok_bind, hrest]

/-- The records of the fields go behind each other, where there are none of the table. -/
theorem addFields_rows {names : List Name} (fcat : TableScan FldRow)
    (hname : tableName.length ≤ MAX_NAME.toInt)
    (hfields : ∀ name ∈ names, name.length ≤ MAX_NAME.toInt)
    (hinfo : ∀ name ∈ names, schema.fieldInfo name ≠ none)
    (hoffset : ∀ name ∈ names, layout.offsets name ≠ none)
    (hstart : fcat.start m.fcat ≤ fcat.slots.length)
    (hnone : (rows (fcat.slots.drop (fcat.start m.fcat))).filter
      (fun row => row.tblname = tableName) = []) :
    ∃ fcat', names.foldlM (m.addField tableName schema layout) fcat = .ok fcat' ∧
      (rows fcat'.slots).filter (fun row => row.tblname = tableName) =
        (rows fcat.slots).filter (fun row => row.tblname = tableName) ++
          names.map (fieldRow schema layout tableName) := by
  induction names generalizing fcat with
  | nil => exact ⟨fcat, rfl, (List.append_nil _).symm⟩
  | cons name names ih =>
    rw [List.forall_mem_cons] at hfields hinfo hoffset
    obtain ⟨fcat₁, front, back, hfirst, hsplit, hrows, hstart₁, hdrop, mid, hmid⟩ :=
      addField_split (m := m) hstart hname hfields.1 hinfo.1 hoffset.1
    have hback : back.filter (fun row => row.tblname = tableName) = [] := by
      rw [hmid, List.filter_append] at hnone
      exact (List.append_eq_nil_iff.mp hnone).2
    obtain ⟨fcat', hrest, hrows'⟩ := ih fcat₁ hfields.2 hinfo.2 hoffset.2 hstart₁ (hdrop ▸ hback)
    refine ⟨fcat', ?_, ?_⟩
    · rw [List.foldlM_cons, hfirst, ok_bind, hrest]
    · have hself : decide ((fieldRow schema layout tableName name).tblname = tableName) = true :=
        decide_eq_true rfl
      rw [hrows', hrows, hsplit, List.filter_append, List.filter_append, List.filter_cons, hback,
        if_pos hself, List.append_nil, List.append_assoc]
      rfl

/-- A layout has an offset for each of its fields and for no other name. -/
theorem addFields_layout (layout : Layout) {names : List Name}
    (h : ∀ name ∈ names, layout.schema.fieldInfo name ≠ none) :
    ∃ layout', names.foldlM Layout.addField layout = .ok layout' ∧
      layout'.schema = layout.schema ∧ (∀ name ∈ names, layout'.offsets name ≠ none) ∧
      ∀ name, name ∉ names → layout'.offsets name = layout.offsets name := by
  induction names generalizing layout with
  | nil => exact ⟨layout, rfl, rfl, fun name hname => (by cases hname), fun _ _ => rfl⟩
  | cons f names ih =>
    rw [List.forall_mem_cons] at h
    obtain ⟨info, hinfo⟩ := Option.ne_none_iff_exists'.mp h.1
    obtain ⟨length, hlength⟩ : ∃ length, Layout.lengthInBytes layout.schema f = .ok length := by
      unfold Layout.lengthInBytes
      rw [hinfo]
      obtain ⟨type, length⟩ := info
      cases type <;> exact ⟨_, rfl⟩
    have hadd : layout.addField f = .ok ⟨layout.schema,
        Function.update layout.offsets f (some layout.slotSize),
        Int32.ofInt (layout.slotSize.toInt + length.toInt)⟩ := by
      unfold Layout.addField
      rw [hlength]
      rfl
    obtain ⟨layout', hrest, hschema, hsome, hsame⟩ := ih ⟨layout.schema,
      Function.update layout.offsets f (some layout.slotSize),
      Int32.ofInt (layout.slotSize.toInt + length.toInt)⟩ h.2
    refine ⟨layout', ?_, hschema, ?_, fun name hname => ?_⟩
    · rw [List.foldlM_cons, hadd, ok_bind, hrest]
    · rw [List.forall_mem_cons]
      refine ⟨?_, hsome⟩
      by_cases hmem : f ∈ names
      · exact hsome f hmem
      · rw [hsame f hmem]
        dsimp only
        rw [Function.update_self]
        exact Option.some_ne_none _
    · rw [List.mem_cons, not_or] at hname
      rw [hsame name hname.2]
      dsimp only
      rw [Function.update_of_ne hname.1]

/-- Only strings have a length. -/
def Lengths (schema : Schema) : Prop :=
  ∀ name info, schema.fieldInfo name = some info → info.type ≠ .varchar → info.length = 0

theorem readField_fieldRow {fieldName : Name} {info : FieldInfo} (h : Lengths schema)
    (hinfo : schema.fieldInfo fieldName = some info) (s : Schema × (Name → Option Int32)) :
    TableMgr.readField s (fieldRow schema layout tableName fieldName) =
      (s.1.addField fieldName info,
        Function.update s.2 fieldName (some ((layout.offsets fieldName).getD 0))) := by
  have hlength := h fieldName info hinfo
  unfold fieldRow TableMgr.readField
  rw [hinfo]
  obtain ⟨type, length⟩ := info
  cases type with
  | varchar => rfl
  | integer =>
    obtain rfl : length = 0 := hlength (fun h => by cases h)
    rfl
  | boolean =>
    obtain rfl : length = 0 := hlength (fun h => by cases h)
    rfl

/-- The fields of a table as they are read from the catalog. -/
theorem readFields_eq {names : List Name} (h : Lengths schema)
    (hinfo : ∀ name ∈ names, schema.fieldInfo name ≠ none) (s : Schema × (Name → Option Int32)) :
    (names.map (fieldRow schema layout tableName)).foldl TableMgr.readField s =
      ((names.map (fun name => (name, (schema.fieldInfo name).getD ⟨.integer, 0⟩))).foldl
          (fun s d => s.addField d.1 d.2) s.1,
        fun name => if name ∈ names then some ((layout.offsets name).getD 0) else s.2 name) := by
  induction names generalizing s with
  | nil => rfl
  | cons f names ih =>
    rw [List.forall_mem_cons] at hinfo
    obtain ⟨info, hf⟩ := Option.ne_none_iff_exists'.mp hinfo.1
    rw [List.map_cons, List.foldl_cons, readField_fieldRow h hf, ih hinfo.2, List.map_cons,
      List.foldl_cons, hf]
    refine Prod.ext rfl (funext fun name => ?_)
    dsimp only
    by_cases hmem : name ∈ names
    · rw [if_pos hmem, if_pos (List.mem_cons_of_mem f hmem)]
    · rw [if_neg hmem]
      by_cases heq : name = f
      · rw [heq, Function.update_self, if_pos List.mem_cons_self]
      · rw [Function.update_of_ne heq, if_neg (fun hin => (List.mem_cons.mp hin).elim heq hmem)]

end Layouts

section Schemas

variable {defs : List (Name × FieldInfo)} {name : Name}

theorem ofFields_fields : (Schema.ofFields defs).fields = defs.map Prod.fst := by
  unfold Schema.ofFields
  rw [Schema.foldl_addField_fields]
  rfl

/-- With distinct names every field has the type and length that it was given. -/
theorem ofFields_info (h : (defs.map Prod.fst).Nodup) {d : Name × FieldInfo} (hd : d ∈ defs) :
    (Schema.ofFields defs).fieldInfo d.1 = some d.2 := by
  induction defs with
  | nil => cases hd
  | cons d' defs ih =>
    rw [List.map_cons, List.nodup_cons] at h
    have hself : (Schema.ofFields (d' :: defs)).fieldInfo d.1 = _ :=
      Schema.foldl_addField_info defs _ d.1
    rw [hself]
    cases hd with
    | head => rw [if_neg h.1, Schema.addField_info_self]
    | tail _ hd => rw [if_pos (List.mem_map_of_mem hd), ih h.2 hd]

theorem map_info (h : (defs.map Prod.fst).Nodup) :
    (defs.map Prod.fst).map (fun name =>
      (name, ((Schema.ofFields defs).fieldInfo name).getD ⟨.integer, 0⟩)) = defs := by
  rw [List.map_map]
  refine (List.map_congr_left (fun d hd => ?_)).trans (List.map_id defs)
  rw [Function.comp_apply, ofFields_info h hd]
  rfl

end Schemas

/-- The names of a table fit the fields of the catalogs. -/
def NamesFit (tableName : Name) (defs : List (Name × FieldInfo)) : Prop :=
  tableName.length ≤ MAX_NAME.toInt ∧ ∀ d ∈ defs, d.1.length ≤ MAX_NAME.toInt

instance (tableName : Name) (defs : List (Name × FieldInfo)) : Decidable
    (NamesFit tableName defs) := by
  unfold NamesFit
  exact inferInstance

inductive Event
  | created (tableName : Name) (defs : List (Name × FieldInfo))
  | rolledBack

/-- A transaction that is rolled back leaves the records as before. -/
inductive CatalogStep (m : TableMgr) : Catalog → Event → Catalog → Prop
  | created {cat cat' : Catalog} (tableName : Name) (defs : List (Name × FieldInfo)) :
      NamesFit tableName defs → m.createTable cat tableName (Schema.ofFields defs) = .ok cat' →
      CatalogStep m cat (.created tableName defs) cat'
  | rolledBack {cat cat' : Catalog} : rows cat'.tcat = rows cat.tcat →
      rows cat'.fcat = rows cat.fcat → CatalogStep m cat .rolledBack cat'

/-- Every field belongs to a table. -/
def Linked (cat : Catalog) : Prop :=
  ∀ row ∈ rows cat.fcat, ∃ table ∈ rows cat.tcat, table.tblname = row.tblname

section Tables

variable {m : TableMgr} {cat cat' : Catalog} {tableName other : Name}
  {defs : List (Name × FieldInfo)} {layout : Layout}

theorem registered_iff :
    cat.Registered tableName ↔ ∃ row ∈ rows cat.tcat, row.tblname = tableName := by
  unfold Catalog.Registered
  constructor
  · rintro ⟨slot, hslot, hused, hrow⟩
    exact ⟨slot.row, mem_rows.mpr ⟨slot, hslot, hused, rfl⟩, hrow⟩
  · rintro ⟨row, hrow, hname⟩
    obtain ⟨slot, hslot, hused, rfl⟩ := mem_rows.mp hrow
    exact ⟨slot, hslot, hused, hname⟩

theorem start_new {R : Type} (form : Form R) (slots : List (Slot R)) :
    (TableScan.new form slots).start form = 0 := Nat.zero_mul _

theorem fields_fit (hfit : NamesFit tableName defs) :
    ∀ name ∈ (Schema.ofFields defs).fields, name.length ≤ MAX_NAME.toInt := by
  rw [ofFields_fields]
  intro name hname
  obtain ⟨d, hd, rfl⟩ := List.mem_map.mp hname
  exact hfit.2 d hd

theorem fields_info : ∀ name ∈ (Schema.ofFields defs).fields,
    (Schema.ofFields defs).fieldInfo name ≠ none := by
  rw [ofFields_fields]
  exact fun name hname => Schema.ofFields_info_ne_none hname

/-- The parts of a table in the catalogs, for any names that fit. -/
theorem createTable_parts (m : TableMgr) (cat : Catalog) (hfit : NamesFit tableName defs) :
    ∃ layout tcat front back, Layout.new (Schema.ofFields defs) = .ok layout ∧
      (∀ name ∈ (Schema.ofFields defs).fields, layout.offsets name ≠ none) ∧
      rows cat.tcat = front ++ back ∧
      rows tcat = front ++ ⟨tableName, layout.slotSize⟩ :: back ∧
      m.createTable cat tableName (Schema.ofFields defs) =
        ((Schema.ofFields defs).fields.foldlM
          (m.addField tableName (Schema.ofFields defs) layout)
          (TableScan.new m.fcat cat.fcat)).map (fun fcat => ⟨tcat, fcat.slots⟩) := by
  obtain ⟨layout, hlayout, -, hsome, -⟩ :=
    addFields_layout ⟨Schema.ofFields defs, fun _ => none, 4⟩ fields_info
  obtain ⟨tcat, front, back, hadd, hsplit, hrows⟩ := addTable_rows (m := m) layout
    (TableScan.new m.tcat cat.tcat) (by rw [start_new]; exact Nat.zero_le _) hfit.1
  rw [rows_new] at hsplit
  refine ⟨layout, tcat.slots, front, back, hlayout, hsome, hsplit, hrows, ?_⟩
  have hnew : Layout.new (Schema.ofFields defs) = .ok layout := hlayout
  unfold TableMgr.createTable
  rw [hnew, ok_bind, hadd, ok_bind]
  cases (Schema.ofFields defs).fields.foldlM (m.addField tableName (Schema.ofFields defs) layout)
    (TableScan.new m.fcat cat.fcat) <;> rfl

/-- A new table is linked, and leaves the records of the other ones as they are. -/
theorem createTable_others (cat : Catalog) (hfit : NamesFit tableName defs) :
    ∃ cat', m.createTable cat tableName (Schema.ofFields defs) = .ok cat' ∧
      (Linked cat → Linked cat') ∧
      ∀ other, other ≠ tableName → m.getLayout cat' other = m.getLayout cat other := by
  obtain ⟨layout, tcat, front, back, -, hsome, hsplit, hrows, hcreate⟩ :=
    createTable_parts m cat hfit
  obtain ⟨fcat, hfold, hmem, hfilter⟩ := addFields_invariant (m := m)
    (TableScan.new m.fcat cat.fcat)
    (fun fcat => (∀ row ∈ rows fcat.slots, row ∈ rows cat.fcat ∨ row.tblname = tableName) ∧
      ∀ other, other ≠ tableName → (rows fcat.slots).filter (fun row => row.tblname = other) =
        (rows cat.fcat).filter (fun row => row.tblname = other))
    hfit.1 (fields_fit hfit) fields_info hsome (by rw [start_new]; exact Nat.zero_le _)
    (by
      rw [rows_new]
      exact ⟨fun _ h => Or.inl h, fun _ _ => rfl⟩)
    (by
      rintro fcat fcat' front back name ⟨hmem, hfilter⟩ hsplit hrows
      refine ⟨fun row hrow => ?_, fun other hne => ?_⟩
      · rw [hrows] at hrow
        cases List.mem_append.mp hrow with
        | inl h => exact hmem row (hsplit ▸ List.mem_append_left _ h)
        | inr h =>
          cases h with
          | head => exact Or.inr rfl
          | tail _ h => exact hmem row (hsplit ▸ List.mem_append_right _ h)
      · rw [← hfilter other hne, hrows, hsplit, List.filter_append, List.filter_append,
          List.filter_cons, if_neg (fun heq => hne (of_decide_eq_true heq).symm)])
  refine ⟨⟨tcat, fcat.slots⟩, by rw [hcreate, hfold]; rfl, fun hlinked row hrow => ?_,
    fun other hne => ?_⟩
  · show ∃ table ∈ rows tcat, table.tblname = row.tblname
    rw [hrows]
    cases hmem row hrow with
    | inl hold =>
      obtain ⟨table, htable, hname⟩ := hlinked row hold
      rw [hsplit] at htable
      refine ⟨table, ?_, hname⟩
      exact (List.mem_append.mp htable).elim (List.mem_append_left _)
        (fun h => List.mem_append_right _ (List.mem_cons_of_mem _ h))
    | inr hname => exact ⟨_, List.mem_append_right _ List.mem_cons_self, hname.symm⟩
  · rw [getLayout_eq, getLayout_eq]
    show Except.ok _ = _
    rw [hfilter other hne, hrows, hsplit, List.find?_append, List.find?_append,
      List.find?_cons_of_neg (fun heq => hne (of_decide_eq_true heq).symm)]

/-- The layout of a table that has its record, and one for each field in order. -/
theorem getLayout_of_rows (hlayout : Layout.new (Schema.ofFields defs) = .ok layout)
    (hnodup : (defs.map Prod.fst).Nodup)
    (hlengths : ∀ d ∈ defs, d.2.type ≠ .varchar → d.2.length = 0)
    (htcat : (rows cat.tcat).find? (fun row => row.tblname = tableName) =
      some ⟨tableName, layout.slotSize⟩)
    (hfcat : (rows cat.fcat).filter (fun row => row.tblname = tableName) =
      (defs.map Prod.fst).map (fieldRow (Schema.ofFields defs) layout tableName)) :
    m.getLayout cat tableName = .ok layout := by
  obtain ⟨layout', hlayout', hschema, hsome, hnone⟩ :=
    addFields_layout ⟨Schema.ofFields defs, fun _ => none, 4⟩ fields_info
  obtain rfl : layout' = layout := Except.ok.inj (hlayout'.symm.trans hlayout)
  have hlengths' : Lengths (Schema.ofFields defs) := by
    intro name info hinfo htype
    have hname : name ∈ defs.map Prod.fst := by
      by_contra hnot
      have hempty := Schema.foldl_addField_info defs Schema.empty name
      rw [if_neg hnot] at hempty
      exact absurd (hinfo.symm.trans hempty) (Option.some_ne_none _)
    obtain ⟨d, hd, rfl⟩ := List.mem_map.mp hname
    obtain rfl : d.2 = info := Option.some.inj ((ofFields_info hnodup hd).symm.trans hinfo)
    exact hlengths d hd htype
  have hinfo : ∀ name ∈ defs.map Prod.fst, (Schema.ofFields defs).fieldInfo name ≠ none :=
    fun name hname => Schema.ofFields_info_ne_none hname
  rw [getLayout_eq]
  show Except.ok _ = _
  rw [htcat, hfcat, readFields_eq hlengths' hinfo, map_info hnodup]
  obtain ⟨schema, offsets, slotSize⟩ := layout'
  obtain rfl : schema = Schema.ofFields defs := hschema
  rw [ofFields_fields] at hsome hnone
  refine congrArg (fun o => Except.ok (Layout.mk (Schema.ofFields defs) o slotSize))
    (funext fun name => ?_)
  show (if name ∈ defs.map Prod.fst then some ((offsets name).getD 0) else none) = offsets name
  by_cases hmem : name ∈ defs.map Prod.fst
  · obtain ⟨offset, hoffset⟩ := Option.ne_none_iff_exists'.mp (hsome name hmem)
    have hoffset : offsets name = some offset := hoffset
    rw [if_pos hmem, hoffset]
    rfl
  · rw [if_neg hmem]
    exact (hnone name hmem).symm

/-- The layout of a new table, whose name has no records in the catalogs. -/
theorem createTable_self (hfit : NamesFit tableName defs) (hnodup : (defs.map Prod.fst).Nodup)
    (hlengths : ∀ d ∈ defs, d.2.type ≠ .varchar → d.2.length = 0)
    (htcat : ∀ row ∈ rows cat.tcat, row.tblname ≠ tableName)
    (hfcat : ∀ row ∈ rows cat.fcat, row.tblname ≠ tableName) :
    ∃ layout cat', Layout.new (Schema.ofFields defs) = .ok layout ∧
      m.createTable cat tableName (Schema.ofFields defs) = .ok cat' ∧
      m.getLayout cat' tableName = .ok layout := by
  obtain ⟨layout, tcat, front, back, hlayout, hsome, hsplit, hrows, hcreate⟩ :=
    createTable_parts m cat hfit
  have hempty : (rows (TableScan.new m.fcat cat.fcat).slots).filter
      (fun row => row.tblname = tableName) = [] := by
    rw [rows_new]
    exact List.filter_eq_nil_iff.mpr (fun row hrow heq => hfcat row hrow (of_decide_eq_true heq))
  obtain ⟨fcat, hfold, hfields⟩ := addFields_rows (m := m) (TableScan.new m.fcat cat.fcat)
    hfit.1 (fields_fit hfit) fields_info hsome (by rw [start_new]; exact Nat.zero_le _)
    (by rw [start_new]; exact hempty)
  rw [hempty, List.nil_append, ofFields_fields] at hfields
  have hfind : (rows tcat).find? (fun row => row.tblname = tableName) =
      some ⟨tableName, layout.slotSize⟩ := by
    have hfront : front.find? (fun row => row.tblname = tableName) = none := by
      apply List.find?_eq_none.mpr
      intro row hrow heq
      exact htcat row (hsplit ▸ List.mem_append_left _ hrow) (of_decide_eq_true heq)
    have hself : decide ((⟨tableName, layout.slotSize⟩ : TblRow).tblname = tableName) = true :=
      decide_eq_true rfl
    rw [hrows, List.find?_append, hfront, Option.none_or, List.find?_cons, hself]
  exact ⟨layout, ⟨tcat, fcat.slots⟩, hlayout, by rw [hcreate, hfold]; rfl,
    getLayout_of_rows hlayout hnodup hlengths hfind hfields⟩

theorem CatalogStep.linked {e : Event} (h : CatalogStep m cat e cat') (hlinked : Linked cat) :
    Linked cat' := by
  cases h with
  | created tableName defs hfit hcreate =>
    obtain ⟨cat'', hcreate', hkeep, -⟩ := createTable_others (m := m) cat hfit
    obtain rfl : cat'' = cat' := Except.ok.inj (hcreate'.symm.trans hcreate)
    exact hkeep hlinked
  | rolledBack htcat hfcat =>
    unfold Linked
    rw [htcat, hfcat]
    exact hlinked

theorem linked_run {events : List Event} (hnew : m.new = .ok cat)
    (hrun : Run (CatalogStep m) cat events cat') : Linked cat' := by
  refine hrun.invariant Linked (fun _ _ _ hlinked hstep => hstep.linked hlinked) ?_
  have hempty : Linked Catalog.empty := fun row hrow => by cases hrow
  unfold TableMgr.new at hnew
  obtain ⟨cat₁, hfirst, hsecond⟩ := bind_eq_ok.mp hnew
  have htcat : CatalogStep m Catalog.empty (.created _ _) cat₁ := .created "tblcat".toList
    [("tblname".toList, ⟨.varchar, MAX_NAME⟩), ("slotsize".toList, ⟨.integer, 0⟩)] (by decide) hfirst
  have hfcat : CatalogStep m cat₁ (.created _ _) cat := .created "fldcat".toList
    [("tblname".toList, ⟨.varchar, MAX_NAME⟩), ("fldname".toList, ⟨.varchar, MAX_NAME⟩),
      ("type".toList, ⟨.integer, 0⟩), ("length".toList, ⟨.integer, 0⟩),
      ("offset".toList, ⟨.integer, 0⟩)] (by decide) hsecond
  exact hfcat.linked (htcat.linked hempty)

/-- After any tables were created, or created and rolled back, a new table has the layout of
its schema, and the other tables have the layouts that they had. -/
theorem getLayout_createTable {events : List Event} (hnew : m.new = .ok cat)
    (hrun : Run (CatalogStep m) cat events cat') (hfit : NamesFit tableName defs)
    (hnodup : (defs.map Prod.fst).Nodup)
    (hlengths : ∀ d ∈ defs, d.2.type ≠ .varchar → d.2.length = 0)
    (hfresh : ¬ cat'.Registered tableName) :
    ∃ layout cat'', Layout.new (Schema.ofFields defs) = .ok layout ∧
      m.createTable cat' tableName (Schema.ofFields defs) = .ok cat'' ∧
      m.getLayout cat'' tableName = .ok layout ∧
      ∀ other, other ≠ tableName → m.getLayout cat'' other = m.getLayout cat' other := by
  have hlinked := linked_run hnew hrun
  have htcat : ∀ row ∈ rows cat'.tcat, row.tblname ≠ tableName := fun row hrow hname =>
    hfresh (registered_iff.mpr ⟨row, hrow, hname⟩)
  have hfcat : ∀ row ∈ rows cat'.fcat, row.tblname ≠ tableName := by
    intro row hrow hname
    obtain ⟨table, htable, hlink⟩ := hlinked row hrow
    exact htcat table htable (hlink.trans hname)
  obtain ⟨layout, cat'', hlayout, hcreate, hget⟩ :=
    createTable_self (m := m) hfit hnodup hlengths htcat hfcat
  obtain ⟨cat₁, hcreate', -, hothers⟩ := createTable_others (m := m) cat' hfit
  obtain rfl : cat₁ = cat'' := Except.ok.inj (hcreate'.symm.trans hcreate)
  exact ⟨layout, cat₁, hlayout, hcreate, hget, hothers⟩

end Tables

/-- The catalogs in blocks of 400 bytes. -/
def tableMgr : TableMgr :=
  ⟨⟨14, by decide, ⟨[], 0⟩⟩, ⟨7, by decide, ⟨[], [], 0, 0, 0⟩⟩⟩

theorem getLayout_createTable_pair : ∃ cat layout cat'', tableMgr.new = .ok cat ∧
    Layout.new (Schema.ofFields [(['a'], ⟨.integer, 0⟩), (['b'], ⟨.varchar, 9⟩)]) = .ok layout ∧
    tableMgr.createTable cat ['t']
      (Schema.ofFields [(['a'], ⟨.integer, 0⟩), (['b'], ⟨.varchar, 9⟩)]) =
      .ok cat'' ∧
    tableMgr.getLayout cat'' ['t'] = .ok layout ∧
    ∀ other, other ≠ ['t'] → tableMgr.getLayout cat'' other = tableMgr.getLayout cat other := by
  obtain ⟨cat, hnew⟩ : ∃ cat, tableMgr.new = .ok cat := ⟨_, rfl⟩
  have hfresh : ¬ cat.Registered ['t'] := by
    cases hnew
    unfold Catalog.Registered
    decide
  have hfit : NamesFit ['t'] [(['a'], ⟨.integer, 0⟩), (['b'], ⟨.varchar, 9⟩)] := by decide
  obtain ⟨layout, cat'', hlayout, hcreate, hget, hothers⟩ := getLayout_createTable hnew
    (.cons (.rolledBack rfl rfl) (.nil cat)) hfit (by decide) (by decide) hfresh
  exact ⟨cat, layout, cat'', hnew, hlayout, hcreate, hget, hothers⟩

/-- An integer field that was given a length has none after it. -/
theorem getLayout_length : ∃ cat layout cat' layout', tableMgr.new = .ok cat ∧
    ¬ cat.Registered ['t'] ∧ Layout.new (Schema.ofFields [(['a'], ⟨.integer, 7⟩)]) = .ok layout ∧
    tableMgr.createTable cat ['t'] (Schema.ofFields [(['a'], ⟨.integer, 7⟩)]) = .ok cat' ∧
    tableMgr.getLayout cat' ['t'] = .ok layout' ∧
    layout.schema.fieldInfo ['a'] = some ⟨.integer, 7⟩ ∧
    layout'.schema.fieldInfo ['a'] = some ⟨.integer, 0⟩ := by
  refine ⟨_, _, _, _, rfl, ?_, rfl, rfl, rfl, rfl, rfl⟩
  unfold Catalog.Registered
  decide

end SampleDB.CatalogRoundTrip
