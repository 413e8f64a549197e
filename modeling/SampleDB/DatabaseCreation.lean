import SampleDB.CatalogRoundTrip
import SampleDB.UndoLogs

/-!
The constructor of SampleDB on a directory that does not exist. The catalogs are made in one
transaction, which writes them record by record into zeroed pages and is committed at the end.
A second constructor finds the directory: it recovers, and does not make the catalogs again.
-/
namespace SampleDB.DatabaseCreation

open Pages Schemas TableScans Lexer TableCatalogs CatalogRoundTrip Runs UndoLogs
open RecordPages (Layout)

inductive TblPart
  | flag
  | tblname
  | slotsize
  deriving DecidableEq

inductive FldPart
  | flag
  | tblname
  | fldname
  | type
  | length
  | offset
  deriving DecidableEq

/-- A part of a slot of `tblcat` or of `fldcat`. -/
inductive Cell
  | tcat (slot : ℕ) (part : TblPart)
  | fcat (slot : ℕ) (part : FldPart)
  deriving DecidableEq

/-- What a part of a slot holds in a page of zeros, formatted or not. -/
def blank : Cell → Constant
  | .tcat _ .tblname => .ofString []
  | .fcat _ .tblname => .ofString []
  | .fcat _ .fldname => .ofString []
  | _ => .ofInt 0

/-- The file and the block of a cell. -/
def home (m : TableMgr) : Cell → Bool × ℕ
  | .tcat slot _ => (false, slot / m.tcat.perBlock)
  | .fcat slot _ => (true, slot / m.fcat.perBlock)

def MAX_VIEW_DEF : Int32 := 100

/-- The schemas of the catalogs, each made from its fields. -/
def tcatFields : List (Name × FieldInfo) :=
  [("tblname".toList, ⟨.varchar, MAX_NAME⟩), ("slotsize".toList, ⟨.integer, 0⟩)]

def fcatFields : List (Name × FieldInfo) :=
  [("tblname".toList, ⟨.varchar, MAX_NAME⟩), ("fldname".toList, ⟨.varchar, MAX_NAME⟩),
    ("type".toList, ⟨.integer, 0⟩), ("length".toList, ⟨.integer, 0⟩),
    ("offset".toList, ⟨.integer, 0⟩)]

def viewFields : List (Name × FieldInfo) :=
  [("viewname".toList, ⟨.varchar, MAX_NAME⟩), ("viewdef".toList, ⟨.varchar, MAX_VIEW_DEF⟩)]

def idxFields : List (Name × FieldInfo) :=
  [("indexname".toList, ⟨.varchar, MAX_NAME⟩), ("tablename".toList, ⟨.varchar, MAX_NAME⟩),
    ("fieldname".toList, ⟨.varchar, MAX_NAME⟩)]

/-- The catalogs in the order in which TableMgr, ViewMgr and IndexMgr make them. -/
def catalogTables : List (Name × List (Name × FieldInfo)) :=
  [("tblcat".toList, tcatFields), ("fldcat".toList, fcatFields), ("viewcat".toList, viewFields),
    ("idxcat".toList, idxFields)]

/-- The writes of `createTable` into `tblcat`. -/
def tableWrites (slot : ℕ) (row : TblRow) : List (Cell × Constant) :=
  [(.tcat slot .flag, .ofInt 1), (.tcat slot .tblname, .ofString row.tblname),
    (.tcat slot .slotsize, .ofInt row.slotsize)]

def fieldWrites (slot : ℕ) (row : FldRow) : List (Cell × Constant) :=
  [(.fcat slot .flag, .ofInt 1), (.fcat slot .tblname, .ofString row.tblname),
    (.fcat slot .fldname, .ofString row.fldname), (.fcat slot .type, .ofInt row.type),
    (.fcat slot .length, .ofInt row.length), (.fcat slot .offset, .ofInt row.offset)]

/-- The records of a table and of its fields. -/
def tableRow (tableName : Name) (layout : Layout) : TblRow := ⟨tableName, layout.slotSize⟩

def fieldRows (tableName : Name) (layout : Layout) : List FldRow :=
  layout.schema.fields.map (fieldRow layout.schema layout tableName)

/-- The new records go into the slots behind those that are in use. -/
def createWrites : ℕ → ℕ → List (Name × List (Name × FieldInfo)) → Result (List (Cell × Constant))
  | _, _, [] => .ok []
  | table, field, (tableName, defs) :: tables => do
      let layout ← Layout.new (Schema.ofFields defs)
      let rows := fieldRows tableName layout
      let rest ← createWrites (table + 1) (field + rows.length) tables
      return tableWrites table (tableRow tableName layout) ++
        (rows.zipIdx field).flatMap (fun r => fieldWrites r.2 r.1) ++ rest

/-- A slot of `tblcat`. -/
def readTbl (cells : Cell → Constant) (i : ℕ) : Slot TblRow :=
  ⟨cells (.tcat i .flag) = .ofInt 1,
    ⟨(cells (.tcat i .tblname)).sval.getD [], (cells (.tcat i .slotsize)).ival.getD 0⟩⟩

def readFld (cells : Cell → Constant) (i : ℕ) : Slot FldRow :=
  ⟨cells (.fcat i .flag) = .ofInt 1,
    ⟨(cells (.fcat i .tblname)).sval.getD [], (cells (.fcat i .fldname)).sval.getD [],
      (cells (.fcat i .type)).ival.getD 0, (cells (.fcat i .length)).ival.getD 0,
      (cells (.fcat i .offset)).ival.getD 0⟩⟩

/-- The catalogs as far as their files reach. -/
def readCatalog (tslots fslots : ℕ) (cells : Cell → Constant) : Catalog :=
  ⟨(List.range tslots).map (readTbl cells), (List.range fslots).map (readFld cells)⟩

/-- Whether the directory exists, and the transaction of the constructor. -/
structure Creation where
  exists' : Bool
  tx : State Cell Constant

inductive Effect
  | createDirectory
  | act (a : Action (Bool × ℕ))

inductive CreationStep (m : TableMgr) : Creation → Effect → Creation → Prop
  | createDirectory (tx : State Cell Constant) :
      CreationStep m ⟨false, tx⟩ .createDirectory ⟨true, tx⟩
  | act (tx tx' : State Cell Constant) (a : Action (Bool × ℕ)) : Step (home m) tx a tx' →
      CreationStep m ⟨true, tx⟩ (.act a) ⟨true, tx'⟩

def start (writes : List (Cell × Constant)) : Creation := ⟨false, State.start blank writes⟩

/-- `MetaDataMgr`. StatMgr scans `tblcat` with its layout from the catalogs; slots of a negative
size lie in front of the page. -/
def metaDataMgr (m : TableMgr) (cat : Catalog) : Result Catalog := do
  let layout ← m.getLayout cat "tblcat".toList
  if layout.slotSize ≤ 0 then .error .outside else .ok cat

/-- The constructor after a crash. -/
def reopen (m : TableMgr) (tslots fslots : ℕ) (writes : List (Cell × Constant)) (s : Creation) :
    Result Catalog :=
  if s.exists' then metaDataMgr m (readCatalog tslots fslots s.tx.recover)
  else metaDataMgr m (readCatalog tslots fslots (replay blank writes))

/-- Each catalog is registered once, with the layout that it was made with. -/
def Usable (m : TableMgr) (r : Result Catalog) : Prop :=
  ∃ cat, r = .ok cat ∧ ∀ t ∈ catalogTables,
    ((rows cat.tcat).filter (fun row => row.tblname = t.1)).length = 1 ∧
    ∃ layout, Layout.new (Schema.ofFields t.2) = .ok layout ∧ m.getLayout cat t.1 = .ok layout

/-- The rows that the slots have in their order, and no more. -/
def Filled {R : Type} (read : ℕ → Slot R) (rs : List R) : Prop :=
  (∀ i row, rs[i]? = some row → read i = ⟨true, row⟩) ∧
    ∀ i, rs.length ≤ i → (read i).used = false

section Filling

variable {R : Type} {read read' : ℕ → Slot R} {rs : List R} {row : R}

theorem Filled.add (h : Filled read rs) (hnew : read' rs.length = ⟨true, row⟩)
    (hkeep : ∀ i, i ≠ rs.length → read' i = read i) : Filled read' (rs ++ [row]) := by
  refine ⟨fun i row' hi => ?_, fun i hi => ?_⟩
  · by_cases hlt : i < rs.length
    · rw [List.getElem?_append_left hlt] at hi
      rw [hkeep i (Nat.ne_of_lt hlt)]
      exact h.1 i row' hi
    · rw [List.getElem?_append_right (Nat.le_of_not_lt hlt)] at hi
      obtain ⟨hlt', hrow⟩ := List.getElem?_eq_some_iff.mp hi
      rw [List.getElem_singleton] at hrow
      have hlength : i - rs.length < 1 := hlt'
      obtain rfl : i = rs.length := by omega
      rw [hnew, hrow]
  · rw [List.length_append, List.length_singleton] at hi
    rw [hkeep i (by omega)]
    exact h.2 i (by omega)

theorem Filled.rows (h : Filled read rs) {n : ℕ} (hn : rs.length ≤ n) :
    rows ((List.range n).map read) = rs := by
  obtain ⟨k, rfl⟩ := Nat.exists_eq_add_of_le hn
  have hfront : (List.range rs.length).map read = rs.map (fun row => ⟨true, row⟩) := by
    apply List.ext_getElem?
    intro i
    rw [List.getElem?_map, List.getElem?_map]
    by_cases hi : i < rs.length
    · rw [List.getElem?_range hi, List.getElem?_eq_getElem hi]
      exact congrArg some (h.1 i _ (List.getElem?_eq_getElem hi))
    · rw [List.getElem?_eq_none (by rw [List.length_range]; omega),
        List.getElem?_eq_none (by omega)]
      rfl
  have hback : ∀ slot ∈ ((List.range k).map (rs.length + ·)).map read, slot.used = false := by
    intro slot hslot
    rw [List.map_map] at hslot
    obtain ⟨i, -, rfl⟩ := List.mem_map.mp hslot
    exact h.2 _ (Nat.le_add_right _ _)
  have hused : ∀ rs : List R, CatalogRoundTrip.rows (rs.map (fun row => ⟨true, row⟩)) = rs := by
    intro rs
    induction rs with
    | nil => rfl
    | cons row rs ih => rw [List.map_cons, rows_used, ih]
  rw [List.range_add, List.map_append, rows_append, rows_free hback, List.append_nil, hfront, hused]

end Filling

section Writes

variable {cells : Cell → Constant} {tables : List TblRow} {fields : List FldRow}

theorem replay_append (cells : Cell → Constant) (ws ws' : List (Cell × Constant)) :
    replay cells (ws ++ ws') = replay (replay cells ws) ws' := List.foldl_append

theorem readTbl_tableWrites (cells : Cell → Constant) (i : ℕ) (row : TblRow) :
    readTbl (replay cells (tableWrites i row)) i = ⟨true, row⟩ := by
  simp [readTbl, replay, tableWrites, Constant.ofInt, Constant.ofString]

theorem readTbl_tableWrites_ne (cells : Cell → Constant) {i j : ℕ} (h : j ≠ i) (row : TblRow) :
    readTbl (replay cells (tableWrites i row)) j = readTbl cells j := by
  simp [readTbl, replay, tableWrites, h]

theorem readFld_tableWrites (cells : Cell → Constant) (i : ℕ) (row : TblRow) :
    readFld (replay cells (tableWrites i row)) = readFld cells := by
  funext j
  simp [readFld, replay, tableWrites]

theorem readFld_fieldWrites (cells : Cell → Constant) (i : ℕ) (row : FldRow) :
    readFld (replay cells (fieldWrites i row)) i = ⟨true, row⟩ := by
  simp [readFld, replay, fieldWrites, Constant.ofInt, Constant.ofString]

theorem readFld_fieldWrites_ne (cells : Cell → Constant) {i j : ℕ} (h : j ≠ i) (row : FldRow) :
    readFld (replay cells (fieldWrites i row)) j = readFld cells j := by
  simp [readFld, replay, fieldWrites, h]

theorem readTbl_fieldWrites (cells : Cell → Constant) (i : ℕ) (row : FldRow) :
    readTbl (replay cells (fieldWrites i row)) = readTbl cells := by
  funext j
  simp [readTbl, replay, fieldWrites]

/-- The records of the fields go behind each other. -/
theorem fields_filled (new : List FldRow) (hfields : Filled (readFld cells) fields) :
    Filled (readFld (replay cells
      ((new.zipIdx fields.length).flatMap (fun r => fieldWrites r.2 r.1)))) (fields ++ new) ∧
    readTbl (replay cells ((new.zipIdx fields.length).flatMap (fun r => fieldWrites r.2 r.1))) =
      readTbl cells := by
  induction new generalizing cells fields with
  | nil =>
    rw [List.append_nil]
    exact ⟨hfields, rfl⟩
  | cons row new ih =>
    rw [List.zipIdx_cons, List.flatMap_cons, replay_append]
    have hadd := hfields.add (readFld_fieldWrites cells fields.length row)
      (fun i hi => readFld_fieldWrites_ne cells hi row)
    have hrest := ih hadd
    rw [List.length_append, List.length_singleton, List.append_assoc, List.singleton_append,
      readTbl_fieldWrites] at hrest
    exact hrest

/-- The layout that a table is made with. -/
theorem layout_exists (defs : List (Name × FieldInfo)) :
    ∃ layout, Layout.new (Schema.ofFields defs) = .ok layout ∧
      layout.schema = Schema.ofFields defs := by
  obtain ⟨layout, hlayout, hschema, -⟩ :=
    addFields_layout ⟨Schema.ofFields defs, fun _ => none, 4⟩ (@fields_info defs)
  exact ⟨layout, hlayout, hschema⟩

end Writes

section Catalogs

variable {m : TableMgr} {made : List (Name × FieldInfo) → Layout} {cells : Cell → Constant}
  {tables : List TblRow} {fields : List FldRow}
  {defs : List (Name × List (Name × FieldInfo))} {t : Name × List (Name × FieldInfo)}

/-- The catalogs of tables with such layouts. -/
def tableRows (made : List (Name × FieldInfo) → Layout)
    (defs : List (Name × List (Name × FieldInfo))) : List TblRow :=
  defs.map (fun t => tableRow t.1 (made t.2))

def allFieldRows (made : List (Name × FieldInfo) → Layout)
    (defs : List (Name × List (Name × FieldInfo))) : List FldRow :=
  defs.flatMap (fun t => fieldRows t.1 (made t.2))

theorem createWrites_filled (hmade : ∀ defs, Layout.new (Schema.ofFields defs) = .ok (made defs))
    (htables : Filled (readTbl cells) tables) (hfields : Filled (readFld cells) fields) :
    ∃ ws, createWrites tables.length fields.length defs = .ok ws ∧
      Filled (readTbl (replay cells ws)) (tables ++ tableRows made defs) ∧
      Filled (readFld (replay cells ws)) (fields ++ allFieldRows made defs) := by
  induction defs generalizing cells tables fields with
  | nil =>
    refine ⟨[], rfl, ?_, ?_⟩
    · rw [tableRows, List.map_nil, List.append_nil]
      exact htables
    · rw [allFieldRows, List.flatMap_nil, List.append_nil]
      exact hfields
  | cons t defs ih =>
    obtain ⟨name, defs₀⟩ := t
    have htables' := htables.add
      (readTbl_tableWrites cells tables.length (tableRow name (made defs₀)))
      (fun i hi => readTbl_tableWrites_ne cells hi _)
    rw [← readFld_tableWrites cells tables.length (tableRow name (made defs₀))] at hfields
    obtain ⟨hfields', hkeep⟩ := fields_filled (fieldRows name (made defs₀)) hfields
    rw [← hkeep] at htables'
    obtain ⟨ws, hws, htables'', hfields''⟩ := ih htables' hfields'
    rw [List.length_append, List.length_singleton, List.length_append] at hws
    rw [List.append_assoc] at htables'' hfields''
    refine ⟨tableWrites tables.length (tableRow name (made defs₀)) ++
      ((fieldRows name (made defs₀)).zipIdx fields.length).flatMap (fun r => fieldWrites r.2 r.1) ++
        ws, ?_, ?_, ?_⟩
    · rw [createWrites, hmade, ok_bind]
      dsimp only
      rw [hws]
      rfl
    · rw [replay_append, replay_append]
      exact htables''
    · rw [replay_append, replay_append]
      exact hfields''

theorem filter_name (hnodup : (defs.map Prod.fst).Nodup) (ht : t ∈ defs) :
    defs.filter (fun u => u.1 = t.1) = [t] := by
  induction defs with
  | nil => cases ht
  | cons u defs ih =>
    rw [List.map_cons, List.nodup_cons] at hnodup
    cases ht with
    | head =>
      have hrest : defs.filter (fun u => u.1 = t.1) = [] := by
        apply List.filter_eq_nil_iff.mpr
        intro v hv heq
        exact hnodup.1 (of_decide_eq_true heq ▸ List.mem_map_of_mem hv)
      rw [List.filter_cons, if_pos (decide_eq_true rfl), hrest]
    | tail _ ht =>
      have hne : ¬ u.1 = t.1 := fun heq => hnodup.1 (heq ▸ List.mem_map_of_mem ht)
      rw [List.filter_cons, if_neg (fun heq => hne (of_decide_eq_true heq)), ih hnodup.2 ht]

theorem tableRows_filter (hnodup : (defs.map Prod.fst).Nodup) (ht : t ∈ defs) :
    (tableRows made defs).filter (fun row => row.tblname = t.1) =
      [tableRow t.1 (made t.2)] := by
  have hfilter := filter_name hnodup ht
  rw [tableRows, List.filter_map]
  exact congrArg (List.map (fun t => tableRow t.1 (made t.2))) hfilter

theorem fieldRows_tblname {name : Name} {layout : Layout} {row : FldRow}
    (h : row ∈ fieldRows name layout) : row.tblname = name := by
  obtain ⟨field, -, rfl⟩ := List.mem_map.mp h
  rfl

theorem allFieldRows_filter (hnodup : (defs.map Prod.fst).Nodup) (ht : t ∈ defs) :
    (allFieldRows made defs).filter (fun row => row.tblname = t.1) =
      fieldRows t.1 (made t.2) := by
  have hpart : ∀ u : Name × List (Name × FieldInfo),
      (fieldRows u.1 (made u.2)).filter (fun row => row.tblname = t.1) =
        if u.1 = t.1 then fieldRows u.1 (made u.2) else [] := by
    intro u
    by_cases heq : u.1 = t.1
    · rw [if_pos heq]
      exact List.filter_eq_self.mpr
        (fun row hrow => decide_eq_true ((fieldRows_tblname hrow).trans heq))
    · rw [if_neg heq]
      exact List.filter_eq_nil_iff.mpr (fun row hrow hname =>
        heq ((fieldRows_tblname hrow).symm.trans (of_decide_eq_true hname)))
  have hall : ∀ us : List (Name × List (Name × FieldInfo)),
      us.flatMap (fun u => if u.1 = t.1 then fieldRows u.1 (made u.2) else []) =
        (us.filter (fun u => u.1 = t.1)).flatMap (fun u => fieldRows u.1 (made u.2)) := by
    intro us
    induction us with
    | nil => rfl
    | cons u us ih =>
      rw [List.flatMap_cons, ih, List.filter_cons]
      by_cases heq : u.1 = t.1
      · rw [if_pos heq, if_pos (decide_eq_true heq), List.flatMap_cons]
      · rw [if_neg heq, if_neg (fun h => heq (of_decide_eq_true h)), List.nil_append]
  rw [allFieldRows, List.filter_flatMap]
  simp only [hpart]
  rw [hall, filter_name hnodup ht, List.flatMap_cons, List.flatMap_nil, List.append_nil]

/-- A fresh database has every table once, with its layout. -/
theorem created_layout (hmade : ∀ defs, Layout.new (Schema.ofFields defs) = .ok (made defs))
    (hschema : ∀ defs, (made defs).schema = Schema.ofFields defs)
    {cat : Catalog} (htcat : rows cat.tcat = tableRows made defs)
    (hfcat : rows cat.fcat = allFieldRows made defs) (hnodup : (defs.map Prod.fst).Nodup)
    (ht : t ∈ defs) (hnames : (t.2.map Prod.fst).Nodup)
    (hlengths : ∀ d ∈ t.2, d.2.type ≠ .varchar → d.2.length = 0) :
    m.getLayout cat t.1 = .ok (made t.2) := by
  refine getLayout_of_rows (hmade t.2) hnames hlengths ?_ ?_
  · rw [htcat, ← List.head?_filter, tableRows_filter hnodup ht]
    rfl
  · rw [hfcat, allFieldRows_filter hnodup ht, fieldRows, hschema, ofFields_fields]

end Catalogs

section Crashes

variable {m : TableMgr} {ws : List (Cell × Constant)} {s s' : Creation} {effects : List Effect}
  {tslots fslots : ℕ}

theorem filled_blank : Filled (readTbl blank) [] ∧ Filled (readFld blank) [] :=
  ⟨⟨fun i row h => (by cases h), fun _ _ => rfl⟩, ⟨fun i row h => (by cases h), fun _ _ => rfl⟩⟩

/-- The catalogs after all writes are usable, when their files reach far enough. -/
theorem usable_replay (m : TableMgr) (hwrites : createWrites 0 0 catalogTables = .ok ws)
    (htslots : 4 ≤ tslots) (hfslots : 12 ≤ fslots) :
    Usable m (metaDataMgr m (readCatalog tslots fslots (replay blank ws))) := by
  choose made hmade hschema using layout_exists
  obtain ⟨ws', hws', htables, hfields⟩ :=
    @createWrites_filled made blank [] [] catalogTables hmade filled_blank.1 filled_blank.2
  obtain rfl : ws' = ws := Except.ok.inj (hws'.symm.trans hwrites)
  rw [List.nil_append] at htables hfields
  have hlength : (allFieldRows made catalogTables).length = 12 := by
    simp only [allFieldRows, catalogTables, List.flatMap_cons, List.flatMap_nil, fieldRows, hschema,
      ofFields_fields, List.length_append, List.length_map]
    rfl
  have htcat : rows (readCatalog tslots fslots (replay blank ws')).tcat =
      tableRows made catalogTables := htables.rows htslots
  have hfcat : rows (readCatalog tslots fslots (replay blank ws')).fcat =
      allFieldRows made catalogTables := hfields.rows (hlength ▸ hfslots)
  have hnodup : (catalogTables.map Prod.fst).Nodup := by decide
  have hdefs : ∀ t ∈ catalogTables, (t.2.map Prod.fst).Nodup ∧
      ∀ d ∈ t.2, d.2.type ≠ .varchar → d.2.length = 0 := by decide
  have hget : ∀ t ∈ catalogTables,
      m.getLayout (readCatalog tslots fslots (replay blank ws')) t.1 = .ok (made t.2) :=
    fun t ht => created_layout hmade hschema htcat hfcat hnodup ht (hdefs t ht).1 (hdefs t ht).2
  refine ⟨_, ?_, fun t ht => ⟨?_, made t.2, hmade t.2, hget t ht⟩⟩
  · have hfirst := hget ("tblcat".toList, tcatFields) List.mem_cons_self
    have hsize : ¬ (made tcatFields).slotSize ≤ 0 := by
      obtain ⟨layout, hlayout, hpos⟩ : ∃ layout, Layout.new (Schema.ofFields tcatFields) =
        .ok layout ∧ ¬ layout.slotSize ≤ 0 := ⟨_, rfl, by decide⟩
      obtain rfl : layout = made tcatFields := Except.ok.inj (hlayout.symm.trans (hmade _))
      exact hpos
    unfold metaDataMgr
    rw [hfirst, ok_bind, if_neg hsize]
  · rw [htcat, tableRows_filter hnodup ht, List.length_singleton]

/-- A directory without catalogs is not usable. -/
theorem not_usable_blank (m : TableMgr) (tslots fslots : ℕ) :
    ¬ Usable m (metaDataMgr m (readCatalog tslots fslots blank)) := by
  have htcat : rows (readCatalog tslots fslots blank).tcat = [] :=
    filled_blank.1.rows (Nat.zero_le _)
  have hget : ∃ layout, m.getLayout (readCatalog tslots fslots blank) "tblcat".toList =
      .ok layout ∧ layout.slotSize = -1 := by
    rw [getLayout_eq, htcat]
    exact ⟨_, rfl, rfl⟩
  obtain ⟨layout, hlayout, hsize⟩ := hget
  rintro ⟨cat, hcat, -⟩
  unfold metaDataMgr at hcat
  rw [hlayout, ok_bind, if_pos (by rw [hsize]; decide)] at hcat
  cases hcat

/-- The transaction of a constructor that was run up to a point. -/
theorem tx_run (hrun : Run (CreationStep m) (start ws) effects s) :
    (s.exists' = false → s.tx = State.start blank ws) ∧
      ∃ as, Run (Step (home m)) (State.start blank ws) as s.tx := by
  have hrun' : ∀ {s₀ s : Creation} {effects : List Effect}, Run (CreationStep m) s₀ effects s →
      (s.exists' = false → s.tx = s₀.tx ∧ s₀.exists' = false) ∧
      ∃ as, Run (Step (home m)) s₀.tx as s.tx := by
    intro s₀ s effects hrun
    induction hrun with
    | nil s => exact ⟨fun h => ⟨rfl, h⟩, [], .nil _⟩
    | cons hstep hrest ih =>
      obtain ⟨hfalse, as, has⟩ := ih
      cases hstep with
      | createDirectory tx => exact ⟨fun h => (nomatch (hfalse h).2), as, has⟩
      | act tx tx' a hact =>
        exact ⟨fun h => (nomatch (hfalse h).2), a :: as, .cons hact has⟩
  obtain ⟨hfalse, has⟩ := hrun' hrun
  exact ⟨fun h => (hfalse h).1, has⟩

/-- The catalogs are usable after a crash of the constructor if the directory was not there
yet, or the commit record was on disk. The files reach as far as the constructor that ended
has written them. -/
theorem usable_iff (m : TableMgr) (hwrites : createWrites 0 0 catalogTables = .ok ws)
    (hrun : Run (CreationStep m) (start ws) effects s)
    (hreach : s.exists' = false ∨ s.tx.durable = true → 4 ≤ tslots ∧ 12 ≤ fslots) :
    Usable m (reopen m tslots fslots ws s) ↔ s.exists' = false ∨ s.tx.durable = true := by
  obtain ⟨-, as, has⟩ := tx_run hrun
  have hrecover := recover_eq has
  unfold reopen
  by_cases hexists : s.exists' = true
  · rw [if_pos hexists, hrecover]
    by_cases hdurable : s.tx.durable = true
    · rw [if_pos hdurable]
      obtain ⟨htslots, hfslots⟩ := hreach (Or.inr hdurable)
      exact iff_of_true (usable_replay m hwrites htslots hfslots) (Or.inr hdurable)
    · rw [if_neg hdurable]
      refine iff_of_false (not_usable_blank m tslots fslots) ?_
      rintro (h | h)
      · exact Bool.false_ne_true (h.symm.trans hexists)
      · exact hdurable h
  · have hfalse : s.exists' = false := Bool.eq_false_iff.mpr hexists
    obtain ⟨htslots, hfslots⟩ := hreach (Or.inl hfalse)
    rw [if_neg hexists]
    exact iff_of_true (usable_replay m hwrites htslots hfslots) (Or.inl hfalse)

/-- A crash right after the directory was made leaves no catalogs. -/
theorem not_usable_directory : ∃ (m : TableMgr) (ws : List (Cell × Constant)) (s : Creation),
    createWrites 0 0 catalogTables = .ok ws ∧
    Run (CreationStep m) (start ws) [.createDirectory] s ∧
    ¬ Usable m (reopen m 0 0 ws s) :=
  ⟨tableMgr, _, _, rfl, .cons (.createDirectory _) (.nil _), not_usable_blank tableMgr 0 0⟩

/-- A crash after the first write, whose log record was saved. -/
theorem usable_iff_write : ∃ (ws : List (Cell × Constant)) (s : Creation),
    createWrites 0 0 catalogTables = .ok ws ∧
    Run (CreationStep tableMgr) (start ws) [.createDirectory, .act .write, .act .saveLog] s ∧
    (Usable tableMgr (reopen tableMgr 14 0 ws s) ↔ s.exists' = false ∨ s.tx.durable = true) := by
  obtain ⟨ws, hws, c, v, rest, htodo⟩ : ∃ ws, createWrites 0 0 catalogTables = .ok ws ∧
      ∃ c v rest, ws = (c, v) :: rest := ⟨_, rfl, _, _, _, rfl⟩
  have hrun : Run (CreationStep tableMgr) (start ws)
      [.createDirectory, .act .write, .act .saveLog] _ :=
    .cons (.createDirectory _) (.cons (.act _ _ _ (.write _ c v rest htodo))
      (.cons (.act _ _ _ (.saveLog _)) (.nil _)))
  refine ⟨ws, _, hws, hrun, usable_iff tableMgr hws hrun ?_⟩
  rintro (h | h)
  · cases h
  · cases h

end Crashes

end SampleDB.DatabaseCreation
