import SampleDB.Iterators
import SampleDB.Fuel
import SampleDB.Plans
import SampleDB.TypedTables

/-!
Open tables as lists of rows. A cursor has the rows behind it in front of it; a temporary table
that is only appended to holds its rows in the first slots, with the cursor at the last one.
-/
namespace SampleDB.TableRows

open Lexer Schemas Statements Pages Blocks TableScans UpdatePlanner Scans Plans TypedTables Iterators

section Cursors

/-- The rows behind the cursor. -/
def later (t : OpenTable) : List Row :=
  (recordsFrom t.form (t.ts.start t.form) (t.ts.slots.drop (t.ts.start t.form))).map Prod.snd

/-- The cursor is at a slot with this row. -/
def On (t : OpenTable) (r : Row) : Prop :=
  ∃ i slot, t.ts.current t.form = some i ∧ t.ts.slots[i]? = some slot ∧ slot.row = r

/-- Two cursors in one file. -/
structure SameFile (t t' : OpenTable) : Prop where
  schema : t'.schema = t.schema
  form : t'.form = t.form
  slots : t'.ts.slots = t.ts.slots

variable {t t' t'' : OpenTable} {r : Row} {F : Name}

theorem SameFile.refl (t : OpenTable) : SameFile t t := ⟨rfl, rfl, rfl⟩

theorem SameFile.trans (h : SameFile t t') (h' : SameFile t' t'') : SameFile t t'' :=
  ⟨h'.schema.trans h.schema, h'.form.trans h.form, h'.slots.trans h.slots⟩

theorem sameFile_next (t : OpenTable) : SameFile t t.next.2 := by
  refine ⟨rfl, rfl, ?_⟩
  show (t.ts.next t.form).2.slots = t.ts.slots
  unfold TableScan.next
  split <;> rfl

theorem sameFile_beforeFirst (t : OpenTable) : SameFile t t.beforeFirst := ⟨rfl, rfl, rfl⟩

/-- At the front there is one cursor for each file. -/
theorem SameFile.beforeFirst_eq (h : SameFile t t') : t'.beforeFirst = t.beforeFirst := by
  obtain ⟨schema, form, slots, block, slot⟩ := t
  obtain ⟨schema', form', slots', block', slot'⟩ := t'
  obtain ⟨hschema, hform, hslots⟩ := h
  cases hschema
  cases hform
  cases hslots
  rfl

theorem next_cases (t : OpenTable) :
    (∃ r, t.next.1 = true ∧ later t = r :: later t.next.2 ∧ On t.next.2 r) ∨
      (t.next.1 = false ∧ later t = []) := by
  have hnext : t.next = ((t.ts.next t.form).1, { t with ts := (t.ts.next t.form).2 }) := rfl
  rcases recordsFrom_drop t.form t.ts.slots (t.ts.start t.form) with
    ⟨i, slot, hsearch, hslot, -, hrecords⟩ | ⟨hsearch, hrecords⟩
  · have hfound : t.ts.next t.form = (true, t.ts.moveTo t.form i) := by
      unfold TableScan.next
      rw [hsearch]
    refine Or.inl ⟨slot.row, ?_, ?_, i, slot, ?_, ?_, rfl⟩
    · rw [hnext, hfound]
    · unfold later
      rw [hrecords, hnext, hfound]
      dsimp only
      rw [start_moveTo]
      rfl
    · rw [hnext, hfound]
      exact current_moveTo t.form t.ts i
    · rw [hnext, hfound]
      exact hslot
  · refine Or.inr ⟨?_, ?_⟩
    · rw [hnext]
      unfold TableScan.next
      rw [hsearch]
    · unfold later
      rw [hrecords]
      rfl

theorem getValue_on (h : On t r) (hF : t.schema.hasField F = true) : t.getValue F = .ok (r F) := by
  obtain ⟨i, slot, hcurrent, hslot, rfl⟩ := h
  obtain ⟨info, hinfo⟩ := Option.isSome_iff_exists.mp hF
  unfold OpenTable.getValue TableScan.get
  rw [hinfo, hcurrent]
  dsimp only
  rw [hslot]
  rfl

end Cursors

section Rows

/-- The row of a table has nothing else than values that fit in its fields. -/
structure FitsRow (schema : Schema) (r : Row) : Prop where
  kinds : TypedRow schema r
  lengths : ∀ F info s, schema.fieldInfo F = some info → (r F).sval = some s →
    (s.length : ℤ) ≤ info.length.toInt
  rest : ∀ F, schema.fieldInfo F = none → r F = .null

variable {schema : Schema} {r row : Row} {F : Name}

theorem setValue_fits (h : FitsRow schema r) (hF : schema.hasField F = true) :
    setValue schema row F (r F) = .ok (Function.update row F (r F)) := by
  obtain ⟨info, hinfo⟩ := Option.isSome_iff_exists.mp hF
  have hkind := h.kinds F info hinfo
  have hlength := fun s => h.lengths F info s hinfo
  unfold setValue
  rw [hinfo]
  dsimp only
  cases htype : info.type with
  | varchar =>
    rw [htype] at hkind
    obtain ⟨s, hs⟩ := hkind
    rw [hs] at hlength ⊢
    exact if_pos (hlength s rfl)
  | integer =>
    rw [htype] at hkind
    obtain ⟨n, hn⟩ := hkind
    rw [hn]
    rfl
  | boolean =>
    rw [htype] at hkind
    obtain ⟨n, hn⟩ := hkind
    rw [hn]
    rfl

/-- All fields of a blank row are written. -/
theorem written_eq (h : FitsRow schema r) (hlisted : Listed schema) :
    (fun F => if F ∈ schema.fields then r F else blankRow schema F) = r := by
  funext F
  split
  · rfl
  · rename_i hmem
    have hnone : schema.fieldInfo F = none :=
      Option.not_isSome_iff_eq_none.mp (fun hhas => hmem ((hlisted F).mpr hhas))
    unfold blankRow
    rw [hnone]
    exact (h.rest F hnone).symm

end Rows

section Appending

/-- Rows in the first slots, and blank ones that are free. -/
def block (rows : List Row) (blank : Row) (k : ℕ) : List (Slot Row) :=
  rows.map (fun r => ⟨true, r⟩) ++ List.replicate k ⟨false, blank⟩

/-- The cursor is between the rows and the free slots. -/
def Filled (t : OpenTable) (rows : List Row) : Prop :=
  (∃ k, t.ts.slots = block rows t.form.blank k) ∧ t.ts.start t.form = rows.length

/-- The last row is the current one. -/
structure Writing (t : OpenTable) (rows : List Row) (row : Row) (k : ℕ) : Prop where
  slots : t.ts.slots = rows.map (fun r => ⟨true, r⟩) ++
    ⟨true, row⟩ :: List.replicate k ⟨false, t.form.blank⟩
  start : t.ts.start t.form = rows.length + 1
  current : t.ts.current t.form = some rows.length

variable {t : OpenTable} {rows : List Row} {r row : Row} {k : ℕ}

theorem Writing.filled (h : Writing t rows row k) : Filled t (rows ++ [row]) := by
  refine ⟨⟨k, ?_⟩, ?_⟩
  · unfold block
    rw [h.slots, List.map_append, List.append_assoc]
    rfl
  · rw [h.start, List.length_append]
    rfl

theorem Writing.get (h : Writing t rows row k) :
    t.ts.get t.form = .ok (rows.length, ⟨true, row⟩) := by
  have hslot : t.ts.slots[rows.length]? = some ⟨true, row⟩ := by
    rw [h.slots, List.getElem?_append_right (Nat.le_of_eq (List.length_map _))]
    rw [List.length_map, Nat.sub_self]
    rfl
  unfold TableScan.get
  rw [h.current]
  dsimp only
  rw [hslot]

theorem Writing.on (h : Writing t rows row k) : On t row := by
  have hget := h.get
  unfold TableScan.get at hget
  rw [h.current] at hget
  dsimp only at hget
  split at hget
  · rename_i slot hslot
    cases hget
    exact ⟨rows.length, _, h.current, hslot, rfl⟩
  · cases hget

theorem Writing.setValue {F : Name} (h : Writing t rows row k) (hr : FitsRow t.schema r)
    (hF : t.schema.hasField F = true) : ∃ t', t.setValue F (r F) = .ok t' ∧
      Writing t' rows (Function.update row F (r F)) k ∧ t'.schema = t.schema ∧
        t'.form = t.form := by
  refine ⟨{ t with ts := t.ts.setSlot rows.length ⟨true, Function.update row F (r F)⟩ }, ?_, ?_,
    rfl, rfl⟩
  · unfold OpenTable.setValue
    rw [h.get, ok_bind]
    dsimp only
    rw [setValue_fits hr hF]
    rfl
  · refine ⟨?_, h.start, h.current⟩
    show t.ts.slots.set rows.length _ = _
    rw [h.slots, List.set_append, if_neg (by rw [List.length_map]; omega), List.length_map,
      Nat.sub_self]
    rfl

theorem Writing.setValues {read : Name → Result Constant} {fields : List Name}
    (h : Writing t rows row k) (hr : FitsRow t.schema r)
    (hfields : ∀ F ∈ fields, t.schema.hasField F = true ∧ read F = .ok (r F)) :
    ∃ t', setValues read fields t = .ok t' ∧
      Writing t' rows (fun F => if F ∈ fields then r F else row F) k ∧ t'.schema = t.schema ∧
        t'.form = t.form := by
  induction fields generalizing t row with
  | nil => exact ⟨t, rfl, h, rfl, rfl⟩
  | cons field fields ih =>
    obtain ⟨⟨hfield, hread⟩, hfields⟩ := List.forall_mem_cons.mp hfields
    obtain ⟨t₁, hset, h₁, hschema, hform⟩ := h.setValue hr hfield
    obtain ⟨t₂, hrest, h₂, hschema₂, hform₂⟩ := ih h₁ (hschema ▸ hr)
      (fun F hF => hschema ▸ hfields F hF)
    refine ⟨t₂, ?_, ?_, hschema₂.trans hschema, hform₂.trans hform⟩
    · unfold Plans.setValues
      rw [hread, ok_bind, hset, ok_bind]
      exact hrest
    · have hrow : (fun F => if F ∈ field :: fields then r F else row F) =
          fun F => if F ∈ fields then r F else Function.update row field (r field) F := by
        funext F
        by_cases hmem : F ∈ fields
        · rw [if_pos hmem, if_pos (List.mem_cons_of_mem field hmem)]
        · rw [if_neg hmem]
          by_cases heq : F = field
          · rw [if_pos (List.mem_cons.mpr (Or.inl heq)), heq, Function.update_self]
          · rw [if_neg (fun h => (List.mem_cons.mp h).elim heq hmem), Function.update_of_ne heq]
      rw [hrow]
      exact h₂

theorem block_free (rows : List Row) (blank : Row) (k : ℕ) :
    (block rows blank (k + 1))[rows.length]? = some ⟨false, blank⟩ := by
  unfold block
  rw [List.getElem?_append_right (Nat.le_of_eq (List.length_map _)), List.length_map, Nat.sub_self]
  rfl

theorem block_modify (rows : List Row) (blank : Row) (k : ℕ) :
    (block rows blank (k + 1)).modify rows.length (fun slot => { slot with used := true }) =
      rows.map (fun r => ⟨true, r⟩) ++ ⟨true, blank⟩ :: List.replicate k ⟨false, blank⟩ := by
  rw [modify_eq_set (block_free rows blank k)]
  unfold block
  rw [List.set_append, if_neg (by rw [List.length_map]; omega), List.length_map, Nat.sub_self]
  rfl

theorem Filled.insert (h : Filled t rows) :
    ∃ k, Writing t.insert rows t.form.blank k := by
  obtain ⟨⟨k, hslots⟩, hstart⟩ := h
  have hdone : ∀ m (ts : TableScan Row), ts.slots = block rows t.form.blank (m + 1) →
      Writing ⟨t.schema, t.form, TableScan.moveTo t.form
        ⟨ts.slots.modify rows.length (fun slot => { slot with used := true }), ts.block, ts.slot⟩
        rows.length⟩ rows t.form.blank m := by
    intro m ts hblock
    refine ⟨?_, start_moveTo t.form _ _, current_moveTo t.form _ _⟩
    show ts.slots.modify rows.length _ = _
    rw [hblock]
    exact block_modify rows t.form.blank m
  cases k with
  | zero =>
    -- the first slot of a new block
    have hend : t.ts.slots.length = rows.length := by
      rw [hslots]
      unfold block
      rw [List.replicate_zero, List.append_nil, List.length_map]
    obtain ⟨m, hm⟩ : ∃ m, t.form.perBlock = m + 1 := Nat.exists_eq_succ_of_ne_zero (by
      have := t.form.pos
      omega)
    have happend : t.ts.slots ++ t.form.emptyBlock = block rows t.form.blank (m + 1) := by
      rw [hslots]
      unfold Form.emptyBlock block
      rw [hm, List.replicate_zero, List.append_nil]
    refine ⟨m, ?_⟩
    unfold OpenTable.insert TableScan.insert
    rw [search_end (by omega), hend]
    exact hdone m ⟨t.ts.slots ++ t.form.emptyBlock, t.ts.block, t.ts.slot⟩ happend
  | succ k =>
    have hslot : t.ts.slots[t.ts.start t.form]? = some ⟨false, t.form.blank⟩ := by
      rw [hslots, hstart]
      exact block_free rows t.form.blank k
    refine ⟨k, ?_⟩
    unfold OpenTable.insert TableScan.insert
    rw [search_here hslot rfl, hstart]
    exact hdone k t.ts hslots

/-- A table of this schema that rows are written into. -/
structure Dest (schema : Schema) (t : OpenTable) (rows : List Row) : Prop where
  schema_eq : t.schema = schema
  blank : t.form.blank = blankRow schema
  filled : Filled t rows

/-- A record that is copied stands behind the others and is the current one. -/
theorem Dest.copyRecord {schema : Schema} {read : Name → Result Constant} (h : Dest schema t rows)
    (hlisted : Listed schema) (hr : FitsRow schema r)
    (hread : ∀ F, schema.hasField F = true → read F = .ok (r F)) :
    ∃ t', copyRecord read t = .ok t' ∧ Dest schema t' (rows ++ [r]) ∧ On t' r := by
  obtain ⟨rfl, hblank, hfilled⟩ := h
  obtain ⟨k, hinsert⟩ := hfilled.insert
  obtain ⟨t', hset, hwriting, hschema, hform⟩ := Writing.setValues (t := t.insert) hinsert hr
    (fun F hF => ⟨(hlisted F).mp hF, hread F ((hlisted F).mp hF)⟩)
  rw [hblank, written_eq hr hlisted] at hwriting
  exact ⟨t', hset, ⟨hschema, hform ▸ hblank, hwriting.filled⟩, hwriting.on⟩

end Appending

section TempTables

/-- A temporary table with these rows. -/
structure Holds (schema : Schema) (t : TempTable) (rows : List Row) : Prop where
  schema_eq : t.schema = schema
  blank : t.form.blank = blankRow schema
  slots : ∃ k, t.slots = block rows t.form.blank k

variable {schema : Schema} {B : BlockSize} {rows : List Row} {t : TempTable}

theorem recordsFrom_used (form : Form Row) (rows : List Row) (i : ℕ) :
    (recordsFrom form i (rows.map (fun r => ⟨true, r⟩))).map Prod.snd = rows := by
  induction rows generalizing i with
  | nil => rfl
  | cons r rows ih => exact congrArg (List.cons r) (ih (i + 1))

theorem start_new (form : Form Row) (slots : List (Slot Row)) :
    (TableScan.new form slots).start form = 0 := by
  unfold TableScan.new TableScan.start
  simp

theorem later_block {t : OpenTable} {k : ℕ} {used : List Row} {blank : Row}
    (hslots : t.ts.slots = block used blank k) (hstart : t.ts.start t.form = 0) :
    later t = used := by
  have hfree : ∀ slot ∈ List.replicate k (⟨false, blank⟩ : Slot Row), slot.used = false := by
    intro slot hslot
    rw [(List.mem_replicate.mp hslot).2]
  unfold later
  rw [hstart, List.drop_zero, hslots]
  unfold block
  rw [recordsFrom_append, recordsFrom_unused hfree, List.append_nil, recordsFrom_used]

theorem Holds.open_slots (h : Holds schema t rows) :
    ∃ k, t.open.ts.slots = block rows t.form.blank k := by
  obtain ⟨k, hslots⟩ := h.slots
  show ∃ k, (TableScan.new t.form t.slots).slots = _
  unfold TableScan.new
  by_cases hnil : t.slots = []
  · have hrows : rows = [] := by
      rw [hnil] at hslots
      exact List.map_eq_nil_iff.mp (List.append_eq_nil_iff.mp hslots.symm).1
    rw [if_pos hnil, hrows]
    exact ⟨t.form.perBlock, rfl⟩
  · rw [if_neg hnil]
    exact ⟨k, hslots⟩

theorem Holds.later (h : Holds schema t rows) : later t.open = rows := by
  obtain ⟨k, hslots⟩ := h.open_slots
  exact later_block hslots (start_new t.form t.slots)

theorem Dest.holds {t : OpenTable} (h : Dest schema t rows) : Holds schema (tempTable t) rows :=
  ⟨h.schema_eq, h.blank, h.filled.1⟩

/-- Records fit in a block. -/
theorem newTemp_dest {form : Form Row} (h : UpdatePlanner.form B schema = some form) :
    ∃ temp, TempTable.new B schema = .ok temp ∧ Dest schema temp.open [] := by
  refine ⟨⟨schema, form, []⟩, ?_, rfl, form_blank h, ⟨form.perBlock, rfl⟩, start_new form []⟩
  unfold TempTable.new
  rw [h]

end TempTables

section Scans

open Fuel

/-- The calls of a scan with these fields, and the record that it is on. -/
def scans (schema : Schema) : Iterator Scan Row where
  next s found s' := Returns (fun n => s.next n) (found, s')
  reset s s' := Returns (fun n => s.beforeFirst n) s'
  shows s r := ∀ F, s.hasField F = .ok (schema.hasField F) ∧
    (schema.hasField F = true → s.getValue F = .ok (r F))

theorem shows_value {schema : Schema} {s : Scan} {r : Row} (h : (scans schema).shows s r) {F : Name}
    (hF : schema.hasField F = true) : s.getValue F = .ok (r F) := (h F).2 hF

theorem table_next (t : OpenTable) :
    (scans t.schema).next (.table t) t.next.1 (.table t.next.2) :=
  Returns.of_succ (returns_of_forall (fun _ => rfl))

theorem table_emits {t t₀ : OpenTable} {rows : List Row} (hsame : SameFile t₀ t)
    (hlater : later t = rows) :
    (scans t₀.schema).Emits (fun s => ∃ t', s = .table t' ∧ SameFile t₀ t') (.table t) rows := by
  have hnext := table_next t
  have hsame' := hsame.trans (sameFile_next t)
  induction rows generalizing t with
  | nil =>
    rcases next_cases t with ⟨r, -, hcons, -⟩ | ⟨hmore, -⟩
    · rw [hlater] at hcons
      cases hcons
    · rw [hmore] at hnext
      exact ⟨_, hnext, _, rfl, hsame'⟩
  | cons r rows ih =>
    rcases next_cases t with ⟨r', hmore, hcons, hon⟩ | ⟨-, hnil⟩
    · rw [hlater] at hcons
      obtain ⟨rfl, hrows⟩ := List.cons.inj hcons
      rw [hmore] at hnext
      refine ⟨_, hnext, ⟨_, rfl, hsame'⟩, fun F => ⟨?_, fun hF => getValue_on hon ?_⟩, ?_⟩
      · show Except.ok (t.next.2.schema.hasField F) = _
        rw [hsame'.schema]
      · rw [hsame'.schema]
        exact hF
      · exact ih hsame' hrows.symm (table_next _) (hsame'.trans (sameFile_next _))
    · rw [hlater] at hnil
      cases hnil

/-- An open table goes through its records. -/
theorem table_source (t : OpenTable) :
    (scans t.schema).Source (fun s => ∃ t', s = .table t' ∧ SameFile t t')
    (later t.beforeFirst) := by
  constructor
  · rintro s ⟨t', rfl, hsame⟩
    exact ⟨_, _, table_next t', _, rfl, hsame.trans (sameFile_next t')⟩
  · rintro s ⟨t', rfl, hsame⟩
    have hsame' := hsame.trans (sameFile_beforeFirst t')
    refine ⟨.table t'.beforeFirst, returns_of_forall (fun _ => rfl), ⟨_, rfl, hsame'⟩, ?_⟩
    exact table_emits hsame' (congrArg later hsame.beforeFirst_eq)

end Scans

end SampleDB.TableRows
