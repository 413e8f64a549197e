import SampleDB.Estimates
import SampleDB.IndexFormats
import SampleDB.IndexSplits

/-!
The two kinds of index pages. A record of a leaf leads to a record of the table, a record of the
directory to a block; the fields say which. Both are written by the same loops, and the layouts of
both are made from the type and the length of the indexed field.
-/
namespace SampleDB.IndexForms

open Words Pages Blocks Lexer Schemas Rollback Endings PageValues RecordPages StoredRecords
open PageWrites IndexPages IndexCells

instance : Inhabited RID := ⟨⟨0, 0⟩⟩

/-- How the fields of a record say what it leads to, and how it is read and inserted. -/
structure PageKind (P : Type) where
  view : P → Name → Value
  getData : Layout → Transaction → ℕ → ℤ → Result P
  insertRecord : BlockSize → Layout → ℕ → Transaction → ℤ → Value → P → Result Transaction

def leaf : PageKind RID where
  view rid fieldName :=
    if fieldName = "block".toList then .int rid.blockNumber else .int rid.slotNumber
  getData := BTreePage.getDataRid
  insertRecord := BTreePage.insertLeaf

def dir : PageKind Int32 where
  view blknum _ := .int blknum
  getData := BTreePage.getChildNum
  insertRecord := BTreePage.insertDir

/-- Whatever is no integer is kept as a string. -/
def keyInfo : FieldInfo → FieldInfo
  | ⟨.integer, _⟩ => ⟨.integer, 0⟩
  | ⟨_, length⟩ => ⟨.varchar, length⟩

def keysOf (schema : Schema) (info : FieldInfo) : BTreePages.Layout where
  dataval := (keyInfo info).type
  length := (keyInfo info).length.toInt.toNat
  slotSize := slotBytes schema schema.fields
  slot_pos := by
    unfold slotBytes
    omega

/-- The value can be the key of a record: a string is no longer than declared. -/
def Within (info : FieldInfo) : Value → Prop
  | .int _ => info.type = .integer
  | .string s => info.type ≠ .integer ∧ s.length ≤ info.length.toInt

theorem suits_keysOf (schema : Schema) {info : FieldInfo} {v : Value} (h : Within info v) :
    PageLists.Suits (keysOf schema info) v := by
  obtain ⟨type, length⟩ := info
  unfold PageLists.Suits BTreePages.Layout.stored
  cases v with
  | int n =>
    cases h
    rfl
  | string s =>
    obtain ⟨htype, hlen⟩ := h
    have hle : s.length ≤ length.toInt.toNat := by
      change (s.length : ℤ) ≤ length.toInt at hlen
      omega
    cases type with
    | integer => exact absurd rfl htype
    | varchar => exact if_pos hle
    | boolean => exact if_pos hle

section Schemas

variable {schema : Schema} {info : FieldInfo} {layout : Layout} {f : Name} {fs : List Name}

/-- The fields of an index: a key, and integers. -/
structure IndexSchema (schema : Schema) (info : FieldInfo) : Prop where
  nodup : schema.fields.Nodup
  dataval : "dataval".toList ∈ schema.fields
  key : schema.fieldInfo "dataval".toList = some (keyInfo info)
  integer : ∀ f ∈ schema.fields, f ≠ "dataval".toList → schema.fieldInfo f = some ⟨.integer, 0⟩

theorem leafSchema_fields (info : FieldInfo) : (leafSchema info).fields =
    ["block".toList, "id".toList, "dataval".toList] := by
  obtain ⟨type, length⟩ := info
  cases type <;> rfl

theorem leafSchema_info (info : FieldInfo) :
    (leafSchema info).fieldInfo "block".toList = some ⟨.integer, 0⟩ ∧
      (leafSchema info).fieldInfo "id".toList = some ⟨.integer, 0⟩ ∧
        (leafSchema info).fieldInfo "dataval".toList = some (keyInfo info) := by
  obtain ⟨type, length⟩ := info
  cases type <;> exact ⟨rfl, rfl, rfl⟩

/-- What `IndexInfo` makes for the leaves. -/
theorem createIndexLayout_eq (h : schema.fieldInfo f = some info) :
    Estimates.IndexInfo.createIndexLayout schema f = Layout.new (leafSchema info) := by
  obtain ⟨type, length⟩ := info
  unfold Estimates.IndexInfo.createIndexLayout
  rw [h]
  cases type <;> rfl

theorem leafSchema_ok (info : FieldInfo) : IndexSchema (leafSchema info) info := by
  have hfields := leafSchema_fields info
  obtain ⟨hblock, hid, hkey⟩ := leafSchema_info info
  refine ⟨?_, ?_, hkey, ?_⟩
  · rw [hfields]
    decide
  · rw [hfields]
    decide
  · intro f hf hne
    rw [hfields] at hf
    simp only [List.mem_cons, List.not_mem_nil, or_false] at hf
    obtain rfl | rfl | rfl := hf
    · exact hblock
    · exact hid
    · exact absurd rfl hne

theorem dirSchema_eq (info : FieldInfo) : dirSchema (leafSchema info) =
    (Schema.empty.addField "block".toList ⟨.integer, 0⟩).addField "dataval".toList
      (keyInfo info) := by
  obtain ⟨hblock, -, hkey⟩ := leafSchema_info info
  unfold dirSchema Plans.addFrom
  rw [List.foldl_cons, hblock, List.foldl_cons, hkey]
  rfl

theorem dirSchema_ok (info : FieldInfo) : IndexSchema (dirSchema (leafSchema info)) info := by
  rw [dirSchema_eq]
  refine ⟨?_, ?_, Schema.addField_info_self _ _ _, ?_⟩
  · show ["block".toList, "dataval".toList].Nodup
    decide
  · show "dataval".toList ∈ ["block".toList, "dataval".toList]
    decide
  · intro f hf hne
    change f ∈ ["block".toList, "dataval".toList] at hf
    rw [Schema.addField_info_ne _ _ hne]
    simp only [List.mem_cons, List.not_mem_nil, or_false] at hf
    obtain rfl | rfl := hf
    · exact Schema.addField_info_self _ _ _
    · exact absurd rfl hne

theorem addFields_schema {layout' : Layout} (h : fs.foldlM Layout.addField layout = .ok layout') :
    layout'.schema = layout.schema := by
  induction fs generalizing layout with
  | nil =>
    cases h
    rfl
  | cons g fs ih =>
    obtain ⟨layout₁, hadd, hrest⟩ := bind_eq_ok.mp h
    obtain ⟨length, -, hdone⟩ := bind_eq_ok.mp hadd
    cases hdone
    rw [ih hrest]

/-- A field that is added later does not move the others. -/
theorem addFields_offsets {layout' : Layout} (h : fs.foldlM Layout.addField layout = .ok layout')
    (hf : f ∉ fs) : layout'.offsets f = layout.offsets f := by
  induction fs generalizing layout with
  | nil =>
    cases h
    rfl
  | cons g fs ih =>
    obtain ⟨layout₁, hadd, hrest⟩ := bind_eq_ok.mp h
    obtain ⟨length, -, hdone⟩ := bind_eq_ok.mp hadd
    cases hdone
    rw [ih hrest (fun hmem => hf (List.mem_cons_of_mem g hmem))]
    have hne : f ≠ g := fun heq => hf (List.mem_cons.mpr (Or.inl heq))
    exact Function.update_of_ne hne _ _

/-- The first field comes right behind the word that the flag of a table's slot has. -/
theorem first_offset (h : Layout.new schema = .ok layout) (hfields : schema.fields = f :: fs)
    (hf : f ∉ fs) : layout.offset f = .ok 4 := by
  unfold Layout.new at h
  rw [hfields] at h
  obtain ⟨layout₁, hadd, hrest⟩ := bind_eq_ok.mp h
  obtain ⟨length, -, hdone⟩ := bind_eq_ok.mp hadd
  cases hdone
  have hoffset := addFields_offsets hrest hf
  dsimp only at hoffset
  rw [Function.update_self] at hoffset
  unfold Layout.offset
  rw [hoffset]

theorem IndexSchema.indexLayout (h : IndexSchema schema info)
    (hlength : info.type ≠ .integer → 0 ≤ info.length.toInt)
    (hnew : Layout.new schema = .ok layout)
    (hint : slotBytes layout.schema layout.schema.fields < 2147483648) :
    IndexLayout layout (keysOf layout.schema info) := by
  have hsame : layout.schema = schema := addFields_schema hnew
  rw [hsame] at hint
  have hkeys : (keyInfo info).type ≠ .boolean ∧
      ((keyInfo info).type = .varchar → 0 ≤ (keyInfo info).length.toInt) := by
    obtain ⟨type, length⟩ := info
    cases type with
    | integer => exact ⟨FieldType.noConfusion, FieldType.noConfusion⟩
    | varchar => exact ⟨FieldType.noConfusion, fun _ => hlength FieldType.noConfusion⟩
    | boolean => exact ⟨FieldType.noConfusion, fun _ => hlength FieldType.noConfusion⟩
  have hdeclared : Declared schema := by
    intro f hf
    by_cases heq : f = "dataval".toList
    · exact ⟨_, heq ▸ h.key, hkeys.2⟩
    · exact ⟨_, h.integer f hf heq, fun htype => by cases htype⟩
  obtain ⟨layout', hnew', hschema, hplaced⟩ := layout_new hdeclared hint
  rw [hnew] at hnew'
  cases hnew'
  rw [← hschema] at hdeclared hplaced h
  exact {
    declared := hdeclared
    placed := hplaced
    nodup := h.nodup
    slotSize := hplaced.size
    key := hkeys.1
    dataval := h.dataval
    info := ⟨_, h.key, rfl⟩
    integer := fun f hf hne => ⟨_, h.integer f hf hne⟩
  }

end Schemas

/-- The slots of the pages have these fields, and a record is written key first. -/
structure PageKind.Fits {P : Type} [Inhabited P] (F : PageKind P) (layout : Layout)
    (L : BTreePages.Layout) : Prop where
  index : IndexLayout layout L
  view_int : ∀ d f, kind (F.view d f) = .int
  view_default : ∀ f, F.view default f = .int 0
  first : ∃ f rest, layout.schema.fields = f :: rest ∧ layout.offset f = .ok 4
  insertRecord : ∃ fs, ("dataval".toList :: fs).Nodup ∧
    (∀ f, f ∈ "dataval".toList :: fs ↔ f ∈ layout.schema.fields) ∧
    ∀ B blk tx (s : ℕ) v d, PageLists.Suits L v → F.insertRecord B layout blk tx s v d =
      (BTreePage.insert B layout blk tx s >>= fun tx => ("dataval".toList :: fs).foldlM
        (fun tx f => tx.set B blk ((PageCell.field s f).pos layout) (valueOf F.view ⟨v, d⟩ f) true)
        tx)
  getData : ∀ {tx : Transaction} {blk : ℕ} {p : Page} (i : ℕ) (d : P), tx.contents blk = .ok p →
    (F.getData layout tx blk i = .ok d ↔ ∀ f ∈ layout.schema.fields, f ≠ "dataval".toList →
      get p ((PageCell.field i f).pos layout) .int = .ok (F.view d f))

section Kinds

variable {layout : Layout} {L : BTreePages.Layout}

theorem get_int_iff {p : Page} {offset n : Int32} :
    Endings.get p offset .int = .ok (.int n) ↔ p.getInt offset.toInt = .ok n := by
  constructor
  · intro h
    obtain ⟨m, hm, hval⟩ := bind_eq_ok.mp h
    cases hval
    exact hm
  · intro h
    unfold Endings.get
    rw [h]
    rfl

theorem leaf_view (rid : RID) (f : Name) : kind (leaf.view rid f) = .int := by
  unfold leaf
  dsimp only
  split <;> rfl

theorem leaf_fits (h : IndexLayout layout L) (hfields : layout.schema.fields =
      ["block".toList, "id".toList, "dataval".toList])
    (hfirst : layout.offset "block".toList = .ok 4) : leaf.Fits layout L := by
  have hblock : "block".toList ∈ layout.schema.fields := by
    rw [hfields]
    decide
  have hid : "id".toList ∈ layout.schema.fields := by
    rw [hfields]
    decide
  refine ⟨h, leaf_view, ?_, ⟨_, _, hfields, hfirst⟩, ?_, ?_⟩
  · intro f
    unfold leaf
    dsimp only
    split <;> rfl
  · refine ⟨["block".toList, "id".toList], by decide, ?_, ?_⟩
    · intro f
      rw [hfields]
      simp only [List.mem_cons, List.not_mem_nil, or_false]
      tauto
    · intro B blk tx s v d hv
      have hkind : kind v = fieldKind layout "dataval".toList :=
        (@value_fits layout L RID leaf.view ⟨v, d⟩ _ h leaf_view hv h.dataval).1
      show BTreePage.insertLeaf B layout blk tx s v d = _
      unfold BTreePage.insertLeaf
      simp only [h.setInt_eq hblock, h.setInt_eq hid, h.setValue_eq h.dataval hkind,
        List.foldlM_cons, List.foldlM_nil, bind_pure]
      rfl
  · intro tx blk p i d hpage
    show BTreePage.getDataRid layout tx blk i = .ok d ↔ _
    unfold BTreePage.getDataRid
    rw [h.getInt_eq hblock hpage, h.getInt_eq hid hpage]
    constructor
    · intro hread f hf hne
      obtain ⟨n, hn, hread⟩ := bind_eq_ok.mp hread
      obtain ⟨m, hm, hread⟩ := bind_eq_ok.mp hread
      cases hread
      rw [hfields] at hf
      simp only [List.mem_cons, List.not_mem_nil, or_false] at hf
      obtain rfl | rfl | rfl := hf
      · exact get_int_iff.mpr hn
      · exact get_int_iff.mpr hm
      · exact absurd rfl hne
    · intro hread
      rw [get_int_iff.mp (hread _ hblock (by decide)), ok_bind,
        get_int_iff.mp (hread _ hid (by decide)), ok_bind]
      rfl

theorem dir_fits (h : IndexLayout layout L)
    (hfields : layout.schema.fields = ["block".toList, "dataval".toList])
    (hfirst : layout.offset "block".toList = .ok 4) : dir.Fits layout L := by
  have hblock : "block".toList ∈ layout.schema.fields := by
    rw [hfields]
    decide
  refine ⟨h, fun _ _ => rfl, fun _ => rfl, ⟨_, _, hfields, hfirst⟩, ?_, ?_⟩
  · refine ⟨["block".toList], by decide, ?_, ?_⟩
    · intro f
      rw [hfields]
      simp only [List.mem_cons, List.not_mem_nil, or_false]
      tauto
    · intro B blk tx s v d hv
      have hkind : kind v = fieldKind layout "dataval".toList :=
        (@value_fits layout L Int32 dir.view ⟨v, d⟩ _ h (fun _ _ => rfl) hv h.dataval).1
      show BTreePage.insertDir B layout blk tx s v d = _
      unfold BTreePage.insertDir
      simp only [h.setInt_eq hblock, h.setValue_eq h.dataval hkind, List.foldlM_cons,
        List.foldlM_nil, bind_pure]
      rfl
  · intro tx blk p i d hpage
    show BTreePage.getChildNum layout tx blk i = .ok d ↔ _
    unfold BTreePage.getChildNum
    rw [h.getInt_eq hblock hpage]
    constructor
    · intro hread f hf hne
      rw [hfields] at hf
      simp only [List.mem_cons, List.not_mem_nil, or_false] at hf
      obtain rfl | rfl := hf
      · exact get_int_iff.mpr hread
      · exact absurd rfl hne
    · intro hread
      exact get_int_iff.mp (hread _ hblock (by decide))

variable {info : FieldInfo}

theorem leaf_made (hlength : info.type ≠ .integer → 0 ≤ info.length.toInt)
    (hnew : Layout.new (leafSchema info) = .ok layout)
    (hint : slotBytes layout.schema layout.schema.fields < 2147483648) :
    leaf.Fits layout (keysOf layout.schema info) := by
  have hfirst := first_offset hnew (leafSchema_fields info) (by decide)
  have hfields : layout.schema.fields = ["block".toList, "id".toList, "dataval".toList] := by
    rw [addFields_schema hnew]
    exact leafSchema_fields info
  exact leaf_fits ((leafSchema_ok info).indexLayout hlength hnew hint) hfields hfirst

theorem dir_made (hlength : info.type ≠ .integer → 0 ≤ info.length.toInt)
    (hnew : Layout.new (dirSchema (leafSchema info)) = .ok layout)
    (hint : slotBytes layout.schema layout.schema.fields < 2147483648) :
    dir.Fits layout (keysOf layout.schema info) := by
  have hschema : (dirSchema (leafSchema info)).fields = ["block".toList, "dataval".toList] := by
    rw [dirSchema_eq]
    rfl
  have hfirst := first_offset hnew hschema (by decide)
  have hfields : layout.schema.fields = ["block".toList, "dataval".toList] := by
    rw [addFields_schema hnew]
    exact hschema
  exact dir_fits ((dirSchema_ok info).indexLayout hlength hnew hint) hfields hfirst

end Kinds

end SampleDB.IndexForms
