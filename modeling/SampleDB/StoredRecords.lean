import Mathlib.Algebra.GroupWithZero.Nat
import SampleDB.PageCells
import SampleDB.RecordPages

/-!
Table files that store records. A cell is the flag of a slot or one of its fields. Cells do
not overlap and lie inside their block, so that a write to one cell leaves the others alone,
and a file stands for the sequence of its slots.
-/
namespace SampleDB.StoredRecords

open Slices Words Pages Blocks LogRecords RecordRoundTrip Logging LogState Lexer Schemas Rollback
open Endings PageValues TableScans RecordPages

abbrev Row := Name → Value

def kindOf : FieldType → Kind
  | .integer => .int
  | .boolean => .int
  | .varchar => .string

def width (info : FieldInfo) : ℕ :=
  match info.type with
  | .integer => 4
  | .boolean => 4
  | .varchar => 4 + info.length.toInt.toNat

def widthOf (schema : Schema) (fieldName : Name) : ℕ := (schema.fieldInfo fieldName).elim 0 width

/-- The bytes of a slot with these fields, if they were not counted with `int`s. -/
def slotBytes (schema : Schema) (fieldNames : List Name) : ℕ :=
  4 + (fieldNames.map (widthOf schema)).sum

/-- The fields have places that do not overlap, behind the flag. -/
structure Placed (layout : Layout) (fieldNames : List Name) : Prop where
  size : layout.slotSize.toInt = slotBytes layout.schema fieldNames
  offset : ∀ f ∈ fieldNames, ∃ pos, layout.offsets f = some pos ∧ 4 ≤ pos.toInt ∧
    pos.toInt + widthOf layout.schema f ≤ layout.slotSize.toInt
  apart : ∀ f ∈ fieldNames, ∀ g ∈ fieldNames, f ≠ g → ∀ pos pos', layout.offsets f = some pos →
    layout.offsets g = some pos' → pos.toInt + widthOf layout.schema f ≤ pos'.toInt ∨
      pos'.toInt + widthOf layout.schema g ≤ pos.toInt

/-- The fields have types, and no declared length is negative. -/
def Declared (schema : Schema) : Prop :=
  ∀ f ∈ schema.fields, ∃ info, schema.fieldInfo f = some info ∧
    (info.type = .varchar → 0 ≤ info.length.toInt)

section Layouts

variable {schema : Schema}

theorem slotBytes_concat (schema : Schema) (fieldNames : List Name) (f : Name) :
    slotBytes schema (fieldNames ++ [f]) = slotBytes schema fieldNames + widthOf schema f := by
  unfold slotBytes
  rw [List.map_append, List.sum_append, List.map_singleton, List.sum_singleton, Nat.add_assoc]

theorem slotBytes_append_le (schema : Schema) (fieldNames rest : List Name) :
    slotBytes schema fieldNames ≤ slotBytes schema (fieldNames ++ rest) := by
  unfold slotBytes
  rw [List.map_append, List.sum_append]
  omega

/-- The length of a field is its width, as long as that is an `int`. -/
theorem lengthInBytes_eq (h : Declared schema) {f : Name} (hf : f ∈ schema.fields)
    (hint : widthOf schema f < 2147483648) :
    ∃ length, Layout.lengthInBytes schema f = .ok length ∧ length.toInt = widthOf schema f := by
  obtain ⟨⟨type, length⟩, hinfo, hpos⟩ := h f hf
  unfold widthOf at hint ⊢
  unfold Layout.lengthInBytes
  rw [hinfo, Option.elim_some] at hint
  rw [hinfo, Option.elim_some]
  cases type with
  | integer => exact ⟨4, rfl, rfl⟩
  | boolean => exact ⟨4, rfl, rfl⟩
  | varchar =>
    have h0 : 0 ≤ length.toInt := hpos rfl
    have hwidth : width ⟨.varchar, length⟩ = 4 + length.toInt.toNat := rfl
    rw [hwidth] at hint ⊢
    refine ⟨Layout.maxLength length, rfl, ?_⟩
    have hmax : (Layout.maxLength length).toInt = 4 + length.toInt :=
      toInt_eq _ (by omega) (by omega)
    omega

theorem Placed.addField {layout : Layout} {fieldNames : List Name} {f : Name}
    (h : Placed layout fieldNames) (hschema : Declared layout.schema)
    (hf : f ∈ layout.schema.fields)
    (hint : slotBytes layout.schema (fieldNames ++ [f]) < 2147483648) :
    ∃ layout', layout.addField f = .ok layout' ∧ layout'.schema = layout.schema ∧
      Placed layout' (fieldNames ++ [f]) := by
  have hsize := h.size
  have hconcat := slotBytes_concat layout.schema fieldNames f
  obtain ⟨length, hlength, hwidth⟩ := lengthInBytes_eq hschema hf (by omega)
  have hsum : (Int32.ofInt (layout.slotSize.toInt + length.toInt)).toInt =
      layout.slotSize.toInt + length.toInt := toInt_eq _ (by omega) (by omega)
  refine ⟨⟨layout.schema, Function.update layout.offsets f (some layout.slotSize),
    Int32.ofInt (layout.slotSize.toInt + length.toInt)⟩, ?_, rfl, ?_, ?_, ?_⟩
  · unfold Layout.addField
    rw [hlength]
    rfl
  · show (Int32.ofInt _).toInt = _
    rw [hsum, hconcat]
    omega
  · intro g hg
    show ∃ pos, Function.update layout.offsets f _ g = some pos ∧ 4 ≤ pos.toInt ∧
      pos.toInt + widthOf layout.schema g ≤ (Int32.ofInt _).toInt
    rw [hsum]
    by_cases heq : g = f
    · refine ⟨layout.slotSize, by rw [heq, Function.update_self], ?_, ?_⟩
      · unfold slotBytes at hsize
        omega
      · rw [heq]
        omega
    · obtain ⟨pos, hpos, hfour, hle⟩ :=
        h.offset g ((List.mem_append.mp hg).resolve_right
          (fun hmem => heq (List.mem_singleton.mp hmem)))
      exact ⟨pos, by rw [Function.update_of_ne heq, hpos], hfour, by omega⟩
  · intro g hg g' hg' hne pos pos' hpos hpos'
    have hold : ∀ x ∈ fieldNames ++ [f], x ≠ f → x ∈ fieldNames := fun x hx hxf =>
      (List.mem_append.mp hx).resolve_right (fun hmem => hxf (List.mem_singleton.mp hmem))
    have hends : ∀ x ∈ fieldNames ++ [f], x ≠ f → ∀ pos,
        Function.update layout.offsets f (some layout.slotSize) x = some pos →
        pos.toInt + widthOf layout.schema x ≤ layout.slotSize.toInt := by
      intro x hx hxf pos hpos
      obtain ⟨pos', hpos', -, hle⟩ := h.offset x (hold x hx hxf)
      rw [Function.update_of_ne hxf, hpos'] at hpos
      cases hpos
      exact hle
    by_cases heq : g = f
    · have hother : g' ≠ f := fun h' => hne (heq.trans h'.symm)
      have hle := hends g' hg' hother pos' hpos'
      dsimp only at hpos
      rw [heq, Function.update_self] at hpos
      cases hpos
      exact Or.inr hle
    · by_cases heq' : g' = f
      · have hle := hends g hg heq pos hpos
        dsimp only at hpos'
        rw [heq', Function.update_self] at hpos'
        cases hpos'
        exact Or.inl hle
      · dsimp only at hpos hpos'
        rw [Function.update_of_ne heq] at hpos
        rw [Function.update_of_ne heq'] at hpos'
        exact h.apart g (hold g hg heq) g' (hold g' hg' heq') hne pos pos' hpos hpos'

theorem Placed.addFields {layout : Layout} {fieldNames rest : List Name}
    (h : Placed layout fieldNames) (hschema : Declared layout.schema)
    (hfields : layout.schema.fields = fieldNames ++ rest)
    (hint : slotBytes layout.schema layout.schema.fields < 2147483648) :
    ∃ layout', rest.foldlM Layout.addField layout = .ok layout' ∧
      layout'.schema = layout.schema ∧ Placed layout' layout.schema.fields := by
  induction rest generalizing layout fieldNames with
  | nil =>
    rw [List.append_nil] at hfields
    exact ⟨layout, rfl, rfl, hfields ▸ h⟩
  | cons f rest ih =>
    have hsplit : layout.schema.fields = (fieldNames ++ [f]) ++ rest := by
      rw [hfields, List.append_assoc]
      rfl
    have hle := slotBytes_append_le layout.schema (fieldNames ++ [f]) rest
    rw [← hsplit] at hle
    obtain ⟨layout₁, hadd, hschema₁, hplaced⟩ :=
      h.addField hschema (by rw [hfields]; exact List.mem_append_right _ List.mem_cons_self)
        (by omega)
    obtain ⟨layout', hrest, hschema', hplaced'⟩ := ih hplaced (by rw [hschema₁]; exact hschema)
      (by rw [hschema₁]; exact hsplit) (by rw [hschema₁]; exact hint)
    rw [hschema₁] at hschema' hplaced'
    refine ⟨layout', ?_, hschema', hplaced'⟩
    rw [List.foldlM_cons, hadd]
    exact hrest

/-- The layout of a schema whose slot is as long as an `int` can say. -/
theorem layout_new (h : Declared schema) (hint : slotBytes schema schema.fields < 2147483648) :
    ∃ layout, Layout.new schema = .ok layout ∧ layout.schema = schema ∧
      Placed layout schema.fields := by
  have hnil : Placed ⟨schema, fun _ => none, 4⟩ [] :=
    ⟨rfl, (fun f hf => by cases hf), (fun f hf => by cases hf)⟩
  exact hnil.addFields h rfl hint

end Layouts

/-- A layout whose slots lie inside a block. The end of the first slot that does not is an
`int`. -/
structure Sound (B : BlockSize) (layout : Layout) : Prop where
  declared : Declared layout.schema
  placed : Placed layout layout.schema.fields
  fits : layout.slotSize.toInt ≤ B.bytes
  next : (B.bytes / layout.slotSize.toInt.toNat + 1) * layout.slotSize.toInt.toNat < 2147483648

/-- How many slots a block has. -/
def perBlock (B : BlockSize) (layout : Layout) : ℕ := B.bytes / layout.slotSize.toInt.toNat

/-- The flag or a field of a slot. -/
inductive Cell
  | flag
  | field (fieldName : Name)
  deriving DecidableEq

namespace Cell

def Of (layout : Layout) : Cell → Prop
  | flag => True
  | field fieldName => fieldName ∈ layout.schema.fields

def start (layout : Layout) : Cell → ℤ
  | flag => 0
  | field fieldName => (layout.offsets fieldName).elim 0 Int32.toInt

def width (layout : Layout) : Cell → ℕ
  | flag => 4
  | field fieldName => widthOf layout.schema fieldName

def kind (layout : Layout) : Cell → Kind
  | flag => .int
  | field fieldName => (layout.schema.fieldInfo fieldName).elim .int (fun info => kindOf info.type)

def value (slot : Slot Row) : Cell → Value
  | flag => .int (if slot.used then RecordPage.USED else RecordPage.EMPTY)
  | field fieldName => slot.row fieldName

/-- The position of the cell in a slot of a page. -/
def pos (layout : Layout) (j : ℕ) (c : Cell) : Int32 :=
  Int32.ofInt ((RecordPage.offset layout j).toInt + c.start layout)

end Cell

/-- A value that a cell has the room for. -/
structure Suits (layout : Layout) (c : Cell) (val : Value) : Prop where
  kind : kind val = c.kind layout
  size : val.size ≤ c.width layout

/-- The slot of a page. -/
def SlotAt (layout : Layout) (p : Page) (j : ℕ) (slot : Slot Row) : Prop :=
  ∀ c : Cell, c.Of layout → Suits layout c (c.value slot) ∧
    get p (c.pos layout j) (c.kind layout) = .ok (c.value slot)

section Cells

variable {B : BlockSize} {layout : Layout} {p : Page} {c c' : Cell} {j j' : ℕ}

theorem Cell.start_field {f : Name} {pos : Int32} (h : layout.offsets f = some pos) :
    (Cell.field f).start layout = pos.toInt := by
  show (layout.offsets f).elim 0 Int32.toInt = _
  rw [h, Option.elim_some]

theorem Sound.slot_pos (h : Sound B layout) : 4 ≤ layout.slotSize.toInt.toNat := by
  have hsize := h.placed.size
  unfold slotBytes at hsize
  omega

theorem Sound.slotSize (h : Sound B layout) :
    (layout.slotSize.toInt.toNat : ℤ) = layout.slotSize.toInt := by
  have hpos := h.slot_pos
  omega

theorem Sound.perBlock_pos (h : Sound B layout) : 0 < perBlock B layout := by
  have hsize := h.slotSize
  have hfits := h.fits
  exact Nat.div_pos (by omega) (Nat.lt_of_lt_of_le (by decide) h.slot_pos)

theorem perBlock_mul (B : BlockSize) (layout : Layout) :
    perBlock B layout * layout.slotSize.toInt.toNat ≤ B.bytes :=
  Nat.div_mul_le_self _ _

/-- The places of the slots are `int`s. -/
theorem Sound.offset_toInt (h : Sound B layout) (hj : j ≤ perBlock B layout + 1) :
    (RecordPage.offset layout j).toInt = (j * layout.slotSize.toInt.toNat : ℕ) := by
  have hnext := h.next
  have hle : j * layout.slotSize.toInt.toNat ≤
      (B.bytes / layout.slotSize.toInt.toNat + 1) * layout.slotSize.toInt.toNat :=
    Nat.mul_le_mul_right _ hj
  have hprod : (j : ℤ) * layout.slotSize.toInt = (j * layout.slotSize.toInt.toNat : ℕ) := by
    rw [Int.natCast_mul, h.slotSize]
  unfold RecordPage.offset
  rw [hprod]
  exact toInt_eq _ (by omega) (by omega)

/-- A slot is valid when it lies inside the block. -/
theorem Sound.isValidSlot_iff (h : Sound B layout) (hj : j ≤ perBlock B layout) :
    RecordPage.isValidSlot B layout j = true ↔ j < perBlock B layout := by
  have hoffset := h.offset_toInt (Nat.succ_le_succ hj)
  have hpos := h.slot_pos
  have hcast : ((j + 1 : ℕ) : ℤ) = (j : ℤ) + 1 := Int.natCast_succ j
  unfold RecordPage.isValidSlot
  rw [← hcast, hoffset, decide_eq_true_iff, Int.ofNat_le]
  exact (Nat.le_div_iff_mul_le (by omega)).symm

/-- The cells of a slot lie inside the slot. -/
theorem Placed.cell_inside (h : Placed layout layout.schema.fields) (hc : c.Of layout) :
    0 ≤ c.start layout ∧ c.start layout + c.width layout ≤ layout.slotSize.toInt := by
  cases c with
  | flag =>
    have hsize := h.size
    unfold slotBytes at hsize
    refine ⟨Int.le_refl 0, ?_⟩
    show (0 : ℤ) + (4 : ℕ) ≤ _
    omega
  | field f =>
    obtain ⟨pos, hpos, hfour, hle⟩ := h.offset f hc
    have hcell : (Cell.field f).width layout = widthOf layout.schema f := rfl
    rw [Cell.start_field hpos, hcell]
    omega

/-- The flag of a slot comes first, and the fields are apart. -/
theorem Placed.cells_apart (h : Placed layout layout.schema.fields) (hc : c.Of layout)
    (hc' : c'.Of layout) (hne : c' ≠ c) :
    c'.start layout + c'.width layout ≤ c.start layout ∨
      c.start layout + c.width layout ≤ c'.start layout := by
  have hflag : Cell.flag.start layout = 0 := rfl
  have hfour : Cell.flag.width layout = 4 := rfl
  cases c with
  | flag =>
    cases c' with
    | flag => exact absurd rfl hne
    | field g =>
      obtain ⟨pos, hoff, hpos, -⟩ := h.offset g hc'
      have hg := Cell.start_field hoff
      omega
  | field f =>
    obtain ⟨pos, hoff, hpos, -⟩ := h.offset f hc
    have hf := Cell.start_field hoff
    cases c' with
    | flag => omega
    | field g =>
      obtain ⟨pos', hoff', -, -⟩ := h.offset g hc'
      have hg := Cell.start_field hoff'
      have hw : (Cell.field f).width layout = widthOf layout.schema f := rfl
      have hw' : (Cell.field g).width layout = widthOf layout.schema g := rfl
      have happ := h.apart g hc' f hc (fun heq => hne (by rw [heq])) pos' pos hoff' hoff
      omega

theorem Sound.cell_start (h : Sound B layout) (hc : c.Of layout) :
    0 ≤ c.start layout ∧ c.start layout + c.width layout ≤ layout.slotSize.toInt ∧
      4 ≤ c.width layout := by
  obtain ⟨hstart, hend⟩ := h.placed.cell_inside hc
  refine ⟨hstart, hend, ?_⟩
  cases c with
  | flag => exact Nat.le_refl 4
  | field f =>
    obtain ⟨⟨type, length⟩, hinfo, -⟩ := h.declared f hc
    show 4 ≤ widthOf layout.schema f
    unfold widthOf
    rw [hinfo]
    cases type <;> simp [StoredRecords.width]

/-- The cells of a slot, in the block. -/
theorem Sound.pos_toInt (h : Sound B layout) (hj : j < perBlock B layout) (hc : c.Of layout) :
    (c.pos layout j).toInt = (j * layout.slotSize.toInt.toNat : ℕ) + c.start layout ∧
      (c.pos layout j).toInt + c.width layout ≤ ((j + 1) * layout.slotSize.toInt.toNat : ℕ) ∧
      ((j + 1) * layout.slotSize.toInt.toNat : ℕ) ≤ B.bytes := by
  obtain ⟨hstart, hend, hfour⟩ := h.cell_start hc
  have hslot := h.slotSize
  have hB := B.lt_int
  have hmul := perBlock_mul B layout
  have hle : (j + 1) * layout.slotSize.toInt.toNat ≤
      perBlock B layout * layout.slotSize.toInt.toNat := Nat.mul_le_mul_right _ hj
  have hsucc : (j + 1) * layout.slotSize.toInt.toNat =
      j * layout.slotSize.toInt.toNat + layout.slotSize.toInt.toNat := Nat.succ_mul _ _
  have hpos : (c.pos layout j).toInt = (j * layout.slotSize.toInt.toNat : ℕ) + c.start layout := by
    unfold Cell.pos
    rw [h.offset_toInt (by omega)]
    exact toInt_eq _ (by omega) (by omega)
  rw [hpos]
  refine ⟨rfl, ?_, by omega⟩
  omega

/-- Two cells do not overlap. -/
theorem Sound.apart (h : Sound B layout) (hj : j < perBlock B layout)
    (hj' : j' < perBlock B layout) (hc : c.Of layout) (hc' : c'.Of layout)
    (hne : ¬ (j' = j ∧ c' = c)) :
    (c'.pos layout j').toInt + c'.width layout ≤ (c.pos layout j).toInt ∨
      (c.pos layout j).toInt + c.width layout ≤ (c'.pos layout j').toInt := by
  obtain ⟨hpos, hend, -⟩ := h.pos_toInt hj hc
  obtain ⟨hpos', hend', -⟩ := h.pos_toInt hj' hc'
  obtain ⟨hstart, -, -⟩ := h.cell_start hc
  obtain ⟨hstart', -, -⟩ := h.cell_start hc'
  rcases Nat.lt_trichotomy j j' with hlt | heq | hgt
  · have hle : (j + 1) * layout.slotSize.toInt.toNat ≤ j' * layout.slotSize.toInt.toNat :=
      Nat.mul_le_mul_right _ hlt
    omega
  · have hcells : c' ≠ c := fun heq' => hne ⟨heq.symm, heq'⟩
    subst heq
    have happ := h.placed.cells_apart hc hc' hcells
    omega
  · have hle : (j' + 1) * layout.slotSize.toInt.toNat ≤ j * layout.slotSize.toInt.toNat :=
      Nat.mul_le_mul_right _ hgt
    omega

/-- The cells of all slots of a page. -/
theorem Sound.places (h : Sound B layout) :
    PageCells.Places B.bytes (fun x : ℕ × Cell => x.1 < perBlock B layout ∧ x.2.Of layout)
      (fun x => x.2.pos layout x.1) (fun x => x.2.width layout) where
  inside := by
    rintro ⟨j, c⟩ ⟨hj, hc⟩
    obtain ⟨hpos, hend, hin⟩ := h.pos_toInt hj hc
    obtain ⟨hstart, -, -⟩ := h.cell_start hc
    refine ⟨?_, Int.le_trans hend (Int.ofNat_le.mpr hin)⟩
    show 0 ≤ (c.pos layout j).toInt
    rw [hpos]
    exact Int.add_nonneg (Int.natCast_nonneg _) hstart
  four_le := fun x hx => (h.cell_start hx.2).2.2
  apart := by
    rintro ⟨j, c⟩ ⟨j', c'⟩ ⟨hj, hc⟩ ⟨hj', hc'⟩ hne
    exact h.apart hj hj' hc hc' (fun heq => hne (Prod.ext heq.1 heq.2))

/-- A write to a cell. -/
theorem Sound.set_cell (h : Sound B layout) (hp : p.length = B.bytes) (hj : j < perBlock B layout)
    (hc : c.Of layout) {val : Value} (hval : Suits layout c val) :
    ∃ q, set p (c.pos layout j) val = .ok q ∧ q.length = B.bytes ∧
      get q (c.pos layout j) (c.kind layout) = .ok val ∧
      ∀ j' c', j' < perBlock B layout → c'.Of layout → ¬ (j' = j ∧ c' = c) → ∀ v,
        Suits layout c' v → get p (c'.pos layout j') (c'.kind layout) = .ok v →
        get q (c'.pos layout j') (c'.kind layout) = .ok v := by
  obtain ⟨q, hset, hlen, hself, hother⟩ := h.places.set B.lt_int hp (c := (j, c)) ⟨hj, hc⟩ hval.size
  refine ⟨q, hset, hlen, ?_, ?_⟩
  · rw [← hval.kind]
    exact hself.get
  · intro j' c' hj' hc' hne v hv hget
    rw [← hv.kind] at hget ⊢
    have hne' : (j', c') ≠ (j, c) := fun heq => hne (Prod.mk.inj heq)
    exact (hother (j', c') ⟨hj', hc'⟩ hne' v ⟨hget, hv.size⟩).get

end Cells

end SampleDB.StoredRecords
