import SampleDB.StoredRecords

/-!
Where the slots of a block lie. A slot is valid when the next one starts inside the block or at
its end; the start is computed with integers of 32 bits, so that the slots behind the first
`2 ^ 31` bytes can be taken for valid ones.
-/
namespace SampleDB.SlotLayouts

open Words Pages Blocks Lexer Schemas RecordPages StoredRecords

/-- Where a record page reads and writes a cell of a slot. -/
def position (layout : RecordPages.Layout) (slot : ℤ) : Cell → Result Int32
  | .flag => .ok (RecordPage.offset layout slot)
  | .field fieldName => RecordPage.fieldPos layout slot fieldName

/-- The end of a slot, in a sum that is exact. -/
def slotEnd (schema : Schema) (slot : ℤ) : ℤ := (slot + 1) * slotBytes schema schema.fields

/-- The valid ones of these slots are those that fit in the block. Their cells lie inside the
block and do not overlap. -/
structure LaidOut (B : BlockSize) (layout : RecordPages.Layout) (slots : ℤ → Prop) : Prop where
  valid_iff : ∀ s, slots s →
    (RecordPage.isValidSlot B layout s = true ↔ slotEnd layout.schema s ≤ B.bytes)
  inside : ∀ s, slots s → RecordPage.isValidSlot B layout s = true → ∀ c : Cell, c.Of layout →
    ∃ pos, position layout s c = .ok pos ∧ 0 ≤ pos.toInt ∧ pos.toInt + c.width layout ≤ B.bytes
  apart : ∀ s s', slots s → slots s' → RecordPage.isValidSlot B layout s = true →
    RecordPage.isValidSlot B layout s' = true → ∀ c c' : Cell, c.Of layout → c'.Of layout →
      ¬ (s' = s ∧ c' = c) → ∀ pos pos', position layout s c = .ok pos →
        position layout s' c' = .ok pos' →
          pos.toInt + c.width layout ≤ pos'.toInt ∨ pos'.toInt + c'.width layout ≤ pos.toInt

/-- The end of the slot is an `int`, or what is computed in its place is behind the block. -/
def Counted (B : BlockSize) (schema : Schema) (slot : ℤ) : Prop :=
  slotEnd schema slot < 2147483648 ∨ B.bytes < toInt (slotEnd schema slot)

section Positions

variable {B : BlockSize} {layout : RecordPages.Layout} {slot slot' : ℤ} {c c' : Cell}

theorem slotEnd_eq (schema : Schema) (slot : ℤ) :
    slotEnd schema slot =
      slot * slotBytes schema schema.fields + slotBytes schema schema.fields := by
  unfold slotEnd
  rw [Int.add_mul, Int.one_mul]

theorem slotEnd_pos (schema : Schema) (hslot : 0 ≤ slot) :
    0 ≤ slot * slotBytes schema schema.fields ∧ 0 < slotEnd schema slot := by
  have hstart : 0 ≤ slot * slotBytes schema schema.fields :=
    Int.mul_nonneg hslot (Int.natCast_nonneg _)
  have hend := slotEnd_eq schema slot
  have hbytes : 4 ≤ slotBytes schema schema.fields := Nat.le_add_right 4 _
  refine ⟨hstart, ?_⟩
  omega

/-- A slot that comes before another one ends before it starts. -/
theorem slotEnd_le (schema : Schema) (hlt : slot < slot') :
    slotEnd schema slot ≤ slot' * slotBytes schema schema.fields :=
  Int.mul_le_mul_of_nonneg_right (by omega) (Int.natCast_nonneg _)

/-- What the source computes for the end of a slot. -/
theorem isValidSlot_eq (h : Placed layout layout.schema.fields) (slot : ℤ) :
    RecordPage.isValidSlot B layout slot =
      decide (toInt (slotEnd layout.schema slot) ≤ B.bytes) := by
  unfold RecordPage.isValidSlot RecordPage.offset slotEnd
  rw [h.size]
  rfl

theorem valid_iff_counted (h : Placed layout layout.schema.fields) (hslot : 0 ≤ slot) :
    (RecordPage.isValidSlot B layout slot = true ↔ slotEnd layout.schema slot ≤ B.bytes) ↔
      Counted B layout.schema slot := by
  have hpos := (slotEnd_pos layout.schema hslot).2
  have hB := B.lt_int
  rw [isValidSlot_eq h, decide_eq_true_iff]
  unfold Counted
  by_cases hlt : slotEnd layout.schema slot < 2147483648
  · have hexact := toInt_eq (slotEnd layout.schema slot) (by omega) hlt
    rw [hexact]
    exact iff_of_true Iff.rfl (Or.inl hlt)
  · constructor
    · intro hvalid
      refine Or.inr (Int.lt_of_not_ge (fun hle => ?_))
      have hfits := hvalid.mp hle
      omega
    · intro hcounted
      have hbehind := hcounted.resolve_left hlt
      omega

/-- The cells of a slot that fits, where the source has them. -/
theorem position_of_fits (h : Placed layout layout.schema.fields) (hslot : 0 ≤ slot)
    (hfits : slotEnd layout.schema slot ≤ B.bytes) (hc : c.Of layout) :
    ∃ pos, position layout slot c = .ok pos ∧
      pos.toInt = slot * slotBytes layout.schema layout.schema.fields + c.start layout ∧
      slot * slotBytes layout.schema layout.schema.fields ≤ pos.toInt ∧
      pos.toInt + c.width layout ≤ slotEnd layout.schema slot := by
  obtain ⟨hstart, hend⟩ := h.cell_inside hc
  have hsize := h.size
  have hpos := (slotEnd_pos layout.schema hslot).1
  have hslotEnd := slotEnd_eq layout.schema slot
  have hB := B.lt_int
  have hoffset : (RecordPage.offset layout slot).toInt =
      slot * slotBytes layout.schema layout.schema.fields := by
    unfold RecordPage.offset
    rw [hsize]
    exact toInt_eq _ (by omega) (by omega)
  cases c with
  | flag =>
    have hzero : Cell.flag.start layout = 0 := rfl
    exact ⟨_, rfl, by omega, by omega, by omega⟩
  | field f =>
    obtain ⟨pos, hpos', -, -⟩ := h.offset f hc
    have hfield := Cell.start_field hpos'
    have hsum : (Int32.ofInt ((RecordPage.offset layout slot).toInt + pos.toInt)).toInt =
        (RecordPage.offset layout slot).toInt + pos.toInt := toInt_eq _ (by omega) (by omega)
    refine ⟨Int32.ofInt ((RecordPage.offset layout slot).toInt + pos.toInt), ?_, ?_, ?_, ?_⟩
    · show RecordPage.fieldPos layout slot f = _
      unfold RecordPage.fieldPos RecordPages.Layout.offset
      rw [hpos']
      rfl
    · rw [hsum]
      omega
    · rw [hsum]
      omega
    · rw [hsum]
      omega

theorem positions_apart (h : Placed layout layout.schema.fields) (hslot : 0 ≤ slot)
    (hslot' : 0 ≤ slot') (hfits : slotEnd layout.schema slot ≤ B.bytes)
    (hfits' : slotEnd layout.schema slot' ≤ B.bytes) (hc : c.Of layout) (hc' : c'.Of layout)
    (hne : ¬ (slot' = slot ∧ c' = c)) {pos pos' : Int32} (hpos : position layout slot c = .ok pos)
    (hpos' : position layout slot' c' = .ok pos') :
    pos.toInt + c.width layout ≤ pos'.toInt ∨ pos'.toInt + c'.width layout ≤ pos.toInt := by
  obtain ⟨q, hq, hat, hstart, hend⟩ := position_of_fits h hslot hfits hc
  obtain ⟨q', hq', hat', hstart', hend'⟩ := position_of_fits h hslot' hfits' hc'
  cases hpos.symm.trans hq
  cases hpos'.symm.trans hq'
  rcases Int.lt_trichotomy slot slot' with hlt | heq | hgt
  · have hle := slotEnd_le layout.schema hlt
    omega
  · subst heq
    have happ := h.cells_apart hc hc' (fun heq => hne ⟨rfl, heq⟩)
    omega
  · have hle := slotEnd_le layout.schema hgt
    omega

end Positions

section Results

variable {schema : Schema} {slots : ℤ → Prop}

theorem laidOut_iff {B : BlockSize} {layout : RecordPages.Layout}
    (h : Placed layout layout.schema.fields) (hslots : ∀ s, slots s → 0 ≤ s) :
    LaidOut B layout slots ↔ ∀ s, slots s → Counted B layout.schema s := by
  constructor
  · intro hlaid s hs
    exact (valid_iff_counted h (hslots s hs)).mp (hlaid.valid_iff s hs)
  · intro hcounted
    have hvalid : ∀ s, slots s → (RecordPage.isValidSlot B layout s = true ↔
        slotEnd layout.schema s ≤ B.bytes) :=
      fun s hs => (valid_iff_counted h (hslots s hs)).mpr (hcounted s hs)
    refine ⟨hvalid, ?_, ?_⟩
    · intro s hs hv c hc
      have hfits := (hvalid s hs).mp hv
      obtain ⟨pos, hpos, -, hstart, hend⟩ := position_of_fits h (hslots s hs) hfits hc
      have hnonneg := (slotEnd_pos layout.schema (hslots s hs)).1
      exact ⟨pos, hpos, by omega, by omega⟩
    · intro s s' hs hs' hv hv' c c' hc hc' hne pos pos' hpos hpos'
      exact positions_apart h (hslots s hs) (hslots s' hs') ((hvalid s hs).mp hv)
        ((hvalid s' hs').mp hv') hc hc' hne hpos hpos'

/-- The layout that the source computes for a schema. -/
theorem slots_laidOut_iff (B : BlockSize) (hschema : Declared schema)
    (hint : slotBytes schema schema.fields < 2147483648) (hslots : ∀ s, slots s → 0 ≤ s) :
    (∃ layout, Layout.new schema = .ok layout ∧ layout.schema = schema ∧
      LaidOut B layout slots) ↔ ∀ s, slots s → Counted B schema s := by
  obtain ⟨layout, hnew, hlayout, hplaced⟩ := layout_new hschema hint
  subst hlayout
  constructor
  · rintro ⟨layout', hnew', -, hlaid⟩
    cases hnew.symm.trans hnew'
    exact (laidOut_iff hplaced hslots).mp hlaid
  · intro hcounted
    exact ⟨layout, hnew, rfl, (laidOut_iff hplaced hslots).mpr hcounted⟩

/-- The slots that a loop from the first one looks at, up to the one behind the block. -/
theorem counted_of_start {B : BlockSize} {slot : ℤ}
    (hstart : slot * slotBytes schema schema.fields ≤ B.bytes)
    (hint : B.bytes + slotBytes schema schema.fields < 2147483648) : Counted B schema slot := by
  have hend := slotEnd_eq schema slot
  refine Or.inl ?_
  omega

/-- One integer: slots of eight bytes. -/
def aField : Schema := Schema.empty.addIntField ['a']

theorem aField_declared : Declared aField := by
  intro f hf
  cases List.mem_singleton.mp hf
  exact ⟨⟨.integer, 0⟩, rfl, fun h => by cases h⟩

/-- All the slots that a loop over a block of 400 bytes looks at. -/
theorem slots_laidOut_fifty : ∃ layout, Layout.new aField = .ok layout ∧ layout.schema = aField ∧
    LaidOut ⟨400, by decide, by decide⟩ layout (fun s => 0 ≤ s ∧ s ≤ 50) := by
  refine (slots_laidOut_iff ⟨400, by decide, by decide⟩ aField_declared (by decide)
    (fun s hs => hs.1)).mpr (fun s hs => counted_of_start ?_ (by decide))
  show s * 8 ≤ 400
  omega

/-- The slot `2 ^ 28 - 1` of a block of 400 bytes is valid. -/
theorem not_slots_laidOut : ¬ ∀ (B : BlockSize) (schema : Schema), schema.fields.Nodup →
    Declared schema → slotBytes schema schema.fields < 2147483648 →
      ∃ layout, Layout.new schema = .ok layout ∧ layout.schema = schema ∧
        LaidOut B layout (fun s => 0 ≤ s ∧ s < 2147483648) := by
  intro h
  obtain ⟨layout, hnew, -, hlaid⟩ := h ⟨400, by decide, by decide⟩ aField (by decide)
    aField_declared (by decide)
  cases hnew
  have hvalid := (hlaid.valid_iff 268435455 (by decide)).mp rfl
  revert hvalid
  decide

end Results

end SampleDB.SlotLayouts
