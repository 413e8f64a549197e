import SampleDB.IndexPages
import SampleDB.PageLists
import SampleDB.PageWrites
import SampleDB.StoredRecords

/-!
The cells of an index page: the flag, the number of records and the fields of the slots. A page of
bytes stands for a page of records when its cells hold what the records say; a slot without a
record can hold anything. What a slot holds can be overwritten when it can be read and logged.
-/
namespace SampleDB.IndexCells

open Slices Words Pages Blocks Lexer Schemas Rollback Endings PageValues RecordPages StoredRecords
open PageWrites IndexPages

/-- The layout of the pages whose records have these keys. -/
structure IndexLayout (layout : Layout) (L : BTreePages.Layout) : Prop where
  declared : Declared layout.schema
  placed : Placed layout layout.schema.fields
  nodup : layout.schema.fields.Nodup
  slotSize : layout.slotSize.toInt = L.slotSize
  key : L.dataval ≠ .boolean
  dataval : "dataval".toList ∈ layout.schema.fields
  info : ∃ length, layout.schema.fieldInfo "dataval".toList = some ⟨L.dataval, length⟩ ∧
    length.toInt.toNat = L.length
  integer : ∀ f ∈ layout.schema.fields, f ≠ "dataval".toList →
    ∃ length, layout.schema.fieldInfo f = some ⟨.integer, length⟩

inductive PageCell
  | flag
  | numRecs
  | field (slot : ℕ) (fieldName : Name)
  deriving DecidableEq

namespace PageCell

def Of (B : BlockSize) (layout : Layout) (L : BTreePages.Layout) : PageCell → Prop
  | flag => True
  | numRecs => True
  | field slot fieldName => slot < BTreePages.capacity B L ∧ fieldName ∈ layout.schema.fields

def pos (layout : Layout) : PageCell → Int32
  | flag => 0
  | numRecs => 4
  | field slot fieldName => Int32.ofInt
      ((BTreePage.slotPos layout slot).toInt + (Cell.field fieldName).start layout)

def width (layout : Layout) : PageCell → ℕ
  | flag => 4
  | numRecs => 4
  | field _ fieldName => widthOf layout.schema fieldName

end PageCell

/-- The kind of the values of a field. -/
def fieldKind (layout : Layout) (fieldName : Name) : Kind := (Cell.field fieldName).kind layout

section Places

variable {B : BlockSize} {layout : Layout} {L : BTreePages.Layout} {i j : ℕ} {f g : Name}

theorem slot_end_le (h : i < BTreePages.capacity B L) : 8 + (i + 1) * L.slotSize ≤ B.bytes := by
  have hle : (i + 1) * L.slotSize ≤ B.bytes - 8 := (Nat.le_div_iff_mul_le L.slot_pos).mp h
  have hpos := L.slot_pos
  have hone : L.slotSize ≤ (i + 1) * L.slotSize := Nat.le_mul_of_pos_left _ (Nat.succ_pos i)
  omega

theorem lt_capacity_iff : i < BTreePages.capacity B L ↔ 8 + (i + 1) * L.slotSize ≤ B.bytes :=
  ⟨slot_end_le, fun h => (Nat.le_div_iff_mul_le L.slot_pos).mpr
    (show (i + 1) * L.slotSize ≤ B.bytes - 8 by omega)⟩

theorem IndexLayout.slotPos_toInt (h : IndexLayout layout L)
    (hi : 8 + i * L.slotSize < 2147483648) :
    (BTreePage.slotPos layout i).toInt = (8 + i * L.slotSize : ℕ) := by
  have hprod : (8 : ℤ) + i * layout.slotSize.toInt = (8 + i * L.slotSize : ℕ) := by
    rw [h.slotSize]
    push_cast
    rfl
  unfold BTreePage.slotPos
  rw [hprod]
  exact toInt_eq _ (by omega) (by omega)

/-- The place of a field in the page. -/
theorem IndexLayout.field_pos (h : IndexLayout layout L) (hi : i < BTreePages.capacity B L)
    (hf : f ∈ layout.schema.fields) :
    ((PageCell.field i f).pos layout).toInt =
        (8 + i * L.slotSize : ℕ) + (Cell.field f).start layout ∧
      (8 + i * L.slotSize : ℕ) ≤ ((PageCell.field i f).pos layout).toInt ∧
      ((PageCell.field i f).pos layout).toInt + widthOf layout.schema f ≤
        (8 + (i + 1) * L.slotSize : ℕ) := by
  obtain ⟨hstart, hend⟩ := h.placed.cell_inside (c := .field f) hf
  have hwidth : (Cell.field f).width layout = widthOf layout.schema f := rfl
  have hsize := h.slotSize
  have hle := slot_end_le hi
  have hB := B.lt_int
  have hsucc : (i + 1) * L.slotSize = i * L.slotSize + L.slotSize := Nat.succ_mul _ _
  have hslot := h.slotPos_toInt (i := i) (by omega)
  have hpos : ((PageCell.field i f).pos layout).toInt =
      (8 + i * L.slotSize : ℕ) + (Cell.field f).start layout := by
    show (Int32.ofInt ((BTreePage.slotPos layout i).toInt + _)).toInt = _
    rw [hslot]
    exact toInt_eq _ (by omega) (by omega)
  refine ⟨hpos, by omega, ?_⟩
  rw [hpos, hsucc]
  omega

theorem IndexLayout.four_le_width (h : IndexLayout layout L) (hf : f ∈ layout.schema.fields) :
    4 ≤ widthOf layout.schema f := by
  obtain ⟨⟨type, length⟩, hinfo, -⟩ := h.declared f hf
  unfold widthOf
  rw [hinfo]
  cases type <;> simp [StoredRecords.width]

theorem field_apart (h : IndexLayout layout L) (hi : i < BTreePages.capacity B L)
    (hj : j < BTreePages.capacity B L) (hf : f ∈ layout.schema.fields)
    (hg : g ∈ layout.schema.fields) (hne : PageCell.field j g ≠ .field i f) :
    ((PageCell.field j g).pos layout).toInt + widthOf layout.schema g ≤
        ((PageCell.field i f).pos layout).toInt ∨
      ((PageCell.field i f).pos layout).toInt + widthOf layout.schema f ≤
        ((PageCell.field j g).pos layout).toInt := by
  obtain ⟨hat, hstart, hend⟩ := h.field_pos hi hf
  obtain ⟨hat', hstart', hend'⟩ := h.field_pos hj hg
  rcases Nat.lt_trichotomy i j with hlt | heq | hgt
  · have hle : (i + 1) * L.slotSize ≤ j * L.slotSize := Nat.mul_le_mul_right _ hlt
    omega
  · subst heq
    have hfields : Cell.field g ≠ Cell.field f :=
      fun heq => hne (congrArg (PageCell.field i) (Cell.field.inj heq))
    have happ := @Placed.cells_apart layout (.field f) (.field g) h.placed hf hg hfields
    have hw : (Cell.field f).width layout = widthOf layout.schema f := rfl
    have hw' : (Cell.field g).width layout = widthOf layout.schema g := rfl
    omega
  · have hle : (j + 1) * L.slotSize ≤ i * L.slotSize := Nat.mul_le_mul_right _ hgt
    omega

theorem IndexLayout.places (h : IndexLayout layout L) (hB : 8 ≤ B.bytes) :
    PageCells.Places B.bytes (PageCell.Of B layout L) (PageCell.pos layout)
      (PageCell.width layout) where
  inside := by
    intro c hc
    cases c with
    | flag => exact ⟨Int.le_refl 0, by show (0 : ℤ) + (4 : ℕ) ≤ _; omega⟩
    | numRecs => exact ⟨Int.natCast_nonneg 4, by show (4 : ℤ) + (4 : ℕ) ≤ _; omega⟩
    | field i f =>
      obtain ⟨-, hstart, hend⟩ := h.field_pos hc.1 hc.2
      have hle := slot_end_le hc.1
      exact ⟨by omega, by show _ + (widthOf layout.schema f : ℤ) ≤ _; omega⟩
  four_le := by
    intro c hc
    cases c with
    | flag => exact Nat.le_refl 4
    | numRecs => exact Nat.le_refl 4
    | field i f => exact h.four_le_width hc.2
  apart := by
    intro c c' hc hc' hne
    have hflag : (PageCell.flag.pos layout).toInt = 0 ∧ PageCell.flag.width layout = 4 := ⟨rfl, rfl⟩
    have hnum : (PageCell.numRecs.pos layout).toInt = 4 ∧ PageCell.numRecs.width layout = 4 :=
      ⟨rfl, rfl⟩
    have hfield : ∀ i f, (PageCell.field i f).Of B layout L →
        8 ≤ ((PageCell.field i f).pos layout).toInt := by
      intro i f hif
      obtain ⟨-, hstart, -⟩ := h.field_pos hif.1 hif.2
      omega
    cases c with
    | flag =>
      cases c' with
      | flag => exact absurd rfl hne
      | numRecs => omega
      | field j g =>
        have hg := hfield j g hc'
        omega
    | numRecs =>
      cases c' with
      | flag => omega
      | numRecs => exact absurd rfl hne
      | field j g =>
        have hg := hfield j g hc'
        omega
    | field i f =>
      have hf := hfield i f hc
      cases c' with
      | flag => omega
      | numRecs => omega
      | field j g => exact field_apart h hc.1 hc'.1 hc.2 hc'.2 hne

end Places

section Fields

variable {B : BlockSize} {layout : Layout} {L : BTreePages.Layout} {tx : Transaction} {blk i : ℕ}
  {p : Page} {f : Name} {v : Value}

theorem IndexLayout.fldPos_eq (h : IndexLayout layout L) (hf : f ∈ layout.schema.fields) (i : ℕ) :
    BTreePage.fldPos layout i f = .ok ((PageCell.field i f).pos layout) := by
  obtain ⟨pos, hpos, -, -⟩ := h.placed.offset f hf
  have hstart := Cell.start_field hpos
  unfold BTreePage.fldPos Layout.offset
  rw [hpos]
  show Except.ok (Int32.ofInt (_ + pos.toInt)) = Except.ok (Int32.ofInt (_ + _))
  rw [hstart]

theorem IndexLayout.fieldType_eq (h : IndexLayout layout L) (hf : f ∈ layout.schema.fields) :
    ∃ type, layout.fieldType f = .ok type ∧ fieldKind layout f = kindOf type ∧ type ≠ .boolean := by
  have hinfo : ∃ info, layout.schema.fieldInfo f = some info ∧ info.type ≠ .boolean := by
    by_cases heq : f = "dataval".toList
    · obtain ⟨length, hinfo, -⟩ := h.info
      exact ⟨_, heq ▸ hinfo, h.key⟩
    · obtain ⟨length, hinfo⟩ := h.integer f hf heq
      exact ⟨_, hinfo, fun htype => by cases htype⟩
  obtain ⟨info, hinfo, htype⟩ := hinfo
  refine ⟨info.type, ?_, ?_, htype⟩
  · unfold Layout.fieldType
    rw [hinfo]
  · show (layout.schema.fieldInfo f).elim .int (fun info => kindOf info.type) = _
    rw [hinfo, Option.elim_some]

theorem IndexLayout.fieldKind_of_ne (h : IndexLayout layout L) (hf : f ∈ layout.schema.fields)
    (hne : f ≠ "dataval".toList) : fieldKind layout f = .int := by
  obtain ⟨length, hinfo⟩ := h.integer f hf hne
  show (layout.schema.fieldInfo f).elim .int (fun info => kindOf info.type) = _
  rw [hinfo]
  rfl

theorem IndexLayout.getValue_eq (h : IndexLayout layout L) (hf : f ∈ layout.schema.fields)
    (hpage : tx.contents blk = .ok p) : BTreePage.getValue layout tx blk i f =
      get p ((PageCell.field i f).pos layout) (fieldKind layout f) := by
  obtain ⟨type, htype, hkind, hne⟩ := h.fieldType_eq hf
  unfold BTreePage.getValue BTreePage.getInt BTreePage.getString
  rw [htype, ok_bind, hkind, h.fldPos_eq hf i]
  cases type with
  | integer =>
    dsimp only
    rw [ok_bind]
    unfold Transaction.getInt
    rw [hpage]
    rfl
  | varchar =>
    dsimp only
    rw [ok_bind]
    unfold Transaction.getString
    rw [hpage]
    rfl
  | boolean => exact absurd rfl hne

theorem IndexLayout.getInt_eq (h : IndexLayout layout L) (hf : f ∈ layout.schema.fields)
    (hpage : tx.contents blk = .ok p) : BTreePage.getInt layout tx blk i f =
      p.getInt ((PageCell.field i f).pos layout).toInt := by
  unfold BTreePage.getInt Transaction.getInt
  rw [h.fldPos_eq hf i, ok_bind, hpage]
  rfl

theorem IndexLayout.setInt_eq (h : IndexLayout layout L) (hf : f ∈ layout.schema.fields)
    (n : Int32) : BTreePage.setInt B layout blk tx i f n =
      tx.set B blk ((PageCell.field i f).pos layout) (.int n) true := by
  unfold BTreePage.setInt
  rw [h.fldPos_eq hf i]
  rfl

theorem IndexLayout.setValue_eq (h : IndexLayout layout L) (hf : f ∈ layout.schema.fields)
    (hv : kind v = fieldKind layout f) : BTreePage.setValue B layout blk tx i f v =
      tx.set B blk ((PageCell.field i f).pos layout) v true := by
  obtain ⟨type, htype, hkind, hne⟩ := h.fieldType_eq hf
  unfold BTreePage.setValue BTreePage.setInt BTreePage.setString
  rw [htype, ok_bind, h.fldPos_eq hf i]
  rw [hkind] at hv
  cases type with
  | integer =>
    cases v with
    | int n => rfl
    | string s => cases hv
  | varchar =>
    cases v with
    | int n => cases hv
    | string s => rfl
  | boolean => exact absurd rfl hne

end Fields

/-- The cell has the value that it had, and can be logged as before. -/
abbrev KeptCell (B : BlockSize) (layout : Layout) (fileName : Bytes) (p q : Page) (c : PageCell) :
    Prop :=
  Kept B fileName (PageCell.pos layout) (PageCell.width layout) p q c

abbrev HoldsCell (layout : Layout) (p : Page) (c : PageCell) (val : Value) : Prop :=
  PageCells.Holds (PageCell.pos layout) (PageCell.width layout) p c val

section Slots

variable (B : BlockSize) (layout : Layout) {P : Type} (view : P → Name → Value)

/-- The value of a field of a record. The other fields than the key come from what the record
leads to. -/
def valueOf (r : BTreePages.Record P) (fieldName : Name) : Value :=
  if fieldName = "dataval".toList then r.dataval else view r.data fieldName

/-- The slot holds the record. -/
def SlotHolds (p : Page) (i : ℕ) (r : BTreePages.Record P) : Prop :=
  ∀ f ∈ layout.schema.fields, kind (valueOf view r f) = fieldKind layout f ∧
    PageCells.Holds (PageCell.pos layout) (PageCell.width layout) p (.field i f) (valueOf view r f)

/-- Whatever the slot holds can be read and logged. -/
def Ready (fileName : Bytes) (p : Page) (i : ℕ) : Prop :=
  ∀ f ∈ layout.schema.fields,
    CanLog B fileName p ((PageCell.field i f).pos layout) (fieldKind layout f)

/-- The page stands for these contents. -/
structure Represents (L : BTreePages.Layout) (p : Page) (c : BTreePages.Contents P) : Prop where
  size : p.length = B.bytes
  flag : PageCells.Holds (PageCell.pos layout) (PageCell.width layout) p .flag
    (.int (Int32.ofInt c.flag))
  numRecs : PageCells.Holds (PageCell.pos layout) (PageCell.width layout) p .numRecs
    (.int (Int32.ofInt c.numRecs))
  numRecs_int : -2147483648 ≤ c.numRecs ∧ c.numRecs < 2147483648
  room : c.slots.length = BTreePages.capacity B L
  slots : ∀ i r, c.slots[i]? = some (some r) → SlotHolds layout view p i r

end Slots

section Contents

variable {P : Type} {L : BTreePages.Layout} {c c' : BTreePages.Contents P} {r : BTreePages.Record P}
  {i j : ℕ} {v v' : Value} {d : P}

theorem stored_eq (h : L.stored v = .ok v') : v' = v := by
  unfold BTreePages.Layout.stored at h
  cases hL : L.dataval <;> rw [hL] at h <;> cases v <;> dsimp only at h
  all_goals
    first
      | cases h; rfl
      | cases h
      | split at h <;> cases h; rfl

theorem record_ok (h : c.record L i = .ok r) : c.slots[i]? = some (some r) := by
  unfold BTreePages.Contents.record at h
  rw [if_pos (Int.natCast_nonneg i), Int.toNat_natCast] at h
  split at h
  · rename_i r' hr
    split at h
    · cases h
    · cases h
      exact hr
  · cases h

theorem setRecord_ok (h : c.setRecord L j v d = .ok c') : PageLists.Suits L v ∧
    j < c.slots.length ∧ c' = { c with slots := c.slots.set j (some ⟨v, d⟩) } := by
  unfold BTreePages.Contents.setRecord at h
  obtain ⟨v', hv, h⟩ := bind_eq_ok.mp h
  cases stored_eq hv
  split at h
  · rename_i hj
    cases h
    exact ⟨hv, Int.ofNat_lt.mp hj.2, rfl⟩
  · cases h

end Contents

section Records

variable {B : BlockSize} {layout : Layout} {L : BTreePages.Layout} {P : Type}
  {view : P → Name → Value} {fileName : Bytes} {i j : ℕ} {p q : Page}
  {c : BTreePages.Contents P} {r : BTreePages.Record P} {f : Name}

/-- The values of a record go into the fields. -/
theorem value_fits (h : IndexLayout layout L) (hview : ∀ d f, kind (view d f) = .int)
    (hr : PageLists.Suits L r.dataval) (hf : f ∈ layout.schema.fields) :
    kind (valueOf view r f) = fieldKind layout f ∧
      (valueOf view r f).size ≤ widthOf layout.schema f := by
  unfold valueOf
  by_cases heq : f = "dataval".toList
  · obtain ⟨length, hinfo, hlength⟩ := h.info
    have hkind : fieldKind layout f = kindOf L.dataval := by
      show (layout.schema.fieldInfo f).elim .int (fun info => kindOf info.type) = _
      rw [heq, hinfo, Option.elim_some]
    have hwidth : widthOf layout.schema f = width ⟨L.dataval, length⟩ := by
      unfold widthOf
      rw [heq, hinfo, Option.elim_some]
    rw [if_pos heq, hkind, hwidth]
    unfold PageLists.Suits BTreePages.Layout.stored at hr
    unfold width
    cases hL : L.dataval with
    | integer =>
      rw [hL] at hr
      cases hv : r.dataval with
      | int n => exact ⟨rfl, Nat.le_refl 4⟩
      | string s =>
        rw [hv] at hr
        cases hr
    | varchar =>
      rw [hL] at hr
      cases hv : r.dataval with
      | int n =>
        rw [hv] at hr
        cases hr
      | string s =>
        rw [hv] at hr
        dsimp only at hr
        split at hr
        · rw [size_string]
          exact ⟨rfl, by dsimp only; omega⟩
        · cases hr
    | boolean => exact absurd hL h.key
  · have hint : ∀ w : Value, kind w = .int → w.size = 4 := by
      intro w hw
      cases w with
      | int n => rfl
      | string s => cases hw
    rw [if_neg heq, h.fieldKind_of_ne hf heq, hint _ (hview r.data f)]
    exact ⟨hview r.data f, h.four_le_width hf⟩

theorem SlotHolds.ready (h : SlotHolds layout view p i r) (hlogs : ∀ f ∈ layout.schema.fields,
    Logs B fileName (valueOf view r f)) : Ready B layout fileName p i := by
  intro f hf
  obtain ⟨hkind, hholds⟩ := h f hf
  rw [← hkind]
  exact ⟨_, hholds.get, hlogs f hf⟩

/-- A record that is held can be logged if its slot is ready. -/
theorem SlotHolds.logs (h : SlotHolds layout view p i r)
    (hready : Ready B layout fileName p i) (hf : f ∈ layout.schema.fields) :
    Logs B fileName (valueOf view r f) := by
  obtain ⟨hkind, hholds⟩ := h f hf
  obtain ⟨old, hold, hlogs⟩ := hready f hf
  rw [← hkind, hholds.get] at hold
  cases hold
  exact hlogs

/-- The slots hold the same records while their fields are kept. -/
theorem Represents.slots_kept (hrep : Represents B layout view L p c)
    (hkept : ∀ i f, (PageCell.field i f).Of B layout L →
      KeptCell B layout fileName p q (.field i f)) :
    ∀ i r, c.slots[i]? = some (some r) → SlotHolds layout view q i r := by
  intro i r hi f hf
  obtain ⟨hkind, hholds⟩ := hrep.slots i r hi f hf
  have hlt : i < BTreePages.capacity B L := by
    rw [← hrep.room]
    exact (List.getElem?_eq_some_iff.mp hi).1
  exact ⟨hkind, (hkept i f ⟨hlt, hf⟩).holds _ hholds⟩

/-- Another slot is written. -/
theorem Represents.setSlot (hrep : Represents B layout view L p c)
    (hj : j < BTreePages.capacity B L) (hq : q.length = B.bytes)
    (hslot : SlotHolds layout view q j r)
    (hkept : ∀ x : PageCell, x.Of B layout L → (∀ f ∈ layout.schema.fields, x ≠ .field j f) →
      KeptCell B layout fileName p q x) :
    Represents B layout view L q { c with slots := c.slots.set j (some r) } where
  size := hq
  flag := (hkept .flag trivial (fun f _ h => by cases h)).holds _ hrep.flag
  numRecs := (hkept .numRecs trivial (fun f _ h => by cases h)).holds _ hrep.numRecs
  numRecs_int := hrep.numRecs_int
  room := by
    show (c.slots.set j (some r)).length = _
    rw [List.length_set, hrep.room]
  slots := by
    intro i r' hi
    change (c.slots.set j (some r))[i]? = some (some r') at hi
    by_cases heq : j = i
    · subst heq
      rw [List.getElem?_set_self (by rw [hrep.room]; exact hj)] at hi
      cases hi
      exact hslot
    · rw [List.getElem?_set_ne heq] at hi
      intro f hf
      obtain ⟨hkind, hholds⟩ := hrep.slots i r' hi f hf
      have hlt : i < BTreePages.capacity B L := by
        rw [← hrep.room]
        exact (List.getElem?_eq_some_iff.mp hi).1
      exact ⟨hkind, (hkept (.field i f) ⟨hlt, hf⟩
        (fun g _ h => heq (PageCell.field.inj h).1.symm)).holds _ hholds⟩

end Records

end SampleDB.IndexCells
