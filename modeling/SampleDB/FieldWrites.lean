import SampleDB.RecordStore

/-!
What a write to a field does to the rest of its block. A string is stored with its length in
front of it, and the only bound on it is the end of the block: one that is longer than its
field goes on into the next fields and slots.
-/
namespace SampleDB.FieldWrites

open Slices Words Pages Blocks LogRecords Logging Lexer Schemas Rollback BeforeImage Endings
open PageValues TableScans RecordPages StoredRecords StoredTables RecordStore

/-- What goes into the length word of a string, as an `int`. -/
def lengthWord : Value → ℤ
  | .int _ => 0
  | .string s => toInt s.length

/-- The bytes that a write puts into the block. -/
def written : Value → Bytes
  | .int n => encodeInt n
  | .string s => encodeInt (Int32.ofInt s.length) ++ s.take (toInt s.length).toNat

/-- The value ends inside the block. -/
def Room (p : Page) (offset : Int32) (val : Value) : Prop :=
  0 ≤ offset.toInt ∧ 0 ≤ lengthWord val ∧ offset.toInt + 4 + lengthWord val ≤ p.length

/-- `setInt` or `setString`. -/
def writeField (B : BlockSize) (layout : Layout) (tx : Transaction) (blk : ℕ) (slot : ℤ)
    (fieldName : Name) : Value → Result Transaction
  | .int n => RecordPage.setInt B layout tx blk slot fieldName n
  | .string s => RecordPage.setString B layout tx blk slot fieldName s

/-- `getInt` or `getString`. -/
def readField (layout : Layout) (tx : Transaction) (blk : ℕ) (slot : ℤ) (fieldName : Name) :
    Kind → Result Value
  | .int => do return .int (← RecordPage.getInt layout tx blk slot fieldName)
  | .string => do return .string (← RecordPage.getString layout tx blk slot fieldName)

/-- A field is read as its type says. -/
def readCell (layout : Layout) (tx : Transaction) (blk : ℕ) (slot : ℤ) : Cell → Result Value
  | .flag => do return .int (← tx.getInt blk (RecordPage.offset layout slot))
  | .field fieldName => do
      readField layout tx blk slot fieldName (kindOf (← layout.fieldType fieldName))

def place (layout : Layout) (slot : ℤ) : Cell → Result Int32
  | .flag => .ok (RecordPage.offset layout slot)
  | .field fieldName => RecordPage.fieldPos layout slot fieldName

/-- A flag or a field other than the one that is written, in a slot that lies inside the
block. -/
structure Other (B : BlockSize) (layout : Layout) (slot : ℤ) (fieldName : Name) (j : ℤ) (c : Cell) :
    Prop where
  nonneg : 0 ≤ j
  inside : (j + 1) * layout.slotSize.toInt ≤ B.bytes
  of : c.Of layout
  ne : ¬ (j = slot ∧ c = .field fieldName)

/-- A write that succeeds is read back, and every other flag and field reads as before. -/
def Stays (B : BlockSize) (layout : Layout) (tx : Transaction) (blk : ℕ) (slot : ℤ)
    (fieldName : Name) (val : Value) : Prop :=
  ∀ tx', writeField B layout tx blk slot fieldName val = .ok tx' →
    readField layout tx' blk slot fieldName (kind val) = .ok val ∧
    ∀ j c v, Other B layout slot fieldName j c → readCell layout tx blk j c = .ok v →
      readCell layout tx' blk j c = .ok v

/-- If the old value can be logged and the new one ends inside the block, then the length of
the new one is an `int`, and its bytes change no byte of another value. -/
def Spares (B : BlockSize) (layout : Layout) (tx : Transaction) (blk : ℕ) (slot : ℤ)
    (fieldName : Name) (val : Value) : Prop :=
  ∀ page pos log, tx.contents blk = .ok page → RecordPage.fieldPos layout slot fieldName = .ok pos →
    tx.logUpdate B blk page pos (kind val) true = .ok log → Room page pos val →
    IsShort val ∧
    ∀ j c v pos', Other B layout slot fieldName j c → readCell layout tx blk j c = .ok v →
      place layout j c = .ok pos' →
      Agrees page pos.toInt.toNat (written val) pos'.toInt.toNat v.size

section Values

variable {p q : Page} {offset : Int32} {val v : Value} {k : Kind}

theorem lengthWord_le (h : 0 ≤ lengthWord val) : lengthWord val + 4 ≤ val.size := by
  cases val with
  | int n => exact Int.le_refl 4
  | string s =>
    have hmod := toInt_emod s.length
    have hrange := toInt_range s.length
    have hword : lengthWord (.string s) = toInt s.length := rfl
    rw [hword] at h ⊢
    rw [size_string]
    omega

theorem written_length (h : 0 ≤ lengthWord val) :
    ((written val).length : ℤ) = 4 + lengthWord val := by
  have hle := lengthWord_le h
  cases val with
  | int n => rfl
  | string s =>
    have hword : lengthWord (.string s) = toInt s.length := rfl
    rw [hword] at h hle ⊢
    rw [size_string] at hle
    unfold written
    rw [List.length_append, encodeInt_length, List.length_take]
    omega

theorem written_eq (h : IsShort val) : written val = valueBytes val := by
  cases val with
  | int n => rfl
  | string s =>
    have hshort : s.length < 2147483648 := h
    have htake : s.take (toInt s.length).toNat = s := by
      rw [toInt_eq s.length (by omega) (by omega), Int.toNat_natCast, List.take_length]
    show encodeInt _ ++ s.take (toInt s.length).toNat = encodeInt _ ++ s
    rw [htake]

/-- A value is read exactly where its bytes are. -/
theorem get_eq_ok_iff (hp : p.length < 2147483648) : get p offset k = .ok v ↔
    kind v = k ∧ 0 ≤ offset.toInt ∧ offset.toInt + v.size ≤ p.length ∧
      slice p offset.toInt.toNat v.size = valueBytes v := by
  constructor
  · intro h
    refine ⟨kind_of_get h, ?_⟩
    cases k with
    | int =>
      obtain ⟨n, hn, hv⟩ := bind_eq_ok.mp h
      cases hv
      obtain ⟨h0, hle, rfl⟩ := Page.getInt_eq_ok p _ n offset.toInt_lt hn
      have hfour : (slice p offset.toInt.toNat 4).length = 4 := slice_length p _ 4 (by omega)
      exact ⟨h0, hle, (encodeInt_decodeInt _ hfour).symm⟩
    | string =>
      obtain ⟨s, hs, hv⟩ := bind_eq_ok.mp h
      cases hv
      obtain ⟨h0, hle, hword, hbytes⟩ := Page.getBytes_eq_ok p _ s offset.toInt_lt hs
      have hfour : (slice p offset.toInt.toNat 4).length = 4 := slice_length p _ 4 (by omega)
      have hdecode : decodeInt (slice p offset.toInt.toNat 4) = Int32.ofInt s.length := by
        rw [← hword, Int32.ofInt_toInt]
      refine ⟨h0, ?_, ?_⟩
      · rw [size_string]
        omega
      · rw [size_string, slice_add, show offset.toInt.toNat + 4 = (offset.toInt + 4).toNat by omega,
          ← hbytes, ← encodeInt_decodeInt _ hfour, hdecode]
        rfl
  · rintro ⟨hkind, h0, hle, hslice⟩
    cases v with
    | int n =>
      subst hkind
      have hle' : offset.toInt + 4 ≤ p.length := hle
      have hword : slice p offset.toInt.toNat 4 = encodeInt n := hslice
      have hget := Page.getInt_ok p offset.toInt h0 hle' offset.toInt_lt
      rw [hword, decodeInt_encodeInt] at hget
      show (do return Value.int (← Page.getInt _ _)) = _
      rw [hget]
      rfl
    | string s =>
      subst hkind
      rw [size_string] at hle hslice
      have hfour : (slice p offset.toInt.toNat 4).length = 4 := slice_length p _ 4 (by omega)
      rw [slice_add] at hslice
      obtain ⟨hword, hbytes⟩ := List.append_inj hslice (by rw [hfour, encodeInt_length])
      have hget := Page.getBytes_ok p offset.toInt s h0 (by omega) hp hword
        (by rw [show (offset.toInt + 4).toNat = offset.toInt.toNat + 4 by omega]; exact hbytes)
      show (do return Value.string (← Page.getBytes _ _)) = _
      rw [hget]
      rfl

/-- A write succeeds exactly when the value ends inside the block. -/
theorem set_eq_ok_iff (hp : p.length < 2147483648) : set p offset val = .ok q ↔
    Room p offset val ∧ q = splice p offset.toInt.toNat (written val) := by
  have hlt := offset.toInt_lt
  cases val with
  | int n =>
    constructor
    · intro h
      obtain ⟨h0, hle, hq⟩ := Page.setInt_eq_ok p _ n q hlt h
      refine ⟨⟨h0, Int.le_refl 0, ?_⟩, hq⟩
      show offset.toInt + 4 + 0 ≤ p.length
      omega
    · rintro ⟨⟨h0, -, hle⟩, rfl⟩
      have hle' : offset.toInt + 4 + 0 ≤ p.length := hle
      exact Page.setInt_ok p _ n h0 (by omega) hlt
  | string s =>
    have hrange := toInt_range s.length
    have hword : lengthWord (.string s) = toInt s.length := rfl
    have hstep : ∀ (h0 : 0 ≤ offset.toInt) (hneg : 0 ≤ toInt s.length)
        (hle : offset.toInt + 4 + toInt s.length ≤ p.length),
        splice (splice p offset.toInt.toNat (encodeInt (Int32.ofInt s.length)))
          (offset.toInt + 4).toNat (s.take (toInt s.length).toNat) =
        splice p offset.toInt.toNat (written (.string s)) := by
      intro h0 hneg hle
      have hlen := @written_length (.string s) hneg
      rw [hword] at hlen
      unfold written at hlen ⊢
      rw [List.length_append, encodeInt_length] at hlen
      rw [splice_append p _ _ _ (by rw [encodeInt_length]; omega), encodeInt_length,
        show (offset.toInt + 4).toNat = offset.toInt.toNat + 4 by omega]
    constructor
    · intro h
      have hset : p.setBytes offset.toInt s = .ok q := h
      unfold Page.setBytes at hset
      dsimp only at hset
      by_cases hout : toSize (offset.toInt + 4 + toInt s.length) > p.length
      · rw [if_pos hout] at hset
        cases hset
      · rw [if_neg hout] at hset
        obtain ⟨p', hint, hrest⟩ := bind_eq_ok.mp hset
        obtain ⟨h0, hle, rfl⟩ := Page.setInt_eq_ok p _ _ p' hlt hint
        by_cases hneg : toInt s.length < 0
        · rw [if_pos hneg] at hrest
          cases hrest
        · rw [if_neg hneg, ofInt_toInt] at hrest
          have hsize := toSize_eq (offset.toInt + 4 + toInt s.length) (by omega) (by omega)
          cases hrest
          exact ⟨⟨h0, by omega, by omega⟩, hstep h0 (by omega) (by omega)⟩
    · rintro ⟨⟨h0, hneg, hle⟩, rfl⟩
      rw [hword] at hneg hle
      have hsize := toSize_eq (offset.toInt + 4 + toInt s.length) (by omega) (by omega)
      rw [← hstep h0 hneg hle]
      show p.setBytes offset.toInt s = _
      unfold Page.setBytes
      dsimp only
      rw [if_neg (by omega), Page.setInt_ok p _ _ h0 (by omega) hlt, ok_bind, if_neg (by omega),
        ofInt_toInt]

end Values

section Fields

variable {B : BlockSize} {layout : Layout} {tx tx' : Transaction} {blk : ℕ} {slot j : ℤ}
  {fieldName : Name} {val v : Value} {k : Kind} {c : Cell} {page q : Page} {pos : Int32}
  {log : LogMgr}

theorem readField_eq (hpage : tx.contents blk = .ok page)
    (hpos : RecordPage.fieldPos layout slot fieldName = .ok pos) (k : Kind) :
    readField layout tx blk slot fieldName k = get page pos k := by
  cases k with
  | int =>
    unfold readField RecordPage.getInt Transaction.getInt
    dsimp only
    rw [hpos, ok_bind, hpage]
    rfl
  | string =>
    unfold readField RecordPage.getString Transaction.getString
    dsimp only
    rw [hpos, ok_bind, hpage]
    rfl

/-- What is read of a cell depends on the block only. -/
theorem readCell_eq (hpos : place layout j c = .ok pos) :
    (∃ k, ∀ tx page, tx.contents blk = .ok page →
      readCell layout tx blk j c = get page pos k) ∨
    ∀ tx v, readCell layout tx blk j c ≠ .ok v := by
  cases c with
  | flag =>
    cases hpos
    refine Or.inl ⟨.int, fun tx page hpage => ?_⟩
    unfold readCell Transaction.getInt
    dsimp only
    rw [hpage]
    rfl
  | field f =>
    cases htype : layout.fieldType f with
    | error e =>
      refine Or.inr (fun tx v h => ?_)
      unfold readCell at h
      dsimp only at h
      rw [htype] at h
      cases h
    | ok type =>
      refine Or.inl ⟨kindOf type, fun tx page hpage => ?_⟩
      unfold readCell
      dsimp only
      rw [htype, ok_bind]
      exact readField_eq hpage hpos _

theorem exists_place (h : readCell layout tx blk j c = .ok v) :
    ∃ pos, place layout j c = .ok pos := by
  cases c with
  | flag => exact ⟨_, rfl⟩
  | field f =>
    obtain ⟨type, -, hread⟩ := bind_eq_ok.mp h
    cases hkind : kindOf type with
    | int =>
      rw [hkind] at hread
      obtain ⟨n, hget, -⟩ := bind_eq_ok.mp hread
      obtain ⟨pos, hpos, -⟩ := bind_eq_ok.mp hget
      exact ⟨pos, hpos⟩
    | string =>
      rw [hkind] at hread
      obtain ⟨s, hget, -⟩ := bind_eq_ok.mp hread
      obtain ⟨pos, hpos, -⟩ := bind_eq_ok.mp hget
      exact ⟨pos, hpos⟩

theorem writeField_ok (hpage : tx.contents blk = .ok page)
    (hpos : RecordPage.fieldPos layout slot fieldName = .ok pos)
    (hlog : tx.logUpdate B blk page pos (kind val) true = .ok log)
    (hset : set page pos val = .ok q) :
    writeField B layout tx blk slot fieldName val =
      .ok { tx with log := log, blocks := tx.blocks.set blk q } := by
  have hrun : tx.set B blk pos val true =
      .ok { tx with log := log, blocks := tx.blocks.set blk q } := by
    unfold Transaction.set
    rw [hpage, ok_bind, hlog, ok_bind, hset]
    rfl
  cases val with
  | int n =>
    unfold writeField RecordPage.setInt
    dsimp only
    rw [hpos, ok_bind]
    exact hrun
  | string s =>
    unfold writeField RecordPage.setString
    dsimp only
    rw [hpos, ok_bind]
    exact hrun

theorem writeField_cases (h : writeField B layout tx blk slot fieldName val = .ok tx') :
    ∃ pos page log q, tx.contents blk = .ok page ∧
      RecordPage.fieldPos layout slot fieldName = .ok pos ∧
      tx.logUpdate B blk page pos (kind val) true = .ok log ∧ set page pos val = .ok q ∧
      tx'.contents blk = .ok q := by
  have hrun : ∃ pos, RecordPage.fieldPos layout slot fieldName = .ok pos ∧
      tx.set B blk pos val true = .ok tx' := by
    cases val with
    | int n => exact bind_eq_ok.mp h
    | string s => exact bind_eq_ok.mp h
  obtain ⟨pos, hpos, hrun⟩ := hrun
  obtain ⟨page, hpage, hrest⟩ := bind_eq_ok.mp hrun
  obtain ⟨log, hlog, hrest⟩ := bind_eq_ok.mp hrest
  obtain ⟨q, hset, hend⟩ := bind_eq_ok.mp hrest
  cases hend
  refine ⟨pos, page, log, q, hpage, hpos, hlog, hset, ?_⟩
  have hlt : blk < tx.blocks.length := by
    unfold Transaction.contents at hpage
    cases hblk : tx.blocks[blk]? with
    | none =>
      rw [hblk] at hpage
      cases hpage
    | some p => exact (List.getElem?_eq_some_iff.mp hblk).1
  unfold Transaction.contents
  dsimp only
  rw [List.getElem?_set_self hlt]

/-- A write stays in its field if and only if it spares the other values. -/
theorem stays_iff (hblocks : ∀ page, tx.contents blk = .ok page → page.length = B.bytes) :
    Stays B layout tx blk slot fieldName val ↔ Spares B layout tx blk slot fieldName val := by
  have hB := B.lt_int
  constructor
  · intro h page pos log hpage hpos hlog hroom
    have hp := hblocks page hpage
    have hset := (set_eq_ok_iff (by omega)).mpr ⟨hroom, rfl⟩
    have hwrite := writeField_ok hpage hpos hlog hset
    obtain ⟨pos₁, page₁, log₁, q, hpage₁, hpos₁, -, hset₁, hq⟩ := writeField_cases hwrite
    cases hpage.symm.trans hpage₁
    cases hpos.symm.trans hpos₁
    cases hset.symm.trans hset₁
    obtain ⟨h0, hword, hle⟩ := hroom
    have hlen := written_length hword
    have hfit : pos.toInt.toNat + (written val).length ≤ page.length := by omega
    obtain ⟨hself, hothers⟩ := h _ hwrite
    refine ⟨?_, fun j c v pos' hother hread hpos' => ?_⟩
    · rw [readField_eq hq hpos] at hself
      have hlenq := splice_length page pos.toInt.toNat (written val) hfit
      obtain ⟨-, -, hsize, -⟩ := (get_eq_ok_iff (by omega)).mp hself
      cases val with
      | int n => trivial
      | string s =>
        rw [size_string] at hsize
        show s.length < 2147483648
        omega
    · have hread' := hothers j c v hother hread
      obtain ⟨k, hcell⟩ | hnone := @readCell_eq layout blk j c pos' hpos'
      · rw [hcell tx page hpage] at hread
        rw [hcell _ _ hq] at hread'
        have hlenq := splice_length page pos.toInt.toNat (written val) hfit
        obtain ⟨-, -, -, hbytes⟩ := (get_eq_ok_iff (by omega)).mp hread
        obtain ⟨-, -, -, hbytes'⟩ := (get_eq_ok_iff (by omega)).mp hread'
        exact (slice_splice_iff page _ _ _ _ hfit).mp (hbytes'.trans hbytes.symm)
      · exact absurd hread (hnone tx v)
  · intro h tx' hwrite
    obtain ⟨pos, page, log, q, hpage, hpos, hlog, hset, hq⟩ := writeField_cases hwrite
    have hp := hblocks page hpage
    obtain ⟨hroom, rfl⟩ := (set_eq_ok_iff (by omega)).mp hset
    obtain ⟨hshort, hagrees⟩ := h page pos log hpage hpos hlog hroom
    obtain ⟨h0, hword, hle⟩ := hroom
    have hlen := written_length hword
    have hfit : pos.toInt.toNat + (written val).length ≤ page.length := by omega
    have hlenq := splice_length page pos.toInt.toNat (written val) hfit
    refine ⟨?_, fun j c v hother hread => ?_⟩
    · rw [readField_eq hq hpos]
      exact get_set hshort (by omega) hset
    · obtain ⟨pos', hpos'⟩ := exists_place hread
      obtain ⟨k, hcell⟩ | hnone := @readCell_eq layout blk j c pos' hpos'
      · have hget := (hcell tx page hpage).symm.trans hread
        obtain ⟨hkind, h0', hle', hbytes⟩ := (get_eq_ok_iff (by omega)).mp hget
        rw [hcell tx' _ hq]
        refine (get_eq_ok_iff (by omega)).mpr ⟨hkind, h0', by omega, ?_⟩
        rw [← hbytes]
        exact (slice_splice_iff page _ _ _ _ hfit).mpr (hagrees j c v pos' hother hread hpos')
      · exact absurd hread (hnone tx v)

theorem readCell_at {m : ℕ} (h : Sound B layout) (hpage : tx.contents blk = .ok page)
    (hc : c.Of layout) :
    readCell layout tx blk m c = get page (c.pos layout m) (c.kind layout) := by
  cases c with
  | flag =>
    unfold readCell Transaction.getInt
    dsimp only
    rw [pos_flag, hpage]
    rfl
  | field f =>
    obtain ⟨type, htype⟩ := fieldType_ok h hc
    unfold readCell
    dsimp only
    rw [htype, ok_bind, readField_eq hpage (fieldPos_eq h hc), kind_field htype]

theorem place_at {m : ℕ} (h : Sound B layout) (hc : c.Of layout) :
    place layout m c = .ok (c.pos layout m) := by
  cases c with
  | flag => exact congrArg Except.ok (pos_flag layout m).symm
  | field f => exact fieldPos_eq h hc

theorem Other.exists_slot (h : Sound B layout) (ho : Other B layout slot fieldName j c) :
    ∃ m : ℕ, j = m ∧ m < perBlock B layout := by
  refine ⟨j.toNat, (Int.toNat_of_nonneg ho.nonneg).symm, ?_⟩
  have hinside := ho.inside
  have hpos := h.slot_pos
  rw [← h.slotSize, ← Int.toNat_of_nonneg ho.nonneg] at hinside
  unfold perBlock
  refine (Nat.le_div_iff_mul_le (by omega)).mpr ?_
  exact_mod_cast hinside

/-- In a block whose slots hold values of the declared lengths, a value of the declared length
spares the others. -/
theorem spares_of_slots {n : ℕ} (h : Sound B layout) (hpage : tx.contents blk = .ok page)
    (hslots : ∀ m, m < perBlock B layout → ∃ s, SlotAt layout page m s) (hn : n < perBlock B layout)
    (hf : fieldName ∈ layout.schema.fields)
    (hsize : val.size ≤ (Cell.field fieldName).width layout) :
    Spares B layout tx blk n fieldName val := by
  intro page' pos log hpage' hpos hlog hroom
  cases hpage.symm.trans hpage'
  have hcell : (Cell.field fieldName).Of layout := hf
  obtain ⟨hstart, hend, -⟩ := h.cell_start hcell
  have hshort : IsShort val := by
    have hfits := h.fits
    have hB := B.lt_int
    cases val with
    | int n => trivial
    | string s =>
      rw [size_string] at hsize
      show s.length < 2147483648
      omega
  refine ⟨hshort, fun j c v pos' hother hread hpos' => ?_⟩
  obtain ⟨m, rfl, hm⟩ := hother.exists_slot h
  have hc := hother.of
  obtain ⟨s, hs⟩ := hslots m hm
  obtain ⟨hsuits, hget⟩ := hs c hc
  have hv : v = c.value s := by
    rw [readCell_at h hpage hc, hget] at hread
    exact (Except.ok.inj hread).symm
  have hpos₁ : pos = (Cell.field fieldName).pos layout n :=
    Except.ok.inj (hpos.symm.trans (fieldPos_eq h hf))
  have hpos₂ : pos' = c.pos layout m := Except.ok.inj (hpos'.symm.trans (place_at h hc))
  obtain ⟨hat, -, -⟩ := h.pos_toInt hn hcell
  obtain ⟨hat', -, -⟩ := h.pos_toInt hm hc
  obtain ⟨hstart', -, -⟩ := h.cell_start hc
  have hne : ¬ (m = n ∧ c = .field fieldName) := fun heq => hother.ne ⟨congrArg _ heq.1, heq.2⟩
  have happ := h.apart hn hm hcell hc hne
  have hle := hsuits.size
  rw [written_eq hshort, hpos₁, hpos₂, hv]
  intro i hlow hhigh hfrom hto
  rw [valueBytes_length] at hto
  omega

end Fields

def smallBlock : BlockSize := ⟨56, by decide, by decide⟩

/-- A string of two characters and an integer. -/
def twoFields : Schema := (Schema.empty.addStringField ['a'] 2).addIntField ['b']

theorem fitting_twoFields : Fitting smallBlock twoFields where
  declared := by
    intro f hf
    cases hf with
    | head => exact ⟨⟨.varchar, 2⟩, rfl, fun _ => by decide⟩
    | tail _ hf =>
      cases List.mem_singleton.mp hf
      exact ⟨⟨.integer, 0⟩, rfl, fun h => by cases h⟩
  fits := by decide
  next := by decide

/-- A transaction on a file of one block of zeros. -/
def oneBlock (log : LogMgr) : Transaction :=
  ⟨1, [116, 46, 116, 98, 108], log, [zeroPage smallBlock.bytes]⟩

theorem stays_twoLetters : ∃ log layout, LogMgr.new smallBlock [] = .ok log ∧
    Layout.new twoFields = .ok layout ∧
    Stays smallBlock layout (oneBlock log) 0 1 ['a'] (.string [120, 121]) := by
  obtain ⟨log, hlog, -⟩ := LogState.new_nil smallBlock
  have hfitting := fitting_twoFields
  obtain ⟨layout, hlayout, hschema, -⟩ := layout_new hfitting.declared (by decide)
  have hsound : Sound smallBlock layout := hfitting.sound hlayout
  have hslots : perBlock smallBlock layout = 4 := by
    unfold perBlock
    rw [hsound.placed.size, hschema]
    decide
  have hblocks : ∀ page, (oneBlock log).contents 0 = .ok page → page.length = smallBlock.bytes := by
    intro page hpage
    cases hpage
    exact zeroPage_length _
  have hf : ['a'] ∈ layout.schema.fields := by
    rw [hschema]
    decide
  have hsize : (Value.string [120, 121]).size ≤ (Cell.field ['a']).width layout := by
    show _ ≤ widthOf layout.schema ['a']
    rw [hschema]
    decide
  refine ⟨log, layout, hlog, hlayout, (stays_iff hblocks).mpr ?_⟩
  exact spares_of_slots (n := 1) hsound rfl
    (fun m hm => ⟨_, slotAt_zeroPage hsound hm⟩) (by omega) hf hsize

/-- The third letter is read as a byte of the integer. -/
theorem not_stays_threeLetters : ∃ log layout, LogMgr.new smallBlock [] = .ok log ∧
    Layout.new twoFields = .ok layout ∧
    ¬ Stays smallBlock layout (oneBlock log) 0 1 ['a'] (.string [120, 121, 122]) := by
  have hrun : (do
      let log ← LogMgr.new smallBlock []
      let layout ← Layout.new twoFields
      let tx ← writeField smallBlock layout (oneBlock log) 0 1 ['a'] (.string [120, 121, 122])
      let before ← readCell layout (oneBlock log) 0 1 (.field ['b'])
      let after ← readCell layout tx 0 1 (.field ['b'])
      return (before, after)) = .ok (.int 0, .int 122) := by decide +kernel
  obtain ⟨log, hlog, hrun⟩ := bind_eq_ok.mp hrun
  obtain ⟨layout, hlayout, hrun⟩ := bind_eq_ok.mp hrun
  obtain ⟨tx, hwrite, hrun⟩ := bind_eq_ok.mp hrun
  obtain ⟨old, hold, hrun⟩ := bind_eq_ok.mp hrun
  obtain ⟨new, hnew, hend⟩ := bind_eq_ok.mp hrun
  cases hend
  obtain ⟨layout', hlayout', hschema, hplaced⟩ := layout_new fitting_twoFields.declared (by decide)
  cases hlayout.symm.trans hlayout'
  have hother : Other smallBlock layout 1 ['a'] 1 (.field ['b']) := by
    refine ⟨by decide, ?_, ?_, by decide⟩
    · rw [hplaced.size, hschema]
      decide
    · show ['b'] ∈ layout.schema.fields
      rw [hschema]
      decide
  refine ⟨log, layout, hlog, hlayout, fun h => ?_⟩
  have hread := (h tx hwrite).2 1 (.field ['b']) _ hother hold
  cases hnew.symm.trans hread

end SampleDB.FieldWrites
