import SampleDB.StoredRecords

/-!
What the operations of record pages and table scans do to the slots that a file stands for.
A scan over the blocks of a file behaves like a scan over the sequence of its slots.
-/
namespace SampleDB.StoredTables

open Words Pages Blocks LogRecords RecordRoundTrip Logging Lexer Schemas Rollback
open Endings PageValues TableScans RecordPages StoredRecords

/-- The pages of a file, and the slots that they store. -/
structure Stored (B : BlockSize) (layout : Layout) (blocks : List Page)
    (slots : List (Slot Row)) : Prop where
  length : slots.length = blocks.length * perBlock B layout
  size : ∀ p ∈ blocks, p.length = B.bytes
  slot : ∀ b j p slot, j < perBlock B layout → blocks[b]? = some p →
    slots[b * perBlock B layout + j]? = some slot → SlotAt layout p j slot

/-- The length of the record that logs a value. -/
def recordLength (fileName : Bytes) : Value → ℕ
  | .int _ => fileName.length + 24
  | .string s => fileName.length + 24 + 2 * s.length

/-- The record that logs the value and its length fit a block. -/
def Loggable (B : BlockSize) (fileName : Bytes) (old : Value) : Prop :=
  recordLength fileName old + 4 ≤ B.bytes

instance (B : BlockSize) (fileName : Bytes) (old : Value) : Decidable (Loggable B fileName old) :=
  inferInstanceAs (Decidable (_ ≤ _))

/-- A log page that can take the next record, if a block can. A record that is too long by a
few bytes runs into the boundary word, which is written last. -/
structure Usable (B : BlockSize) (p : Page) : Prop where
  length : p.length = B.bytes
  boundary : ∃ w, p.getInt 0 = .ok w ∧ 0 ≤ w.toInt ∧ w.toInt ≤ B.bytes

/-- A transaction on a file with these slots. -/
structure Contains (B : BlockSize) (layout : Layout) (fileName : Bytes) (tx : Transaction)
    (slots : List (Slot Row)) : Prop where
  name : tx.fileName = fileName
  log : Usable B tx.log.page
  stored : Stored B layout tx.blocks slots

section Cells

variable {B : BlockSize} {layout : Layout} {fileName : Bytes} {tx : Transaction}
  {slots : List (Slot Row)} {blocks : List Page} {slot slot' : Slot Row} {b j : ℕ} {c : Cell}

theorem div_place {n j : ℕ} (b : ℕ) (hj : j < n) : (b * n + j) / n = b := by
  rw [Nat.mul_comm, Nat.mul_add_div (by omega), Nat.div_eq_of_lt hj, Nat.add_zero]

theorem mod_place {n j : ℕ} (b : ℕ) (hj : j < n) : (b * n + j) % n = j := by
  rw [Nat.mul_comm, Nat.mul_add_mod, Nat.mod_eq_of_lt hj]

theorem place_inj {n b b' j j' : ℕ} (hj : j < n) (hj' : j' < n) (h : b' * n + j' = b * n + j) :
    b' = b ∧ j' = j := by
  refine ⟨?_, ?_⟩
  · rw [← div_place b' hj', h, div_place b hj]
  · rw [← mod_place b' hj', h, mod_place b hj]

theorem place_lt {n b j m : ℕ} (hj : j < n) (hb : b < m) : b * n + j < m * n :=
  calc b * n + j < b * n + n := Nat.add_lt_add_left hj _
    _ = (b + 1) * n := (Nat.succ_mul _ _).symm
    _ ≤ m * n := Nat.mul_le_mul_right _ hb

theorem Stored.set (h : Stored B layout blocks slots) (hj : j < perBlock B layout)
    (hb : b < blocks.length) {q : Page} (hq : q.length = B.bytes)
    (hself : SlotAt layout q j slot')
    (hothers : ∀ j' slot, j' < perBlock B layout → j' ≠ j →
      slots[b * perBlock B layout + j']? = some slot → SlotAt layout q j' slot) :
    Stored B layout (blocks.set b q) (slots.set (b * perBlock B layout + j) slot') := by
  refine ⟨?_, ?_, ?_⟩
  · rw [List.length_set, List.length_set]
    exact h.length
  · intro p hp
    rcases List.mem_or_eq_of_mem_set hp with hmem | rfl
    · exact h.size p hmem
    · exact hq
  · intro b' j' p slot hj' hp hslot
    rw [List.getElem?_set] at hp hslot
    by_cases hbb : b = b'
    · subst hbb
      rw [if_pos rfl, if_pos hb] at hp
      cases hp
      by_cases hjj : j' = j
      · subst hjj
        have hlt : b * perBlock B layout + j' < slots.length := by
          rw [h.length]
          exact place_lt hj hb
        rw [if_pos rfl, if_pos hlt] at hslot
        cases hslot
        exact hself
      · rw [if_neg (by omega)] at hslot
        exact hothers j' slot hj' hjj hslot
    · rw [if_neg hbb] at hp
      rw [if_neg (fun heq => hbb (place_inj hj' hj heq).1)] at hslot
      exact h.slot b' j' p slot hj' hp hslot

theorem writeToLog_record (fileName : Bytes) (txNum num offset : Int32) {old : Value}
    (h : recordLength fileName old < 2147483648) :
    ∃ bytes, (record txNum ⟨fileName, num⟩ offset old).writeToLog = .ok bytes ∧
      bytes.length = recordLength fileName old := by
  cases old with
  | int n =>
    refine ⟨_, setInt_writeToLog txNum ⟨fileName, num⟩ offset n h, ?_⟩
    rw [List.length_append, header_length, encodeInt_length]
    rfl
  | string s =>
    refine ⟨_, setString_writeToLog txNum ⟨fileName, num⟩ offset s h, ?_⟩
    simp only [List.length_append, header_length, encodeInt_length, zeroPage_length, recordLength]
    omega

theorem usable_setInt {p : Page} {n : ℤ} (hp : p.length = B.bytes) (h0 : 0 ≤ n)
    (hn : n ≤ B.bytes) : ∃ q, p.setInt 0 (Int32.ofInt n) = .ok q ∧
      q.getInt 0 = .ok (Int32.ofInt n) ∧ Usable B q := by
  have hB := B.lt_int
  have hword := B.word_le
  have hset := Page.setInt_ok p 0 (Int32.ofInt n) (Int.le_refl 0) (by omega) (by decide)
  have hlen := Page.setInt_length p 0 _ _ (by decide) hset
  have hslice := Slices.slice_splice_self p (0 : ℤ).toNat (encodeInt (Int32.ofInt n))
    (by rw [encodeInt_length, hp]; exact hword)
  rw [encodeInt_length] at hslice
  have hget := Page.getInt_ok _ 0 (Int.le_refl 0) (by rw [hlen]; omega) (by decide)
  rw [hslice, decodeInt_encodeInt] at hget
  have hint : (Int32.ofInt n).toInt = n := toInt_eq n (by omega) (by omega)
  refine ⟨_, hset, hget, hlen.trans hp, _, hget, ?_⟩
  rw [hint]
  exact ⟨h0, hn⟩

theorem usable_pack {log : LogMgr} {r : Bytes} {boundary : ℤ} (hp : log.page.length = B.bytes)
    (hle : boundary ≤ B.bytes) (hr : (r.length : ℤ) + 4 ≤ boundary) :
    ∃ log' lsn, log.pack boundary (r.length + 4) r = .ok (log', lsn) ∧ Usable B log'.page := by
  have hB := B.lt_int
  have hpos : toInt (boundary - (r.length + 4)) = boundary - (r.length + 4) :=
    toInt_eq _ (by omega) (by omega)
  have hset := Page.setBytes_ok log.page (boundary - (r.length + 4)) r (by omega) (by omega)
    (by omega)
  have hlen := Page.setBytes_length log.page _ r _ (by omega) hset
  have h0 : 0 ≤ boundary - ((r.length : ℤ) + 4) := by omega
  obtain ⟨q, hq, -, husable⟩ := usable_setInt (hlen.trans hp) h0 (by omega)
  refine ⟨{ log with page := q, latestLsn := log.latestLsn + 1 }, log.latestLsn + 1, ?_, husable⟩
  unfold LogMgr.pack
  simp only [hpos, hset, hq, ok_bind]

/-- An append packs the record into the log page, or else into a new one. -/
theorem Usable.append {log : LogMgr} (h : Usable B log.page) {r : Bytes}
    (hr : r.length + 4 ≤ B.bytes) :
    ∃ log' lsn, log.append B r = .ok (log', lsn) ∧ Usable B log'.page := by
  have hB := B.lt_int
  obtain ⟨w, hw, h0, hle⟩ := h.boundary
  have hsize : toInt r.length = r.length := toInt_eq _ (by omega) (by omega)
  have hneed : toInt ((r.length : ℤ) + 4) = r.length + 4 := toInt_eq _ (by omega) (by omega)
  have hdiff : toInt (w.toInt - (r.length + 4)) = w.toInt - (r.length + 4) :=
    toInt_eq _ (by omega) (by omega)
  unfold LogMgr.append
  simp only [hw, ok_bind, hsize, hneed, hdiff]
  by_cases hfull : w.toInt - ((r.length : ℤ) + 4) < 4
  · obtain ⟨q, hq, hget, husable⟩ :=
      usable_setInt h.length (Int.natCast_nonneg B.bytes) (Int.le_refl _)
    have hnew : log.flushPage.page.setInt 0 (Int32.ofInt B.bytes) = .ok q := hq
    have hint : (Int32.ofInt (B.bytes : ℤ)).toInt = B.bytes := toInt_eq _ (by omega) (by omega)
    rw [if_pos hfull]
    unfold LogMgr.appendNewBlock
    simp only [hnew, ok_bind, hget, hint]
    exact usable_pack husable.length (Int.le_refl _) (by omega)
  · rw [if_neg hfull]
    exact usable_pack h.length hle (by omega)

/-- The value that is overwritten goes to the log. -/
theorem Contains.logOld (h : Contains B layout fileName tx slots) {p : Page} {offset : Int32}
    {k : Kind} {old : Value} (hold : get p offset k = .ok old) (hfit : Loggable B fileName old) :
    ∃ log, tx.logOld B b p offset k = .ok log ∧ Usable B log.page := by
  have hB := B.lt_int
  have hint : recordLength fileName old < 2147483648 := by
    unfold Loggable at hfit
    omega
  obtain ⟨bytes, hbytes, hlen⟩ := writeToLog_record fileName tx.txNum (Int32.ofInt b) offset hint
  obtain ⟨log, lsn, happend, husable⟩ := h.log.append (by rw [hlen]; exact hfit)
  have hblk : tx.blockId b = ⟨fileName, Int32.ofInt b⟩ := by
    unfold Transaction.blockId
    rw [h.name]
  refine ⟨log, ?_, husable⟩
  unfold Transaction.logOld
  rw [hold, ok_bind, hblk, hbytes, ok_bind, happend]
  rfl

/-- The write of a cell changes the slot of the cell and no other one. -/
theorem Contains.set (h : Contains B layout fileName tx slots) (hl : Sound B layout)
    (hb : b < tx.size) (hj : j < perBlock B layout)
    (hslot : slots[b * perBlock B layout + j]? = some slot) (hc : c.Of layout) (slot' : Slot Row)
    (hval : Suits layout c (c.value slot')) (hother : ∀ c', c' ≠ c → c'.value slot' = c'.value slot)
    (okToLog : Bool) (hfit : okToLog = true → Loggable B fileName (c.value slot)) :
    ∃ tx', tx.set B b (c.pos layout j) (c.value slot') okToLog = .ok tx' ∧ tx'.size = tx.size ∧
      Contains B layout fileName tx' (slots.set (b * perBlock B layout + j) slot') := by
  have hlt : b < tx.blocks.length := hb
  have hp : tx.blocks[b]? = some tx.blocks[b] := List.getElem?_eq_getElem hlt
  have hsize := h.stored.size _ (List.getElem_mem hlt)
  have hat := h.stored.slot b j _ slot hj hp hslot
  have hlog : ∃ log, tx.logUpdate B b tx.blocks[b] (c.pos layout j) (kind (c.value slot')) okToLog =
      .ok log ∧ Usable B log.page := by
    cases okToLog with
    | false => exact ⟨tx.log, rfl, h.log⟩
    | true =>
      rw [hval.kind]
      exact h.logOld (hat c hc).2 (hfit rfl)
  obtain ⟨log, hlog, hholds⟩ := hlog
  obtain ⟨q, hq, hqlen, hself, hkeep⟩ := hl.set_cell hsize hj hc hval
  refine ⟨{ tx with log := log, blocks := tx.blocks.set b q }, ?_, List.length_set, h.name,
    hholds, ?_⟩
  · have hcontents : tx.contents b = .ok tx.blocks[b] := by
      unfold Transaction.contents
      rw [hp]
    unfold Transaction.set
    rw [hcontents, ok_bind, hlog, ok_bind, hq]
    rfl
  · refine h.stored.set hj hlt hqlen ?_ ?_
    · intro c' hc'
      by_cases heq : c' = c
      · subst heq
        exact ⟨hval, hself⟩
      · rw [hother c' heq]
        exact ⟨(hat c' hc').1,
          hkeep j c' hj hc' (fun hsame => heq hsame.2) _ (hat c' hc').1 (hat c' hc').2⟩
    · intro j' slot₁ hj' hne hslot₁ c' hc'
      have hat' := h.stored.slot b j' _ slot₁ hj' hp hslot₁ c' hc'
      exact ⟨hat'.1, hkeep j' c' hj' hc' (fun hsame => hne hsame.1) _ hat'.1 hat'.2⟩

/-- A cell reads as the value of its slot. -/
theorem Contains.get (h : Contains B layout fileName tx slots) (hb : b < tx.size)
    (hj : j < perBlock B layout) (hslot : slots[b * perBlock B layout + j]? = some slot)
    (hc : c.Of layout) : ∃ p, tx.contents b = .ok p ∧
      Endings.get p (c.pos layout j) (c.kind layout) = .ok (c.value slot) := by
  have hp : tx.blocks[b]? = some tx.blocks[b] := List.getElem?_eq_getElem hb
  refine ⟨tx.blocks[b], ?_, (h.stored.slot b j _ slot hj hp hslot c hc).2⟩
  unfold Transaction.contents
  rw [hp]

theorem pos_flag (layout : Layout) (j : ℕ) :
    Cell.flag.pos layout j = RecordPage.offset layout j := by
  show Int32.ofInt ((RecordPage.offset layout j).toInt + 0) = _
  rw [Int.add_zero]
  exact Int32.ofInt_toInt _

theorem fieldPos_eq (hl : Sound B layout) {f : Name} (hf : f ∈ layout.schema.fields) :
    RecordPage.fieldPos layout j f = .ok ((Cell.field f).pos layout j) := by
  obtain ⟨pos, hpos, -, -⟩ := hl.placed.offset f hf
  unfold RecordPage.fieldPos Layout.offset Cell.pos
  rw [hpos, Cell.start_field hpos]
  rfl

theorem kind_field {f : Name} {type : FieldType} (h : layout.fieldType f = .ok type) :
    (Cell.field f).kind layout = kindOf type := by
  unfold Layout.fieldType at h
  show (layout.schema.fieldInfo f).elim Kind.int _ = _
  cases hinfo : layout.schema.fieldInfo f with
  | none =>
    rw [hinfo] at h
    cases h
  | some info =>
    rw [hinfo] at h
    cases h
    rfl

theorem fieldType_ok (hl : Sound B layout) {f : Name} (hf : f ∈ layout.schema.fields) :
    ∃ type, layout.fieldType f = .ok type := by
  obtain ⟨info, hinfo, -⟩ := hl.declared f hf
  refine ⟨info.type, ?_⟩
  unfold Layout.fieldType
  rw [hinfo]

end Cells

def blankValue : FieldType → Value
  | .integer => .int 0
  | .boolean => .int 0
  | .varchar => .string []

def blankRow (layout : Layout) : Row := fun fieldName =>
  match layout.fieldType fieldName with
  | .ok type => blankValue type
  | .error _ => .int 0

def blankSlot (layout : Layout) : Slot Row := ⟨false, blankRow layout⟩

/-- The blocks of a file with this layout. -/
def form {B : BlockSize} {layout : Layout} (hl : Sound B layout) : Form Row :=
  ⟨perBlock B layout, hl.perBlock_pos, blankRow layout⟩

section Format

variable {B : BlockSize} {layout : Layout} {fileName : Bytes} {tx : Transaction}
  {slots : List (Slot Row)} {blocks : List Page} {b j : ℕ} {c : Cell}

theorem blankRow_eq {f : Name} {type : FieldType} (h : layout.fieldType f = .ok type) :
    blankRow layout f = blankValue type := by
  unfold blankRow
  rw [h]

theorem suits_blank (hl : Sound B layout) (hc : c.Of layout) :
    Suits layout c (c.value (blankSlot layout)) := by
  obtain ⟨-, -, hfour⟩ := hl.cell_start hc
  cases c with
  | flag => exact ⟨rfl, Nat.le_refl 4⟩
  | field f =>
    obtain ⟨type, htype⟩ := fieldType_ok hl hc
    have hvalue : (Cell.field f).value (blankSlot layout) = blankRow layout f := rfl
    rw [hvalue, blankRow_eq htype]
    refine ⟨?_, ?_⟩
    · rw [kind_field htype]
      cases type <;> rfl
    · cases type <;> exact hfour

theorem slice_zeroPage {n i k : ℕ} (h : i + k ≤ n) :
    Slices.slice (zeroPage n) i k = List.replicate k 0 := by
  unfold Slices.slice zeroPage
  rw [List.drop_replicate, List.take_replicate, Nat.min_eq_left (by omega)]

/-- A block of zeros has empty slots with blank rows. -/
theorem slotAt_zeroPage (hl : Sound B layout) (hj : j < perBlock B layout) :
    SlotAt layout (zeroPage B.bytes) j (blankSlot layout) := by
  intro c hc
  have hsuits := suits_blank hl hc
  obtain ⟨hpos, hend, hin⟩ := hl.pos_toInt hj hc
  obtain ⟨hstart, -, hfour⟩ := hl.cell_start hc
  have hB := B.lt_int
  have hlen : (zeroPage B.bytes).length = B.bytes := zeroPage_length _
  have hword := slice_zeroPage (n := B.bytes) (i := (c.pos layout j).toInt.toNat) (k := 4)
    (by omega)
  have hint : (zeroPage B.bytes).getInt (c.pos layout j).toInt = .ok 0 := by
    rw [Page.getInt_ok _ _ (by omega) (by omega) (by omega), hword]
    rfl
  have hstring : (zeroPage B.bytes).getString (c.pos layout j).toInt = .ok [] := by
    refine Page.getBytes_ok _ _ [] (by omega) ?_ (by omega) ?_ ?_
    · rw [List.length_nil]
      omega
    · rw [hword]
      rfl
    · exact List.take_zero
  refine ⟨hsuits, ?_⟩
  rw [← hsuits.kind]
  cases c with
  | flag =>
    show (do return Value.int (← (zeroPage B.bytes).getInt _)) = _
    rw [hint]
    rfl
  | field f =>
    obtain ⟨type, htype⟩ := fieldType_ok hl hc
    have hvalue : (Cell.field f).value (blankSlot layout) = blankRow layout f := rfl
    rw [hvalue, blankRow_eq htype]
    cases type with
    | integer =>
      show (do return Value.int (← (zeroPage B.bytes).getInt _)) = _
      rw [hint]
      rfl
    | boolean =>
      show (do return Value.int (← (zeroPage B.bytes).getInt _)) = _
      rw [hint]
      rfl
    | varchar =>
      show (do return Value.string (← (zeroPage B.bytes).getString _)) = _
      rw [hstring]
      rfl

theorem Stored.append (hl : Sound B layout) (h : Stored B layout blocks slots) :
    Stored B layout (blocks ++ [zeroPage B.bytes]) (slots ++ (form hl).emptyBlock) := by
  have hblank : (form hl).emptyBlock = List.replicate (perBlock B layout) (blankSlot layout) := rfl
  rw [hblank]
  refine ⟨?_, ?_, ?_⟩
  · rw [List.length_append, List.length_append, List.length_replicate, h.length,
      List.length_singleton, Nat.succ_mul]
  · intro p hp
    rcases List.mem_append.mp hp with hmem | hmem
    · exact h.size p hmem
    · rw [List.mem_singleton.mp hmem]
      exact zeroPage_length _
  · intro b j p slot hj hp hslot
    by_cases hb : b < blocks.length
    · have hlt : b * perBlock B layout + j < slots.length := by
        rw [h.length]
        exact place_lt hj hb
      rw [List.getElem?_append_left hb] at hp
      rw [List.getElem?_append_left hlt] at hslot
      exact h.slot b j p slot hj hp hslot
    · obtain ⟨hlt, hget⟩ := List.getElem?_eq_some_iff.mp hp
      rw [List.length_append, List.length_singleton] at hlt
      have hb' : b = blocks.length := by omega
      subst hb'
      rw [List.getElem?_append_right (Nat.le_refl _), Nat.sub_self] at hp
      cases hp
      rw [List.getElem?_append_right (by rw [h.length]; omega)] at hslot
      obtain ⟨-, rfl⟩ := List.mem_replicate.mp (List.mem_of_getElem? hslot)
      exact slotAt_zeroPage hl hj

theorem Contains.append (hl : Sound B layout) (h : Contains B layout fileName tx slots) :
    Contains B layout fileName (tx.append B) (slots ++ (form hl).emptyBlock) :=
  ⟨h.name, h.log, h.stored.append hl⟩

/-- Writing the value that a cell has leaves the slots as they are. -/
theorem Contains.set_same (h : Contains B layout fileName tx slots) (hl : Sound B layout)
    (hb : b < tx.size) (hj : j < perBlock B layout) {slot : Slot Row}
    (hslot : slots[b * perBlock B layout + j]? = some slot) (hc : c.Of layout) (okToLog : Bool)
    (hfit : okToLog = true → Loggable B fileName (c.value slot)) :
    ∃ tx', tx.set B b (c.pos layout j) (c.value slot) okToLog = .ok tx' ∧ tx'.size = tx.size ∧
      Contains B layout fileName tx' slots := by
  have hval : Suits layout c (c.value slot) :=
    (h.stored.slot b j _ slot hj (List.getElem?_eq_getElem hb) hslot c hc).1
  obtain ⟨tx', hset, hsize, hcontains⟩ :=
    h.set hl hb hj hslot hc slot hval (fun _ _ => rfl) okToLog hfit
  have hsame : slots.set (b * perBlock B layout + j) slot = slots := by
    obtain ⟨hlt, rfl⟩ := List.getElem?_eq_some_iff.mp hslot
    exact List.set_getElem_self hlt
  rw [hsame] at hcontains
  exact ⟨tx', hset, hsize, hcontains⟩

theorem Contains.blankField (h : Contains B layout fileName tx slots) (hl : Sound B layout)
    (hb : b < tx.size) (hj : j < perBlock B layout)
    (hslot : slots[b * perBlock B layout + j]? = some (blankSlot layout)) {f : Name}
    (hf : f ∈ layout.schema.fields) :
    ∃ tx', RecordPage.blankField B layout b j tx f = .ok tx' ∧ tx'.size = tx.size ∧
      Contains B layout fileName tx' slots := by
  obtain ⟨type, htype⟩ := fieldType_ok hl hf
  obtain ⟨tx', hset, hsize, hcontains⟩ := h.set_same hl hb hj hslot (c := .field f) hf false
    (fun hlog => by cases hlog)
  refine ⟨tx', ?_, hsize, hcontains⟩
  have hvalue : (Cell.field f).value (blankSlot layout) = blankRow layout f := rfl
  rw [hvalue, blankRow_eq htype] at hset
  unfold RecordPage.blankField
  rw [fieldPos_eq hl hf, ok_bind, htype, ok_bind]
  cases type <;> exact hset

/-- Formatting a slot that is blank leaves it blank. -/
theorem Contains.formatSlot (h : Contains B layout fileName tx slots) (hl : Sound B layout)
    (hb : b < tx.size) (hj : j < perBlock B layout)
    (hslot : slots[b * perBlock B layout + j]? = some (blankSlot layout))
    (hfit : Loggable B fileName (.int 0)) :
    ∃ tx', RecordPage.formatSlot B layout tx b j = .ok tx' ∧ tx'.size = tx.size ∧
      Contains B layout fileName tx' slots := by
  have hfields : ∀ (fieldNames : List Name) (tx : Transaction),
      (∀ f ∈ fieldNames, f ∈ layout.schema.fields) → b < tx.size →
      Contains B layout fileName tx slots →
      ∃ tx', fieldNames.foldlM (RecordPage.blankField B layout b j) tx = .ok tx' ∧
        tx'.size = tx.size ∧ Contains B layout fileName tx' slots := by
    intro fieldNames
    induction fieldNames with
    | nil => exact fun tx _ _ h => ⟨tx, rfl, rfl, h⟩
    | cons f fieldNames ih =>
      intro tx hmem hb h
      rw [List.forall_mem_cons] at hmem
      obtain ⟨tx₁, hone, hsize₁, h₁⟩ := h.blankField hl hb hj hslot hmem.1
      obtain ⟨tx', hrest, hsize', h'⟩ := ih tx₁ hmem.2 (by rw [hsize₁]; exact hb) h₁
      refine ⟨tx', ?_, hsize'.trans hsize₁, h'⟩
      rw [List.foldlM_cons, hone]
      exact hrest
  obtain ⟨tx₁, hflag, hsize₁, h₁⟩ := h.set_same hl hb hj hslot (c := .flag) trivial true
    (fun _ => hfit)
  obtain ⟨tx', hrest, hsize', h'⟩ :=
    hfields layout.schema.fields tx₁ (fun f hf => hf) (by rw [hsize₁]; exact hb) h₁
  refine ⟨tx', ?_, hsize'.trans hsize₁, h'⟩
  rw [pos_flag] at hflag
  have hset : tx.setInt B b (RecordPage.offset layout j) RecordPage.EMPTY true = .ok tx₁ := hflag
  unfold RecordPage.formatSlot
  rw [hset]
  exact hrest

theorem Contains.formatFrom (hl : Sound B layout) (hfit : Loggable B fileName (.int 0))
    (hslots : ∀ j < perBlock B layout,
      slots[b * perBlock B layout + j]? = some (blankSlot layout)) {n : ℕ}
    (h : Contains B layout fileName tx slots) (hb : b < tx.size) (hj : j ≤ perBlock B layout)
    (hn : perBlock B layout < n + j) :
    ∃ tx', RecordPage.formatFrom B layout b n tx j = .ok tx' ∧ tx'.size = tx.size ∧
      Contains B layout fileName tx' slots := by
  induction n generalizing tx j with
  | zero => omega
  | succ n ih =>
    rw [RecordPage.formatFrom]
    by_cases hlt : j < perBlock B layout
    · obtain ⟨tx₁, hone, hsize₁, h₁⟩ := h.formatSlot hl hb hlt (hslots j hlt) hfit
      obtain ⟨tx', hrest, hsize', h'⟩ :=
        ih (j := j + 1) h₁ (by rw [hsize₁]; exact hb) hlt (by omega)
      refine ⟨tx', ?_, hsize'.trans hsize₁, h'⟩
      rw [if_pos ((hl.isValidSlot_iff hj).mpr hlt), hone]
      exact hrest
    · refine ⟨tx, ?_, rfl, h⟩
      rw [if_neg (fun hvalid => hlt ((hl.isValidSlot_iff hj).mp hvalid))]

theorem perBlock_le (B : BlockSize) (layout : Layout) : perBlock B layout ≤ B.bytes :=
  Nat.div_le_self _ _

/-- A new block is formatted. -/
theorem Contains.moveToNewBlock (hl : Sound B layout) (h : Contains B layout fileName tx slots)
    (hfit : Loggable B fileName (.int 0)) :
    ∃ tx', TableScan.moveToNewBlock B layout tx = .ok ⟨tx', tx.size, -1⟩ ∧
      tx'.size = tx.size + 1 ∧
      Contains B layout fileName tx' (slots ++ (form hl).emptyBlock) := by
  have hle := perBlock_le B layout
  have hlen : slots.length = tx.size * perBlock B layout := h.stored.length
  have hsize : (tx.append B).size = tx.size + 1 := by
    show (tx.blocks ++ [_]).length = _
    rw [List.length_append]
    rfl
  have hslots : ∀ j < perBlock B layout, (slots ++ (form hl).emptyBlock)[tx.size *
      perBlock B layout + j]? = some (blankSlot layout) := by
    intro j hj
    rw [List.getElem?_append_right (by omega), hlen, Nat.add_sub_cancel_left]
    exact List.getElem?_replicate_of_lt hj
  obtain ⟨tx', hformat, hsize', h'⟩ :=
    Contains.formatFrom hl hfit hslots (j := 0) (n := B.bytes + 2)
    (h.append hl) (by omega) (by omega) (by omega)
  refine ⟨tx', ?_, hsize'.trans hsize, h'⟩
  have hloop : RecordPage.format B layout (tx.append B) tx.size = .ok tx' := hformat
  unfold TableScan.moveToNewBlock
  rw [hloop]
  rfl

end Format

end SampleDB.StoredTables
