import SampleDB.LoggedUpdates

/-!
When an insertion into a table ends. The search for a free slot goes from block to block and adds
one behind the last; a new block is formatted first. Neither the search nor the format compares the
size of a slot with the size of a block: a block without a slot sends the search on for ever, and
positions that wrap lie outside the block.
-/
namespace SampleDB.TableInsertion

open Slices Words Pages Blocks LogRecords Logging Lexer Schemas Rollback Endings RecordPages
open StoredTables LoggedUpdates

/-- The four bytes at a position lie inside a block. -/
def Inside (B : BlockSize) (pos : Int32) : Prop := 0 ≤ pos.toInt ∧ pos.toInt + 4 ≤ B.bytes

instance (B : BlockSize) (pos : Int32) : Decidable (Inside B pos) :=
  inferInstanceAs (Decidable (_ ∧ _))

section Pages

variable {B : BlockSize} {p : Page} {pos : Int32}

theorem splice_zeros (n i k : ℕ) (h : i + k ≤ n) :
    splice (zeroPage n) i (zeroPage k) = zeroPage n := by
  unfold splice zeroPage
  rw [List.length_replicate, List.take_replicate, List.drop_replicate, List.append_assoc,
    List.replicate_append_replicate, List.replicate_append_replicate]
  congr 1
  omega

theorem setInt_zero (h : Inside B pos) :
    (zeroPage B.bytes).setInt pos.toInt 0 = .ok (zeroPage B.bytes) := by
  have hlt := pos.toInt_lt
  obtain ⟨h0, hle⟩ := h
  have hbytes : encodeInt 0 = zeroPage 4 := by decide
  rw [Page.setInt_ok _ _ _ h0 (by rw [zeroPage_length]; exact hle) hlt, hbytes,
    splice_zeros _ _ _ (by omega)]

theorem setString_nil (h : Inside B pos) :
    (zeroPage B.bytes).setString pos.toInt [] = .ok (zeroPage B.bytes) := by
  have hB := B.lt_int
  obtain ⟨h0, hle⟩ := h
  have hbytes : encodeInt (Int32.ofInt (([] : Bytes).length : ℤ)) ++ [] = zeroPage 4 := by decide
  have hlen : pos.toInt + 4 + ([] : Bytes).length ≤ (zeroPage B.bytes).length := by
    rw [zeroPage_length]
    simpa using hle
  unfold Page.setString
  rw [Page.setBytes_ok _ _ _ h0 hlen (by rw [zeroPage_length]; exact hB), hbytes,
    splice_zeros _ _ _ (by omega)]

theorem getInt_zero (h : Inside B pos) : (zeroPage B.bytes).getInt pos.toInt = .ok 0 := by
  have hlt := pos.toInt_lt
  obtain ⟨h0, hle⟩ := h
  have hbytes : slice (zeroPage B.bytes) pos.toInt.toNat 4 = zeroPage 4 := by
    unfold slice zeroPage
    rw [List.drop_replicate, List.take_replicate]
    congr 1
    omega
  have hword : decodeInt (zeroPage 4) = 0 := by decide
  rw [Page.getInt_ok _ _ h0 (by rw [zeroPage_length]; exact hle) hlt, hbytes, hword]

theorem getInt_inside (hp : p.length = B.bytes) (h : Inside B pos) :
    ∃ n, p.getInt pos.toInt = .ok n :=
  ⟨_, Page.getInt_ok p _ h.1 (by rw [hp]; exact h.2) pos.toInt_lt⟩

theorem inside_of_getInt {n : Int32} (hp : p.length = B.bytes) (h : p.getInt pos.toInt = .ok n) :
    Inside B pos := by
  obtain ⟨h0, hle, -⟩ := Page.getInt_eq_ok p _ n pos.toInt_lt h
  rw [hp] at hle
  exact ⟨h0, hle⟩

theorem getInt_ne_exception (p : Page) (offset : ℤ) : p.getInt offset ≠ .error .exception := by
  unfold Page.getInt
  split
  · exact fun h => by cases h
  · split <;> exact fun h => by cases h

/-- A word that was written inside the page is read back. -/
theorem getInt_setInt {q : Page} {n : Int32} (h : p.setInt pos.toInt n = .ok q) :
    q.getInt pos.toInt = .ok n := by
  obtain ⟨h0, hle, hq⟩ := Page.setInt_eq_ok p _ n q pos.toInt_lt h
  have hlen := Page.setInt_length p _ n q pos.toInt_lt h
  have hs := slice_splice_self p pos.toInt.toNat (encodeInt n) (by rw [encodeInt_length]; omega)
  rw [encodeInt_length, ← hq] at hs
  rw [Page.getInt_ok q _ h0 (by omega) pos.toInt_lt, hs, decodeInt_encodeInt]

end Pages

/-- The record of an INT value has a negative size as an `int`. -/
def Throws (fileName : Bytes) : Prop := toInt (fileName.length + 24) < 0

/-- The record of an INT value and its length fit a log block. -/
def FlagFits (B : BlockSize) (fileName : Bytes) : Prop :=
  0 ≤ toInt fileName.length ∧ toInt fileName.length + 28 ≤ B.bytes

/-- A transaction on a file of whole blocks, with a log that can take the next record. -/
structure Ready (B : BlockSize) (fileName : Bytes) (tx : RecordPages.Transaction) : Prop where
  name : tx.fileName = fileName
  log : Usable B tx.log.page
  pages : ∀ p ∈ tx.blocks, p.length = B.bytes

section Log

variable {B : BlockSize} {fileName : Bytes} {tx : RecordPages.Transaction} {blk : ℕ} {p : Page}
  {pos old : Int32}

theorem append_ne_exception (lm : LogMgr) (r : Bytes) : lm.append B r ≠ .error .exception := by
  have hpack : ∀ (lm : LogMgr) (boundary need : ℤ),
      lm.pack boundary need r ≠ .error .exception := by
    intro lm boundary need
    refine bind_ne_exception (setBytes_ne_exception _ _ _) fun page => ?_
    refine bind_ne_exception (setInt_ne_exception _ _ _) fun page => ?_
    exact fun h => by cases h
  refine bind_ne_exception (getInt_ne_exception _ _) fun boundary => ?_
  dsimp only
  split
  · refine bind_ne_exception ?_ fun new => ?_
    · refine bind_ne_exception (setInt_ne_exception _ _ _) fun page => ?_
      exact fun h => by cases h
    · exact bind_ne_exception (getInt_ne_exception _ _) fun boundary => hpack _ _ _
  · exact hpack _ _ _

theorem recordSize_int (n : Int32) :
    recordSize fileName.length (.int n) = (fileName.length : ℤ) + 24 := rfl

theorem throws_iff :
    (record tx.txNum (tx.blockId blk) pos (.int old)).writeToLog = .error .exception ↔
      Throws tx.fileName := by
  rw [writeToLog_exception, recordSize_int]
  exact Iff.rfl

theorem get_int (hold : p.getInt pos.toInt = .ok old) :
    Endings.get p pos .int = .ok (.int old) := by
  show (p.getInt pos.toInt >>= fun n => .ok (Value.int n)) = _
  rw [hold, ok_bind]

theorem logOld_throws (hold : p.getInt pos.toInt = .ok old) (hneg : Throws tx.fileName) :
    tx.logOld B blk p pos .int = .error .exception := by
  unfold RecordPages.Transaction.logOld
  rw [get_int hold, ok_bind, throws_iff.mpr hneg]
  rfl

theorem logOld_ne_exception (hno : ¬ Throws tx.fileName) :
    tx.logOld B blk p pos .int ≠ .error .exception := by
  unfold RecordPages.Transaction.logOld
  cases hget : p.getInt pos.toInt with
  | error e =>
    intro heq
    have hnone : Endings.get p pos .int = .error e := by
      show (p.getInt pos.toInt >>= fun n => .ok (Value.int n)) = _
      rw [hget]
      rfl
    rw [hnone] at heq
    cases heq
    exact getInt_ne_exception _ _ hget
  | ok old =>
    rw [get_int hget, ok_bind]
    refine bind_ne_exception (fun hthr => hno (throws_iff.mp hthr)) fun bytes => ?_
    exact bind_ne_exception (append_ne_exception _ _) fun res heq => by cases heq

/-- A record that fits the log page leaves a log that can take the next one. -/
theorem Ready.logOld_fits (h : Ready B fileName tx) (hold : p.getInt pos.toInt = .ok old)
    (hfits : FlagFits B fileName) :
    ∃ log, tx.logOld B blk p pos .int = .ok log ∧ Usable B log.page := by
  have hB := B.lt_int
  obtain ⟨h0, hfit⟩ := hfits
  have hname := named_length fileName h0
  have hsize := recordLength_named fileName (.int old) h0
  change _ = toInt fileName.length + 24 at hsize
  obtain ⟨bytes, hbytes, hlen⟩ := writeToLog_record (named fileName) tx.txNum
    (Int32.ofInt blk) pos (by omega : recordLength (named fileName) (.int old) < 2147483648)
  rw [← writeToLog_named fileName (Int32.ofInt blk) h0, ← h.name] at hbytes
  change (record tx.txNum (tx.blockId blk) pos (.int old)).writeToLog = .ok bytes at hbytes
  obtain ⟨log, lsn, happend, husable⟩ := h.log.append (r := bytes) (by omega)
  refine ⟨log, ?_, husable⟩
  unfold RecordPages.Transaction.logOld
  rw [get_int hold, ok_bind, hbytes, ok_bind, happend]
  rfl

theorem Ready.fits_of_logOld (h : Ready B fileName tx) {log : LogMgr}
    (hlog : tx.logOld B blk p pos .int = .ok log) :
    (∃ old, p.getInt pos.toInt = .ok old) ∧ FlagFits B fileName := by
  unfold RecordPages.Transaction.logOld at hlog
  obtain ⟨old, hget, hlog⟩ := bind_eq_ok.mp hlog
  obtain ⟨n, hn, hold⟩ := bind_eq_ok.mp hget
  cases hold
  obtain ⟨bytes, hbytes, hlog⟩ := bind_eq_ok.mp hlog
  obtain ⟨⟨log', lsn⟩, happend, -⟩ := bind_eq_ok.mp hlog
  have hnostr : ∀ s, Value.int n = .string s → s.length + 4 < 2147483648 :=
    fun s heq => by cases heq
  obtain ⟨h0, hint, hlen⟩ := writeToLog_ok hnostr hbytes
  have hroom := append_le happend
  rw [h.log.length, toInt_eq _ (by omega) (by omega)] at hroom
  change (bytes.length : ℤ) = toInt tx.fileName.length + 24 at hlen
  rw [h.name] at h0 hlen
  exact ⟨⟨n, hn⟩, h0, by omega⟩

end Log

section Writes

variable {B : BlockSize} {fileName : Bytes} {tx tx' : RecordPages.Transaction} {blk : ℕ} {p : Page}
  {pos val : Int32}

theorem contents_eq (hp : tx.blocks[blk]? = some p) : tx.contents blk = .ok p := by
  unfold RecordPages.Transaction.contents
  rw [hp]

/-- A logged write throws in front of its log record, or replaces the block. -/
theorem Ready.setInt (h : Ready B fileName tx) (val : Int32) (hp : tx.blocks[blk]? = some p)
    (hpos : Inside B pos) :
    (Throws fileName → tx.setInt B blk pos val true = .error .exception) ∧
      (FlagFits B fileName → ∃ log q, p.setInt pos.toInt val = .ok q ∧
        tx.setInt B blk pos val true = .ok { tx with log := log, blocks := tx.blocks.set blk q } ∧
        Ready B fileName { tx with log := log, blocks := tx.blocks.set blk q }) := by
  have hsize := h.pages p (List.mem_of_getElem? hp)
  obtain ⟨old, hold⟩ := getInt_inside hsize hpos
  have hset : ∀ log, tx.logOld B blk p pos .int = log →
      tx.setInt B blk pos val true = log >>= fun log => p.setInt pos.toInt val >>= fun q =>
        .ok { tx with log := log, blocks := tx.blocks.set blk q } := by
    intro log hlog
    unfold RecordPages.Transaction.setInt RecordPages.Transaction.set
    rw [contents_eq hp, ok_bind, ← hlog]
    rfl
  refine ⟨?_, ?_⟩
  · intro hneg
    rw [hset _ (logOld_throws hold (h.name ▸ hneg))]
    rfl
  · intro hfit
    obtain ⟨log, hlog, husable⟩ := h.logOld_fits hold hfit
    have hq := Page.setInt_ok p pos.toInt val hpos.1 (by rw [hsize]; exact hpos.2) pos.toInt_lt
    have hlen := Page.setInt_length p _ val _ pos.toInt_lt hq
    refine ⟨log, _, hq, ?_, h.name, husable, ?_⟩
    · rw [hset _ hlog, ok_bind, hq, ok_bind]
    · intro q' hq'
      rcases List.mem_or_eq_of_mem_set hq' with hmem | rfl
      · exact h.pages q' hmem
      · exact hlen.trans hsize

/-- A logged write that succeeds lies inside the block, and its record fits the log. -/
theorem Ready.setInt_ok (h : Ready B fileName tx) (hp : tx.blocks[blk]? = some p)
    (hset : tx.setInt B blk pos val true = .ok tx') : Inside B pos ∧ FlagFits B fileName := by
  have hsize := h.pages p (List.mem_of_getElem? hp)
  unfold RecordPages.Transaction.setInt RecordPages.Transaction.set at hset
  rw [contents_eq hp, ok_bind] at hset
  obtain ⟨log, hlog, -⟩ := bind_eq_ok.mp hset
  change tx.logOld B blk p pos .int = .ok log at hlog
  obtain ⟨⟨old, hold⟩, hfits⟩ := h.fits_of_logOld hlog
  exact ⟨inside_of_getInt hsize hold, hfits⟩

/-- The blank value of a field leaves a block of zeros as it is. -/
theorem Ready.blank (hp : tx.blocks[blk]? = some (zeroPage B.bytes)) (hpos : Inside B pos) :
    tx.setInt B blk pos 0 false = .ok tx ∧ tx.setString B blk pos [] false = .ok tx := by
  have hself : tx.blocks.set blk (zeroPage B.bytes) = tx.blocks := by
    obtain ⟨hlt, heq⟩ := List.getElem?_eq_some_iff.mp hp
    rw [← heq, List.set_getElem_self]
  unfold RecordPages.Transaction.setInt RecordPages.Transaction.setString
    RecordPages.Transaction.set
  rw [contents_eq hp]
  refine ⟨?_, ?_⟩
  · show ((zeroPage B.bytes).setInt pos.toInt 0 >>= fun q =>
      .ok { tx with log := tx.log, blocks := tx.blocks.set blk q }) = _
    rw [setInt_zero hpos, ok_bind, hself]
  · show ((zeroPage B.bytes).setString pos.toInt [] >>= fun q =>
      .ok { tx with log := tx.log, blocks := tx.blocks.set blk q }) = _
    rw [setString_nil hpos, ok_bind, hself]

end Writes

/-- The valid slots of a block are the first ones, and their flags lie inside it. -/
structure SlotsFit (B : BlockSize) (layout : Layout) (k : ℕ) : Prop where
  pos : 1 ≤ k
  valid : ∀ j < k, RecordPage.isValidSlot B layout j = true
  ends : RecordPage.isValidSlot B layout k = false
  flags : ∀ j < k, Inside B (RecordPage.offset layout j)

/-- The fields of these slots lie inside the block. -/
def FieldsFit (B : BlockSize) (layout : Layout) (k : ℕ) : Prop :=
  ∀ j < k, ∀ f ∈ layout.schema.fields,
    ∃ pos, RecordPage.fieldPos layout j f = .ok pos ∧ Inside B pos

section Slots

variable {B : BlockSize} {layout : Layout} {fileName : Bytes} {k : ℕ}

theorem offset_toInt (layout : Layout) (j : ℤ) :
    (RecordPage.offset layout j).toInt = toInt (j * layout.slotSize.toInt) := rfl

theorem offset_zero (layout : Layout) : (RecordPage.offset layout 0).toInt = 0 := by
  rw [offset_toInt, Int.zero_mul]
  rfl

theorem offset_one (layout : Layout) :
    (RecordPage.offset layout 1).toInt = layout.slotSize.toInt := by
  rw [offset_toInt, Int.one_mul]
  exact toInt_eq _ layout.slotSize.le_toInt layout.slotSize.toInt_lt

/-- Slots of no size are all valid. -/
theorem SlotsFit.slotSize (h : SlotsFit B layout k) (hk : 2 ≤ k) : 1 ≤ layout.slotSize.toInt := by
  have hone : Inside B (RecordPage.offset layout 1) := h.flags 1 (by omega)
  have h0 := hone.1
  rw [offset_one] at h0
  by_contra hlt
  have hsize : layout.slotSize.toInt = 0 := by omega
  have hends := h.ends
  unfold RecordPage.isValidSlot at hends
  rw [offset_toInt, hsize, Int.mul_zero] at hends
  have hzero : toInt 0 = 0 := rfl
  simp only [hzero, decide_eq_false_iff_not] at hends
  omega

/-- The flags of the slots lie one behind the other. -/
theorem SlotsFit.offset (h : SlotsFit B layout k) {j : ℕ} (hj : j < k) :
    (RecordPage.offset layout j).toInt = j * layout.slotSize.toInt := by
  have hB := B.lt_int
  induction j with
  | zero =>
    show (RecordPage.offset layout 0).toInt = 0 * _
    rw [offset_zero, Int.zero_mul]
  | succ j ih =>
    have hprev := ih (by omega)
    have hpos := h.slotSize (by omega)
    have hsize : Inside B (RecordPage.offset layout 1) := h.flags 1 (by omega)
    obtain ⟨hj0, hjle⟩ := h.flags j (by omega)
    obtain ⟨hn0, hnle⟩ := h.flags (j + 1) hj
    have hs := hsize.2
    rw [offset_one] at hs
    rw [hprev] at hj0 hjle
    have hsum : ((j + 1 : ℕ) : ℤ) * layout.slotSize.toInt =
        j * layout.slotSize.toInt + layout.slotSize.toInt := by
      rw [Int.natCast_succ, Int.add_mul, Int.one_mul]
    have hmod := toInt_emod (((j + 1 : ℕ) : ℤ) * layout.slotSize.toInt)
    rw [offset_toInt] at hn0 hnle ⊢
    rw [hsum] at hn0 hnle hmod ⊢
    omega

/-- A block has fewer slots than bytes. -/
theorem SlotsFit.le (h : SlotsFit B layout k) : k ≤ B.bytes := by
  have hpos := h.pos
  have hword := B.word_le
  by_cases h1 : k = 1
  · omega
  · have hoff := h.offset (j := k - 1) (by omega)
    have hsize := h.slotSize (by omega)
    have hin := (h.flags (k - 1) (by omega)).2
    rw [hoff] at hin
    have hmul : ((k - 1 : ℕ) : ℤ) * 1 ≤ ((k - 1 : ℕ) : ℤ) * layout.slotSize.toInt :=
      Int.mul_le_mul_of_nonneg_left hsize (Int.natCast_nonneg _)
    omega

end Slots

/-- The fields of a layout have a type and a position. -/
def Complete (layout : Layout) : Prop := ∀ f ∈ layout.schema.fields,
  (∃ type, layout.fieldType f = .ok type) ∧ ∃ pos, layout.offset f = .ok pos

theorem addFields_complete {fs : List Name} {l l' : Layout}
    (h : fs.foldlM Layout.addField l = .ok l') :
    l'.schema = l.schema ∧ (∀ f, l.offsets f ≠ none → l'.offsets f ≠ none) ∧
      ∀ f ∈ fs, l.schema.fieldInfo f ≠ none ∧ l'.offsets f ≠ none := by
  induction fs generalizing l with
  | nil =>
    cases h
    exact ⟨rfl, fun f hf => hf, fun f hf => by cases hf⟩
  | cons f fs ih =>
    rw [List.foldlM_cons] at h
    obtain ⟨l₁, hadd, h⟩ := bind_eq_ok.mp h
    obtain ⟨length, hlength, hadd⟩ := bind_eq_ok.mp hadd
    cases hadd
    obtain ⟨hschema, hkeep, hall⟩ := ih h
    have hself : l'.offsets f ≠ none := by
      apply hkeep
      dsimp only
      rw [Function.update_self]
      exact fun heq => by cases heq
    refine ⟨hschema, ?_, ?_⟩
    · intro g hg
      apply hkeep
      dsimp only
      by_cases heq : g = f
      · rw [heq, Function.update_self]
        exact fun heq => by cases heq
      · rw [Function.update_of_ne heq]
        exact hg
    · intro g hg
      rcases List.mem_cons.mp hg with rfl | hg
      · refine ⟨?_, hself⟩
        intro hnone
        unfold Layout.lengthInBytes at hlength
        rw [hnone] at hlength
        cases hlength
      · exact hall g hg

theorem complete_new {schema : Schema} {layout : Layout} (h : Layout.new schema = .ok layout) :
    Complete layout := by
  unfold Layout.new at h
  obtain ⟨hschema, -, hall⟩ := addFields_complete h
  intro f hf
  rw [hschema] at hf
  obtain ⟨hinfo, hoffset⟩ := hall f hf
  refine ⟨?_, ?_⟩
  · unfold Layout.fieldType
    rw [hschema]
    cases hcase : schema.fieldInfo f with
    | none => exact absurd hcase hinfo
    | some info => exact ⟨info.type, rfl⟩
  · unfold Layout.offset
    cases hcase : layout.offsets f with
    | none => exact absurd hcase hoffset
    | some pos => exact ⟨pos, rfl⟩

section Format

variable {B : BlockSize} {layout : Layout} {fileName : Bytes} {k blk : ℕ} {p : Page}
  {tx tx' : RecordPages.Transaction}

theorem blankFields (hl : Complete layout) (hp : tx.blocks[blk]? = some (zeroPage B.bytes))
    {j : ℕ} {fs : List Name} (hfs : ∀ f ∈ fs, f ∈ layout.schema.fields)
    (hfits : ∀ f ∈ fs, ∃ pos, RecordPage.fieldPos layout j f = .ok pos ∧ Inside B pos) :
    fs.foldlM (RecordPage.blankField B layout blk j) tx = .ok tx := by
  induction fs with
  | nil => rfl
  | cons f fs ih =>
    obtain ⟨pos, hpos, hin⟩ := hfits f List.mem_cons_self
    obtain ⟨⟨type, htype⟩, -⟩ := hl f (hfs f List.mem_cons_self)
    obtain ⟨hint, hstr⟩ := Ready.blank hp hin
    have hblank : RecordPage.blankField B layout blk j tx f = .ok tx := by
      unfold RecordPage.blankField
      rw [hpos, ok_bind, htype, ok_bind]
      cases type with
      | integer => exact hint
      | boolean => exact hint
      | varchar => exact hstr
    rw [List.foldlM_cons, hblank, ok_bind]
    exact ih (fun g hg => hfs g (List.mem_cons_of_mem f hg))
      (fun g hg => hfits g (List.mem_cons_of_mem f hg))

/-- Formatting a slot of a block of zeros writes to the log only. -/
theorem Ready.formatSlot (h : Ready B fileName tx) (hl : Complete layout)
    (hk : SlotsFit B layout k) (hfields : FieldsFit B layout k) (hfits : FlagFits B fileName)
    (hp : tx.blocks[blk]? = some (zeroPage B.bytes)) {j : ℕ} (hj : j < k) :
    ∃ tx', RecordPage.formatSlot B layout tx blk j = .ok tx' ∧ Ready B fileName tx' ∧
      tx'.blocks = tx.blocks := by
  obtain ⟨log, q, hq, hset, hready⟩ := (h.setInt 0 hp (hk.flags j hj)).2 hfits
  rw [setInt_zero (hk.flags j hj)] at hq
  cases hq
  have hself : tx.blocks.set blk (zeroPage B.bytes) = tx.blocks := by
    obtain ⟨hlt, heq⟩ := List.getElem?_eq_some_iff.mp hp
    rw [← heq, List.set_getElem_self]
  rw [hself] at hset hready
  refine ⟨_, ?_, hready, rfl⟩
  unfold RecordPage.formatSlot
  have hflag : tx.setInt B blk (RecordPage.offset layout j) RecordPage.EMPTY true = _ := hset
  rw [hflag, ok_bind]
  have hp' : ({ tx with log := log } : RecordPages.Transaction).blocks[blk]? =
    some (zeroPage B.bytes) := hp
  exact blankFields hl hp' (fun f hf => hf) (hfields j hj)

theorem Ready.formatFrom (hl : Complete layout) (hk : SlotsFit B layout k)
    (hfields : FieldsFit B layout k) (hfits : FlagFits B fileName) {n j : ℕ} (hj : j ≤ k)
    (hn : k - j < n) {tx : RecordPages.Transaction} (h : Ready B fileName tx)
    (hp : tx.blocks[blk]? = some (zeroPage B.bytes)) :
    ∃ tx', RecordPage.formatFrom B layout blk n tx j = .ok tx' ∧ Ready B fileName tx' ∧
      tx'.blocks = tx.blocks := by
  induction n generalizing j tx with
  | zero => omega
  | succ n ih =>
    unfold RecordPage.formatFrom
    by_cases hlt : j < k
    · obtain ⟨tx₁, hslot, hready, hblocks⟩ := h.formatSlot hl hk hfields hfits hp hlt
      rw [if_pos (hk.valid j hlt), hslot, ok_bind]
      obtain ⟨tx₂, hfrom, hready₂, hblocks₂⟩ := ih (j := j + 1) (by omega) (by omega) hready
        (by rw [hblocks]; exact hp)
      exact ⟨tx₂, hfrom, hready₂, hblocks₂.trans hblocks⟩
    · obtain rfl : j = k := by omega
      rw [if_neg (by rw [hk.ends]; decide)]
      exact ⟨tx, rfl, h, rfl⟩

theorem Ready.format (h : Ready B fileName tx) (hl : Complete layout) (hk : SlotsFit B layout k)
    (hfields : FieldsFit B layout k) (hfits : FlagFits B fileName)
    (hp : tx.blocks[blk]? = some (zeroPage B.bytes)) :
    ∃ tx', RecordPage.format B layout tx blk = .ok tx' ∧ Ready B fileName tx' ∧
      tx'.blocks = tx.blocks := by
  have hle := hk.le
  exact Ready.formatFrom (j := 0) hl hk hfields hfits (by omega) (by omega) h hp

theorem Ready.format_throws (h : Ready B fileName tx) (hk : SlotsFit B layout k)
    (hneg : Throws fileName) (hp : tx.blocks[blk]? = some p) :
    RecordPage.format B layout tx blk = .error .exception := by
  have hpos := hk.pos
  have hflag := (h.setInt RecordPage.EMPTY hp (hk.flags 0 (by omega))).1 hneg
  have hvalid : RecordPage.isValidSlot B layout 0 = true := hk.valid 0 (by omega)
  unfold RecordPage.format RecordPage.formatFrom
  rw [if_pos hvalid]
  unfold RecordPage.formatSlot
  have hset : tx.setInt B blk (RecordPage.offset layout 0) RecordPage.EMPTY true = _ := hflag
  rw [hset]
  rfl

/-- A write that is not logged stays inside the block when it succeeds. -/
theorem Ready.unlogged (h : Ready B fileName tx) (hp : tx.blocks[blk]? = some p) {pos : Int32}
    {val : Value} (hset : tx.set B blk pos val false = .ok tx') :
    Inside B pos ∧ Ready B fileName tx' ∧ ∃ q, tx'.blocks[blk]? = some q := by
  have hsize := h.pages p (List.mem_of_getElem? hp)
  unfold RecordPages.Transaction.set at hset
  rw [contents_eq hp, ok_bind] at hset
  obtain ⟨log, hlog, hset⟩ := bind_eq_ok.mp hset
  cases hlog
  obtain ⟨q, hq, hset⟩ := bind_eq_ok.mp hset
  cases hset
  have hroom : Inside B pos ∧ q.length = p.length := by
    cases val with
    | int n =>
      obtain ⟨h0, hle, -⟩ := Page.setInt_eq_ok p _ n q pos.toInt_lt hq
      exact ⟨⟨h0, by omega⟩, Page.setInt_length p _ n q pos.toInt_lt hq⟩
    | string s =>
      obtain ⟨h0, hlen, hle⟩ := setBytes_room p _ s q pos.toInt_lt hq
      exact ⟨⟨h0, by omega⟩, Page.setBytes_length p _ s q pos.toInt_lt hq⟩
  have hlt := (List.getElem?_eq_some_iff.mp hp).1
  refine ⟨hroom.1, ⟨h.name, h.log, ?_⟩, q, List.getElem?_set_self hlt⟩
  intro q' hq'
  rcases List.mem_or_eq_of_mem_set hq' with hmem | rfl
  · exact h.pages q' hmem
  · exact hroom.2.trans hsize

/-- The fields that were blanked lie inside the block. -/
theorem Ready.blankFields_ok {j : ℕ} {fs : List Name} (h : Ready B fileName tx)
    (hp : tx.blocks[blk]? = some p)
    (hok : fs.foldlM (RecordPage.blankField B layout blk j) tx = .ok tx') :
    Ready B fileName tx' ∧ (∃ q, tx'.blocks[blk]? = some q) ∧
      ∀ f ∈ fs, ∃ pos, RecordPage.fieldPos layout j f = .ok pos ∧ Inside B pos := by
  induction fs generalizing tx p with
  | nil =>
    cases hok
    exact ⟨h, ⟨p, hp⟩, fun f hf => by cases hf⟩
  | cons f fs ih =>
    rw [List.foldlM_cons] at hok
    obtain ⟨tx₁, hblank, hok⟩ := bind_eq_ok.mp hok
    obtain ⟨pos, hpos, hblank⟩ := bind_eq_ok.mp hblank
    obtain ⟨type, -, hblank⟩ := bind_eq_ok.mp hblank
    have hset : ∃ val, tx.set B blk pos val false = .ok tx₁ := by
      cases type with
      | integer => exact ⟨_, hblank⟩
      | boolean => exact ⟨_, hblank⟩
      | varchar => exact ⟨_, hblank⟩
    obtain ⟨val, hset⟩ := hset
    obtain ⟨hin, hready, q, hq⟩ := h.unlogged hp hset
    obtain ⟨hready', hpage, hall⟩ := ih hready hq hok
    refine ⟨hready', hpage, ?_⟩
    intro g hg
    rcases List.mem_cons.mp hg with rfl | hg
    · exact ⟨pos, hpos, hin⟩
    · exact hall g hg

/-- A slot that was formatted lies inside the block, and its flag was logged. -/
theorem Ready.formatSlot_ok {j : ℕ} (h : Ready B fileName tx) (hp : tx.blocks[blk]? = some p)
    (hok : RecordPage.formatSlot B layout tx blk j = .ok tx') :
    Ready B fileName tx' ∧ (∃ q, tx'.blocks[blk]? = some q) ∧
      Inside B (RecordPage.offset layout j) ∧ FlagFits B fileName ∧
      ∀ f ∈ layout.schema.fields, ∃ pos, RecordPage.fieldPos layout j f = .ok pos ∧
        Inside B pos := by
  unfold RecordPage.formatSlot at hok
  obtain ⟨tx₁, hset, hok⟩ := bind_eq_ok.mp hok
  obtain ⟨hin, hfits⟩ := h.setInt_ok hp hset
  obtain ⟨log, q, -, hset', hready⟩ := (h.setInt RecordPage.EMPTY hp hin).2 hfits
  cases hset.symm.trans hset'
  have hlt := (List.getElem?_eq_some_iff.mp hp).1
  obtain ⟨hready', hpage, hall⟩ :=
    hready.blankFields_ok (p := q) (List.getElem?_set_self hlt) hok
  exact ⟨hready', hpage, hin, hfits, hall⟩

/-- The slots that were formatted, up to the first that is not valid. -/
theorem Ready.formatFrom_ok {n j : ℕ} (h : Ready B fileName tx) (hp : tx.blocks[blk]? = some p)
    (hok : RecordPage.formatFrom B layout blk n tx j = .ok tx') :
    ∃ k, j ≤ k ∧ RecordPage.isValidSlot B layout k = false ∧ ∀ i, j ≤ i → i < k →
      RecordPage.isValidSlot B layout i = true ∧ Inside B (RecordPage.offset layout i) ∧
      FlagFits B fileName ∧ ∀ f ∈ layout.schema.fields, ∃ pos,
        RecordPage.fieldPos layout i f = .ok pos ∧ Inside B pos := by
  induction n generalizing j tx p with
  | zero => cases hok
  | succ n ih =>
    unfold RecordPage.formatFrom at hok
    cases hvalid : RecordPage.isValidSlot B layout j with
    | false =>
      exact ⟨j, Nat.le_refl j, hvalid, fun i hi hlt => by omega⟩
    | true =>
      rw [if_pos hvalid] at hok
      obtain ⟨tx₁, hslot, hok⟩ := bind_eq_ok.mp hok
      obtain ⟨hready, ⟨q, hq⟩, hin⟩ := h.formatSlot_ok hp hslot
      obtain ⟨k, hk, hend, hall⟩ := ih (j := j + 1) hready hq hok
      refine ⟨k, by omega, hend, ?_⟩
      intro i hi hlt
      by_cases heq : i = j
      · rw [heq]
        exact ⟨hvalid, hin⟩
      · exact hall i (by omega) hlt

/-- A step of a transaction on this file that does not throw. -/
structure Quiet (fileName : Bytes) (r : Result RecordPages.Transaction) : Prop where
  ne_exception : r ≠ .error .exception
  name : ∀ tx, r = .ok tx → tx.fileName = fileName

theorem Quiet.ok (h : tx.fileName = fileName) : Quiet fileName (.ok tx) :=
  ⟨fun heq => (by cases heq), fun tx' heq => (by cases heq; exact h)⟩

theorem Quiet.outside : Quiet fileName (.error .outside) :=
  ⟨fun heq => (by cases heq), fun tx' heq => (by cases heq)⟩

theorem Quiet.bind {r : Result RecordPages.Transaction}
    {f : RecordPages.Transaction → Result RecordPages.Transaction} (h : Quiet fileName r)
    (hf : ∀ tx, tx.fileName = fileName → Quiet fileName (f tx)) : Quiet fileName (r >>= f) := by
  cases hr : r with
  | error e =>
    refine ⟨fun heq => ?_, fun tx heq => (by cases heq)⟩
    cases heq
    exact h.ne_exception hr
  | ok tx => exact hf tx (h.name tx hr)

theorem quiet_set {pos : Int32} {val : Value} {okToLog : Bool}
    (hlog : ∀ p, tx.logUpdate B blk p pos (kind val) okToLog ≠ .error .exception) :
    Quiet tx.fileName (tx.set B blk pos val okToLog) := by
  have hcontents : tx.contents blk ≠ .error .exception := by
    unfold RecordPages.Transaction.contents
    split <;> exact fun h => by cases h
  have hset : ∀ p : Page, Endings.set p pos val ≠ .error .exception := by
    intro p
    cases val with
    | int n => exact setInt_ne_exception _ _ _
    | string s => exact setBytes_ne_exception _ _ _
  refine ⟨?_, ?_⟩
  · refine bind_ne_exception hcontents fun p => ?_
    refine bind_ne_exception (hlog p) fun log => ?_
    exact bind_ne_exception (hset p) fun q h => by cases h
  · intro tx' h
    obtain ⟨p, -, h⟩ := bind_eq_ok.mp h
    obtain ⟨log, -, h⟩ := bind_eq_ok.mp h
    obtain ⟨q, -, h⟩ := bind_eq_ok.mp h
    cases h
    rfl

theorem quiet_unlogged {pos : Int32} {val : Value} :
    Quiet tx.fileName (tx.set B blk pos val false) :=
  quiet_set fun p h => by cases h

theorem quiet_flag (hno : ¬ Throws tx.fileName) {pos val : Int32} :
    Quiet tx.fileName (tx.setInt B blk pos val true) :=
  quiet_set fun _ => logOld_ne_exception hno

theorem quiet_blankFields (hl : Complete layout) {j : ℕ} {fs : List Name}
    (hfs : ∀ f ∈ fs, f ∈ layout.schema.fields) (hname : tx.fileName = fileName) :
    Quiet fileName (fs.foldlM (RecordPage.blankField B layout blk j) tx) := by
  induction fs generalizing tx with
  | nil => exact Quiet.ok hname
  | cons f fs ih =>
    rw [List.foldlM_cons]
    refine Quiet.bind ?_ fun tx' hname' => ih (fun g hg => hfs g (List.mem_cons_of_mem f hg)) hname'
    obtain ⟨⟨type, htype⟩, pos, hpos⟩ := hl f (hfs f List.mem_cons_self)
    unfold RecordPage.blankField RecordPage.fieldPos
    rw [hpos, ok_bind, htype, ← hname]
    cases type with
    | integer => exact quiet_unlogged
    | boolean => exact quiet_unlogged
    | varchar => exact quiet_unlogged

/-- With a log record that can be made, nothing in a format throws. -/
theorem quiet_formatFrom (hl : Complete layout) {n j : ℕ} (hname : tx.fileName = fileName)
    (hno : ¬ Throws fileName) : Quiet fileName (RecordPage.formatFrom B layout blk n tx j) := by
  induction n generalizing tx j with
  | zero => exact Quiet.outside
  | succ n ih =>
    unfold RecordPage.formatFrom
    split
    · refine Quiet.bind ?_ fun tx' hname' => ih (j := j + 1) hname'
      unfold RecordPage.formatSlot
      refine Quiet.bind ?_ fun tx' hname' => quiet_blankFields hl (fun f hf => hf) hname'
      rw [← hname] at hno ⊢
      exact quiet_flag hno
    · exact Quiet.ok hname

end Format

section Search

variable {B : BlockSize} {layout : Layout} {fileName : Bytes} {k blk : ℕ} {p : Page}
  {tx : RecordPages.Transaction} {flag : Int32}

theorem getInt_eq (hp : tx.blocks[blk]? = some p) (pos : Int32) :
    tx.getInt blk pos = p.getInt pos.toInt := by
  unfold RecordPages.Transaction.getInt
  rw [contents_eq hp, ok_bind]

theorem searchFrom_first {j n : ℕ} (hvalid : RecordPage.isValidSlot B layout j = true)
    (hflag : tx.getInt blk (RecordPage.offset layout j) = .ok flag) :
    RecordPage.searchFrom B layout tx blk flag (n + 1) j = .ok j := by
  unfold RecordPage.searchFrom
  rw [if_pos hvalid, hflag, ok_bind, if_pos rfl]
  rfl

theorem SlotsFit.searchFrom (hk : SlotsFit B layout k) (hp : tx.blocks[blk]? = some p)
    (hsize : p.length = B.bytes) {n j : ℕ} (hj : j ≤ k) (hn : k - j < n) :
    RecordPage.searchFrom B layout tx blk flag n j = .ok (-1) ∨
      ∃ i : ℕ, i < k ∧ RecordPage.searchFrom B layout tx blk flag n j = .ok i ∧
        tx.getInt blk (RecordPage.offset layout i) = .ok flag := by
  induction n generalizing j with
  | zero => omega
  | succ n ih =>
    unfold RecordPage.searchFrom
    by_cases hlt : j < k
    · obtain ⟨found, hfound⟩ := getInt_inside hsize (hk.flags j hlt)
      rw [← getInt_eq hp] at hfound
      rw [if_pos (hk.valid j hlt), hfound, ok_bind]
      by_cases heq : found = flag
      · rw [if_pos heq]
        exact Or.inr ⟨j, hlt, rfl, hfound.trans (by rw [heq])⟩
      · rw [if_neg heq]
        exact ih (j := j + 1) (by omega) (by omega)
    · obtain rfl : j = k := by omega
      rw [if_neg (by rw [hk.ends]; decide)]
      exact Or.inl rfl

theorem searchFrom_ne_exception {n : ℕ} {j : ℤ} :
    RecordPage.searchFrom B layout tx blk flag n j ≠ .error .exception := by
  induction n generalizing j with
  | zero => exact fun h => by cases h
  | succ n ih =>
    unfold RecordPage.searchFrom
    split
    · refine bind_ne_exception ?_ fun found => ?_
      · unfold RecordPages.Transaction.getInt RecordPages.Transaction.contents
        refine bind_ne_exception ?_ fun p => getInt_ne_exception _ _
        split <;> exact fun h => by cases h
      · split
        · exact fun h => by cases h
        · exact ih
    · exact fun h => by cases h

/-- A search through slots that are all taken has read their flags. -/
theorem searchFrom_full (hp : tx.blocks[blk]? = some p) (hsize : p.length = B.bytes)
    (hfull : ∀ pos, Inside B pos → p.getInt pos.toInt ≠ .ok flag) {n j : ℕ} {s : ℤ}
    (hok : RecordPage.searchFrom B layout tx blk flag n j = .ok s) :
    ∃ k, j ≤ k ∧ RecordPage.isValidSlot B layout k = false ∧ ∀ i, j ≤ i → i < k →
      RecordPage.isValidSlot B layout i = true ∧ Inside B (RecordPage.offset layout i) := by
  induction n generalizing j with
  | zero => cases hok
  | succ n ih =>
    unfold RecordPage.searchFrom at hok
    cases hvalid : RecordPage.isValidSlot B layout j with
    | false => exact ⟨j, Nat.le_refl j, hvalid, fun i hi hlt => by omega⟩
    | true =>
      rw [if_pos hvalid] at hok
      obtain ⟨found, hfound, hok⟩ := bind_eq_ok.mp hok
      rw [getInt_eq hp] at hfound
      have hin := inside_of_getInt hsize hfound
      by_cases heq : found = flag
      · rw [heq] at hfound
        exact absurd hfound (hfull _ hin)
      · rw [if_neg heq] at hok
        obtain ⟨k, hk, hend, hall⟩ := ih (j := j + 1) hok
        refine ⟨k, by omega, hend, ?_⟩
        intro i hi hlt
        by_cases hij : i = j
        · rw [hij]
          exact ⟨hvalid, hin⟩
        · exact hall i (by omega) hlt

end Search

/-- A scan in front of its block or at one of the slots that a search comes to. -/
def At (B : BlockSize) (layout : Layout) (slot : ℤ) : Prop :=
  ∃ j : ℕ, slot + 1 = j ∧ ∀ i < j, RecordPage.isValidSlot B layout i = true

/-- The scan is at a slot that was free, or is in a new block, and that is used now. At most
one block is new. -/
structure Claims (B : BlockSize) (layout : Layout) (tx : RecordPages.Transaction)
    (ts : RecordPages.TableScan) : Prop where
  slot : 0 ≤ ts.currentSlot
  valid : RecordPage.isValidSlot B layout ts.currentSlot = true
  free : ts.block < tx.size →
    tx.getInt ts.block (RecordPage.offset layout ts.currentSlot) = .ok RecordPage.EMPTY
  used : ts.tx.getInt ts.block (RecordPage.offset layout ts.currentSlot) = .ok RecordPage.USED
  size : ts.tx.size ≤ tx.size + 1

/-- With enough rounds for its loop, the insertion claims a slot or throws. -/
def Ends (B : BlockSize) (layout : Layout) (tx : RecordPages.Transaction)
    (insert : ℕ → Result RecordPages.TableScan) : Prop :=
  ∃ n, insert n = .error .exception ∨ ∃ ts, insert n = .ok ts ∧ Claims B layout tx ts

/-- Insertions into the table of this file end, in an empty file, which the constructor extends,
and from every place in a file of any blocks. -/
def InsertEnds (B : BlockSize) (layout : Layout) (fileName : Bytes) : Prop :=
  ∀ tx, Ready B fileName tx →
    (tx.size = 0 → Ends B layout tx fun n =>
      RecordPages.TableScan.new B layout tx >>= RecordPages.TableScan.insertFrom B layout n) ∧
    ∀ blk slot, blk < tx.size → At B layout slot →
      Ends B layout tx fun n => RecordPages.TableScan.insertFrom B layout n ⟨tx, blk, slot⟩

/-- A block has a slot, all its slots lie inside, and their flags can be logged; or the record of
a flag throws. -/
def Takes (B : BlockSize) (layout : Layout) (fileName : Bytes) : Prop :=
  ∃ k, SlotsFit B layout k ∧ (Throws fileName ∨ FlagFits B fileName ∧ FieldsFit B layout k)

section Insert

variable {B : BlockSize} {layout : Layout} {fileName : Bytes} {k blk : ℕ} {p : Page}
  {tx tx' : RecordPages.Transaction}

/-- The flag of a slot that was found is set, unless its log record throws. -/
theorem Ready.claim (h : Ready B fileName tx) (hk : SlotsFit B layout k)
    (hlog : Throws fileName ∨ FlagFits B fileName) (hp : tx.blocks[blk]? = some p) {slot : ℤ}
    {i : ℕ} (hi : i < k)
    (hfound : RecordPage.searchAfter B layout tx blk slot RecordPage.EMPTY = .ok i) :
    RecordPage.insertAfter B layout tx blk slot = .error .exception ∨
      ∃ tx', RecordPage.insertAfter B layout tx blk slot = .ok (i, tx') ∧
        tx'.getInt blk (RecordPage.offset layout i) = .ok RecordPage.USED ∧ tx'.size = tx.size := by
  have hlt := (List.getElem?_eq_some_iff.mp hp).1
  obtain ⟨hthrows, hfits⟩ := h.setInt RecordPage.USED hp (hk.flags i hi)
  unfold RecordPage.insertAfter
  rw [hfound, ok_bind, if_pos (Int.natCast_nonneg i)]
  rcases hlog with hneg | hfit
  · left
    have hset : RecordPage.setFlag B layout tx blk i RecordPage.USED = _ := hthrows hneg
    rw [hset]
    rfl
  · right
    obtain ⟨log, q, hq, hset, -⟩ := hfits hfit
    have hflag : RecordPage.setFlag B layout tx blk i RecordPage.USED = _ := hset
    refine ⟨{ tx with log := log, blocks := tx.blocks.set blk q }, by rw [hflag]; rfl, ?_,
      List.length_set⟩
    rw [getInt_eq (p := q) (List.getElem?_set_self hlt)]
    exact getInt_setInt hq

/-- The first slot of a new block is claimed. -/
theorem Ready.insert_new (h : Ready B fileName tx) (hk : SlotsFit B layout k)
    (hlog : Throws fileName ∨ FlagFits B fileName)
    (hp : tx.blocks[blk]? = some (zeroPage B.bytes)) (n : ℕ) :
    RecordPages.TableScan.insertFrom B layout (n + 1) ⟨tx, blk, -1⟩ = .error .exception ∨
      ∃ tx', RecordPages.TableScan.insertFrom B layout (n + 1) ⟨tx, blk, -1⟩ =
          .ok ⟨tx', blk, 0⟩ ∧
        tx'.getInt blk (RecordPage.offset layout 0) = .ok RecordPage.USED ∧ tx'.size = tx.size := by
  have hpos : 0 < k := hk.pos
  have hflag : tx.getInt blk (RecordPage.offset layout (0 : ℕ)) = .ok RecordPage.EMPTY := by
    rw [getInt_eq hp]
    exact getInt_zero (hk.flags 0 hpos)
  have hfound : RecordPage.searchAfter B layout tx blk (-1) RecordPage.EMPTY = .ok (0 : ℕ) :=
    searchFrom_first (hk.valid 0 hpos) hflag
  unfold RecordPages.TableScan.insertFrom
  dsimp only
  rcases h.claim hk hlog hp hpos hfound with hthrow | ⟨tx', hinsert, hused, hsize⟩
  · left
    rw [hthrow]
    rfl
  · right
    refine ⟨tx', ?_, hused, hsize⟩
    rw [hinsert, ok_bind]
    rfl

theorem append_last (tx : RecordPages.Transaction) :
    (tx.append B).blocks[tx.size]? = some (zeroPage B.bytes) :=
  List.getElem?_concat_length

theorem Ready.append (h : Ready B fileName tx) : Ready B fileName (tx.append B) := by
  refine ⟨h.name, h.log, ?_⟩
  intro p hp
  rcases List.mem_append.mp hp with hmem | hlast
  · exact h.pages p hmem
  · rw [List.mem_singleton.mp hlast]
    exact zeroPage_length _

/-- A new block is formatted, and its first slot is claimed. -/
theorem Ready.moveToNewBlock (h : Ready B fileName tx) (hl : Complete layout)
    (hk : SlotsFit B layout k)
    (hlog : Throws fileName ∨ FlagFits B fileName ∧ FieldsFit B layout k) (n : ℕ) :
    (RecordPages.TableScan.moveToNewBlock B layout tx >>=
        RecordPages.TableScan.insertFrom B layout (n + 1)) = .error .exception ∨
      ∃ ts, (RecordPages.TableScan.moveToNewBlock B layout tx >>=
        RecordPages.TableScan.insertFrom B layout (n + 1)) = .ok ts ∧ Claims B layout tx ts := by
  have hready := h.append
  have hlast := append_last (B := B) tx
  unfold RecordPages.TableScan.moveToNewBlock
  rcases hlog with hneg | ⟨hfits, hfields⟩
  · left
    rw [hready.format_throws hk hneg hlast]
    rfl
  · obtain ⟨tx₁, hformat, hready₁, hblocks⟩ := hready.format hl hk hfields hfits hlast
    rw [hformat]
    have hlast₁ : tx₁.blocks[tx.size]? = some (zeroPage B.bytes) := by rw [hblocks]; exact hlast
    rcases hready₁.insert_new hk (Or.inr hfits) hlast₁ n with hthrow | ⟨tx', hinsert, hused, hsize⟩
    · exact Or.inl hthrow
    · refine Or.inr ⟨⟨tx', tx.size, 0⟩, hinsert, Int.le_refl 0, hk.valid 0 hk.pos, ?_, hused, ?_⟩
      · intro hlt
        exact absurd hlt (Nat.lt_irrefl _)
      · have hlen : tx₁.size = tx.size + 1 := by
          show tx₁.blocks.length = _
          rw [hblocks]
          exact List.length_append
        exact Nat.le_of_eq (hsize.trans hlen)

/-- A round that finds no slot goes on in another block. -/
theorem insertFrom_none {slot : ℤ} {n : ℕ}
    (hinsert : RecordPage.insertAfter B layout tx blk slot = .ok (-1, tx)) :
    RecordPages.TableScan.insertFrom B layout (n + 1) ⟨tx, blk, slot⟩ =
      RecordPages.TableScan.moveOn B layout ⟨tx, blk, slot⟩ >>=
        RecordPages.TableScan.insertFrom B layout n := by
  rw [RecordPages.TableScan.insertFrom]
  simp only [hinsert, ok_bind]
  rfl

theorem moveOn_last {slot : ℤ} (h : blk + 1 = tx.size) :
    RecordPages.TableScan.moveOn B layout ⟨tx, blk, slot⟩ =
      RecordPages.TableScan.moveToNewBlock B layout tx := by
  have hat : RecordPages.TableScan.atEndOfBlock ⟨tx, blk, slot⟩ = true :=
    decide_eq_true (by dsimp only; omega)
  unfold RecordPages.TableScan.moveOn
  rw [hat]
  rfl

theorem moveOn_next {slot : ℤ} (h : blk + 1 ≠ tx.size) :
    RecordPages.TableScan.moveOn B layout ⟨tx, blk, slot⟩ = .ok ⟨tx, blk + 1, -1⟩ := by
  have hat : RecordPages.TableScan.atEndOfBlock ⟨tx, blk, slot⟩ = false :=
    decide_eq_false (by dsimp only; omega)
  unfold RecordPages.TableScan.moveOn
  rw [hat]
  rfl

/-- The search goes through the blocks from here to the last, and adds one behind it. -/
theorem Ready.insertFrom (h : Ready B fileName tx) (hl : Complete layout)
    (hk : SlotsFit B layout k)
    (hlog : Throws fileName ∨ FlagFits B fileName ∧ FieldsFit B layout k) {slot : ℤ}
    (hblk : blk < tx.size) (hat : At B layout slot) :
    Ends B layout tx fun n => RecordPages.TableScan.insertFrom B layout n ⟨tx, blk, slot⟩ := by
  have hlog' : Throws fileName ∨ FlagFits B fileName := hlog.imp_right And.left
  have hfuel := hk.le
  induction hd : tx.size - blk generalizing blk slot with
  | zero => omega
  | succ d ih =>
    obtain ⟨j, hj, hvalid⟩ := hat
    have hjk : j ≤ k := by
      by_contra hlt
      have hends := hvalid k (by omega)
      rw [hk.ends] at hends
      cases hends
    have hp : tx.blocks[blk]? = some tx.blocks[blk] := List.getElem?_eq_getElem hblk
    have hsize := h.pages _ (List.getElem_mem hblk)
    have hsearch := @SlotsFit.searchFrom B layout k blk _ tx RecordPage.EMPTY hk hp hsize
      (B.bytes + 2) j
      hjk (by omega)
    rw [← hj] at hsearch
    rcases hsearch with hnone | ⟨i, hi, hfound, hfree⟩
    · have hinsert : RecordPage.insertAfter B layout tx blk slot = .ok (-1, tx) := by
        unfold RecordPage.insertAfter RecordPage.searchAfter
        rw [hnone]
        rfl
      by_cases hend : blk + 1 = tx.size
      · refine ⟨2, ?_⟩
        dsimp only
        rw [insertFrom_none hinsert, moveOn_last hend]
        exact h.moveToNewBlock hl hk hlog 0
      · obtain ⟨n, hn⟩ := @ih (blk + 1) (-1) (by omega)
          ⟨0, rfl, fun i hi => by omega⟩ (by omega)
        refine ⟨n + 1, ?_⟩
        dsimp only
        rw [insertFrom_none hinsert, moveOn_next hend]
        exact hn
    · refine ⟨1, ?_⟩
      dsimp only
      rw [RecordPages.TableScan.insertFrom]
      dsimp only
      rcases h.claim hk hlog' hp hi hfound with hthrow | ⟨tx', hinsert, hused, hlen⟩
      · left
        rw [hthrow]
        rfl
      · right
        refine ⟨⟨tx', blk, i⟩, ?_, Int.natCast_nonneg i, hk.valid i hi, fun _ => hfree, hused, ?_⟩
        · rw [hinsert, ok_bind]
          dsimp only
          rw [if_pos (Int.natCast_nonneg i)]
          rfl
        · dsimp only
          omega

theorem insertEnds_of_takes (hl : Complete layout) (h : Takes B layout fileName) :
    InsertEnds B layout fileName := by
  obtain ⟨k, hk, hlog⟩ := h
  intro tx hready
  refine ⟨?_, ?_⟩
  · intro hempty
    refine ⟨1, ?_⟩
    unfold RecordPages.TableScan.new
    rw [if_pos hempty]
    exact hready.moveToNewBlock hl hk hlog 0
  · intro blk slot hblk hat
    exact hready.insertFrom hl hk hlog hblk hat

/-- Without a valid slot the search never ends. -/
theorem insertFrom_outside (h0 : RecordPage.isValidSlot B layout 0 = false) (n : ℕ) :
    RecordPages.TableScan.insertFrom B layout n ⟨tx, blk, -1⟩ = .error .outside := by
  induction n generalizing tx blk with
  | zero => rfl
  | succ n ih =>
    have hinsert : RecordPage.insertAfter B layout tx blk (-1) = .ok (-1, tx) := by
      unfold RecordPage.insertAfter RecordPage.searchAfter RecordPage.searchFrom
      rw [if_neg (by rw [show ((-1 : ℤ) + 1) = 0 from rfl, h0]; decide)]
      rfl
    rw [insertFrom_none hinsert]
    by_cases hend : blk + 1 = tx.size
    · rw [moveOn_last hend]
      unfold RecordPages.TableScan.moveToNewBlock RecordPage.format RecordPage.formatFrom
      rw [if_neg (by rw [h0]; decide)]
      exact ih
    · rw [moveOn_next hend]
      exact ih

/-- A block that a search finds full. -/
def fullPage (B : BlockSize) : Page := List.replicate B.bytes 1

theorem getInt_fullPage {pos : Int32} (h : Inside B pos) :
    (fullPage B).getInt pos.toInt ≠ .ok RecordPage.EMPTY := by
  have hbytes : slice (fullPage B) pos.toInt.toNat 4 = [1, 1, 1, 1] := by
    obtain ⟨h0, hle⟩ := h
    unfold slice fullPage
    rw [List.drop_replicate, List.take_replicate, Nat.min_eq_left (by omega)]
    rfl
  intro hget
  obtain ⟨-, -, hword⟩ := Page.getInt_eq_ok _ _ _ pos.toInt_lt hget
  rw [hbytes] at hword
  exact absurd hword (by decide)

theorem exists_ready (B : BlockSize) (fileName : Bytes) (blocks : List Page)
    (h : ∀ p ∈ blocks, p.length = B.bytes) :
    ∃ tx, Ready B fileName tx ∧ tx.blocks = blocks := by
  obtain ⟨lm, -, hinv, -, -⟩ := LogState.new_nil B
  have hpage := hinv.page_holds
  have hroom := hpage.room
  refine ⟨⟨1, fileName, lm, blocks⟩, ⟨rfl, ⟨hpage.size, _, hpage.boundary, ?_⟩, h⟩, rfl⟩
  rw [hpage.boundary_toInt]
  omega

/-- An insertion that ends in an error throws. -/
theorem eq_exception {r : Result RecordPages.TableScan} {e : Fault}
    (h : r = .error .exception ∨ ∃ ts, r = .ok ts ∧ Claims B layout tx ts)
    (hr : r = .error e) : e = .exception := by
  rcases h with hthrow | ⟨ts, hok, -⟩
  · cases hr.symm.trans hthrow
    rfl
  · cases hr.symm.trans hok

theorem not_ends_outside {r : Result RecordPages.TableScan}
    (h : r = .error .exception ∨ ∃ ts, r = .ok ts ∧ Claims B layout tx ts) :
    r ≠ .error .outside := by
  intro hr
  cases eq_exception h hr

/-- The insertion behind a full block comes to the flags of all slots. -/
theorem slotsFit_of_full (h : InsertEnds B layout fileName) : ∃ k, SlotsFit B layout k := by
  obtain ⟨tx, hready, hblocks⟩ := exists_ready B fileName [fullPage B]
    (fun p hp => by rw [List.mem_singleton.mp hp]; exact List.length_replicate)
  have hp : tx.blocks[0]? = some (fullPage B) := by rw [hblocks]; rfl
  have hblk : 0 < tx.size := (List.getElem?_eq_some_iff.mp hp).1
  obtain ⟨n, hn⟩ := (h tx hready).2 0 (-1) hblk ⟨0, rfl, fun i hi => by omega⟩
  dsimp only at hn
  have hsearch : ∃ s, RecordPage.searchFrom B layout tx 0 RecordPage.EMPTY (B.bytes + 2) (0 : ℕ) =
      .ok s := by
    cases hs : RecordPage.searchFrom B layout tx 0 RecordPage.EMPTY (B.bytes + 2) (0 : ℕ) with
    | ok s => exact ⟨s, rfl⟩
    | error e =>
      cases n with
      | zero => exact absurd rfl (not_ends_outside hn)
      | succ n =>
        have hinsert : RecordPages.TableScan.insertFrom B layout (n + 1) ⟨tx, 0, -1⟩ =
            .error e := by
          rw [RecordPages.TableScan.insertFrom]
          unfold RecordPage.insertAfter RecordPage.searchAfter
          have hs' : RecordPage.searchFrom B layout tx 0 RecordPage.EMPTY (B.bytes + 2) (-1 + 1) =
            .error e := hs
          dsimp only
          rw [hs']
          rfl
        rw [eq_exception hn hinsert] at hs
        exact absurd hs searchFrom_ne_exception
  obtain ⟨s, hs⟩ := hsearch
  obtain ⟨k, -, hend, hall⟩ := searchFrom_full hp List.length_replicate
    (fun pos hpos => getInt_fullPage hpos) hs
  refine ⟨k, ?_, fun j hj => (hall j (Nat.zero_le j) hj).1, hend,
    fun j hj => (hall j (Nat.zero_le j) hj).2⟩
  by_contra hlt
  obtain rfl : k = 0 := by omega
  exact not_ends_outside hn (insertFrom_outside hend n)

theorem takes_of_insertEnds (hl : Complete layout) (h : InsertEnds B layout fileName) :
    Takes B layout fileName := by
  by_cases hneg : Throws fileName
  · obtain ⟨k, hk⟩ := slotsFit_of_full h
    exact ⟨k, hk, Or.inl hneg⟩
  · obtain ⟨tx, hready, hblocks⟩ := exists_ready B fileName []
      (fun p hp => by cases hp)
    have hempty : tx.size = 0 := by
      show tx.blocks.length = 0
      rw [hblocks]
      rfl
    obtain ⟨n, hn⟩ := (h tx hready).1 hempty
    have hnew : RecordPages.TableScan.new B layout tx =
        RecordPage.format B layout (tx.append B) tx.size >>= fun tx' => .ok ⟨tx', tx.size, -1⟩ := by
      unfold RecordPages.TableScan.new
      rw [if_pos hempty]
      rfl
    dsimp only at hn
    rw [hnew] at hn
    have hquiet : Quiet fileName (RecordPage.format B layout (tx.append B) tx.size) :=
      quiet_formatFrom (j := 0) hl hready.name hneg
    cases hformat : RecordPage.format B layout (tx.append B) tx.size with
    | error e =>
      rw [hformat] at hn
      rw [eq_exception hn rfl] at hformat
      exact absurd hformat hquiet.ne_exception
    | ok tx₁ =>
      rw [hformat] at hn
      obtain ⟨k, -, hend, hall⟩ := hready.append.formatFrom_ok (j := 0) (append_last tx) hformat
      have hpos : 1 ≤ k := by
        by_contra hlt
        obtain rfl : k = 0 := by omega
        exact not_ends_outside hn (insertFrom_outside hend n)
      exact ⟨k, ⟨hpos, fun j hj => (hall j (Nat.zero_le j) hj).1, hend,
        fun j hj => (hall j (Nat.zero_le j) hj).2.1⟩,
        Or.inr ⟨(hall 0 (Nat.le_refl 0) hpos).2.2.1,
          fun j hj => (hall j (Nat.zero_le j) hj).2.2.2⟩⟩

end Insert

/-- The condition for a layout whose slots lie inside a block: the record of a flag fits. -/
theorem takes_of_sound {B : BlockSize} {layout : Layout} {fileName : Bytes}
    (hl : StoredRecords.Sound B layout) (hfit : fileName.length + 28 ≤ B.bytes) :
    Takes B layout fileName := by
  have hB := B.lt_int
  have hname : toInt fileName.length = fileName.length := toInt_eq _ (by omega) (by omega)
  have hcell : ∀ j < StoredRecords.perBlock B layout, ∀ c : StoredRecords.Cell, c.Of layout →
      Inside B (c.pos layout j) := by
    intro j hj c hc
    obtain ⟨h0, -, hwidth⟩ := hl.cell_start hc
    obtain ⟨hpos, hle⟩ := hl.pos_toInt hj hc
    unfold Inside
    omega
  refine ⟨StoredRecords.perBlock B layout, ⟨hl.perBlock_pos, ?_, ?_, ?_⟩,
    Or.inr ⟨⟨by omega, by omega⟩, ?_⟩⟩
  · intro j hj
    exact (hl.isValidSlot_iff (Nat.le_of_lt hj)).mpr hj
  · rw [← Bool.not_eq_true, hl.isValidSlot_iff (Nat.le_refl _)]
    exact Nat.lt_irrefl _
  · intro j hj
    rw [← pos_flag]
    exact hcell j hj .flag trivial
  · intro j hj f hf
    exact ⟨_, fieldPos_eq hl hf, hcell j hj (.field f) hf⟩

/-- Insertions into a table end exactly if a block has a slot, its slots lie inside it, and the
record of a flag fits the log. -/
theorem insert_ends_iff {B : BlockSize} {schema : Schema} {layout : Layout}
    (hnew : Layout.new schema = .ok layout) (fileName : Bytes) :
    InsertEnds B layout fileName ↔ Takes B layout fileName :=
  ⟨takes_of_insertEnds (complete_new hnew), insertEnds_of_takes (complete_new hnew)⟩

/-- The layout of `create table t (a varchar(400))`. -/
def wideSchema : Schema := Schema.empty.addStringField ['a'] 400

def wideLayout : Layout := ⟨wideSchema, Function.update (fun _ => none) ['a'] (some 4), 408⟩

/-- A block of 400 bytes has no slot of 408 bytes: the first insertion goes on for ever. -/
theorem not_ends_wideSchema : Layout.new wideSchema = .ok wideLayout ∧
    ¬ InsertEnds smallBlocks wideLayout [116, 46, 116, 98, 108] ∧
    ∃ tx, Ready smallBlocks [116, 46, 116, 98, 108] tx ∧ tx.size = 0 ∧
      ∀ n, (RecordPages.TableScan.new smallBlocks wideLayout tx >>=
        RecordPages.TableScan.insertFrom smallBlocks wideLayout n) = .error .outside := by
  have hnew : Layout.new wideSchema = .ok wideLayout := rfl
  have h0 : RecordPage.isValidSlot smallBlocks wideLayout 0 = false := by decide
  refine ⟨hnew, ?_, ?_⟩
  · intro hends
    obtain ⟨k, hk, -⟩ := takes_of_insertEnds (complete_new hnew) hends
    have hvalid : RecordPage.isValidSlot smallBlocks wideLayout 0 = true := hk.valid 0 hk.pos
    rw [h0] at hvalid
    cases hvalid
  · obtain ⟨tx, hready, hblocks⟩ := exists_ready smallBlocks [116, 46, 116, 98, 108] []
      (fun p hp => by cases hp)
    have hempty : tx.size = 0 := by
      show tx.blocks.length = 0
      rw [hblocks]
      rfl
    refine ⟨tx, hready, hempty, fun n => ?_⟩
    unfold RecordPages.TableScan.new RecordPages.TableScan.moveToNewBlock RecordPage.format
      RecordPage.formatFrom
    rw [if_pos hempty, if_neg (by rw [h0]; decide)]
    exact insertFrom_outside h0 n

/-- The layout of `create table t (a int, b varchar(20))`. -/
def narrowSchema : Schema := (Schema.empty.addIntField ['a']).addStringField ['b'] 20

def narrowLayout : Layout :=
  ⟨narrowSchema, Function.update (Function.update (fun _ => none) ['a'] (some 4)) ['b'] (some 8),
    32⟩

theorem insert_ends_narrowSchema : Layout.new narrowSchema = .ok narrowLayout ∧
    InsertEnds smallBlocks narrowLayout [116, 46, 116, 98, 108] := by
  have hnew : Layout.new narrowSchema = .ok narrowLayout := rfl
  refine ⟨hnew, (insert_ends_iff hnew _).mpr ⟨12, ⟨by decide, by decide, by decide, by decide⟩,
    Or.inr ⟨⟨by decide, by decide⟩, ?_⟩⟩⟩
  · intro j hj f hf
    have hall : ∀ j : ℕ, j < 12 → ∀ f ∈ narrowLayout.schema.fields,
        (RecordPage.fieldPos narrowLayout j f).toOption.any
          (fun pos => decide (Inside smallBlocks pos)) = true := by
      decide
    obtain ⟨pos, hpos, hin⟩ := (Option.any_eq_true _ _).mp (hall j hj f hf)
    exact ⟨pos, toOption_eq_some.mp hpos, of_decide_eq_true hin⟩

end SampleDB.TableInsertion
