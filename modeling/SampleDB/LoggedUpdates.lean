import SampleDB.StoredTables

/-!
The record of an update, which holds the value that is overwritten. The size of the record is
compared neither with the size of a log block nor with the range of `int`: where it is negative as
an `int` the record is not built, and where it leaves no room for the boundary word the append
writes over it, or at a negative position.
-/
namespace SampleDB.LoggedUpdates

open Slices Words Pages Blocks LogRecords RecordRoundTrip Logging LogContents LogState Rollback
open Endings RecordPages StoredTables

section Sizes

theorem toInt_congr {a b : ℤ} (h : a % 4294967296 = b % 4294967296) : toInt a = toInt b := by
  have ha := toInt_emod a
  have hb := toInt_emod b
  have hrange := toInt_range a
  have hrange' := toInt_range b
  omega

theorem toInt_add_toInt (a b : ℤ) : toInt (toInt a + b) = toInt (a + b) := by
  apply toInt_congr
  have ha := toInt_emod a
  omega

theorem maxLength_toInt (n : ℕ) : maxLength n = toInt (n + 4) := by
  unfold maxLength
  rw [Int.add_comm, toInt_add_toInt]

theorem setInt_ne_exception (p : Page) (offset : ℤ) (n : Int32) :
    p.setInt offset n ≠ .error .exception := by
  unfold Page.setInt
  split
  · exact fun h => by cases h
  · split <;> exact fun h => by cases h

theorem setBytes_ne_exception (p : Page) (offset : ℤ) (b : Bytes) :
    p.setBytes offset b ≠ .error .exception := by
  unfold Page.setBytes
  dsimp only
  split
  · exact fun h => by cases h
  · cases hset : p.setInt offset (Int32.ofInt (toInt b.length)) with
    | error e =>
      intro h
      cases h
      exact setInt_ne_exception _ _ _ hset
    | ok q =>
      rw [ok_bind]
      split <;> exact fun h => by cases h

theorem bind_ne_exception {α β : Type} {x : Result α} {f : α → Result β}
    (hx : x ≠ .error .exception) (hf : ∀ a, f a ≠ .error .exception) :
    x >>= f ≠ .error .exception := by
  cases x with
  | error e =>
    intro h
    cases h
    exact hx rfl
  | ok a => exact hf a

/-- Only the bytes that the length counts as an `int` are written. -/
theorem setBytes_take (p : Page) (offset : ℤ) (b : Bytes) (h : 0 ≤ toInt b.length) :
    p.setBytes offset (b.take (toInt b.length).toNat) = p.setBytes offset b := by
  have hle : (toInt b.length).toNat ≤ b.length := by
    have hmod := toInt_emod b.length
    have hrange := toInt_range b.length
    omega
  have hlen : (b.take (toInt b.length).toNat).length = (toInt b.length).toNat := by
    rw [List.length_take, Nat.min_eq_left hle]
  have hint : toInt ((toInt b.length).toNat : ℤ) = toInt b.length := by
    have hrange := toInt_range b.length
    rw [Int.toNat_of_nonneg h]
    exact toInt_eq _ hrange.1 hrange.2
  unfold Page.setBytes
  dsimp only
  rw [hlen, hint, List.take_take, Nat.min_self]

/-- The first bytes of a name that its length counts as an `int`. -/
def named (fileName : Bytes) : Bytes := fileName.take (toInt fileName.length).toNat

theorem named_length (fileName : Bytes) (h : 0 ≤ toInt fileName.length) :
    ((named fileName).length : ℤ) = toInt fileName.length := by
  have hmod := toInt_emod fileName.length
  have hrange := toInt_range fileName.length
  unfold named
  rw [List.length_take, Nat.min_eq_left (by omega)]
  omega

theorem maxLength_named (fileName : Bytes) (h : 0 ≤ toInt fileName.length) :
    maxLength (named fileName).length = maxLength fileName.length := by
  rw [maxLength_toInt, maxLength_toInt, named_length fileName h, toInt_add_toInt]

/-- A write of bytes that succeeds has stayed inside the page. -/
theorem setBytes_room (p : Page) (offset : ℤ) (b : Bytes) (q : Page)
    (hint : offset < 2147483648) (h : p.setBytes offset b = .ok q) :
    0 ≤ offset ∧ 0 ≤ toInt b.length ∧ offset + 4 + toInt b.length ≤ p.length := by
  unfold Page.setBytes at h
  dsimp only at h
  split at h
  · cases h
  · rename_i hsize
    obtain ⟨p', hset, h⟩ := bind_eq_ok.mp h
    obtain ⟨h0, hle, -⟩ := Page.setInt_eq_ok p offset _ p' hint hset
    split at h
    · cases h
    · have hlt := (toInt_range b.length).2
      have hs := toSize_eq (offset + 4 + toInt b.length) (by omega) (by omega)
      omega

end Sizes

section Records

variable {txNum : Int32} {blk : BlockId} {offset : Int32} {old : Value} {bytes : Bytes}

/-- The size of the record of a value, for the length of the file name. -/
def recordSize (nameLength : ℤ) : Value → ℤ
  | .int _ => nameLength + 24
  | .string s => nameLength + 24 + 2 * s.length

theorem recSize_int (n : ℕ) :
    toInt (toInt (toInt (toInt (8 + maxLength n) + 4) + 4) + 4) = toInt (n + 24) := by
  apply toInt_congr
  have hname := toInt_emod ((n : ℤ) + 4)
  have hfile := toInt_emod (8 + toInt ((n : ℤ) + 4))
  have hblk := toInt_emod (toInt (8 + toInt ((n : ℤ) + 4)) + 4)
  have hoff := toInt_emod (toInt (toInt (8 + toInt ((n : ℤ) + 4)) + 4) + 4)
  rw [maxLength_toInt]
  omega

theorem recSize_string (n m : ℕ) :
    toInt (toInt (toInt (toInt (8 + maxLength n) + 4) + maxLength m) + maxLength m) =
      toInt (n + 24 + 2 * m) := by
  apply toInt_congr
  have hname := toInt_emod ((n : ℤ) + 4)
  have hval := toInt_emod ((m : ℤ) + 4)
  have hfile := toInt_emod (8 + toInt ((n : ℤ) + 4))
  have hblk := toInt_emod (toInt (8 + toInt ((n : ℤ) + 4)) + 4)
  have hoff := toInt_emod (toInt (toInt (8 + toInt ((n : ℤ) + 4)) + 4) + toInt ((m : ℤ) + 4))
  rw [maxLength_toInt, maxLength_toInt]
  omega

/-- A record of a negative size is not built, and nothing else ends in an exception. -/
theorem writeToLog_exception :
    (record txNum blk offset old).writeToLog = .error .exception ↔
      toInt (recordSize blk.fileName.length old) < 0 := by
  have hpage : ∀ (recSize : ℤ) (fill : Page → Result Bytes),
      (∀ p, fill p ≠ .error .exception) →
      (newPage recSize >>= fill = .error .exception ↔ recSize < 0) := by
    intro recSize fill hfill
    unfold newPage
    by_cases hneg : recSize < 0
    · rw [if_pos hneg]
      exact iff_of_true rfl hneg
    · rw [if_neg hneg]
      exact iff_of_false (hfill _) hneg
  cases old with
  | int n =>
    show SetIntRecord.writeToLog txNum blk offset n = _ ↔ _
    unfold SetIntRecord.writeToLog
    simp only [Int.reduceAdd, recSize_int]
    apply hpage
    intro p
    refine bind_ne_exception (setInt_ne_exception _ _ _) fun p => ?_
    refine bind_ne_exception (setInt_ne_exception _ _ _) fun p => ?_
    refine bind_ne_exception (setBytes_ne_exception _ _ _) fun p => ?_
    refine bind_ne_exception (setInt_ne_exception _ _ _) fun p => ?_
    refine bind_ne_exception (setInt_ne_exception _ _ _) fun p => ?_
    exact setInt_ne_exception _ _ _
  | string str =>
    show SetStringRecord.writeToLog txNum blk offset str = _ ↔ _
    unfold SetStringRecord.writeToLog
    simp only [Int.reduceAdd, recSize_string]
    apply hpage
    intro p
    refine bind_ne_exception (setInt_ne_exception _ _ _) fun p => ?_
    refine bind_ne_exception (setInt_ne_exception _ _ _) fun p => ?_
    refine bind_ne_exception (setBytes_ne_exception _ _ _) fun p => ?_
    refine bind_ne_exception (setInt_ne_exception _ _ _) fun p => ?_
    refine bind_ne_exception (setInt_ne_exception _ _ _) fun p => ?_
    exact setBytes_ne_exception _ _ _

/-- A record is written as if the name ended where its length as an `int` says. -/
theorem writeToLog_named (fileName : Bytes) (num : Int32) (h : 0 ≤ toInt fileName.length) :
    (record txNum ⟨fileName, num⟩ offset old).writeToLog =
      (record txNum ⟨named fileName, num⟩ offset old).writeToLog := by
  have hmax := maxLength_named fileName h
  have hset : ∀ p : Page, p.setString 8 (named fileName) = p.setString 8 fileName :=
    fun p => setBytes_take p 8 fileName h
  cases old with
  | int n =>
    show SetIntRecord.writeToLog _ _ _ _ = SetIntRecord.writeToLog _ _ _ _
    unfold SetIntRecord.writeToLog
    simp only [Int.reduceAdd, hmax, hset]
  | string s =>
    show SetStringRecord.writeToLog _ _ _ _ = SetStringRecord.writeToLog _ _ _ _
    unfold SetStringRecord.writeToLog
    simp only [Int.reduceAdd, hmax, hset]

/-- A reader of the fields before the value knows where they lie. -/
theorem fields_room {p p' : Page} {fileName : Bytes} {num offset : Int32}
    (hsize : p.length < 2147483648)
    (h : (do
      let page ← p.setString 8 fileName
      let page ← page.setInt (toInt (8 + maxLength fileName.length)) num
      page.setInt (toInt (toInt (8 + maxLength fileName.length) + 4)) offset) = .ok p') :
    0 ≤ toInt fileName.length ∧ toInt fileName.length + 20 ≤ p.length ∧
      p'.length = p.length := by
  obtain ⟨p1, h1, h⟩ := bind_eq_ok.mp h
  obtain ⟨p2, h2, h3⟩ := bind_eq_ok.mp h
  obtain ⟨-, h0, hname⟩ := setBytes_room p 8 fileName p1 (by decide) h1
  have hlen1 := Page.setBytes_length _ _ _ _ (by decide) h1
  have hlen2 := Page.setInt_length _ _ _ _ (toInt_range _).2 h2
  have hlen3 := Page.setInt_length _ _ _ _ (toInt_range _).2 h3
  have hb : toInt (8 + maxLength fileName.length) = toInt fileName.length + 12 := by
    rw [maxLength_toInt, ← toInt_add_toInt fileName.length 4,
      toInt_eq (toInt fileName.length + 4) (by omega) (by omega),
      toInt_eq _ (by omega) (by omega)]
    omega
  rw [hb] at h2 h3
  obtain ⟨-, hblk, -⟩ := Page.setInt_eq_ok p1 _ _ _ (by omega) h2
  rw [toInt_eq _ (by omega) (by omega)] at h3
  obtain ⟨-, hoff, -⟩ := Page.setInt_eq_ok p2 _ _ _ (by omega) h3
  exact ⟨h0, by omega, by omega⟩

/-- A record that is built holds the name up to its length as an `int`, and the value. -/
theorem writeToLog_ok {fileName : Bytes} {num : Int32}
    (hold : ∀ s, old = .string s → s.length + 4 < 2147483648)
    (h : (record txNum ⟨fileName, num⟩ offset old).writeToLog = .ok bytes) :
    0 ≤ toInt fileName.length ∧ bytes.length < 2147483648 ∧
      (bytes.length : ℤ) = recordSize (toInt fileName.length) old := by
  cases old with
  | int n =>
    have hwrite : SetIntRecord.writeToLog txNum ⟨fileName, num⟩ offset n = .ok bytes := h
    unfold SetIntRecord.writeToLog at hwrite
    simp only [Int.reduceAdd, recSize_int] at hwrite
    obtain ⟨p0, hnew, hwrite⟩ := bind_eq_ok.mp hwrite
    obtain ⟨hrec, rfl⟩ := newPage_eq_ok _ _ hnew
    obtain ⟨p1, h1, hwrite⟩ := bind_eq_ok.mp hwrite
    obtain ⟨p2, h2, hwrite⟩ := bind_eq_ok.mp hwrite
    have hlen1 := Page.setInt_length _ _ _ _ (by decide) h1
    have hlen2 := Page.setInt_length _ _ _ _ (by decide) h2
    rw [zeroPage_length] at hlen1
    simp only [← bind_assoc] at hwrite
    obtain ⟨p5, h5, h6⟩ := bind_eq_ok.mp hwrite
    simp only [bind_assoc] at h5
    have hrange := toInt_range ((fileName.length : ℤ) + 24)
    obtain ⟨h0, hroom, hlen5⟩ := fields_room (by omega) h5
    have hlen6 := Page.setInt_length _ _ _ _ (toInt_range _).2 h6
    have hname := toInt_add_toInt fileName.length 24
    have hmod := toInt_emod (toInt fileName.length + 24)
    show _ ∧ _ ∧ _ = toInt fileName.length + 24
    omega
  | string str =>
    have hwrite : SetStringRecord.writeToLog txNum ⟨fileName, num⟩ offset str = .ok bytes := h
    unfold SetStringRecord.writeToLog at hwrite
    simp only [Int.reduceAdd, recSize_string] at hwrite
    obtain ⟨p0, hnew, hwrite⟩ := bind_eq_ok.mp hwrite
    obtain ⟨hrec, rfl⟩ := newPage_eq_ok _ _ hnew
    obtain ⟨p1, h1, hwrite⟩ := bind_eq_ok.mp hwrite
    obtain ⟨p2, h2, hwrite⟩ := bind_eq_ok.mp hwrite
    have hlen1 := Page.setInt_length _ _ _ _ (by decide) h1
    have hlen2 := Page.setInt_length _ _ _ _ (by decide) h2
    rw [zeroPage_length] at hlen1
    simp only [← bind_assoc] at hwrite
    obtain ⟨p5, h5, h6⟩ := bind_eq_ok.mp hwrite
    simp only [bind_assoc] at h5
    have hrange := toInt_range ((fileName.length : ℤ) + 24 + 2 * str.length)
    obtain ⟨h0, hroom, hlen5⟩ := fields_room (by omega) h5
    have hlen6 := Page.setBytes_length _ _ _ _ (toInt_range _).2 h6
    have hname := toInt_emod fileName.length
    have hmod := toInt_emod ((fileName.length : ℤ) + 24 + 2 * str.length)
    have hval := hold str rfl
    show _ ∧ _ ∧ _ = toInt fileName.length + 24 + 2 * str.length
    omega

end Records

section Appends

variable {B : BlockSize} {lm lm' : LogMgr} {r : Bytes} {lsn : ℤ} {w : Int32}

/-- The boundary word is the position of the record. -/
theorem pack_room {boundary need : ℤ} (h : lm.pack boundary need r = .ok (lm', lsn))
    (hword : lm'.page.getInt 0 = .ok w) (hw : 4 ≤ w.toInt) :
    toInt r.length + 8 ≤ lm.page.length := by
  unfold LogMgr.pack at h
  dsimp only at h
  obtain ⟨p, hbytes, h⟩ := bind_eq_ok.mp h
  obtain ⟨q, hset, h⟩ := bind_eq_ok.mp h
  cases h
  have hroom := setBytes_room _ _ r p (toInt_range _).2 hbytes
  obtain ⟨-, hle, hq⟩ := Page.setInt_eq_ok p 0 _ q (by decide) hset
  obtain ⟨-, -, hget⟩ := Page.getInt_eq_ok q 0 w (by decide) hword
  have hs := slice_splice_self p 0 (encodeInt (Int32.ofInt (toInt (boundary - need))))
    (by rw [encodeInt_length]; omega)
  rw [encodeInt_length] at hs
  rw [hq, Int.toNat_zero, hs, decodeInt_encodeInt, ofInt_toInt] at hget
  have hpos : w.toInt = toInt (boundary - need) := by rw [hget]; rfl
  omega

theorem pack_le {boundary need : ℤ} (h : lm.pack boundary need r = .ok (lm', lsn)) :
    toInt r.length + 4 ≤ lm.page.length := by
  unfold LogMgr.pack at h
  dsimp only at h
  obtain ⟨p, hbytes, -⟩ := bind_eq_ok.mp h
  have hroom := setBytes_room _ _ r p (toInt_range _).2 hbytes
  omega

/-- An append packs the record into the page, or into a new one of its length. -/
theorem append_packs (h : lm.append B r = .ok (lm', lsn)) : ∃ (lm₁ : LogMgr) (boundary need : ℤ),
    lm₁.page.length = lm.page.length ∧ lm₁.pack boundary need r = .ok (lm', lsn) := by
  unfold LogMgr.append at h
  dsimp only at h
  obtain ⟨boundary, -, h⟩ := bind_eq_ok.mp h
  split at h
  · obtain ⟨⟨lm₁, blk⟩, hnew, h⟩ := bind_eq_ok.mp h
    obtain ⟨boundary', -, h⟩ := bind_eq_ok.mp h
    unfold LogMgr.appendNewBlock at hnew
    obtain ⟨p, hset, hnew⟩ := bind_eq_ok.mp hnew
    cases hnew
    have hlen : p.length = lm.page.length := Page.setInt_length _ 0 _ p (by decide) hset
    exact ⟨_, _, _, hlen, h⟩
  · exact ⟨lm, _, _, rfl, h⟩

theorem append_room (h : lm.append B r = .ok (lm', lsn)) (hword : lm'.page.getInt 0 = .ok w)
    (hw : 4 ≤ w.toInt) : toInt r.length + 8 ≤ lm.page.length := by
  obtain ⟨lm₁, boundary, need, hlen, hpack⟩ := append_packs h
  rw [← hlen]
  exact pack_room hpack hword hw

/-- An append that succeeds has found the room for the record and its length. -/
theorem append_le (h : lm.append B r = .ok (lm', lsn)) :
    toInt r.length + 4 ≤ lm.page.length := by
  obtain ⟨lm₁, boundary, need, hlen, hpack⟩ := append_packs h
  rw [← hlen]
  exact pack_le hpack

/-- A record that leaves room for its length and the boundary word is the newest of the log. -/
theorem append_yields {unsaved saved : List Bytes} (h : Holds B lm unsaved saved)
    (hr : r.length + 8 ≤ B.bytes) :
    ∃ lm' w it, lm.append B r = .ok (lm', lm.latestLsn + 1) ∧ lm'.page.getInt 0 = .ok w ∧
      4 ≤ w.toInt ∧ lm'.iterator B = .ok (lm'.flushPage, it) ∧
      it.Yields B lm'.flushPage.file (r :: (unsaved ++ saved)) := by
  obtain ⟨inBlock, older, hinv, hsaved⟩ := h
  have hword : ∀ {lm' : LogMgr} {unsaved saved : List Bytes} {older : List (List Bytes)},
      LogInv B lm' unsaved saved older → ∃ w, lm'.page.getInt 0 = .ok w ∧ 4 ≤ w.toInt := by
    intro lm' unsaved saved older hinv
    have hroom := hinv.page_holds.room
    refine ⟨_, hinv.page_holds.boundary, ?_⟩
    rw [hinv.page_holds.boundary_toInt]
    omega
  obtain ⟨lm', happend, -, ⟨hinv', -, -⟩ | ⟨hinv', -⟩⟩ := hinv.append r hr
  · obtain ⟨w, hget, hw⟩ := hword hinv'
    obtain ⟨it, hit, hyields⟩ := hinv'.iterator
    refine ⟨lm', w, it, happend, hget, hw, hit, ?_⟩
    rw [← hsaved]
    simpa only [List.cons_append, List.append_assoc] using hyields
  · obtain ⟨w, hget, hw⟩ := hword hinv'
    obtain ⟨it, hit, hyields⟩ := hinv'.iterator
    refine ⟨lm', w, it, happend, hget, hw, hit, ?_⟩
    rw [← hsaved]
    simpa only [List.cons_append, List.append_assoc, List.append_nil, List.nil_append,
      List.flatten_cons] using hyields

end Appends

/-- What an update makes of the log that has these records: the log yields the record of the
old value in front of them, or neither the record nor anything else is written. -/
def LogsOld (B : BlockSize) (records : List Bytes) (logRec : Result Bytes) (r : Result LogMgr) :
    Prop :=
  (∃ bytes log w it, logRec = .ok bytes ∧ r = .ok log ∧ log.page.getInt 0 = .ok w ∧
      4 ≤ w.toInt ∧ log.iterator B = .ok (log.flushPage, it) ∧
      it.Yields B log.flushPage.file (bytes :: records)) ∨
    (logRec = .error .exception ∧ r = .error .exception)

/-- The size of the record is negative as an `int`, or the record leaves room for its length
and the boundary word. -/
def FitsLog (B : BlockSize) (fileName : Bytes) (old : Value) : Prop :=
  toInt (recordSize fileName.length old) < 0 ∨
    (0 ≤ toInt fileName.length ∧ recordSize (toInt fileName.length) old + 8 ≤ B.bytes)

section Updates

variable {B : BlockSize} {tx : Transaction} {blk : ℕ} {page : Page} {offset : Int32} {k : Kind}
  {old : Value} {unsaved saved : List Bytes}

/-- A string that is read from a page leaves room for its length word. -/
theorem get_string_length {s : Bytes} (hpage : page.length = B.bytes)
    (h : get page offset k = .ok (.string s)) : s.length + 4 ≤ B.bytes := by
  cases k with
  | int =>
    obtain ⟨n, -, h⟩ := bind_eq_ok.mp h
    cases h
  | string =>
    obtain ⟨s', hget, h⟩ := bind_eq_ok.mp h
    cases h
    obtain ⟨h0, hroom, -⟩ := Page.getBytes_eq_ok page _ _ offset.toInt_lt hget
    omega

theorem recordLength_named (fileName : Bytes) (old : Value) (h : 0 ≤ toInt fileName.length) :
    (recordLength (named fileName) old : ℤ) = recordSize (toInt fileName.length) old := by
  have hname := named_length fileName h
  cases old with
  | int n =>
    show ((named fileName).length + 24 : ℕ) = toInt fileName.length + 24
    omega
  | string s =>
    show ((named fileName).length + 24 + 2 * s.length : ℕ) =
      toInt fileName.length + 24 + 2 * s.length
    omega

theorem fitsLog_of_logsOld (hlog : Holds B tx.log unsaved saved) (hpage : page.length = B.bytes)
    (hold : get page offset k = .ok old)
    (h : LogsOld B (unsaved ++ saved) (record tx.txNum (tx.blockId blk) offset old).writeToLog
      (tx.logOld B blk page offset k)) :
    FitsLog B tx.fileName old := by
  have hB := B.lt_int
  unfold Transaction.logOld at h
  simp only [hold, ok_bind] at h
  obtain ⟨bytes, log, w, it, hbytes, hr, hword, hw, -, -⟩ | ⟨hnone, -⟩ := h
  · right
    have hlen : ∀ s, old = .string s → s.length + 4 < 2147483648 := by
      rintro s rfl
      have hroom := get_string_length hpage hold
      omega
    obtain ⟨h0, hint, hsize⟩ := writeToLog_ok hlen hbytes
    rw [hbytes, ok_bind] at hr
    obtain ⟨⟨log', lsn⟩, happend, hr⟩ := bind_eq_ok.mp hr
    cases hr
    have hroom := append_room happend hword hw
    obtain ⟨inBlock, older, hinv, -⟩ := hlog
    rw [hinv.page_holds.size, toInt_eq _ (by omega) (by omega)] at hroom
    exact ⟨h0, by omega⟩
  · have hneg := writeToLog_exception.mp hnone
    exact Or.inl hneg

theorem logsOld_of_fitsLog (hlog : Holds B tx.log unsaved saved)
    (hold : get page offset k = .ok old) (hfits : FitsLog B tx.fileName old) :
    LogsOld B (unsaved ++ saved) (record tx.txNum (tx.blockId blk) offset old).writeToLog
      (tx.logOld B blk page offset k) := by
  have hB := B.lt_int
  unfold Transaction.logOld
  simp only [hold, ok_bind]
  obtain hneg | ⟨h0, hfit⟩ := hfits
  · have hnone : (record tx.txNum (tx.blockId blk) offset old).writeToLog = .error .exception := by
      rw [writeToLog_exception]
      exact hneg
    refine Or.inr ⟨hnone, ?_⟩
    rw [hnone]
    rfl
  · left
    have hname := named_length tx.fileName h0
    have hsize := recordLength_named tx.fileName old h0
    obtain ⟨bytes, hbytes, hlen⟩ := writeToLog_record (named tx.fileName) tx.txNum
      (Int32.ofInt blk) offset (by omega : recordLength (named tx.fileName) old < 2147483648)
    rw [← writeToLog_named tx.fileName (Int32.ofInt blk) h0] at hbytes
    change (record tx.txNum (tx.blockId blk) offset old).writeToLog = .ok bytes at hbytes
    obtain ⟨log, w, it, happend, hword, hw, hit, hyields⟩ := append_yields (r := bytes) hlog
      (by omega)
    refine ⟨bytes, log, w, it, hbytes, ?_, hword, hw, hit, hyields⟩
    rw [hbytes, ok_bind, happend]
    rfl

/-- The update logs the old value exactly if the record has no size or fits the log page. -/
theorem logged_iff (hlog : Holds B tx.log unsaved saved) (hpage : page.length = B.bytes)
    (hold : get page offset k = .ok old) :
    LogsOld B (unsaved ++ saved) (record tx.txNum (tx.blockId blk) offset old).writeToLog
        (tx.logOld B blk page offset k) ↔
      FitsLog B tx.fileName old :=
  ⟨fitsLog_of_logsOld hlog hpage hold, logsOld_of_fitsLog hlog hold⟩

end Updates

/-- A string that lies inside a page of 400 bytes, and whose record is longer than the page. -/
def longPage : Page := encodeInt 190 ++ List.replicate 190 97 ++ zeroPage 206

theorem get_longPage : get longPage 0 .string = .ok (.string (List.replicate 190 97)) := by
  decide +kernel

def smallBlocks : BlockSize := ⟨400, word_le_standard, standard_lt_int⟩

/-- A transaction on a file of five bytes' name that consists of this page. -/
def longTx (lm : LogMgr) : Transaction := ⟨1, [116, 46, 116, 98, 108], lm, [longPage]⟩

theorem logOld_longTx :
    (LogMgr.new smallBlocks [] >>= fun lm => (longTx lm).logOld smallBlocks 0 longPage 0 .string) =
      .error .exit := by
  decide +kernel

/-- The log of the longer record is stopped at its negative position in an empty block. -/
theorem not_logged_longPage : ∃ lm, Holds smallBlocks lm [] [] ∧
    get longPage 0 .string = .ok (.string (List.replicate 190 97)) ∧
    ¬ LogsOld smallBlocks []
      (record 1 ((longTx lm).blockId 0) 0 (.string (List.replicate 190 97))).writeToLog
      ((longTx lm).logOld smallBlocks 0 longPage 0 .string) := by
  obtain ⟨lm, hnew, hinv, -, -⟩ := new_nil smallBlocks
  have hexit := logOld_longTx
  rw [hnew, ok_bind] at hexit
  refine ⟨lm, ⟨[], [], hinv, rfl⟩, get_longPage, ?_⟩
  rintro (⟨bytes, log, w, it, -, hok, -⟩ | ⟨-, hthrow⟩)
  · cases hexit.symm.trans hok
  · cases hexit.symm.trans hthrow

theorem logged_intPage : ∃ lm, Holds smallBlocks lm [] [] ∧
    LogsOld smallBlocks [] (record 1 ((longTx lm).blockId 0) 0 (.int 190)).writeToLog
      ((longTx lm).logOld smallBlocks 0 longPage 0 .int) := by
  obtain ⟨lm, -, hinv, -, -⟩ := new_nil smallBlocks
  have hholds : Holds smallBlocks lm [] [] := ⟨[], [], hinv, rfl⟩
  have hget : get longPage 0 .int = .ok (.int 190) := by decide +kernel
  have hfits : FitsLog smallBlocks [116, 46, 116, 98, 108] (.int 190) :=
    Or.inr ⟨by decide, by decide⟩
  have hpage : longPage.length = smallBlocks.bytes := by decide +kernel
  have hiff := @logged_iff smallBlocks (longTx lm) 0 longPage 0 .int (.int 190) [] [] hholds hpage
    hget
  exact ⟨lm, hholds, hiff.mpr hfits⟩

end SampleDB.LoggedUpdates
