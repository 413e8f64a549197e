import SampleDB.LogRecords

/-!
The log record codec. Every record without an old string value reads back as it
was written, as long as its size is an `int`. A SETSTRING record reads back only
when its old value is empty: its reader finds the gap before the value where it
looks for the length word.
-/
namespace SampleDB.RecordRoundTrip

open Slices Words Pages Blocks LogRecords

/-- The records that the log gives back as they were written. -/
def RoundTrips : LogRecord Int32 → Prop
  | .setInt _ blk _ _ => blk.fileName.length + 24 < 2147483648
  | .setString _ blk _ str => str = [] ∧ blk.fileName.length + 24 < 2147483648
  | _ => True

instance (r : LogRecord Int32) : Decidable (RoundTrips r) := by
  cases r <;> unfold RoundTrips <;> infer_instance

theorem newPage_eq_ok (recSize : ℤ) (p : Page) (h : newPage recSize = .ok p) :
    0 ≤ recSize ∧ p = zeroPage recSize.toNat := by
  unfold newPage at h
  split at h
  · cases h
  · cases h
    exact ⟨by omega, rfl⟩

theorem txRecordBytes_eq (op txNum : Int32) :
    txRecordBytes op txNum = .ok (encodeInt op ++ encodeInt txNum) := by
  have hnew : newPage 8 = .ok ([] ++ zeroPage 8) := rfl
  unfold txRecordBytes
  simp only [Int.reduceAdd, hnew, ok_bind]
  rw [Page.setInt_fill [] 8 0 op rfl (by omega) (by decide), ok_bind,
    Page.setInt_fill _ _ 4 txNum rfl (by omega) (by simp)]
  simp [zeroPage]

theorem readTxNum_eq (op txNum : Int32) :
    readTxNum (encodeInt op ++ encodeInt txNum) = .ok txNum := by
  have h := Page.getInt_middle (encodeInt op) [] 4 txNum rfl (by simp)
  rw [List.append_nil] at h
  exact h

theorem getInt_op (op : Int32) (rest : Bytes) :
    Page.getInt (encodeInt op ++ rest) 0 = .ok op := by
  simpa using Page.getInt_middle [] rest 0 op rfl (by simp)

/-- The fields that SETINT and SETSTRING records begin with. -/
def header (op txNum : Int32) (blk : BlockId) (offset : Int32) : Bytes :=
  encodeInt op ++ encodeInt txNum ++
    (encodeInt (Int32.ofInt blk.fileName.length) ++ blk.fileName) ++
    encodeInt blk.number ++ encodeInt offset

@[simp] theorem header_length (op txNum : Int32) (blk : BlockId) (offset : Int32) :
    (header op txNum blk offset).length = blk.fileName.length + 20 := by
  simp only [header, List.length_append, encodeInt_length]
  omega

/-- Both writers fill the header first. The positions are those of the source as
long as nothing wraps. -/
theorem write_header (op txNum : Int32) (blk : BlockId) (offset : Int32) (k : ℕ)
    (h : blk.fileName.length + 20 + k < 2147483648) :
    (do
      let page ← Page.setInt (zeroPage (blk.fileName.length + 20 + k)) 0 op
      let page ← page.setInt 4 txNum
      let page ← page.setString 8 blk.fileName
      let page ← page.setInt (blk.fileName.length + 12) blk.number
      page.setInt (blk.fileName.length + 16) offset) =
      .ok (header op txNum blk offset ++ zeroPage k) := by
  have hstart : zeroPage (blk.fileName.length + 20 + k) =
      [] ++ zeroPage (blk.fileName.length + 20 + k) := rfl
  rw [hstart, Page.setInt_fill [] _ 0 op rfl (by omega) (by decide), ok_bind,
    Page.setInt_fill _ _ 4 txNum rfl (by omega) (by simp), ok_bind, Page.setString,
    Page.setBytes_fill _ blk.fileName _ 8 rfl (by omega) (by simp; omega), ok_bind,
    Page.setInt_fill _ _ _ blk.number (by simp; omega) (by omega) (by simp; omega), ok_bind,
    Page.setInt_fill _ _ _ offset (by simp; omega) (by omega) (by simp; omega)]
  congr 2
  congr 1
  omega

/-- Both readers read the header back. -/
theorem read_header (op txNum : Int32) (blk : BlockId) (offset : Int32) (rest : Bytes)
    (h : blk.fileName.length + 20 + rest.length < 2147483648) :
    Page.getInt (header op txNum blk offset ++ rest) 4 = .ok txNum ∧
      Page.getString (header op txNum blk offset ++ rest) 8 = .ok blk.fileName ∧
      Page.getInt (header op txNum blk offset ++ rest) (blk.fileName.length + 12) =
        .ok blk.number ∧
      Page.getInt (header op txNum blk offset ++ rest) (blk.fileName.length + 16) =
        .ok offset := by
  have htx := Page.getInt_middle (encodeInt op)
    ((encodeInt (Int32.ofInt blk.fileName.length) ++ blk.fileName) ++
      encodeInt blk.number ++ encodeInt offset ++ rest) 4 txNum rfl (by simp)
  have hname := Page.getBytes_middle (encodeInt op ++ encodeInt txNum) blk.fileName
    (encodeInt blk.number ++ encodeInt offset ++ rest) 8 rfl
    (by simp only [List.length_append, encodeInt_length]; omega)
  have hnum := Page.getInt_middle (encodeInt op ++ encodeInt txNum ++
    (encodeInt (Int32.ofInt blk.fileName.length) ++ blk.fileName))
    (encodeInt offset ++ rest) (blk.fileName.length + 12) blk.number
    (by simp; omega) (by simp; omega)
  have hoff := Page.getInt_middle (encodeInt op ++ encodeInt txNum ++
    (encodeInt (Int32.ofInt blk.fileName.length) ++ blk.fileName) ++ encodeInt blk.number)
    rest (blk.fileName.length + 16) offset (by simp; omega) (by simp; omega)
  simp only [List.append_assoc] at htx hname hnum hoff
  simp only [header, Page.getString, List.append_assoc]
  exact ⟨htx, hname, hnum, hoff⟩

theorem getInt_header (op txNum : Int32) (blk : BlockId) (offset : Int32) (rest : Bytes) :
    Page.getInt (header op txNum blk offset ++ rest) 0 = .ok op := by
  simp only [header, List.append_assoc]
  exact getInt_op op _

/-- The positions up to the value, when nothing wraps. -/
theorem positions (n : ℕ) (h : (n : ℤ) + 20 < 2147483648) :
    toInt (8 + maxLength n) = n + 12 ∧ toInt ((n : ℤ) + 12 + 4) = n + 16 ∧
      toInt ((n : ℤ) + 16 + 4) = n + 20 := by
  rw [maxLength_eq n (by omega), toInt_eq _ (by omega) (by omega),
    toInt_eq _ (by omega) (by omega), toInt_eq _ (by omega) (by omega)]
  omega

theorem setInt_writeToLog (txNum : Int32) (blk : BlockId) (offset val : Int32)
    (h : blk.fileName.length + 24 < 2147483648) :
    SetIntRecord.writeToLog txNum blk offset val =
      .ok (header LogRecord.SETINT txNum blk offset ++ encodeInt val) := by
  obtain ⟨hb, ho, hv⟩ := positions blk.fileName.length (by omega)
  have hr : toInt ((blk.fileName.length : ℤ) + 20 + 4) = blk.fileName.length + 24 := by
    rw [toInt_eq _ (by omega) (by omega)]
    omega
  have hnew : newPage (blk.fileName.length + 24) =
      .ok (zeroPage (blk.fileName.length + 20 + 4)) := by
    unfold newPage
    rw [if_neg (by omega)]
    rfl
  have hfill := write_header LogRecord.SETINT txNum blk offset 4 (by omega)
  unfold SetIntRecord.writeToLog
  simp only [Int.reduceAdd, hb, ho, hv, hr, hnew, ok_bind]
  simp only [← bind_assoc]
  simp only [← bind_assoc] at hfill
  rw [hfill, ok_bind, Page.setInt_fill _ 4 _ val (by simp) (by omega) (by simp; omega)]
  simp [zeroPage]

theorem setInt_read (txNum : Int32) (blk : BlockId) (offset val : Int32)
    (h : blk.fileName.length + 24 < 2147483648) :
    SetIntRecord.read (header LogRecord.SETINT txNum blk offset ++ encodeInt val) =
      .ok (.setInt txNum blk offset val) := by
  obtain ⟨hb, ho, hv⟩ := positions blk.fileName.length (by omega)
  obtain ⟨htx, hname, hnum, hoff⟩ := read_header LogRecord.SETINT txNum blk offset
    (encodeInt val) (by simp only [encodeInt_length]; omega)
  have hval := Page.getInt_middle (header LogRecord.SETINT txNum blk offset) []
    (blk.fileName.length + 20) val (by simp) (by simp; omega)
  rw [List.append_nil] at hval
  unfold SetIntRecord.read
  simp only [Int.reduceAdd, htx, hname, hb, hnum, ho, hoff, hv, hval, ok_bind]

/-- The value of a SETSTRING record is written behind a gap of its own length. -/
theorem setString_writeToLog (txNum : Int32) (blk : BlockId) (offset : Int32) (str : Bytes)
    (h : blk.fileName.length + 24 + 2 * str.length < 2147483648) :
    SetStringRecord.writeToLog txNum blk offset str =
      .ok (header LogRecord.SETSTRING txNum blk offset ++ zeroPage str.length ++
        (encodeInt (Int32.ofInt str.length) ++ str)) := by
  obtain ⟨hb, ho, -⟩ := positions blk.fileName.length (by omega)
  have hv : toInt ((blk.fileName.length : ℤ) + 16 + maxLength str.length) =
      blk.fileName.length + 20 + str.length := by
    rw [maxLength_eq str.length (by omega), toInt_eq _ (by omega) (by omega)]
    omega
  have hr : toInt ((blk.fileName.length : ℤ) + 20 + str.length + maxLength str.length) =
      blk.fileName.length + 24 + 2 * str.length := by
    rw [maxLength_eq str.length (by omega), toInt_eq _ (by omega) (by omega)]
    omega
  have hnew : newPage (blk.fileName.length + 24 + 2 * str.length) =
      .ok (zeroPage (blk.fileName.length + 20 + (str.length + (4 + str.length)))) := by
    unfold newPage
    rw [if_neg (by omega)]
    congr 2
    omega
  have hgap : zeroPage (str.length + (4 + str.length)) =
      zeroPage str.length ++ zeroPage (4 + str.length) := List.replicate_add ..
  have hfill := write_header LogRecord.SETSTRING txNum blk offset
    (str.length + (4 + str.length)) (by omega)
  unfold SetStringRecord.writeToLog
  simp only [Int.reduceAdd, hb, ho, hv, hr, hnew, ok_bind]
  simp only [← bind_assoc]
  simp only [← bind_assoc] at hfill
  rw [hfill, ok_bind, hgap, ← List.append_assoc, Page.setString,
    Page.setBytes_fill _ str _ _ (by simp) (by omega) (by simp; omega)]
  simp [zeroPage]

/-- A zero word where the length is looked for reads as the empty value. -/
theorem setString_read_nil (txNum : Int32) (blk : BlockId) (offset : Int32) (post : Bytes)
    (h : blk.fileName.length + 24 + post.length < 2147483648) :
    SetStringRecord.read (header LogRecord.SETSTRING txNum blk offset ++ (encodeInt 0 ++ post)) =
      .ok (.setString txNum blk offset []) := by
  obtain ⟨hb, ho, hv⟩ := positions blk.fileName.length (by omega)
  obtain ⟨htx, hname, hnum, hoff⟩ := read_header LogRecord.SETSTRING txNum blk offset
    (encodeInt 0 ++ post) (by simp only [List.length_append, encodeInt_length]; omega)
  have hval := Page.getBytes_middle (header LogRecord.SETSTRING txNum blk offset) [] post
    (blk.fileName.length + 20) (by simp)
    (by simp only [List.length_append, header_length, encodeInt_length, List.length_nil]; omega)
  have hstr : Page.getString (header LogRecord.SETSTRING txNum blk offset ++
      (encodeInt 0 ++ post)) (blk.fileName.length + 20) = .ok [] := by
    rw [List.append_nil, List.append_assoc] at hval
    exact hval
  unfold SetStringRecord.read
  simp only [Int.reduceAdd, htx, hname, hb, hnum, ho, hoff, hv, hstr, ok_bind]

/-- A record whose condition holds reads back as it was written. -/
theorem readBack_of_roundTrips (r : LogRecord Int32) (h : RoundTrips r) :
    r.readBack = .ok (some r) := by
  cases r with
  | checkpoint => decide
  | start txNum =>
    simp only [LogRecord.readBack, LogRecord.writeToLog, StartRecord.writeToLog,
      txRecordBytes_eq, ok_bind, createLogRecord, getInt_op, readTxNum_eq]
    rfl
  | commit txNum =>
    simp only [LogRecord.readBack, LogRecord.writeToLog, CommitRecord.writeToLog,
      txRecordBytes_eq, ok_bind, createLogRecord, getInt_op, readTxNum_eq]
    rfl
  | rollback txNum =>
    simp only [LogRecord.readBack, LogRecord.writeToLog, RollbackRecord.writeToLog,
      txRecordBytes_eq, ok_bind, createLogRecord, getInt_op, readTxNum_eq]
    rfl
  | setInt txNum blk offset val =>
    simp only [LogRecord.readBack, LogRecord.writeToLog, setInt_writeToLog txNum blk offset val h,
      ok_bind, createLogRecord, getInt_header, setInt_read txNum blk offset val h]
    rfl
  | setString txNum blk offset str =>
    obtain ⟨rfl, hfit⟩ := h
    have hwrite : SetStringRecord.writeToLog txNum blk offset [] =
        .ok (header LogRecord.SETSTRING txNum blk offset ++ (encodeInt 0 ++ [])) := by
      have h := setString_writeToLog txNum blk offset [] (by simpa using hfit)
      simpa [zeroPage] using h
    simp only [LogRecord.readBack, LogRecord.writeToLog, hwrite, ok_bind, createLogRecord,
      getInt_header, setString_read_nil txNum blk offset [] (by simpa using hfit)]
    rfl

/-- The records other than SETSTRING that have room in a log block of their own. -/
def FitsBlock (B : BlockSize) : LogRecord Int32 → Prop
  | .setInt _ blk _ _ => blk.fileName.length + 32 ≤ B.bytes
  | .setString _ _ _ _ => False
  | _ => 16 ≤ B.bytes

theorem readBack_fits (B : BlockSize) (r : LogRecord Int32) (h : FitsBlock B r) :
    ∃ bytes, r.writeToLog = .ok bytes ∧ bytes.length + 8 ≤ B.bytes ∧
      createLogRecord bytes = .ok (some r) := by
  have hB := B.lt_int
  have hround : RoundTrips r := by
    cases r with
    | setInt txNum blk offset val =>
      have hfit : blk.fileName.length + 32 ≤ B.bytes := h
      exact show blk.fileName.length + 24 < 2147483648 by omega
    | setString txNum blk offset str => exact h.elim
    | _ => trivial
  obtain ⟨bytes, hwrite, hread⟩ := (bind_eq_ok).mp (readBack_of_roundTrips r hround)
  refine ⟨bytes, hwrite, ?_, hread⟩
  have htx : ∀ op txNum : Int32, (encodeInt op ++ encodeInt txNum).length = 8 := by
    intro op txNum
    rw [List.length_append, encodeInt_length, encodeInt_length]
  cases r with
  | checkpoint =>
    have hB : 16 ≤ B.bytes := h
    have hlen : bytes.length = 4 := by
      cases hwrite
      rfl
    omega
  | start txNum =>
    have hB : 16 ≤ B.bytes := h
    cases hwrite.symm.trans (txRecordBytes_eq LogRecord.START txNum)
    rw [htx]
    exact hB
  | commit txNum =>
    have hB : 16 ≤ B.bytes := h
    cases hwrite.symm.trans (txRecordBytes_eq LogRecord.COMMIT txNum)
    rw [htx]
    exact hB
  | rollback txNum =>
    have hB : 16 ≤ B.bytes := h
    cases hwrite.symm.trans (txRecordBytes_eq LogRecord.ROLLBACK txNum)
    rw [htx]
    exact hB
  | setInt txNum blk offset val =>
    have hfit : blk.fileName.length + 32 ≤ B.bytes := h
    cases hwrite.symm.trans (setInt_writeToLog txNum blk offset val (by omega))
    rw [List.length_append, header_length, encodeInt_length]
    omega
  | setString txNum blk offset str => exact h.elim

/-- A reader that got through the header has stayed inside the record. -/
theorem read_header_size (p : Page) (fileName : Bytes) (blkNum offset : Int32)
    (hsize : p.length < 2147483648) (hname : p.getString 8 = .ok fileName)
    (hnum : p.getInt (toInt (8 + maxLength fileName.length)) = .ok blkNum)
    (hoff : p.getInt (toInt (toInt (8 + maxLength fileName.length) + 4)) = .ok offset) :
    fileName.length + 20 ≤ p.length ∧ toInt (8 + maxLength fileName.length) =
      fileName.length + 12 ∧ toInt ((fileName.length : ℤ) + 12 + 4) = fileName.length + 16 := by
  obtain ⟨-, hfit, -, -⟩ := Page.getBytes_eq_ok p 8 fileName (by omega) hname
  have hb : toInt (8 + maxLength fileName.length) = fileName.length + 12 := by
    rw [maxLength_eq _ (by omega), toInt_eq _ (by omega) (by omega)]
    omega
  rw [hb] at hnum hoff
  obtain ⟨-, hfit, -⟩ := Page.getInt_eq_ok p _ _ (by omega) hnum
  have ho : toInt ((fileName.length : ℤ) + 12 + 4) = fileName.length + 16 := by
    rw [toInt_eq _ (by omega) (by omega)]
    omega
  rw [ho] at hoff
  obtain ⟨-, hfit, -⟩ := Page.getInt_eq_ok p _ _ (by omega) hoff
  exact ⟨by omega, hb, ho⟩

theorem setInt_read_size (p : Page) (txNum : Int32) (blk : BlockId) (offset val : Int32)
    (hsize : p.length < 2147483648)
    (h : SetIntRecord.read p = .ok (.setInt txNum blk offset val)) :
    blk.fileName.length + 24 ≤ p.length := by
  unfold SetIntRecord.read at h
  obtain ⟨tx, -, h⟩ := (bind_eq_ok).mp h
  obtain ⟨fileName, hname, h⟩ := (bind_eq_ok).mp h
  obtain ⟨blkNum, hnum, h⟩ := (bind_eq_ok).mp h
  obtain ⟨off, hoff, h⟩ := (bind_eq_ok).mp h
  obtain ⟨v, hval, h⟩ := (bind_eq_ok).mp h
  cases h
  obtain ⟨hfit, hb, ho⟩ := read_header_size p fileName blkNum offset hsize hname hnum hoff
  have hv : toInt ((fileName.length : ℤ) + 16 + 4) = fileName.length + 20 := by
    rw [toInt_eq _ (by omega) (by omega)]
    omega
  simp only [Int.reduceAdd, hb, ho, hv] at hval
  obtain ⟨-, hfit, -⟩ := Page.getInt_eq_ok p _ _ (by omega) hval
  show fileName.length + 24 ≤ p.length
  omega

/-- What a SETSTRING reader returns lies inside the record, behind a length word that
its position determines. -/
theorem setString_read_size (p : Page) (txNum : Int32) (blk : BlockId) (offset : Int32)
    (str : Bytes) (hsize : p.length < 2147483648)
    (h : SetStringRecord.read p = .ok (.setString txNum blk offset str)) :
    blk.fileName.length + 24 + str.length ≤ p.length ∧
      (decodeInt (slice p (blk.fileName.length + 20) 4)).toInt = str.length := by
  unfold SetStringRecord.read at h
  obtain ⟨tx, -, h⟩ := (bind_eq_ok).mp h
  obtain ⟨fileName, hname, h⟩ := (bind_eq_ok).mp h
  obtain ⟨blkNum, hnum, h⟩ := (bind_eq_ok).mp h
  obtain ⟨off, hoff, h⟩ := (bind_eq_ok).mp h
  obtain ⟨v, hval, h⟩ := (bind_eq_ok).mp h
  cases h
  obtain ⟨hfit, hb, ho⟩ := read_header_size p fileName blkNum offset hsize hname hnum hoff
  have hv : toInt ((fileName.length : ℤ) + 16 + 4) = fileName.length + 20 := by
    rw [toInt_eq _ (by omega) (by omega)]
    omega
  simp only [Int.reduceAdd, hb, ho, hv] at hval
  obtain ⟨-, hfit, hword, -⟩ := Page.getBytes_eq_ok p _ _ (by omega) hval
  rw [show ((fileName.length : ℤ) + 20).toNat = fileName.length + 20 by omega] at hword
  exact ⟨show fileName.length + 24 + str.length ≤ p.length by omega, hword⟩

theorem setInt_read_eq (p : Page) (r : LogRecord Int32) (h : SetIntRecord.read p = .ok r) :
    ∃ txNum blk offset val, r = .setInt txNum blk offset val := by
  unfold SetIntRecord.read at h
  obtain ⟨tx, -, h⟩ := (bind_eq_ok).mp h
  obtain ⟨fileName, -, h⟩ := (bind_eq_ok).mp h
  obtain ⟨blkNum, -, h⟩ := (bind_eq_ok).mp h
  obtain ⟨off, -, h⟩ := (bind_eq_ok).mp h
  obtain ⟨v, -, h⟩ := (bind_eq_ok).mp h
  cases h
  exact ⟨_, _, _, _, rfl⟩

theorem setString_read_eq (p : Page) (r : LogRecord Int32) (h : SetStringRecord.read p = .ok r) :
    ∃ txNum blk offset str, r = .setString txNum blk offset str := by
  unfold SetStringRecord.read at h
  obtain ⟨tx, -, h⟩ := (bind_eq_ok).mp h
  obtain ⟨fileName, -, h⟩ := (bind_eq_ok).mp h
  obtain ⟨blkNum, -, h⟩ := (bind_eq_ok).mp h
  obtain ⟨off, -, h⟩ := (bind_eq_ok).mp h
  obtain ⟨v, -, h⟩ := (bind_eq_ok).mp h
  cases h
  exact ⟨_, _, _, _, rfl⟩

/-- Only the reader of its own kind produces a record. -/
theorem createLogRecord_cases (bytes : Bytes) (r : LogRecord Int32)
    (h : createLogRecord bytes = .ok (some r)) :
    r = .checkpoint ∨ (∃ txNum, r = .start txNum) ∨ (∃ txNum, r = .commit txNum) ∨
      (∃ txNum, r = .rollback txNum) ∨ SetIntRecord.read bytes = .ok r ∨
      SetStringRecord.read bytes = .ok r := by
  unfold createLogRecord at h
  obtain ⟨op, -, h⟩ := (bind_eq_ok).mp h
  split at h
  · cases h
    exact Or.inl rfl
  split at h
  · obtain ⟨txNum, -, h⟩ := (bind_eq_ok).mp h
    cases h
    exact Or.inr (Or.inl ⟨txNum, rfl⟩)
  split at h
  · obtain ⟨txNum, -, h⟩ := (bind_eq_ok).mp h
    cases h
    exact Or.inr (Or.inr (Or.inl ⟨txNum, rfl⟩))
  split at h
  · obtain ⟨txNum, -, h⟩ := (bind_eq_ok).mp h
    cases h
    exact Or.inr (Or.inr (Or.inr (Or.inl ⟨txNum, rfl⟩)))
  split at h
  · obtain ⟨r', hr, h⟩ := (bind_eq_ok).mp h
    cases h
    exact Or.inr (Or.inr (Or.inr (Or.inr (Or.inl hr))))
  split at h
  · obtain ⟨r', hr, h⟩ := (bind_eq_ok).mp h
    cases h
    exact Or.inr (Or.inr (Or.inr (Or.inr (Or.inr hr))))
  · cases h

theorem createLogRecord_setInt (bytes : Bytes) (txNum : Int32) (blk : BlockId)
    (offset val : Int32) (h : createLogRecord bytes = .ok (some (.setInt txNum blk offset val))) :
    SetIntRecord.read bytes = .ok (.setInt txNum blk offset val) := by
  rcases createLogRecord_cases bytes _ h with h | ⟨_, h⟩ | ⟨_, h⟩ | ⟨_, h⟩ | h | h
  · cases h
  · cases h
  · cases h
  · cases h
  · exact h
  · obtain ⟨_, _, _, _, hr⟩ := setString_read_eq bytes _ h
    cases hr

theorem createLogRecord_setString (bytes : Bytes) (txNum : Int32) (blk : BlockId)
    (offset : Int32) (str : Bytes)
    (h : createLogRecord bytes = .ok (some (.setString txNum blk offset str))) :
    SetStringRecord.read bytes = .ok (.setString txNum blk offset str) := by
  rcases createLogRecord_cases bytes _ h with h | ⟨_, h⟩ | ⟨_, h⟩ | ⟨_, h⟩ | h | h
  · cases h
  · cases h
  · cases h
  · cases h
  · obtain ⟨_, _, _, _, hr⟩ := setInt_read_eq bytes _ h
    cases hr
  · exact h

/-- The writers keep the size of the buffer they create, whatever the positions. -/
theorem fields_length (p q : Page) (op txNum num offset : Int32) (fileName : Bytes)
    (bpos opos : ℤ) (hb : bpos < 2147483648) (ho : opos < 2147483648)
    (h : (do
      let page ← p.setInt 0 op
      let page ← page.setInt 4 txNum
      let page ← page.setString 8 fileName
      let page ← page.setInt bpos num
      page.setInt opos offset) = .ok q) : q.length = p.length := by
  obtain ⟨p1, h1, h⟩ := (bind_eq_ok).mp h
  obtain ⟨p2, h2, h⟩ := (bind_eq_ok).mp h
  obtain ⟨p3, h3, h⟩ := (bind_eq_ok).mp h
  obtain ⟨p4, h4, h⟩ := (bind_eq_ok).mp h
  rw [Page.setInt_length _ _ _ _ ho h, Page.setInt_length _ _ _ _ hb h4,
    Page.setBytes_length _ _ _ _ (by decide) h3, Page.setInt_length _ _ _ _ (by decide) h2,
    Page.setInt_length _ _ _ _ (by decide) h1]

theorem setInt_writeToLog_size (txNum : Int32) (blk : BlockId) (offset val : Int32)
    (bytes : Bytes) (h : SetIntRecord.writeToLog txNum blk offset val = .ok bytes) :
    bytes.length < 2147483648 := by
  unfold SetIntRecord.writeToLog at h
  simp only [Int.reduceAdd] at h
  generalize hrec : toInt (toInt (toInt (toInt (8 + maxLength blk.fileName.length) + 4) + 4)
    + 4) = recSize at h
  have hlt : recSize < 2147483648 := hrec ▸ (toInt_range _).2
  obtain ⟨p0, hnew, h⟩ := (bind_eq_ok).mp h
  obtain ⟨h0, rfl⟩ := newPage_eq_ok _ _ hnew
  simp only [← bind_assoc] at h
  obtain ⟨p5, h5, h⟩ := (bind_eq_ok).mp h
  simp only [bind_assoc] at h5
  rw [Page.setInt_length _ _ _ _ (toInt_range _).2 h,
    fields_length _ _ _ _ _ _ _ _ _ (toInt_range _).2 (toInt_range _).2 h5, zeroPage_length]
  omega

/-- The size of a SETSTRING record is an `int`. -/
theorem setString_writeToLog_size (txNum : Int32) (blk : BlockId) (offset : Int32)
    (str bytes : Bytes) (h : SetStringRecord.writeToLog txNum blk offset str = .ok bytes) :
    (bytes.length : ℤ) = toInt (toInt (toInt (toInt (8 + maxLength blk.fileName.length) + 4) +
      maxLength str.length) + maxLength str.length) := by
  unfold SetStringRecord.writeToLog at h
  simp only [Int.reduceAdd] at h
  generalize toInt (toInt (toInt (toInt (8 + maxLength blk.fileName.length) + 4) +
      maxLength str.length) + maxLength str.length) = recSize at h ⊢
  obtain ⟨p0, hnew, h⟩ := (bind_eq_ok).mp h
  obtain ⟨h0, rfl⟩ := newPage_eq_ok _ _ hnew
  simp only [← bind_assoc] at h
  obtain ⟨p5, h5, h⟩ := (bind_eq_ok).mp h
  simp only [bind_assoc] at h5
  rw [Page.setBytes_length _ _ _ _ (toInt_range _).2 h,
    fields_length _ _ _ _ _ _ _ _ _ (toInt_range _).2 (toInt_range _).2 h5, zeroPage_length]
  omega

/-- The gap in front of a nonempty value never holds the length of the value. -/
theorem gap_word_ne (pre str : Bytes) (h0 : str ≠ []) (hlen : str.length < 2147483648) :
    (decodeInt (slice (pre ++ zeroPage str.length ++
      (encodeInt (Int32.ofInt str.length) ++ str)) pre.length 4)).toInt ≠ str.length := by
  have hpos : 0 < str.length := List.length_pos_iff.mpr h0
  have hgap : slice (pre ++ zeroPage str.length ++
      (encodeInt (Int32.ofInt str.length) ++ str)) pre.length 4 =
      (zeroPage str.length ++ (encodeInt (Int32.ofInt str.length) ++ str)).take 4 := by
    unfold slice
    rw [List.append_assoc, List.drop_left]
  rw [hgap]
  by_cases hlong : 4 ≤ str.length
  · have hzero : (zeroPage str.length ++ (encodeInt (Int32.ofInt str.length) ++ str)).take 4 =
        zeroPage 4 := by
      rw [List.take_append_of_le_length (by simpa using hlong)]
      simp [zeroPage, List.take_replicate, Nat.min_eq_left hlong]
    rw [hzero]
    have : (decodeInt (zeroPage 4)).toInt = 0 := by decide
    omega
  · -- one, two or three zero bytes, followed by the low bytes of the length word
    have hcases : str.length = 1 ∨ str.length = 2 ∨ str.length = 3 := by omega
    rcases hcases with h | h | h <;> rw [h]
    · show (decodeInt [0, 1, 0, 0]).toInt ≠ 1
      decide
    · show (decodeInt [0, 0, 2, 0]).toInt ≠ 2
      decide
    · show (decodeInt [0, 0, 0, 3]).toInt ≠ 3
      decide

/-- The log gives a record back exactly when `RoundTrips` holds of it. -/
theorem readBack_eq_iff (r : LogRecord Int32) : r.readBack = .ok (some r) ↔ RoundTrips r := by
  refine ⟨?_, readBack_of_roundTrips r⟩
  intro h
  cases r with
  | checkpoint => trivial
  | start txNum => trivial
  | commit txNum => trivial
  | rollback txNum => trivial
  | setInt txNum blk offset val =>
    obtain ⟨bytes, hwrite, h⟩ := (bind_eq_ok).mp h
    have hsize := setInt_writeToLog_size txNum blk offset val bytes hwrite
    have hread := createLogRecord_setInt bytes txNum blk offset val h
    have hfit := setInt_read_size bytes txNum blk offset val hsize hread
    show blk.fileName.length + 24 < 2147483648
    omega
  | setString txNum blk offset str =>
    obtain ⟨bytes, hwrite, h⟩ := (bind_eq_ok).mp h
    have hsize := setString_writeToLog_size txNum blk offset str bytes hwrite
    have hrange := toInt_range (toInt (toInt (toInt (8 + maxLength blk.fileName.length) + 4) +
      maxLength str.length) + maxLength str.length)
    have hread := createLogRecord_setString bytes txNum blk offset str h
    obtain ⟨hfit, hword⟩ := setString_read_size bytes txNum blk offset str (by omega) hread
    -- the written size did not wrap, so the record is the one `setString_writeToLog` describes
    have hwrap := toInt_emod ((blk.fileName.length : ℤ) + 20 + str.length + (4 + str.length))
    obtain ⟨hb, ho, -⟩ := positions blk.fileName.length (by omega)
    have hv : toInt ((blk.fileName.length : ℤ) + 16 + (4 + str.length)) =
        blk.fileName.length + 20 + str.length := by
      rw [toInt_eq _ (by omega) (by omega)]
      omega
    simp only [hb, ho, maxLength_eq str.length (by omega), hv] at hsize hrange
    have hwritten := setString_writeToLog txNum blk offset str (by omega)
    cases hwrite.symm.trans hwritten
    have hlen := header_length LogRecord.SETSTRING txNum blk offset
    rw [← hlen] at hword
    have hnil : str = [] := by
      by_contra hne
      exact gap_word_ne _ str hne (by omega) hword
    exact ⟨hnil, by omega⟩

/-- An old value of at least four bytes is lost without a sign: it comes back empty. -/
theorem readBack_setString_ne :
    (LogRecord.setString 3 ⟨[116, 98, 108], 7⟩ 40 [111, 110, 101, 33]).readBack =
        .ok (some (.setString 3 ⟨[116, 98, 108], 7⟩ 40 [])) ∧
      (LogRecord.setString 3 ⟨[116, 98, 108], 7⟩ 40 [111, 110, 101, 33]).readBack ≠
        .ok (some (.setString 3 ⟨[116, 98, 108], 7⟩ 40 [111, 110, 101, 33])) := by
  decide

/-- An old value of one to three bytes stops the process that reads it back. -/
example : (LogRecord.setString 3 ⟨[116], 7⟩ 40 [111, 110, 101]).readBack = .error .exit := by
  decide

end SampleDB.RecordRoundTrip
