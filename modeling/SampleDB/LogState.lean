import SampleDB.LogContents

/-!
The invariant of the log manager. The log page holds the records that are already
in its block on disk and, in front of them, those that are not; their number is
the distance between the latest and the last saved LSN. Each operation keeps the
invariant, and each is described by what it does to the three groups of records.
-/
namespace SampleDB.LogState

open Words Pages Blocks Logging LogContents

/-- `unsaved` are the records of the log page that are not on disk, `saved` those
that are, `older` those of the blocks before; all newest first. -/
structure LogInv (B : BlockSize) (lm : LogMgr) (unsaved saved : List Bytes)
    (older : List (List Bytes)) : Prop where
  file_holds : FileHolds B lm.file saved older
  currBlk : lm.currBlk = older.length
  page_holds : BlockHolds B lm.page (unsaved ++ saved)
  lsn : lm.latestLsn - lm.lastSaveLsn = unsaved.length

section Operations

variable {B : BlockSize} {lm : LogMgr} {unsaved saved : List Bytes} {older : List (List Bytes)}

theorem LogInv.flushPage (h : LogInv B lm unsaved saved older) :
    LogInv B lm.flushPage [] (unsaved ++ saved) older where
  file_holds := by
    show FileHolds B (lm.file.write lm.currBlk lm.page) _ _
    rw [h.currBlk]
    exact h.file_holds.write lm.page _ h.page_holds
  currBlk := h.currBlk
  page_holds := h.page_holds
  lsn := by
    show lm.latestLsn - lm.latestLsn = _
    simp

/-- A flush either saves everything, or its LSN was saved before. -/
theorem LogInv.flush_cases (h : LogInv B lm unsaved saved older) (lsn : ℤ) :
    (lm.flush lsn = lm.flushPage ∧ LogInv B (lm.flush lsn) [] (unsaved ++ saved) older) ∨
      (lm.flush lsn = lm ∧ lsn < lm.lastSaveLsn) := by
  unfold LogMgr.flush
  by_cases hge : lsn ≥ lm.lastSaveLsn
  · rw [if_pos hge]
    exact Or.inl ⟨rfl, h.flushPage⟩
  · rw [if_neg hge]
    exact Or.inr ⟨rfl, by omega⟩

/-- Creating the first block of an empty log file. -/
theorem new_nil (B : BlockSize) :
    ∃ lm, LogMgr.new B [] = .ok lm ∧ LogInv B lm [] [] [] ∧ lm.latestLsn = 0 ∧
      ∃ p, lm.file = [.append, .write 0 p] := by
  obtain ⟨p, hp, hholds⟩ := setInt_blockHolds_nil B (zeroPage B.bytes) (zeroPage_length _)
  refine ⟨⟨[.append, .write 0 p], p, 0, 0, 0⟩, ?_, ?_, rfl, p, rfl⟩
  · simp only [LogMgr.new, File.length_nil, if_true, LogMgr.appendNewBlock, hp, ok_bind]
    rfl
  · have hlen : File.length B (File.append []) = 1 := by simp
    have hread := File.read_write_self B (File.append []) 0 p (by omega)
    refine ⟨⟨?_, trivial, ?_⟩, rfl, hholds, rfl⟩
    · exact (File.length_write B (File.append []) 0 p (by omega)).trans hlen
    · show BlockHolds B (File.read B ((File.append []).write 0 p) ((0 : ℕ) : ℤ)) []
      rw [hread]
      exact hholds

/-- Opening a log file resumes in its last block. -/
theorem new_of_fileHolds {f : File} (h : FileHolds B f saved older) :
    ∃ lm, LogMgr.new B f = .ok lm ∧ LogInv B lm [] saved older ∧ lm.latestLsn = 0 ∧
      lm.file = f := by
  have hlen := h.length
  refine ⟨⟨f, f.read B older.length, older.length, 0, 0⟩, ?_, ?_, rfl, rfl⟩
  · unfold LogMgr.new
    rw [if_neg (by omega), hlen]
    rfl
  · exact ⟨h, rfl, h.last_holds, rfl⟩

/-- The new block of an append, once the old one is saved. -/
theorem LogInv.appendNewBlock (h : LogInv B lm [] saved older) (hne : saved ≠ []) :
    ∃ lm', lm.appendNewBlock B = .ok (lm', older.length + 1) ∧
      LogInv B { lm' with currBlk := older.length + 1 } [] [] (saved :: older) ∧
      lm'.latestLsn = lm.latestLsn ∧ lm'.lastSaveLsn = lm.lastSaveLsn ∧
      ∃ p, lm'.file = lm.file ++ [.append, .write (older.length + 1) p] := by
  obtain ⟨p, hp, hholds⟩ := setInt_blockHolds_nil B lm.page h.page_holds.size
  have hlen := h.file_holds.length
  refine ⟨{ lm with file := lm.file.append.write (older.length + 1) p, page := p }, ?_, ?_, rfl,
    rfl, p, ?_⟩
  · simp only [LogMgr.appendNewBlock, hp, ok_bind, hlen]
  · exact ⟨h.file_holds.extend hne p hholds, rfl, hholds, h.lsn⟩
  · simp [File.append, File.write]

theorem LogInv.pack (h : LogInv B lm unsaved saved older) (r : Bytes)
    (hfit : 4 + (frames (r :: (unsaved ++ saved))).length ≤ B.bytes) :
    ∃ lm', lm.pack ((B.bytes : ℤ) - (frames (unsaved ++ saved)).length) (r.length + 4) r =
        .ok (lm', lm.latestLsn + 1) ∧
      LogInv B lm' (r :: unsaved) saved older ∧ lm'.latestLsn = lm.latestLsn + 1 ∧
      lm'.lastSaveLsn = lm.lastSaveLsn ∧ lm'.file = lm.file := by
  have hB := B.lt_int
  have hcons := frames_length_cons r (unsaved ++ saved)
  have hpos : toInt ((B.bytes : ℤ) - (frames (unsaved ++ saved)).length - (r.length + 4)) =
      B.bytes - (frames (r :: (unsaved ++ saved))).length := by
    rw [toInt_eq _ (by omega) (by omega)]
    omega
  obtain ⟨q, q', hq, hq', hholds⟩ := pack_blockHolds B lm.page r _ _ h.page_holds hfit rfl
  refine ⟨{ lm with page := q', latestLsn := lm.latestLsn + 1 }, ?_, ?_, rfl, rfl, rfl⟩
  · simp only [LogMgr.pack, hpos, hq, hq', ok_bind]
  · refine ⟨h.file_holds, h.currBlk, hholds, ?_⟩
    have hlsn := h.lsn
    show lm.latestLsn + 1 - lm.lastSaveLsn = _
    simp only [List.length_cons]
    omega

/-- An append adds its record in front, and takes the next LSN. When the record does not
fit, the block is saved and a new one is opened behind it. -/
theorem LogInv.append (h : LogInv B lm unsaved saved older) (r : Bytes)
    (hr : r.length + 8 ≤ B.bytes) :
    ∃ lm', lm.append B r = .ok (lm', lm.latestLsn + 1) ∧ lm'.latestLsn = lm.latestLsn + 1 ∧
      ((LogInv B lm' (r :: unsaved) saved older ∧ lm'.file = lm.file ∧
          lm'.lastSaveLsn = lm.lastSaveLsn) ∨
        (LogInv B lm' [r] [] ((unsaved ++ saved) :: older) ∧ lm'.lastSaveLsn = lm.latestLsn ∧
          FileHolds B lm.flushPage.file (unsaved ++ saved) older ∧
          ∃ p, lm'.file = lm.flushPage.file ++ [.append, .write (older.length + 1) p])) := by
  have hB := B.lt_int
  have hroom := h.page_holds.room
  have hboundary := h.page_holds.boundary_toInt
  have hsize : toInt r.length = r.length := toInt_eq _ (by omega) (by omega)
  have hneed : toInt ((r.length : ℤ) + 4) = r.length + 4 := toInt_eq _ (by omega) (by omega)
  have hdiff : toInt ((B.bytes : ℤ) - (frames (unsaved ++ saved)).length - (r.length + 4)) =
      B.bytes - (frames (unsaved ++ saved)).length - (r.length + 4) :=
    toInt_eq _ (by omega) (by omega)
  have hcons := frames_length_cons r (unsaved ++ saved)
  by_cases hfull : (B.bytes : ℤ) - (frames (unsaved ++ saved)).length - (r.length + 4) < 4
  · have hne : unsaved ++ saved ≠ [] := by
      intro hnil
      rw [hnil] at hfull
      simp only [frames_nil, List.length_nil] at hfull
      omega
    obtain ⟨lm', hnew, hinv, hlatest, hsave, p, hfile⟩ := h.flushPage.appendNewBlock hne
    have hempty := hinv.page_holds
    simp only [List.append_nil] at hempty
    have hframes := frames_length_cons r []
    simp only [frames_nil, List.length_nil] at hframes
    obtain ⟨lm'', hpack, hinv', hlatest', hsave', hfile'⟩ := hinv.pack r
      (by simp only [List.append_nil]; omega)
    refine ⟨lm'', ?_, ?_, Or.inr ⟨hinv', ?_, h.flushPage.file_holds, p, ?_⟩⟩
    · unfold LogMgr.append
      simp only [h.page_holds.boundary, ok_bind, hboundary, hsize, hneed, hdiff, hfull, if_true,
        hnew, hempty.boundary, hempty.boundary_toInt]
      simp only [List.append_nil] at hpack
      rw [hpack, hlatest]
      rfl
    · rw [hlatest', hlatest]
      rfl
    · rw [hsave', hsave]
      rfl
    · rw [hfile', hfile]
  · obtain ⟨lm', hpack, hinv, hlatest, hsave, hfile⟩ := h.pack r (by omega)
    refine ⟨lm', ?_, hlatest, Or.inl ⟨hinv, hfile, hsave⟩⟩
    unfold LogMgr.append
    simp only [h.page_holds.boundary, ok_bind, hboundary, hsize, hneed, hdiff, hfull, if_false,
      hpack]

/-- The iterator gives all records, the newest first. -/
theorem LogInv.iterator (h : LogInv B lm unsaved saved older) :
    ∃ it, lm.iterator B = .ok (lm.flushPage, it) ∧
      LogIterator.Yields B lm.flushPage.file it (unsaved ++ saved ++ older.flatten) := by
  obtain ⟨it, hmove, hyields⟩ := h.flushPage.file_holds.yields
  refine ⟨it, ?_, hyields⟩
  unfold LogMgr.iterator
  simp only [h.flushPage.currBlk, hmove, ok_bind]

end Operations

/-!
The log seen from outside: the records that a crash loses and those that it keeps,
both newest first.
-/

/-- The log manager has these records; a crash keeps those in `saved`. -/
def Holds (B : BlockSize) (lm : LogMgr) (unsaved saved : List Bytes) : Prop :=
  ∃ inBlock older, LogInv B lm unsaved inBlock older ∧ inBlock ++ older.flatten = saved

/-- The blocks before the last one stay as they are. -/
structure Extends (B : BlockSize) (lm lm' : LogMgr) : Prop where
  currBlk : lm.currBlk ≤ lm'.currBlk
  read : ∀ i < lm.currBlk, lm'.file.read B i = lm.file.read B i

/-- An iterator of the log manager that still has these records to give. -/
def Reading (B : BlockSize) (lm : LogMgr) (it : LogIterator) (rs : List Bytes) : Prop :=
  it.blk ≤ lm.currBlk ∧ LogIterator.Yields B lm.file it rs

section Outside

variable {B : BlockSize} {lm lm' : LogMgr} {unsaved saved : List Bytes}

theorem Extends.refl (B : BlockSize) (lm : LogMgr) : Extends B lm lm :=
  ⟨Nat.le_refl _, fun _ _ => rfl⟩

theorem LogInv.extends_flushPage {older : List (List Bytes)} (h : LogInv B lm unsaved saved older) :
    Extends B lm lm.flushPage := by
  refine ⟨Nat.le_refl _, ?_⟩
  intro i hi
  have hlen := h.file_holds.length
  have hblk := h.currBlk
  exact File.read_write_ne B lm.file lm.currBlk i lm.page (by omega) (by omega)

/-- The new block of an append lies behind the blocks that there are. -/
theorem LogInv.extends_append {older : List (List Bytes)} (h : LogInv B lm unsaved saved older)
    {p : Page} (hblk : lm'.currBlk = older.length + 1)
    (hfile : lm'.file = lm.flushPage.file ++ [.append, .write (older.length + 1) p]) :
    Extends B lm lm' := by
  have hflush := h.extends_flushPage
  have hlen := h.flushPage.file_holds.length
  have hcurr := h.currBlk
  refine ⟨by omega, ?_⟩
  intro i hi
  have happ : lm'.file = lm.flushPage.file.append.write (older.length + 1) p := by
    rw [hfile]
    simp [File.append, File.write]
  rw [happ, File.read_write_ne B _ _ i p (by rw [File.length_append]; omega) (by omega),
    File.read_append B _ i (by omega), hflush.read i hi]

theorem Holds.lsn (h : Holds B lm unsaved saved) :
    lm.latestLsn - lm.lastSaveLsn = unsaved.length := by
  obtain ⟨inBlock, older, hinv, -⟩ := h
  exact hinv.lsn

/-- The append may save the records before it. -/
theorem Holds.append (h : Holds B lm unsaved saved) (r : Bytes) (hr : r.length + 8 ≤ B.bytes) :
    ∃ lm', lm.append B r = .ok (lm', lm.latestLsn + 1) ∧ lm'.latestLsn = lm.latestLsn + 1 ∧
      Extends B lm lm' ∧
      (Holds B lm' (r :: unsaved) saved ∨ Holds B lm' [r] (unsaved ++ saved)) := by
  obtain ⟨inBlock, older, hinv, hsaved⟩ := h
  obtain ⟨lm', happend, hlatest, hcases⟩ := hinv.append r hr
  refine ⟨lm', happend, hlatest, ?_⟩
  rcases hcases with ⟨hinv', hfile, -⟩ | ⟨hinv', -, -, p, hfile⟩
  · refine ⟨⟨?_, ?_⟩, Or.inl ⟨inBlock, older, hinv', hsaved⟩⟩
    · exact Nat.le_of_eq (hinv.currBlk.trans hinv'.currBlk.symm)
    · intro i _
      rw [hfile]
  · refine ⟨hinv.extends_append hinv'.currBlk hfile,
      Or.inr ⟨[], (unsaved ++ inBlock) :: older, hinv', ?_⟩⟩
    rw [← hsaved, List.nil_append, List.flatten_cons, List.append_assoc]

theorem Holds.flush (h : Holds B lm unsaved saved) (lsn : ℤ) :
    Extends B lm (lm.flush lsn) ∧ (lm.flush lsn).latestLsn = lm.latestLsn ∧
      (Holds B (lm.flush lsn) [] (unsaved ++ saved) ∨
        (Holds B (lm.flush lsn) unsaved saved ∧ lsn < lm.lastSaveLsn)) := by
  obtain ⟨inBlock, older, hinv, hsaved⟩ := h
  rcases hinv.flush_cases lsn with ⟨heq, hinv'⟩ | ⟨heq, hlt⟩
  · rw [heq] at hinv' ⊢
    exact ⟨hinv.extends_flushPage, rfl,
      Or.inl ⟨unsaved ++ inBlock, older, hinv', by rw [List.append_assoc, hsaved]⟩⟩
  · rw [heq]
    exact ⟨Extends.refl B lm, rfl, Or.inr ⟨⟨inBlock, older, hinv, hsaved⟩, hlt⟩⟩

theorem Holds.iterator (h : Holds B lm unsaved saved) :
    ∃ lm' it, lm.iterator B = .ok (lm', it) ∧ Holds B lm' [] (unsaved ++ saved) ∧
      lm'.latestLsn = lm.latestLsn ∧ Extends B lm lm' ∧ Reading B lm' it (unsaved ++ saved) := by
  obtain ⟨inBlock, older, hinv, hsaved⟩ := h
  obtain ⟨it, hit, hyields⟩ := hinv.iterator
  rw [List.append_assoc, hsaved] at hyields
  refine ⟨lm.flushPage, it, hit, ⟨unsaved ++ inBlock, older, hinv.flushPage,
    by rw [List.append_assoc, hsaved]⟩, rfl, hinv.extends_flushPage, ?_, hyields⟩
  unfold LogMgr.iterator LogIterator.moveToBlock at hit
  obtain ⟨it', hmove, hok⟩ := bind_eq_ok.mp hit
  obtain ⟨w, -, hok'⟩ := bind_eq_ok.mp hmove
  cases hok'
  cases hok
  exact Int.le_refl _

/-- A log manager that is opened on the file of another one has the saved records. -/
theorem Holds.new (h : Holds B lm unsaved saved) :
    ∃ lm', LogMgr.new B lm.file = .ok lm' ∧ lm'.latestLsn = 0 ∧ Holds B lm' [] saved := by
  obtain ⟨inBlock, older, hinv, hsaved⟩ := h
  obtain ⟨lm', hnew, hinv', hlatest, -⟩ := new_of_fileHolds hinv.file_holds
  exact ⟨lm', hnew, hlatest, inBlock, older, hinv', hsaved⟩

theorem next_blk_le {f : File} {it it' : LogIterator} {r : Bytes}
    (h : it.next B f = .ok (r, it')) : it'.blk ≤ it.blk := by
  unfold LogIterator.next LogIterator.moveToBlock at h
  split at h
  · obtain ⟨it₁, hmove, h⟩ := bind_eq_ok.mp h
    obtain ⟨w, -, hok⟩ := bind_eq_ok.mp hmove
    obtain ⟨r', -, h⟩ := bind_eq_ok.mp h
    cases hok
    cases h
    dsimp only
    omega
  · obtain ⟨it₁, hok, h⟩ := bind_eq_ok.mp h
    obtain ⟨r', -, h⟩ := bind_eq_ok.mp h
    cases hok
    cases h
    exact Int.le_refl _

/-- The next record is read in a block that does not change any more. -/
theorem next_congr {f g : File} {it : LogIterator} {n : ℕ} (hblk : it.blk ≤ n)
    (heq : ∀ i < n, g.read B i = f.read B i) (hnext : it.hasNext B = true) :
    it.next B g = it.next B f := by
  unfold LogIterator.next LogIterator.moveToBlock
  split
  · rename_i hpos
    have h0 : 0 < it.blk := by simpa [LogIterator.hasNext, hpos] using hnext
    have hread := heq (it.blk - 1).toNat (by omega)
    rw [Int.toNat_of_nonneg (by omega)] at hread
    rw [hread]
  · rfl

theorem yields_congr {f g : File} {it : LogIterator} {rs : List Bytes} {n : ℕ}
    (h : LogIterator.Yields B f it rs) (hblk : it.blk ≤ n)
    (heq : ∀ i < n, g.read B i = f.read B i) : LogIterator.Yields B g it rs := by
  induction h with
  | done it hno => exact .done it hno
  | more it it' r rs hyes hnext hrest ih =>
    have hle := next_blk_le hnext
    exact .more it it' r rs hyes ((next_congr hblk heq hyes).trans hnext) (ih (by omega))

theorem Reading.extends {it : LogIterator} {rs : List Bytes} (h : Reading B lm it rs)
    (hext : Extends B lm lm') : Reading B lm' it rs := by
  have hblk := h.1
  have hcurr := hext.currBlk
  exact ⟨by omega, yields_congr h.2 hblk hext.read⟩

theorem Reading.next {it : LogIterator} {r : Bytes} {rs : List Bytes}
    (h : Reading B lm it (r :: rs)) :
    it.hasNext B = true ∧ ∃ it', it.next B lm.file = .ok (r, it') ∧ Reading B lm it' rs := by
  obtain ⟨hblk, hyields⟩ := h
  cases hyields with
  | more _ it' _ _ hyes hnext hrest =>
    have hle := next_blk_le hnext
    exact ⟨hyes, it', hnext, by omega, hrest⟩

theorem Reading.done {it : LogIterator} (h : Reading B lm it []) : it.hasNext B = false := by
  obtain ⟨-, hyields⟩ := h
  cases hyields with
  | done _ hno => exact hno

end Outside

end SampleDB.LogState
