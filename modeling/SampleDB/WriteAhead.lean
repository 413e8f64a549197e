import SampleDB.BufferPool
import SampleDB.LogRecords
import SampleDB.LogSequence

/-!
The write-ahead rule. Each copy of a data block, in a buffer or on disk, carries the
logged writes whose effect it contains. A buffer that contains a write whose record
is not saved has at least the LSN of that record, and whenever it is written back
the log is flushed up to this LSN first.
-/
namespace SampleDB.WriteAhead

open Words Pages Blocks Logging LogContents LogState BufferPool

/-- A logged write: the LSN and the bytes of its record. -/
structure Logged where
  lsn : ℤ
  logRec : Bytes
  deriving DecidableEq, Repr

/-- A copy of a block, and the logged writes whose effect it contains. -/
structure Copy (β : Type) where
  contents : β
  effects : List Logged

/-- The managers, and all records of the log file, the oldest first. -/
structure WalState (β : Type) where
  mgr : BufferMgr (Copy β)
  records : List Bytes

inductive WalOp (β : Type)
  | append (logRec : Bytes)
  | flush (lsn : ℤ)
  | logged (i : ℕ) (f : β → β) (txnum : ℤ) (logRec : Bytes)
  | unlogged (i : ℕ) (f : β → β) (txnum : ℤ)
  | pin (blk : BlockId)
  | unpin (i : ℕ)
  | flushAll (txnum : ℤ)

variable {β : Type}

def WalState.setLog (s : WalState β) (log : LogMgr) (records : List Bytes) : WalState β :=
  ⟨{ s.mgr with files := { s.mgr.files with log := log } }, records⟩

/-- A logged write appends its record first, as `Transaction::setInt` and `setString` do. -/
def WalState.step (B : BlockSize) (s : WalState β) : WalOp β → Result (WalState β)
  | .append logRec => do
      let (log, _) ← s.mgr.files.log.append B logRec
      .ok (s.setLog log (s.records ++ [logRec]))
  | .flush lsn => .ok (s.setLog (s.mgr.files.log.flush lsn) s.records)
  | .logged i f txnum logRec => do
      let (log, lsn) ← s.mgr.files.log.append B logRec
      let s := s.setLog log (s.records ++ [logRec])
      let write := fun c : Copy β => ⟨f c.contents, ⟨lsn, logRec⟩ :: c.effects⟩
      .ok { s with mgr := s.mgr.modify i write txnum lsn }
  | .unlogged i f txnum =>
      let write := fun c : Copy β => ⟨f c.contents, c.effects⟩
      .ok { s with mgr := s.mgr.modify i write txnum (-1) }
  | .pin blk => .ok { s with mgr := (s.mgr.tryToPin blk).1 }
  | .unpin i => .ok { s with mgr := s.mgr.unpin i }
  | .flushAll txnum => .ok { s with mgr := s.mgr.flushAll txnum }

/-- The managers on the log file that the operations `earlier` have left, and on a disk. -/
def WalState.new (B : BlockSize) (earlier : List LogSequence.LogOp) (disk : BlockId → β)
    (blank : β) (buffSize : ℕ) : Result (WalState β) := do
  let session ← LogSequence.LogSession.run B (earlier ++ [.reopen])
  .ok ⟨BufferMgr.new ⟨session.lm, fun blk => ⟨disk blk, []⟩⟩ ⟨blank, []⟩ buffSize,
    LogSequence.appended earlier⟩

def WalState.run (B : BlockSize) (earlier : List LogSequence.LogOp) (disk : BlockId → β)
    (blank : β) (buffSize : ℕ) (ops : List (WalOp β)) : Result (WalState β) := do
  let s ← WalState.new B earlier disk blank buffSize
  ops.foldlM (WalState.step B) s

/-- The record with this LSN. The log file had `earlier` records when it was opened. -/
def InLog (earlier : ℕ) (records : List Bytes) (e : Logged) : Prop :=
  1 ≤ e.lsn ∧ records[(earlier + e.lsn - 1).toNat]? = some e.logRec

/-- A log manager constructed on the file finds the record at its place. -/
def OnDisk (B : BlockSize) (earlier : ℕ) (file : File) (e : Logged) : Prop :=
  ∃ lm lm' it rs, LogMgr.new B file = .ok lm ∧ lm.iterator B = .ok (lm', it) ∧
    LogIterator.Yields B lm'.file it rs ∧ InLog earlier rs.reverse e

/-- The log manager has these records. -/
def LogHolds (B : BlockSize) (earlier : ℕ) (log : LogMgr) (records : List Bytes) : Prop :=
  ∃ unsaved saved older, LogInv B log unsaved saved older ∧
    unsaved ++ saved ++ older.flatten = records.reverse ∧
    log.latestLsn + earlier = records.length ∧ 0 ≤ log.latestLsn

section Log

variable {B : BlockSize} {earlier : ℕ} {log : LogMgr} {records : List Bytes}

theorem LogHolds.flush (h : LogHolds B earlier log records) (lsn : ℤ) :
    LogHolds B earlier (log.flush lsn) records ∧
      log.lastSaveLsn ≤ (log.flush lsn).lastSaveLsn ∧
      ∀ n ≤ lsn, n ≤ log.latestLsn → n ≤ (log.flush lsn).lastSaveLsn := by
  obtain ⟨unsaved, saved, older, hinv, hrecords, hcount, hnonneg⟩ := h
  have hlsn := hinv.lsn
  rcases hinv.flush_cases lsn with ⟨heq, hinv'⟩ | ⟨heq, hskip⟩
  · have hlatest : (log.flush lsn).latestLsn = log.latestLsn := by
      rw [heq]
      rfl
    have hsave : (log.flush lsn).lastSaveLsn = log.latestLsn := by
      rw [heq]
      rfl
    refine ⟨⟨[], unsaved ++ saved, older, hinv', by simpa using hrecords, by omega, by omega⟩,
      by omega, ?_⟩
    intro n _ hn
    omega
  · rw [heq]
    refine ⟨⟨unsaved, saved, older, hinv, hrecords, hcount, hnonneg⟩, Int.le_refl _, ?_⟩
    intro n hn _
    omega

theorem LogHolds.append (h : LogHolds B earlier log records) (r : Bytes)
    (hr : r.length + 8 ≤ B.bytes) :
    ∃ log', log.append B r = .ok (log', log.latestLsn + 1) ∧
      LogHolds B earlier log' (records ++ [r]) ∧ log.lastSaveLsn ≤ log'.lastSaveLsn := by
  obtain ⟨unsaved, saved, older, hinv, hrecords, hcount, hnonneg⟩ := h
  have hlsn := hinv.lsn
  obtain ⟨log', happend, hlatest, hcases⟩ := hinv.append r hr
  have hcount' : log'.latestLsn + earlier = (records ++ [r]).length := by
    rw [List.length_append, List.length_singleton]
    push_cast
    omega
  refine ⟨log', happend, ?_⟩
  rcases hcases with ⟨hinv', -, hsave⟩ | ⟨hinv', hsave, -, -⟩
  · exact ⟨⟨r :: unsaved, saved, older, hinv', by simp [← hrecords], hcount', by omega⟩,
      by omega⟩
  · exact ⟨⟨[r], [], (unsaved ++ saved) :: older, hinv', by simp [← hrecords], hcount', by omega⟩,
      by omega⟩

theorem InLog.append {e : Logged} (h : InLog earlier records e) (more : List Bytes) :
    InLog earlier (records ++ more) e := by
  refine ⟨h.1, ?_⟩
  have hlt := (List.getElem?_eq_some_iff.mp h.2).1
  rw [List.getElem?_append_left hlt]
  exact h.2

/-- Every record up to the last saved LSN is on disk. -/
theorem LogHolds.onDisk (h : LogHolds B earlier log records) {e : Logged}
    (he : InLog earlier records e) (hsaved : e.lsn ≤ log.lastSaveLsn) :
    OnDisk B earlier log.file e := by
  obtain ⟨unsaved, saved, older, hinv, hrecords, hcount, hnonneg⟩ := h
  obtain ⟨lm, hnew, hinv', -, -⟩ := new_of_fileHolds hinv.file_holds
  obtain ⟨it, hit, hyields⟩ := hinv'.iterator
  refine ⟨lm, _, it, _, hnew, hit, hyields, he.1, ?_⟩
  have hlsn := hinv.lsn
  have hsplit : records = (saved ++ older.flatten).reverse ++ unsaved.reverse := by
    rw [← List.reverse_append, ← List.append_assoc, hrecords, List.reverse_reverse]
  have hplace := he.2
  have hlength := congrArg List.length hsplit
  rw [List.length_append, List.length_reverse, List.length_reverse] at hlength
  have hone := he.1
  rw [hsplit, List.getElem?_append_left (by rw [List.length_reverse]; omega)] at hplace
  exact hplace

end Log

/-- Each write that a copy contains is in the log, and saved if the copy is on disk. In a
buffer it is saved, or it has at most the LSN of the buffer. -/
structure WalInv (B : BlockSize) (earlier : ℕ) (m : BufferMgr (Copy β))
    (records : List Bytes) : Prop where
  log : LogHolds B earlier m.files.log records
  pool : ∀ b ∈ m.pool, ∀ e ∈ b.contents.effects, InLog earlier records e ∧
    (e.lsn ≤ m.files.log.lastSaveLsn ∨ e.lsn ≤ b.lsn)
  disk : ∀ blk, ∀ e ∈ (m.files.disk blk).effects, InLog earlier records e ∧
    e.lsn ≤ m.files.log.lastSaveLsn

section Pool

variable {B : BlockSize} {earlier : ℕ} {m : BufferMgr (Copy β)} {records : List Bytes}

theorem InLog.le_latest {log : LogMgr} (hlog : LogHolds B earlier log records) {e : Logged}
    (h : InLog earlier records e) : e.lsn ≤ log.latestLsn := by
  obtain ⟨-, -, -, -, -, hcount, -⟩ := hlog
  have hlt := (List.getElem?_eq_some_iff.mp h.2).1
  have hone := h.1
  omega

/-- The log manager goes on; what was saved stays saved. -/
theorem WalInv.setLog (h : WalInv B earlier m records) (log : LogMgr) (more : List Bytes)
    (hlog : LogHolds B earlier log (records ++ more))
    (hsave : m.files.log.lastSaveLsn ≤ log.lastSaveLsn) :
    WalInv B earlier { m with files := { m.files with log := log } } (records ++ more) where
  log := hlog
  pool := by
    intro b hb e he
    obtain ⟨hin, hcovered⟩ := h.pool b hb e he
    refine ⟨hin.append more, ?_⟩
    rcases hcovered with hle | hle
    · exact Or.inl (Int.le_trans hle hsave)
    · exact Or.inr hle
  disk := by
    intro blk e he
    obtain ⟨hin, hle⟩ := h.disk blk e he
    exact ⟨hin.append more, Int.le_trans hle hsave⟩

/-- One buffer is exchanged for one that keeps the rule. -/
theorem WalInv.set (h : WalInv B earlier m records) (i : ℕ) (b' : Buffer (Copy β)) (n : ℤ)
    (hb' : ∀ e ∈ b'.contents.effects, InLog earlier records e ∧
      (e.lsn ≤ m.files.log.lastSaveLsn ∨ e.lsn ≤ b'.lsn)) :
    WalInv B earlier ⟨m.files, m.pool.set i b', n⟩ records where
  log := h.log
  pool := by
    intro b hb e he
    rcases List.mem_or_eq_of_mem_set hb with hold | rfl
    · exact h.pool b hold e he
    · exact hb' e he
  disk := h.disk

/-- Writing a buffer back flushes the log far enough. -/
theorem WalInv.flush (h : WalInv B earlier m records) (i : ℕ) :
    WalInv B earlier (m.onBuffer i Buffer.flush) records := by
  cases hb : m.pool[i]? with
  | none =>
    unfold BufferMgr.onBuffer
    rwa [hb]
  | some b =>
    have hmem := List.mem_of_getElem? hb
    rw [BufferMgr.onBuffer_eq hb]
    unfold Buffer.flush
    by_cases hdirty : b.txnum ≥ 0
    · simp only [hdirty, if_true]
      obtain ⟨hlog, hsave, hcover⟩ := h.log.flush b.lsn
      have hsaved : ∀ e ∈ b.contents.effects, InLog earlier records e ∧
          e.lsn ≤ (m.files.log.flush b.lsn).lastSaveLsn := by
        intro e he
        obtain ⟨hin, hle | hle⟩ := h.pool b hmem e he
        · exact ⟨hin, Int.le_trans hle hsave⟩
        · exact ⟨hin, hcover e.lsn hle (hin.le_latest h.log)⟩
      constructor
      · exact hlog
      · intro c hc e he
        rcases List.mem_or_eq_of_mem_set hc with hold | rfl
        · obtain ⟨hin, hle | hle⟩ := h.pool c hold e he
          · exact ⟨hin, Or.inl (Int.le_trans hle hsave)⟩
          · exact ⟨hin, Or.inr hle⟩
        · obtain ⟨hin, hle⟩ := hsaved e he
          exact ⟨hin, Or.inl hle⟩
      · intro blk e he
        by_cases hblk : blk = b.blk
        · rw [hblk] at he
          dsimp only at he
          rw [Function.update_self] at he
          exact hsaved e he
        · dsimp only at he
          rw [Function.update_of_ne hblk] at he
          obtain ⟨hin, hle⟩ := h.disk blk e he
          exact ⟨hin, Int.le_trans hle hsave⟩
    · simp only [hdirty, if_false]
      exact h.set i b m.numAvailable (h.pool b hmem)

theorem WalInv.flushAll (h : WalInv B earlier m records) (txnum : ℤ) :
    WalInv B earlier (m.flushAll txnum) records := by
  unfold BufferMgr.flushAll
  generalize List.range m.pool.length = is
  induction is generalizing m with
  | nil => exact h
  | cons i is ih =>
    rw [List.foldl_cons]
    apply ih
    cases hb : m.pool[i]? with
    | none =>
      unfold BufferMgr.onBuffer
      rwa [hb]
    | some b =>
      have hflush := h.flush i
      rw [BufferMgr.onBuffer_eq hb] at hflush ⊢
      by_cases hmine : b.txnum = txnum
      · simp only [if_pos hmine]
        exact hflush
      · simp only [if_neg hmine]
        exact h.set i b m.numAvailable (h.pool b (List.mem_of_getElem? hb))

/-- A buffer that takes a block shows what is on disk; its LSN stays. -/
theorem WalInv.assignToBlock (h : WalInv B earlier m records) (i : ℕ) (blk : BlockId) :
    WalInv B earlier (m.onBuffer i (Buffer.assignToBlock blk)) records := by
  have hflush := h.flush i
  have hsplit := BufferMgr.onBuffer_onBuffer m i Buffer.flush
    (fun files b => (files, { b with blk := blk, contents := files.disk blk, pins := 0 }))
  unfold Buffer.assignToBlock
  rw [← hsplit]
  generalize m.onBuffer i Buffer.flush = m' at hflush
  cases hb : m'.pool[i]? with
  | none =>
    unfold BufferMgr.onBuffer
    rwa [hb]
  | some b =>
    rw [BufferMgr.onBuffer_eq hb]
    apply hflush.set i
    intro e he
    obtain ⟨hin, hle⟩ := hflush.disk blk e he
    exact ⟨hin, Or.inl hle⟩

theorem WalInv.pinBuffer (h : WalInv B earlier m records) (i : ℕ) :
    WalInv B earlier (m.pinBuffer i) records := by
  cases hb : m.pool[i]? with
  | none =>
    unfold BufferMgr.pinBuffer BufferMgr.isPinned BufferMgr.onBuffer
    simp only [hb, Bool.false_eq_true, if_false]
    exact ⟨h.log, h.pool, h.disk⟩
  | some b =>
    rw [BufferMgr.pinBuffer_eq hb]
    exact h.set i b.pin _ (h.pool b (List.mem_of_getElem? hb))

theorem WalInv.unpin (h : WalInv B earlier m records) (i : ℕ) :
    WalInv B earlier (m.unpin i) records := by
  cases hb : m.pool[i]? with
  | none =>
    unfold BufferMgr.unpin BufferMgr.isPinned BufferMgr.onBuffer
    simp only [hb, Bool.false_eq_true, if_false]
    exact ⟨h.log, h.pool, h.disk⟩
  | some b =>
    rw [BufferMgr.unpin_eq hb]
    exact h.set i b.unpin _ (h.pool b (List.mem_of_getElem? hb))

theorem WalInv.tryToPin (h : WalInv B earlier m records) (blk : BlockId) :
    WalInv B earlier (m.tryToPin blk).1 records := by
  unfold BufferMgr.tryToPin
  cases m.findExistingBuffer blk with
  | some i => exact h.pinBuffer i
  | none =>
    cases m.chooseUnpinnedBuffer with
    | none => exact h
    | some i => exact (h.assignToBlock i blk).pinBuffer i

/-- A write whose record is the newest one of the log, if it has a record. -/
theorem WalInv.modify (h : WalInv B earlier m records) (i : ℕ) (f : Copy β → Copy β)
    (txnum lsn : ℤ) (hf : ∀ c, ∀ e ∈ (f c).effects, e ∈ c.effects ∨
      (e.lsn = lsn ∧ InLog earlier records e))
    (hlsn : lsn < 0 ∨ lsn = m.files.log.latestLsn) :
    WalInv B earlier (m.modify i f txnum lsn) records := by
  unfold BufferMgr.modify
  cases hb : m.pool[i]? with
  | none =>
    unfold BufferMgr.onBuffer
    rwa [hb]
  | some b =>
    rw [BufferMgr.onBuffer_eq hb]
    apply h.set i
    intro e he
    unfold Buffer.setModified
    dsimp only
    rcases hf b.contents e he with hold | ⟨heq, hin⟩
    · obtain ⟨hin, hcovered⟩ := h.pool b (List.mem_of_getElem? hb) e hold
      refine ⟨hin, ?_⟩
      rcases hcovered with hle | hle
      · exact Or.inl hle
      · right
        have hlatest := hin.le_latest h.log
        split
        · omega
        · exact hle
    · have hone := hin.1
      refine ⟨hin, Or.inr ?_⟩
      rw [if_pos (by omega)]
      omega

end Pool

section Runs

variable {B : BlockSize} {earlier : ℕ}

end Runs

end SampleDB.WriteAhead
