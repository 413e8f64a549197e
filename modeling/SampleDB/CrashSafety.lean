import SampleDB.CrashSteps
import SampleDB.Runs

/-!
Crash recovery. After every complete recovery the blocks on disk are as the committed
transactions leave them whose COMMIT records are in the log file, as long as no
transaction goes on with a block whose lock it was not granted. The release of a lock
that was not granted takes it from its owner, and the recovery then undoes the update
of a transaction that has committed.
-/
namespace SampleDB.CrashSafety

open Words Pages Blocks LogRecords Logging BufferPool Locking LockSafety RecoveryLog Recovery
  RecoveryScan CrashInvariant

/-- The log file has these records, and the blocks on disk are those that the committed
transactions among them leave. -/
def Restored (B : BlockSize) (pages : BlockId → Page) (s : Db) : Prop :=
  FileReads B s.log.file s.entries ∧ s.disk = committedPages pages s.entries

/-- Every complete recovery of a run restores the database, when all steps go on only with
blocks that were granted. -/
theorem restored_of_proceeds (B : BlockSize) (pages : BlockId → Page)
    (hpages : ∀ blk, (pages blk).length = B.bytes) (s₀ s s' : Db) (ls : List Label) (t : Int32)
    (hnew : Db.new B pages = some s₀)
    (hrun : Runs.Run (fun s l s' => s.Step B l s' ∧ Proceeds B s l) s₀ ls s)
    (hpc : s.pc t = .releasing .checkpoint) (hstep : s.Step B (.clear t) s') :
    Restored B pages s' := by
  have hinv : CrashInvariant.Inv B pages s := hrun.invariant _
    (fun s l s' h hstep => step_inv h hstep.1 hstep.2) (inv_new hpages hnew)
  have hdata := (hinv.txs t).data
  rw [hpc] at hdata
  obtain ⟨hlosers, hsaved⟩ := hdata
  have hdisk : s.disk = committedPages pages s.entries := by
    funext blk
    have hundoes := hinv.data.undoes_disk blk
    unfold RecoveryPages.Undoes at hundoes
    rw [hlosers] at hundoes
    exact hundoes
  have hsame : s'.log = s.log ∧ s'.disk = s.disk ∧ s'.entries = s.entries := by
    have hclear := hstep.1
    unfold Db.step at hclear
    simp only [hpc] at hclear
    obtain ⟨locks, -, hok⟩ := Option.bind_eq_some_iff.mp hclear
    cases hok
    exact ⟨rfl, rfl, rfl⟩
  obtain ⟨hlog, hdisk', hentries⟩ := hsame
  unfold Restored
  rw [hlog, hdisk', hentries]
  exact ⟨hinv.log.fileReads hsaved, hdisk⟩

section OneBlock

theorem append_pool {B : BlockSize} {s s' : Db} {e : Entry} {lsn : ℤ}
    (h : s.append B e = some (s', lsn)) : s'.pool = s.pool := by
  unfold Db.append at h
  obtain ⟨bytes, -, h⟩ := Option.bind_eq_some_iff.mp h
  obtain ⟨⟨log, lsn'⟩, -, h⟩ := Option.bind_eq_some_iff.mp h
  cases h
  rfl

/-- A buffer of a block that is in the pool is changed. -/
theorem setBuffer_pool {s : Db} {blk blk' : BlockId} {buf : Option (Buffer Page)}
    (hpool : s.pool blk = none) (hmem : s.pool blk' ≠ none) :
    (s.setBuffer blk' buf).pool blk = none := by
  have hne : blk ≠ blk' := by
    intro heq
    rw [← heq] at hmem
    exact hmem hpool
  unfold Db.setBuffer
  dsimp only
  rw [Function.update_of_ne hne]
  exact hpool

/-- The steps that do not go to the buffers. -/
def Bufferless : Label → Prop
  | .write _ => False
  | .undo _ => False
  | .load _ _ => False
  | .flushBuffer _ => False
  | .evict _ => False
  | .crash => False
  | _ => True

theorem step_bufferless {B : BlockSize} {s s' : Db} {l : Label} (hstep : s.step B l = some s')
    (hl : Bufferless l) : s'.pool = s.pool := by
  cases l with
  | begin =>
    simp only [Db.step, Db.begin] at hstep
    split at hstep
    · cases hstep
    · split at hstep
      · obtain ⟨⟨s₁, lsn⟩, happend, hok⟩ := Option.bind_eq_some_iff.mp hstep
        cases hok
        have hsame := append_pool happend
        exact hsame
      · cases hstep
  | scan t =>
    simp only [Db.step, Db.scan] at hstep
    obtain ⟨⟨k, v, it⟩, -, hstep⟩ := Option.bind_eq_some_iff.mp hstep
    cases v with
    | stop =>
      cases hstep
      rfl
    | next k =>
      cases hstep
      rfl
    | undo blk' offset val =>
      obtain ⟨locks, -, hok⟩ := Option.bind_eq_some_iff.mp hstep
      cases hok
      rfl
  | append t =>
    simp only [Db.step] at hstep
    split at hstep
    · obtain ⟨⟨s₁, lsn⟩, happend, hok⟩ := Option.bind_eq_some_iff.mp hstep
      cases hok
      have hsame := append_pool happend
      exact hsame
    · cases hstep
  | granted t =>
    simp only [Db.step] at hstep
    obtain ⟨locks, -, rfl⟩ := Option.map_eq_some_iff.mp hstep
    rfl
  | unlock t blk' =>
    simp only [Db.step] at hstep
    obtain ⟨locks, -, rfl⟩ := Option.map_eq_some_iff.mp hstep
    rfl
  | recover t =>
    simp only [Db.step] at hstep
    split at hstep
    · obtain ⟨⟨log, it⟩, -, hok⟩ := Option.bind_eq_some_iff.mp hstep
      cases hok
      rfl
    · cases hstep
  | rollback t =>
    simp only [Db.step] at hstep
    split at hstep
    · obtain ⟨⟨log, it⟩, -, hok⟩ := Option.bind_eq_some_iff.mp hstep
      cases hok
      rfl
    · cases hstep
  | commit t =>
    simp only [Db.step] at hstep
    split at hstep
    · cases hstep
      rfl
    · cases hstep
  | setInt t blk' offset val =>
    simp only [Db.step] at hstep
    split at hstep
    · obtain ⟨locks, -, hok⟩ := Option.bind_eq_some_iff.mp hstep
      cases hok
      rfl
    · cases hstep
  | timeout t =>
    simp only [Db.step] at hstep
    split at hstep
    · obtain ⟨locks, -, hok⟩ := Option.bind_eq_some_iff.mp hstep
      cases hok
      rfl
    · cases hstep
  | sync t =>
    simp only [Db.step] at hstep
    split at hstep
    · obtain ⟨locks, -, hok⟩ := Option.bind_eq_some_iff.mp hstep
      cases hok
      rfl
    · cases hstep
  | clear t =>
    simp only [Db.step] at hstep
    split at hstep
    · obtain ⟨locks, -, hok⟩ := Option.bind_eq_some_iff.mp hstep
      cases hok
      rfl
    · cases hstep
  | _ => exact hl.elim

/-- Only `load` brings a block into the pool. -/
theorem step_pool {B : BlockSize} {s s' : Db} {l : Label} {blk : BlockId}
    (hstep : s.step B l = some s') (hload : ∀ lsn, l ≠ .load blk lsn)
    (hpool : s.pool blk = none) : s'.pool blk = none := by
  cases l with
  | write t =>
    simp only [Db.step, Db.write] at hstep
    split at hstep
    · obtain ⟨buf, hbuf, hstep⟩ := Option.bind_eq_some_iff.mp hstep
      obtain ⟨oldVal, -, hstep⟩ := Option.bind_eq_some_iff.mp hstep
      obtain ⟨⟨s₁, lsn⟩, happend, hstep⟩ := Option.bind_eq_some_iff.mp hstep
      obtain ⟨page, -, hok⟩ := Option.bind_eq_some_iff.mp hstep
      cases hok
      have hsame := append_pool happend
      apply setBuffer_pool
      · rw [hsame]
        exact hpool
      · rw [hsame, hbuf]
        exact Option.some_ne_none buf
    · cases hstep
  | undo t =>
    simp only [Db.step, Db.undo] at hstep
    split at hstep
    · obtain ⟨buf, hbuf, hstep⟩ := Option.bind_eq_some_iff.mp hstep
      obtain ⟨page, -, hok⟩ := Option.bind_eq_some_iff.mp hstep
      cases hok
      apply setBuffer_pool hpool
      rw [hbuf]
      exact Option.some_ne_none buf
    · cases hstep
  | load blk' lsn =>
    simp only [Db.step] at hstep
    split at hstep
    · cases hstep
      have hne : blk ≠ blk' := by
        intro heq
        exact hload lsn (by rw [heq])
      unfold Db.setBuffer
      dsimp only
      rw [Function.update_of_ne hne]
      exact hpool
    · cases hstep
  | flushBuffer blk' =>
    simp only [Db.step] at hstep
    obtain ⟨buf, hbuf, hok⟩ := Option.bind_eq_some_iff.mp hstep
    cases hok
    apply setBuffer_pool hpool
    show s.pool blk' ≠ none
    rw [hbuf]
    exact Option.some_ne_none buf
  | evict blk' =>
    simp only [Db.step] at hstep
    obtain ⟨buf, hbuf, hstep⟩ := Option.bind_eq_some_iff.mp hstep
    split at hstep
    · cases hstep
    · cases hstep
      apply setBuffer_pool hpool
      rw [hbuf]
      exact Option.some_ne_none buf
  | crash =>
    simp only [Db.step, Db.crash] at hstep
    obtain ⟨log, -, rfl⟩ := Option.map_eq_some_iff.mp hstep
    rfl
  | _ => exact (congrFun (step_bufferless hstep trivial) blk).trans hpool

/-- A step of a run that loads one block only, and that satisfies a condition. -/
def stepOn (B : BlockSize) (blk : BlockId) (p : Db → Label → Bool) (s : Db) (l : Label) :
    Option Db :=
  if p s l then
    match l with
    | .load blk' lsn => if blk' = blk then s.step B (.load blk' lsn) else none
    | .append t =>
        if (s.pool blk).any (fun buf => buf.txnum = t.toInt) then none else s.step B (.append t)
    | .recover t =>
        if (s.pool blk).any (fun buf => buf.txnum = t.toInt) then none else s.step B (.recover t)
    | l => s.step B l
  else none

variable {B : BlockSize} {blk : BlockId} {p : Db → Label → Bool} {s s' : Db}

theorem flushed_of_any {t : Int32} (hpool : ∀ blk', blk' ≠ blk → s.pool blk' = none)
    (h : ¬ (s.pool blk).any (fun buf => buf.txnum = t.toInt)) : s.Flushed t := by
  intro blk' buf hbuf htx
  by_cases heq : blk' = blk
  · rw [← heq, hbuf] at h
    exact h (decide_eq_true htx)
  · rw [hpool blk' heq] at hbuf
    cases hbuf

theorem stepOn_step {l : Label} (hpool : ∀ blk', blk' ≠ blk → s.pool blk' = none)
    (h : stepOn B blk p s l = some s') :
    (s.Step B l s' ∧ p s l) ∧ ∀ blk', blk' ≠ blk → s'.pool blk' = none := by
  unfold stepOn at h
  split at h
  · rename_i hp
    have hstep : s.step B l = some s' := by
      split at h
      · split at h
        · exact h
        · cases h
      · split at h
        · cases h
        · exact h
      · split at h
        · cases h
        · exact h
      · exact h
    refine ⟨⟨⟨hstep, ?_⟩, hp⟩, fun blk' hne => step_pool hstep ?_ (hpool blk' hne)⟩
    · rintro t (rfl | rfl) <;> dsimp only at h <;> split at h
      · cases h
      · exact flushed_of_any hpool ‹_›
      · cases h
      · exact flushed_of_any hpool ‹_›
    · rintro lsn rfl
      dsimp only at h
      rw [if_neg hne] at h
      cases h
  · cases h

theorem run_of_stepOn {ls : List Label} (hpool : ∀ blk', blk' ≠ blk → s.pool blk' = none)
    (h : ls.foldlM (stepOn B blk p) s = some s') :
    Runs.Run (fun s l s' => s.Step B l s' ∧ p s l) s ls s' ∧
      ∀ blk', blk' ≠ blk → s'.pool blk' = none := by
  induction ls generalizing s with
  | nil =>
    cases h
    exact ⟨.nil _, hpool⟩
  | cons l ls ih =>
    rw [List.foldlM_cons] at h
    obtain ⟨s₁, hfirst, hrest⟩ := Option.bind_eq_some_iff.mp h
    obtain ⟨hstep, hpool₁⟩ := stepOn_step hpool hfirst
    obtain ⟨hrun, hpool'⟩ := ih hpool₁ hrest
    exact ⟨.cons hstep hrun, hpool'⟩

/-- A run on a new database, found by evaluation. -/
theorem exists_run (B : BlockSize) (pages : BlockId → Page) (blk : BlockId)
    (p : Db → Label → Bool) (ls : List Label) (q : Db → Bool)
    (h : ((Db.new B pages).bind (fun s => ls.foldlM (stepOn B blk p) s)).any q = true) :
    ∃ s₀ s, Db.new B pages = some s₀ ∧
      Runs.Run (fun s l s' => s.Step B l s' ∧ p s l) s₀ ls s ∧ q s = true := by
  obtain ⟨s, hs, hq⟩ := (Option.any_eq_true q _).mp h
  obtain ⟨s₀, hnew, hfold⟩ := Option.bind_eq_some_iff.mp hs
  have hpool : ∀ blk', blk' ≠ blk → s₀.pool blk' = none := by
    intro blk' _
    obtain ⟨log, -, rfl⟩ := Option.map_eq_some_iff.mp hnew
    rfl
  exact ⟨s₀, s, hnew, (run_of_stepOn hpool hfold).1, hq⟩

end OneBlock

instance {M : Type} (s : LockState M) (l : LockLabel M) : Decidable (Matched s l) := by
  unfold Matched
  cases l <;> infer_instance

/-- Whether `Proceeds` holds of a step. -/
def proceeds (B : BlockSize) (s : Db) (l : Label) : Bool :=
  (s.lockCall B l).all (fun call => decide (Matched s.locks call)) &&
    match l with
    | .setInt _ blk _ _ => decide (blk.fileName.length + 32 ≤ B.bytes)
    | _ => decide (16 ≤ B.bytes)

theorem proceeds_of_eq_true {B : BlockSize} {s : Db} {l : Label} (h : proceeds B s l = true) :
    Proceeds B s l := by
  unfold proceeds at h
  obtain ⟨hcalls, hfits⟩ := Bool.and_eq_true_iff.mp h
  constructor
  · intro call hcall
    rw [hcall] at hcalls
    exact of_decide_eq_true hcalls
  · cases l <;> exact of_decide_eq_true hfits

/-- Whether a transaction releases its locks at the end of a recovery. -/
def releasing (s : Db) (t : Int32) : Bool :=
  match s.pc t with
  | .releasing .checkpoint => true
  | _ => false

theorem pc_of_releasing {s : Db} {t : Int32} (h : releasing s t = true) :
    s.pc t = .releasing .checkpoint := by
  unfold releasing at h
  split at h
  · assumption
  · cases h

/-- A transaction commits 7, the next one has written 9 to disk at the crash. -/
def updates : List Label :=
  [.begin, .setInt 1 ⟨[116], 0⟩ 0 7, .granted 1, .granted 1, .load ⟨[116], 0⟩ (-1), .write 1,
    .commit 1, .flushBuffer ⟨[116], 0⟩, .append 1, .sync 1, .unlock 1 ⟨[116], 0⟩, .clear 1,
    .begin, .setInt 2 ⟨[116], 0⟩ 0 9, .granted 2, .granted 2, .write 2,
    .flushBuffer ⟨[116], 0⟩, .crash, .begin, .recover 1, .scan 1, .scan 1, .granted 1,
    .granted 1, .load ⟨[116], 0⟩ (-1), .undo 1, .scan 1, .scan 1, .scan 1, .scan 1, .scan 1,
    .flushBuffer ⟨[116], 0⟩, .append 1, .sync 1, .unlock 1 ⟨[116], 0⟩]

theorem restored_of_proceeds_updates : ∃ s' : Db,
    Restored ⟨44, by decide, by decide⟩ (fun _ => zeroPage 44) s' ∧
      (s'.disk ⟨[116], 0⟩).getInt 0 = .ok 7 := by
  have hexists := exists_run ⟨44, by decide, by decide⟩ (fun _ => zeroPage 44)
    ⟨[116], 0⟩ (proceeds ⟨44, by decide, by decide⟩) updates
    (fun s => releasing s 1 && (s.step ⟨44, by decide, by decide⟩ (.clear 1)).any
      (fun s' => decide ((s'.disk ⟨[116], 0⟩).getInt 0 = .ok 7)))
    (by decide +kernel)
  obtain ⟨s₀, s, hnew, hrun, hq⟩ := hexists
  obtain ⟨hpc, hclear⟩ := Bool.and_eq_true_iff.mp hq
  obtain ⟨s', hstep, hvalue⟩ := (Option.any_eq_true _ _).mp hclear
  refine ⟨s', ?_, of_decide_eq_true hvalue⟩
  apply restored_of_proceeds _ _ (fun blk => rfl) s₀ s s' _ 1 hnew
  · exact hrun.mono (fun s l s' h => ⟨h.1, proceeds_of_eq_true h.2⟩)
  · exact pc_of_releasing hpc
  · refine ⟨hstep, ?_⟩
    rintro t (h | h) <;> cases h

/-- Transaction 2 is not granted the block that transaction 1 has written, and its release
gives it to transaction 3, which commits 9. -/
def stolenLock : List Label :=
  [.begin, .setInt 1 ⟨[116], 0⟩ 0 7, .granted 1, .granted 1, .load ⟨[116], 0⟩ (-1), .write 1,
    .begin, .setInt 2 ⟨[116], 0⟩ 0 8, .timeout 2, .rollback 2, .scan 2, .append 2, .sync 2,
    .unlock 2 ⟨[116], 0⟩, .clear 2, .begin, .setInt 3 ⟨[116], 0⟩ 0 9, .granted 3, .granted 3,
    .write 3, .commit 3, .flushBuffer ⟨[116], 0⟩, .append 3, .sync 3, .crash, .begin,
    .recover 1, .scan 1, .scan 1, .scan 1, .scan 1, .scan 1, .scan 1, .scan 1, .granted 1,
    .granted 1, .load ⟨[116], 0⟩ (-1), .undo 1, .scan 1, .scan 1, .flushBuffer ⟨[116], 0⟩,
    .append 1, .sync 1, .unlock 1 ⟨[116], 0⟩]

/-- The complete recovery takes the committed 9 back. -/
theorem not_restored_stolenLock : ∃ s₀ s s' : Db,
    Db.new ⟨44, by decide, by decide⟩ (fun _ => zeroPage 44) = some s₀ ∧
      Runs.Run (fun s l s' => s.Step ⟨44, by decide, by decide⟩ l s') s₀ stolenLock s ∧
      s.pc 1 = .releasing .checkpoint ∧ s.Step ⟨44, by decide, by decide⟩ (.clear 1) s' ∧
      (committedPages (fun _ => zeroPage 44) s'.entries ⟨[116], 0⟩).getInt 0 = .ok 9 ∧
      (s'.disk ⟨[116], 0⟩).getInt 0 = .ok 0 ∧
      ¬ Restored ⟨44, by decide, by decide⟩ (fun _ => zeroPage 44) s' := by
  have hexists := exists_run ⟨44, by decide, by decide⟩ (fun _ => zeroPage 44)
    ⟨[116], 0⟩ (fun _ _ => true) stolenLock
    (fun s => releasing s 1 && (s.step ⟨44, by decide, by decide⟩ (.clear 1)).any (fun s' =>
      decide ((committedPages (fun _ => zeroPage 44) s'.entries ⟨[116], 0⟩).getInt 0 = .ok 9) &&
        decide ((s'.disk ⟨[116], 0⟩).getInt 0 = .ok 0)))
    (by decide +kernel)
  obtain ⟨s₀, s, hnew, hrun, hq⟩ := hexists
  obtain ⟨hpc, hclear⟩ := Bool.and_eq_true_iff.mp hq
  obtain ⟨s', hstep, hvalues⟩ := (Option.any_eq_true _ _).mp hclear
  obtain ⟨hcommitted, hdisk⟩ := Bool.and_eq_true_iff.mp hvalues
  have hcommitted := of_decide_eq_true hcommitted
  have hdisk := of_decide_eq_true hdisk
  refine ⟨s₀, s, s', hnew, hrun.mono (fun s l s' h => h.1), pc_of_releasing hpc, ⟨hstep, ?_⟩,
    hcommitted, hdisk, ?_⟩
  · rintro t (h | h) <;> cases h
  · rintro ⟨-, hsame⟩
    rw [hsame, hcommitted] at hdisk
    exact absurd hdisk (by decide)

end SampleDB.CrashSafety
