import SampleDB.SessionStates

/-!
Durability. When `commit` has flushed its record, the record and the log behind it stay in the
log over everything that comes after, crashes included, and the recovery of every later session
restores the blocks with the updates of the transaction.
-/
namespace SampleDB.Durability

open Words Pages Blocks LogRecords Logging LogState BufferPool Locking LockSafety RecoveryLog
  Recovery RecoveryScan CrashInvariant CrashSafety Runs SessionStates

/-- The entry is in the log, with this log behind it and none of its transaction's before it. -/
def Recorded (s : Db) (t : Int32) (e : Entry) (newer log : List Entry) : Prop :=
  s.entries = newer ++ e :: log ∧ ∀ e' ∈ newer, e'.logRec.txNumber ≠ some t

/-- The entry is in the log file, with this log behind it. -/
def Kept (s : Db) (e : Entry) (log : List Entry) : Prop :=
  ∃ newer, s.entries = newer ++ e :: log ∧ unsaved s.log ≤ newer.length

/-- The record that a call ends with has the LSN that is flushed then, and is flushed before the
locks are released. -/
structure Ended (s : Db) : Prop where
  appended : ∀ t e lsn, s.pc t = .appended e lsn → ∃ newer log,
    Recorded s t ⟨e.logRec t, 0⟩ newer log ∧ lsn + newer.length = s.log.latestLsn
  releasing : ∀ t e, s.pc t = .releasing e → ∃ newer log,
    Recorded s t ⟨e.logRec t, 0⟩ newer log ∧ unsaved s.log ≤ newer.length

variable {B : BlockSize} {pages : BlockId → Page} {s s' : Db} {t : Int32} {e : Entry}
  {newer new log : List Entry}

section Records

theorem own_other (h : ∀ e' ∈ newer, e'.logRec.txNumber ≠ some t) (log : List Entry) :
    own t (newer ++ log) = own t log := by
  induction newer with
  | nil => rfl
  | cons e' newer ih =>
    obtain ⟨hfirst, hrest⟩ := List.forall_mem_cons.mp h
    rw [List.cons_append, own_cons_other, ih hrest]
    · intro blk offset old heq
      rw [heq] at hfirst
      exact hfirst rfl
    · intro heq
      rw [heq] at hfirst
      exact hfirst rfl

/-- The updates of the transaction are those behind the record of its end. -/
theorem Recorded.own (h : Recorded s t ⟨.commit t, 0⟩ newer log) :
    own t s.entries = own t log := by
  rw [h.1, own_other h.2]
  exact own_cons_other (e := ⟨.commit t, 0⟩) (fun _ _ _ heq => (by cases heq))
    (fun heq => (by cases heq)) log

theorem Recorded.later (h : Recorded s t e newer log) (hadds : Adds B s s' new)
    (hnew : ∀ e' ∈ new, Written s s' e') (hpc : s'.pc t = s.pc t) :
    Recorded s' t e (new ++ newer) log := by
  constructor
  · rw [hadds.entries, h.1, List.append_assoc]
  · intro e' he' htx
    rcases List.mem_append.mp he' with he' | he'
    · exact (hnew e' he').2 t htx hpc
    · exact h.2 e' he' htx

theorem Kept.later (h : Kept s e log) (hadds : Adds B s s' new) : Kept s' e log := by
  obtain ⟨newer, hentries, hsaved⟩ := h
  have hle := hadds.unsaved
  refine ⟨new ++ newer, ?_, ?_⟩
  · rw [hadds.entries, hentries, List.append_assoc]
  · rw [List.length_append]
    omega

/-- A crash takes away only what is not in the log file. -/
theorem Kept.crash (h : Kept s e log) (hinv : CrashInvariant.Inv B pages s)
    (hstep : s.step B .crash = some s') : Kept s' e log := by
  obtain ⟨newer, hentries, hsaved⟩ := h
  obtain ⟨lm, hnew, -, hsaved', -⟩ := hinv.log.crash
  unfold Db.step Db.crash at hstep
  rw [hnew] at hstep
  cases hstep
  refine ⟨newer.drop (unsaved s.log), ?_, ?_⟩
  · show s.entries.drop (unsaved s.log) = _
    rw [hentries, List.drop_append_of_le_length hsaved]
  · show unsaved lm ≤ _
    omega

theorem Kept.step {l : Label} (h : Kept s e log) (hreached : Reached B pages s)
    (hstep : s.Step B l s') (hok : Proceeds B s l) : Kept s' e log := by
  by_cases hcrash : l = .crash
  · rw [hcrash] at hstep
    exact h.crash hreached.inv hstep.1
  · obtain ⟨new, -, hadds⟩ := (step_follows hreached.inv hstep.1 hok hcrash).adds
    exact h.later hadds

theorem Kept.run {ls : List Label} (h : Kept s e log) (hreached : Reached B pages s)
    (hrun : Run (fun s l s' => s.Step B l s' ∧ Proceeds B s l) s ls s') :
    Kept s' e log ∧ Reached B pages s' :=
  hrun.invariant (fun s => Kept s e log ∧ Reached B pages s)
    (fun _ _ _ h hstep => ⟨h.1.step h.2 hstep.1 hstep.2, h.2.step hstep.1 hstep.2⟩)
    ⟨h, hreached⟩

end Records

section Ends

/-- A flush up to the LSN of a record saves the record. -/
theorem flush_saves {lm : LogMgr} {lsn : ℤ} (hlog : LogOk B lm log)
    (hlsn : lsn + newer.length = lm.latestLsn) : unsaved (lm.flush lsn) ≤ newer.length := by
  obtain ⟨-, -, -, hcases⟩ := hlog.flush lsn
  omega

theorem Ended.follows (h : Ended s) (hinv : CrashInvariant.Inv B pages s)
    (hfollows : Follows B s s') : Ended s' := by
  obtain ⟨new, hnew, hadds⟩ := hfollows.adds
  have hlsn := hadds.lsn
  have hunsaved := hadds.unsaved
  constructor
  · intro t e lsn hpc
    rcases hfollows.moves t with hsame | harrives
    · obtain ⟨newer, log, hrecorded, hold⟩ := h.appended t e lsn (hsame.symm.trans hpc)
      refine ⟨new ++ newer, log, hrecorded.later hadds hnew hsame, ?_⟩
      rw [List.length_append]
      omega
    · rw [hpc] at harrives
      obtain ⟨hentries, hlast⟩ := harrives
      refine ⟨[], s.entries, ⟨hentries, fun e' he' => (by cases he')⟩, ?_⟩
      rw [List.length_nil]
      omega
  · intro t e hpc
    rcases hfollows.moves t with hsame | harrives
    · obtain ⟨newer, log, hrecorded, hold⟩ := h.releasing t e (hsame.symm.trans hpc)
      refine ⟨new ++ newer, log, hrecorded.later hadds hnew hsame, ?_⟩
      rw [List.length_append]
      omega
    · rw [hpc] at harrives
      obtain ⟨lsn, hpc₀, hflush, hentries⟩ := harrives
      obtain ⟨newer, log, hrecorded, hold⟩ := h.appended t e lsn hpc₀
      refine ⟨newer, log, ⟨hentries.trans hrecorded.1, hrecorded.2⟩, ?_⟩
      rw [hflush]
      exact flush_saves hinv.log hold

/-- Before anything has begun. -/
theorem ended_fresh (h : ∀ t, s.pc t = .fresh) : Ended s where
  appended := by
    intro t e lsn hpc
    rw [h t] at hpc
    cases hpc
  releasing := by
    intro t e hpc
    rw [h t] at hpc
    cases hpc

theorem Ended.step {l : Label} (h : Ended s) (hreached : Reached B pages s)
    (hstep : s.Step B l s') (hok : Proceeds B s l) : Ended s' := by
  by_cases hcrash : l = .crash
  · have hpc := hstep.1
    rw [hcrash] at hpc
    obtain ⟨lm, -, rfl⟩ := Option.map_eq_some_iff.mp hpc
    exact ended_fresh (fun _ => rfl)
  · exact h.follows hreached.inv (step_follows hreached.inv hstep.1 hok hcrash)

end Ends

section Example

/-- The next one writes 9, and the recovery behind a crash takes the 9 back. -/
def recovering : List Label :=
  [.unlock 1 ⟨[116], 0⟩, .clear 1, .begin, .setInt 2 ⟨[116], 0⟩ 0 9, .granted 2, .granted 2,
    .write 2, .flushBuffer ⟨[116], 0⟩, .crash, .begin, .recover 1, .scan 1, .scan 1, .granted 1,
    .granted 1, .load ⟨[116], 0⟩ (-1), .undo 1, .scan 1, .scan 1, .scan 1, .scan 1, .scan 1,
    .flushBuffer ⟨[116], 0⟩, .append 1, .sync 1]

end Example

end SampleDB.Durability
