import SampleDB.LogState
import SampleDB.RecordRoundTrip
import SampleDB.Recovery

/-!
The log as the recovery manager reads it. A loop of `doRollback` or `doRecover` has a
list of updates still to undo, which follows from the records that it has not read
yet, and each turn takes at most the first update of the list.
-/
namespace SampleDB.RecoveryScan

open Words Pages Blocks LogRecords RecordRoundTrip Logging LogState RecoveryLog Recovery

/-- The bytes read back as the records of the entries. -/
def ReadAs (log : List Entry) (bytes : List Bytes) : Prop :=
  List.Forall₂ (fun e b => createLogRecord b = .ok (some e.logRec)) log bytes

/-- The log manager has these entries. -/
def LogOk (B : BlockSize) (lm : LogMgr) (log : List Entry) : Prop :=
  ∃ unsaved saved, Holds B lm unsaved saved ∧ ReadAs log (unsaved ++ saved)

/-- The number of entries that a crash loses. -/
def unsaved (lm : LogMgr) : ℕ := (lm.latestLsn - lm.lastSaveLsn).toNat

/-- The iterator has these entries before it. -/
def Scans (B : BlockSize) (lm : LogMgr) (it : LogIterator) (log : List Entry) : Prop :=
  ∃ bytes, Reading B lm it bytes ∧ ReadAs log bytes

/-- The records in the log file, the newest first. -/
def FileReads (B : BlockSize) (file : File) (log : List Entry) : Prop :=
  ∃ it bytes, LogIterator.moveToBlock B file (file.length B - 1) = .ok it ∧
    LogIterator.Yields B file it bytes ∧ ReadAs log bytes

section Log

variable {B : BlockSize} {lm lm' : LogMgr} {log : List Entry}

theorem unsaved_eq {us saved : List Bytes} (h : Holds B lm us saved) : unsaved lm = us.length := by
  have hlsn := h.lsn
  unfold unsaved
  omega

theorem LogOk.append (h : LogOk B lm log) {e : Entry} (hfits : FitsBlock B e.logRec) :
    ∃ bytes lm', e.logRec.writeToLog = .ok bytes ∧ lm.append B bytes = .ok (lm', lm.latestLsn + 1) ∧
      lm'.latestLsn = lm.latestLsn + 1 ∧ Extends B lm lm' ∧ LogOk B lm' (e :: log) ∧
      unsaved lm' ≤ unsaved lm + 1 := by
  obtain ⟨us, saved, hholds, hread⟩ := h
  obtain ⟨bytes, hwrite, hlen, hback⟩ := readBack_fits B e.logRec hfits
  obtain ⟨lm', happend, hlatest, hext, hcases⟩ := hholds.append bytes hlen
  refine ⟨bytes, lm', hwrite, happend, hlatest, hext, ?_⟩
  rw [unsaved_eq hholds]
  rcases hcases with hholds' | hholds'
  · rw [unsaved_eq hholds']
    exact ⟨⟨_, _, hholds', .cons hback hread⟩, Nat.le_refl _⟩
  · rw [unsaved_eq hholds']
    exact ⟨⟨_, _, hholds', .cons hback hread⟩, by rw [List.length_singleton]; omega⟩

/-- A flush saves everything, or the LSN was saved before. -/
theorem LogOk.flush (h : LogOk B lm log) (lsn : ℤ) :
    LogOk B (lm.flush lsn) log ∧ (lm.flush lsn).latestLsn = lm.latestLsn ∧
      Extends B lm (lm.flush lsn) ∧
      (unsaved (lm.flush lsn) = 0 ∨
        (unsaved (lm.flush lsn) = unsaved lm ∧ lsn < lm.latestLsn - unsaved lm)) := by
  obtain ⟨us, saved, hholds, hread⟩ := h
  obtain ⟨hext, hlatest, hcases⟩ := hholds.flush lsn
  have hlsn := hholds.lsn
  rw [unsaved_eq hholds]
  rcases hcases with hholds' | ⟨hholds', hlt⟩
  · exact ⟨⟨_, _, hholds', hread⟩, hlatest, hext, Or.inl (unsaved_eq hholds')⟩
  · exact ⟨⟨_, _, hholds', hread⟩, hlatest, hext, Or.inr ⟨unsaved_eq hholds', by omega⟩⟩

theorem LogOk.iterator (h : LogOk B lm log) :
    ∃ lm' it, lm.iterator B = .ok (lm', it) ∧ LogOk B lm' log ∧
      lm'.latestLsn = lm.latestLsn ∧ Extends B lm lm' ∧ unsaved lm' = 0 ∧ Scans B lm' it log := by
  obtain ⟨us, saved, hholds, hread⟩ := h
  obtain ⟨lm', it, hit, hholds', hlatest, hext, hreading⟩ := hholds.iterator
  exact ⟨lm', it, hit, ⟨_, _, hholds', hread⟩, hlatest, hext, unsaved_eq hholds', _,
    hreading, hread⟩

/-- A crash keeps the entries that are saved. -/
theorem LogOk.crash (h : LogOk B lm log) :
    ∃ lm', LogMgr.new B lm.file = .ok lm' ∧ lm'.latestLsn = 0 ∧ unsaved lm' = 0 ∧
      LogOk B lm' (log.drop (unsaved lm)) := by
  obtain ⟨us, saved, hholds, hread⟩ := h
  obtain ⟨lm', hnew, hlatest, hholds'⟩ := hholds.new
  refine ⟨lm', hnew, hlatest, unsaved_eq hholds', [], saved, hholds', ?_⟩
  rw [unsaved_eq hholds, List.nil_append]
  have hdrop := List.forall₂_drop us.length hread
  rw [List.drop_left] at hdrop
  exact hdrop

theorem LogOk.fileReads (h : LogOk B lm log) (hsaved : unsaved lm = 0) :
    FileReads B lm.file log := by
  obtain ⟨us, saved, hholds, hread⟩ := h
  have hnil : us = [] := List.eq_nil_of_length_eq_zero (by rw [← unsaved_eq hholds, hsaved])
  obtain ⟨inBlock, older, hinv, rfl⟩ := hholds
  obtain ⟨it, hmove, hyields⟩ := hinv.file_holds.yields
  have hlen := hinv.file_holds.length
  refine ⟨it, _, ?_, hyields, ?_⟩
  · rw [hlen, show ((older.length + 1 : ℕ) : ℤ) - 1 = older.length by omega]
    exact hmove
  · rw [hnil] at hread
    exact hread

theorem logOk_new (B : BlockSize) :
    ∃ lm, LogMgr.new B [] = .ok lm ∧ LogOk B lm [] ∧ lm.latestLsn = 0 ∧ unsaved lm = 0 := by
  obtain ⟨lm, hnew, hinv, hlatest, -⟩ := new_nil B
  have hholds : Holds B lm [] [] := ⟨[], [], hinv, rfl⟩
  exact ⟨lm, hnew, ⟨[], [], hholds, .nil⟩, hlatest, unsaved_eq hholds⟩

theorem Scans.extends {it : LogIterator} (h : Scans B lm it log) (hext : Extends B lm lm') :
    Scans B lm' it log := by
  obtain ⟨bytes, hreading, hread⟩ := h
  exact ⟨bytes, hreading.extends hext, hread⟩

end Log

/-- The updates that a loop undoes in the rest of its log. -/
def toUndo (t : Int32) : Scan → List Entry → List Entry
  | .rollback, log => own t log
  | .recover fin, log => losers fin log

/-- The two loops, whatever `doRecover` has found finished. -/
def SameLoop : Scan → Scan → Prop
  | .rollback, .rollback => True
  | .recover _, .recover _ => True
  | _, _ => False

/-- What a visit of a record does with the updates to undo. -/
def Visits (t : Int32) (k : Scan) (e : Entry) (rest : List Entry) : Visit → Prop
  | .stop => toUndo t k (e :: rest) = []
  | .next k' => SameLoop k k' ∧ toUndo t k (e :: rest) = toUndo t k' rest
  | .undo blk offset val => ∃ t', e.logRec = .setInt t' blk offset val ∧
      toUndo t k (e :: rest) = e :: toUndo t k rest

theorem doRollback_visits {t : Int32} {e : Entry} {v : Visit} (rest : List Entry)
    (h : doRollback t e.logRec = some v) : Visits t .rollback e rest v := by
  unfold doRollback at h
  split at h
  · rename_i hself
    split at h
    · rename_i t' hrec
      cases h
      rw [hrec] at hself
      cases hself
      exact own_start hrec rest
    · rename_i t' blk offset val hrec
      cases h
      rw [hrec] at hself
      cases hself
      exact ⟨t, hrec, own_setInt hrec rest⟩
    · cases h
    · rename_i hstart hset hstring
      cases h
      refine ⟨trivial, own_cons_other ?_ (hstart t) rest⟩
      exact fun blk offset old => hset t blk offset old
  · rename_i hother
    cases h
    refine ⟨trivial, own_cons_other ?_ ?_ rest⟩
    · intro blk offset old hrec
      exact hother (by rw [hrec]; rfl)
    · intro hrec
      exact hother (by rw [hrec]; rfl)

theorem doRecover_visits {t : Int32} {fin : List Int32} {e : Entry} {v : Visit}
    (rest : List Entry) (h : doRecover fin e.logRec = some v) :
    Visits t (.recover fin) e rest v := by
  cases hrec : e.logRec with
  | checkpoint =>
    rw [hrec] at h
    cases h
    exact losers_checkpoint hrec fin rest
  | start t' =>
    rw [hrec] at h
    cases h
    exact ⟨trivial, losers_start hrec fin rest⟩
  | commit t' =>
    rw [hrec] at h
    cases h
    refine ⟨trivial, ?_⟩
    show losers fin (e :: rest) = losers (t' :: fin) rest
    rw [losers, hrec]
  | rollback t' =>
    rw [hrec] at h
    cases h
    refine ⟨trivial, ?_⟩
    show losers fin (e :: rest) = losers (t' :: fin) rest
    rw [losers, hrec]
  | setInt t' blk offset val =>
    rw [hrec] at h
    have hlosers : losers fin (e :: rest) =
        if t' ∈ fin then losers fin rest else e :: losers fin rest := by
      rw [losers, hrec]
    unfold doRecover at h
    by_cases hfin : t' ∈ fin
    · rw [if_pos hfin] at hlosers
      simp only [hfin, if_true, Option.some.injEq] at h
      subst h
      exact ⟨trivial, hlosers⟩
    · rw [if_neg hfin] at hlosers
      simp only [hfin, if_false, Option.some.injEq] at h
      subst h
      exact ⟨t', hrec, hlosers⟩
  | setString t' blk offset str =>
    rw [hrec] at h
    have hnext : t' ∈ fin ∧ some (.next (.recover fin)) = some v :=
      Option.ite_none_right_eq_some.mp h
    cases hnext.2
    refine ⟨trivial, ?_⟩
    show losers fin (e :: rest) = losers fin rest
    rw [losers, hrec]

/-- One turn of a loop. -/
theorem visited_cases {B : BlockSize} {s : Db} {t : Int32} {k k' : Scan} {it it' : LogIterator}
    {v : Visit} {log : List Entry} (hpc : s.pc t = .scanning k it) (hscan : Scans B s.log it log)
    (h : s.visited B t = some (k', v, it')) :
    k' = k ∧ ((v = .stop ∧ toUndo t k log = []) ∨
      ∃ e rest, log = e :: rest ∧ Scans B s.log it' rest ∧ Visits t k e rest v) := by
  unfold Db.visited at h
  rw [hpc] at h
  obtain ⟨bytes, hreading, hread⟩ := hscan
  cases hread with
  | nil =>
    simp only [hreading.done, Bool.false_eq_true, if_false, Option.some.injEq] at h
    cases h
    refine ⟨rfl, Or.inl ⟨rfl, ?_⟩⟩
    cases k <;> rfl
  | cons hfirst hrest =>
    rename_i e b rest bs
    obtain ⟨hmore, it₁, hnext, hreading'⟩ := hreading.next
    simp only [hmore, if_true] at h
    obtain ⟨⟨b', it₂⟩, hok, h⟩ := Option.bind_eq_some_iff.mp h
    rw [toOption_eq_some, hnext] at hok
    cases hok
    obtain ⟨logRec, hrec, h⟩ := Option.bind_eq_some_iff.mp h
    rw [hfirst] at hrec
    cases hrec
    obtain ⟨v', hvisit, h⟩ := Option.bind_eq_some_iff.mp h
    cases h
    refine ⟨rfl, Or.inr ⟨e, rest, rfl, ⟨bs, hreading', hrest⟩, ?_⟩⟩
    cases k with
    | rollback => exact doRollback_visits rest hvisit
    | recover fin => exact doRecover_visits rest hvisit

end SampleDB.RecoveryScan
