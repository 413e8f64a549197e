import Mathlib.Data.List.Induction
import SampleDB.LogState

/-!
The log as a reversible sequence. Whatever appends, flushes and reopenings come
before, iterating the log gives every record ever appended, the newest first.
-/
namespace SampleDB.LogSequence

open Words Pages Blocks Logging LogContents LogState

/-- A call on the log, or closing it after a flush of the last LSN and opening it again. -/
inductive LogOp
  | append (logRec : Bytes)
  | flush (lsn : ℤ)
  | reopen
  deriving DecidableEq, Repr

/-- The open log manager, and the LSNs that its appends have returned, the oldest first. -/
structure LogSession where
  lm : LogMgr
  lsns : List ℤ
  deriving DecidableEq

def LogSession.step (B : BlockSize) (s : LogSession) : LogOp → Result LogSession
  | .append logRec => do
      let (lm, lsn) ← s.lm.append B logRec
      .ok ⟨lm, s.lsns ++ [lsn]⟩
  | .flush lsn => .ok ⟨s.lm.flush lsn, s.lsns⟩
  | .reopen => do
      let lm ← LogMgr.new B (s.lm.flush s.lm.latestLsn).file
      .ok ⟨lm, []⟩

/-- Operations on a log file that does not exist before. -/
def LogSession.run (B : BlockSize) (ops : List LogOp) : Result LogSession := do
  let lm ← LogMgr.new B []
  ops.foldlM (LogSession.step B) ⟨lm, []⟩

/-- The appended records, in the order of the calls. -/
def appended : List LogOp → List Bytes
  | [] => []
  | .append logRec :: ops => logRec :: appended ops
  | .flush _ :: ops => appended ops
  | .reopen :: ops => appended ops

theorem appended_concat (ops : List LogOp) (op : LogOp) :
    appended (ops ++ [op]) = appended ops ++ appended [op] := by
  induction ops with
  | nil => rfl
  | cons head ops ih => cases head <;> simp [appended, ih]

/-- The log holds the records `recs`, and its LSNs count the appends of the session. -/
def SessionInv (B : BlockSize) (recs : List Bytes) (s : LogSession) : Prop :=
  ∃ unsaved saved older, LogInv B s.lm unsaved saved older ∧
    unsaved ++ saved ++ older.flatten = recs.reverse ∧ s.lm.latestLsn = s.lsns.length ∧
    s.lsns = (List.range s.lsns.length).map (fun i : ℕ => (i : ℤ) + 1)

theorem lsns_concat (lsns : List ℤ)
    (h : lsns = (List.range lsns.length).map (fun i : ℕ => (i : ℤ) + 1)) :
    lsns ++ [(lsns.length : ℤ) + 1] =
      (List.range (lsns ++ [(lsns.length : ℤ) + 1]).length).map (fun i : ℕ => (i : ℤ) + 1) := by
  rw [List.length_append, List.length_singleton, List.range_succ, List.map_append, ← h]
  rfl

theorem step_inv (B : BlockSize) (recs : List Bytes) (s : LogSession) (op : LogOp)
    (h : SessionInv B recs s) (hfit : ∀ r ∈ appended [op], r.length + 8 ≤ B.bytes) :
    ∃ s', s.step B op = .ok s' ∧ SessionInv B (recs ++ appended [op]) s' := by
  obtain ⟨unsaved, saved, older, hinv, hrecs, hlatest, hlsns⟩ := h
  cases op with
  | append r =>
    obtain ⟨lm', happend, hlatest', hcases⟩ := hinv.append r (hfit r (by simp [appended]))
    refine ⟨⟨lm', s.lsns ++ [s.lm.latestLsn + 1]⟩, ?_, ?_⟩
    · simp only [LogSession.step, happend, ok_bind]
    · have hcount : lm'.latestLsn = ((s.lsns ++ [s.lm.latestLsn + 1]).length : ℕ) := by
        rw [hlatest', hlatest, List.length_append, List.length_singleton]
        rfl
      have hnext := lsns_concat s.lsns hlsns
      rw [← hlatest] at hnext
      rcases hcases with ⟨hinv', -, -⟩ | ⟨hinv', -, -, -⟩
      · refine ⟨r :: unsaved, saved, older, hinv', ?_, hcount, hnext⟩
        simp [appended, ← hrecs]
      · refine ⟨[r], [], (unsaved ++ saved) :: older, hinv', ?_, hcount, hnext⟩
        simp [appended, ← hrecs]
  | flush lsn =>
    refine ⟨⟨s.lm.flush lsn, s.lsns⟩, rfl, ?_⟩
    simp only [appended, List.append_nil]
    rcases hinv.flush_cases lsn with ⟨heq, hinv'⟩ | ⟨heq, -⟩
    · refine ⟨[], unsaved ++ saved, older, hinv', by simpa using hrecs, ?_, hlsns⟩
      rw [heq]
      exact hlatest
    · refine ⟨unsaved, saved, older, ?_, hrecs, ?_, hlsns⟩
      · rw [heq]
        exact hinv
      · rw [heq]
        exact hlatest
  | reopen =>
    -- the last LSN is never below the last saved one, so this flush is not skipped
    have hlsn := hinv.lsn
    have hfile : FileHolds B (s.lm.flush s.lm.latestLsn).file (unsaved ++ saved) older := by
      rcases hinv.flush_cases s.lm.latestLsn with ⟨-, hinv'⟩ | ⟨-, hlt⟩
      · exact hinv'.file_holds
      · omega
    obtain ⟨lm', hnew, hinv', hzero, -⟩ := new_of_fileHolds hfile
    refine ⟨⟨lm', []⟩, ?_, [], unsaved ++ saved, older, hinv', ?_, hzero, rfl⟩
    · simp only [LogSession.step, hnew, ok_bind]
    · simpa [appended] using hrecs

theorem run_inv (B : BlockSize) (ops : List LogOp)
    (hfit : ∀ r ∈ appended ops, r.length + 8 ≤ B.bytes) :
    ∃ s, LogSession.run B ops = .ok s ∧ SessionInv B (appended ops) s := by
  obtain ⟨lm, hnew, hinv, hzero, -⟩ := new_nil B
  simp only [LogSession.run, hnew, ok_bind]
  induction ops using List.reverseRecOn with
  | nil => exact ⟨⟨lm, []⟩, rfl, [], [], [], hinv, rfl, hzero, rfl⟩
  | append_singleton ops op ih =>
    rw [appended_concat] at hfit ⊢
    obtain ⟨s, hrun, hs⟩ := ih (fun r hr => hfit r (List.mem_append_left _ hr))
    obtain ⟨s', hstep, hs'⟩ :=
      step_inv B _ s op hs (fun r hr => hfit r (List.mem_append_right _ hr))
    refine ⟨s', ?_, hs'⟩
    rw [List.foldlM_append, hrun]
    simp only [ok_bind, List.foldlM_cons, hstep, List.foldlM_nil]
    rfl

/-- A log file that was just opened: its LSNs start again. -/
theorem run_reopen (B : BlockSize) (ops : List LogOp)
    (hfit : ∀ r ∈ appended ops, r.length + 8 ≤ B.bytes) :
    ∃ s, LogSession.run B (ops ++ [.reopen]) = .ok s ∧ s.lsns = [] ∧
      SessionInv B (appended ops) s := by
  have happended : appended (ops ++ [.reopen]) = appended ops := by
    rw [appended_concat]
    exact List.append_nil _
  obtain ⟨s, hrun, hinv⟩ := run_inv B (ops ++ [.reopen]) (by rwa [happended])
  rw [happended] at hinv
  refine ⟨s, hrun, ?_, hinv⟩
  unfold LogSession.run at hrun
  obtain ⟨lm, -, hfold⟩ := bind_eq_ok.mp hrun
  rw [List.foldlM_append] at hfold
  obtain ⟨before, -, hlast⟩ := bind_eq_ok.mp hfold
  rw [List.foldlM_cons] at hlast
  obtain ⟨after, hstep, hnil⟩ := bind_eq_ok.mp hlast
  cases hnil
  unfold LogSession.step at hstep
  obtain ⟨lm', -, hlm'⟩ := bind_eq_ok.mp hstep
  cases hlm'
  rfl

end SampleDB.LogSequence
