import Mathlib.Data.List.Induction
import SampleDB.LogState

/-!
The log file after a crash. A crash keeps a prefix of the effects on the file. As
long as it does not fall between the zeroed block of an append and its boundary
word, a log manager can be constructed on the rest and goes on behind a prefix of
the old records; in between it leaves a block whose boundary word is zero, and the
iterator takes the zeros for empty records.
-/
namespace SampleDB.LogCrash

open Words Pages Blocks Logging LogContents LogState

inductive LogCall
  | append (logRec : Bytes)
  | flush (lsn : ℤ)
  deriving DecidableEq, Repr

def LogCall.step (B : BlockSize) (lm : LogMgr) : LogCall → Result LogMgr
  | .append logRec => do
      let (lm, _) ← lm.append B logRec
      .ok lm
  | .flush lsn => .ok (lm.flush lsn)

/-- The calls on a log manager constructed on a file that does not exist before. -/
def runCalls (B : BlockSize) (calls : List LogCall) : Result LogMgr := do
  let lm ← LogMgr.new B []
  calls.foldlM (LogCall.step B) lm

def appended : List LogCall → List Bytes
  | [] => []
  | .append logRec :: calls => logRec :: appended calls
  | .flush _ :: calls => appended calls

theorem appended_append (calls calls' : List LogCall) :
    appended (calls ++ calls') = appended calls ++ appended calls' := by
  induction calls with
  | nil => rfl
  | cons head calls ih => cases head <;> simp [appended, ih]

/-- The first `m` records include each one covered by a flush that was complete. -/
def CoversFlushes (B : BlockSize) (calls : List LogCall) (f : File) (m : ℕ) : Prop :=
  ∀ before lsn later lm, calls = before ++ .flush lsn :: later →
    runCalls B (before ++ [.flush lsn]) = .ok lm → lm.file <+: f →
      ∀ i < (appended before).length, (i : ℤ) + 1 ≤ lsn → i < m

/-- After the crash a log manager can be constructed, takes any further records, and its
iterator gives these and a prefix of the old ones, all newest first. -/
def Consistent (B : BlockSize) (calls : List LogCall) (f : File) : Prop :=
  ∀ news : List Bytes, (∀ r ∈ news, r.length + 8 ≤ B.bytes) →
    ∃ lm lm' lm'' it m, LogMgr.new B f = .ok lm ∧
      news.foldlM (fun lm r => LogCall.step B lm (.append r)) lm = .ok lm' ∧
      lm'.iterator B = .ok (lm'', it) ∧
      LogIterator.Yields B lm''.file it (news.reverse ++ ((appended calls).take m).reverse) ∧
      CoversFlushes B calls f m

/-- The state between two calls. -/
structure CallInv (B : BlockSize) (calls : List LogCall) (lm : LogMgr)
    (unsaved saved : List Bytes) (older : List (List Bytes)) : Prop where
  log : LogInv B lm unsaved saved older
  records : unsaved ++ saved ++ older.flatten = (appended calls).reverse
  latest : lm.latestLsn = (appended calls).length
  last_effect : lm.file.getLast? ≠ some .append
  covers : ∀ before lsn later, calls = before ++ .flush lsn :: later →
    ∀ i < (appended before).length, (i : ℤ) + 1 ≤ lsn →
      i + unsaved.length < (appended calls).length

/-- The records on disk are a prefix of the appended ones. -/
theorem CallInv.saved_eq {B : BlockSize} {calls : List LogCall} {lm : LogMgr}
    {unsaved saved : List Bytes} {older : List (List Bytes)}
    (h : CallInv B calls lm unsaved saved older) (calls' : List LogCall) :
    saved ++ older.flatten = ((appended (calls ++ calls')).take
      ((appended calls).length - unsaved.length)).reverse := by
  have hrecs := congrArg List.reverse h.records
  rw [List.reverse_reverse, List.append_assoc, List.reverse_append] at hrecs
  have hlen := congrArg List.length hrecs
  simp only [List.length_append, List.length_reverse] at hlen
  rw [appended_append, List.take_append_of_le_length (by omega), ← hrecs,
    List.take_left' (by simp only [List.length_reverse, List.length_append]; omega),
    List.reverse_reverse]

theorem covers_concat {calls before later : List LogCall} {last : LogCall} {lsn : ℤ}
    (h : calls ++ [last] = before ++ .flush lsn :: later) :
    (calls = before ∧ last = .flush lsn ∧ later = []) ∨
      ∃ later', calls = before ++ .flush lsn :: later' ∧ later = later' ++ [last] := by
  induction later using List.reverseRecOn with
  | nil =>
    have h' := List.append_inj' h rfl
    exact Or.inl ⟨h'.1, by simpa using h'.2, rfl⟩
  | append_singleton later' x ih =>
    rw [← List.cons_append, ← List.append_assoc] at h
    have h' := List.append_inj' h rfl
    have hx : last = x := by simpa using h'.2
    exact Or.inr ⟨later', h'.1, by rw [hx]⟩


/-- What a crash leaves, when it is a log file that can be opened. -/
structure Recoverable (B : BlockSize) (calls : List LogCall) (f : File) (m : ℕ) (lm : LogMgr)
    (saved : List Bytes) (older : List (List Bytes)) : Prop where
  new : LogMgr.new B f = .ok lm
  log : LogInv B lm [] saved older
  records : saved ++ older.flatten = ((appended calls).take m).reverse
  covers : CoversFlushes B calls f m

theorem Recoverable.of_fileHolds {B : BlockSize} {f : File} {saved : List Bytes}
    {older : List (List Bytes)} (calls : List LogCall) (m : ℕ) (h : FileHolds B f saved older)
    (hrecords : saved ++ older.flatten = ((appended calls).take m).reverse)
    (hcovers : CoversFlushes B calls f m) : ∃ lm, Recoverable B calls f m lm saved older := by
  obtain ⟨lm, hnew, hinv, -, -⟩ := new_of_fileHolds h
  exact ⟨lm, hnew, hinv, hrecords, hcovers⟩

/-- What a crash leaves, when it falls between the two effects of a new block. -/
structure Torn (B : BlockSize) (calls : List LogCall) (f : File)
    (older : List (List Bytes)) : Prop where
  last_effect : f.getLast? = some .append
  length : f.length B = older.length + 1
  last_block : f.read B older.length = zeroPage B.bytes
  older_hold : ∀ p, OlderHold B (f.write older.length p) older
  records : (appended calls).length < older.flatten.length + B.bytes / 4

/-- A call that has finished leaves a log file that can be opened. -/
theorem CallInv.recoverable {B : BlockSize} {calls : List LogCall} {lm : LogMgr}
    {unsaved saved : List Bytes} {older : List (List Bytes)}
    (h : CallInv B calls lm unsaved saved older) :
    ∃ lm', Recoverable B calls lm.file ((appended calls).length - unsaved.length) lm'
      saved older := by
  have hrecs := h.saved_eq []
  rw [List.append_nil] at hrecs
  apply Recoverable.of_fileHolds _ _ h.log.file_holds hrecs
  intro before lsn later _ hcalls _ _ i hi hlsn
  have hcov := h.covers before lsn later hcalls i hi hlsn
  omega

/-- So does the next call, before its first effect on the file. -/
theorem CallInv.recoverable_before {B : BlockSize} {calls : List LogCall} {lm : LogMgr}
    {unsaved saved : List Bytes} {older : List (List Bytes)}
    (h : CallInv B calls lm unsaved saved older) (last : LogCall)
    (hlast : ∀ lsn lm', last = .flush lsn → runCalls B (calls ++ [last]) = .ok lm' →
      ¬ lm'.file <+: lm.file) :
    ∃ lm', Recoverable B (calls ++ [last]) lm.file ((appended calls).length - unsaved.length) lm'
      saved older := by
  apply Recoverable.of_fileHolds _ _ h.log.file_holds (h.saved_eq [last])
  intro before lsn later lm' hcalls hrun hfile i hi hlsn
  rcases covers_concat hcalls with ⟨rfl, hflush, rfl⟩ | ⟨later', hcalls', rfl⟩
  · rw [← hflush] at hrun
    exact absurd hfile (hlast lsn lm' hflush hrun)
  · have hcov := h.covers before lsn later' hcalls' i hi hlsn
    omega

def CrashCases (B : BlockSize) (calls : List LogCall) (f : File) : Prop :=
  (f.getLast? ≠ some .append ∧ ∃ m lm saved older, Recoverable B calls f m lm saved older) ∨
    ∃ older, Torn B calls f older

theorem between {α : Type} (l es f : List α) (h : l <+: f) (h' : f <+: l ++ es) :
    ∃ es', es' <+: es ∧ f = l ++ es' := by
  obtain ⟨es', rfl⟩ := h
  exact ⟨es', (List.prefix_append_right_inj l).mp h', rfl⟩

theorem runCalls_concat {B : BlockSize} {calls : List LogCall} {lm : LogMgr}
    (hrun : runCalls B calls = .ok lm) (last : LogCall) :
    runCalls B (calls ++ [last]) = last.step B lm := by
  obtain ⟨lm₀, hnew, -⟩ := new_nil B
  simp only [runCalls, hnew, ok_bind] at hrun ⊢
  rw [List.foldlM_append, hrun]
  simp only [ok_bind, List.foldlM_cons, List.foldlM_nil]
  exact bind_pure _

section Steps

variable {B : BlockSize} {calls : List LogCall} {lm : LogMgr} {unsaved saved : List Bytes}
  {older : List (List Bytes)}

theorem CallInv.flush (h : CallInv B calls lm unsaved saved older)
    (hrun : runCalls B calls = .ok lm) (lsn : ℤ) :
    ∃ unsaved' saved' older',
      CallInv B (calls ++ [.flush lsn]) (lm.flush lsn) unsaved' saved' older' ∧
      ∀ f, lm.file <+: f → f <+: (lm.flush lsn).file → CrashCases B (calls ++ [.flush lsn]) f := by
  have hrecs : appended (calls ++ [.flush lsn]) = appended calls := by
    rw [appended_append]
    exact List.append_nil _
  have hrun' := runCalls_concat hrun (.flush lsn)
  rcases h.log.flush_cases lsn with ⟨heq, hlog⟩ | ⟨heq, hskip⟩
  · have hinv : CallInv B (calls ++ [.flush lsn]) (lm.flush lsn) [] (unsaved ++ saved) older := by
      refine ⟨hlog, ?_, ?_, ?_, ?_⟩
      · rw [hrecs]
        exact h.records
      · rw [hrecs, heq]
        exact h.latest
      · rw [heq]
        simp [LogMgr.flushPage, File.write]
      · intro before lsn' later hcalls i hi _
        have hcount := congrArg (fun calls => (appended calls).length) hcalls
        simp only [appended_append, List.length_append] at hcount
        rw [List.length_nil, appended_append, List.length_append]
        omega
    refine ⟨_, _, _, hinv, ?_⟩
    intro f hlow hhigh
    have hfile : (lm.flush lsn).file = lm.file ++ [.write lm.currBlk lm.page] := by
      rw [heq]
      rfl
    rw [hfile] at hhigh
    obtain ⟨es, hes, rfl⟩ := between _ _ f hlow hhigh
    rcases List.prefix_cons_iff.mp hes with rfl | ⟨es', rfl, hes'⟩
    · left
      rw [List.append_nil]
      obtain ⟨lm', hrecover⟩ := h.recoverable_before (.flush lsn) (by
        intro lsn' lm' _ hstep hprefix
        cases hrun'.symm.trans hstep
        have hlen := hprefix.length_le
        rw [hfile, List.length_append, List.length_singleton] at hlen
        omega)
      exact ⟨h.last_effect, _, lm', _, _, hrecover⟩
    · left
      rw [List.prefix_nil.mp hes', ← hfile]
      obtain ⟨lm', hrecover⟩ := hinv.recoverable
      exact ⟨hinv.last_effect, _, lm', _, _, hrecover⟩
  · have hinv : CallInv B (calls ++ [.flush lsn]) (lm.flush lsn) unsaved saved older := by
      rw [heq]
      refine ⟨h.log, ?_, ?_, h.last_effect, ?_⟩
      · rw [hrecs]
        exact h.records
      · rw [hrecs]
        exact h.latest
      · intro before lsn' later hcalls i hi hlsn
        rw [hrecs]
        rcases covers_concat hcalls with ⟨rfl, hlast, -⟩ | ⟨later', hcalls', -⟩
        · -- the flush was skipped because its LSN is below the last saved one
          have hlsn' := h.log.lsn
          have hlatest := h.latest
          cases hlast
          omega
        · exact h.covers before lsn' later' hcalls' i hi hlsn
    refine ⟨_, _, _, hinv, ?_⟩
    intro f hlow hhigh
    left
    have hf : f = (lm.flush lsn).file := by
      rw [heq] at hhigh ⊢
      exact hhigh.eq_of_length_le hlow.length_le
    rw [hf]
    obtain ⟨lm', hrecover⟩ := hinv.recoverable
    exact ⟨hinv.last_effect, _, lm', _, _, hrecover⟩

theorem length_appended (calls : List LogCall) (r : Bytes) :
    (appended (calls ++ [.append r])).length = (appended calls).length + 1 := by
  rw [appended_append, List.length_append]
  rfl

theorem CallInv.records_append (h : CallInv B calls lm unsaved saved older) (r : Bytes) :
    (appended (calls ++ [.append r])).reverse = r :: (unsaved ++ saved ++ older.flatten) := by
  rw [appended_append, List.reverse_append, ← h.records]
  rfl

/-- What the flushes before have to have saved is what they had to save. -/
theorem CallInv.covers_append (h : CallInv B calls lm unsaved saved older) (r : Bytes) :
    ∀ before lsn later, calls ++ [.append r] = before ++ .flush lsn :: later →
      ∀ i < (appended before).length, (i : ℤ) + 1 ≤ lsn →
        i + unsaved.length < (appended calls).length := by
  intro before lsn later hcalls i hi hlsn
  rcases covers_concat hcalls with ⟨-, hlast, -⟩ | ⟨later', hcalls', -⟩
  · cases hlast
  · exact h.covers before lsn later' hcalls' i hi hlsn

/-- An append that stays in the block has no effect on the file. -/
theorem CallInv.append_same (h : CallInv B calls lm unsaved saved older) {r : Bytes}
    {lm' : LogMgr} (hlog : LogInv B lm' (r :: unsaved) saved older)
    (hlatest' : lm'.latestLsn = lm.latestLsn + 1) (hfile : lm'.file = lm.file) :
    CallInv B (calls ++ [.append r]) lm' (r :: unsaved) saved older ∧
      ∀ f, lm.file <+: f → f <+: lm'.file → CrashCases B (calls ++ [.append r]) f := by
  have hcount := length_appended calls r
  have hlatest := h.latest
  have hinv : CallInv B (calls ++ [.append r]) lm' (r :: unsaved) saved older := by
    refine ⟨hlog, (h.records_append r).symm, by omega, ?_, ?_⟩
    · rw [hfile]
      exact h.last_effect
    · intro before lsn later hcalls i hi hlsn
      have hcov := h.covers_append r before lsn later hcalls i hi hlsn
      rw [List.length_cons]
      omega
  refine ⟨hinv, ?_⟩
  intro f hlow hhigh
  left
  have hf : f = lm'.file := by
    rw [hfile] at hhigh ⊢
    exact hhigh.eq_of_length_le hlow.length_le
  rw [hf]
  obtain ⟨lm'', hrecover⟩ := hinv.recoverable
  exact ⟨hinv.last_effect, _, lm'', _, _, hrecover⟩

/-- An append that opens a new block saves the old one, appends the new one and writes it, and the
crash can come between these effects. -/
theorem CallInv.append_new (h : CallInv B calls lm unsaved saved older) {r : Bytes}
    (hr : r.length + 8 ≤ B.bytes) {lm' : LogMgr} {p : Page} (hlog : LogInv B lm' [r] [] ((unsaved ++ saved) :: older))
    (hlatest' : lm'.latestLsn = lm.latestLsn + 1)
    (hholds : FileHolds B lm.flushPage.file (unsaved ++ saved) older)
    (hfile : lm'.file = lm.flushPage.file ++ [.append, .write (older.length + 1) p]) :
    CallInv B (calls ++ [.append r]) lm' [r] [] ((unsaved ++ saved) :: older) ∧
      ∀ f, lm.file <+: f → f <+: lm'.file → CrashCases B (calls ++ [.append r]) f := by
  have hcount := length_appended calls r
  have hlatest := h.latest
  have hinv : CallInv B (calls ++ [.append r]) lm' [r] [] ((unsaved ++ saved) :: older) := by
    refine ⟨hlog, ?_, by omega, ?_, ?_⟩
    · rw [h.records_append r]
      simp
    · rw [hfile]
      simp
    · intro before lsn later hcalls i hi hlsn
      have hcov := h.covers_append r before lsn later hcalls i hi hlsn
      rw [List.length_singleton]
      omega
  refine ⟨hinv, ?_⟩
  intro f hlow hhigh
  have hfile' : lm'.file =
      lm.file ++ [.write lm.currBlk lm.page, .append, .write (older.length + 1) p] := by
    rw [hfile]
    simp [LogMgr.flushPage, File.write]
  rw [hfile'] at hhigh
  obtain ⟨es, hes, rfl⟩ := between _ _ f hlow hhigh
  rcases List.prefix_cons_iff.mp hes with rfl | ⟨es₁, rfl, hes₁⟩
  · left
    rw [List.append_nil]
    obtain ⟨lm'', hrecover⟩ := h.recoverable_before (.append r) (by
      intro lsn lm'' hlast
      cases hlast)
    exact ⟨h.last_effect, _, lm'', _, _, hrecover⟩
  rcases List.prefix_cons_iff.mp hes₁ with rfl | ⟨es₂, rfl, hes₂⟩
  · left
    obtain ⟨lm'', hrecover⟩ := Recoverable.of_fileHolds (calls ++ [.append r])
      (appended calls).length hholds (by
        rw [appended_append, List.take_left, ← h.records]) (by
        intro before lsn later _ hcalls _ _ i hi hlsn
        have hcov := h.covers_append r before lsn later hcalls i hi hlsn
        omega)
    exact ⟨by simp, _, lm'', _, _, hrecover⟩
  rcases List.prefix_cons_iff.mp hes₂ with rfl | ⟨es₃, rfl, hes₃⟩
  · right
    have hlen := hholds.length
    have happended : lm.file ++ [.write lm.currBlk lm.page, .append] =
        lm.flushPage.file.append := by
      simp [LogMgr.flushPage, File.write, File.append]
    rw [happended]
    refine ⟨(unsaved ++ saved) :: older, ?_, ?_, ?_, ?_, ?_⟩
    · simp [File.append]
    · rw [File.length_append, hlen]
      rfl
    · rw [List.length_cons, ← hlen]
      exact File.read_append_self B _
    · exact fun q => hholds.older_extend hlog.file_holds.older_hold.1 q
    · have hrecs' := congrArg List.length h.records
      rw [List.length_reverse] at hrecs'
      rw [hcount, List.flatten_cons, hrecs']
      omega
  · left
    rw [List.prefix_nil.mp hes₃, ← hfile']
    obtain ⟨lm'', hrecover⟩ := hinv.recoverable
    exact ⟨hinv.last_effect, _, lm'', _, _, hrecover⟩

/-- An append has three effects when it opens a new block, and none otherwise. -/
theorem CallInv.append (h : CallInv B calls lm unsaved saved older) (r : Bytes)
    (hr : r.length + 8 ≤ B.bytes) :
    ∃ lm' unsaved' saved' older', LogCall.step B lm (.append r) = .ok lm' ∧
      CallInv B (calls ++ [.append r]) lm' unsaved' saved' older' ∧
      ∀ f, lm.file <+: f → f <+: lm'.file → CrashCases B (calls ++ [.append r]) f := by
  obtain ⟨lm', happend, hlatest, hcases⟩ := h.log.append r hr
  have hstep : LogCall.step B lm (.append r) = .ok lm' := by
    simp only [LogCall.step, happend, ok_bind]
  rcases hcases with ⟨hlog, hfile, -⟩ | ⟨hlog, -, hholds, p, hfile⟩
  · exact ⟨lm', _, _, _, hstep, h.append_same hlog hlatest hfile⟩
  · exact ⟨lm', _, _, _, hstep, h.append_new hr hlog hlatest hholds hfile⟩

theorem CallInv.step (h : CallInv B calls lm unsaved saved older)
    (hrun : runCalls B calls = .ok lm) (last : LogCall)
    (hfit : ∀ r ∈ appended [last], r.length + 8 ≤ B.bytes) :
    ∃ lm' unsaved' saved' older', runCalls B (calls ++ [last]) = .ok lm' ∧
      CallInv B (calls ++ [last]) lm' unsaved' saved' older' ∧
      ∀ f, lm.file <+: f → f <+: lm'.file → CrashCases B (calls ++ [last]) f := by
  have hrun' := runCalls_concat hrun last
  cases last with
  | append r =>
    obtain ⟨lm', unsaved', saved', older', hstep, hinv, hcrash⟩ :=
      h.append r (hfit r (by simp [appended]))
    exact ⟨lm', _, _, _, hrun'.trans hstep, hinv, hcrash⟩
  | flush lsn =>
    obtain ⟨unsaved', saved', older', hinv, hcrash⟩ := h.flush hrun lsn
    exact ⟨_, _, _, _, hrun', hinv, hcrash⟩

end Steps

theorem run_inv (B : BlockSize) (calls : List LogCall)
    (hfit : ∀ r ∈ appended calls, r.length + 8 ≤ B.bytes) :
    ∃ lm unsaved saved older, runCalls B calls = .ok lm ∧
      CallInv B calls lm unsaved saved older := by
  induction calls using List.reverseRecOn with
  | nil =>
    obtain ⟨lm, hnew, hlog, hlatest, p, hfile⟩ := new_nil B
    refine ⟨lm, [], [], [], ?_, hlog, rfl, hlatest, ?_, ?_⟩
    · simp only [runCalls, hnew, ok_bind]
      rfl
    · simp [hfile]
    · intro before lsn later hcalls
      simp at hcalls
  | append_singleton calls last ih =>
    rw [appended_append] at hfit
    obtain ⟨lm, unsaved, saved, older, hrun, hinv⟩ :=
      ih (fun r hr => hfit r (List.mem_append_left _ hr))
    obtain ⟨lm', unsaved', saved', older', hrun', hinv', -⟩ :=
      hinv.step hrun last (fun r hr => hfit r (List.mem_append_right _ hr))
    exact ⟨lm', _, _, _, hrun', hinv'⟩

end SampleDB.LogCrash
