import Mathlib.Data.Set.Finite.Basic
import SampleDB.CrashSafety

/-!
The states of a session. Beside the invariant of crash recovery: the log has no records of
strings, a loop goes through records of the log, finitely many blocks are in the pool, and
while the first transaction recovers no request for a lock has timed out.
-/
namespace SampleDB.SessionStates

open Words Pages Blocks LogRecords RecordRoundTrip Logging LogState BufferPool Locking LockSafety
  LockSteps RecoveryLog Recovery RecoveryScan CrashInvariant CrashSafety Runs

/-- The transactions of a session log no strings. -/
def OfInts (e : Entry) : Prop := ∀ t blk offset str, e.logRec ≠ .setString t blk offset str

/-- The iterator of a loop. -/
def iterator : Recovery.Pc → Option LogIterator
  | .scanning _ it => some it
  | .undoing _ _ _ _ it => some it
  | _ => none

/-- The iterator is at the end of the log, or further on in it than the one before. -/
def Comes (B : BlockSize) (s s' : Db) (t : Int32) (it : LogIterator) : Prop :=
  Scans B s'.log it s.entries ∨ ∃ it₀, iterator (s.pc t) = some it₀ ∧
    ∀ rest, Scans B s.log it₀ rest → ∃ rest', Scans B s'.log it rest' ∧ ∀ e ∈ rest', e ∈ rest

/-- How a transaction has come to the place where it is. -/
def Arrives (B : BlockSize) (s s' : Db) (t : Int32) : Recovery.Pc → Prop
  | .fresh => False
  | .scanning _ it => Comes B s s' t it
  | .undoing _ _ _ _ it => Comes B s s' t it
  | .appended e lsn => s'.entries = ⟨e.logRec t, 0⟩ :: s.entries ∧ lsn = s'.log.latestLsn
  | .releasing e => ∃ lsn, s.pc t = .appended e lsn ∧ s'.log = s.log.flush lsn ∧
      s'.entries = s.entries
  | _ => True

/-- A transaction stays where it is, or goes on with its call. -/
def Moves (B : BlockSize) (s s' : Db) : Prop :=
  ∀ t, s'.pc t = s.pc t ∨ Arrives B s s' t (s'.pc t)

/-- The log after a step that adds these entries. -/
structure Adds (B : BlockSize) (s s' : Db) (new : List Entry) : Prop where
  entries : s'.entries = new ++ s.entries
  log : Extends B s.log s'.log
  lsn : s'.log.latestLsn = s.log.latestLsn + new.length
  unsaved : unsaved s'.log ≤ unsaved s.log + new.length

/-- A record that a step adds is one of the transaction that takes the step. -/
def Written (s s' : Db) (e : Entry) : Prop :=
  OfInts e ∧ ∀ t, e.logRec.txNumber = some t → s'.pc t ≠ s.pc t

/-- What every step of a session leaves, apart from the pages. -/
structure Follows (B : BlockSize) (s s' : Db) : Prop where
  adds : ∃ new, (∀ e ∈ new, Written s s' e) ∧ Adds B s s' new
  locks : s'.locks = s.locks ∨
    ∃ l, (∀ t, l = .timeout t → active (s.pc t)) ∧ s.locks.step l = some s'.locks
  moves : Moves B s s'
  next : s'.nextTxNum = s.nextTxNum ∨
    (s'.nextTxNum.toInt = s.nextTxNum.toInt + 1 ∧ s'.pc s'.nextTxNum ≠ .fresh)
  recovered : s.recovered = true → s'.recovered = true

section Follows

variable {B : BlockSize} {pages : BlockId → Page} {s s' : Db} {t : Int32}

theorem append_cases {e : Entry} {lsn : ℤ} (hlog : LogOk B s.log s.entries)
    (hfits : FitsBlock B e.logRec) (h : s.append B e = some (s', lsn)) :
    ∃ log, s' = { s with log := log, entries := e :: s.entries } ∧ Adds B s s' [e] ∧
      lsn = log.latestLsn := by
  obtain ⟨bytes, lm, hwrite, happend, hlatest, hext, -, hunsaved⟩ := hlog.append hfits
  unfold Db.append at h
  rw [hwrite] at h
  obtain ⟨bytes', hbytes, h⟩ := Option.bind_eq_some_iff.mp h
  cases hbytes
  obtain ⟨⟨log, lsn'⟩, hlm, h⟩ := Option.bind_eq_some_iff.mp h
  rw [happend] at hlm
  cases hlm
  cases h
  exact ⟨lm, rfl, ⟨rfl, hext, hlatest, hunsaved⟩, hlatest.symm⟩

/-- A step that does not go to the log. -/
theorem adds_same (hentries : s'.entries = s.entries) (hlog : s'.log = s.log) :
    Adds B s s' [] := by
  constructor
  · exact hentries
  · rw [hlog]
    exact Extends.refl B s.log
  · rw [hlog]
    simp
  · rw [hlog]
    simp

theorem adds_flush (h : CrashInvariant.Inv B pages s) (lsn : ℤ)
    (hentries : s'.entries = s.entries) (hlog : s'.log = s.log.flush lsn) : Adds B s s' [] := by
  obtain ⟨-, hlatest, hext, hcases⟩ := h.log.flush lsn
  rw [← hlog] at hlatest hext hcases
  constructor
  · exact hentries
  · exact hext
  · rw [hlatest]
    simp
  · rw [List.length_nil]
    omega

theorem follows_none (hadds : Adds B s s' [])
    (hlocks : s'.locks = s.locks ∨
      ∃ l, (∀ t, l = .timeout t → active (s.pc t)) ∧ s.locks.step l = some s'.locks)
    (hmoves : Moves B s s') (hnext : s'.nextTxNum = s.nextTxNum)
    (hrec : s.recovered = true → s'.recovered = true) : Follows B s s' :=
  ⟨⟨[], fun _ he => (by cases he), hadds⟩, hlocks, hmoves, Or.inl hnext, hrec⟩

/-- A step that changes no more than the locks, and where one transaction stands. -/
theorem follows_lock (l : LockLabel Int32) (hl : ∀ t, l = .timeout t → active (s.pc t))
    (hlock : s.locks.step l = some s'.locks) (hadds : Adds B s s' []) (hmoves : Moves B s s')
    (hnext : s'.nextTxNum = s.nextTxNum) (hrec : s.recovered = true → s'.recovered = true) :
    Follows B s s' :=
  follows_none hadds (Or.inr ⟨l, hl, hlock⟩) hmoves hnext hrec

/-- A step on the pages, the log or where one transaction stands. -/
theorem follows_other (hlock : s'.locks = s.locks) (hadds : Adds B s s' [])
    (hmoves : Moves B s s') (hnext : s'.nextTxNum = s.nextTxNum)
    (hrec : s.recovered = true → s'.recovered = true) : Follows B s s' :=
  follows_none hadds (Or.inl hlock) hmoves hnext hrec

theorem moves_same (h : s'.pc = s.pc) : Moves B s s' := fun t => Or.inl (congrFun h t)

theorem moves_setPc (t : Int32) (pc : Recovery.Pc) (h : s'.pc = Function.update s.pc t pc)
    (hpc : Arrives B s s' t pc) : Moves B s s' := by
  intro t'
  rw [h]
  by_cases heq : t' = t
  · rw [heq, Function.update_self]
    exact Or.inr hpc
  · exact Or.inl (Function.update_of_ne heq _ _)

theorem ofInts_start (t : Int32) : OfInts ⟨.start t, 0⟩ :=
  fun _ _ _ _ heq => (by cases heq)

theorem ofInts_setInt (t : Int32) (blk : BlockId) (offset old val : Int32) :
    OfInts ⟨.setInt t blk offset old, val⟩ :=
  fun _ _ _ _ heq => (by cases heq)

theorem ofInts_end (t : Int32) (e : End) : OfInts ⟨e.logRec t, 0⟩ := by
  intro t' blk offset str
  cases e <;> exact fun heq => (by cases heq)

theorem follows_begin (h : CrashInvariant.Inv B pages s) (hB : 16 ≤ B.bytes)
    (hstep : s.step B .begin = some s') : Follows B s s' := by
  simp only [Db.step, Db.begin] at hstep
  split at hstep
  · cases hstep
  · rename_i hmax
    split at hstep
    · obtain ⟨⟨s₁, lsn⟩, happend, hok⟩ := Option.bind_eq_some_iff.mp hstep
      obtain ⟨log, rfl, hadds, -⟩ :=
        append_cases (e := ⟨.start (s.nextTxNum + 1), 0⟩) h.log hB happend
      cases hok
      have hready : ∀ s' t, ∀ b : Bool, Arrives B s s' t (if b = true then .ready else .starting) ∧
          (if b = true then Recovery.Pc.ready else .starting) ≠ .fresh := by
        intro s' t b
        cases b <;> exact ⟨trivial, fun heq => (by cases heq)⟩
      constructor
      · refine ⟨_, List.forall_mem_singleton.mpr ⟨ofInts_start _, ?_⟩, hadds.1, hadds.2, hadds.3,
          hadds.4⟩
        intro t heq
        cases heq
        rw [h.fresh_next (succ_toInt hmax)]
        show Function.update _ (s.nextTxNum + 1) _ (s.nextTxNum + 1) ≠ _
        rw [Function.update_self]
        exact (hready s (s.nextTxNum + 1) _).2
      · exact Or.inl rfl
      · exact moves_setPc _ _ rfl (hready _ _ _).1
      · refine Or.inr ⟨succ_toInt hmax, ?_⟩
        show Function.update _ (s.nextTxNum + 1) _ (s.nextTxNum + 1) ≠ _
        rw [Function.update_self]
        exact (hready s (s.nextTxNum + 1) _).2
      · intro hrecovered
        show (s.recovered || s.isNew) = true
        rw [hrecovered, Bool.true_or]
    · cases hstep

theorem follows_startScan (h : CrashInvariant.Inv B pages s) {k : Scan}
    (hstep : s.startScan B t k = some s') : Follows B s s' := by
  obtain ⟨lm, it, hit, -, hlatest, hext, hsaved, hscan⟩ := h.log.iterator
  unfold Db.startScan at hstep
  rw [hit] at hstep
  obtain ⟨⟨log, it'⟩, hok, hstep⟩ := Option.bind_eq_some_iff.mp hstep
  cases hok
  cases hstep
  have hadds : Adds B s ({ s with log := lm }.setPc t (.scanning k it)) [] := by
    constructor
    · rfl
    · exact hext
    · exact hlatest.trans (Int.add_zero _).symm
    · show unsaved lm ≤ _
      omega
  exact follows_other rfl hadds (moves_setPc t (.scanning k it) rfl (Or.inl hscan)) rfl id

theorem follows_scan (hstep : s.step B (.scan t) = some s') : Follows B s s' := by
  simp only [Db.step, Db.scan] at hstep
  obtain ⟨⟨k, v, it⟩, hvisited, hstep⟩ := Option.bind_eq_some_iff.mp hstep
  obtain ⟨k₀, it₀, hpc⟩ := visited_pc hvisited
  have hlater : v ≠ .stop → ∀ rest, Scans B s.log it₀ rest →
      ∃ rest', Scans B s.log it rest' ∧ ∀ e ∈ rest', e ∈ rest := by
    intro hstop rest hscan
    rcases (visited_cases hpc hscan hvisited).2 with ⟨heq, -⟩ | ⟨e, rest', rfl, hscan', -⟩
    · exact absurd heq hstop
    · exact ⟨rest', hscan', fun e' he' => List.mem_cons_of_mem e he'⟩
  have hbefore : iterator (s.pc t) = some it₀ := by
    rw [hpc]
    rfl
  cases v with
  | stop =>
    cases hstep
    exact follows_other rfl (adds_same rfl rfl) (moves_setPc t (.flushing _) rfl trivial) rfl id
  | next k =>
    cases hstep
    have hcomes : Comes B s (s.setPc t (.scanning k it)) t it :=
      Or.inr ⟨it₀, hbefore, hlater (fun heq => (by cases heq))⟩
    exact follows_other rfl (adds_same rfl rfl) (moves_setPc t (.scanning k it) rfl hcomes) rfl id
  | undo blk offset val =>
    obtain ⟨locks, hlock, hok⟩ := Option.bind_eq_some_iff.mp hstep
    cases hok
    have hcomes : Comes B s ((s.setLocks locks).setPc t (.undoing k blk offset val it)) t it :=
      Or.inr ⟨it₀, hbefore, hlater (fun heq => (by cases heq))⟩
    exact follows_lock (.xLock t blk) (fun _ heq => (by cases heq)) hlock (adds_same rfl rfl)
      (moves_setPc t (.undoing k blk offset val it) rfl hcomes) rfl id

theorem follows_write (h : CrashInvariant.Inv B pages s) (hstep : s.step B (.write t) = some s') :
    Follows B s s' := by
  have hdata := (h.txs t).data
  simp only [Db.step, Db.write] at hstep
  split at hstep
  · rename_i blk offset val hpc hidle
    rw [hpc] at hdata
    obtain ⟨buf, -, hstep⟩ := Option.bind_eq_some_iff.mp hstep
    obtain ⟨oldVal, -, hstep⟩ := Option.bind_eq_some_iff.mp hstep
    obtain ⟨⟨s₁, lsn⟩, happend, hstep⟩ := Option.bind_eq_some_iff.mp hstep
    obtain ⟨page, -, hok⟩ := Option.bind_eq_some_iff.mp hstep
    obtain ⟨log, rfl, hadds, -⟩ :=
      append_cases (e := ⟨.setInt t blk offset oldVal, val⟩) h.log hdata.2 happend
    cases hok
    refine ⟨⟨_, List.forall_mem_singleton.mpr ⟨ofInts_setInt _ _ _ _ _, ?_⟩, hadds.1, hadds.2,
      hadds.3, hadds.4⟩, Or.inl rfl, moves_setPc t .ready rfl trivial, Or.inl rfl, id⟩
    intro t' heq
    cases heq
    rw [setPc_self, hpc]
    exact fun heq => (by cases heq)
  · cases hstep

theorem follows_append (h : CrashInvariant.Inv B pages s) (hB : 16 ≤ B.bytes)
    (hstep : s.step B (.append t) = some s') : Follows B s s' := by
  simp only [Db.step] at hstep
  split at hstep
  · rename_i e hpc
    obtain ⟨⟨s₁, lsn⟩, happend, hok⟩ := Option.bind_eq_some_iff.mp hstep
    obtain ⟨log, rfl, hadds, hlsn⟩ := append_cases h.log (logRec_fits hB t e) happend
    cases hok
    refine ⟨⟨_, List.forall_mem_singleton.mpr ⟨ofInts_end t e, ?_⟩, hadds.1, hadds.2, hadds.3,
      hadds.4⟩, Or.inl rfl, moves_setPc t (.appended e lsn) rfl ⟨rfl, hlsn⟩, Or.inl rfl, id⟩
    intro t' heq
    have hself : t' = t := by
      cases e <;> cases heq <;> rfl
    rw [hself, setPc_self, hpc]
    exact fun heq => (by cases heq)
  · cases hstep

theorem follows_clear (hstep : s.step B (.clear t) = some s') : Follows B s s' := by
  simp only [Db.step] at hstep
  split at hstep
  · rename_i e hpc
    obtain ⟨locks, hlock, hok⟩ := Option.bind_eq_some_iff.mp hstep
    cases hok
    refine follows_lock (.clear t) (fun _ heq => (by cases heq)) hlock (adds_same rfl rfl)
      (moves_setPc t _ rfl ?_) rfl ?_
    · cases e <;> trivial
    · intro hrec
      show (s.recovered || _) = true
      rw [hrec, Bool.true_or]
  · cases hstep

theorem flush_log (files : Files Page) (buf : Buffer Page) :
    (buf.flush files).1.log = files.log.flush buf.lsn ∨ (buf.flush files).1.log = files.log := by
  unfold Buffer.flush
  split
  · exact Or.inl rfl
  · exact Or.inr rfl

theorem follows_flushBuffer (h : CrashInvariant.Inv B pages s) {blk : BlockId}
    (hstep : s.step B (.flushBuffer blk) = some s') : Follows B s s' := by
  obtain ⟨buf, -, hok⟩ := Option.bind_eq_some_iff.mp hstep
  have hflush := flush_log ⟨s.log, s.disk⟩ buf
  cases hok
  refine follows_other rfl ?_ (moves_same rfl) rfl id
  rcases hflush with hflush | hflush
  · exact adds_flush h buf.lsn rfl hflush
  · exact adds_same rfl hflush

theorem step_follows {l : Label} (h : CrashInvariant.Inv B pages s)
    (hstep : s.step B l = some s') (hok : Proceeds B s l) (hl : l ≠ .crash) : Follows B s s' := by
  cases l with
  | begin => exact follows_begin h hok.2 hstep
  | scan t => exact follows_scan hstep
  | write t => exact follows_write h hstep
  | append t => exact follows_append h hok.2 hstep
  | clear t => exact follows_clear hstep
  | flushBuffer blk => exact follows_flushBuffer h hstep
  | crash => exact absurd rfl hl
  | setInt t blk offset val =>
    simp only [Db.step] at hstep
    split at hstep
    · obtain ⟨locks, hlock, hok⟩ := Option.bind_eq_some_iff.mp hstep
      cases hok
      exact follows_lock (.xLock t blk) (fun _ heq => (by cases heq)) hlock (adds_same rfl rfl)
        (moves_setPc t (.setInt blk offset val) rfl trivial) rfl id
    · cases hstep
  | granted t =>
    obtain ⟨locks, hlock, rfl⟩ := Option.map_eq_some_iff.mp hstep
    exact follows_lock (.granted t) (fun _ heq => (by cases heq)) hlock (adds_same rfl rfl)
      (moves_same rfl) rfl id
  | timeout t =>
    simp only [Db.step] at hstep
    split at hstep
    · rename_i hpc
      obtain ⟨locks, hlock, hok⟩ := Option.bind_eq_some_iff.mp hstep
      cases hok
      refine follows_lock (.timeout t) ?_ hlock (adds_same rfl rfl)
        (moves_setPc t .ready rfl trivial) rfl id
      intro t' heq
      cases heq
      rw [hpc]
      trivial
    · cases hstep
  | commit t =>
    simp only [Db.step] at hstep
    split at hstep
    · cases hstep
      exact follows_other rfl (adds_same rfl rfl) (moves_setPc t (.flushing .commit) rfl trivial)
        rfl id
    · cases hstep
  | rollback t =>
    simp only [Db.step] at hstep
    split at hstep
    · exact follows_startScan h hstep
    · cases hstep
  | recover t =>
    simp only [Db.step] at hstep
    split at hstep
    · exact follows_startScan h hstep
    · cases hstep
  | undo t =>
    simp only [Db.step, Db.undo] at hstep
    split at hstep
    · rename_i k blk offset val it hpc hidle
      obtain ⟨buf, -, hstep⟩ := Option.bind_eq_some_iff.mp hstep
      obtain ⟨page, -, hok⟩ := Option.bind_eq_some_iff.mp hstep
      cases hok
      refine follows_other rfl (adds_same rfl rfl) (moves_setPc t (.scanning k it) rfl ?_) rfl id
      exact Or.inr ⟨it, by rw [hpc]; rfl, fun rest hscan => ⟨rest, hscan, fun _ he => he⟩⟩
    · cases hstep
  | sync t =>
    simp only [Db.step] at hstep
    split at hstep
    · rename_i e lsn hpc
      obtain ⟨locks, hlock, hok⟩ := Option.bind_eq_some_iff.mp hstep
      cases hok
      exact follows_lock (.release t) (fun _ heq => (by cases heq)) hlock (adds_flush h lsn rfl rfl)
        (moves_setPc t (.releasing e) rfl ⟨lsn, hpc, rfl, rfl⟩) rfl id
    · cases hstep
  | unlock t blk =>
    obtain ⟨locks, hlock, rfl⟩ := Option.map_eq_some_iff.mp hstep
    exact follows_lock (.unlock t blk) (fun _ heq => (by cases heq)) hlock (adds_same rfl rfl)
      (moves_same rfl) rfl id
  | load blk lsn =>
    simp only [Db.step] at hstep
    split at hstep
    · cases hstep
      exact follows_other rfl (adds_same rfl rfl) (moves_same rfl) rfl id
    · cases hstep
  | evict blk =>
    obtain ⟨buf, -, hstep⟩ := Option.bind_eq_some_iff.mp hstep
    split at hstep
    · cases hstep
    · cases hstep
      exact follows_other rfl (adds_same rfl rfl) (moves_same rfl) rfl id

theorem Arrives.comes {pc : Recovery.Pc} (h : Arrives B s s' t pc) {it : LogIterator}
    (hit : iterator pc = some it) : Comes B s s' t it := by
  cases pc with
  | scanning k it' =>
    cases hit
    exact h
  | undoing k blk offset val it' =>
    cases hit
    exact h
  | _ => cases hit

theorem Arrives.not_fresh {pc : Recovery.Pc} (h : Arrives B s s' t pc) : pc ≠ .fresh := by
  intro heq
  rw [heq] at h
  exact h

end Follows

/-- What holds of a database in every session. -/
structure Reached (B : BlockSize) (pages : BlockId → Page) (s : Db) : Prop where
  inv : CrashInvariant.Inv B pages s
  ints : ∀ e ∈ s.entries, OfInts e
  loaded : {blk | s.pool blk ≠ none}.Finite
  iterators : ∀ t it, iterator (s.pc t) = some it →
    ∃ rest, Scans B s.log it rest ∧ ∀ e ∈ rest, e ∈ s.entries
  locks : s.recovered = false → LocksOk s.locks
  begun : ∀ t : Int32, 1 ≤ t.toInt → t.toInt ≤ s.nextTxNum.toInt → s.pc t ≠ .fresh

section Reached

variable {B : BlockSize} {pages : BlockId → Page} {s s' : Db} {l : Label}

/-- A step brings at most one block into the pool. -/
theorem loaded_step (h : {blk | s.pool blk ≠ none}.Finite) (hstep : s.step B l = some s') :
    {blk | s'.pool blk ≠ none}.Finite := by
  have hone : {blk | ∃ lsn, l = .load blk lsn}.Finite := by
    apply Set.Subsingleton.finite
    rintro blk ⟨lsn, rfl⟩ blk' ⟨lsn', heq⟩
    cases heq
    rfl
  apply (h.union hone).subset
  intro blk hblk
  by_contra hnot
  rw [Set.mem_union, not_or] at hnot
  obtain ⟨hpool, hload⟩ := hnot
  exact hblk (step_pool hstep (fun lsn heq => hload ⟨lsn, heq⟩) (not_not.mp hpool))

theorem Follows.locks_step (h : Follows B s s') (hold : Reached B pages s)
    (hrec : s'.recovered = false) : LocksOk s'.locks := by
  have hrec₀ : s.recovered = false := by
    by_contra hne
    rw [h.recovered (Bool.of_not_eq_false hne)] at hrec
    cases hrec
  have hlocks := hold.locks hrec₀
  rcases h.locks with hsame | ⟨l, htimeout, hstep⟩
  · rw [hsame]
    exact hlocks
  · apply hlocks.step _ hstep
    intro t heq
    rw [hold.inv.recovered (htimeout t heq)] at hrec₀
    cases hrec₀

theorem Follows.iterators_step (h : Follows B s s') (hold : Reached B pages s) (t : Int32)
    (it : LogIterator) (hit : iterator (s'.pc t) = some it) :
    ∃ rest, Scans B s'.log it rest ∧ ∀ e ∈ rest, e ∈ s'.entries := by
  obtain ⟨new, -, hadds⟩ := h.adds
  have hmem : ∀ e ∈ s.entries, e ∈ s'.entries := by
    intro e he
    rw [hadds.entries]
    exact List.mem_append_right new he
  rcases h.moves t with hsame | harrives
  · rw [hsame] at hit
    obtain ⟨rest, hscan, hrest⟩ := hold.iterators t it hit
    exact ⟨rest, hscan.extends hadds.log, fun e he => hmem e (hrest e he)⟩
  · rcases harrives.comes hit with hscan | ⟨it₀, hit₀, hlater⟩
    · exact ⟨s.entries, hscan, hmem⟩
    · obtain ⟨rest, hscan, hrest⟩ := hold.iterators t it₀ hit₀
      obtain ⟨rest', hscan', hrest'⟩ := hlater rest hscan
      exact ⟨rest', hscan', fun e he => hmem e (hrest e (hrest' e he))⟩

theorem Follows.not_fresh (h : Follows B s s') {t : Int32} (hbegun : s.pc t ≠ .fresh) :
    s'.pc t ≠ .fresh := by
  rcases h.moves t with hsame | harrives
  · rwa [hsame]
  · exact harrives.not_fresh

theorem Follows.begun_step (h : Follows B s s') (hold : Reached B pages s) (t : Int32)
    (hpos : 1 ≤ t.toInt) (hle : t.toInt ≤ s'.nextTxNum.toInt) : s'.pc t ≠ .fresh := by
  rcases h.next with hsame | ⟨hsucc, hbegun⟩
  · rw [hsame] at hle
    exact h.not_fresh (hold.begun t hpos hle)
  · by_cases hlast : t.toInt ≤ s.nextTxNum.toInt
    · exact h.not_fresh (hold.begun t hpos hlast)
    · have heq : t = s'.nextTxNum := Int32.toInt_inj.mp (by omega)
      rw [heq]
      exact hbegun

theorem Reached.crash (h : Reached B pages s) (hstep : s.step B .crash = some s') :
    Reached B pages s' := by
  have hinv := h.inv.crash hstep
  have hloaded := loaded_step h.loaded hstep
  obtain ⟨log, -, rfl⟩ := Option.map_eq_some_iff.mp hstep
  constructor
  · exact hinv
  · exact fun e he => h.ints e (List.mem_of_mem_drop he)
  · exact hloaded
  · exact fun t it hit => (by cases hit)
  · exact fun _ => locksOk_new
  · intro t hpos hle
    have hzero : (0 : Int32).toInt = 0 := rfl
    dsimp only at hle
    omega

theorem Reached.step (h : Reached B pages s) (hstep : s.Step B l s') (hok : Proceeds B s l) :
    Reached B pages s' := by
  by_cases hcrash : l = .crash
  · rw [hcrash] at hstep
    exact h.crash hstep.1
  · have hfollows := step_follows h.inv hstep.1 hok hcrash
    constructor
    · exact step_inv h.inv hstep hok
    · obtain ⟨new, hnew, hadds⟩ := hfollows.adds
      rw [hadds.entries]
      exact List.forall_mem_append.mpr ⟨fun e he => (hnew e he).1, h.ints⟩
    · exact loaded_step h.loaded hstep.1
    · exact hfollows.iterators_step h
    · exact hfollows.locks_step h
    · exact hfollows.begun_step h

/-- The blocks on disk at the end of a recovery. -/
theorem disk_of_releasing (h : CrashInvariant.Inv B pages s)
    {t : Int32}
    (hpc : s.pc t = .releasing .checkpoint) : s.disk = committedPages pages s.entries := by
  have hdata := (h.txs t).data
  rw [hpc] at hdata
  funext blk
  have hundoes := h.data.undoes_disk blk
  unfold RecoveryPages.Undoes at hundoes
  rw [hdata.1] at hundoes
  exact hundoes

end Reached

end SampleDB.SessionStates
