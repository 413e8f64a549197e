import SampleDB.CrashInvariant

/-!
Every step keeps the invariant of crash recovery, when its call on the lock manager is
one that goes on with blocks that were granted, and its records fit the log blocks.
-/
namespace SampleDB.CrashInvariant

open Words Pages Blocks LogRecords RecordRoundTrip Logging LogState BufferPool LockSteps Patches
  RecoveryLog Recovery RecoveryPages RecoveryScan
open Locking (ConcurrencyMgr LockState LockType LockLabel)
open LockSafety (Matched)

variable {B : BlockSize} {pages : BlockId → Page} {s s' : Db} {t : Int32}

theorem setPc_self (s : Db) (t : Int32) (pc : Pc) : (s.setPc t pc).pc t = pc := by
  simp [Db.setPc]

theorem setPc_other (s : Db) {t t' : Int32} (pc : Pc) (h : t' ≠ t) :
    (s.setPc t pc).pc t' = s.pc t' := by
  simp [Db.setPc, h]

section LockSteps

/-- A transaction goes on, with the same locks or a new one. -/
theorem Inv.relock (h : Inv B pages s) {locks : LockState Int32} {pc : Pc}
    (hmgrs : ∀ t' ≠ t, locks.mgrs t' = s.locks.mgrs t') (hlocks : LockSafety.Inv locks)
    (hfresh : s.pc t ≠ .fresh) (hlockAt : LockAt pc (locks.mgrs t))
    (hactive : active pc ↔ active (s.pc t)) (hrec : recovering pc ↔ recovering (s.pc t))
    (hmod : modifies (s.pc t) → modifies pc)
    (hkeep : modifies (s.pc t) → ∀ blk, (s.locks.mgrs t).held blk = some .X →
      (locks.mgrs t).held blk = some .X)
    (hdata : DataAt B pages ((s.setLocks locks).setPc t pc) t pc) :
    Inv B pages ((s.setLocks locks).setPc t pc) := by
  refine h.of_locks (t := t) (fun t' hne => setPc_other (s.setLocks locks) pc hne) hmgrs hlocks
    ?_ ?_ ?_
  · refine (h.txs t).move hfresh ?_ ?_ ?_ ?_
    · rw [Function.update_self]
      exact hlockAt
    · rw [Function.update_self]
      exact hactive.mp
    · rw [Function.update_self]
      exact hrec
    · rw [Function.update_self]
      exact hdata
  · rw [Function.update_self]
    exact fun hold => ⟨hactive.mpr hold, hkeep (modifies_of_active hold)⟩
  · rw [Function.update_self]
    exact fun hold => ⟨hmod hold, hkeep hold⟩

theorem Inv.setInt (h : Inv B pages s) {blk : BlockId} {offset val : Int32}
    (hok : Proceeds B s (.setInt t blk offset val))
    (hstep : s.step B (.setInt t blk offset val) = some s') : Inv B pages s' := by
  obtain ⟨hmatched, hfits⟩ := hok
  have hdata := (h.txs t).data
  unfold Db.step at hstep
  cases hpc : s.pc t <;> simp only [hpc, reduceCtorEq] at hstep
  obtain ⟨locks, hlock, hok⟩ := Option.bind_eq_some_iff.mp hstep
  cases hok
  rw [hpc] at hdata
  have hactive : active (s.pc t) := by
    rw [hpc]
    trivial
  obtain ⟨hlocks, hothers, hheld, hwaits, -⟩ := xLock_cases h.locks (hmatched _ rfl) hlock
  refine h.relock hothers hlocks (ne_fresh_of_active hactive) hwaits ?_ ?_ ?_ ?_ ?_
  · rw [hpc]
    exact Iff.rfl
  · rw [hpc]
    exact Iff.rfl
  · exact fun _ => Or.inl trivial
  · intro _ blk' hx
    rw [hheld]
    exact hx
  · exact ⟨h.forward_locks hactive hdata (relocks_of_held hheld), hfits⟩

theorem Inv.timeout (h : Inv B pages s) (hstep : s.step B (.timeout t) = some s') :
    Inv B pages s' := by
  have hdata := (h.txs t).data
  unfold Db.step at hstep
  cases hpc : s.pc t <;> simp only [hpc, reduceCtorEq] at hstep
  obtain ⟨locks, hlock, hok⟩ := Option.bind_eq_some_iff.mp hstep
  cases hok
  rw [hpc] at hdata
  have hactive : active (s.pc t) := by
    rw [hpc]
    trivial
  obtain ⟨hlocks, hothers, hheld, hidle, -⟩ := timeout_cases h.locks hlock
  refine h.relock hothers hlocks (ne_fresh_of_active hactive) hidle ?_ ?_ ?_ ?_ ?_
  · rw [hpc]
    exact Iff.rfl
  · rw [hpc]
    exact Iff.rfl
  · exact fun _ => Or.inl trivial
  · intro _ blk' hx
    rw [hheld]
    exact hx
  · exact h.forward_locks hactive hdata.1 (relocks_of_held hheld)

theorem Inv.commit (h : Inv B pages s) (hstep : s.step B (.commit t) = some s') :
    Inv B pages s' := by
  have hdata := (h.txs t).data
  have hlockAt := (h.txs t).lockAt
  unfold Db.step at hstep
  cases hpc : s.pc t <;> simp only [hpc, reduceCtorEq, Option.some.injEq] at hstep
  subst hstep
  rw [hpc] at hdata hlockAt
  have hactive : active (s.pc t) := by
    rw [hpc]
    trivial
  show Inv B pages ((s.setLocks s.locks).setPc t (.flushing .commit))
  refine h.relock (fun _ _ => rfl) h.locks (ne_fresh_of_active hactive) hlockAt
    ?_ ?_ ?_ (fun _ _ hx => hx) ?_
  · rw [hpc]
    exact Iff.rfl
  · rw [hpc]
    exact Iff.rfl
  · exact fun _ => Or.inl trivial
  · exact h.forward_locks hactive hdata (relocks_of_held rfl)

/-- A manager that is granted a lock is the one of a transaction that waits for it. -/
theorem lockAt_granted {pc : Pc} {mgr mgr' : ConcurrencyMgr} {blk : BlockId} {lt : LockType}
    (h : LockAt pc mgr) (hheld : mgr'.held = Function.update mgr.held blk (some lt))
    (hcases : (mgr.pc = .sWait blk false ∧ lt = .S ∧ mgr.held blk = none ∧ mgr'.pc = .idle) ∨
      (mgr.pc = .sWait blk true ∧ lt = .S ∧ mgr.held blk = none ∧ mgr'.pc = .xWait blk) ∨
      (mgr.pc = .xWait blk ∧ lt = .X ∧ mgr.held blk = some .S ∧ mgr'.pc = .idle)) :
    pc ≠ .fresh ∧ LockAt pc mgr' := by
  have hnot : mgr.pc ≠ .idle ∧ ∀ rest, mgr.pc ≠ .releasing rest := by
    rcases hcases with ⟨hmgr, -⟩ | ⟨hmgr, -⟩ | ⟨hmgr, -⟩
    all_goals
      rw [hmgr]
      constructor
      · intro hidle
        cases hidle
      · intro rest hrest
        cases hrest
  have hwaits : ∀ blk', Waits blk' mgr → Waits blk' mgr' := by
    rintro blk' (hwait | hwait | ⟨hidle, -⟩)
    · rcases hcases with ⟨hmgr, -⟩ | ⟨hmgr, -, -, hpc'⟩ | ⟨hmgr, -⟩
      · rw [hmgr] at hwait
        cases hwait
      · rw [hmgr] at hwait
        cases hwait
        exact Or.inr (Or.inl hpc')
      · rw [hmgr] at hwait
        cases hwait
    · rcases hcases with ⟨hmgr, -⟩ | ⟨hmgr, -⟩ | ⟨hmgr, rfl, -, hpc'⟩
      · rw [hmgr] at hwait
        cases hwait
      · rw [hmgr] at hwait
        cases hwait
      · rw [hmgr] at hwait
        cases hwait
        refine Or.inr (Or.inr ⟨hpc', ?_⟩)
        rw [hheld, Function.update_self]
    · exact absurd hidle hnot.1
  cases pc with
  | fresh => exact absurd h.1 hnot.1
  | setInt blk' offset val => exact ⟨by (intro heq; cases heq), hwaits blk' h⟩
  | undoing k blk' offset val it => exact ⟨by (intro heq; cases heq), hwaits blk' h⟩
  | releasing e =>
    obtain ⟨rest, hrest⟩ := h
    exact absurd hrest (hnot.2 rest)
  | _ => exact absurd h hnot.1

theorem Inv.granted (h : Inv B pages s) (hstep : s.step B (.granted t) = some s') :
    Inv B pages s' := by
  unfold Db.step at hstep
  obtain ⟨locks, hlock, rfl⟩ := Option.map_eq_some_iff.mp hstep
  obtain ⟨hlocks, hothers, blk, lt, hheld, hfree, hcases⟩ := granted_cases h.locks hlock
  obtain ⟨hfresh, hlockAt⟩ := lockAt_granted (h.txs t).lockAt hheld hcases
  have hkeep : ∀ blk', (s.locks.mgrs t).held blk' = some .X →
    (locks.mgrs t).held blk' = some .X := by
    intro blk' hx
    have hne : blk' ≠ blk := by
      intro heq
      rw [heq] at hx
      exact hfree t hx
    rw [hheld, Function.update_of_ne hne]
    exact hx
  have hrelocks : Relocks s t locks := by
    intro blk' hx
    by_cases heq : blk' = blk
    · rw [heq]
      exact Or.inr hfree
    · rw [hheld, Function.update_of_ne heq] at hx
      exact Or.inl hx
  have htx : TxInv B pages { s with locks := locks, pc := s.pc } t :=
    (h.txs t).move hfresh hlockAt id Iff.rfl (h.data_locks hrelocks)
  exact h.of_locks (fun _ _ => rfl) hothers hlocks htx (fun hactive => ⟨hactive, hkeep⟩)
    (fun hmod => ⟨hmod, hkeep⟩)

/-- Only a transaction that is over releases its locks. -/
theorem pc_releasing {pc : Pc} {mgr : ConcurrencyMgr} (h : LockAt pc mgr)
    (hmgr : ∃ rest, mgr.pc = .releasing rest) : ∃ e, pc = .releasing e := by
  obtain ⟨rest, hrest⟩ := hmgr
  have hwaits : ∀ blk, ¬ Waits blk mgr := by
    rintro blk (hwait | hwait | ⟨hwait, -⟩)
    all_goals
      rw [hrest] at hwait
      cases hwait
  have hidle : mgr.pc ≠ .idle := by
    intro hidle
    rw [hrest] at hidle
    cases hidle
  cases pc with
  | releasing e => exact ⟨e, rfl⟩
  | fresh => exact absurd h.1 hidle
  | setInt blk offset val => exact absurd h (hwaits blk)
  | undoing k blk offset val it => exact absurd h (hwaits blk)
  | _ => exact absurd h hidle

theorem Inv.unlock (h : Inv B pages s) {blk : BlockId}
    (hstep : s.step B (.unlock t blk) = some s') : Inv B pages s' := by
  unfold Db.step at hstep
  obtain ⟨locks, hlock, rfl⟩ := Option.map_eq_some_iff.mp hstep
  obtain ⟨hlocks, hothers, hheld, hmgr, hrest⟩ := unlock_cases h.locks hlock
  obtain ⟨e, hpc⟩ := pc_releasing (h.txs t).lockAt hmgr
  have hrelocks : Relocks s t locks := by
    intro blk' hx
    by_cases heq : blk' = blk
    · rw [hheld, heq, Function.update_self] at hx
      cases hx
    · rw [hheld, Function.update_of_ne heq] at hx
      exact Or.inl hx
  have htx : TxInv B pages { s with locks := locks, pc := s.pc } t := by
    refine (h.txs t).move ?_ ?_ id Iff.rfl (h.data_locks hrelocks)
    · rw [hpc]
      exact fun heq => by cases heq
    · rw [hpc]
      exact hrest
  refine h.of_locks (fun _ _ => rfl) hothers hlocks htx ?_ ?_
  · rw [hpc]
    exact fun hactive => hactive.elim
  · rw [hpc]
    exact fun hmod => hmod.elim

/-- The first transaction goes on after the recovery, and others may begin. -/
theorem Inv.resume (h : Inv B pages s) {locks : LockState Int32}
    (hpc : s.pc t = .releasing .checkpoint) (hlocks : LockSafety.Inv locks)
    (hothers : ∀ t' ≠ t, locks.mgrs t' = s.locks.mgrs t') (hidle : (locks.mgrs t).pc = .idle)
    (hnone : ∀ blk, (locks.mgrs t).held blk ≠ some .X) :
    Inv B pages (({ s with recovered := true }.setLocks locks).setPc t .ready) := by
  have hfresh : s.pc t ≠ .fresh := by
    rw [hpc]
    exact fun heq => by cases heq
  have hphase := ((h.txs t).phase hfresh).mp (by rw [hpc]; trivial)
  have hdata := (h.txs t).data
  have hown := (h.txs t).unowned (by rw [hpc]; trivial)
  rw [hpc] at hdata
  obtain ⟨hlosers, -⟩ := hdata
  have hself := setPc_self ({ s with recovered := true }.setLocks locks) t .ready
  constructor
  · exact h.log
  · exact h.lsn
  · exact h.data
  · exact hlocks
  · intro t'
    by_cases heq : t' = t
    · rw [heq]
      constructor
      · rw [hself]
        exact hidle
      · intro _
        show own t s.entries = (losers [] s.entries).filter (byTx t)
        rw [hown, hlosers]
        rfl
      · rw [hself]
        exact fun hrec => hrec.elim
      · rw [hself]
        exact fun blk hx => absurd hx (hnone blk)
      · rw [hself]
        exact fun _ => ⟨fun hrec => hrec.elim, fun hrec => by cases hrec⟩
      · exact fun _ => (h.txs t).number hfresh
    · have hother := setPc_other ({ s with recovered := true }.setLocks locks) .ready heq
      have hfresh' : s.pc t' = .fresh := by
        by_contra hne
        exact heq (h.alone hphase hfresh hne)
      refine (h.txs t').keep
        ⟨hother, hothers t' heq, Int.le_refl _, Extends.refl B s.log, ?_, ?_, ?_⟩
      · exact fun hne => absurd hfresh' hne
      · rw [hfresh']
        exact fun hactive => hactive.elim
      · rw [hfresh']
        exact fun hrec => hrec.elim
  · intro _ e he
    have hmem : e ∈ losers [] s.entries := he
    rw [hlosers] at hmem
    cases hmem
  · intro blk buf hbuf htx
    obtain ⟨t', -, -, hmod⟩ := h.modified blk buf hbuf htx
    have hfresh' : s.pc t' ≠ .fresh := by
      intro heq
      rw [heq] at hmod
      exact hmod.elim id id
    rw [h.alone hphase hfresh hfresh', hpc] at hmod
    exact hmod.elim
  · exact h.next
  · exact fun hrec => by cases hrec
  · exact fun _ hrec => by cases hrec

theorem Inv.clear (h : Inv B pages s) (hstep : s.step B (.clear t) = some s') :
    Inv B pages s' := by
  unfold Db.step at hstep
  cases hpc : s.pc t <;> simp only [hpc, reduceCtorEq] at hstep
  rename_i e
  obtain ⟨locks, hlock, hok⟩ := Option.bind_eq_some_iff.mp hstep
  obtain ⟨hlocks, hothers, hheld, hnone, -, hidle⟩ := clear_cases h.locks hlock
  have hnone' : ∀ blk, (locks.mgrs t).held blk ≠ some .X := by
    intro blk hx
    rw [hheld, hnone blk] at hx
    cases hx
  by_cases hend : e = .checkpoint
  · simp only [hend, decide_true, Bool.or_true, if_true, Option.some.injEq] at hok
    rw [hend] at hpc
    subst hok
    exact h.resume hpc hlocks hothers hidle hnone'
  · simp only [hend, decide_false, Bool.or_false, if_false, Option.some.injEq] at hok
    subst hok
    have hrec : ¬ recovering (.releasing e) := by
      cases e with
      | checkpoint => exact absurd rfl hend
      | _ => exact id
    refine h.relock hothers hlocks ?_ hidle ?_ ?_ ?_ ?_ trivial
    · rw [hpc]
      exact fun heq => by cases heq
    · rw [hpc]
      exact Iff.rfl
    · rw [hpc]
      exact ⟨fun hended => hended.elim, fun hended => hrec hended⟩
    · rw [hpc]
      exact fun hmod => hmod.elim
    · rw [hpc]
      exact fun hmod => hmod.elim

end LockSteps

section QuietSteps

/-- A step that leaves the transactions, the log and the pages in the buffers alone. -/
theorem Inv.quiet (h : Inv B pages s) {log : LogMgr} {disk : BlockId → Page}
    {pool : BlockId → Option (Buffer Page)} (hlog : LogOk B log s.entries)
    (hlatest : log.latestLsn = s.log.latestLsn) (hext : Extends B s.log log)
    (hsaved : unsaved s.log = 0 → unsaved log = 0)
    (hdata : PagesInv B.bytes pages s.entries (unsaved log) s.log.latestLsn disk pool)
    (hview : view disk pool = view s.disk s.pool)
    (hmod : ModifiedLocked { s with log := log, disk := disk, pool := pool }) :
    Inv B pages { s with log := log, disk := disk, pool := pool } where
  log := hlog
  lsn := by
    dsimp only
    rw [hlatest]
    exact h.lsn
  data := by
    dsimp only
    rw [hlatest]
    exact hdata
  locks := h.locks
  txs := by
    intro t
    refine (h.txs t).keep ⟨rfl, rfl, Int.le_refl _, hext, fun _ => rfl, ?_, ?_⟩
    · intro _
      refine ⟨rfl, rfl, fun blk _ => ⟨?_, rfl⟩⟩
      exact congrFun hview blk
    · exact fun _ => ⟨rfl, hview, hlatest, hsaved⟩
  locked := h.locked
  modified := hmod
  next := h.next
  first := h.first
  new := h.new

/-- The log is written to disk. -/
theorem Inv.saveLog (h : Inv B pages s) {log : LogMgr} (hlog : LogOk B log s.entries)
    (hlatest : log.latestLsn = s.log.latestLsn) (hext : Extends B s.log log)
    (hsaved : unsaved log ≤ unsaved s.log) : Inv B pages { s with log := log } :=
  h.quiet hlog hlatest hext (fun hzero => by omega) (h.data.save hsaved) rfl h.modified

theorem Inv.load (h : Inv B pages s) {blk : BlockId} {lsn : ℤ}
    (hstep : s.step B (.load blk lsn) = some s') : Inv B pages s' := by
  unfold Db.step at hstep
  cases hbuf : s.pool blk <;> simp only [hbuf, reduceCtorEq, Option.some.injEq] at hstep
  subst hstep
  obtain ⟨hdata, hview⟩ := h.data.load hbuf lsn
  refine h.quiet h.log rfl (Extends.refl B s.log) id hdata hview ?_
  intro blk' buf' hbuf' htx
  have hne : blk' ≠ blk := by
    intro heq
    dsimp only at hbuf'
    rw [heq, Function.update_self] at hbuf'
    cases hbuf'
    have hneg : (0 : ℤ) ≤ -1 := htx
    omega
  dsimp only at hbuf'
  rw [Function.update_of_ne hne] at hbuf'
  exact h.modified blk' buf' hbuf' htx

theorem Inv.evict (h : Inv B pages s) {blk : BlockId}
    (hstep : s.step B (.evict blk) = some s') : Inv B pages s' := by
  unfold Db.step at hstep
  obtain ⟨buf, hbuf, hok⟩ := Option.bind_eq_some_iff.mp hstep
  simp only [Option.ite_none_left_eq_some, Option.some.injEq] at hok
  obtain ⟨hclean, rfl⟩ := hok
  obtain ⟨hdata, hview⟩ := h.data.evict hbuf (by omega)
  refine h.quiet h.log rfl (Extends.refl B s.log) id hdata hview ?_
  intro blk' buf' hbuf' htx
  dsimp only at hbuf'
  by_cases heq : blk' = blk
  · rw [heq, Function.update_self] at hbuf'
    cases hbuf'
  · rw [Function.update_of_ne heq] at hbuf'
    exact h.modified blk' buf' hbuf' htx

theorem Inv.flushBuffer (h : Inv B pages s) {blk : BlockId}
    (hstep : s.step B (.flushBuffer blk) = some s') : Inv B pages s' := by
  unfold Db.step at hstep
  obtain ⟨buf, hbuf, hok⟩ := Option.bind_eq_some_iff.mp hstep
  obtain ⟨hlog, hlatest, hext, hcases⟩ := h.log.flush buf.lsn
  by_cases hmodified : buf.txnum ≥ 0
  · have hflush : buf.flush ⟨s.log, s.disk⟩ = (⟨s.log.flush buf.lsn,
        Function.update s.disk buf.blk buf.contents⟩, { buf with txnum := -1 }) := if_pos hmodified
    rw [hflush] at hok
    cases hok
    have hview : view (Function.update s.disk buf.blk buf.contents)
        (Function.update s.pool blk (some { buf with txnum := -1 })) = view s.disk s.pool := by
      funext blk'
      by_cases heq : blk' = blk
      · rw [heq, view_update_self, view_some hbuf]
      · rw [view_update_ne heq]
        unfold view
        rw [Function.update_of_ne (by rw [(h.data.buffer blk buf hbuf).1]; exact heq)]
    refine h.quiet hlog hlatest hext ?_ (h.data.flushBuffer hbuf hcases) hview ?_
    · rcases hcases with hzero | ⟨hsame, -⟩
      · exact fun _ => hzero
      · rw [hsame]
        exact id
    · intro blk' buf' hbuf' htx
      have hne : blk' ≠ blk := by
        intro heq
        dsimp only [Db.setBuffer] at hbuf'
        rw [heq, Function.update_self] at hbuf'
        cases hbuf'
        have hneg : (0 : ℤ) ≤ -1 := htx
        omega
      dsimp only [Db.setBuffer] at hbuf'
      rw [Function.update_of_ne hne] at hbuf'
      exact h.modified blk' buf' hbuf' htx
  · have hflush : buf.flush ⟨s.log, s.disk⟩ = (⟨s.log, s.disk⟩, buf) := if_neg hmodified
    rw [hflush] at hok
    cases hok
    have hpool : Function.update s.pool blk (some buf) = s.pool := by
      rw [← hbuf, Function.update_eq_self]
    have hsame : { s with log := s.log, disk := s.disk }.setBuffer blk (some buf) = s := by
      unfold Db.setBuffer
      rw [hpool]
    rw [hsame]
    exact h

end QuietSteps

section Loops

theorem Pending.sameLoop {k k' : Scan} {es : List Entry} (h : Pending pages s t k es)
    (hsame : SameLoop k k') : Pending pages s t k' es := by
  have hiff : k' = .rollback ↔ k = .rollback := by
    cases k <;> cases k' <;> first | exact hsame.elim | simp
  exact ⟨h.losers, fun hk => h.byTx (hiff.mp hk), fun blk hx =>
    h.restores blk (fun hk => hx (hiff.mpr hk))⟩

theorem visited_pc {x : Scan × Visit × LogIterator} (h : s.visited B t = some x) :
    ∃ k it, s.pc t = .scanning k it := by
  unfold Db.visited at h
  cases hpc : s.pc t <;> simp only [hpc, reduceCtorEq] at h
  exact ⟨_, _, rfl⟩

/-- The loop goes on, or comes to its end. -/
theorem Inv.loop (h : Inv B pages s) {k : Scan} {it : LogIterator} {pc : Pc}
    (hpc : s.pc t = .scanning k it) (hto : (∃ k' it', pc = .scanning k' it' ∧ SameLoop k k') ∨
      pc = .flushing k.ends)
    (hdata : DataAt B pages (s.setPc t pc) t pc) : Inv B pages (s.setPc t pc) := by
  have hlockAt := (h.txs t).lockAt
  rw [hpc] at hlockAt
  have hkind : (active pc ↔ active (.scanning k it)) ∧
      (recovering pc ↔ recovering (.scanning k it)) ∧ modifies pc ∧ LockAt pc (s.locks.mgrs t) := by
    rcases hto with ⟨k', it', rfl, hsame⟩ | rfl
    · cases k <;> cases k' <;> first
        | exact hsame.elim
        | exact ⟨Iff.rfl, Iff.rfl, Or.inl trivial, hlockAt⟩
        | exact ⟨Iff.rfl, Iff.rfl, Or.inr trivial, hlockAt⟩
    · cases k with
      | rollback => exact ⟨Iff.rfl, Iff.rfl, Or.inl trivial, hlockAt⟩
      | recover fin => exact ⟨Iff.rfl, Iff.rfl, Or.inr trivial, hlockAt⟩
  obtain ⟨hactive, hrec, hmod, hlockAt'⟩ := hkind
  show Inv B pages ((s.setLocks s.locks).setPc t pc)
  refine h.relock (fun _ _ => rfl) h.locks ?_ hlockAt' ?_ ?_ (fun _ => hmod)
    (fun _ _ hx => hx) hdata
  · rw [hpc]
    exact fun heq => by cases heq
  · rw [hpc]
    exact hactive
  · rw [hpc]
    exact hrec

theorem Inv.scan (h : Inv B pages s) (hok : Proceeds B s (.scan t))
    (hstep : s.step B (.scan t) = some s') : Inv B pages s' := by
  unfold Db.step Db.scan at hstep
  obtain ⟨⟨k', v, it'⟩, hvisited, hnext⟩ := Option.bind_eq_some_iff.mp hstep
  obtain ⟨k, it, hpc⟩ := visited_pc hvisited
  have hdata := (h.txs t).data
  have hlockAt := (h.txs t).lockAt
  rw [hpc] at hdata hlockAt
  obtain ⟨log, hscan, hpending⟩ := hdata
  obtain ⟨rfl, hcases⟩ := visited_cases hpc hscan hvisited
  have hfresh : s.pc t ≠ .fresh := by
    rw [hpc]
    exact fun heq => by cases heq
  cases v with
  | stop =>
    have hnil : toUndo t k' log = [] := by
      rcases hcases with ⟨-, hnil⟩ | ⟨e, rest, rfl, -, hnil⟩
      · exact hnil
      · exact hnil
    rw [hnil] at hpending
    cases hnext
    apply h.loop hpc (Or.inr rfl)
    cases k' with
    | rollback =>
      exact h.pending_locks (fun _ => by rw [hpc]; trivial) hpending (relocks_of_held rfl)
    | recover fin =>
      have hpending' : Pending pages s t (.recover []) [] := hpending.sameLoop trivial
      exact h.pending_locks (fun hk => by cases hk) hpending' (relocks_of_held rfl)
  | next k₁ =>
    rcases hcases with ⟨hstop, -⟩ | ⟨e, rest, rfl, hscan', hsame, hundo⟩
    · cases hstop
    · cases hnext
      rw [hundo] at hpending
      refine h.loop hpc (Or.inl ⟨k₁, it', rfl, hsame⟩) ⟨rest, hscan', ?_⟩
      refine h.pending_locks ?_ (hpending.sameLoop hsame) (relocks_of_held rfl)
      intro hk
      rw [hpc]
      cases k' <;> cases k₁ <;> trivial
  | undo blk offset val =>
    rcases hcases with ⟨hstop, -⟩ | ⟨e, rest, rfl, hscan', t', hrecord, hundo⟩
    · cases hstop
    · obtain ⟨locks, hlock, hnext⟩ := Option.bind_eq_some_iff.mp hnext
      cases hnext
      rw [hundo] at hpending
      have hcall : s.lockCall B (.scan t) = some (.xLock t blk) := by
        unfold Db.lockCall
        simp only [hvisited]
      obtain ⟨hlocks, hothers, hheld, hwaits, -⟩ := xLock_cases h.locks (hok.1 _ hcall) hlock
      refine h.relock hothers hlocks hfresh hwaits ?_ ?_ ?_ ?_ ?_
      · rw [hpc]
        cases k' <;> exact Iff.rfl
      · rw [hpc]
        cases k' <;> exact Iff.rfl
      · rw [hpc]
        cases k' with
        | rollback => exact fun _ => Or.inl trivial
        | recover fin => exact fun _ => Or.inr trivial
      · intro _ blk' hx
        rw [hheld]
        exact hx
      · refine ⟨e, t', rest, hrecord, hscan', h.pending_locks ?_ hpending (relocks_of_held hheld)⟩
        intro hk
        rw [hpc, hk]
        trivial

/-- A loop begins, with an iterator at the end of the log. -/
theorem Inv.startScan (h : Inv B pages s) {k : Scan} (hfresh : s.pc t ≠ .fresh)
    (hidle : (s.locks.mgrs t).pc = .idle)
    (hactive : ∀ it, active (.scanning k it) ↔ active (s.pc t))
    (hrec : ∀ it, recovering (.scanning k it) ↔ recovering (s.pc t))
    (hmod : ∀ it, modifies (.scanning k it))
    (hpending : Pending pages s t k (toUndo t k s.entries))
    (hstep : s.startScan B t k = some s') : Inv B pages s' := by
  unfold Db.startScan at hstep
  obtain ⟨lm, it, hit, hlog, hlatest, hext, hsaved, hscan⟩ := h.log.iterator
  obtain ⟨⟨log, it'⟩, hit', hok⟩ := Option.bind_eq_some_iff.mp hstep
  rw [toOption_eq_some, hit] at hit'
  cases hit'
  cases hok
  have hinv := h.saveLog hlog hlatest hext (by omega)
  exact hinv.relock (fun _ _ => rfl) h.locks hfresh hidle (hactive it) (hrec it) (fun _ => hmod it)
    (fun _ _ hx => hx)
    ⟨s.entries, hscan, hpending.losers, hpending.byTx, hpending.restores⟩

theorem Inv.rollback (h : Inv B pages s) (hstep : s.step B (.rollback t) = some s') :
    Inv B pages s' := by
  have htx := h.txs t
  unfold Db.step at hstep
  cases hpc : s.pc t <;> simp only [hpc, reduceCtorEq] at hstep
  have hactive : active (s.pc t) := by
    rw [hpc]
    trivial
  have hlockAt := htx.lockAt
  rw [hpc] at hlockAt
  have hown := htx.owned hactive
  have hrec := h.recovered hactive
  refine h.startScan (ne_fresh_of_active hactive) hlockAt ?_ ?_ ?_ ?_ hstep
  · exact fun _ => ⟨fun _ => hactive, fun _ => trivial⟩
  · exact fun _ => ⟨fun hfalse => hfalse.elim, fun hfalse =>
      not_recovering_of_active hactive hfalse⟩
  · exact fun _ => Or.inl trivial
  · constructor
    · intro e he
      rw [toUndo, hown] at he
      exact (List.mem_filter.mp he).1
    · intro _ e he
      rw [toUndo, hown] at he
      exact (List.mem_filter.mp he).2
    · intro blk hx
      rw [toUndo, hown, undosOn_filter blk _ _ (h.loser_byTx hrec (hx rfl))]
      exact h.data.undoes_view blk

theorem Inv.recover (h : Inv B pages s) (hstep : s.step B (.recover t) = some s') :
    Inv B pages s' := by
  have htx := h.txs t
  unfold Db.step at hstep
  cases hpc : s.pc t <;> simp only [hpc, reduceCtorEq] at hstep
  have hlockAt := htx.lockAt
  rw [hpc] at hlockAt
  have hrec : recovering (s.pc t) := by
    rw [hpc]
    trivial
  refine h.startScan (ne_fresh_of_recovering hrec) hlockAt ?_ ?_ ?_ ?_ hstep
  · rw [hpc]
    exact fun _ => Iff.rfl
  · exact fun _ => ⟨fun _ => hrec, fun _ => trivial⟩
  · exact fun _ => Or.inr trivial
  · exact ⟨fun e he => he, fun hk => (by cases hk), fun blk _ => h.data.undoes_view blk⟩

theorem Inv.sync (h : Inv B pages s) (hok : Proceeds B s (.sync t))
    (hstep : s.step B (.sync t) = some s') : Inv B pages s' := by
  have hdata := (h.txs t).data
  unfold Db.step at hstep
  cases hpc : s.pc t <;> simp only [hpc, reduceCtorEq] at hstep
  rename_i e lsn
  obtain ⟨locks, hlock, hnext⟩ := Option.bind_eq_some_iff.mp hstep
  cases hnext
  rw [hpc] at hdata
  obtain ⟨hlog, hlatest, hext, hcases⟩ := h.log.flush lsn
  obtain ⟨hlocks, hothers, hheld, hreleasing⟩ := release_cases h.locks (hok.1 _ rfl) hlock
  have hle : unsaved (s.log.flush lsn) ≤ unsaved s.log := by
    rcases hcases with hzero | ⟨hsame, -⟩
    · omega
    · omega
  have hinv := h.saveLog hlog hlatest hext hle
  refine hinv.relock hothers hlocks ?_ hreleasing ?_ ?_ ?_ ?_ ?_
  · show s.pc t ≠ .fresh
    rw [hpc]
    exact fun heq => by cases heq
  · show _ ↔ active (s.pc t)
    rw [hpc]
    exact Iff.rfl
  · show _ ↔ recovering (s.pc t)
    rw [hpc]
    cases e <;> exact Iff.rfl
  · show modifies (s.pc t) → _
    rw [hpc]
    exact fun hmod => hmod.elim
  · show modifies (s.pc t) → _
    rw [hpc]
    exact fun hmod => hmod.elim
  · cases e with
    | commit => trivial
    | rollback => trivial
    | checkpoint =>
      obtain ⟨hlosers, hlsn⟩ := hdata
      refine ⟨hlosers, ?_⟩
      rcases hcases with hzero | ⟨-, hlt⟩
      · exact hzero
      · omega

end Loops

section Updates

/-- An update or an undo on a block that the transaction has locked exclusively. -/
theorem Inv.modify (h : Inv B pages s) {log : LogMgr} {entries : List Entry} {blk : BlockId}
    {buf : Buffer Page} {pc : Pc} (hx : (s.locks.mgrs t).held blk = some .X)
    (hfresh : s.pc t ≠ .fresh) (hactive : active pc ↔ active (s.pc t))
    (hrec : recovering pc ↔ recovering (s.pc t)) (hmod : modifies pc)
    (hlockAt : LockAt pc (s.locks.mgrs t))
    (hlog : LogOk B log entries) (hlsn : 0 ≤ log.latestLsn) (hext : Extends B s.log log)
    (hdata : PagesInv B.bytes pages entries (unsaved log) log.latestLsn s.disk
      (Function.update s.pool blk (some buf)))
    (htxnum : buf.txnum = t.toInt)
    (hothers : ∀ t' ≠ t, own t' entries = own t' s.entries ∧
      (losers [] entries).filter (byTx t') = (losers [] s.entries).filter (byTx t'))
    (hcommitted : committedPages pages entries = committedPages pages s.entries)
    (hlosers : ∀ e ∈ losers [] entries, e ∈ losers [] s.entries ∨
      ∃ offset old, e.logRec = .setInt t blk offset old ∧ active pc)
    (hnew : s.recovered = false → losers [] entries = losers [] s.entries)
    (hown : active pc → own t entries = (losers [] entries).filter (byTx t))
    (hunowned : recovering pc → own t entries = [])
    (hat : DataAt B pages (({ s with log := log, entries := entries }.setBuffer blk
      (some buf)).setPc t pc) t pc) :
    Inv B pages (({ s with log := log, entries := entries }.setBuffer blk (some buf)).setPc t
      pc) := by
  have hself := setPc_self ({ s with log := log, entries := entries }.setBuffer blk (some buf)) t pc
  have hother := fun t' (hne : t' ≠ t) =>
    setPc_other ({ s with log := log, entries := entries }.setBuffer blk (some buf)) pc hne
  constructor
  · exact hlog
  · exact hlsn
  · exact hdata
  · exact h.locks
  · intro t'
    by_cases heq : t' = t
    · rw [heq]
      constructor
      · rw [hself]
        exact hlockAt
      · rw [hself]
        exact hown
      · rw [hself]
        exact hunowned
      · rw [hself]
        exact hat
      · rw [hself]
        exact fun _ => hrec.trans ((h.txs t).phase hfresh)
      · exact fun _ => (h.txs t).number hfresh
    · refine (h.txs t').keep ⟨hother t' heq, rfl, Int.le_refl _, hext, fun _ => rfl, ?_, ?_⟩
      · intro _
        refine ⟨(hothers t' heq).1, (hothers t' heq).2, ?_⟩
        intro blk' hx'
        have hne : blk' ≠ blk := by
          intro hblk
          rw [hblk, held_exclusive h.locks hx heq] at hx'
          cases hx'
        exact ⟨view_update_ne hne _, congrFun hcommitted blk'⟩
      · exact fun hrec' => absurd hrec' (h.not_recovering hfresh heq)
  · intro hrecovered e he t' blk' offset old hrecord
    rcases hlosers e he with hold | ⟨offset', old', hrecord', hpc⟩
    · obtain ⟨hactive', hx'⟩ := h.locked hrecovered e hold t' blk' offset old hrecord
      by_cases heq : t' = t
      · rw [heq] at hactive' hx' ⊢
        rw [hself]
        exact ⟨hactive.mpr hactive', hx'⟩
      · rw [hother t' heq]
        exact ⟨hactive', hx'⟩
    · rw [hrecord] at hrecord'
      cases hrecord'
      rw [hself]
      exact ⟨hpc, hx⟩
  · intro blk' buf' hbuf' htx'
    by_cases hblk : blk' = blk
    · have hsame : Function.update s.pool blk (some buf) blk' = some buf' := hbuf'
      rw [hblk, Function.update_self] at hsame
      cases hsame
      refine ⟨t, htxnum, ?_, ?_⟩
      · rw [hblk]
        exact hx
      · rw [hself]
        exact hmod
    · have hsame : Function.update s.pool blk (some buf) blk' = some buf' := hbuf'
      rw [Function.update_of_ne hblk] at hsame
      obtain ⟨t', hnum, hx', hmod'⟩ := h.modified blk' buf' hsame htx'
      refine ⟨t', hnum, hx', ?_⟩
      by_cases heq : t' = t
      · rw [heq, hself]
        exact hmod
      · rw [hother t' heq]
        exact hmod'
  · exact h.next
  · exact h.first
  · exact fun hisNew hrecovered => (hnew hrecovered).trans (h.new hisNew hrecovered)

/-- The manager of a transaction that has its lock. -/
theorem waits_idle {blk : BlockId} {mgr : ConcurrencyMgr} (h : Waits blk mgr)
    (hidle : mgr.pc = .idle) : mgr.held blk = some .X := by
  rcases h with hwait | hwait | ⟨-, hx⟩
  · rw [hidle] at hwait
    cases hwait
  · rw [hidle] at hwait
    cases hwait
  · exact hx

theorem Inv.undo (h : Inv B pages s) (hstep : s.step B (.undo t) = some s') : Inv B pages s' := by
  have hdata := (h.txs t).data
  have hlockAt := (h.txs t).lockAt
  unfold Db.step Db.undo at hstep
  cases hpc : s.pc t <;> cases hidle : (s.locks.mgrs t).pc <;>
    simp only [hpc, hidle, reduceCtorEq] at hstep
  rename_i k blk offset val it
  obtain ⟨buf, hbuf, hnext⟩ := Option.bind_eq_some_iff.mp hstep
  obtain ⟨page, hset, hok⟩ := Option.bind_eq_some_iff.mp hnext
  cases hok
  rw [toOption_eq_some] at hset
  rw [hpc] at hdata hlockAt
  obtain ⟨e, t', rest, hrecord, hscan, hpending⟩ := hdata
  have hx := waits_idle hlockAt hidle
  have hfresh : s.pc t ≠ .fresh := by
    rw [hpc]
    exact fun heq => by cases heq
  have hnum := (h.txs t).number hfresh
  have hmem := hpending.losers e List.mem_cons_self
  have hmodifies : modifies (.scanning k it) := by
    cases k with
    | rollback => exact Or.inl trivial
    | recover fin => exact Or.inr trivial
  have hkind : (active (.scanning k it) ↔ active (s.pc t)) ∧
      (recovering (.scanning k it) ↔ recovering (s.pc t)) := by
    rw [hpc]
    cases k <;> exact ⟨Iff.rfl, Iff.rfl⟩
  show Inv B pages (({ s with log := s.log, entries := s.entries }.setBuffer blk
    (some ({ buf with contents := page }.setModified t.toInt (-1)))).setPc t (.scanning k it))
  refine h.modify hx hfresh hkind.1 hkind.2 hmodifies hidle
    h.log h.lsn (Extends.refl B s.log) (h.data.undo hmem hrecord hbuf hset (by omega)) rfl
    (fun _ _ => ⟨rfl, rfl⟩) rfl (fun e he => Or.inl he) (fun _ => rfl)
    (fun hactive => (h.txs t).owned (hkind.1.mp hactive))
    (fun hrec => (h.txs t).unowned (hkind.2.mp hrec)) ?_
  refine ⟨rest, hscan, ?_⟩
  constructor
  · exact fun e' he' => hpending.losers e' (List.mem_cons_of_mem e he')
  · exact fun hk e' he' => hpending.byTx hk e' (List.mem_cons_of_mem e he')
  · intro blk' hscope
    have hold := hpending.restores blk' hscope
    by_cases heq : blk' = blk
    · have hpage : pageOf s blk = buf.contents := view_some hbuf
      rw [heq, undosOn_cons_some (undoOn_setInt hrecord), applyAll_cons, hpage] at hold
      rw [heq]
      refine Eq.trans ?_ hold
      congr 1
      refine (view_update_self _).trans ?_
      obtain ⟨-, -, hsplice⟩ := Page.setInt_eq_ok _ _ _ _ offset.toInt_lt hset
      exact hsplice
    · rw [undosOn_cons_none (undoOn_ne hrecord heq)] at hold
      refine Eq.trans ?_ hold
      congr 1
      exact view_update_ne heq _

theorem losers_setInt {e : Entry} {t : Int32} {blk : BlockId} {offset old : Int32}
    (h : e.logRec = .setInt t blk offset old) (log : List Entry) :
    losers [] (e :: log) = e :: losers [] log := by
  rw [losers, h]
  rfl

theorem Inv.write (h : Inv B pages s) (hstep : s.step B (.write t) = some s') :
    Inv B pages s' := by
  have hdata := (h.txs t).data
  have hlockAt := (h.txs t).lockAt
  unfold Db.step Db.write at hstep
  cases hpc : s.pc t <;> cases hidle : (s.locks.mgrs t).pc <;>
    simp only [hpc, hidle, reduceCtorEq] at hstep
  rename_i blk offset val
  rw [hpc] at hdata hlockAt
  obtain ⟨hforward, hfits⟩ := hdata
  have hx := waits_idle hlockAt hidle
  have hactive : active (s.pc t) := by
    rw [hpc]
    trivial
  have hfresh := ne_fresh_of_active hactive
  have hnum := (h.txs t).number hfresh
  obtain ⟨buf, hbuf, hstep⟩ := Option.bind_eq_some_iff.mp hstep
  obtain ⟨old, hget, hstep⟩ := Option.bind_eq_some_iff.mp hstep
  obtain ⟨⟨s₁, lsn⟩, happend, hstep⟩ := Option.bind_eq_some_iff.mp hstep
  obtain ⟨page, hset, hok⟩ := Option.bind_eq_some_iff.mp hstep
  cases hok
  rw [toOption_eq_some] at hget hset
  have hrecord : (⟨.setInt t blk offset old, val⟩ : Entry).logRec = .setInt t blk offset old := rfl
  obtain ⟨bytes, lm, hwrite, hlm, hlatest, hext, hlog, hle⟩ :=
    h.log.append (e := ⟨.setInt t blk offset old, val⟩) hfits
  unfold Db.append at happend
  simp only [hwrite, hlm, Except.toOption, Option.bind_eq_bind, Option.bind_some, Option.some.injEq,
    Prod.mk.injEq] at happend
  obtain ⟨rfl, rfl⟩ := happend
  have htxnum : 0 ≤ t.toInt := by omega
  have hdata' := h.data.write hrecord hbuf hget hset htxnum h.lsn hle
  have hlosers := losers_setInt hrecord s.entries
  have hcommitted : committedPages pages (⟨.setInt t blk offset old, val⟩ :: s.entries) =
      committedPages pages s.entries :=
    committedPages_other (fun t' heq => by cases heq) s.entries
  have hby : byTx t ⟨.setInt t blk offset old, val⟩ = true := decide_eq_true rfl
  refine h.modify hx hfresh ?_ ?_
    (Or.inl trivial) hidle hlog ?_ hext ?_ rfl ?_ hcommitted ?_ ?_ ?_ ?_ ?_
  · exact ⟨fun _ => hactive, fun _ => trivial⟩
  · exact ⟨fun hfalse => hfalse.elim, fun hrec => not_recovering_of_active hactive hrec⟩
  · have hlsn := h.lsn
    omega
  · rw [hlatest]
    exact hdata'
  · intro t' hne
    have hby' : byTx t' ⟨.setInt t blk offset old, val⟩ = false :=
      decide_eq_false (fun heq => hne (Option.some.inj heq).symm)
    constructor
    · apply own_cons_other
      · intro blk' offset' old' heq
        cases heq
        exact hne rfl
      · exact fun heq => by cases heq
    · rw [hlosers, List.filter_cons_of_neg (by rw [hby']; decide)]
  · intro e he
    rw [hlosers] at he
    rcases List.mem_cons.mp he with rfl | he
    · exact Or.inr ⟨offset, old, rfl, trivial⟩
    · exact Or.inl he
  · intro hrec
    have hrecovered := h.recovered hactive
    rw [hrec] at hrecovered
    cases hrecovered
  · intro _
    rw [own_setInt hrecord, hlosers, List.filter_cons_of_pos hby, (h.txs t).owned hactive]
  · exact fun hfalse => hfalse.elim
  · intro blk' hx'
    show _ = redoAll (own t (⟨.setInt t blk offset old, val⟩ :: s.entries))
      (committedPages pages (⟨.setInt t blk offset old, val⟩ :: s.entries)) blk'
    rw [own_setInt hrecord, hcommitted]
    have hold := hforward blk' hx'
    by_cases heq : blk' = blk
    · rw [heq] at hold ⊢
      have hpage : pageOf s blk = buf.contents := view_some hbuf
      refine (view_update_self _).trans ?_
      rw [redoAll_cons]
      unfold Entry.redo
      dsimp only
      rw [Function.update_self, ← hold, hpage, hset]
      rfl
    · rw [redoAll_cons, redo_ne (undoOn_ne hrecord heq)]
      exact (view_update_ne heq _).trans hold

end Updates

section Ends

theorem logRec_fits (hB : 16 ≤ B.bytes) (t : Int32) (e : End) : FitsBlock B (e.logRec t) := by
  cases e <;> exact hB

theorem end_not_setInt (t : Int32) (e : End) (t' : Int32) (blk : BlockId) (offset old : Int32) :
    e.logRec t ≠ .setInt t' blk offset old := by
  cases e <;> exact fun heq => by cases heq

theorem filter_byTx_other {t' : Int32} (hne : t' ≠ t) (es : List Entry) :
    (es.filter (fun e => !byTx t e)).filter (byTx t') = es.filter (byTx t') := by
  rw [List.filter_filter]
  apply List.filter_congr
  intro e _
  by_cases hby : byTx t' e = true
  · have hnot : byTx t e = false := by
      unfold byTx at hby ⊢
      rw [of_decide_eq_true hby]
      exact decide_eq_false (fun hsame => hne (Option.some.inj hsame))
    rw [hby, hnot]
    rfl
  · rw [Bool.not_eq_true] at hby
    rw [hby, Bool.false_and]

/-- The end of a transaction commits nothing of a page that another one has locked. -/
theorem Inv.committedPages_end (h : Inv B pages s) {e : End} (hpc : s.pc t = .flushing e)
    (hrec : s.recovered = true) {t' : Int32} (hne : t' ≠ t) {blk : BlockId}
    (hx : (s.locks.mgrs t').held blk = some .X) :
    committedPages pages (⟨e.logRec t, 0⟩ :: s.entries) blk =
      committedPages pages s.entries blk := by
  cases e with
  | commit =>
    show committedPages pages (⟨.commit t, 0⟩ :: s.entries) blk = _
    rw [committedPages_commit rfl, redoAll_ne]
    intro e' he'
    rw [(h.txs t).owned (by rw [hpc]; trivial)] at he'
    obtain ⟨hmem, hby⟩ := List.mem_filter.mp he'
    refine h.loser_none hrec ?_ e' hmem hby
    rw [held_exclusive h.locks hx (Ne.symm hne)]
    exact fun hnone => by cases hnone
  | rollback => exact congrFun (committedPages_other (fun _ hc => by cases hc) _) blk
  | checkpoint => exact congrFun (committedPages_other (fun _ hc => by cases hc) _) blk

/-- The record at the end of a call is in the log. -/
theorem Inv.appended (h : Inv B pages s) {e : End} {lm : LogMgr} (hpc : s.pc t = .flushing e)
    (hflushed : s.Flushed t) (hlog : LogOk B lm (⟨e.logRec t, 0⟩ :: s.entries))
    (hlatest : lm.latestLsn = s.log.latestLsn + 1) (hext : Extends B s.log lm)
    (hle : unsaved lm ≤ unsaved s.log + 1)
    (hdisk : ∀ blk, Undoes pages (⟨e.logRec t, 0⟩ :: s.entries) blk (s.disk blk))
    (hview : ∀ blk, Undoes pages (⟨e.logRec t, 0⟩ :: s.entries) blk (pageOf s blk)) :
    Inv B pages ({ s with log := lm, entries := ⟨e.logRec t, 0⟩ :: s.entries }.setPc t
      (.appended e (s.log.latestLsn + 1))) := by
  have hself := setPc_self { s with log := lm, entries := ⟨e.logRec t, 0⟩ :: s.entries } t
    (.appended e (s.log.latestLsn + 1))
  have hother := fun t' (hne : t' ≠ t) => setPc_other
    { s with log := lm, entries := ⟨e.logRec t, 0⟩ :: s.entries }
    (.appended e (s.log.latestLsn + 1)) hne
  have hfresh : s.pc t ≠ .fresh := by
    rw [hpc]
    exact fun heq => by cases heq
  have hphase := (h.txs t).phase hfresh
  have hlockAt := (h.txs t).lockAt
  rw [hpc] at hphase hlockAt
  have hcheckpoint : s.recovered = false → e = .checkpoint := by
    intro hrec
    cases e with
    | checkpoint => rfl
    | _ => exact (hphase.mpr hrec).elim
  have hended : s.recovered = true → losers [] (⟨e.logRec t, 0⟩ :: s.entries) =
      (losers [] s.entries).filter (fun e => !byTx t e) := by
    intro hrec
    cases e with
    | checkpoint => exact absurd (hrec.symm.trans (hphase.mp trivial)) (by decide)
    | commit => exact losers_ended t s.entries
    | rollback => exact losers_ended t s.entries
  have hown : ∀ t', own t' (⟨e.logRec t, 0⟩ :: s.entries) = own t' s.entries := by
    intro t'
    apply own_cons_other
    · exact fun blk offset old => end_not_setInt t e t' blk offset old
    · cases e <;> exact fun heq => by cases heq
  have hdata := h.data.append (e := ⟨e.logRec t, 0⟩) (end_not_setInt t e) hdisk hview hle
  constructor
  · exact hlog
  · show 0 ≤ lm.latestLsn
    have hlsn := h.lsn
    omega
  · show PagesInv _ _ _ _ lm.latestLsn _ _
    rw [hlatest]
    exact hdata
  · exact h.locks
  · intro t'
    by_cases heq : t' = t
    · rw [heq]
      constructor
      · rw [hself]
        exact hlockAt
      · rw [hself]
        exact fun hactive => hactive.elim
      · rw [hself]
        intro hrec
        refine (hown t).trans ((h.txs t).unowned ?_)
        rw [hpc]
        cases e with
        | checkpoint => trivial
        | _ => exact hrec.elim
      · rw [hself]
        cases e with
        | checkpoint => exact ⟨losers_checkpoint rfl [] s.entries, hlatest.symm⟩
        | _ => trivial
      · rw [hself]
        exact fun _ => Iff.trans (by cases e <;> exact Iff.rfl) hphase
      · exact fun _ => (h.txs t).number hfresh
    · refine (h.txs t').keep ⟨hother t' heq, rfl, Int.le_refl _, hext, fun _ => rfl, ?_, ?_⟩
      · intro hactive
        have hrec := h.recovered hactive
        refine ⟨hown t', ?_, ?_⟩
        · show (losers [] (⟨e.logRec t, 0⟩ :: s.entries)).filter (byTx t') = _
          rw [hended hrec]
          exact filter_byTx_other heq _
        · intro blk hx
          exact ⟨rfl, h.committedPages_end hpc hrec heq hx⟩
      · exact fun hrec => absurd hrec (h.not_recovering hfresh heq)
  · intro hrec e' he' t' blk offset old hrecord
    have hmem : e' ∈ losers [] (⟨e.logRec t, 0⟩ :: s.entries) := he'
    rw [hended hrec] at hmem
    obtain ⟨hold, hby⟩ := List.mem_filter.mp hmem
    obtain ⟨hactive, hx⟩ := h.locked hrec e' hold t' blk offset old hrecord
    have hne : t' ≠ t := by
      intro heq
      unfold byTx at hby
      rw [hrecord, heq] at hby
      simp [LogRecord.txNumber] at hby
    rw [hother t' hne]
    exact ⟨hactive, hx⟩
  · intro blk buf hbuf htx
    obtain ⟨t', hnum, hx, hmod⟩ := h.modified blk buf hbuf htx
    have hne : t' ≠ t := by
      intro heq
      rw [heq] at hnum
      exact hflushed blk buf hbuf hnum
    refine ⟨t', hnum, hx, ?_⟩
    rw [hother t' hne]
    exact hmod
  · exact h.next
  · exact h.first
  · intro _ hrec
    rw [hcheckpoint hrec]
    exact losers_checkpoint rfl [] s.entries

theorem Inv.append (h : Inv B pages s) (hB : 16 ≤ B.bytes)
    (hstep : s.Step B (.append t) s') : Inv B pages s' := by
  obtain ⟨hstep, hguard⟩ := hstep
  have hflushed := hguard t (Or.inl rfl)
  have hdata := (h.txs t).data
  unfold Db.step at hstep
  cases hpc : s.pc t <;> simp only [hpc, reduceCtorEq] at hstep
  rename_i e
  rw [hpc] at hdata
  obtain ⟨⟨s₁, lsn⟩, happend, hok⟩ := Option.bind_eq_some_iff.mp hstep
  cases hok
  obtain ⟨bytes, lm, hwrite, hlm, hlatest, hext, hlog, hle⟩ :=
    h.log.append (e := ⟨e.logRec t, 0⟩) (logRec_fits hB t e)
  unfold Db.append at happend
  simp only [hwrite, hlm, Except.toOption, Option.bind_eq_bind, Option.bind_some, Option.some.injEq,
    Prod.mk.injEq] at happend
  obtain ⟨rfl, rfl⟩ := happend
  have hfresh : s.pc t ≠ .fresh := by
    rw [hpc]
    exact fun heq => by cases heq
  -- what the pages of the call hold, in the buffers and, as they are flushed, on disk
  have hends : ∀ after : BlockId → Page, active (.flushing e) →
      (∀ blk, (s.locks.mgrs t).held blk = some .X → pageOf s blk = after blk) → ∀ blk,
      EndsOn t s.entries blk (pageOf s blk) (after blk) ∧
        EndsOn t s.entries blk (s.disk blk) (after blk) := by
    intro after hactive hafter blk
    rw [← hpc] at hactive
    have hrec := h.recovered hactive
    by_cases hx : (s.locks.mgrs t).held blk = some .X
    · have hpage : pageOf s blk = s.disk blk := by
        refine h.pageOf_flushed hflushed ?_
        intro t' hx' _
        by_contra hne
        rw [held_exclusive h.locks hx hne] at hx'
        cases hx'
      have hloser := h.loser_byTx hrec hx
      exact ⟨Or.inr ⟨hloser, hafter blk hx⟩, Or.inr ⟨hloser, hpage.symm.trans (hafter blk hx)⟩⟩
    · have hloser := h.loser_none hrec hx
      exact ⟨Or.inl hloser, Or.inl hloser⟩
  cases e with
  | commit =>
    have hends := hends _ trivial hdata
    have hown := (h.txs t).owned (by rw [hpc]; trivial)
    exact h.appended hpc hflushed hlog hlatest hext hle
      (fun blk => undoes_commit rfl hown (hends blk).2 (h.data.undoes_disk blk))
      (fun blk => undoes_commit rfl hown (hends blk).1 (h.data.undoes_view blk))
  | rollback =>
    have hends := hends (committedPages pages s.entries) trivial
      (fun blk hx => hdata.restores blk (fun _ => hx))
    exact h.appended hpc hflushed hlog hlatest hext hle
      (fun blk => undoes_rollback rfl (hends blk).2 (h.data.undoes_disk blk))
      (fun blk => undoes_rollback rfl (hends blk).1 (h.data.undoes_view blk))
  | checkpoint =>
    have hpage : ∀ blk, pageOf s blk = committedPages pages s.entries blk :=
      fun blk => hdata.restores blk (fun hk => by cases hk)
    have hphase := ((h.txs t).phase hfresh).mp (by rw [hpc]; trivial)
    have hdisk : ∀ blk, s.disk blk = committedPages pages s.entries blk := by
      intro blk
      rw [← hpage blk]
      refine (h.pageOf_flushed hflushed ?_).symm
      intro t' _ hmod
      apply h.alone hphase hfresh
      intro heq
      rw [heq] at hmod
      exact hmod.elim id id
    exact h.appended hpc hflushed hlog hlatest hext hle
      (fun blk => undoes_checkpoint rfl (hdisk blk))
      (fun blk => undoes_checkpoint rfl (hpage blk))

end Ends

section Sessions

/-- The session before its first transaction. -/
theorem inv_session (hlog : LogOk B s.log s.entries) (hlsn : s.log.latestLsn = 0)
    (hdata : PagesInv B.bytes pages s.entries (unsaved s.log) s.log.latestLsn s.disk s.pool)
    (hlocks : s.locks = .new) (hpool : ∀ blk, s.pool blk = none) (hpc : ∀ t, s.pc t = .fresh)
    (hnext : s.nextTxNum = 0) (hrec : s.recovered = false)
    (hnew : s.isNew = true → losers [] s.entries = []) : Inv B pages s where
  log := hlog
  lsn := by omega
  data := hdata
  locks := by
    rw [hlocks]
    exact LockSafety.inv_new
  txs := by
    intro t
    constructor
    · rw [hpc, hlocks]
      exact ⟨rfl, fun _ => rfl⟩
    · rw [hpc]
      exact fun hactive => hactive.elim
    · rw [hpc]
      exact fun hrec => hrec.elim
    · rw [hpc]
      trivial
    · exact fun hfresh => absurd (hpc t) hfresh
    · exact fun hfresh => absurd (hpc t) hfresh
  locked := by
    rw [hrec]
    exact fun heq => by cases heq
  modified := by
    intro blk buf hbuf
    rw [hpool blk] at hbuf
    cases hbuf
  next := by
    rw [hnext]
    decide
  first := by
    rw [hnext]
    exact fun _ => by decide
  new := fun hisNew _ => hnew hisNew

theorem Inv.crash (h : Inv B pages s) (hstep : s.step B .crash = some s') : Inv B pages s' := by
  unfold Db.step Db.crash at hstep
  obtain ⟨lm, hnew, hlatest, hsaved, hlog⟩ := h.log.crash
  rw [hnew] at hstep
  simp only [Except.toOption, Option.map_some, Option.some.injEq] at hstep
  subst hstep
  refine inv_session hlog hlatest ?_ rfl (fun _ => rfl) (fun _ => rfl) rfl rfl
    (fun hisNew => by cases hisNew)
  show PagesInv _ _ _ (unsaved lm) _ _ _
  rw [hsaved]
  exact h.data.crash lm.latestLsn

theorem inv_new (hpages : ∀ blk, (pages blk).length = B.bytes) (hnew : Db.new B pages = some s) :
    Inv B pages s := by
  unfold Db.new at hnew
  obtain ⟨lm, hlm, hlog, hlatest, hsaved⟩ := logOk_new B
  rw [hlm] at hnew
  simp only [Except.toOption, Option.map_some, Option.some.injEq] at hnew
  subst hnew
  refine inv_session hlog hlatest ?_ rfl (fun _ => rfl) (fun _ => rfl) rfl rfl (fun _ => rfl)
  show PagesInv _ _ _ (unsaved lm) _ _ _
  rw [hsaved]
  constructor
  · exact hpages
  · intro e he
    cases he
  · intro k _ blk
    rw [List.drop_nil]
    rfl
  · intro k _ blk _
    rw [List.drop_nil]
    rfl
  · intro blk buf hbuf
    cases hbuf
  · intro k hk
    omega

theorem succ_toInt {n : Int32} (h : n.toInt ≠ 2147483647) : (n + 1).toInt = n.toInt + 1 := by
  have hlt := n.toInt_lt
  have hle := n.le_toInt
  rw [Int32.toInt_add]
  exact Int.bmod_eq_of_le (by simp; omega) (by simp; omega)

section Started

variable {lm : LogMgr}

/-- The state in which the next transaction has written its START record. -/
def started (s : Db) (t : Int32) (lm : LogMgr) : Db :=
  Db.setPc
    { s with
      log := lm
      entries := ⟨.start t, 0⟩ :: s.entries
      nextTxNum := t
      recovered := s.recovered || s.isNew } t
    (if s.recovered || s.isNew then .ready else .starting)

theorem started_self (s : Db) (t : Int32) (lm : LogMgr) :
    (started s t lm).pc t = if s.recovered || s.isNew then .ready else .starting :=
  Function.update_self _ _ _

theorem started_other (s : Db) (lm : LogMgr) {t' : Int32} (hne : t' ≠ t) :
    (started s t lm).pc t' = s.pc t' :=
  Function.update_of_ne hne _ s.pc

theorem started_losers (s : Db) (t : Int32) (lm : LogMgr) :
    losers [] (started s t lm).entries = losers [] s.entries :=
  losers_start rfl [] s.entries

theorem Inv.fresh_next (h : Inv B pages s) (ht : t.toInt = s.nextTxNum.toInt + 1) :
    s.pc t = .fresh := by
  by_contra hne
  have hnum := (h.txs t).number hne
  omega

/-- Nothing has begun in a session that is not recovered. -/
theorem Inv.all_fresh (h : Inv B pages s) (hfirst : s.nextTxNum = 0 ∨ s.recovered = true)
    (hrec : s.recovered = false) (t' : Int32) : s.pc t' = .fresh := by
  by_contra hne
  have hnum := (h.txs t').number hne
  rcases hfirst with hzero | hrec'
  · rw [hzero] at hnum
    have h1 : (0 : Int32).toInt = 0 := rfl
    omega
  · rw [hrec] at hrec'
    cases hrec'

/-- A new transaction has nothing to undo, unless it will recover first. -/
theorem Inv.fresh_losers (h : Inv B pages s) (hfresh : s.pc t = .fresh)
    (hready : (s.recovered || s.isNew) = true) : (losers [] s.entries).filter (byTx t) = [] := by
  cases hrec : s.recovered with
  | true =>
    rw [List.filter_eq_nil_iff]
    intro e he hby
    obtain ⟨-, t', blk, offset, old, hrecord, -⟩ := mem_losers_setInt he
    unfold byTx at hby
    rw [hrecord] at hby
    cases of_decide_eq_true hby
    have hlocked := (h.locked hrec e he t blk offset old hrecord).1
    rw [hfresh] at hlocked
    exact hlocked
  | false =>
    rw [hrec, Bool.false_or] at hready
    rw [h.new hready hrec]
    rfl

/-- The transaction that begins. -/
theorem Inv.started_tx (h : Inv B pages s) (ht : t.toInt = s.nextTxNum.toInt + 1) :
    TxInv B pages (started s t lm) t := by
  have hfresh := h.fresh_next ht
  have hlockAt := (h.txs t).lockAt
  rw [hfresh] at hlockAt
  obtain ⟨hidle, hnone⟩ := hlockAt
  have hown : own t (started s t lm).entries = [] := own_start rfl s.entries
  constructor
  · rw [started_self]
    split <;> exact hidle
  · rw [started_self, hown, started_losers]
    intro hactive
    cases hready : s.recovered || s.isNew with
    | true => exact (h.fresh_losers hfresh hready).symm
    | false =>
      rw [hready] at hactive
      exact hactive.elim
  · exact fun _ => hown
  · rw [started_self]
    split
    · intro blk hx
      exact absurd (hx.symm.trans (hnone blk)) (fun hc => by cases hc)
    · trivial
  · rw [started_self]
    intro _
    show _ ↔ (s.recovered || s.isNew) = false
    cases s.recovered || s.isNew
    · exact ⟨fun _ => rfl, fun _ => trivial⟩
    · exact ⟨fun hfalse => hfalse.elim, fun hfalse => by cases hfalse⟩
  · intro _
    show 0 < t.toInt ∧ t.toInt ≤ t.toInt
    have hnext := h.next
    omega

/-- Another transaction. -/
theorem Inv.started_keeps (h : Inv B pages s) (ht : t.toInt = s.nextTxNum.toInt + 1)
    (hfirst : s.nextTxNum = 0 ∨ s.recovered = true) (hext : Extends B s.log lm) {t' : Int32}
    (hne : t' ≠ t) : TxInv B pages (started s t lm) t' := by
  refine (h.txs t').keep ⟨started_other s lm hne, rfl, ?_, hext, ?_, ?_, ?_⟩
  · show s.nextTxNum.toInt ≤ t.toInt
    omega
  · intro hbegun
    show (s.recovered || s.isNew) = s.recovered
    cases hrec : s.recovered with
    | true => rfl
    | false => exact absurd (h.all_fresh hfirst hrec t') hbegun
  · intro _
    refine ⟨own_cons_other (fun _ _ _ hc => by cases hc) ?_ s.entries,
      congrArg (List.filter (byTx t')) (started_losers s t lm), fun blk _ => ⟨rfl, ?_⟩⟩
    · intro hc
      cases hc
      exact hne rfl
    · exact congrFun (committedPages_other (fun _ hc => by cases hc) _) blk
  · intro hrec
    have hrecovered := ((h.txs t').phase (ne_fresh_of_recovering hrec)).mp hrec
    rw [h.all_fresh hfirst hrecovered t'] at hrec
    exact hrec.elim

theorem Inv.started_locked (h : Inv B pages s) (ht : t.toInt = s.nextTxNum.toInt + 1)
    (hready : (s.recovered || s.isNew) = true) : LosersLocked (started s t lm) := by
  intro e he t' blk offset old hrecord
  rw [started_losers] at he
  cases hrecovered : s.recovered with
  | false =>
    rw [hrecovered, Bool.false_or] at hready
    rw [h.new hready hrecovered] at he
    cases he
  | true =>
    obtain ⟨hactive, hx⟩ := h.locked hrecovered e he t' blk offset old hrecord
    have hne : t' ≠ t := by
      intro heq
      rw [heq, h.fresh_next ht] at hactive
      exact hactive
    rw [started_other s lm hne]
    exact ⟨hactive, hx⟩

/-- A transaction begins; in a session that is not recovered it is the first one. -/
theorem Inv.started (h : Inv B pages s) (ht : t.toInt = s.nextTxNum.toInt + 1)
    (hfirst : s.nextTxNum = 0 ∨ s.recovered = true)
    (hlog : LogOk B lm (⟨.start t, 0⟩ :: s.entries)) (hlatest : lm.latestLsn = s.log.latestLsn + 1)
    (hext : Extends B s.log lm) (hle : unsaved lm ≤ unsaved s.log + 1) :
    Inv B pages (started s t lm) := by
  constructor
  · exact hlog
  · show 0 ≤ lm.latestLsn
    have hlsn := h.lsn
    omega
  · show PagesInv _ _ _ _ lm.latestLsn _ _
    rw [hlatest]
    exact h.data.append (e := ⟨.start t, 0⟩) (fun _ _ _ _ heq => by cases heq)
      (fun blk => (undoes_start rfl).mpr (h.data.undoes_disk blk))
      (fun blk => (undoes_start rfl).mpr (h.data.undoes_view blk)) hle
  · exact h.locks
  · intro t'
    by_cases heq : t' = t
    · rw [heq]
      exact h.started_tx ht
    · exact h.started_keeps ht hfirst hext heq
  · exact h.started_locked ht
  · intro blk buf hbuf htx
    obtain ⟨t', hnum, hx, hmod⟩ := h.modified blk buf hbuf htx
    have hne : t' ≠ t := by
      intro heq
      rw [heq, h.fresh_next ht] at hmod
      exact hmod.elim id id
    refine ⟨t', hnum, hx, ?_⟩
    rw [started_other s lm hne]
    exact hmod
  · show 0 ≤ t.toInt
    have hnext := h.next
    omega
  · intro hrec
    have hrec' : (s.recovered || s.isNew) = false := hrec
    show t.toInt ≤ 1
    rcases hfirst with hzero | hrecovered
    · rw [hzero] at ht
      have h1 : (0 : Int32).toInt = 0 := rfl
      omega
    · rw [hrecovered] at hrec'
      cases hrec'
  · intro hisNew hrec
    have hrec' : (s.recovered || s.isNew) = false := hrec
    have hisNew' : s.isNew = true := hisNew
    rw [hisNew', Bool.or_true] at hrec'
    cases hrec'

end Started

theorem Inv.begin (h : Inv B pages s) (hB : 16 ≤ B.bytes) (hstep : s.step B .begin = some s') :
    Inv B pages s' := by
  unfold Db.step Db.begin at hstep
  simp only [Option.ite_none_left_eq_some, Option.ite_none_right_eq_some] at hstep
  obtain ⟨hmax, hfirst, hstep⟩ := hstep
  obtain ⟨⟨s₁, lsn⟩, happend, hok⟩ := Option.bind_eq_some_iff.mp hstep
  obtain ⟨bytes, lm, hwrite, hlm, hlatest, hext, hlog, hle⟩ :=
    h.log.append (e := ⟨.start (s.nextTxNum + 1), 0⟩) hB
  unfold Db.append at happend
  simp only [hwrite, hlm, Except.toOption, Option.bind_eq_bind, Option.bind_some, Option.some.injEq,
    Prod.mk.injEq] at happend
  obtain ⟨rfl, rfl⟩ := happend
  cases hok
  exact h.started (succ_toInt hmax) hfirst hlog hlatest hext hle

theorem step_inv {l : Label} (h : Inv B pages s) (hstep : s.Step B l s')
    (hok : Proceeds B s l) : Inv B pages s' := by
  cases l with
  | begin => exact h.begin hok.2 hstep.1
  | setInt t blk offset val => exact h.setInt hok hstep.1
  | granted t => exact h.granted hstep.1
  | timeout t => exact h.timeout hstep.1
  | write t => exact h.write hstep.1
  | commit t => exact h.commit hstep.1
  | rollback t => exact h.rollback hstep.1
  | recover t => exact h.recover hstep.1
  | scan t => exact h.scan hok hstep.1
  | undo t => exact h.undo hstep.1
  | append t => exact h.append hok.2 hstep
  | sync t => exact h.sync hok hstep.1
  | unlock t blk => exact h.unlock hstep.1
  | clear t => exact h.clear hstep.1
  | load blk lsn => exact h.load hstep.1
  | flushBuffer blk => exact h.flushBuffer hstep.1
  | evict blk => exact h.evict hstep.1
  | crash => exact h.crash hstep.1

end Sessions

end SampleDB.CrashInvariant
