import SampleDB.SessionStates

/-!
Recovery comes to its end. In every session that begins after a crash, also after one in the
middle of a recovery, the first transaction can carry its recovery to the end: each record of
the log decodes, each undo finds its offset inside of the page, and no request for a lock has
to time out. The database is restored then.
-/
namespace SampleDB.RecoveryCompletion

open Words Pages Blocks LogRecords RecordRoundTrip Logging LogState BufferPool Locking LockSafety
  LockSteps RecoveryLog Recovery RecoveryScan CrashInvariant CrashSafety Runs SessionStates

/-- The steps of a recovery, and those of the buffers that it needs. -/
def OfRecovery : Label → Prop
  | .begin | .recover _ | .scan _ | .granted _ | .undo _ | .append _ | .sync _ | .unlock _ _
  | .clear _ | .load _ _ | .flushBuffer _ => True
  | _ => False

def Resumes (B : BlockSize) (s : Db) (l : Label) (s' : Db) : Prop :=
  (s.Step B l s' ∧ Proceeds B s l) ∧ OfRecovery l

def Leads (B : BlockSize) (s s' : Db) : Prop := ∃ ls, Run (Resumes B) s ls s'

/-- The transaction stands here in its recovery; `base` is what the recovery has to restore. -/
structure At (B : BlockSize) (pages base : BlockId → Page) (s : Db) (t : Int32)
    (pc : Recovery.Pc) : Prop where
  reached : Reached B pages s
  base : committedPages pages s.entries = base
  recovered : s.recovered = false
  pc : s.pc t = pc

variable {B : BlockSize} {pages base : BlockId → Page} {s s' s'' : Db} {t : Int32}

theorem Leads.refl (B : BlockSize) (s : Db) : Leads B s s := ⟨[], .nil s⟩

theorem Leads.trans (h : Leads B s s') (h' : Leads B s' s'') : Leads B s s'' := by
  obtain ⟨ls, hrun⟩ := h
  obtain ⟨ls', hrun'⟩ := h'
  exact ⟨ls ++ ls', hrun.append hrun'⟩

theorem leads_step {l : Label} (h : Resumes B s l s') : Leads B s s' := ⟨[l], .cons h (.nil s')⟩

theorem reached_of_leads (h : Reached B pages s) (hleads : Leads B s s') : Reached B pages s' := by
  obtain ⟨ls, hrun⟩ := hleads
  exact hrun.invariant (Reached B pages) (fun _ _ _ h hstep => h.step hstep.1.1 hstep.1.2) h

/-- A step that makes no call on the lock managers and needs no flushed buffers. -/
theorem resumes_free {l : Label} (hB : 16 ≤ B.bytes) (hstep : s.step B l = some s')
    (hl : OfRecovery l) (hcall : s.lockCall B l = none)
    (hflush : ∀ t, l ≠ .append t ∧ l ≠ .recover t) : Resumes B s l s' := by
  refine ⟨⟨⟨hstep, fun t h => ?_⟩, fun call h => ?_, ?_⟩, hl⟩
  · exact absurd h (not_or.mpr (hflush t))
  · rw [hcall] at h
    cases h
  · cases l <;> first | exact hB | exact hl.elim

section Alone

variable {pc : Recovery.Pc}

theorem At.leads (h : At B pages base s t pc) (hleads : Leads B s s')
    (hentries : s'.entries = s.entries) (hrec : s'.recovered = false) {pc' : Recovery.Pc}
    (hpc : s'.pc t = pc') : At B pages base s' t pc' :=
  ⟨reached_of_leads h.reached hleads, by rw [hentries, h.base], hrec, hpc⟩

theorem At.recovering (h : At B pages base s t pc) (hpc : pc ≠ .fresh) : recovering pc := by
  have hphase := (h.reached.inv.txs t).phase
  rw [h.pc] at hphase
  exact (hphase hpc).mpr h.recovered

theorem At.number (h : At B pages base s t pc) (hpc : pc ≠ .fresh) : 0 ≤ t.toInt := by
  have hnum := (h.reached.inv.txs t).number
  rw [h.pc] at hnum
  have hpos := (hnum hpc).1
  omega

/-- No other transaction has begun, and none has a lock. -/
theorem At.others (h : At B pages base s t pc) (hpc : pc ≠ .fresh) {t' : Int32} (hne : t' ≠ t)
    (blk : BlockId) : (s.locks.mgrs t').held blk = none := by
  have hfresh : s.pc t' = .fresh := by
    by_contra hbegun
    exact hne (h.reached.inv.alone h.recovered (by rw [h.pc]; exact hpc) hbegun)
  have hlockAt := (h.reached.inv.txs t').lockAt
  rw [hfresh] at hlockAt
  exact hlockAt.2 blk

theorem At.lockAt (h : At B pages base s t pc) : LockAt pc (s.locks.mgrs t) := by
  have hlockAt := (h.reached.inv.txs t).lockAt
  rwa [h.pc] at hlockAt

theorem At.locks (h : At B pages base s t pc) : LocksOk s.locks := h.reached.locks h.recovered

end Alone

section Flush

/-- No buffer is modified. -/
def Clean (s : Db) : Prop := ∀ blk buf, s.pool blk = some buf → buf.txnum < 0

theorem flush_txnum (files : Files Page) (buf : Buffer Page) : (buf.flush files).2.txnum < 0 := by
  unfold Buffer.flush
  split
  · show (-1 : ℤ) < 0
    omega
  · rename_i hclean
    exact Int.not_le.mp hclean

/-- The buffers can be written back, one after the other. -/
theorem exists_clean (hB : 16 ≤ B.bytes) (blks : Finset BlockId)
    (hmodified : ∀ blk buf, s.pool blk = some buf → 0 ≤ buf.txnum → blk ∈ blks) :
    ∃ s', Leads B s s' ∧ Clean s' ∧ s'.pc = s.pc ∧ s'.recovered = s.recovered ∧
      s'.entries = s.entries := by
  induction blks using Finset.induction_on generalizing s with
  | empty =>
    refine ⟨s, .refl B s, fun blk buf hbuf => ?_, rfl, rfl, rfl⟩
    by_contra htx
    exact absurd (hmodified blk buf hbuf (Int.not_lt.mp htx)) (Finset.notMem_empty blk)
  | insert blk blks _ ih =>
    cases hpool : s.pool blk with
    | none =>
      apply ih
      intro blk' buf hbuf htx
      refine (Finset.mem_insert.mp (hmodified blk' buf hbuf htx)).resolve_left ?_
      rintro rfl
      rw [hpool] at hbuf
      cases hbuf
    | some buf =>
      have hstep : s.step B (.flushBuffer blk) = some (Db.setBuffer { s with
          log := (buf.flush ⟨s.log, s.disk⟩).1.log
          disk := (buf.flush ⟨s.log, s.disk⟩).1.disk } blk (buf.flush ⟨s.log, s.disk⟩).2) := by
        simp only [Db.step, hpool]
        rfl
      have hfirst := leads_step (resumes_free hB hstep trivial rfl
        (fun _ => ⟨fun heq => (by cases heq), fun heq => (by cases heq)⟩))
      obtain ⟨s', hrest, hclean, hpc, hrec, hentries⟩ := ih (s := Db.setBuffer { s with
          log := (buf.flush ⟨s.log, s.disk⟩).1.log
          disk := (buf.flush ⟨s.log, s.disk⟩).1.disk } blk (buf.flush ⟨s.log, s.disk⟩).2) (by
        intro blk' buf' hbuf htx
        by_cases heq : blk' = blk
        · rw [heq] at hbuf
          cases (Function.update_self blk _ s.pool).symm.trans hbuf
          exact absurd (flush_txnum ⟨s.log, s.disk⟩ buf) (Int.not_lt.mpr htx)
        · have hold := (Function.update_of_ne heq _ s.pool).symm.trans hbuf
          exact (Finset.mem_insert.mp (hmodified blk' buf' hold htx)).resolve_left heq)
      exact ⟨s', hfirst.trans hrest, hclean, hpc, hrec, hentries⟩

theorem At.flush (hB : 16 ≤ B.bytes) {pc : Recovery.Pc} (h : At B pages base s t pc)
    (hpc : pc ≠ .fresh) : ∃ s', Leads B s s' ∧ At B pages base s' t pc ∧ s'.Flushed t := by
  obtain ⟨s', hleads, hclean, hsame, hrec, hentries⟩ :=
    exists_clean hB h.reached.loaded.toFinset (s := s) (by
    intro blk buf hbuf _
    rw [Set.Finite.mem_toFinset, Set.mem_ofPred_eq, hbuf]
    exact Option.some_ne_none buf)
  refine ⟨s', hleads,
    h.leads hleads hentries (hrec.trans h.recovered) ((congrFun hsame t).trans h.pc), ?_⟩
  intro blk buf hbuf heq
  have hneg := hclean blk buf hbuf
  have hnum := h.number hpc
  omega

end Flush

section Undo

variable {k : Scan} {blk : BlockId} {offset val : Int32} {it : LogIterator}

/-- A request of the only transaction is granted. -/
theorem At.granted (hB : 16 ≤ B.bytes) {pc : Recovery.Pc} (h : At B pages base s t pc)
    (hpc : pc ≠ .fresh)
    (hwait : (s.locks.mgrs t).pc = .sWait blk true ∨ (s.locks.mgrs t).pc = .xWait blk) :
    ∃ locks, Leads B s (s.setLocks locks) ∧ At B pages base (s.setLocks locks) t pc ∧
      ((s.locks.mgrs t).pc = .sWait blk true ∧ (locks.mgrs t).pc = .xWait blk ∨
        (s.locks.mgrs t).pc = .xWait blk ∧ (locks.mgrs t).pc = .idle) := by
  have hsafe := h.locks.inv.safe blk
  have hmgr := h.locks.inv.mgrs t
  have hnone : ∀ t' ≠ t, (s.locks.mgrs t').held blk = none := fun t' hne => h.others hpc hne blk
  have hexists : ∃ locks, s.locks.step (.granted t) = some locks := by
    unfold LockState.step
    rcases hwait with hwait | hwait
    · simp only [hwait]
      have hfree : ∀ t', (s.locks.mgrs t').held blk ≠ some .X := by
        intro t' hx
        by_cases heq : t' = t
        · rw [heq, (hmgr.sWaiting blk true hwait).1] at hx
          cases hx
        · rw [hnone t' heq] at hx
          cases hx
      have hvalue := hsafe.value_shared hfree
      rw [if_neg]
      · exact ⟨_, rfl⟩
      · unfold LockTable.hasXLock
        rw [decide_eq_true_iff]
        omega
    · simp only [hwait]
      have hheld := hmgr.xWaiting blk hwait
      have hfree : ∀ t', (s.locks.mgrs t').held blk ≠ some .X := by
        intro t' hx
        by_cases heq : t' = t
        · rw [heq, hheld] at hx
          cases hx
        · rw [hnone t' heq] at hx
          cases hx
      have hvalue := hsafe.value_shared hfree
      have hone : sharers (fun m => (s.locks.mgrs m).held blk) ≤ 1 := by
        apply Finset.card_le_one.mpr
        have hself : ∀ m ∈ Finset.univ.filter
            (fun m => (s.locks.mgrs m).held blk = some .S), m = t := by
          intro m hm
          by_contra hne
          have hshared := (Finset.mem_filter.mp hm).2
          rw [hnone m hne] at hshared
          cases hshared
        intro m hm m' hm'
        rw [hself m hm, hself m' hm']
      rw [if_neg]
      · exact ⟨_, rfl⟩
      · unfold LockTable.hasOtherSLocks
        rw [decide_eq_true_iff]
        omega
  obtain ⟨locks, hlock⟩ := hexists
  have hstep : s.step B (.granted t) = some (s.setLocks locks) := by
    simp only [Db.step, hlock, Option.map_some]
  have hleads := leads_step (resumes_free hB hstep trivial rfl
    (fun _ => ⟨fun heq => (by cases heq), fun heq => (by cases heq)⟩))
  refine ⟨locks, hleads, h.leads hleads rfl h.recovered h.pc, ?_⟩
  obtain ⟨-, -, blk', lt, -, -, hcases⟩ := granted_cases h.locks.inv hlock
  rcases hcases with ⟨hold, -⟩ | ⟨hold, -, -, hnew⟩ | ⟨hold, -, -, hnew⟩
  · rcases hwait with hwait | hwait
    · rw [hwait] at hold
      cases hold
    · rw [hwait] at hold
      cases hold
  · rcases hwait with hwait | hwait
    · rw [hwait] at hold
      cases hold
      exact Or.inl ⟨hwait, hnew⟩
    · rw [hwait] at hold
      cases hold
  · rcases hwait with hwait | hwait
    · rw [hwait] at hold
      cases hold
    · rw [hwait] at hold
      cases hold
      exact Or.inr ⟨hwait, hnew⟩

/-- The block of an undo is locked, after two grants at most. -/
theorem At.locked (hB : 16 ≤ B.bytes) (h : At B pages base s t (.undoing k blk offset val it)) :
    ∃ locks, Leads B s (s.setLocks locks) ∧
      At B pages base (s.setLocks locks) t (.undoing k blk offset val it) ∧
      (locks.mgrs t).pc = .idle := by
  have hpc : Recovery.Pc.undoing k blk offset val it ≠ .fresh := fun heq => (by cases heq)
  have hupgrade : ∀ locks, At B pages base (s.setLocks locks) t (.undoing k blk offset val it) →
      Leads B s (s.setLocks locks) → (locks.mgrs t).pc = .xWait blk →
      ∃ locks, Leads B s (s.setLocks locks) ∧
        At B pages base (s.setLocks locks) t (.undoing k blk offset val it) ∧
        (locks.mgrs t).pc = .idle := by
    intro locks hat hleads hwait
    obtain ⟨locks', hleads', hat', hcases⟩ := hat.granted hB hpc (Or.inr hwait)
    rcases hcases with ⟨hold, -⟩ | ⟨-, hidle⟩
    · cases hwait.symm.trans hold
    · exact ⟨locks', hleads.trans hleads', hat', hidle⟩
  rcases h.lockAt with hwait | hwait | ⟨hidle, -⟩
  · obtain ⟨locks, hleads, hat, hcases⟩ := h.granted hB hpc (Or.inl hwait)
    rcases hcases with ⟨-, hnew⟩ | ⟨hold, -⟩
    · exact hupgrade locks hat hleads hnew
    · rw [hwait] at hold
      cases hold
  · exact hupgrade s.locks h (.refl B s) hwait
  · exact ⟨s.locks, .refl B s, h, hidle⟩

/-- The block of an undo is in the pool. -/
theorem At.loaded (hB : 16 ≤ B.bytes) {pc : Recovery.Pc} (h : At B pages base s t pc)
    (blk : BlockId) :
    ∃ s' buf, Leads B s s' ∧ At B pages base s' t pc ∧ s'.pool blk = some buf ∧ s'.log = s.log ∧
      s'.locks = s.locks := by
  cases hpool : s.pool blk with
  | some buf => exact ⟨s, buf, .refl B s, h, hpool, rfl, rfl⟩
  | none =>
    have hstep : s.step B (.load blk (-1)) =
        some (s.setBuffer blk (some ⟨s.disk blk, blk, 0, -1, -1⟩)) := by
      simp only [Db.step, hpool]
    have hleads := leads_step (resumes_free hB hstep trivial rfl
      (fun _ => ⟨fun heq => (by cases heq), fun heq => (by cases heq)⟩))
    exact ⟨_, _, hleads, h.leads hleads rfl h.recovered h.pc,
      Function.update_self blk _ s.pool, rfl, rfl⟩

/-- An undo is carried out. -/
theorem At.undo (hB : 16 ≤ B.bytes) (h : At B pages base s t (.undoing k blk offset val it)) :
    ∃ s', Leads B s s' ∧ At B pages base s' t (.scanning k it) ∧ s'.log = s.log := by
  obtain ⟨locks, hleads₁, hat₁, hidle⟩ := h.locked hB
  obtain ⟨s₂, buf, hleads₂, hat₂, hpool, hlog, hlocks⟩ := hat₁.loaded hB blk
  have hdata := (hat₂.reached.inv.txs t).data
  rw [hat₂.pc] at hdata
  obtain ⟨e, t', rest, hrecord, -, hpending⟩ := hdata
  have hmem := (mem_losers_setInt (hpending.losers e List.mem_cons_self)).1
  obtain ⟨h0, hend⟩ := hat₂.reached.inv.data.inPage e hmem t' blk offset val hrecord
  have hlength := (hat₂.reached.inv.data.buffer blk buf hpool).2.1
  have hset := Page.setInt_ok buf.contents offset.toInt val h0 (by omega) offset.toInt_lt
  have hidle₂ : (s₂.locks.mgrs t).pc = .idle := by
    rw [hlocks]
    exact hidle
  have hstep : ∃ s₃, s₂.step B (.undo t) = some s₃ ∧ s₃.pc t = .scanning k it ∧
      s₃.log = s₂.log ∧ s₃.entries = s₂.entries ∧ s₃.recovered = s₂.recovered := by
    simp only [Db.step, Db.undo, hat₂.pc, hidle₂, hpool, Option.bind_eq_bind, Option.bind_some,
      hset, Except.toOption]
    exact ⟨_, rfl, Function.update_self _ _ _, rfl, rfl, rfl⟩
  obtain ⟨s₃, hstep, hpc, hlog₃, hentries, hrec⟩ := hstep
  have hleads₃ := leads_step (resumes_free hB hstep trivial rfl
    (fun _ => ⟨fun heq => (by cases heq), fun heq => (by cases heq)⟩))
  exact ⟨s₃, (hleads₁.trans hleads₂).trans hleads₃,
    hat₂.leads hleads₃ hentries (hrec.trans hat₂.recovered) hpc, hlog₃.trans hlog⟩

end Undo

section Loop

variable {k : Scan} {it : LogIterator} {e : Entry} {rest : List Entry}

theorem visited_nil (hpc : s.pc t = .scanning k it) (hscan : Scans B s.log it []) :
    s.visited B t = some (k, .stop, it) := by
  obtain ⟨bytes, hreading, hread⟩ := hscan
  cases hread
  simp only [Db.visited, hpc, hreading.done, Bool.false_eq_true, if_false]

theorem visited_cons (hpc : s.pc t = .scanning k it) (hscan : Scans B s.log it (e :: rest))
    {v : Visit} (hv : k.visit t e.logRec = some v) :
    ∃ it', s.visited B t = some (k, v, it') ∧ Scans B s.log it' rest := by
  obtain ⟨bytes, hreading, hread⟩ := hscan
  cases hread with
  | cons hfirst hrest =>
    obtain ⟨hmore, it', hnext, hreading'⟩ := hreading.next
    refine ⟨it', ?_, _, hreading', hrest⟩
    simp only [Db.visited, hpc, hmore, if_true, hnext, Except.toOption, Option.bind_eq_bind,
      Option.bind_some, hfirst, Option.join_some, hv]

/-- The loop knows what to do with every record that is not of a string. -/
theorem doRecover_total (he : OfInts e) (fin : List Int32) :
    ∃ v, doRecover fin e.logRec = some v := by
  unfold doRecover
  cases hrec : e.logRec with
  | setString t blk offset str => exact absurd hrec (he t blk offset str)
  | setInt t blk offset val =>
    dsimp only
    split <;> exact ⟨_, rfl⟩
  | _ => exact ⟨_, rfl⟩

/-- A turn without an undo. -/
theorem At.goOn (hB : 16 ≤ B.bytes) (h : At B pages base s t (.scanning k it)) {v : Visit}
    {it' : LogIterator} (hvisited : s.visited B t = some (k, v, it'))
    (hundo : ∀ blk offset val, v ≠ .undo blk offset val) {pc : Recovery.Pc}
    (hpc : (v = .stop ∧ pc = .flushing k.ends) ∨ ∃ k', v = .next k' ∧ pc = .scanning k' it') :
    Leads B s (s.setPc t pc) ∧ At B pages base (s.setPc t pc) t pc := by
  have hstep : s.step B (.scan t) = some (s.setPc t pc) := by
    rcases hpc with ⟨rfl, rfl⟩ | ⟨k', rfl, rfl⟩
    · simp only [Db.step, Db.scan, hvisited, Option.bind_eq_bind, Option.bind_some]
    · simp only [Db.step, Db.scan, hvisited, Option.bind_eq_bind, Option.bind_some]
  have hcall : s.lockCall B (.scan t) = none := by
    simp only [Db.lockCall, hvisited]
    cases v with
    | undo blk offset val => exact absurd rfl (hundo blk offset val)
    | _ => rfl
  have hleads := leads_step (resumes_free hB hstep trivial hcall
    (fun _ => ⟨fun heq => (by cases heq), fun heq => (by cases heq)⟩))
  exact ⟨hleads, h.leads hleads rfl h.recovered (setPc_self s t pc)⟩

/-- A turn up to the request for the lock of its undo. -/
theorem At.request (hB : 16 ≤ B.bytes) (h : At B pages base s t (.scanning k it)) {blk : BlockId}
    {offset val : Int32} {it' : LogIterator}
    (hvisited : s.visited B t = some (k, .undo blk offset val, it')) :
    ∃ s', Leads B s s' ∧ At B pages base s' t (.undoing k blk offset val it') ∧ s'.log = s.log := by
  have hidle : (s.locks.mgrs t).pc = .idle := h.lockAt
  have hlock : ∃ locks, s.locks.step (.xLock t blk) = some locks := by
    unfold LockState.step
    cases hfind : (s.locks.mgrs t).find blk with
    | none =>
      simp only [hidle, hfind]
      exact ⟨_, rfl⟩
    | some lt =>
      cases lt <;> simp only [hidle, hfind] <;> exact ⟨_, rfl⟩
  obtain ⟨locks, hlock⟩ := hlock
  have hstep : s.step B (.scan t) =
      some ((s.setLocks locks).setPc t (.undoing k blk offset val it')) := by
    simp only [Db.step, Db.scan, hvisited, Option.bind_eq_bind, Option.bind_some, hlock]
  have hleads : Leads B s ((s.setLocks locks).setPc t (.undoing k blk offset val it')) := by
    refine leads_step ⟨⟨⟨hstep, ?_⟩, ?_, hB⟩, trivial⟩
    · rintro t' (heq | heq) <;> cases heq
    · intro call hcall
      simp only [Db.lockCall, hvisited, Option.some.injEq] at hcall
      subst hcall
      exact h.locks.matched hlock
  exact ⟨_, hleads, h.leads hleads rfl h.recovered (setPc_self _ t _), rfl⟩

/-- The loop reads the log to its end, or to a checkpoint. -/
theorem At.loop (hB : 16 ≤ B.bytes) (h : At B pages base s t (.scanning k it))
    (hscan : Scans B s.log it rest) (hints : ∀ e ∈ rest, OfInts e) :
    ∃ s', Leads B s s' ∧ At B pages base s' t (.flushing .checkpoint) := by
  induction rest generalizing s k it with
  | nil =>
    have hkind := h.recovering (fun heq => (by cases heq))
    cases k with
    | rollback => exact hkind.elim
    | recover fin =>
      exact ⟨_, h.goOn hB (visited_nil h.pc hscan) (fun _ _ _ heq => (by cases heq))
        (Or.inl ⟨rfl, rfl⟩)⟩
  | cons e rest ih =>
    have hkind := h.recovering (fun heq => (by cases heq))
    obtain ⟨he, hrest⟩ := List.forall_mem_cons.mp hints
    cases k with
    | rollback => exact hkind.elim
    | recover fin =>
      obtain ⟨v, hv⟩ := doRecover_total he fin
      obtain ⟨it', hvisited, hscan'⟩ := visited_cons h.pc hscan (v := v) hv
      cases v with
      | stop =>
        exact ⟨_, h.goOn hB hvisited (fun _ _ _ heq => (by cases heq)) (Or.inl ⟨rfl, rfl⟩)⟩
      | next k' =>
        obtain ⟨hleads, hat⟩ := h.goOn hB hvisited (fun _ _ _ heq => (by cases heq))
          (Or.inr ⟨k', rfl, rfl⟩)
        obtain ⟨s', hleads', hat'⟩ := ih hat hscan' hrest
        exact ⟨s', hleads.trans hleads', hat'⟩
      | undo blk offset val =>
        obtain ⟨s₁, hleads₁, hat₁, hlog₁⟩ := h.request hB hvisited
        obtain ⟨s₂, hleads₂, hat₂, hlog₂⟩ := hat₁.undo hB
        rw [← hlog₁, ← hlog₂] at hscan'
        obtain ⟨s', hleads₃, hat'⟩ := ih hat₂ hscan' hrest
        exact ⟨s', (hleads₁.trans hleads₂).trans hleads₃, hat'⟩

end Loop

section Phases

/-- The steps that need flushed buffers. -/
theorem leads_flushed {l : Label} (hB : 16 ≤ B.bytes) (hflushed : s.Flushed t)
    (hl : l = .append t ∨ l = .recover t) (hstep : s.step B l = some s') : Leads B s s' := by
  rcases hl with rfl | rfl
  · refine leads_step ⟨⟨⟨hstep, ?_⟩, fun _ hcall => (by cases hcall), hB⟩, trivial⟩
    rintro t' (heq | heq)
    · cases heq
      exact hflushed
    · cases heq
  · refine leads_step ⟨⟨⟨hstep, ?_⟩, fun _ hcall => (by cases hcall), hB⟩, trivial⟩
    rintro t' (heq | heq)
    · cases heq
    · cases heq
      exact hflushed

theorem At.recover (hB : 16 ≤ B.bytes) (h : At B pages base s t .starting) :
    ∃ s' it, Leads B s s' ∧ At B pages base s' t (.scanning (.recover []) it) := by
  obtain ⟨s₁, hleads₁, hat₁, hflushed⟩ := h.flush hB (fun heq => (by cases heq))
  obtain ⟨lm, it, hit, -⟩ := hat₁.reached.inv.log.iterator
  have hstep : s₁.step B (.recover t) =
      some ({ s₁ with log := lm }.setPc t (.scanning (.recover []) it)) := by
    simp only [Db.step, hat₁.pc, Db.startScan, hit, Except.toOption, Option.bind_eq_bind,
      Option.bind_some]
  have hleads₂ := leads_flushed hB hflushed (Or.inr rfl) hstep
  exact ⟨_, it, hleads₁.trans hleads₂,
    hat₁.leads hleads₂ rfl hat₁.recovered (setPc_self _ t _)⟩

theorem At.append (hB : 16 ≤ B.bytes) (h : At B pages base s t (.flushing .checkpoint)) :
    ∃ s' lsn, Leads B s s' ∧ At B pages base s' t (.appended .checkpoint lsn) := by
  obtain ⟨s₁, hleads₁, hat₁, hflushed⟩ := h.flush hB (fun heq => (by cases heq))
  obtain ⟨bytes, lm, hwrite, happend, -⟩ :=
    hat₁.reached.inv.log.append (e := ⟨.checkpoint, 0⟩) hB
  have hstep : ∃ s₂, s₁.step B (.append t) = some s₂ ∧
      s₂.pc t = .appended .checkpoint (s₁.log.latestLsn + 1) ∧
      s₂.entries = ⟨.checkpoint, 0⟩ :: s₁.entries ∧ s₂.recovered = s₁.recovered := by
    simp only [Db.step, hat₁.pc, Db.append, End.logRec, hwrite, happend, Except.toOption,
      Option.bind_eq_bind, Option.bind_some]
    exact ⟨_, rfl, Function.update_self _ _ _, rfl, rfl⟩
  obtain ⟨s₂, hstep, hpc, hentries, hrec⟩ := hstep
  have hleads₂ := leads_flushed hB hflushed (Or.inl rfl) hstep
  refine ⟨s₂, _, hleads₁.trans hleads₂, reached_of_leads hat₁.reached hleads₂, ?_,
    hrec.trans hat₁.recovered, hpc⟩
  rw [hentries, committedPages_other (e := ⟨.checkpoint, 0⟩) (fun _ heq => (by cases heq)),
    hat₁.base]

theorem At.sync (hB : 16 ≤ B.bytes) {lsn : ℤ}
    (h : At B pages base s t (.appended .checkpoint lsn)) :
    ∃ s', Leads B s s' ∧ At B pages base s' t (.releasing .checkpoint) := by
  have hidle : (s.locks.mgrs t).pc = .idle := h.lockAt
  have hlock : ∃ locks, s.locks.step (.release t) = some locks := by
    simp only [LockState.step, hidle]
    exact ⟨_, rfl⟩
  obtain ⟨locks, hlock⟩ := hlock
  have hstep : s.step B (.sync t) = some
      (({ s with log := s.log.flush lsn }.setLocks locks).setPc t (.releasing .checkpoint)) := by
    simp only [Db.step, h.pc, hlock, Option.bind_eq_bind, Option.bind_some]
  have hleads := leads_step (B := B) (s := s) ⟨⟨⟨hstep, by
    rintro t' (heq | heq) <;> cases heq⟩, by
    intro call hcall
    cases hcall
    exact h.locks.matched hlock, hB⟩, trivial⟩
  exact ⟨_, hleads, h.leads hleads rfl h.recovered (setPc_self _ t _)⟩

theorem At.unlock (hB : 16 ≤ B.bytes) (h : At B pages base s t (.releasing .checkpoint))
    {rest : List BlockId} (hrest : (s.locks.mgrs t).pc = .releasing rest) :
    ∃ s', Leads B s s' ∧ At B pages base s' t (.releasing .checkpoint) ∧
      (s'.locks.mgrs t).pc = .releasing [] := by
  induction hlen : rest.length generalizing s rest with
  | zero =>
    rw [List.length_eq_zero_iff.mp hlen] at hrest
    exact ⟨s, .refl B s, h, hrest⟩
  | succ n ih =>
    obtain ⟨blk, rest', rfl⟩ := List.exists_cons_of_length_eq_add_one hlen
    have hlock : ∃ locks, s.locks.step (.unlock t blk) = some locks ∧
        (locks.mgrs t).pc = .releasing rest' := by
      simp only [LockState.step, hrest, List.mem_cons_self, if_true, List.erase_cons_head]
      exact ⟨_, rfl, congrArg ConcurrencyMgr.pc (setMgr_self s.locks _ t _)⟩
    obtain ⟨locks, hlock, hpc⟩ := hlock
    have hstep : s.step B (.unlock t blk) = some (s.setLocks locks) := by
      simp only [Db.step, hlock, Option.map_some]
    have hleads := leads_step (resumes_free hB hstep trivial rfl
      (fun _ => ⟨fun heq => (by cases heq), fun heq => (by cases heq)⟩))
    obtain ⟨s', hleads', hat', hnil⟩ := ih (h.leads hleads rfl h.recovered h.pc) hpc
      (Nat.succ.inj hlen)
    exact ⟨s', hleads.trans hleads', hat', hnil⟩

/-- The recovery comes to its end, and the blocks on disk are then as `base` has them. -/
def Completes (B : BlockSize) (pages base : BlockId → Page) (s : Db) : Prop :=
  ∃ s', Leads B s s' ∧ s'.recovered = true ∧ Restored B pages s' ∧ s'.disk = base

/-- The last lock is released, and the database is restored. -/
theorem At.clear (hB : 16 ≤ B.bytes) (h : At B pages base s t (.releasing .checkpoint))
    (hnil : (s.locks.mgrs t).pc = .releasing []) : Completes B pages base s := by
  have hinv := h.reached.inv
  have hdata := (hinv.txs t).data
  rw [h.pc] at hdata
  obtain ⟨-, hsaved⟩ := hdata
  have hdisk := disk_of_releasing hinv h.pc
  have hstep : ∃ s', s.step B (.clear t) = some s' ∧ s'.log = s.log ∧ s'.disk = s.disk ∧
      s'.entries = s.entries ∧ s'.recovered = true := by
    simp only [Db.step, h.pc, LockState.step, hnil, Option.bind_eq_bind, Option.bind_some,
      h.recovered]
    exact ⟨_, rfl, rfl, rfl, rfl, rfl⟩
  obtain ⟨s', hstep, hlog, hdisk', hentries, hrec⟩ := hstep
  refine ⟨s', leads_step (resumes_free hB hstep trivial rfl
    (fun _ => ⟨fun heq => (by cases heq), fun heq => (by cases heq)⟩)), hrec, ?_⟩
  unfold Restored
  rw [hlog, hdisk', hentries]
  exact ⟨⟨hinv.log.fileReads hsaved, hdisk⟩, hdisk.trans h.base⟩

end Phases

end SampleDB.RecoveryCompletion
