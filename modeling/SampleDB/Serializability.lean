import SampleDB.Cells
import SampleDB.LockSteps
import SampleDB.Transactions

/-!
Serializability. At every moment the committed transactions, run one after another in
the order of their commits, read what they have read and leave the pages `P`. A block
that differs from `P` is locked exclusively by a transaction in progress, whose
accesses lead from `P` to the page and whose log records lead back.
-/
namespace SampleDB.Serializability

open Words Pages Blocks LogRecords Locking LockSteps Transactions Cells

variable {Tx : Type}

/-- The transactions run one after another; a read has to find its value. -/
def serial (pages : BlockId → Page) (ops : Tx → List PageOp) (order : List Tx) :
    Option (BlockId → Page) :=
  order.foldlM (fun pages t => Cells.run PageOp.blk PageOp.act pages (ops t)) pages

theorem serial_append (pages : BlockId → Page) (ops : Tx → List PageOp) (order : List Tx) (t : Tx) :
    serial pages ops (order ++ [t]) =
      (serial pages ops order).bind (fun P => Cells.run PageOp.blk PageOp.act P (ops t)) := by
  unfold serial
  rw [List.foldlM_append]
  simp only [List.foldlM_cons, List.foldlM_nil, bind_pure]
  rfl

theorem serial_congr (pages : BlockId → Page) (ops ops' : Tx → List PageOp) (order : List Tx)
    (h : ∀ t ∈ order, ops' t = ops t) : serial pages ops' order = serial pages ops order := by
  induction order generalizing pages with
  | nil => rfl
  | cons t order ih =>
    unfold serial
    rw [List.foldlM_cons, List.foldlM_cons, h t List.mem_cons_self]
    congr 1
    funext P
    exact ih P (fun t' ht' => h t' (List.mem_cons_of_mem t ht'))

/-- The transaction goes on to access pages. -/
def active : TxPc Tx → Prop
  | .ready => True
  | .getInt _ _ => True
  | .setInt _ _ _ => True
  | _ => False

/-- The transaction may have written pages, and neither committed nor restored them. -/
def inProgress : TxPc Tx → Prop
  | .rolling _ => True
  | .undoing _ _ _ _ => True
  | pc => active pc

theorem inProgress_of_active {pc : TxPc Tx} (h : active pc) : inProgress pc := by
  cases pc <;> first | exact h | cases h

/-- The manager's call fits the transaction's. -/
def PcOk : TxPc Tx → ConcurrencyMgr → Prop
  | .getInt blk _, mgr => mgr.pc = .sWait blk false ∨ (mgr.pc = .idle ∧ mgr.held blk ≠ none)
  | .setInt blk _ _, mgr =>
      mgr.pc = .sWait blk true ∨ mgr.pc = .xWait blk ∨
        (mgr.pc = .idle ∧ mgr.held blk = some .X)
  | .undoing blk _ _ _, mgr => mgr.pc = .idle ∧ mgr.held blk = some .X
  | .ending, mgr => ∃ rest, mgr.pc = .releasing rest
  | _, mgr => mgr.pc = .idle

variable [DecidableEq Tx]

/-- The writes by which a rollback of the transaction restores the pages. -/
def undoList (t : Tx) : List (LogRecord Tx) → List PageOp
  | [] => []
  | .start t' :: log => if t' = t then [] else undoList t log
  | .setInt t' blk offset val :: log =>
      if t' = t then .write blk offset val :: undoList t log else undoList t log
  | _ :: log => undoList t log

theorem undoList_other {t : Tx} {logRec : LogRecord Tx} (h : logRec.txNumber ≠ some t)
    (log : List (LogRecord Tx)) : undoList t (logRec :: log) = undoList t log := by
  cases logRec <;> simp_all [undoList, LogRecord.txNumber]

/-- The undo writes that are still to come. -/
def pending (t : Tx) (log : List (LogRecord Tx)) : TxPc Tx → List PageOp
  | .rolling rest => undoList t rest
  | .undoing blk offset val rest => .write blk offset val :: undoList t rest
  | _ => undoList t log

theorem pending_active {t : Tx} {log : List (LogRecord Tx)} {pc : TxPc Tx} (h : active pc) :
    pending t log pc = undoList t log := by
  cases pc <;> first | rfl | cases h

/-- What holds of one transaction. -/
structure TxInv (P : BlockId → Page) (s : TxState Tx) (t : Tx) : Prop where
  pcOk : PcOk (s.pc t) (s.locks.mgrs t)
  fresh : s.pc t = .fresh → s.ops t = [] ∧ ∀ blk, (s.locks.mgrs t).held blk = none
  locked : active (s.pc t) → ∀ blk, (s.locks.mgrs t).held blk ≠ none →
    runCell PageOp.act (P blk) (opsOn PageOp.blk blk (s.ops t)) = some (s.pages blk)
  unlocked : active (s.pc t) → ∀ blk, (s.locks.mgrs t).held blk = none →
    opsOn PageOp.blk blk (s.ops t) = []
  exclusive : inProgress (s.pc t) → ∀ blk, (s.locks.mgrs t).held blk = some .X →
    runCell PageOp.act (s.pages blk) (opsOn PageOp.blk blk (pending t s.log (s.pc t))) =
      some (P blk)
  unwritten : inProgress (s.pc t) → ∀ blk, (s.locks.mgrs t).held blk ≠ some .X →
    opsOn PageOp.blk blk (pending t s.log (s.pc t)) = []

/-- Everything but the transaction is unchanged. -/
structure Frame (s s' : TxState Tx) (t : Tx) : Prop where
  pc : ∀ t' ≠ t, s'.pc t' = s.pc t'
  mgrs : ∀ t' ≠ t, s'.locks.mgrs t' = s.locks.mgrs t'
  ops : ∀ t' ≠ t, s'.ops t' = s.ops t'
  log : ∀ t' ≠ t, undoList t' s'.log = undoList t' s.log

variable {P P' : BlockId → Page} {s s' : TxState Tx} {t : Tx}

theorem TxInv.frame (h : TxInv P s t) (hpc : s'.pc t = s.pc t)
    (hmgr : s'.locks.mgrs t = s.locks.mgrs t) (hops : s'.ops t = s.ops t)
    (hlog : undoList t s'.log = undoList t s.log)
    (hsame : ∀ blk, (s.locks.mgrs t).held blk ≠ none →
      P' blk = P blk ∧ s'.pages blk = s.pages blk) : TxInv P' s' t := by
  have hpending : pending t s'.log (s.pc t) = pending t s.log (s.pc t) := by
    cases s.pc t <;> first | rfl | exact hlog
  constructor
  · rw [hpc, hmgr]
    exact h.pcOk
  · rw [hpc, hmgr, hops]
    exact h.fresh
  · rw [hpc, hmgr, hops]
    intro hactive blk hheld
    rw [(hsame blk hheld).1, (hsame blk hheld).2]
    exact h.locked hactive blk hheld
  · rw [hpc, hmgr, hops]
    exact h.unlocked
  · rw [hpc, hmgr, hpending]
    intro hactive blk hheld
    have hsome := hsame blk (by rw [hheld]; exact Option.some_ne_none _)
    rw [hsome.1, hsome.2]
    exact h.exclusive hactive blk hheld
  · rw [hpc, hmgr, hpending]
    exact h.unwritten

theorem setPc_self (s : TxState Tx) (t : Tx) (pc : TxPc Tx) : (s.setPc t pc).pc t = pc := by
  simp [TxState.setPc]

theorem setPc_other (s : TxState Tx) {t t' : Tx} (pc : TxPc Tx) (h : t' ≠ t) :
    (s.setPc t pc).pc t' = s.pc t' := by
  simp [TxState.setPc, h]

omit [DecidableEq Tx] in
theorem txNumber_ne {t t' : Tx} (h : t' ≠ t) (logRec : LogRecord Tx)
    (hrec : logRec.txNumber = some t) : logRec.txNumber ≠ some t' := by
  rw [hrec]
  intro heq
  exact h (Option.some.inj heq).symm

/-- The transaction goes on with the same locks and the same accesses. -/
theorem TxInv.move (h : TxInv P s t) (hfrom : active (s.pc t)) (hto : active (s'.pc t))
    (hpcOk : PcOk (s'.pc t) (s'.locks.mgrs t))
    (hheld : (s'.locks.mgrs t).held = (s.locks.mgrs t).held) (hops : s'.ops t = s.ops t)
    (hpages : s'.pages = s.pages) (hlog : undoList t s'.log = undoList t s.log) :
    TxInv P s' t where
  pcOk := hpcOk
  fresh := by
    intro hfresh
    rw [hfresh] at hto
    exact hto.elim
  locked := by
    rw [hheld, hops, hpages]
    exact fun _ => h.locked hfrom
  unlocked := by
    rw [hheld, hops]
    exact fun _ => h.unlocked hfrom
  exclusive := by
    rw [hheld, hpages, pending_active hto, hlog, ← pending_active hfrom]
    exact fun _ => h.exclusive (inProgress_of_active hfrom)
  unwritten := by
    rw [hheld, pending_active hto, hlog, ← pending_active hfrom]
    exact fun _ => h.unwritten (inProgress_of_active hfrom)

/-- `P` is what the committed transactions leave in the order of their commits. -/
structure Inv [Fintype Tx] (pages : BlockId → Page) (P : BlockId → Page) (s : TxState Tx) :
    Prop where
  locks : LocksOk s.locks
  txs : ∀ t, TxInv P s t
  clean : ∀ blk, s.pages blk = P blk ∨
    ∃ t, inProgress (s.pc t) ∧ (s.locks.mgrs t).held blk = some .X
  order : ∀ t ∈ s.committed, s.pc t = .ending ∨ s.pc t = .ended
  serial : serial pages s.ops s.committed = some P

variable [Fintype Tx] {pages : BlockId → Page}

theorem inv_new (log : List (LogRecord Tx)) (pages : BlockId → Page) :
    Inv pages pages (TxState.new log pages) where
  locks := locksOk_new
  txs := by
    intro t
    constructor
    · rfl
    · exact fun _ => ⟨rfl, fun _ => rfl⟩
    · exact fun h => h.elim
    · exact fun h => h.elim
    · exact fun h => h.elim
    · exact fun h => h.elim
  clean := fun _ => Or.inl rfl
  order := by
    intro t ht
    cases ht
  serial := rfl

theorem Inv.clean_cases (h : Inv pages P s) (t : Tx) (blk : BlockId) :
    s.pages blk = P blk ∨ (inProgress (s.pc t) ∧ (s.locks.mgrs t).held blk = some .X) ∨
      ∃ t' ≠ t, inProgress (s.pc t') ∧ (s.locks.mgrs t').held blk = some .X := by
  rcases h.clean blk with hsame | ⟨t', hprogress, hheld⟩
  · exact Or.inl hsame
  · by_cases heq : t' = t
    · rw [heq] at hprogress hheld
      exact Or.inr (Or.inl ⟨hprogress, hheld⟩)
    · exact Or.inr (Or.inr ⟨t', heq, hprogress, hheld⟩)

theorem Inv.not_committed (h : Inv pages P s) (hpc : inProgress (s.pc t)) : t ∉ s.committed := by
  intro hmem
  rcases h.order t hmem with heq | heq
  · rw [heq] at hpc
    exact hpc
  · rw [heq] at hpc
    exact hpc

/-- A step of one transaction. A page changes, or counts as committed, only where the
others have no lock. -/
theorem Inv.of_frame (h : Inv pages P s) (hframe : Frame s s' t) (hlocks : LocksOk s'.locks)
    (htx : TxInv P' s' t)
    (hsame : ∀ blk, (P' blk = P blk ∧ s'.pages blk = s.pages blk) ∨
      ∀ t' ≠ t, (s.locks.mgrs t').held blk = none)
    (hclean : ∀ blk, (s'.pages blk = P' blk ∨
        (inProgress (s'.pc t) ∧ (s'.locks.mgrs t).held blk = some .X)) ∨
      ∃ t' ≠ t, inProgress (s.pc t') ∧ (s.locks.mgrs t').held blk = some .X)
    (horder : ∀ t ∈ s'.committed, s'.pc t = .ending ∨ s'.pc t = .ended)
    (hserial : Serializability.serial pages s'.ops s'.committed = some P') :
    Inv pages P' s' where
  locks := hlocks
  txs := by
    intro t'
    by_cases heq : t' = t
    · rw [heq]
      exact htx
    · refine (h.txs t').frame (hframe.pc t' heq) (hframe.mgrs t' heq) (hframe.ops t' heq)
        (hframe.log t' heq) ?_
      intro blk hheld
      rcases hsame blk with hblk | hnone
      · exact hblk
      · exact absurd (hnone t' heq) hheld
  clean := by
    intro blk
    rcases hclean blk with (hblk | hself) | ⟨t', hne, hprogress, hheld⟩
    · exact Or.inl hblk
    · exact Or.inr ⟨t, hself⟩
    · refine Or.inr ⟨t', ?_, ?_⟩
      · rw [hframe.pc t' hne]
        exact hprogress
      · rw [hframe.mgrs t' hne]
        exact hheld
  order := horder
  serial := hserial

/-- A step of one transaction that commits nothing. -/
theorem Inv.of_frame_same (h : Inv pages P s) (hframe : Frame s s' t)
    (hlocks : LocksOk s'.locks) (htx : TxInv P s' t)
    (hsame : ∀ blk, s'.pages blk = s.pages blk ∨ ∀ t' ≠ t, (s.locks.mgrs t').held blk = none)
    (hclean : ∀ blk, (s'.pages blk = P blk ∨
        (inProgress (s'.pc t) ∧ (s'.locks.mgrs t).held blk = some .X)) ∨
      ∃ t' ≠ t, inProgress (s.pc t') ∧ (s.locks.mgrs t').held blk = some .X)
    (hcommitted : s'.committed = s.committed)
    (hend : t ∈ s.committed → s'.ops t = s.ops t ∧ (s'.pc t = .ending ∨ s'.pc t = .ended)) :
    Inv pages P s' := by
  refine h.of_frame hframe hlocks htx ?_ hclean ?_ ?_
  · intro blk
    rcases hsame blk with hblk | hnone
    · exact Or.inl ⟨rfl, hblk⟩
    · exact Or.inr hnone
  · intro t' ht'
    rw [hcommitted] at ht'
    by_cases heq : t' = t
    · rw [heq] at ht' ⊢
      exact (hend ht').2
    · rw [hframe.pc t' heq]
      exact h.order t' ht'
  · rw [hcommitted, serial_congr pages s.ops s'.ops s.committed, h.serial]
    intro t' ht'
    by_cases heq : t' = t
    · rw [heq] at ht' ⊢
      exact (hend ht').1
    · exact hframe.ops t' heq

section Steps

theorem Inv.begin (h : Inv pages P s) (hstep : s.step (.begin t) = some s') :
    Inv pages P s' := by
  unfold TxState.step at hstep
  cases hpc : s.pc t <;> simp only [hpc, reduceCtorEq, Option.some.injEq] at hstep
  subst hstep
  obtain ⟨hops, hheld⟩ := (h.txs t).fresh hpc
  have hpcOk := (h.txs t).pcOk
  rw [hpc] at hpcOk
  refine h.of_frame_same (t := t) ⟨fun t' hne => setPc_other _ _ hne, fun _ _ => rfl,
    fun _ _ => rfl, ?_⟩ h.locks ?_ (fun _ => Or.inl rfl) ?_ rfl ?_
  · intro t' hne
    exact undoList_other (txNumber_ne hne _ rfl) s.log
  · have hnil : undoList t (.start t :: s.log) = [] := if_pos rfl
    constructor
    · rw [setPc_self]
      exact hpcOk
    · intro hfresh
      rw [setPc_self] at hfresh
      cases hfresh
    · intro _ blk hlocked
      exact absurd (hheld blk) hlocked
    · intro _ blk _
      exact congrArg (opsOn PageOp.blk blk) hops
    · intro _ blk hx
      have hnone := hheld blk
      exact absurd (hx.symm.trans hnone) (by decide)
    · intro _ blk _
      rw [setPc_self]
      exact congrArg (opsOn PageOp.blk blk) hnil
  · intro blk
    rcases h.clean_cases t blk with hsame | ⟨-, hx⟩ | hother
    · exact Or.inl (Or.inl hsame)
    · rw [hheld blk] at hx
      cases hx
    · exact Or.inr hother
  · intro hmem
    rcases h.order t hmem with heq | heq
    · rw [hpc] at heq
      cases heq
    · rw [hpc] at heq
      cases heq

/-- A request for a lock, with the transaction in progress before and after it. -/
theorem Inv.request (h : Inv pages P s) {locks : LockState Tx} {pc : TxPc Tx}
    (hfrom : inProgress (s.pc t)) (hto : inProgress pc) (hlocks : LocksOk locks)
    (hothers : ∀ t' ≠ t, locks.mgrs t' = s.locks.mgrs t')
    (hheld : (locks.mgrs t).held = (s.locks.mgrs t).held)
    (htx : TxInv P ((s.setLocks locks).setPc t pc) t) :
    Inv pages P ((s.setLocks locks).setPc t pc) := by
  refine h.of_frame_same (t := t) ⟨fun t' hne => setPc_other _ _ hne, hothers, fun _ _ => rfl,
    fun _ _ => rfl⟩ hlocks htx (fun _ => Or.inl rfl) ?_ rfl ?_
  · intro blk
    rcases h.clean_cases t blk with hsame | ⟨-, hx⟩ | hother
    · exact Or.inl (Or.inl hsame)
    · refine Or.inl (Or.inr ⟨?_, ?_⟩)
      · rw [setPc_self]
        exact hto
      · exact (congrFun hheld blk).trans hx
    · exact Or.inr hother
  · intro hmem
    exact absurd hmem (h.not_committed hfrom)

theorem Inv.getInt (h : Inv pages P s) {blk : BlockId} {offset : Int32}
    (hstep : s.step (.getInt t blk offset) = some s') : Inv pages P s' := by
  unfold TxState.step at hstep
  cases hpc : s.pc t <;> simp only [hpc, reduceCtorEq, Option.map_eq_some_iff] at hstep
  obtain ⟨locks, hlock, rfl⟩ := hstep
  have hlocks := h.locks.step (fun _ hl => by cases hl) hlock
  obtain ⟨-, hothers, hheld, hreturn⟩ := sLock_cases h.locks.inv (h.locks.matched hlock) hlock
  have hactive : active (s.pc t) := by
    rw [hpc]
    trivial
  refine h.request (inProgress_of_active hactive) trivial hlocks hothers hheld ?_
  refine (h.txs t).move hactive ?_ ?_ hheld rfl rfl rfl
  · rw [setPc_self]
    trivial
  · rw [setPc_self]
    exact hreturn

theorem Inv.setInt (h : Inv pages P s) {blk : BlockId} {offset val : Int32}
    (hstep : s.step (.setInt t blk offset val) = some s') : Inv pages P s' := by
  unfold TxState.step at hstep
  cases hpc : s.pc t <;> simp only [hpc, reduceCtorEq, Option.map_eq_some_iff] at hstep
  obtain ⟨locks, hlock, rfl⟩ := hstep
  have hlocks := h.locks.step (fun _ hl => by cases hl) hlock
  obtain ⟨-, hothers, hheld, hreturn, -⟩ :=
    xLock_cases h.locks.inv (h.locks.matched hlock) hlock
  have hactive : active (s.pc t) := by
    rw [hpc]
    trivial
  refine h.request (inProgress_of_active hactive) trivial hlocks hothers hheld ?_
  refine (h.txs t).move hactive ?_ ?_ hheld rfl rfl rfl
  · rw [setPc_self]
    trivial
  · rw [setPc_self]
    exact hreturn

/-- A block that nobody has exclusively is as the committed transactions leave it. -/
theorem Inv.pages_eq (h : Inv pages P s) {blk : BlockId}
    (hfree : ∀ t, (s.locks.mgrs t).held blk ≠ some .X) : s.pages blk = P blk := by
  rcases h.clean blk with hsame | ⟨t, -, hheld⟩
  · exact hsame
  · exact absurd hheld (hfree t)

omit [DecidableEq Tx] [Fintype Tx] in
/-- Only a transaction that waits in `getInt` or `setInt` is granted a lock. -/
theorem pcOk_granted {pc : TxPc Tx} {mgr mgr' : ConcurrencyMgr} {blk : BlockId} {lt : LockType}
    (h : PcOk pc mgr) (hheld : mgr'.held = Function.update mgr.held blk (some lt))
    (hcases : (mgr.pc = .sWait blk false ∧ lt = .S ∧ mgr.held blk = none ∧ mgr'.pc = .idle) ∨
      (mgr.pc = .sWait blk true ∧ lt = .S ∧ mgr.held blk = none ∧ mgr'.pc = .xWait blk) ∨
      (mgr.pc = .xWait blk ∧ lt = .X ∧ mgr.held blk = some .S ∧ mgr'.pc = .idle)) :
    active pc ∧ PcOk pc mgr' := by
  have hself : mgr'.held blk = some lt := by
    rw [hheld, Function.update_self]
  have hwait : mgr.pc ≠ .idle ∧ ∀ rest, mgr.pc ≠ .releasing rest := by
    rcases hcases with ⟨hmgr, -⟩ | ⟨hmgr, -⟩ | ⟨hmgr, -⟩
    all_goals
      rw [hmgr]
      constructor
      · intro hpc
        cases hpc
      · intro rest hpc
        cases hpc
  cases pc with
  | fresh => exact absurd h hwait.1
  | ready => exact absurd h hwait.1
  | rolling rest => exact absurd h hwait.1
  | undoing blk' offset val rest => exact absurd h.1 hwait.1
  | ended => exact absurd h hwait.1
  | ending =>
    obtain ⟨rest, hrest⟩ := h
    exact absurd hrest (hwait.2 rest)
  | getInt blk' offset =>
    refine ⟨trivial, ?_⟩
    rcases h with h | ⟨h, -⟩
    · rcases hcases with ⟨hmgr, rfl, -, hidle⟩ | ⟨hmgr, -⟩ | ⟨hmgr, -⟩
      · rw [h] at hmgr
        cases hmgr
        exact Or.inr ⟨hidle, by rw [hself]; decide⟩
      · rw [h] at hmgr
        cases hmgr
      · rw [h] at hmgr
        cases hmgr
    · exact absurd h hwait.1
  | setInt blk' offset val =>
    refine ⟨trivial, ?_⟩
    rcases h with h | h | ⟨h, -⟩
    · rcases hcases with ⟨hmgr, -⟩ | ⟨hmgr, -, -, hnext⟩ | ⟨hmgr, -⟩
      · rw [h] at hmgr
        cases hmgr
      · rw [h] at hmgr
        cases hmgr
        exact Or.inr (Or.inl hnext)
      · rw [h] at hmgr
        cases hmgr
    · rcases hcases with ⟨hmgr, -⟩ | ⟨hmgr, -⟩ | ⟨hmgr, rfl, -, hidle⟩
      · rw [h] at hmgr
        cases hmgr
      · rw [h] at hmgr
        cases hmgr
      · rw [h] at hmgr
        cases hmgr
        exact Or.inr (Or.inr ⟨hidle, hself⟩)
    · exact absurd h hwait.1

theorem Inv.granted (h : Inv pages P s) (hstep : s.step (.granted t) = some s') :
    Inv pages P s' := by
  unfold TxState.step at hstep
  obtain ⟨locks, hlock, rfl⟩ := Option.map_eq_some_iff.mp hstep
  have hlocks := h.locks.step (fun _ hl => by cases hl) hlock
  obtain ⟨-, hothers, blk, lt, hheld, hfree, hcases⟩ := granted_cases h.locks.inv hlock
  have ht := h.txs t
  obtain ⟨hactive, hpcOk⟩ := pcOk_granted ht.pcOk hheld hcases
  have hprogress := inProgress_of_active hactive
  have hclean := h.pages_eq hfree
  have hother : ∀ blk' ≠ blk, (locks.mgrs t).held blk' = (s.locks.mgrs t).held blk' := by
    intro blk' hne
    rw [hheld, Function.update_of_ne hne]
  refine h.of_frame_same (t := t) ⟨fun _ _ => rfl, hothers, fun _ _ => rfl, fun _ _ => rfl⟩
    hlocks ?_ (fun _ => Or.inl rfl) ?_ rfl ?_
  · constructor
    · exact hpcOk
    · intro hfresh
      change s.pc t = .fresh at hfresh
      rw [hfresh] at hactive
      exact hactive.elim
    · intro _ blk' hlocked
      change runCell PageOp.act (P blk') (opsOn PageOp.blk blk' (s.ops t)) = some (s.pages blk')
      by_cases hnone : (s.locks.mgrs t).held blk' = none
      · have hblk : blk' = blk := by
          by_contra hne
          exact hlocked ((hother blk' hne).trans hnone)
        rw [ht.unlocked hactive blk' hnone, hblk, hclean]
        rfl
      · exact ht.locked hactive blk' hnone
    · intro _ blk' hnone
      have hne : blk' ≠ blk := by
        intro heq
        have hself := congrFun hheld blk
        rw [Function.update_self, ← heq] at hself
        exact absurd (hself.symm.trans hnone) (Option.some_ne_none lt)
      exact ht.unlocked hactive blk' ((hother blk' hne).symm.trans hnone)
    · intro _ blk' hx
      change runCell PageOp.act (s.pages blk')
        (opsOn PageOp.blk blk' (pending t s.log (s.pc t))) = some (P blk')
      by_cases heq : blk' = blk
      · rw [heq, ht.unwritten hprogress blk (hfree t), hclean]
        rfl
      · exact ht.exclusive hprogress blk' ((hother blk' heq).symm.trans hx)
    · intro _ blk' hx
      by_cases heq : blk' = blk
      · rw [heq]
        exact ht.unwritten hprogress blk (hfree t)
      · exact ht.unwritten hprogress blk' (fun hold => hx ((hother blk' heq).trans hold))
  · intro blk'
    rcases h.clean_cases t blk' with hsame | ⟨-, hx⟩ | hrest
    · exact Or.inl (Or.inl hsame)
    · have hne : blk' ≠ blk := by
        intro heq
        rw [heq] at hx
        exact hfree t hx
      exact Or.inl (Or.inr ⟨hprogress, (hother blk' hne).trans hx⟩)
    · exact Or.inr hrest
  · intro hmem
    exact absurd hmem (h.not_committed hprogress)

omit [Fintype Tx] in
/-- The transaction is ready again after an access to a page it has locked. -/
theorem TxInv.accessed (h : TxInv P s t) (hactive : active (s.pc t)) (blk : BlockId) (op : PageOp)
    (page : Page) (undo : List PageOp) (hop : op.blk = blk)
    (hlocked : (s.locks.mgrs t).held blk ≠ none) (hact : op.act (s.pages blk) = some page)
    (hpc : s'.pc t = .ready) (hmgr : s'.locks.mgrs t = s.locks.mgrs t)
    (hidle : (s.locks.mgrs t).pc = .idle) (hops : s'.ops t = s.ops t ++ [op])
    (hpages : s'.pages = Function.update s.pages blk page)
    (hlog : undoList t s'.log = undo ++ undoList t s.log)
    (hundo : (s.locks.mgrs t).held blk = some .X →
      runCell PageOp.act page (opsOn PageOp.blk blk undo) = some (s.pages blk))
    (hpure : (s.locks.mgrs t).held blk ≠ some .X → undo = [])
    (hblk : ∀ blk' ≠ blk, opsOn PageOp.blk blk' undo = []) : TxInv P s' t := by
  have hready : active (s'.pc t) := by
    rw [hpc]
    trivial
  have hself : ∀ blk' ≠ blk, opsOn PageOp.blk blk' [op] = [] := by
    intro blk' hne
    exact opsOn_cons_ne PageOp.blk (by rw [hop]; exact Ne.symm hne) []
  have hpending : pending t s'.log (s'.pc t) = undoList t s'.log := pending_active hready
  have hpending' : pending t s.log (s.pc t) = undoList t s.log := pending_active hactive
  constructor
  · rw [hpc, hmgr]
    exact hidle
  · intro hfresh
    rw [hpc] at hfresh
    cases hfresh
  · rw [hmgr, hops, hpages]
    intro _ blk' hheld
    rw [opsOn_append, runCell_append, h.locked hactive blk' hheld]
    by_cases heq : blk' = blk
    · have hone : opsOn PageOp.blk blk [op] = [op] := by
        rw [← hop]
        exact opsOn_cons_self PageOp.blk op []
      rw [heq, hone, Function.update_self]
      exact (runCell_singleton PageOp.act _ op).trans hact
    · rw [hself blk' heq, Function.update_of_ne heq]
      rfl
  · rw [hmgr, hops]
    intro _ blk' hnone
    have hne : blk' ≠ blk := by
      intro heq
      rw [heq] at hnone
      exact hlocked hnone
    rw [opsOn_append, h.unlocked hactive blk' hnone, hself blk' hne]
    rfl
  · rw [hmgr, hpages, hpending, hlog]
    intro _ blk' hx
    have hback := h.exclusive (inProgress_of_active hactive) blk' hx
    rw [hpending'] at hback
    rw [opsOn_append, runCell_append]
    by_cases heq : blk' = blk
    · rw [heq] at hx hback ⊢
      rw [Function.update_self, hundo hx]
      exact hback
    · rw [hblk blk' heq, Function.update_of_ne heq]
      exact hback
  · rw [hmgr, hpending, hlog]
    intro _ blk' hx
    have hback := h.unwritten (inProgress_of_active hactive) blk' hx
    rw [hpending'] at hback
    rw [opsOn_append, hback]
    by_cases heq : blk' = blk
    · rw [heq] at hx ⊢
      rw [hpure hx]
      rfl
    · rw [hblk blk' heq]
      rfl

theorem Inv.read (h : Inv pages P s) (hstep : s.step (.read t) = some s') : Inv pages P s' := by
  unfold TxState.step at hstep
  cases hpc : s.pc t <;> simp only [hpc, reduceCtorEq] at hstep
  rename_i blk offset
  have ht := h.txs t
  have hpcOk := ht.pcOk
  rw [hpc] at hpcOk
  rcases hpcOk with hwait | ⟨hidle, hlocked⟩
  · simp [hwait] at hstep
  · simp only [hidle, Option.map_eq_some_iff] at hstep
    obtain ⟨val, hval, rfl⟩ := hstep
    have hactive : active (s.pc t) := by
      rw [hpc]
      trivial
    have hops : (s.addOp t (.read blk offset val)).ops t = s.ops t ++ [.read blk offset val] := by
      simp [TxState.addOp]
    have hothers : ∀ t' ≠ t, (s.addOp t (.read blk offset val)).ops t' = s.ops t' := by
      intro t' hne
      simp [TxState.addOp, hne]
    have htx : TxInv P ((s.addOp t (.read blk offset val)).setPc t .ready) t :=
      ht.accessed hactive blk (.read blk offset val) (s.pages blk) [] rfl hlocked (if_pos hval)
        (setPc_self _ t _) rfl hidle hops
        (Function.update_eq_self blk s.pages).symm rfl (fun _ => rfl) (fun _ => rfl)
        (fun _ _ => rfl)
    refine h.of_frame_same (t := t) ⟨fun t' hne => setPc_other _ _ hne, fun _ _ => rfl, hothers,
      fun _ _ => rfl⟩ h.locks htx (fun _ => Or.inl rfl) ?_ rfl ?_
    · intro blk'
      rcases h.clean_cases t blk' with hsame | ⟨-, hx⟩ | hrest
      · exact Or.inl (Or.inl hsame)
      · refine Or.inl (Or.inr ⟨?_, hx⟩)
        rw [setPc_self]
        trivial
      · exact Or.inr hrest
    · intro hmem
      exact absurd hmem (h.not_committed (inProgress_of_active hactive))

/-- A page that the transaction has locked exclusively is written. -/
theorem Inv.clean_write (h : Inv pages P s) (s' : TxState Tx) {blk : BlockId} {page : Page}
    (hto : inProgress (s'.pc t))
    (hmgr : s'.locks.mgrs t = s.locks.mgrs t) (hx : (s.locks.mgrs t).held blk = some .X)
    (hpages : s'.pages = Function.update s.pages blk page) :
    (∀ blk', s'.pages blk' = s.pages blk' ∨ ∀ t' ≠ t, (s.locks.mgrs t').held blk' = none) ∧
    ∀ blk', (s'.pages blk' = P blk' ∨
        (inProgress (s'.pc t) ∧ (s'.locks.mgrs t).held blk' = some .X)) ∨
      ∃ t' ≠ t, inProgress (s.pc t') ∧ (s.locks.mgrs t').held blk' = some .X := by
  constructor
  · intro blk'
    by_cases heq : blk' = blk
    · rw [heq]
      exact Or.inr (fun t' hne => held_exclusive h.locks.inv hx hne)
    · left
      rw [hpages, Function.update_of_ne heq]
  · intro blk'
    by_cases heq : blk' = blk
    · rw [heq, hmgr]
      exact Or.inl (Or.inr ⟨hto, hx⟩)
    · rw [hpages, Function.update_of_ne heq, hmgr]
      rcases h.clean_cases t blk' with hsame | ⟨-, hx'⟩ | hrest
      · exact Or.inl (Or.inl hsame)
      · exact Or.inl (Or.inr ⟨hto, hx'⟩)
      · exact Or.inr hrest

theorem Inv.write (h : Inv pages P s) (hstep : s.step (.write t) = some s') : Inv pages P s' := by
  unfold TxState.step at hstep
  cases hpc : s.pc t <;> simp only [hpc, reduceCtorEq] at hstep
  rename_i blk offset val
  have ht := h.txs t
  have hpcOk := ht.pcOk
  rw [hpc] at hpcOk
  rcases hpcOk with hwait | hwait | ⟨hidle, hx⟩
  · simp [hwait] at hstep
  · simp [hwait] at hstep
  · simp only [hidle] at hstep
    obtain ⟨oldVal, hold, hstep⟩ := Option.bind_eq_some_iff.mp hstep
    obtain ⟨page, hpage, hstep⟩ := Option.bind_eq_some_iff.mp hstep
    simp only [Option.some.injEq] at hstep
    have hactive : active (s.pc t) := by
      rw [hpc]
      trivial
    have hprogress := inProgress_of_active hactive
    have hself : s'.pc t = .ready := by
      rw [← hstep]
      exact setPc_self _ t _
    have hlog : s'.log = .setInt t blk offset oldVal :: s.log := by
      rw [← hstep]
      rfl
    have hmgrs : s'.locks = s.locks := by
      rw [← hstep]
      rfl
    have hpages : s'.pages = Function.update s.pages blk page := by
      rw [← hstep]
      rfl
    have hops : s'.ops = Function.update s.ops t (s.ops t ++ [.write blk offset val]) := by
      rw [← hstep]
      rfl
    have hlist : undoList t s'.log = [.write blk offset oldVal] ++ undoList t s.log := by
      rw [hlog]
      exact if_pos rfl
    have hrestore : page.setInt offset.toInt oldVal = .ok (s.pages blk) :=
      Page.setInt_restore (s.pages blk) offset.toInt oldVal val page offset.toInt_lt
        (toOption_eq_some.mp hold) (toOption_eq_some.mp hpage)
    have htx : TxInv P s' t := by
      refine ht.accessed hactive blk (.write blk offset val) page _ rfl
        (by rw [hx]; decide) hpage hself (by rw [hmgrs]) hidle
        (by rw [hops, Function.update_self]) hpages hlist ?_ ?_ ?_
      · intro _
        rw [show opsOn PageOp.blk blk [.write blk offset oldVal] = [.write blk offset oldVal] from
          opsOn_cons_self PageOp.blk (.write blk offset oldVal) [], runCell_singleton]
        exact toOption_eq_some.mpr hrestore
      · intro hnot
        exact absurd hx hnot
      · intro blk' hne
        exact opsOn_cons_ne PageOp.blk (Ne.symm hne) []
    obtain ⟨hsame, hclean⟩ := h.clean_write s'
      (by rw [hself]; trivial) (by rw [hmgrs]) hx hpages
    refine h.of_frame_same (t := t) ⟨?_, fun _ _ => by rw [hmgrs], ?_, ?_⟩
      (by rw [hmgrs]; exact h.locks)
      htx hsame hclean (by rw [← hstep]; rfl) ?_
    · intro t' hne
      rw [← hstep]
      exact setPc_other _ _ hne
    · intro t' hne
      rw [hops, Function.update_of_ne hne]
    · intro t' hne
      rw [hlog]
      exact undoList_other (txNumber_ne hne _ rfl) s.log
    · intro hmem
      exact absurd hmem (h.not_committed hprogress)

/-- The pages that count as committed with the transaction. -/
def committedPages (P : BlockId → Page) (s : TxState Tx) (t : Tx) : BlockId → Page :=
  fun blk => if (s.locks.mgrs t).held blk = none then P blk else s.pages blk

omit [Fintype Tx] in
theorem TxInv.run_ops (h : TxInv P s t) (hactive : active (s.pc t)) :
    Cells.run PageOp.blk PageOp.act P (s.ops t) = some (committedPages P s t) := by
  rw [run_eq_some_iff]
  intro blk
  unfold committedPages
  by_cases hnone : (s.locks.mgrs t).held blk = none
  · rw [if_pos hnone, h.unlocked hactive blk hnone]
    rfl
  · rw [if_neg hnone]
    exact h.locked hactive blk hnone

omit [Fintype Tx] in
theorem txInv_ending (hpc : s.pc t = .ending)
    (hmgr : ∃ rest, (s.locks.mgrs t).pc = .releasing rest) :
    TxInv P s t where
  pcOk := by
    rw [hpc]
    exact hmgr
  fresh := by
    intro hfresh
    rw [hpc] at hfresh
    cases hfresh
  locked := by
    rw [hpc]
    exact fun h => h.elim
  unlocked := by
    rw [hpc]
    exact fun h => h.elim
  exclusive := by
    rw [hpc]
    exact fun h => h.elim
  unwritten := by
    rw [hpc]
    exact fun h => h.elim

/-- The committed transaction comes last in the order, and its pages become visible. -/
theorem Inv.commit (h : Inv pages P s) (hstep : s.step (.commit t) = some s') :
    Inv pages (committedPages P s t) s' := by
  unfold TxState.step at hstep
  cases hpc : s.pc t <;> simp only [hpc, reduceCtorEq, Option.map_eq_some_iff] at hstep
  obtain ⟨locks, hlock, rfl⟩ := hstep
  have hlocks := h.locks.step (fun _ hl => by cases hl) hlock
  obtain ⟨-, hothers, hheld, hreleasing⟩ :=
    release_cases h.locks.inv (h.locks.matched hlock) hlock
  have hactive : active (s.pc t) := by
    rw [hpc]
    trivial
  have hnot := h.not_committed (inProgress_of_active hactive)
  refine h.of_frame (t := t) ⟨fun t' hne => setPc_other _ _ hne, hothers, fun _ _ => rfl, ?_⟩ hlocks
    (txInv_ending (setPc_self _ t _) hreleasing) ?_ ?_ ?_ ?_
  · intro t' hne
    exact undoList_other (txNumber_ne hne _ rfl) s.log
  · intro blk
    unfold committedPages
    cases hold : (s.locks.mgrs t).held blk with
    | none => exact Or.inl ⟨if_pos rfl, rfl⟩
    | some lt =>
      rw [if_neg (Option.some_ne_none lt)]
      cases lt with
      | X => exact Or.inr (fun t' hne => held_exclusive h.locks.inv hold hne)
      | S =>
        refine Or.inl ⟨h.pages_eq ?_, rfl⟩
        intro t' hx
        by_cases heq : t = t'
        · rw [heq, hx] at hold
          cases hold
        · rw [held_exclusive h.locks.inv hx heq] at hold
          cases hold
  · intro blk
    rcases h.clean_cases t blk with hsame | ⟨-, hx⟩ | hrest
    · left
      left
      unfold committedPages
      split
      · exact hsame
      · rfl
    · left
      left
      unfold committedPages
      rw [hx, if_neg (by decide)]
      rfl
    · exact Or.inr hrest
  · intro t' ht'
    rcases List.mem_append.mp ht' with ht' | ht'
    · have hne : t' ≠ t := by
        intro heq
        rw [heq] at ht'
        exact hnot ht'
      rw [setPc_other _ _ hne]
      exact h.order t' ht'
    · rw [List.mem_singleton.mp ht', setPc_self]
      exact Or.inl rfl
  · change Serializability.serial pages s.ops (s.committed ++ [t]) = _
    rw [serial_append, h.serial]
    exact (h.txs t).run_ops hactive

omit [Fintype Tx] in
/-- The undo goes on, with the same writes to come. -/
theorem TxInv.roll (h : TxInv P s t) (hfrom : inProgress (s.pc t)) (hto : ¬ active (s'.pc t))
    (hfresh : s'.pc t ≠ .fresh) (hpcOk : PcOk (s'.pc t) (s'.locks.mgrs t))
    (hheld : (s'.locks.mgrs t).held = (s.locks.mgrs t).held) (hpages : s'.pages = s.pages)
    (hpending : pending t s'.log (s'.pc t) = pending t s.log (s.pc t)) : TxInv P s' t where
  pcOk := hpcOk
  fresh := fun hpc => absurd hpc hfresh
  locked := fun hactive => absurd hactive hto
  unlocked := fun hactive => absurd hactive hto
  exclusive := by
    rw [hheld, hpages, hpending]
    exact fun _ => h.exclusive hfrom
  unwritten := by
    rw [hheld, hpending]
    exact fun _ => h.unwritten hfrom

omit [Fintype Tx] in
theorem TxInv.rolling (h : TxInv P s t) (hfrom : inProgress (s.pc t))
    (hidle : (s.locks.mgrs t).pc = .idle) (rest : List (LogRecord Tx))
    (hpending : undoList t rest = pending t s.log (s.pc t)) :
    TxInv P (s.setPc t (.rolling rest)) t := by
  refine h.roll hfrom ?_ ?_ ?_ rfl rfl ?_
  · rw [setPc_self]
    exact fun hactive => hactive
  · rw [setPc_self]
    intro hpc
    cases hpc
  · rw [setPc_self]
    exact hidle
  · rw [setPc_self]
    exact hpending

theorem Inv.rollback (h : Inv pages P s) (hstep : s.step (.rollback t) = some s') :
    Inv pages P s' := by
  unfold TxState.step at hstep
  cases hpc : s.pc t <;> simp only [hpc, reduceCtorEq, Option.some.injEq] at hstep
  subst hstep
  have hprogress : inProgress (s.pc t) := by
    rw [hpc]
    trivial
  have hpcOk := (h.txs t).pcOk
  rw [hpc] at hpcOk
  refine h.request hprogress trivial h.locks (fun _ _ => rfl) rfl ?_
  refine (h.txs t).rolling hprogress hpcOk s.log ?_
  rw [hpc]
  rfl

/-- One log record of the undo; the block of an own SETINT record is locked already. -/
theorem Inv.undo (h : Inv pages P s) (hstep : s.step (.undo t) = some s') : Inv pages P s' := by
  unfold TxState.step at hstep
  cases hpc : s.pc t with
  | fresh => simp [hpc] at hstep
  | ready => simp [hpc] at hstep
  | getInt blk offset => simp [hpc] at hstep
  | setInt blk offset val => simp [hpc] at hstep
  | undoing blk offset val rest => simp [hpc] at hstep
  | ending => simp [hpc] at hstep
  | ended => simp [hpc] at hstep
  | rolling log =>
    cases log with
    | nil => simp [hpc] at hstep
    | cons logRec rest =>
      have ht := h.txs t
      have hprogress : inProgress (s.pc t) := by
        rw [hpc]
        trivial
      have hidle := ht.pcOk
      rw [hpc] at hidle
      have hskip : ∀ rest', undoList t rest' = undoList t (logRec :: rest) →
          Inv pages P (s.setPc t (.rolling rest')) := by
        intro rest' hlist
        refine h.request hprogress trivial h.locks (fun _ _ => rfl) rfl ?_
        refine ht.rolling hprogress hidle rest' ?_
        rw [hpc]
        exact hlist
      simp only [hpc] at hstep
      unfold TxState.undo at hstep
      split at hstep
      · rename_i hself
        cases logRec with
        | checkpoint => cases hself
        | commit t' =>
          cases hstep
          exact hskip rest rfl
        | rollback t' =>
          cases hstep
          exact hskip rest rfl
        | setString t' blk offset str => cases hstep
        | start t' =>
          cases hstep
          exact hskip [] (if_pos (Option.some.inj hself)).symm
        | setInt t' blk offset val =>
          obtain ⟨locks, hlock, rfl⟩ := Option.map_eq_some_iff.mp hstep
          have hlocks := h.locks.step (fun _ hl => by cases hl) hlock
          obtain ⟨-, hothers, hheld, -, hreturn⟩ :=
            xLock_cases h.locks.inv (h.locks.matched hlock) hlock
          have hlist : undoList t (.setInt t' blk offset val :: rest) =
              .write blk offset val :: undoList t rest := if_pos (Option.some.inj hself)
          have hx : (s.locks.mgrs t).held blk = some .X := by
            by_contra hnot
            have hnil := ht.unwritten hprogress blk hnot
            rw [hpc] at hnil
            change opsOn PageOp.blk blk (undoList t (.setInt t' blk offset val :: rest)) =
              [] at hnil
            rw [hlist] at hnil
            have hcons := opsOn_cons_self PageOp.blk (.write blk offset val) (undoList t rest)
            exact absurd (hcons.symm.trans hnil) (List.cons_ne_nil _ _)
          refine h.request hprogress trivial hlocks hothers hheld ?_
          refine ht.roll hprogress ?_ ?_ ?_ hheld rfl ?_
          · rw [setPc_self]
            exact fun hactive => hactive
          · rw [setPc_self]
            intro hfresh
            cases hfresh
          · rw [setPc_self]
            exact ⟨hreturn hx, (congrFun hheld blk).trans hx⟩
          · rw [setPc_self, hpc]
            exact hlist.symm
      · rename_i hother
        cases hstep
        exact hskip rest (undoList_other hother rest).symm

theorem Inv.undoWrite (h : Inv pages P s) (hstep : s.step (.undoWrite t) = some s') :
    Inv pages P s' := by
  unfold TxState.step at hstep
  cases hpc : s.pc t <;> simp only [hpc, reduceCtorEq] at hstep
  rename_i blk offset val rest
  have ht := h.txs t
  obtain ⟨hidle, hx⟩ : (s.locks.mgrs t).pc = .idle ∧ (s.locks.mgrs t).held blk = some .X := by
    have hpcOk := ht.pcOk
    rw [hpc] at hpcOk
    exact hpcOk
  simp only [hidle, Option.map_eq_some_iff] at hstep
  obtain ⟨page, hpage, hstep⟩ := hstep
  have hprogress : inProgress (s.pc t) := by
    rw [hpc]
    trivial
  have hself : s'.pc t = .rolling rest := by
    rw [← hstep]
    exact setPc_self _ t _
  have hlocks : s'.locks = s.locks := by
    rw [← hstep]
    rfl
  have hlog : s'.log = s.log := by
    rw [← hstep]
    rfl
  have hpages : s'.pages = Function.update s.pages blk page := by
    rw [← hstep]
    rfl
  have hops : s'.ops = s.ops := by
    rw [← hstep]
    rfl
  have hpending : pending t s.log (s.pc t) = .write blk offset val :: undoList t rest := by
    rw [hpc]
    rfl
  have htx : TxInv P s' t := by
    constructor
    · rw [hself, hlocks]
      exact hidle
    · intro hfresh
      rw [hself] at hfresh
      cases hfresh
    · rw [hself]
      exact fun hactive => hactive.elim
    · rw [hself]
      exact fun hactive => hactive.elim
    · rw [hself, hlocks, hpages]
      intro _ blk' hx'
      have hback := ht.exclusive hprogress blk' hx'
      rw [hpending] at hback
      by_cases heq : blk' = blk
      · have hcons := opsOn_cons_self PageOp.blk (.write blk offset val) (undoList t rest)
        rw [heq] at hback ⊢
        change runCell PageOp.act _ (opsOn PageOp.blk blk (undoList t rest)) = _
        rw [show opsOn PageOp.blk blk (.write blk offset val :: undoList t rest) =
          .write blk offset val :: opsOn PageOp.blk blk (undoList t rest) from hcons, runCell_cons,
          show PageOp.act (.write blk offset val) (s.pages blk) = some page from hpage] at hback
        rw [Function.update_self]
        exact hback
      · rw [opsOn_cons_ne PageOp.blk (Ne.symm heq)] at hback
        rw [Function.update_of_ne heq]
        exact hback
    · rw [hself, hlocks]
      intro _ blk' hx'
      have hback := ht.unwritten hprogress blk' hx'
      have hne : blk' ≠ blk := by
        intro heq
        rw [heq] at hx'
        exact hx' hx
      rw [hpending, opsOn_cons_ne PageOp.blk (Ne.symm hne)] at hback
      exact hback
  obtain ⟨hsame, hclean⟩ := h.clean_write s' (t := t) (by rw [hself]; trivial) (by rw [hlocks]) hx
    hpages
  refine h.of_frame_same (t := t) ⟨?_, fun _ _ => by rw [hlocks], fun _ _ => by rw [hops],
    fun _ _ => by rw [hlog]⟩ (by rw [hlocks]; exact h.locks) htx hsame hclean
    (by rw [← hstep]; rfl) ?_
  · intro t' hne
    rw [← hstep]
    exact setPc_other _ _ hne
  · intro hmem
    exact absurd hmem (h.not_committed hprogress)

/-- When the undo is over, the pages are as the committed transactions leave them. -/
theorem Inv.rolledBack (h : Inv pages P s) (hstep : s.step (.rolledBack t) = some s') :
    Inv pages P s' := by
  unfold TxState.step at hstep
  cases hpc : s.pc t with
  | fresh => simp [hpc] at hstep
  | ready => simp [hpc] at hstep
  | getInt blk offset => simp [hpc] at hstep
  | setInt blk offset val => simp [hpc] at hstep
  | undoing blk offset val rest => simp [hpc] at hstep
  | ending => simp [hpc] at hstep
  | ended => simp [hpc] at hstep
  | rolling log =>
    cases log with
    | cons logRec rest => simp [hpc] at hstep
    | nil =>
      simp only [hpc, Option.map_eq_some_iff] at hstep
      obtain ⟨locks, hlock, rfl⟩ := hstep
      have hlocks := h.locks.step (fun _ hl => by cases hl) hlock
      obtain ⟨-, hothers, hheld, hreleasing⟩ :=
        release_cases h.locks.inv (h.locks.matched hlock) hlock
      have hprogress : inProgress (s.pc t) := by
        rw [hpc]
        trivial
      refine h.of_frame_same (t := t) ⟨fun t' hne => setPc_other _ _ hne, hothers,
        fun _ _ => rfl, ?_⟩ hlocks (txInv_ending (setPc_self _ t _) hreleasing)
        (fun _ => Or.inl rfl) ?_ rfl ?_
      · intro t' hne
        exact undoList_other (txNumber_ne hne _ rfl) s.log
      · intro blk
        rcases h.clean_cases t blk with hsame | ⟨-, hx⟩ | hrest
        · exact Or.inl (Or.inl hsame)
        · have hback := (h.txs t).exclusive hprogress blk hx
          rw [hpc] at hback
          exact Or.inl (Or.inl (Option.some.inj hback))
        · exact Or.inr hrest
      · intro hmem
        exact absurd hmem (h.not_committed hprogress)

theorem Inv.unlock (h : Inv pages P s) {blk : BlockId}
    (hstep : s.step (.unlock t blk) = some s') : Inv pages P s' := by
  unfold TxState.step at hstep
  cases hpc : s.pc t <;> simp only [hpc, reduceCtorEq, Option.map_eq_some_iff] at hstep
  obtain ⟨locks, hlock, rfl⟩ := hstep
  have hlocks := h.locks.step (fun _ hl => by cases hl) hlock
  obtain ⟨-, hothers, -, -, hreleasing⟩ := unlock_cases h.locks.inv hlock
  refine h.of_frame_same (t := t) ⟨fun _ _ => rfl, hothers, fun _ _ => rfl, fun _ _ => rfl⟩ hlocks
    (txInv_ending hpc hreleasing) (fun _ => Or.inl rfl) ?_ rfl (fun _ => ⟨rfl, Or.inl hpc⟩)
  intro blk'
  rcases h.clean_cases t blk' with hsame | ⟨hprogress, -⟩ | hrest
  · exact Or.inl (Or.inl hsame)
  · rw [hpc] at hprogress
    exact hprogress.elim
  · exact Or.inr hrest

theorem Inv.clear (h : Inv pages P s) (hstep : s.step (.clear t) = some s') : Inv pages P s' := by
  unfold TxState.step at hstep
  cases hpc : s.pc t <;> simp only [hpc, reduceCtorEq, Option.map_eq_some_iff] at hstep
  obtain ⟨locks, hlock, rfl⟩ := hstep
  have hlocks := h.locks.step (fun _ hl => by cases hl) hlock
  obtain ⟨-, hothers, -, -, -, hidle⟩ := clear_cases h.locks.inv hlock
  have htx : TxInv P ((s.setLocks locks).setPc t .ended) t := by
    constructor
    · rw [setPc_self]
      exact hidle
    · intro hfresh
      rw [setPc_self] at hfresh
      cases hfresh
    · rw [setPc_self]
      exact fun hactive => hactive.elim
    · rw [setPc_self]
      exact fun hactive => hactive.elim
    · rw [setPc_self]
      exact fun hprogress => hprogress.elim
    · rw [setPc_self]
      exact fun hprogress => hprogress.elim
  refine h.of_frame_same (t := t) ⟨fun t' hne => setPc_other _ _ hne, hothers, fun _ _ => rfl,
    fun _ _ => rfl⟩ hlocks htx (fun _ => Or.inl rfl) ?_ rfl ?_
  · intro blk'
    rcases h.clean_cases t blk' with hsame | ⟨hprogress, -⟩ | hrest
    · exact Or.inl (Or.inl hsame)
    · rw [hpc] at hprogress
      exact hprogress.elim
    · exact Or.inr hrest
  · intro _
    rw [setPc_self]
    exact ⟨rfl, Or.inr rfl⟩

theorem step_inv {l : TxLabel Tx} (h : Inv pages P s) (hstep : s.step l = some s') :
    ∃ P', Inv pages P' s' := by
  cases l with
  | begin t => exact ⟨P, h.begin hstep⟩
  | getInt t blk offset => exact ⟨P, h.getInt hstep⟩
  | setInt t blk offset val => exact ⟨P, h.setInt hstep⟩
  | granted t => exact ⟨P, h.granted hstep⟩
  | read t => exact ⟨P, h.read hstep⟩
  | write t => exact ⟨P, h.write hstep⟩
  | commit t => exact ⟨_, h.commit hstep⟩
  | rollback t => exact ⟨P, h.rollback hstep⟩
  | undo t => exact ⟨P, h.undo hstep⟩
  | undoWrite t => exact ⟨P, h.undoWrite hstep⟩
  | rolledBack t => exact ⟨P, h.rolledBack hstep⟩
  | unlock t blk => exact ⟨P, h.unlock hstep⟩
  | clear t => exact ⟨P, h.clear hstep⟩

end Steps

/-- Every transaction that has begun is over. -/
def AllEnded (s : TxState Tx) : Prop := ∀ t, s.pc t = .fresh ∨ s.pc t = .ended

/-- When all transactions are over, the values that the committed ones have read and the
contents of all blocks are those of running them one after another in the order of
their commits. -/
theorem serializable (log : List (LogRecord Tx)) (pages : BlockId → Page)
    (ls : List (TxLabel Tx)) (s : TxState Tx)
    (hrun : Runs.Run (fun s l s' => TxState.step s l = some s') (.new log pages) ls s)
    (hended : AllEnded s) : serial pages s.ops s.committed = some s.pages := by
  have hinv : ∃ P, Inv pages P s := by
    refine hrun.invariant (fun s => ∃ P, Inv pages P s) ?_ ⟨pages, inv_new log pages⟩
    rintro s l s' ⟨P, hP⟩ hstep
    exact step_inv hP hstep
  obtain ⟨P, hP⟩ := hinv
  have hclean : s.pages = P := by
    funext blk
    rcases hP.clean blk with hsame | ⟨t, hprogress, -⟩
    · exact hsame
    · rcases hended t with hpc | hpc
      · rw [hpc] at hprogress
        exact hprogress.elim
      · rw [hpc] at hprogress
        exact hprogress.elim
  rw [hclean]
  exact hP.serial

/-- One transaction writes 7 and commits, the other one reads it, writes and rolls back. -/
def writeCommitRollback (blk : BlockId) : List (TxLabel Bool) :=
  [.begin false, .begin true, .setInt false blk 0 7, .granted false, .granted false,
    .write false, .getInt true blk 0, .commit false, .unlock false blk, .granted true,
    .clear false, .read true, .setInt true blk 4 9, .granted true, .write true, .rollback true,
    .undo true, .undoWrite true, .undo true, .undo true, .undo true, .rolledBack true,
    .unlock true blk, .clear true]

theorem serializable_rolledBack : ∃ s : TxState Bool,
    Runs.Run (fun s l s' => TxState.step s l = some s') (.new [] (fun _ => zeroPage 8))
      (writeCommitRollback ⟨[116], 0⟩) s ∧ AllEnded s ∧
    serial (fun _ => zeroPage 8) s.ops s.committed = some s.pages := by
  have hrun : ∃ s : TxState Bool,
      Runs.Run (fun s l s' => TxState.step s l = some s') (.new [] (fun _ => zeroPage 8))
        (writeCommitRollback ⟨[116], 0⟩) s ∧ AllEnded s := by
    refine ⟨_, Runs.run_of_foldlM rfl, ?_⟩
    intro t
    cases t <;> exact Or.inr rfl
  obtain ⟨s, hs, hended⟩ := hrun
  exact ⟨s, hs, hended, serializable [] _ _ s hs hended⟩

end SampleDB.Serializability
