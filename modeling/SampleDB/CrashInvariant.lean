import SampleDB.LockSteps
import SampleDB.RecoveryPages
import SampleDB.RecoveryScan

/-!
The invariant of crash recovery. A block that is locked exclusively is as its
transaction has left it, a loser of the log has its block locked exclusively, and a
modified buffer belongs to a transaction that has not yet flushed it. While the first
transaction of a session recovers, there is no other one.
-/
namespace SampleDB.CrashInvariant

open Words Pages Blocks LogRecords RecordRoundTrip Logging LogState BufferPool LockSteps Patches
  RecoveryLog Recovery RecoveryPages RecoveryScan
open Locking (ConcurrencyMgr LockState)

instance fintypeInt32 : Fintype Int32 :=
  Fintype.ofEquiv (Fin (2 ^ 32))
    ⟨fun i => ⟨⟨⟨i⟩⟩⟩, fun n => n.toBitVec.toFin, fun _ => rfl, fun _ => rfl⟩

/-- The transaction has not ended, and it is not the one that recovers. -/
def active : Pc → Prop
  | .ready => True
  | .setInt _ _ _ => True
  | .scanning .rollback _ => True
  | .undoing .rollback _ _ _ _ => True
  | .flushing .commit => True
  | .flushing .rollback => True
  | _ => False

def recovering : Pc → Prop
  | .starting => True
  | .scanning (.recover _) _ => True
  | .undoing (.recover _) _ _ _ _ => True
  | .flushing .checkpoint => True
  | .appended .checkpoint _ => True
  | .releasing .checkpoint => True
  | _ => False

/-- The transaction may have modified buffers. -/
def modifies : Pc → Prop
  | .appended _ _ => False
  | .releasing _ => False
  | pc => active pc ∨ recovering pc

theorem modifies_of_active {pc : Pc} (h : active pc) : modifies pc := by
  cases pc <;> first | exact Or.inl h | exact h.elim

/-- The transaction waits for the exclusive lock of the block, or has it. -/
def Waits (blk : BlockId) (mgr : ConcurrencyMgr) : Prop :=
  mgr.pc = .sWait blk true ∨ mgr.pc = .xWait blk ∨ (mgr.pc = .idle ∧ mgr.held blk = some .X)

/-- The manager's call fits the transaction's. -/
def LockAt : Pc → ConcurrencyMgr → Prop
  | .fresh, mgr => mgr.pc = .idle ∧ ∀ blk, mgr.held blk = none
  | .setInt blk _ _, mgr => Waits blk mgr
  | .undoing _ blk _ _ _, mgr => Waits blk mgr
  | .releasing _, mgr => ∃ rest, mgr.pc = .releasing rest
  | _, mgr => mgr.pc = .idle

/-- The page as transactions read it. -/
def pageOf (s : Db) (blk : BlockId) : Page := view s.disk s.pool blk

/-- The blocks that the transaction has locked are as its updates leave them. -/
def Forward (pages : BlockId → Page) (s : Db) (t : Int32) : Prop :=
  ∀ blk, (s.locks.mgrs t).held blk = some .X →
    pageOf s blk = redoAll (own t s.entries) (committedPages pages s.entries) blk

/-- Undoing `es` is what is left to do of the loop `k`. -/
structure Pending (pages : BlockId → Page) (s : Db) (t : Int32) (k : Scan) (es : List Entry) :
    Prop where
  losers : ∀ e ∈ es, e ∈ losers [] s.entries
  byTx : k = .rollback → ∀ e ∈ es, byTx t e = true
  restores : ∀ blk, (k = .rollback → (s.locks.mgrs t).held blk = some .X) →
    applyAll (undosOn blk es) (pageOf s blk) = committedPages pages s.entries blk

/-- What the transaction relies on where it stands. -/
def DataAt (B : BlockSize) (pages : BlockId → Page) (s : Db) (t : Int32) : Pc → Prop
  | .ready => Forward pages s t
  | .setInt blk _ _ => Forward pages s t ∧ blk.fileName.length + 32 ≤ B.bytes
  | .scanning k it => ∃ rest, Scans B s.log it rest ∧ Pending pages s t k (toUndo t k rest)
  | .undoing k blk offset val it => ∃ e t' rest, e.logRec = .setInt t' blk offset val ∧
      Scans B s.log it rest ∧ Pending pages s t k (e :: toUndo t k rest)
  | .flushing .commit => Forward pages s t
  | .flushing .rollback => Pending pages s t .rollback []
  | .flushing .checkpoint => Pending pages s t (.recover []) []
  | .appended .checkpoint lsn => losers [] s.entries = [] ∧ lsn = s.log.latestLsn
  | .releasing .checkpoint => losers [] s.entries = [] ∧ unsaved s.log = 0
  | _ => True

structure TxInv (B : BlockSize) (pages : BlockId → Page) (s : Db) (t : Int32) : Prop where
  lockAt : LockAt (s.pc t) (s.locks.mgrs t)
  owned : active (s.pc t) → own t s.entries = (losers [] s.entries).filter (byTx t)
  unowned : recovering (s.pc t) → own t s.entries = []
  data : DataAt B pages s t (s.pc t)
  phase : s.pc t ≠ .fresh → (recovering (s.pc t) ↔ s.recovered = false)
  number : s.pc t ≠ .fresh → 1 ≤ t.toInt ∧ t.toInt ≤ s.nextTxNum.toInt

/-- The transaction of a loser has the block of the update locked. -/
def LosersLocked (s : Db) : Prop :=
  ∀ e ∈ losers [] s.entries, ∀ t blk offset old, e.logRec = .setInt t blk offset old →
    active (s.pc t) ∧ (s.locks.mgrs t).held blk = some .X

/-- The transaction of a modified buffer has its block locked. -/
def ModifiedLocked (s : Db) : Prop :=
  ∀ blk buf, s.pool blk = some buf → 0 ≤ buf.txnum →
    ∃ t, buf.txnum = t.toInt ∧ (s.locks.mgrs t).held blk = some .X ∧ modifies (s.pc t)

structure Inv (B : BlockSize) (pages : BlockId → Page) (s : Db) : Prop where
  log : LogOk B s.log s.entries
  lsn : 0 ≤ s.log.latestLsn
  data : PagesInv B.bytes pages s.entries (unsaved s.log) s.log.latestLsn s.disk s.pool
  locks : LockSafety.Inv s.locks
  txs : ∀ t, TxInv B pages s t
  locked : s.recovered = true → LosersLocked s
  modified : ModifiedLocked s
  next : 0 ≤ s.nextTxNum.toInt
  first : s.recovered = false → s.nextTxNum.toInt ≤ 1
  new : s.isNew = true → s.recovered = false → losers [] s.entries = []

variable {B : BlockSize} {pages : BlockId → Page} {s s' : Db} {t : Int32}

/-- What a step leaves to a transaction that does not take it. -/
structure Keeps (B : BlockSize) (pages : BlockId → Page) (s s' : Db) (t : Int32) : Prop where
  pc : s'.pc t = s.pc t
  mgr : s'.locks.mgrs t = s.locks.mgrs t
  next : s.nextTxNum.toInt ≤ s'.nextTxNum.toInt
  log : Extends B s.log s'.log
  recovered : s.pc t ≠ .fresh → s'.recovered = s.recovered
  active : active (s.pc t) → own t s'.entries = own t s.entries ∧
    (losers [] s'.entries).filter (byTx t) = (losers [] s.entries).filter (byTx t) ∧
    ∀ blk, (s.locks.mgrs t).held blk = some .X → pageOf s' blk = pageOf s blk ∧
      committedPages pages s'.entries blk = committedPages pages s.entries blk
  recovering : recovering (s.pc t) → s'.entries = s.entries ∧ pageOf s' = pageOf s ∧
    s'.log.latestLsn = s.log.latestLsn ∧ (unsaved s.log = 0 → unsaved s'.log = 0)

theorem Keeps.forward (h : Keeps B pages s s' t) (hactive : CrashInvariant.active (s.pc t))
    (hold : Forward pages s t) : Forward pages s' t := by
  obtain ⟨hown, -, hsame⟩ := h.active hactive
  intro blk hheld
  rw [h.mgr] at hheld
  obtain ⟨hpage, hcommitted⟩ := hsame blk hheld
  rw [hpage, hown, hold blk hheld]
  exact redoAll_congr hcommitted.symm

theorem Keeps.pending (h : Keeps B pages s s' t) {k : Scan} {es : List Entry}
    (hk : (k = .rollback ∧ CrashInvariant.active (s.pc t)) ∨
      (k ≠ .rollback ∧ CrashInvariant.recovering (s.pc t)))
    (hold : Pending pages s t k es) : Pending pages s' t k es := by
  rcases hk with ⟨rfl, hactive⟩ | ⟨hne, hrec⟩
  · obtain ⟨-, hlosers, hsame⟩ := h.active hactive
    constructor
    · intro e he
      have hmem := List.mem_filter.mpr ⟨hold.losers e he, hold.byTx rfl e he⟩
      rw [← hlosers] at hmem
      exact (List.mem_filter.mp hmem).1
    · exact hold.byTx
    · intro blk hheld
      have hheld := hheld rfl
      rw [h.mgr] at hheld
      obtain ⟨hpage, hcommitted⟩ := hsame blk hheld
      rw [hpage, hcommitted]
      exact hold.restores blk (fun _ => hheld)
  · obtain ⟨hentries, hpage, -⟩ := h.recovering hrec
    constructor
    · rw [hentries]
      exact hold.losers
    · exact fun heq => absurd heq hne
    · intro blk _
      rw [hentries, hpage]
      exact hold.restores blk (fun heq => absurd heq hne)

theorem Keeps.data (h : Keeps B pages s s' t) (hold : DataAt B pages s t (s.pc t)) :
    DataAt B pages s' t (s.pc t) := by
  have hactive := h.active
  have hrec := h.recovering
  have hforward := h.forward
  have hpending := @Keeps.pending _ _ _ _ _ h
  cases hpc : s.pc t with
  | fresh => trivial
  | starting => trivial
  | ended => trivial
  | ready =>
    rw [hpc] at hold hforward
    exact hforward trivial hold
  | setInt blk offset val =>
    rw [hpc] at hold hforward
    exact ⟨hforward trivial hold.1, hold.2⟩
  | scanning k it =>
    rw [hpc] at hold hpending
    obtain ⟨rest, hscan, hold⟩ := hold
    refine ⟨rest, hscan.extends h.log, hpending ?_ hold⟩
    cases k with
    | rollback => exact Or.inl ⟨rfl, trivial⟩
    | recover fin => exact Or.inr ⟨by (intro heq; cases heq), trivial⟩
  | undoing k blk offset val it =>
    rw [hpc] at hold hpending
    obtain ⟨e, t', rest, hrecord, hscan, hold⟩ := hold
    refine ⟨e, t', rest, hrecord, hscan.extends h.log, hpending ?_ hold⟩
    cases k with
    | rollback => exact Or.inl ⟨rfl, trivial⟩
    | recover fin => exact Or.inr ⟨by (intro heq; cases heq), trivial⟩
  | flushing e =>
    rw [hpc] at hold hpending hforward
    cases e with
    | commit => exact hforward trivial hold
    | rollback => exact hpending (Or.inl ⟨rfl, trivial⟩) hold
    | checkpoint => exact hpending (Or.inr ⟨by (intro heq; cases heq), trivial⟩) hold
  | appended e lsn =>
    cases e with
    | commit => trivial
    | rollback => trivial
    | checkpoint =>
      rw [hpc] at hold hrec
      obtain ⟨hentries, -, hlatest, -⟩ := hrec trivial
      exact ⟨by rw [hentries]; exact hold.1, by rw [hlatest]; exact hold.2⟩
  | releasing e =>
    cases e with
    | commit => trivial
    | rollback => trivial
    | checkpoint =>
      rw [hpc] at hold hrec
      obtain ⟨hentries, -, -, hsaved⟩ := hrec trivial
      exact ⟨by rw [hentries]; exact hold.1, hsaved hold.2⟩

theorem TxInv.keep (h : TxInv B pages s t) (hkeep : Keeps B pages s s' t) :
    TxInv B pages s' t where
  lockAt := by
    rw [hkeep.pc, hkeep.mgr]
    exact h.lockAt
  owned := by
    rw [hkeep.pc]
    intro hactive
    obtain ⟨hown, hlosers, -⟩ := hkeep.active hactive
    rw [hown, hlosers]
    exact h.owned hactive
  unowned := by
    rw [hkeep.pc]
    intro hrec
    rw [(hkeep.recovering hrec).1]
    exact h.unowned hrec
  data := by
    rw [hkeep.pc]
    exact hkeep.data h.data
  phase := by
    rw [hkeep.pc]
    intro hfresh
    rw [hkeep.recovered hfresh]
    exact h.phase hfresh
  number := by
    rw [hkeep.pc]
    intro hfresh
    have hnum := h.number hfresh
    have hnext := hkeep.next
    exact ⟨hnum.1, by omega⟩

section Facts

theorem not_recovering_of_active {pc : Pc} (h : active pc) : ¬ recovering pc := by
  intro hrec
  cases pc with
  | scanning k it => cases k <;> first | exact hrec | exact h
  | undoing k blk offset val it => cases k <;> first | exact hrec | exact h
  | flushing e => cases e <;> first | exact hrec | exact h
  | _ => first | exact hrec | exact h

theorem ne_fresh_of_active {pc : Pc} (h : active pc) : pc ≠ .fresh := by
  intro heq
  rw [heq] at h
  exact h

theorem ne_fresh_of_recovering {pc : Pc} (h : recovering pc) : pc ≠ .fresh := by
  intro heq
  rw [heq] at h
  exact h

theorem Inv.recovered (h : Inv B pages s) (hactive : active (s.pc t)) : s.recovered = true := by
  by_contra hrec
  rw [Bool.not_eq_true] at hrec
  exact not_recovering_of_active hactive
    (((h.txs t).phase (ne_fresh_of_active hactive)).mpr hrec)

/-- Before the recovery is over there is at most one transaction. -/
theorem Inv.alone (h : Inv B pages s) (hrec : s.recovered = false) {t t' : Int32}
    (ht : s.pc t ≠ .fresh) (ht' : s.pc t' ≠ .fresh) : t' = t := by
  have hfirst := h.first hrec
  have hnum := (h.txs t).number ht
  have hnum' := (h.txs t').number ht'
  exact Int32.toInt_inj.mp (by omega)

theorem Inv.not_recovering (h : Inv B pages s) {t t' : Int32} (ht : s.pc t ≠ .fresh)
    (hne : t' ≠ t) : ¬ recovering (s.pc t') := by
  intro hrec
  have hfresh := ne_fresh_of_recovering hrec
  exact hne (h.alone (((h.txs t').phase hfresh).mp hrec) ht hfresh)

/-- The losers on a block are updates of the transaction that has it locked. -/
theorem Inv.loser_byTx (h : Inv B pages s) (hrec : s.recovered = true) {blk : BlockId}
    (hx : (s.locks.mgrs t).held blk = some .X) :
    ∀ e ∈ losers [] s.entries, e.undoOn blk ≠ none → byTx t e = true := by
  intro e he hundo
  obtain ⟨p, hp⟩ := Option.ne_none_iff_exists'.mp hundo
  obtain ⟨t', offset, old, hrecord, -⟩ := undoOn_eq_some hp
  obtain ⟨-, hx'⟩ := h.locked hrec e he t' blk offset old hrecord
  have heq : t' = t := by
    by_contra hne
    rw [held_exclusive h.locks hx hne] at hx'
    cases hx'
  unfold byTx
  rw [hrecord, heq]
  exact decide_eq_true rfl

theorem Inv.loser_none (h : Inv B pages s) (hrec : s.recovered = true) {blk : BlockId}
    (hx : (s.locks.mgrs t).held blk ≠ some .X) :
    ∀ e ∈ losers [] s.entries, byTx t e = true → e.undoOn blk = none := by
  intro e he hby
  by_contra hundo
  obtain ⟨p, hp⟩ := Option.ne_none_iff_exists'.mp hundo
  obtain ⟨t', offset, old, hrecord, -⟩ := undoOn_eq_some hp
  obtain ⟨-, hx'⟩ := h.locked hrec e he t' blk offset old hrecord
  unfold byTx at hby
  rw [hrecord] at hby
  cases of_decide_eq_true hby
  exact hx hx'

/-- No loser is on a block that nobody has locked exclusively. -/
theorem Inv.loser_free (h : Inv B pages s) (hrec : s.recovered = true) {blk : BlockId}
    (hfree : ∀ t, (s.locks.mgrs t).held blk ≠ some .X) :
    ∀ e ∈ losers [] s.entries, e.undoOn blk = none := by
  intro e he
  by_contra hundo
  obtain ⟨p, hp⟩ := Option.ne_none_iff_exists'.mp hundo
  obtain ⟨t', offset, old, hrecord, -⟩ := undoOn_eq_some hp
  exact hfree t' (h.locked hrec e he t' blk offset old hrecord).2

theorem Inv.pageOf_free (h : Inv B pages s) (hrec : s.recovered = true) {blk : BlockId}
    (hfree : ∀ t, (s.locks.mgrs t).held blk ≠ some .X) :
    pageOf s blk = committedPages pages s.entries blk := by
  have hundoes := h.data.undoes_view blk
  unfold Undoes at hundoes
  rw [undosOn_eq_nil (h.loser_free hrec hfree)] at hundoes
  exact hundoes

/-- The buffers of the block of a transaction that has flushed them. -/
theorem Inv.pageOf_flushed (h : Inv B pages s) (hflushed : s.Flushed t) {blk : BlockId}
    (howner : ∀ t', (s.locks.mgrs t').held blk = some .X → modifies (s.pc t') → t' = t) :
    pageOf s blk = s.disk blk := by
  cases hbuf : s.pool blk with
  | none =>
    unfold pageOf view
    rw [hbuf]
  | some buf =>
    have hpage : pageOf s blk = buf.contents := view_some hbuf
    rw [hpage]
    apply (h.data.buffer blk buf hbuf).2.2
    by_contra hmod
    obtain ⟨t', htx, hx, hmodifies⟩ := h.modified blk buf hbuf (by omega)
    rw [howner t' hx hmodifies] at htx
    exact hflushed blk buf hbuf htx

end Facts

section Locks

variable {locks : LockState Int32} {pc : Int32 → Pc}

/-- A step that changes nothing but where one transaction and its locks stand. -/
theorem keeps_locks (hpc : ∀ t' ≠ t, pc t' = s.pc t')
    (hmgrs : ∀ t' ≠ t, locks.mgrs t' = s.locks.mgrs t') {t' : Int32} (hne : t' ≠ t) :
    Keeps B pages s { s with locks := locks, pc := pc } t' where
  pc := hpc t' hne
  mgr := hmgrs t' hne
  next := Int.le_refl _
  log := Extends.refl B s.log
  recovered := fun _ => rfl
  active := fun _ => ⟨rfl, rfl, fun _ _ => ⟨rfl, rfl⟩⟩
  recovering := fun _ => ⟨rfl, rfl, rfl, id⟩

theorem Inv.of_locks (h : Inv B pages s) (hpc : ∀ t' ≠ t, pc t' = s.pc t')
    (hmgrs : ∀ t' ≠ t, locks.mgrs t' = s.locks.mgrs t') (hlocks : LockSafety.Inv locks)
    (htx : TxInv B pages { s with locks := locks, pc := pc } t)
    (hactive : active (s.pc t) → active (pc t) ∧
      ∀ blk, (s.locks.mgrs t).held blk = some .X → (locks.mgrs t).held blk = some .X)
    (hmod : modifies (s.pc t) → modifies (pc t) ∧
      ∀ blk, (s.locks.mgrs t).held blk = some .X → (locks.mgrs t).held blk = some .X) :
    Inv B pages { s with locks := locks, pc := pc } where
  log := h.log
  lsn := h.lsn
  data := h.data
  locks := hlocks
  txs := by
    intro t'
    by_cases heq : t' = t
    · rw [heq]
      exact htx
    · exact (h.txs t').keep (keeps_locks hpc hmgrs heq)
  locked := by
    intro hrec e he t' blk offset old hrecord
    obtain ⟨hold, hx⟩ := h.locked hrec e he t' blk offset old hrecord
    dsimp only
    by_cases heq : t' = t
    · rw [heq] at hold hx ⊢
      exact ⟨(hactive hold).1, (hactive hold).2 blk hx⟩
    · rw [hpc t' heq, hmgrs t' heq]
      exact ⟨hold, hx⟩
  modified := by
    intro blk buf hbuf htx
    obtain ⟨t', hnum, hx, hold⟩ := h.modified blk buf hbuf htx
    refine ⟨t', hnum, ?_⟩
    dsimp only
    by_cases heq : t' = t
    · rw [heq] at hold hx ⊢
      exact ⟨(hmod hold).2 blk hx, (hmod hold).1⟩
    · rw [hpc t' heq, hmgrs t' heq]
      exact ⟨hx, hold⟩
  next := h.next
  first := h.first
  new := h.new

theorem TxInv.move (h : TxInv B pages s t) (hfresh : s.pc t ≠ .fresh)
    (hlockAt : LockAt (pc t) (locks.mgrs t)) (hactive : active (pc t) → active (s.pc t))
    (hrec : recovering (pc t) ↔ recovering (s.pc t))
    (hdata : DataAt B pages { s with locks := locks, pc := pc } t (pc t)) :
    TxInv B pages { s with locks := locks, pc := pc } t where
  lockAt := hlockAt
  owned := fun hpc => h.owned (hactive hpc)
  unowned := fun hpc => h.unowned (hrec.mp hpc)
  data := hdata
  phase := fun _ => hrec.trans (h.phase hfresh)
  number := fun _ => h.number hfresh

/-- Every block that is locked exclusively was so before, or nobody had it. -/
def Relocks (s : Db) (t : Int32) (locks : LockState Int32) : Prop :=
  ∀ blk, (locks.mgrs t).held blk = some .X →
    (s.locks.mgrs t).held blk = some .X ∨ ∀ t', (s.locks.mgrs t').held blk ≠ some .X

theorem relocks_of_held (h : (locks.mgrs t).held = (s.locks.mgrs t).held) : Relocks s t locks := by
  intro blk hx
  rw [h] at hx
  exact Or.inl hx

theorem Inv.forward_locks (h : Inv B pages s) (hactive : active (s.pc t))
    (hold : Forward pages s t) (hlocks : Relocks s t locks) :
    Forward pages { s with locks := locks, pc := pc } t := by
  intro blk hx
  rcases hlocks blk hx with hx | hfree
  · exact hold blk hx
  · have hrec := h.recovered hactive
    refine (h.pageOf_free hrec hfree).trans (redoAll_ne ?_ _).symm
    intro e he
    rw [(h.txs t).owned hactive] at he
    exact h.loser_free hrec hfree e (List.mem_filter.mp he).1

theorem Inv.pending_locks (h : Inv B pages s) {k : Scan} {es : List Entry}
    (hactive : k = .rollback → active (s.pc t)) (hold : Pending pages s t k es)
    (hlocks : Relocks s t locks) : Pending pages { s with locks := locks, pc := pc } t k es where
  losers := hold.losers
  byTx := hold.byTx
  restores := by
    intro blk hscope
    by_cases hk : k = .rollback
    · rcases hlocks blk (hscope hk) with hx | hfree
      · exact hold.restores blk (fun _ => hx)
      · have hrec := h.recovered (hactive hk)
        rw [undosOn_eq_nil (fun e he => h.loser_free hrec hfree e (hold.losers e he))]
        exact h.pageOf_free hrec hfree
    · exact hold.restores blk (fun heq => absurd heq hk)

theorem Inv.data_locks (h : Inv B pages s) (hlocks : Relocks s t locks) :
    DataAt B pages { s with locks := locks, pc := pc } t (s.pc t) := by
  have hdata := (h.txs t).data
  have hforward := @Inv.forward_locks _ _ _ t locks pc h
  have hpending := @Inv.pending_locks _ _ _ t locks pc h
  cases hpc : s.pc t with
  | fresh => trivial
  | starting => trivial
  | ended => trivial
  | ready =>
    rw [hpc] at hdata hforward
    exact hforward trivial hdata hlocks
  | setInt blk offset val =>
    rw [hpc] at hdata hforward
    exact ⟨hforward trivial hdata.1 hlocks, hdata.2⟩
  | scanning k it =>
    rw [hpc] at hdata hpending
    obtain ⟨rest, hscan, hold⟩ := hdata
    exact ⟨rest, hscan, hpending (fun hk => by rw [hk]; trivial) hold hlocks⟩
  | undoing k blk offset val it =>
    rw [hpc] at hdata hpending
    obtain ⟨e, t', rest, hrecord, hscan, hold⟩ := hdata
    exact ⟨e, t', rest, hrecord, hscan, hpending (fun hk => by rw [hk]; trivial) hold hlocks⟩
  | flushing e =>
    rw [hpc] at hdata hpending hforward
    cases e with
    | commit => exact hforward trivial hdata hlocks
    | rollback => exact hpending (fun _ => trivial) hdata hlocks
    | checkpoint => exact hpending (fun hk => by cases hk) hdata hlocks
  | appended e lsn =>
    rw [hpc] at hdata
    cases e with
    | commit => trivial
    | rollback => trivial
    | checkpoint => exact hdata
  | releasing e =>
    rw [hpc] at hdata
    cases e with
    | commit => trivial
    | rollback => trivial
    | checkpoint => exact hdata

end Locks

end SampleDB.CrashInvariant
