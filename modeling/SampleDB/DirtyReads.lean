import SampleDB.PageValues
import SampleDB.Serializability

/-!
Dirty reads. One location is followed through a run. It holds the value of the newest
update that is committed, or of the newest update of the transaction in progress that has
locked it exclusively, and the records that a rollback has still to undo lead back to the
committed value. A transaction may be destroyed unfinished only before its first write.
-/
namespace SampleDB.DirtyReads

open Slices Words Pages Blocks LogRecords Locking LockSteps Rollback BeforeImage Endings PageValues

variable {Tx : Type} [DecidableEq Tx]

/-- The value of the newest update of the location by one of these transactions. -/
def newest (updates : List (Update Tx)) (loc : Location) (P : Tx → Bool) : Option Value :=
  (updates.find? (fun u => decide (u.location = loc) && P u.txNum)).map Update.val

def valueAt (pages : BlockId → Page) (loc : Location) : Result Value :=
  get (pages loc.blk) loc.offset loc.kind

/-- The value, or the initial one. -/
def orInitial (pages : BlockId → Page) (loc : Location) (v : Option Value) : Result Value :=
  (v.map Except.ok).getD (valueAt pages loc)

/-- No update shares bytes with the location without being one of it; `cap` bounds the bytes
that its values take. -/
structure Apart (pages : BlockId → Page) (updates : List (Update Tx)) (loc : Location) (cap : ℕ) :
    Prop where
  initial : ∀ v, valueAt pages loc = .ok v → v.size ≤ cap
  own : ∀ u ∈ updates, u.location = loc → u.val.size ≤ cap
  other : ∀ u ∈ updates, u.blk = loc.blk → u.location ≠ loc →
    loc.offset.toInt + cap ≤ u.offset.toInt ∨
      u.offset.toInt + u.val.size ≤ loc.offset.toInt

/-- The first update of a location by a transaction. -/
def first (updates : List (Update Tx)) (t : Tx) (loc : Location) : Option (Update Tx) :=
  (updates.filter (fun u => u.location = loc ∧ u.txNum = t)).getLast?

/-- A rollback finds the value in the log. -/
def Restorable : Option Value → Prop
  | some (.int _) => True
  | some (.string s) => s = []
  | none => False

/-- The first update of each location was logged, and found no string but the empty one. -/
def Undoable (s : TxState Tx) (t : Tx) : Prop :=
  ∀ loc u, first s.updates t loc = some u → Restorable u.old

/-- A transaction is destroyed before its first write, or not at all. -/
def Proceeds (s : TxState Tx) : TxLabel Tx → Prop
  | .set _ _ _ val _ => IsShort val
  | .rollback t => Undoable s t
  | .destroy t => ∀ u ∈ s.updates, u.txNum ≠ t
  | _ => True

/-- Where the transaction stands towards the locks. -/
def lockPc : TxPc Tx → Transactions.TxPc Tx
  | .fresh => .fresh
  | .ready => .ready
  | .get loc => .getInt loc.blk loc.offset
  | .set blk offset _ _ => .setInt blk offset 0
  | .rolling _ => .ready
  | .undoing blk offset _ _ => .setInt blk offset 0
  | .ending => .ending
  | .ended => .ended

/-- The transaction goes on to access pages. -/
def active : TxPc Tx → Prop
  | .ready | .get _ | .set _ _ _ _ => True
  | _ => False

def undoes : TxPc Tx → Prop
  | .rolling _ | .undoing _ _ _ _ => True
  | _ => False

/-- The transaction may have written pages, and neither committed nor restored them. -/
def inProgress (pc : TxPc Tx) : Prop := active pc ∨ undoes pc

/-- The values that a rollback puts back at the location, up to the START record. -/
def undoValues (t : Tx) (loc : Location) : List (LogRecord Tx) → List Value
  | [] => []
  | r :: log =>
      if r = .start t then []
      else if r.txNumber = some t then
        match undone r with
        | some (blk, offset, val) =>
          if (⟨blk, offset, kind val⟩ : Location) = loc then val :: undoValues t loc log
          else undoValues t loc log
        | none => undoValues t loc log
      else undoValues t loc log

/-- The values that are still to come. -/
def pending (t : Tx) (loc : Location) (log : List (LogRecord Tx)) : TxPc Tx → List Value
  | .rolling rest => undoValues t loc rest
  | .undoing blk offset val rest =>
      if (⟨blk, offset, kind val⟩ : Location) = loc then val :: undoValues t loc rest
      else undoValues t loc rest
  | _ => undoValues t loc log

def Owns (s : TxState Tx) (t : Tx) (loc : Location) : Prop :=
  ∃ u ∈ s.updates, u.txNum = t ∧ u.location = loc

/-- The value that the committed transactions leave. -/
def committedValue (pages : BlockId → Page) (s : TxState Tx) (loc : Location) :
    Result Value :=
  orInitial pages loc (newest s.updates loc s.committed.contains)

/-- What holds of one transaction. -/
structure TxInv (pages : BlockId → Page) (loc : Location) (s : TxState Tx) (t : Tx) :
    Prop where
  pcOk : Serializability.PcOk (lockPc (s.pc t)) (s.locks.mgrs t)
  begun : s.pc t = .fresh → ∀ u ∈ s.updates, u.txNum ≠ t
  short : ∀ blk offset val okToLog, s.pc t = .set blk offset val okToLog → IsShort val
  small : ∀ blk offset val rest, s.pc t = .undoing blk offset val rest → val.size = 4
  locked : inProgress (s.pc t) → Owns s t loc →
    (s.locks.mgrs t).held loc.blk = some .X
  covered : inProgress (s.pc t) → ∀ loc', ¬ Owns s t loc' →
    pending t loc' s.log (s.pc t) = []
  seen : active (s.pc t) → Owns s t loc →
    ∃ u, s.updates.find? (fun u => u.location = loc) = some u ∧ u.txNum = t ∧
      valueAt s.pages loc = .ok u.val
  restores : active (s.pc t) → ∀ u, first s.updates t loc = some u → Restorable u.old →
    ∃ v, (undoValues t loc s.log).getLast? = some v ∧ committedValue pages s loc = .ok v
  leadsBack : undoes (s.pc t) → Owns s t loc →
    ((pending t loc s.log (s.pc t)).getLast?.map Except.ok).getD (valueAt s.pages loc) =
      committedValue pages s loc

structure Inv [Fintype Tx] (B : BlockSize) (pages : BlockId → Page) (loc : Location) (cap : ℕ)
    (s : TxState Tx) : Prop where
  locks : LocksOk s.locks
  length : ∀ blk, (s.pages blk).length = B.bytes
  size : ∀ v, valueAt s.pages loc = .ok v → v.size ≤ cap
  txs : ∀ t, TxInv pages loc s t
  clean : valueAt s.pages loc = committedValue pages s loc ∨
    ∃ t, inProgress (s.pc t) ∧ Owns s t loc
  ending : ∀ t ∈ s.committed, s.pc t = .ending ∨ s.pc t = .ended

variable {pages : BlockId → Page} {loc : Location} {cap : ℕ} {s s' : TxState Tx} {t : Tx}

section Basics

theorem setPc_self (s : TxState Tx) (t : Tx) (pc : TxPc Tx) : (s.setPc t pc).pc t = pc := by
  simp [TxState.setPc]

theorem setPc_other (s : TxState Tx) {t t' : Tx} (pc : TxPc Tx) (h : t' ≠ t) :
    (s.setPc t pc).pc t' = s.pc t' := by
  simp [TxState.setPc, h]

omit [DecidableEq Tx] in
theorem newest_cons (u : Update Tx) (updates : List (Update Tx)) (loc : Location) (P : Tx → Bool) :
    newest (u :: updates) loc P =
      if u.location = loc ∧ P u.txNum = true then some u.val else newest updates loc P := by
  unfold newest
  rw [List.find?_cons]
  by_cases h : u.location = loc ∧ P u.txNum = true
  · rw [if_pos h, h.2, decide_eq_true h.1]
    rfl
  · rw [if_neg h]
    have hfalse : (decide (u.location = loc) && P u.txNum) = false := by
      by_cases hloc : u.location = loc
      · rw [decide_eq_true hloc, Bool.true_and]
        exact Bool.eq_false_iff.mpr (fun hP => h ⟨hloc, hP⟩)
      · rw [decide_eq_false hloc]
        rfl
    rw [hfalse]

omit [DecidableEq Tx] in
theorem newest_congr {updates : List (Update Tx)} {P Q : Tx → Bool}
    (h : ∀ u ∈ updates, u.location = loc → P u.txNum = Q u.txNum) :
    newest updates loc P = newest updates loc Q := by
  induction updates with
  | nil => rfl
  | cons u updates ih =>
    rw [List.forall_mem_cons] at h
    rw [newest_cons, newest_cons, ih h.2]
    by_cases hloc : u.location = loc
    · rw [h.1 hloc]
    · rw [if_neg (fun hu => hloc hu.1), if_neg (fun hu => hloc hu.1)]

omit [DecidableEq Tx] in
/-- The newest update of all is the newest one of every set of transactions that has its own. -/
theorem newest_of_find {updates : List (Update Tx)} {u : Update Tx} {P : Tx → Bool}
    (h : updates.find? (fun u => u.location = loc) = some u) (hP : P u.txNum = true) :
    newest updates loc P = some u.val := by
  induction updates with
  | nil => cases h
  | cons u' updates ih =>
    rw [List.find?_cons] at h
    rw [newest_cons]
    by_cases hloc : u'.location = loc
    · rw [decide_eq_true hloc] at h
      cases h
      rw [if_pos ⟨hloc, hP⟩]
    · rw [decide_eq_false hloc] at h
      rw [if_neg (fun hu => hloc hu.1), ih h]

theorem first_cons (u : Update Tx) (updates : List (Update Tx)) (t : Tx) (loc : Location) :
    first (u :: updates) t loc =
      if u.location = loc ∧ u.txNum = t then
        some ((first updates t loc).getD u)
      else first updates t loc := by
  unfold first
  rw [List.filter_cons]
  by_cases h : u.location = loc ∧ u.txNum = t
  · rw [if_pos h, if_pos (decide_eq_true h), List.getLast?_cons]
  · rw [if_neg h, if_neg (by simpa using h)]

theorem first_isSome {updates : List (Update Tx)}
    (h : ∃ u ∈ updates, u.txNum = t ∧ u.location = loc) : ∃ u, first updates t loc = some u := by
  obtain ⟨u, hu, ht, hloc⟩ := h
  unfold first
  have hmem : u ∈ updates.filter (fun u => u.location = loc ∧ u.txNum = t) :=
    List.mem_filter.mpr ⟨hu, decide_eq_true ⟨hloc, ht⟩⟩
  exact ⟨_, List.getLast?_eq_some_getLast (List.ne_nil_of_mem hmem)⟩

theorem first_eq_none {updates : List (Update Tx)}
    (h : ¬ ∃ u ∈ updates, u.txNum = t ∧ u.location = loc) : first updates t loc = none := by
  unfold first
  rw [List.getLast?_eq_none_iff, List.filter_eq_nil_iff]
  intro u hu hmem
  exact h ⟨u, hu, (of_decide_eq_true hmem).2, (of_decide_eq_true hmem).1⟩

theorem undoValues_other {r : LogRecord Tx} (h : r.txNumber ≠ some t) (loc : Location)
    (log : List (LogRecord Tx)) : undoValues t loc (r :: log) = undoValues t loc log := by
  have hstart : r ≠ .start t := by
    rintro rfl
    exact h rfl
  rw [undoValues, if_neg hstart, if_neg h]

theorem undoValues_start (t : Tx) (loc : Location) (log : List (LogRecord Tx)) :
    undoValues t loc (.start t :: log) = [] := by
  rw [undoValues, if_pos rfl]

/-- A record that undoes nothing. -/
theorem undoValues_none {r : LogRecord Tx} (hstart : r ≠ .start t) (h : undone r = none)
    (loc : Location) (log : List (LogRecord Tx)) :
    undoValues t loc (r :: log) = undoValues t loc log := by
  rw [undoValues, if_neg hstart, h]
  exact ite_self _

theorem undoValues_some {r : LogRecord Tx} (hself : r.txNumber = some t) {blk : BlockId}
    {offset : Int32} {val : Value} (h : undone r = some (blk, offset, val)) (loc : Location)
    (log : List (LogRecord Tx)) : undoValues t loc (r :: log) =
      if (⟨blk, offset, kind val⟩ : Location) = loc then val :: undoValues t loc log
      else undoValues t loc log := by
  have hstart : r ≠ .start t := by
    rintro rfl
    cases h
  rw [undoValues, if_neg hstart, if_pos hself, h]

theorem pending_active {log : List (LogRecord Tx)} {pc : TxPc Tx} (h : active pc) :
    pending t loc log pc = undoValues t loc log := by
  cases pc <;> first | rfl | exact h.elim

theorem pending_undoing {blk : BlockId} {offset : Int32} {val : Value} {rest : List (LogRecord Tx)}
    (hpc : s.pc t = .undoing blk offset val rest) (loc' : Location) :
    pending t loc' s.log (s.pc t) =
      if (⟨blk, offset, kind val⟩ : Location) = loc' then val :: undoValues t loc' rest
      else undoValues t loc' rest := by
  rw [hpc]
  rfl

theorem valueAt_page {blk : BlockId} (hblk : loc.blk ≠ blk) (page : Page) :
    valueAt (Function.update pages blk page) loc = valueAt pages loc := by
  unfold valueAt
  rw [Function.update_of_ne hblk]

theorem first_mem {updates : List (Update Tx)} {u : Update Tx} (h : first updates t loc = some u) :
    u ∈ updates ∧ u.txNum = t ∧ u.location = loc := by
  obtain ⟨hmem, hu⟩ := List.mem_filter.mp (List.mem_of_getLast? h)
  exact ⟨hmem, (of_decide_eq_true hu).2, (of_decide_eq_true hu).1⟩

end Basics

section Frame

/-- At most one update is added, and it is of this transaction. -/
def Adds (s s' : TxState Tx) (t : Tx) : Prop :=
  s'.updates = s.updates ∨ ∃ u, u.txNum = t ∧ s'.updates = u :: s.updates

omit [DecidableEq Tx] in
theorem Adds.owns {t' : Tx} (h : Adds s s' t) (hne : t' ≠ t) (loc' : Location) :
    Owns s' t' loc' ↔ Owns s t' loc' := by
  unfold Owns
  rcases h with heq | ⟨u, hu, heq⟩
  · rw [heq]
  · rw [heq]
    constructor
    · rintro ⟨u', hmem, hu', hloc⟩
      rcases List.mem_cons.mp hmem with rfl | hmem
      · exact absurd (hu'.symm.trans hu) hne
      · exact ⟨u', hmem, hu', hloc⟩
    · rintro ⟨u', hmem, hu', hloc⟩
      exact ⟨u', List.mem_cons_of_mem u hmem, hu', hloc⟩

theorem Adds.first {t' : Tx} (h : Adds s s' t) (hne : t' ≠ t) (loc' : Location) :
    first s'.updates t' loc' = first s.updates t' loc' := by
  rcases h with heq | ⟨u, hu, heq⟩
  · rw [heq]
  · rw [heq, first_cons, if_neg (fun h => hne (h.2.symm.trans hu))]

/-- What the other transactions see of the location. -/
structure Same (pages : BlockId → Page) (loc : Location) (s s' : TxState Tx) : Prop where
  value : valueAt s'.pages loc = valueAt s.pages loc
  committed : committedValue pages s' loc = committedValue pages s loc
  newest : s'.updates.find? (fun u => u.location = loc) = s.updates.find?
    (fun u => u.location = loc)

theorem TxInv.frame {t' : Tx} (h : TxInv pages loc s t') (hne : t' ≠ t) (hadds : Adds s s' t)
    (hpc : s'.pc t' = s.pc t') (hmgr : s'.locks.mgrs t' = s.locks.mgrs t')
    (hlog : ∀ loc', undoValues t' loc' s'.log = undoValues t' loc' s.log)
    (hsame : inProgress (s.pc t') → Owns s t' loc → Same pages loc s s') :
    TxInv pages loc s' t' := by
  have hpending : ∀ loc', pending t' loc' s'.log (s.pc t') = pending t' loc' s.log (s.pc t') := by
    intro loc'
    cases s.pc t' <;> first | rfl | exact hlog loc'
  constructor
  · rw [hpc, hmgr]
    exact h.pcOk
  · rw [hpc]
    intro hfresh u hu
    rcases hadds with heq | ⟨u', hu', heq⟩
    · rw [heq] at hu
      exact h.begun hfresh u hu
    · rw [heq] at hu
      rcases List.mem_cons.mp hu with rfl | hu
      · rw [hu']
        exact Ne.symm hne
      · exact h.begun hfresh u hu
  · rw [hpc]
    exact h.short
  · rw [hpc]
    exact h.small
  · rw [hpc, hmgr, hadds.owns hne]
    exact h.locked
  · rw [hpc]
    intro hprogress loc' howns
    rw [hadds.owns hne] at howns
    rw [hpending]
    exact h.covered hprogress loc' howns
  · rw [hpc, hadds.owns hne]
    intro hactive howns
    have hview := hsame (Or.inl hactive) howns
    rw [hview.newest, hview.value]
    exact h.seen hactive howns
  · rw [hpc, hadds.first hne]
    intro hactive u hu hold
    obtain ⟨hmem, hself, hloc⟩ := first_mem hu
    rw [(hsame (Or.inl hactive) ⟨u, hmem, hself, hloc⟩).committed, hlog]
    exact h.restores hactive u hu hold
  · rw [hpc, hadds.owns hne]
    intro hundoes howns
    have hview := hsame (Or.inr hundoes) howns
    rw [hpending, hview.value, hview.committed]
    exact h.leadsBack hundoes howns

variable [Fintype Tx] {B : BlockSize}

/-- A step of one transaction. The location changes, or counts as committed, only where no
other transaction in progress has written it. -/
theorem Inv.of_frame (h : Inv B pages loc cap s) (hlocks : LocksOk s'.locks)
    (hlength : ∀ blk, (s'.pages blk).length = B.bytes)
    (hsize : ∀ v, valueAt s'.pages loc = .ok v → v.size ≤ cap) (hadds : Adds s s' t)
    (hpc : ∀ t' ≠ t, s'.pc t' = s.pc t') (hmgrs : ∀ t' ≠ t, s'.locks.mgrs t' = s.locks.mgrs t')
    (hlog : ∀ t' ≠ t, ∀ loc', undoValues t' loc' s'.log = undoValues t' loc' s.log)
    (hsame : ∀ t' ≠ t, inProgress (s.pc t') → Owns s t' loc → Same pages loc s s')
    (htx : TxInv pages loc s' t)
    (hclean : (valueAt s'.pages loc = committedValue pages s' loc ∨
        (inProgress (s'.pc t) ∧ Owns s' t loc)) ∨
      ∃ t' ≠ t, inProgress (s.pc t') ∧ Owns s t' loc)
    (hover : ∀ t ∈ s'.committed, s'.pc t = .ending ∨ s'.pc t = .ended) :
    Inv B pages loc cap s' where
  locks := hlocks
  length := hlength
  size := hsize
  txs := by
    intro t'
    by_cases heq : t' = t
    · rw [heq]
      exact htx
    · exact (h.txs t').frame heq hadds (hpc t' heq) (hmgrs t' heq) (hlog t' heq) (hsame t' heq)
  clean := by
    rcases hclean with (hval | hself) | ⟨t', hne, hprogress, howns⟩
    · exact Or.inl hval
    · exact Or.inr ⟨t, hself⟩
    · refine Or.inr ⟨t', ?_, (hadds.owns hne loc).mpr howns⟩
      rw [hpc t' hne]
      exact hprogress
  ending := hover

theorem Inv.clean_cases (h : Inv B pages loc cap s) (t : Tx) :
    valueAt s.pages loc = committedValue pages s loc ∨ (inProgress (s.pc t) ∧ Owns s t loc) ∨
      ∃ t' ≠ t, inProgress (s.pc t') ∧ Owns s t' loc := by
  rcases h.clean with hval | ⟨t', hprogress, howns⟩
  · exact Or.inl hval
  · by_cases heq : t' = t
    · rw [heq] at hprogress howns
      exact Or.inr (Or.inl ⟨hprogress, howns⟩)
    · exact Or.inr (Or.inr ⟨t', heq, hprogress, howns⟩)

theorem Inv.not_committed (h : Inv B pages loc cap s) (hpc : inProgress (s.pc t)) :
    t ∉ s.committed := by
  intro hmem
  rcases h.ending t hmem with heq | heq
  · rw [heq] at hpc
    exact hpc.elim id id
  · rw [heq] at hpc
    exact hpc.elim id id

/-- A block that the transaction has exclusively has no update of another one in progress. -/
theorem Inv.alone (h : Inv B pages loc cap s) (hx : (s.locks.mgrs t).held loc.blk ≠ none) {t' : Tx}
    (hne : t' ≠ t) (hprogress : inProgress (s.pc t')) : ¬ Owns s t' loc := by
  intro howns
  have hheld := (h.txs t').locked hprogress howns
  exact hx (held_exclusive h.locks.inv hheld (Ne.symm hne))

/-- A step that neither writes nor commits. -/
theorem Inv.quiet (h : Inv B pages loc cap s) (hlocks : LocksOk s'.locks)
    (hpages : s'.pages = s.pages) (hupdates : s'.updates = s.updates)
    (hcommitted : s'.committed = s.committed) (hpc : ∀ t' ≠ t, s'.pc t' = s.pc t')
    (hmgrs : ∀ t' ≠ t, s'.locks.mgrs t' = s.locks.mgrs t')
    (hlog : ∀ t' ≠ t, ∀ loc', undoValues t' loc' s'.log = undoValues t' loc' s.log)
    (htx : TxInv pages loc s' t)
    (hclean : inProgress (s.pc t) → Owns s t loc →
      inProgress (s'.pc t) ∨ valueAt s.pages loc = committedValue pages s loc)
    (hover : t ∈ s.committed → s'.pc t = .ending ∨ s'.pc t = .ended) :
    Inv B pages loc cap s' := by
  have hvalue : committedValue pages s' loc = committedValue pages s loc := by
    unfold committedValue
    rw [hupdates, hcommitted]
  refine h.of_frame hlocks ?_ ?_ (Or.inl hupdates) hpc hmgrs hlog ?_ htx ?_ ?_
  · rw [hpages]
    exact h.length
  · rw [hpages]
    exact h.size
  · exact fun _ _ _ _ => ⟨by rw [hpages], hvalue, by rw [hupdates]⟩
  · rw [hpages, hvalue]
    rcases h.clean_cases t with hval | ⟨hprogress, howns⟩ | hother
    · exact Or.inl (Or.inl hval)
    · rcases hclean hprogress howns with hnext | hval
      · refine Or.inl (Or.inr ⟨hnext, ?_⟩)
        unfold Owns
        rw [hupdates]
        exact howns
      · exact Or.inl (Or.inl hval)
    · exact Or.inr hother
  · rw [hcommitted]
    intro t' hmem
    by_cases heq : t' = t
    · rw [heq] at hmem ⊢
      exact hover hmem
    · rw [hpc t' heq]
      exact h.ending t' hmem

end Frame

section Quiet

/-- Nothing but the locks of the transaction and its place changes. -/
structure Still (s s' : TxState Tx) (t : Tx) : Prop where
  pages : s'.pages = s.pages
  updates : s'.updates = s.updates
  committed : s'.committed = s.committed
  log : ∀ loc', undoValues t loc' s'.log = undoValues t loc' s.log

theorem Still.committedValue (h : Still s s' t) :
    committedValue pages s' loc = committedValue pages s loc := by
  unfold DirtyReads.committedValue
  rw [h.updates, h.committed]

theorem Still.owns (h : Still s s' t) (loc' : Location) : Owns s' t loc' ↔ Owns s t loc' := by
  unfold Owns
  rw [h.updates]

/-- The transaction goes on, and keeps its exclusive lock. -/
theorem TxInv.move (h : TxInv pages loc s t) (hstill : Still s s' t) (hfrom : active (s.pc t))
    (hto : active (s'.pc t)) (hpcOk : Serializability.PcOk (lockPc (s'.pc t)) (s'.locks.mgrs t))
    (hshort : ∀ blk offset val okToLog, s'.pc t = .set blk offset val okToLog → IsShort val)
    (hheld : (s.locks.mgrs t).held loc.blk = some .X →
      (s'.locks.mgrs t).held loc.blk = some .X) : TxInv pages loc s' t := by
  constructor
  · exact hpcOk
  · intro hfresh
    rw [hfresh] at hto
    exact hto.elim
  · exact hshort
  · intro blk offset val rest hpc
    rw [hpc] at hto
    exact hto.elim
  · rw [hstill.owns]
    exact fun _ howns => hheld (h.locked (Or.inl hfrom) howns)
  · intro _ loc' howns
    rw [hstill.owns] at howns
    have hnil := h.covered (Or.inl hfrom) loc' howns
    rw [pending_active hfrom] at hnil
    rw [pending_active hto, hstill.log]
    exact hnil
  · rw [hstill.owns, hstill.updates, hstill.pages]
    exact fun _ => h.seen hfrom
  · rw [hstill.updates, hstill.log, hstill.committedValue]
    exact fun _ => h.restores hfrom
  · intro hundoes
    cases hpc : s'.pc t <;> rw [hpc] at hundoes hto <;> first | exact hundoes.elim | exact hto.elim

/-- The locks of the transaction change where it waits. -/
theorem TxInv.relock (h : TxInv pages loc s t) {locks : LockState Tx}
    (hpcOk : Serializability.PcOk (lockPc (s.pc t)) (locks.mgrs t))
    (hheld : (s.locks.mgrs t).held loc.blk = some .X → (locks.mgrs t).held loc.blk = some .X) :
    TxInv pages loc (s.setLocks locks) t where
  pcOk := hpcOk
  begun := h.begun
  short := h.short
  small := h.small
  locked := fun hprogress howns => hheld (h.locked hprogress howns)
  covered := h.covered
  seen := h.seen
  restores := h.restores
  leadsBack := h.leadsBack

/-- The undo goes on with the same values to come. -/
theorem TxInv.roll (h : TxInv pages loc s t) (hstill : Still s s' t) (hfrom : undoes (s.pc t))
    (hto : undoes (s'.pc t)) (hpcOk : Serializability.PcOk (lockPc (s'.pc t)) (s'.locks.mgrs t))
    (hsmall : ∀ blk offset val rest, s'.pc t = .undoing blk offset val rest → val.size = 4)
    (hheld : (s'.locks.mgrs t).held = (s.locks.mgrs t).held)
    (hpending : ∀ loc', pending t loc' s'.log (s'.pc t) = pending t loc' s.log (s.pc t)) :
    TxInv pages loc s' t := by
  have hnot : ∀ pc : TxPc Tx, undoes pc → ¬ active pc := by
    intro pc hundoes hactive
    cases pc <;> first | exact hundoes.elim | exact hactive.elim
  constructor
  · exact hpcOk
  · intro hfresh
    rw [hfresh] at hto
    exact hto.elim
  · intro blk offset val okToLog hpc
    rw [hpc] at hto
    exact hto.elim
  · exact hsmall
  · rw [hstill.owns, hheld]
    exact fun _ => h.locked (Or.inr hfrom)
  · intro _ loc' howns
    rw [hstill.owns] at howns
    rw [hpending]
    exact h.covered (Or.inr hfrom) loc' howns
  · exact fun hactive => absurd hactive (hnot _ hto)
  · exact fun hactive => absurd hactive (hnot _ hto)
  · rw [hstill.owns, hpending, hstill.pages, hstill.committedValue]
    exact fun _ => h.leadsBack hfrom

theorem txInv_ending (hpc : s.pc t = .ending ∨ s.pc t = .ended)
    (hpcOk : Serializability.PcOk (lockPc (s.pc t)) (s.locks.mgrs t)) : TxInv pages loc s t := by
  have hnot : ¬ active (s.pc t) ∧ ¬ undoes (s.pc t) := by
    rcases hpc with hpc | hpc
    · rw [hpc]
      exact ⟨id, id⟩
    · rw [hpc]
      exact ⟨id, id⟩
  have hne : s.pc t ≠ .fresh ∧ (∀ blk offset val okToLog, s.pc t ≠ .set blk offset val okToLog) ∧
      ∀ blk offset val rest, s.pc t ≠ .undoing blk offset val rest := by
    rcases hpc with hpc | hpc <;> rw [hpc] <;> simp
  constructor
  · exact hpcOk
  · exact fun hfresh => absurd hfresh hne.1
  · exact fun blk offset val okToLog hset => absurd hset (hne.2.1 blk offset val okToLog)
  · exact fun blk offset val rest hundo => absurd hundo (hne.2.2 blk offset val rest)
  · exact fun hprogress => (hprogress.elim hnot.1 hnot.2).elim
  · exact fun hprogress => (hprogress.elim hnot.1 hnot.2).elim
  · exact fun hactive => absurd hactive hnot.1
  · exact fun hactive => absurd hactive hnot.1
  · exact fun hundoes => absurd hundoes hnot.2

end Quiet

section Steps

variable [Fintype Tx] {B : BlockSize}

theorem inv_new (log : List (LogRecord Tx)) (hpages : ∀ blk, (pages blk).length = B.bytes)
    (hinitial : ∀ v, valueAt pages loc = .ok v → v.size ≤ cap) :
    Inv B pages loc cap (TxState.new log pages) where
  locks := locksOk_new
  length := hpages
  size := hinitial
  txs := by
    intro t
    constructor
    · rfl
    · intro _ u hu
      cases hu
    · intro blk offset val okToLog hpc
      cases hpc
    · intro blk offset val rest hpc
      cases hpc
    · exact fun hprogress => (hprogress.elim id id).elim
    · exact fun hprogress => (hprogress.elim id id).elim
    · exact fun hactive => hactive.elim
    · exact fun hactive => hactive.elim
    · exact fun hundoes => hundoes.elim
  clean := Or.inl rfl
  ending := by
    intro t ht
    cases ht

theorem Inv.begin (h : Inv B pages loc cap s) (hstep : s.step (.begin t) = some s') :
    Inv B pages loc cap s' := by
  unfold TxState.step at hstep
  cases hpc : s.pc t <;> simp only [hpc, reduceCtorEq, Option.some.injEq] at hstep
  subst hstep
  have hbegun := (h.txs t).begun hpc
  have hpcOk := (h.txs t).pcOk
  rw [hpc] at hpcOk
  have hself : ((s.append (.start t)).setPc t .ready).pc t = .ready := setPc_self _ t _
  refine h.quiet (t := t) h.locks rfl rfl rfl (fun t' hne => setPc_other _ _ hne) (fun _ _ => rfl)
    ?_ ?_ ?_ ?_
  · intro t' hne loc'
    refine undoValues_other ?_ loc' s.log
    intro heq
    exact hne (Option.some.inj heq).symm
  · have hnone : ∀ loc', ¬ Owns s t loc' := by
      rintro loc' ⟨u, hu, hself, -⟩
      exact hbegun u hu hself
    constructor
    · rw [hself]
      exact hpcOk
    · intro hfresh
      rw [hself] at hfresh
      cases hfresh
    · intro blk offset val okToLog hset
      rw [hself] at hset
      cases hset
    · intro blk offset val rest hundo
      rw [hself] at hundo
      cases hundo
    · exact fun _ howns => absurd howns (hnone loc)
    · intro _ loc' _
      rw [hself]
      exact undoValues_start t loc' s.log
    · exact fun _ howns => absurd howns (hnone loc)
    · intro _ u hu
      obtain ⟨hmem, hut, -⟩ := first_mem hu
      exact absurd hut (hbegun u hmem)
    · exact fun _ howns => absurd howns (hnone loc)
  · intro hprogress
    rw [hpc] at hprogress
    exact (hprogress.elim id id).elim
  · intro hmem
    rcases h.ending t hmem with heq | heq
    · rw [hpc] at heq
      cases heq
    · rw [hpc] at heq
      cases heq

/-- A request for a lock, or the end of an access, of a transaction that goes on. -/
theorem Inv.goesOn (h : Inv B pages loc cap s) {locks : LockState Tx} {pc : TxPc Tx}
    (hfrom : active (s.pc t)) (hto : active pc) (hlocks : LocksOk locks)
    (hothers : ∀ t' ≠ t, locks.mgrs t' = s.locks.mgrs t')
    (hheld : (locks.mgrs t).held = (s.locks.mgrs t).held)
    (hpcOk : Serializability.PcOk (lockPc pc) (locks.mgrs t))
    (hshort : ∀ blk offset val okToLog, pc = .set blk offset val okToLog → IsShort val) :
    Inv B pages loc cap ((s.setLocks locks).setPc t pc) := by
  have hself : ((s.setLocks locks).setPc t pc).pc t = pc := setPc_self _ t _
  refine h.quiet (t := t) hlocks rfl rfl rfl (fun t' hne => setPc_other _ _ hne) hothers
    (fun _ _ _ => rfl) ?_ ?_ ?_
  · refine (h.txs t).move ⟨rfl, rfl, rfl, fun _ => rfl⟩ hfrom ?_ ?_ ?_ ?_
    · rw [hself]
      exact hto
    · rw [hself]
      exact hpcOk
    · rw [hself]
      exact hshort
    · exact fun hx => (congrFun hheld loc.blk).trans hx
  · intro _ _
    rw [hself]
    exact Or.inl (Or.inl hto)
  · exact fun hmem => absurd hmem (h.not_committed (Or.inl hfrom))

theorem Inv.get (h : Inv B pages loc cap s) {loc' : Location}
    (hstep : s.step (.get t loc') = some s') : Inv B pages loc cap s' := by
  unfold TxState.step at hstep
  cases hpc : s.pc t <;> simp only [hpc, reduceCtorEq, Option.map_eq_some_iff] at hstep
  obtain ⟨locks, hlock, rfl⟩ := hstep
  have hlocks := h.locks.step (fun _ hl => by cases hl) hlock
  obtain ⟨-, hothers, hheld, hreturn⟩ := sLock_cases h.locks.inv (h.locks.matched hlock) hlock
  refine h.goesOn (by rw [hpc]; trivial) trivial hlocks hothers hheld hreturn ?_
  intro blk offset val okToLog heq
  cases heq

theorem Inv.set (h : Inv B pages loc cap s) {blk : BlockId} {offset : Int32} {val : Value}
    {okToLog : Bool} (hshort : IsShort val)
    (hstep : s.step (.set t blk offset val okToLog) = some s') : Inv B pages loc cap s' := by
  unfold TxState.step at hstep
  cases hpc : s.pc t <;> simp only [hpc, reduceCtorEq, Option.map_eq_some_iff] at hstep
  obtain ⟨locks, hlock, rfl⟩ := hstep
  have hlocks := h.locks.step (fun _ hl => by cases hl) hlock
  obtain ⟨-, hothers, hheld, hreturn, -⟩ := xLock_cases h.locks.inv (h.locks.matched hlock) hlock
  refine h.goesOn (by rw [hpc]; trivial) trivial hlocks hothers hheld hreturn ?_
  intro blk offset val okToLog heq
  cases heq
  exact hshort

theorem Inv.granted (h : Inv B pages loc cap s) (hstep : s.step (.granted t) = some s') :
    Inv B pages loc cap s' := by
  unfold TxState.step at hstep
  obtain ⟨locks, hlock, rfl⟩ := Option.map_eq_some_iff.mp hstep
  have hlocks := h.locks.step (fun _ hl => by cases hl) hlock
  obtain ⟨-, hothers, blk, lt, hheld, hfree, hcases⟩ := granted_cases h.locks.inv hlock
  obtain ⟨hactive, hpcOk⟩ := Serializability.pcOk_granted (h.txs t).pcOk hheld hcases
  refine h.quiet (t := t) hlocks rfl rfl rfl (fun _ _ => rfl) hothers (fun _ _ _ => rfl)
    ((h.txs t).relock hpcOk ?_) (fun hprogress _ => Or.inl hprogress) ?_
  · intro hx
    have hne : loc.blk ≠ blk := by
      intro heq
      rw [heq] at hx
      exact hfree t hx
    rw [hheld, Function.update_of_ne hne]
    exact hx
  · exact h.ending t

theorem Inv.read (h : Inv B pages loc cap s) (hstep : s.step (.read t) = some s') :
    Inv B pages loc cap s' := by
  unfold TxState.step at hstep
  cases hpc : s.pc t <;> simp only [hpc, reduceCtorEq] at hstep
  rename_i loc'
  cases hmgr : (s.locks.mgrs t).pc <;>
    simp only [hmgr, reduceCtorEq, Option.map_eq_some_iff] at hstep
  obtain ⟨val, -, rfl⟩ := hstep
  show Inv B pages loc cap ((s.setLocks s.locks).setPc t .ready)
  refine h.goesOn (by rw [hpc]; trivial) trivial h.locks (fun _ _ => rfl) rfl hmgr ?_
  intro blk offset val okToLog heq
  cases heq

/-- The transaction ends and has left nothing behind. -/
theorem Inv.finish (h : Inv B pages loc cap s) (hstill : Still s s' t) (hpc : s'.pc t = .ending)
    (hothers : ∀ t' ≠ t, s'.pc t' = s.pc t') (hlocks : LocksOk s'.locks)
    (hmgrs : ∀ t' ≠ t, s'.locks.mgrs t' = s.locks.mgrs t')
    (hreleasing : ∃ rest, (s'.locks.mgrs t).pc = .releasing rest)
    (hlog : ∀ t' ≠ t, ∀ loc', undoValues t' loc' s'.log = undoValues t' loc' s.log)
    (hclean : Owns s t loc → valueAt s.pages loc = committedValue pages s loc) :
    Inv B pages loc cap s' := by
  refine h.quiet hlocks hstill.pages hstill.updates hstill.committed hothers hmgrs hlog
    (txInv_ending (Or.inl hpc) ?_) (fun _ howns => Or.inr (hclean howns)) (fun _ => Or.inl hpc)
  rw [hpc]
  exact hreleasing

/-- A committed transaction has the newest update of the location, or none. -/
theorem Inv.commit (h : Inv B pages loc cap s) (hstep : s.step (.commit t) = some s') :
    Inv B pages loc cap s' := by
  unfold TxState.step at hstep
  cases hpc : s.pc t <;> simp only [hpc, reduceCtorEq, Option.map_eq_some_iff] at hstep
  obtain ⟨locks, hlock, rfl⟩ := hstep
  have hlocks := h.locks.step (fun _ hl => by cases hl) hlock
  obtain ⟨-, hothers, hheld, hreleasing⟩ :=
    release_cases h.locks.inv (h.locks.matched hlock) hlock
  have hactive : active (s.pc t) := by
    rw [hpc]
    trivial
  have hending : ((((s.append (.commit t)).addCommitted t).setLocks locks).setPc t .ending).pc t =
      .ending := setPc_self _ t _
  have hlog : ∀ t' ≠ t, ∀ loc', undoValues t' loc' (.commit t :: s.log) =
      undoValues t' loc' s.log :=
    fun t' hne loc' => undoValues_other (Serializability.txNumber_ne hne (.commit t) rfl) loc' s.log
  have hover : ∀ t' ∈ t :: s.committed,
      Function.update s.pc t .ending t' = .ending ∨ Function.update s.pc t .ending t' = .ended := by
    intro t' hmem
    by_cases heq : t' = t
    · rw [heq, Function.update_self]
      exact Or.inl rfl
    · rw [Function.update_of_ne heq]
      exact h.ending t' ((List.mem_cons.mp hmem).resolve_left heq)
  have hendOk : TxInv pages loc
      ((((s.append (.commit t)).addCommitted t).setLocks locks).setPc t .ending) t := by
    refine txInv_ending (Or.inl hending) ?_
    rw [hending]
    exact hreleasing
  by_cases howns : Owns s t loc
  · obtain ⟨u, hu, hut, hval⟩ := (h.txs t).seen hactive howns
    have hnew : newest s.updates loc (t :: s.committed).contains = some u.val :=
      newest_of_find hu (by rw [hut]; simp)
    have hcommitted : valueAt s.pages loc =
        orInitial pages loc (newest s.updates loc (t :: s.committed).contains) := by
      rw [hnew, hval]
      rfl
    have hx := (h.txs t).locked (Or.inl hactive) howns
    refine h.of_frame (t := t) hlocks h.length h.size (Or.inl rfl)
      (fun t' hne => setPc_other _ _ hne)
      hothers hlog ?_ hendOk (Or.inl (Or.inl hcommitted)) hover
    intro t' hne hprogress howns'
    exact absurd howns' (h.alone (by rw [hx]; decide) hne hprogress)
  · have hsame : newest s.updates loc (t :: s.committed).contains =
        newest s.updates loc s.committed.contains := by
      refine newest_congr (fun u hu hloc => ?_)
      have hne : u.txNum ≠ t := fun hut => howns ⟨u, hu, hut, hloc⟩
      simp [hne]
    have hvalue : orInitial pages loc (newest s.updates loc (t :: s.committed).contains) =
        committedValue pages s loc := by
      unfold committedValue
      rw [hsame]
    refine h.of_frame (t := t) hlocks h.length h.size (Or.inl rfl)
      (fun t' hne => setPc_other _ _ hne)
      hothers hlog (fun _ _ _ _ => ⟨rfl, hvalue, rfl⟩) hendOk ?_ hover
    rcases h.clean_cases t with hval | ⟨-, hself⟩ | hother
    · exact Or.inl (Or.inl (hval.trans hvalue.symm))
    · exact absurd hself howns
    · exact Or.inr hother

theorem Inv.rollback (h : Inv B pages loc cap s) (hundoable : Undoable s t)
    (hstep : s.step (.rollback t) = some s') : Inv B pages loc cap s' := by
  unfold TxState.step at hstep
  cases hpc : s.pc t <;> simp only [hpc, reduceCtorEq, Option.some.injEq] at hstep
  subst hstep
  have ht := h.txs t
  have hactive : active (s.pc t) := by
    rw [hpc]
    trivial
  have hpcOk := ht.pcOk
  rw [hpc] at hpcOk
  have hself : (s.setPc t (.rolling s.log)).pc t = .rolling s.log := setPc_self s t _
  refine h.quiet (t := t) h.locks rfl rfl rfl (fun t' hne => setPc_other _ _ hne) (fun _ _ => rfl)
    (fun _ _ _ => rfl) ?_ ?_ (fun hmem => absurd hmem (h.not_committed (Or.inl hactive)))
  · constructor
    · rw [hself]
      exact hpcOk
    · intro hfresh
      rw [hself] at hfresh
      cases hfresh
    · intro blk offset val okToLog hset
      rw [hself] at hset
      cases hset
    · intro blk offset val rest hundo
      rw [hself] at hundo
      cases hundo
    · exact fun _ => ht.locked (Or.inl hactive)
    · intro _ loc' howns
      have hnil := ht.covered (Or.inl hactive) loc' howns
      rw [pending_active hactive] at hnil
      rw [hself]
      exact hnil
    · intro hnext
      rw [hself] at hnext
      exact hnext.elim
    · intro hnext
      rw [hself] at hnext
      exact hnext.elim
    · intro _ howns
      obtain ⟨u, hu⟩ := first_isSome howns
      obtain ⟨v, hlast, hvalue⟩ := ht.restores hactive u hu (hundoable loc u hu)
      rw [hself]
      show ((undoValues t loc s.log).getLast?.map Except.ok).getD _ = committedValue pages s loc
      rw [hlast, hvalue]
      rfl
  · intro _ _
    rw [hself]
    exact Or.inl (Or.inr trivial)

/-- The next place of the transaction has the same values to come. -/
theorem Inv.rollsOn (h : Inv B pages loc cap s) {r : LogRecord Tx} {rest : List (LogRecord Tx)}
    (hpc : s.pc t = .rolling (r :: rest)) {locks : LockState Tx} {pc : TxPc Tx}
    (hlocks : LocksOk locks) (hothers : ∀ t' ≠ t, locks.mgrs t' = s.locks.mgrs t')
    (hheld : (locks.mgrs t).held = (s.locks.mgrs t).held) (hto : undoes pc)
    (hpcOk : Serializability.PcOk (lockPc pc) (locks.mgrs t))
    (hsmall : ∀ blk offset val rest, pc = .undoing blk offset val rest → val.size = 4)
    (hpending : ∀ loc', pending t loc' s.log pc = undoValues t loc' (r :: rest)) :
    Inv B pages loc cap ((s.setLocks locks).setPc t pc) := by
  have hundoes : undoes (s.pc t) := by
    rw [hpc]
    trivial
  have hself : ((s.setLocks locks).setPc t pc).pc t = pc := setPc_self _ t _
  refine h.quiet (t := t) hlocks rfl rfl rfl (fun t' hne => setPc_other _ _ hne) hothers
    (fun _ _ _ => rfl) ?_ ?_ (fun hmem => absurd hmem (h.not_committed (Or.inr hundoes)))
  · refine (h.txs t).roll ⟨rfl, rfl, rfl, fun _ => rfl⟩ hundoes ?_ ?_ ?_ hheld ?_
    · rw [hself]
      exact hto
    · rw [hself]
      exact hpcOk
    · rw [hself]
      exact hsmall
    · intro loc'
      rw [hself, hpc]
      exact hpending loc'
  · intro _ _
    rw [hself]
    exact Or.inl (Or.inr hto)

/-- A record that has nothing to undo is passed over. -/
theorem Inv.skips (h : Inv B pages loc cap s) {r : LogRecord Tx} {rest rest' : List (LogRecord Tx)}
    (hpc : s.pc t = .rolling (r :: rest))
    (hrest : ∀ loc', undoValues t loc' rest' = undoValues t loc' (r :: rest)) :
    Inv B pages loc cap (s.setPc t (.rolling rest')) := by
  have hidle := (h.txs t).pcOk
  rw [hpc] at hidle
  refine h.rollsOn hpc h.locks (fun _ _ => rfl) rfl trivial
    hidle ?_ hrest
  intro blk offset val rest hundo
  cases hundo

/-- The block of a record is locked before its value is put back. -/
theorem Inv.toUndo (h : Inv B pages loc cap s) {r : LogRecord Tx} {rest : List (LogRecord Tx)}
    (hpc : s.pc t = .rolling (r :: rest)) (hself : r.txNumber = some t) {blk : BlockId}
    {offset : Int32} {val : Value} {locks : LockState Tx}
    (hundone : undone r = some (blk, offset, val))
    (hlock : s.locks.step (.xLock t blk) = some locks) (hsmall : val.size = 4) :
    Inv B pages loc cap ((s.setLocks locks).setPc t (.undoing blk offset val rest)) := by
  have hlocks := h.locks.step (fun _ hl => by cases hl) hlock
  obtain ⟨-, hothers, hheld, hreturn, -⟩ := xLock_cases h.locks.inv (h.locks.matched hlock) hlock
  refine h.rollsOn hpc hlocks hothers hheld trivial hreturn ?_ ?_
  · intro blk' offset' val' rest' heq
    cases heq
    exact hsmall
  · intro loc'
    rw [undoValues_some hself hundone]
    rfl

/-- One record of the undo. -/
theorem Inv.undo (h : Inv B pages loc cap s) (hstep : s.step (.undo t) = some s') :
    Inv B pages loc cap s' := by
  unfold TxState.step at hstep
  cases hpc : s.pc t with
  | fresh => simp [hpc] at hstep
  | ready => simp [hpc] at hstep
  | get loc' => simp [hpc] at hstep
  | set blk offset val okToLog => simp [hpc] at hstep
  | undoing blk offset val rest => simp [hpc] at hstep
  | ending => simp [hpc] at hstep
  | ended => simp [hpc] at hstep
  | rolling log =>
    cases log with
    | nil => simp [hpc] at hstep
    | cons r rest =>
      simp only [hpc] at hstep
      unfold TxState.undo at hstep
      split at hstep
      · rename_i hself
        cases r with
        | checkpoint => cases hself
        | commit t' =>
          cases hstep
          exact h.skips hpc (fun loc' => (undoValues_none (by simp) rfl loc' rest).symm)
        | rollback t' =>
          cases hstep
          exact h.skips hpc (fun loc' => (undoValues_none (by simp) rfl loc' rest).symm)
        | start t' =>
          cases hself
          cases hstep
          exact h.skips hpc (fun loc' => (undoValues_start t loc' rest).symm)
        | setInt t' blk offset n =>
          obtain ⟨⟨blk', offset', val⟩, hundone, hstep⟩ := Option.bind_eq_some_iff.mp hstep
          obtain ⟨locks, hlock, hstep⟩ := Option.bind_eq_some_iff.mp hstep
          cases hstep
          cases hundone
          exact h.toUndo hpc hself rfl hlock rfl
        | setString t' blk offset str =>
          obtain ⟨⟨blk', offset', val⟩, hundone, hstep⟩ := Option.bind_eq_some_iff.mp hstep
          obtain ⟨locks, hlock, hstep⟩ := Option.bind_eq_some_iff.mp hstep
          cases hstep
          have hval := hundone
          rw [Endings.undone] at hval
          split at hval
          · cases hval
            exact h.toUndo hpc hself hundone hlock rfl
          · cases hval
      · rename_i hother
        cases hstep
        exact h.skips hpc (fun loc' => (undoValues_other hother loc' rest).symm)

/-- When the undo is over, the location has its committed value. -/
theorem Inv.rolledBack (h : Inv B pages loc cap s) (hstep : s.step (.rolledBack t) = some s') :
    Inv B pages loc cap s' := by
  unfold TxState.step at hstep
  cases hpc : s.pc t with
  | fresh => simp [hpc] at hstep
  | ready => simp [hpc] at hstep
  | get loc' => simp [hpc] at hstep
  | set blk offset val okToLog => simp [hpc] at hstep
  | undoing blk offset val rest => simp [hpc] at hstep
  | ending => simp [hpc] at hstep
  | ended => simp [hpc] at hstep
  | rolling log =>
    cases log with
    | cons r rest => simp [hpc] at hstep
    | nil =>
      simp only [hpc, Option.map_eq_some_iff] at hstep
      obtain ⟨locks, hlock, rfl⟩ := hstep
      have hlocks := h.locks.step (fun _ hl => by cases hl) hlock
      obtain ⟨-, hothers, -, hreleasing⟩ :=
        release_cases h.locks.inv (h.locks.matched hlock) hlock
      refine h.finish (t := t) ⟨rfl, rfl, rfl, ?_⟩ (setPc_self _ t _)
        (fun t' hne => setPc_other _ _ hne) hlocks hothers hreleasing ?_ ?_
      · exact fun loc' => undoValues_none (by simp) rfl loc' s.log
      · exact fun t' hne loc' =>
          undoValues_other (Serializability.txNumber_ne hne (.rollback t) rfl) loc' s.log
      · intro howns
        have hback := (h.txs t).leadsBack (by rw [hpc]; trivial) howns
        rw [hpc] at hback
        exact hback

theorem Inv.destroy (h : Inv B pages loc cap s) (hnone : ∀ u ∈ s.updates, u.txNum ≠ t)
    (hstep : s.step (.destroy t) = some s') : Inv B pages loc cap s' := by
  have hlocked : ∃ locks, s.locks.step (.release t) = some locks ∧
      (s.setLocks locks).setPc t .ending = s' := by
    unfold TxState.step at hstep
    cases hpc : s.pc t <;> simp only [hpc, reduceCtorEq, Option.map_eq_some_iff] at hstep <;>
      exact hstep
  obtain ⟨locks, hlock, rfl⟩ := hlocked
  have hlocks := h.locks.step (fun _ hl => by cases hl) hlock
  obtain ⟨-, hothers, -, hreleasing⟩ := release_cases h.locks.inv (h.locks.matched hlock) hlock
  refine h.finish (t := t) ⟨rfl, rfl, rfl, fun _ => rfl⟩ (setPc_self _ t _)
    (fun t' hne => setPc_other _ _ hne) hlocks hothers hreleasing (fun _ _ _ => rfl) ?_
  rintro ⟨u, hu, hut, -⟩
  exact absurd hut (hnone u hu)

theorem Inv.unlock (h : Inv B pages loc cap s) {blk : BlockId}
    (hstep : s.step (.unlock t blk) = some s') : Inv B pages loc cap s' := by
  unfold TxState.step at hstep
  cases hpc : s.pc t <;> simp only [hpc, reduceCtorEq, Option.map_eq_some_iff] at hstep
  obtain ⟨locks, hlock, rfl⟩ := hstep
  have hlocks := h.locks.step (fun _ hl => by cases hl) hlock
  obtain ⟨-, hothers, -, -, hreleasing⟩ := unlock_cases h.locks.inv hlock
  refine h.quiet (t := t) hlocks rfl rfl rfl (fun _ _ => rfl) hothers (fun _ _ _ => rfl)
    (txInv_ending (Or.inl hpc) ?_) ?_ (fun _ => Or.inl hpc)
  · show Serializability.PcOk (lockPc (s.pc t)) (locks.mgrs t)
    rw [hpc]
    exact hreleasing
  · intro hprogress
    rw [hpc] at hprogress
    exact (hprogress.elim id id).elim

theorem Inv.clear (h : Inv B pages loc cap s) (hstep : s.step (.clear t) = some s') :
    Inv B pages loc cap s' := by
  unfold TxState.step at hstep
  cases hpc : s.pc t <;> simp only [hpc, reduceCtorEq, Option.map_eq_some_iff] at hstep
  obtain ⟨locks, hlock, rfl⟩ := hstep
  have hlocks := h.locks.step (fun _ hl => by cases hl) hlock
  obtain ⟨-, hothers, -, -, -, hidle⟩ := clear_cases h.locks.inv hlock
  have hself : ((s.setLocks locks).setPc t .ended).pc t = .ended := setPc_self _ t _
  refine h.quiet (t := t) hlocks rfl rfl rfl (fun t' hne => setPc_other _ _ hne) hothers
    (fun _ _ _ => rfl) (txInv_ending (Or.inr hself) ?_) ?_ (fun _ => Or.inr hself)
  · rw [hself]
    exact hidle
  · intro hprogress
    rw [hpc] at hprogress
    exact (hprogress.elim id id).elim

end Steps

section Writes

theorem valueAt_set_self {pages : BlockId → Page} {blk : BlockId} {offset : Int32} {val : Value}
    {page : Page} (hloc : (⟨blk, offset, kind val⟩ : Location) = loc) (hval : IsShort val)
    (hlen : (pages blk).length < 2147483648) (h : Endings.set (pages blk) offset val = .ok page) :
    valueAt (Function.update pages blk page) loc = .ok val := by
  subst hloc
  unfold valueAt
  rw [Function.update_self]
  exact get_set hval hlen h

theorem valueAt_set_other {pages : BlockId → Page} {blk : BlockId} {offset : Int32} {val : Value}
    {page : Page} (hval : IsShort val) (hlen : (pages blk).length < 2147483648)
    (hcap : ∀ v, valueAt pages loc = .ok v → v.size ≤ cap) (hfour : 4 ≤ cap)
    (h : Endings.set (pages blk) offset val = .ok page)
    (hapart : blk = loc.blk → loc.offset.toInt + cap ≤ offset.toInt ∨
      offset.toInt + val.size ≤ loc.offset.toInt) :
    valueAt (Function.update pages blk page) loc = valueAt pages loc := by
  by_cases hblk : blk = loc.blk
  · obtain ⟨h0, hle, rfl⟩ := set_eq_ok hval hlen h
    have hsize := valueBytes_length val
    have hdisjoint := hapart hblk
    subst hblk
    unfold valueAt at hcap ⊢
    rw [Function.update_self]
    exact get_splice (by omega) loc.kind hcap hfour (by omega)
  · exact valueAt_page (Ne.symm hblk) page

theorem undoValues_record_ne {blk : BlockId} {offset : Int32} {old : Value} {loc' : Location}
    (hloc : (⟨blk, offset, kind old⟩ : Location) ≠ loc') (log : List (LogRecord Tx)) :
    undoValues t loc' (record t blk offset old :: log) = undoValues t loc' log := by
  cases old with
  | int n =>
    rw [undoValues_some rfl rfl, if_neg hloc]
  | string str =>
    by_cases hstr : str = [] ∨ 4 ≤ str.length
    · have hundone : Endings.undone (record t blk offset (.string str)) =
          some (blk, offset, .string []) := by rw [record, Endings.undone, if_pos hstr]
      rw [undoValues_some rfl hundone]
      exact if_neg hloc
    · have hundone : Endings.undone (record t blk offset (.string str)) = none := by
        rw [record, Endings.undone, if_neg hstr]
      exact undoValues_none (by simp [record]) hundone loc' log

theorem undoValues_record_self {blk : BlockId} {offset : Int32} {old : Value}
    (hold : Restorable (some old)) (log : List (LogRecord Tx)) :
    undoValues t ⟨blk, offset, kind old⟩ (record t blk offset old :: log) =
      old :: undoValues t ⟨blk, offset, kind old⟩ log := by
  cases old with
  | int n => rw [undoValues_some rfl rfl, if_pos rfl]
  | string str =>
    have hnil : str = [] := hold
    subst hnil
    have hundone : Endings.undone (record t blk offset (.string [])) =
        some (blk, offset, .string []) := by rw [record, Endings.undone, if_pos (Or.inl rfl)]
    rw [undoValues_some rfl hundone, if_pos rfl]

/-- A record puts one more value in front, or none. -/
theorem getLast_undoValues_record {blk : BlockId} {offset : Int32} {old v : Value}
    {log : List (LogRecord Tx)} (h : (undoValues t loc log).getLast? = some v) :
    (undoValues t loc (record t blk offset old :: log)).getLast? = some v := by
  have hcons : ∀ v', (v' :: undoValues t loc log).getLast? = some v := by
    intro v'
    rw [List.getLast?_cons, h]
    rfl
  cases hundone : Endings.undone (record t blk offset old) with
  | none =>
    rw [undoValues_none (by cases old <;> simp [record]) hundone]
    exact h
  | some e =>
    obtain ⟨blk', offset', val⟩ := e
    rw [undoValues_some (by cases old <;> rfl) hundone]
    split
    · exact hcons val
    · exact h

omit [DecidableEq Tx] in
/-- What `setInt` and `setString` change. -/
theorem write_cases {blk : BlockId} {offset : Int32} {val : Value} {okToLog : Bool}
    (h : s.write t blk offset val okToLog = some s') : ∃ old page,
      Endings.set (s.pages blk) offset val = .ok page ∧
      (∀ v, old = some v → Endings.get (s.pages blk) offset (kind val) = .ok v) ∧
      s' = { s with
        log := (old.map (record t blk offset)).toList ++ s.log
        pages := Function.update s.pages blk page
        updates := ⟨t, blk, offset, val, old⟩ :: s.updates } := by
  cases okToLog with
  | true =>
    obtain ⟨old, hold, h⟩ := Option.bind_eq_some_iff.mp h
    obtain ⟨page, hpage, h⟩ := Option.bind_eq_some_iff.mp h
    cases h
    refine ⟨some old, page, toOption_eq_some.mp hpage, ?_, rfl⟩
    intro v hv
    cases hv
    exact toOption_eq_some.mp hold
  | false =>
    obtain ⟨page, hpage, h⟩ := Option.bind_eq_some_iff.mp h
    cases h
    refine ⟨none, page, toOption_eq_some.mp hpage, ?_, rfl⟩
    intro v hv
    cases hv

/-- A value that is stored in a page is read at its place, and the location keeps its own value
elsewhere. -/
structure Stored (s s' : TxState Tx) (loc place : Location) (val : Value) : Prop where
  length : ∀ blk, (s'.pages blk).length = (s.pages blk).length
  self : place = loc → valueAt s'.pages loc = .ok val
  other : place ≠ loc → valueAt s'.pages loc = valueAt s.pages loc

/-- What a write does. -/
structure Writes (s s' : TxState Tx) (loc : Location) (t : Tx) (u : Update Tx) : Prop where
  txNum : u.txNum = t
  updates : s'.updates = u :: s.updates
  committed : s'.committed = s.committed
  locks : s'.locks = s.locks
  log : s'.log = (u.old.map (record t u.blk u.offset)).toList ++ s.log
  pc : s'.pc t = .ready
  others : ∀ t' ≠ t, s'.pc t' = s.pc t'
  active : active (s.pc t)
  idle : (s.locks.mgrs t).pc = .idle
  held : (s.locks.mgrs t).held u.blk = some .X
  old : ∀ v, u.old = some v → valueAt s.pages u.location = .ok v
  stored : Stored s s' loc u.location u.val

section Written

variable {u : Update Tx}

omit [DecidableEq Tx]

theorem Stored.size {place : Location} {val : Value} (h : Stored s s' loc place val)
    (hsize : ∀ v, valueAt s.pages loc = .ok v → v.size ≤ cap) (hval : place = loc → val.size ≤ cap)
    (v : Value) (hv : valueAt s'.pages loc = .ok v) : v.size ≤ cap := by
  by_cases heq : place = loc
  · rw [h.self heq] at hv
    cases hv
    exact hval heq
  · rw [h.other heq] at hv
    exact hsize v hv

theorem Writes.adds (h : Writes s s' loc t u) : Adds s s' t := Or.inr ⟨u, h.txNum, h.updates⟩

theorem Writes.find (h : Writes s s' loc t u) (hne : u.location ≠ loc) :
    s'.updates.find? (fun u => u.location = loc) = s.updates.find? (fun u => u.location = loc) := by
  rw [h.updates, List.find?_cons, decide_eq_false hne]

theorem Writes.owns (h : Writes s s' loc t u) (heq : u.location = loc) : Owns s' t loc := by
  refine ⟨u, ?_, h.txNum, heq⟩
  rw [h.updates]
  exact List.mem_cons_self

theorem Writes.owns_iff (h : Writes s s' loc t u) {loc' : Location} (hne : u.location ≠ loc') :
    Owns s' t loc' ↔ Owns s t loc' := by
  unfold Owns
  rw [h.updates]
  constructor
  · rintro ⟨u', hmem, hut, hloc⟩
    rcases List.mem_cons.mp hmem with rfl | hmem
    · exact absurd hloc hne
    · exact ⟨u', hmem, hut, hloc⟩
  · rintro ⟨u', hmem, hut, hloc⟩
    exact ⟨u', List.mem_cons_of_mem u hmem, hut, hloc⟩

end Written

theorem Writes.committedValue {u : Update Tx} (h : Writes s s' loc t u) (hnot : t ∉ s.committed) :
    committedValue pages s' loc = committedValue pages s loc := by
  unfold DirtyReads.committedValue
  rw [h.updates, h.committed, newest_cons, if_neg]
  rintro ⟨-, hmem⟩
  rw [h.txNum] at hmem
  exact hnot (by simpa using hmem)

/-- The record of a write is one of its location. -/
theorem Writes.undoValues_ne {u : Update Tx} (h : Writes s s' loc t u) {loc' : Location}
    (hne : u.location ≠ loc') :
    undoValues t loc' s'.log = undoValues t loc' s.log := by
  rw [h.log]
  cases hold : u.old with
  | none => rfl
  | some v =>
    refine undoValues_record_ne ?_ s.log
    rw [kind_of_get (h.old v hold)]
    exact hne

theorem Writes.undoValues_other {u : Update Tx} (h : Writes s s' loc t u) {t' : Tx} (hne : t' ≠ t)
    (loc' : Location) : undoValues t' loc' s'.log = undoValues t' loc' s.log := by
  rw [h.log]
  cases u.old with
  | none => rfl
  | some v =>
    exact DirtyReads.undoValues_other (Serializability.txNumber_ne hne (record t u.blk u.offset v)
      (by cases v <;> rfl)) loc' s.log

/-- The location that is undone was updated by the transaction. -/
theorem TxInv.owns_undoing (h : TxInv pages loc s t) {blk : BlockId} {offset : Int32} {val : Value}
    {rest : List (LogRecord Tx)} (hpc : s.pc t = .undoing blk offset val rest) :
    Owns s t ⟨blk, offset, kind val⟩ := by
  by_contra hnone
  have hundoes : undoes (s.pc t) := by
    rw [hpc]
    trivial
  have hnil := h.covered (Or.inr hundoes) _ hnone
  rw [pending_undoing hpc, if_pos rfl] at hnil
  cases hnil

/-- A value is put back, and leads back as the rest of the log does. -/
theorem TxInv.putBack (h : TxInv pages loc s t) {blk : BlockId} {offset : Int32} {val : Value}
    {rest : List (LogRecord Tx)} (hpc : s.pc t = .undoing blk offset val rest)
    (hidle : (s.locks.mgrs t).pc = .idle) (hstored : Stored s s' loc ⟨blk, offset, kind val⟩ val)
    (hpc' : s'.pc t = .rolling rest) (hlocks : s'.locks = s.locks)
    (hupdates : s'.updates = s.updates)
    (hcommitted : s'.committed = s.committed) : TxInv pages loc s' t := by
  have hundoes : undoes (s.pc t) := by
    rw [hpc]
    trivial
  have howns_iff : ∀ loc', Owns s' t loc' ↔ Owns s t loc' := by
    intro loc'
    unfold Owns
    rw [hupdates]
  have hvalue : committedValue pages s' loc = committedValue pages s loc := by
    unfold committedValue
    rw [hupdates, hcommitted]
  constructor
  · rw [hpc', hlocks]
    exact hidle
  · intro hfresh
    rw [hpc'] at hfresh
    cases hfresh
  · intro blk' offset' val' okToLog' hset
    rw [hpc'] at hset
    cases hset
  · intro blk' offset' val' rest' hundoing
    rw [hpc'] at hundoing
    cases hundoing
  · intro _ howns
    rw [hlocks]
    exact h.locked (Or.inr hundoes) ((howns_iff loc).mp howns)
  · intro _ loc' hnone
    have hnil := h.covered (Or.inr hundoes) loc' (fun howns => hnone ((howns_iff loc').mpr howns))
    rw [pending_undoing hpc] at hnil
    rw [hpc']
    show undoValues t loc' rest = []
    split at hnil
    · cases hnil
    · exact hnil
  · intro hactive
    rw [hpc'] at hactive
    exact hactive.elim
  · intro hactive
    rw [hpc'] at hactive
    exact hactive.elim
  · intro _ howns
    have hback := h.leadsBack hundoes ((howns_iff loc).mp howns)
    rw [pending_undoing hpc] at hback
    rw [hpc', hvalue]
    show ((undoValues t loc rest).getLast?.map Except.ok).getD _ = committedValue pages s loc
    by_cases heq : (⟨blk, offset, kind val⟩ : Location) = loc
    · rw [if_pos heq, List.getLast?_cons] at hback
      rw [hstored.self heq]
      cases hlast : (undoValues t loc rest).getLast? with
      | none =>
        rw [hlast] at hback
        exact hback
      | some v =>
        rw [hlast] at hback
        exact hback
    · rw [if_neg heq] at hback
      rw [hstored.other heq]
      exact hback

variable [Fintype Tx] {B : BlockSize}

theorem Inv.stored (h : Inv B pages loc cap s) (hfour : 4 ≤ cap) {blk : BlockId} {offset : Int32}
    {val : Value} {page : Page} (hshort : IsShort val)
    (hset : Endings.set (s.pages blk) offset val = .ok page)
    (hpages : s'.pages = Function.update s.pages blk page)
    (hapart : blk = loc.blk → (⟨blk, offset, kind val⟩ : Location) ≠ loc →
      loc.offset.toInt + cap ≤ offset.toInt ∨ offset.toInt + val.size ≤ loc.offset.toInt) :
    Stored s s' loc ⟨blk, offset, kind val⟩ val := by
  have hlen : (s.pages blk).length < 2147483648 := by
    rw [h.length]
    exact B.lt_int
  refine ⟨fun blk' => ?_, fun heq => ?_, fun hne => ?_⟩
  · rw [hpages]
    by_cases heq : blk' = blk
    · rw [heq, Function.update_self, set_length hshort hlen hset]
    · rw [Function.update_of_ne heq]
  · rw [hpages]
    exact valueAt_set_self heq hshort hlen hset
  · rw [hpages]
    exact valueAt_set_other hshort hlen h.size hfour hset (fun hblk => hapart hblk hne)

theorem Inv.writes (h : Inv B pages loc cap s) (hfour : 4 ≤ cap)
    (hapart : Apart pages s'.updates loc cap) (hstep : s.step (.write t) = some s') :
    ∃ u, Writes s s' loc t u := by
  unfold TxState.step at hstep
  cases hpc : s.pc t <;> simp only [hpc, reduceCtorEq] at hstep
  rename_i blk offset val okToLog
  cases hidle : (s.locks.mgrs t).pc <;>
    simp only [hidle, reduceCtorEq, Option.map_eq_some_iff] at hstep
  obtain ⟨s₁, hwrite, rfl⟩ := hstep
  obtain ⟨old, page, hset, hold, rfl⟩ := write_cases hwrite
  have hx : (s.locks.mgrs t).held blk = some .X := by
    have hpcOk := (h.txs t).pcOk
    rw [hpc] at hpcOk
    rcases hpcOk with hwait | hwait | ⟨-, hx⟩
    · rw [hwait] at hidle
      cases hidle
    · rw [hwait] at hidle
      cases hidle
    · exact hx
  refine ⟨⟨t, blk, offset, val, old⟩, rfl, rfl, rfl, rfl, rfl, setPc_self _ t _,
    fun t' hne => setPc_other _ _ hne, ?_, hidle, hx, hold, ?_⟩
  · rw [hpc]
    trivial
  · exact h.stored hfour ((h.txs t).short blk offset val okToLog hpc) hset rfl
      (fun hblk hne => hapart.other _ List.mem_cons_self hblk hne)

section Written

variable {u : Update Tx}

/-- No other transaction in progress has written the location that is written. -/
theorem Writes.alone (h : Writes s s' loc t u) (hinv : Inv B pages loc cap s)
    (heq : u.location = loc) {t' : Tx} (hne : t' ≠ t) (hprogress : inProgress (s.pc t')) :
    ¬ Owns s t' loc := by
  refine hinv.alone ?_ hne hprogress
  rw [← heq, show u.location.blk = u.blk from rfl, h.held]
  decide

theorem Writes.seen (h : Writes s s' loc t u) (hinv : Inv B pages loc cap s)
    (howns : Owns s' t loc) :
    ∃ u', s'.updates.find? (fun u => u.location = loc) = some u' ∧ u'.txNum = t ∧
      valueAt s'.pages loc = .ok u'.val := by
  by_cases heq : u.location = loc
  · refine ⟨u, ?_, h.txNum, h.stored.self heq⟩
    rw [h.updates, List.find?_cons, decide_eq_true heq]
  · rw [h.owns_iff heq] at howns
    obtain ⟨w, hw, hwt, hval⟩ := (hinv.txs t).seen h.active howns
    exact ⟨w, (h.find heq).trans hw, hwt, (h.stored.other heq).trans hval⟩

/-- The first write of the location logs the value that is committed. -/
theorem Writes.first_old (h : Writes s s' loc t u) (hinv : Inv B pages loc cap s)
    (heq : u.location = loc) (hnone : ¬ Owns s t loc) {o : Value} (hold : u.old = some o) :
    DirtyReads.committedValue pages s loc = .ok o := by
  have hread : valueAt s.pages loc = .ok o := heq ▸ h.old o hold
  rcases hinv.clean_cases t with hval | ⟨-, hmine⟩ | ⟨t', hne, hprogress, howns⟩
  · exact hval.symm.trans hread
  · exact absurd hmine hnone
  · exact absurd howns (h.alone hinv heq hne hprogress)

theorem Writes.restores (h : Writes s s' loc t u) (hinv : Inv B pages loc cap s)
    {w : Update Tx} (hw : first s'.updates t loc = some w) (hrestorable : Restorable w.old) :
    ∃ v, (undoValues t loc s'.log).getLast? = some v ∧
      DirtyReads.committedValue pages s loc = .ok v := by
  have ht := hinv.txs t
  rw [h.updates, first_cons] at hw
  by_cases heq : u.location = loc
  · rw [if_pos ⟨heq, h.txNum⟩] at hw
    by_cases howns : Owns s t loc
    · obtain ⟨w', hw'⟩ := first_isSome howns
      rw [hw'] at hw
      cases hw
      obtain ⟨v, hlast, hcommit⟩ := ht.restores h.active _ hw' hrestorable
      refine ⟨v, ?_, hcommit⟩
      rw [h.log]
      cases u.old with
      | none => exact hlast
      | some o => exact getLast_undoValues_record hlast
    · rw [first_eq_none howns] at hw
      cases hw
      have hnil := ht.covered (Or.inl h.active) loc howns
      rw [pending_active h.active] at hnil
      have hrestorable : Restorable u.old := hrestorable
      rw [h.log]
      cases hold : u.old with
      | none =>
        rw [hold] at hrestorable
        exact hrestorable.elim
      | some o =>
        rw [hold] at hrestorable
        have hplace : (⟨u.blk, u.offset, kind o⟩ : Location) = loc := by
          rw [kind_of_get (h.old o hold)]
          exact heq
        refine ⟨o, ?_, h.first_old hinv heq howns hold⟩
        show (undoValues t loc (record t u.blk u.offset o :: s.log)).getLast? = some o
        rw [← hplace, undoValues_record_self hrestorable, hplace, hnil]
        rfl
  · rw [if_neg (fun hboth => heq hboth.1)] at hw
    rw [h.undoValues_ne heq]
    exact ht.restores h.active w hw hrestorable

theorem Writes.txInv (h : Writes s s' loc t u) (hinv : Inv B pages loc cap s) :
    TxInv pages loc s' t := by
  have ht := hinv.txs t
  constructor
  · rw [h.pc, h.locks]
    exact h.idle
  · intro hfresh
    rw [h.pc] at hfresh
    cases hfresh
  · intro blk offset val okToLog hpc
    rw [h.pc] at hpc
    cases hpc
  · intro blk offset val rest hpc
    rw [h.pc] at hpc
    cases hpc
  · rintro - howns
    rw [h.locks]
    by_cases heq : u.location = loc
    · rw [← heq]
      exact h.held
    · exact ht.locked (Or.inl h.active) ((h.owns_iff heq).mp howns)
  · intro _ loc' hnone
    have hne : u.location ≠ loc' :=
      fun heq => hnone ⟨u, by rw [h.updates]; exact List.mem_cons_self, h.txNum, heq⟩
    have hnil := ht.covered (Or.inl h.active) loc' (fun howns => hnone ((h.owns_iff hne).mpr howns))
    rw [pending_active h.active] at hnil
    rw [h.pc]
    exact (h.undoValues_ne hne).trans hnil
  · exact fun _ howns => h.seen hinv howns
  · intro _ w hw hrestorable
    rw [h.committedValue (hinv.not_committed (Or.inl h.active))]
    exact h.restores hinv hw hrestorable
  · intro hundoes
    rw [h.pc] at hundoes
    exact hundoes.elim

end Written

theorem Inv.write (h : Inv B pages loc cap s) (hfour : 4 ≤ cap)
    (hapart : Apart pages s'.updates loc cap) (hstep : s.step (.write t) = some s') :
    Inv B pages loc cap s' := by
  obtain ⟨u, hw⟩ := h.writes hfour hapart hstep
  have hnot := h.not_committed (Or.inl hw.active)
  have hvalue : committedValue pages s' loc = committedValue pages s loc := hw.committedValue hnot
  have hprogress : inProgress (s'.pc t) := by
    rw [hw.pc]
    exact Or.inl trivial
  refine h.of_frame (t := t) ?_ ?_ ?_ hw.adds hw.others ?_
    (fun t' hne loc' => hw.undoValues_other hne loc') ?_ (hw.txInv h) ?_ ?_
  · rw [hw.locks]
    exact h.locks
  · exact fun blk => (hw.stored.length blk).trans (h.length blk)
  · refine hw.stored.size h.size (fun heq => hapart.own u ?_ heq)
    rw [hw.updates]
    exact List.mem_cons_self
  · intro t' _
    rw [hw.locks]
  · intro t' hne hother howns
    have hne' : u.location ≠ loc := fun heq => hw.alone h heq hne hother howns
    exact ⟨hw.stored.other hne', hvalue, hw.find hne'⟩
  · by_cases heq : u.location = loc
    · exact Or.inl (Or.inr ⟨hprogress, hw.owns heq⟩)
    · rcases h.clean_cases t with hval | ⟨-, howns⟩ | hrest
      · exact Or.inl (Or.inl ((hw.stored.other heq).trans (hval.trans hvalue.symm)))
      · exact Or.inl (Or.inr ⟨hprogress, (hw.owns_iff heq).mpr howns⟩)
      · exact Or.inr hrest
  · rw [hw.committed]
    intro t' hmem
    have hne : t' ≠ t := fun heq => hnot (heq ▸ hmem)
    rw [hw.others t' hne]
    exact h.ending t' hmem

/-- A value is put back. -/
theorem Inv.undoWrite (h : Inv B pages loc cap s) (hfour : 4 ≤ cap)
    (hapart : Apart pages s.updates loc cap) (hstep : s.step (.undoWrite t) = some s') :
    Inv B pages loc cap s' := by
  unfold TxState.step at hstep
  cases hpc : s.pc t <;> simp only [hpc, reduceCtorEq] at hstep
  rename_i blk offset val rest
  cases hidle : (s.locks.mgrs t).pc <;>
    simp only [hidle, reduceCtorEq, Option.map_eq_some_iff] at hstep
  obtain ⟨page, hpage, rfl⟩ := hstep
  have ht := h.txs t
  have hundoes : undoes (s.pc t) := by
    rw [hpc]
    trivial
  have hsmall := ht.small blk offset val rest hpc
  have hshort : IsShort val := by
    cases val with
    | int n => trivial
    | string str =>
      have hnil : str.length = 0 := by
        rw [size_string] at hsmall
        omega
      unfold IsShort
      omega
  have hnot := h.not_committed (Or.inr hundoes)
  have howned := ht.owns_undoing hpc
  have hrolling : ((s.setPage blk page).setPc t (.rolling rest)).pc t = .rolling rest :=
    setPc_self _ t _
  have hstored : Stored s ((s.setPage blk page).setPc t (.rolling rest)) loc
      ⟨blk, offset, kind val⟩ val := by
    refine h.stored hfour hshort (toOption_eq_some.mp hpage) rfl (fun hblk hne => ?_)
    obtain ⟨u, hu, -, hloc⟩ := howned
    have hub : u.blk = blk := congrArg Location.blk hloc
    have huo : u.offset = offset := congrArg Location.offset hloc
    have hdisjoint := hapart.other u hu (hub.trans hblk) (by rw [hloc]; exact hne)
    have hsize := four_le_size u.val
    rw [huo] at hdisjoint
    omega
  refine h.of_frame (t := t) h.locks ?_ ?_ (Or.inl rfl) (fun t' hne => setPc_other _ _ hne)
    (fun _ _ => rfl) (fun _ _ _ => rfl) ?_ (ht.putBack hpc hidle hstored hrolling rfl rfl rfl) ?_ ?_
  · exact fun blk' => (hstored.length blk').trans (h.length blk')
  · exact hstored.size h.size (fun _ => hsmall ▸ hfour)
  · intro t' hne hprogress howns
    have hne' : (⟨blk, offset, kind val⟩ : Location) ≠ loc := by
      intro heq
      rw [heq] at howned
      have hx := ht.locked (Or.inr hundoes) howned
      exact h.alone (by rw [hx]; decide) hne hprogress howns
    exact ⟨hstored.other hne', rfl, rfl⟩
  · have hprogress : inProgress (((s.setPage blk page).setPc t (.rolling rest)).pc t) := by
      rw [hrolling]
      exact Or.inr trivial
    by_cases heq : (⟨blk, offset, kind val⟩ : Location) = loc
    · rw [heq] at howned
      exact Or.inl (Or.inr ⟨hprogress, howned⟩)
    · rcases h.clean_cases t with hval | ⟨-, howns⟩ | hrest
      · exact Or.inl (Or.inl ((hstored.other heq).trans hval))
      · exact Or.inl (Or.inr ⟨hprogress, howns⟩)
      · exact Or.inr hrest
  · intro t' hmem
    by_cases heq : t' = t
    · rw [heq] at hmem
      exact absurd hmem hnot
    · rw [setPc_other _ _ heq]
      exact h.ending t' hmem

end Writes

section Runs

omit [DecidableEq Tx] in
theorem Apart.of_subset {updates updates' : List (Update Tx)} (hsub : updates ⊆ updates')
    (h : Apart pages updates' loc cap) : Apart pages updates loc cap where
  initial := h.initial
  own := fun u hu => h.own u (hsub hu)
  other := fun u hu => h.other u (hsub hu)

/-- No step forgets an update. -/
theorem updates_subset {l : TxLabel Tx} (hstep : s.step l = some s') : s.updates ⊆ s'.updates := by
  cases l with
  | write t =>
    rw [TxState.step] at hstep
    split at hstep
    · obtain ⟨s₁, hwrite, rfl⟩ := Option.map_eq_some_iff.mp hstep
      obtain ⟨old, page, -, -, rfl⟩ := write_cases hwrite
      exact List.subset_cons_self _ _
    · cases hstep
  | undo t =>
    rw [TxState.step] at hstep
    split at hstep
    · unfold TxState.undo at hstep
      split at hstep
      · split at hstep
        · cases hstep
          exact List.Subset.refl _
        · obtain ⟨_, -, h⟩ := Option.bind_eq_some_iff.mp hstep
          obtain ⟨locks, -, h⟩ := Option.bind_eq_some_iff.mp h
          cases h
          exact List.Subset.refl _
        · obtain ⟨_, -, h⟩ := Option.bind_eq_some_iff.mp hstep
          obtain ⟨locks, -, h⟩ := Option.bind_eq_some_iff.mp h
          cases h
          exact List.Subset.refl _
        · cases hstep
          exact List.Subset.refl _
      · cases hstep
        exact List.Subset.refl _
    · cases hstep
  | granted t =>
    obtain ⟨locks, -, rfl⟩ := Option.map_eq_some_iff.mp hstep
    exact List.Subset.refl _
  | begin t | rollback t =>
    rw [TxState.step] at hstep
    split at hstep
    · cases hstep
      exact List.Subset.refl _
    · cases hstep
  | get t loc | set t blk offset val okToLog | commit t | rolledBack t | unlock t blk | clear t
  | read t | undoWrite t =>
    rw [TxState.step] at hstep
    split at hstep
    · obtain ⟨_, -, rfl⟩ := Option.map_eq_some_iff.mp hstep
      exact List.Subset.refl _
    · cases hstep
  | destroy t =>
    rw [TxState.step] at hstep
    split at hstep
    all_goals first
      | cases hstep
      | obtain ⟨_, -, rfl⟩ := Option.map_eq_some_iff.mp hstep
        exact List.Subset.refl _

variable [Fintype Tx] {B : BlockSize}

theorem step_inv {l : TxLabel Tx} (h : Inv B pages loc cap s) (hfour : 4 ≤ cap)
    (hbefore : Apart pages s.updates loc cap) (hafter : Apart pages s'.updates loc cap)
    (hproceeds : Proceeds s l) (hstep : s.step l = some s') : Inv B pages loc cap s' := by
  cases l with
  | begin t => exact h.begin hstep
  | get t loc' => exact h.get hstep
  | set t blk offset val okToLog => exact h.set hproceeds hstep
  | granted t => exact h.granted hstep
  | read t => exact h.read hstep
  | write t => exact h.write hfour hafter hstep
  | commit t => exact h.commit hstep
  | rollback t => exact h.rollback hproceeds hstep
  | undo t => exact h.undo hstep
  | undoWrite t => exact h.undoWrite hfour hbefore hstep
  | rolledBack t => exact h.rolledBack hstep
  | destroy t => exact h.destroy hproceeds hstep
  | unlock t blk => exact h.unlock hstep
  | clear t => exact h.clear hstep

/-- A step that meets the condition. -/
def Proceed (s : TxState Tx) (l : TxLabel Tx) (s' : TxState Tx) : Prop :=
  Proceeds s l ∧ s.step l = some s'

/-- The invariant of the location holds as long as no other location overlaps it. -/
theorem run_inv {ls : List (TxLabel Tx)} (hrun : Runs.Run Proceed s ls s') (hfour : 4 ≤ cap)
    (hapart : Apart pages s'.updates loc cap) (h : Inv B pages loc cap s) :
    Inv B pages loc cap s' := by
  have hkeeps : Apart pages s'.updates loc cap → Inv B pages loc cap s' := by
    refine hrun.invariant (fun s => Apart pages s.updates loc cap → Inv B pages loc cap s) ?_
      (fun _ => h)
    rintro s l s' hinv ⟨hproceeds, hstep⟩ hafter
    have hbefore := hafter.of_subset (updates_subset hstep)
    exact step_inv (hinv hbefore) hfour hbefore hafter hproceeds hstep
  exact hkeeps hapart

/-- What the reader sees is its own last write, or what the committed transactions left. -/
theorem Inv.returns {val : Value} (h : Inv B pages loc cap s) (hreturns : s.Returns t loc val) :
    orInitial pages loc (newest s.updates loc (fun t' => t' = t || s.committed.contains t')) =
      .ok val := by
  obtain ⟨hpc, hidle, hval⟩ := hreturns
  have ht := h.txs t
  have hactive : active (s.pc t) := by
    rw [hpc]
    trivial
  have hread : valueAt s.pages loc = .ok val := hval
  by_cases howns : Owns s t loc
  · obtain ⟨u, hfind, hut, hu⟩ := ht.seen hactive howns
    have hvu : Except.ok u.val = (Except.ok val : Result Value) := hu.symm.trans hread
    rw [newest_of_find hfind (by simp [hut])]
    exact hvu
  · -- the reader has the block, so no other transaction in progress has written the location
    have hcommitted : committedValue pages s loc = .ok val := by
      rw [← hread]
      have hok := ht.pcOk
      rw [hpc] at hok
      rcases hok with hwait | ⟨-, hheld⟩
      · rw [hidle] at hwait
        cases hwait
      · rcases h.clean_cases t with hclean | ⟨-, hself⟩ | ⟨t', hne, hprogress, hother⟩
        · exact hclean.symm
        · exact absurd hself howns
        · exact absurd hother (h.alone hheld hne hprogress)
    rw [← hcommitted]
    unfold committedValue
    refine congrArg (orInitial pages loc) (newest_congr ?_)
    intro u hu hloc
    have hne : u.txNum ≠ t := fun heq => howns ⟨u, hu, heq, hloc⟩
    rw [decide_eq_false hne, Bool.false_or]

end Runs

section Examples

instance (val : Value) : Decidable (IsShort val) := by
  unfold IsShort
  cases val <;> infer_instance

instance (old : Option Value) : Decidable (Restorable old) := by
  unfold Restorable
  rcases old with _ | (_ | _) <;> infer_instance

theorem undoable_iff : Undoable s t ↔
    ∀ u ∈ s.updates, (first s.updates t u.location).all (fun u => decide (Restorable u.old)) := by
  constructor
  · intro h u _
    rw [Option.all_eq_true]
    exact fun u' hu' => decide_eq_true (h u.location u' hu')
  · intro h loc u hu
    obtain ⟨hmem, -, hloc⟩ := first_mem hu
    have hall := h u hmem
    rw [hloc, hu] at hall
    exact of_decide_eq_true hall

instance : Decidable (Undoable s t) := decidable_of_iff' _ undoable_iff

instance (l : TxLabel Tx) : Decidable (Proceeds s l) := by
  unfold Proceeds
  cases l <;> infer_instance

/-- Whether the transaction is about to read this value. -/
def returns (s : TxState Tx) (t : Tx) (loc : Location) (val : Value) : Bool :=
  (match s.pc t with
    | .get loc' => decide (loc' = loc)
    | _ => false) && decide ((s.locks.mgrs t).pc = .idle) &&
    decide (Endings.get (s.pages loc.blk) loc.offset loc.kind = .ok val)

/-- One transaction writes 7 and rolls back, the other reads. -/
def rolledBack : List (TxLabel Bool) :=
  [.begin false, .set false ⟨[116], 0⟩ 0 (.int 7) true, .granted false, .granted false,
    .write false, .rollback false, .undo false, .undoWrite false, .undo false,
    .rolledBack false, .unlock false ⟨[116], 0⟩, .clear false, .begin true,
    .get true ⟨⟨[116], 0⟩, 0, .int⟩, .granted true]

end Examples

end SampleDB.DirtyReads
