import SampleDB.BufferPool
import SampleDB.RecoveryLog

/-!
The pages of a database that is in use. Undoing the losers of the log gives the
committed pages, and so it does for the log that a crash would leave. The same holds
for the page in a buffer, as far as a crash would leave the records of all updates of
its block. Each operation on the log, on a buffer or on the disk keeps this.
-/
namespace SampleDB.RecoveryPages

open Slices Words Pages Blocks LogRecords BufferPool Patches RecoveryLog

/-- The page as transactions read it. -/
def view (disk : BlockId → Page) (pool : BlockId → Option (Buffer Page)) (blk : BlockId) : Page :=
  match pool blk with
  | some buf => buf.contents
  | none => disk blk

/-- Undoing the losers of the log on the page gives the committed page. -/
def Undoes (pages : BlockId → Page) (log : List Entry) (blk : BlockId) (page : Page) : Prop :=
  applyAll (undosOn blk (losers [] log)) page = committedPages pages log blk

/-- `size` is the length of a page; the newest `unsaved` entries of the log are not on disk,
and `lsn` is the LSN of the newest one. -/
structure PagesInv (size : ℕ) (pages : BlockId → Page) (log : List Entry) (unsaved : ℕ) (lsn : ℤ)
    (disk : BlockId → Page) (pool : BlockId → Option (Buffer Page)) : Prop where
  length : ∀ blk, (disk blk).length = size
  inPage : ∀ e ∈ log, e.InPage size
  onDisk : ∀ k ≤ unsaved, ∀ blk, Undoes pages (log.drop k) blk (disk blk)
  inView : ∀ k ≤ unsaved, ∀ blk, (∀ e ∈ log.take k, e.undoOn blk = none) →
    Undoes pages (log.drop k) blk (view disk pool blk)
  buffer : ∀ blk buf, pool blk = some buf →
    buf.blk = blk ∧ buf.contents.length = size ∧ (buf.txnum < 0 → buf.contents = disk blk)
  covered : ∀ k < unsaved, ∀ e blk, log[k]? = some e → e.undoOn blk ≠ none →
    ∃ buf, pool blk = some buf ∧ 0 ≤ buf.txnum ∧ lsn - k ≤ buf.lsn

section View

variable {disk : BlockId → Page} {pool : BlockId → Option (Buffer Page)} {blk blk' : BlockId}

theorem view_some {buf : Buffer Page} (h : pool blk = some buf) :
    view disk pool blk = buf.contents := by
  unfold view
  rw [h]

theorem view_update_ne (h : blk' ≠ blk) (buf : Option (Buffer Page)) :
    view disk (Function.update pool blk buf) blk' = view disk pool blk' := by
  unfold view
  rw [Function.update_of_ne h]

theorem view_update_self (buf : Buffer Page) :
    view disk (Function.update pool blk (some buf)) blk = buf.contents :=
  view_some (Function.update_self blk (some buf) pool)

end View

section Undoes

variable {pages : BlockId → Page} {log : List Entry} {blk : BlockId} {page : Page}

theorem undoOn_other {e : Entry} (h : ∀ t blk offset old, e.logRec ≠ .setInt t blk offset old)
    (blk : BlockId) : e.undoOn blk = none := by
  cases hundo : e.undoOn blk with
  | none => rfl
  | some p =>
    obtain ⟨t, offset, old, hrec, -⟩ := undoOn_eq_some hundo
    exact absurd hrec (h t blk offset old)

/-- A transaction begins. -/
theorem undoes_start {e : Entry} {t : Int32} (h : e.logRec = .start t) :
    Undoes pages (e :: log) blk page ↔ Undoes pages log blk page := by
  unfold Undoes
  rw [committedPages_other (by rw [h]; intro t' heq; cases heq), losers_start h]

/-- The updates of the transaction `t` on the block, when it ends: there are none, or there
are no others and the page is as the transaction leaves it. -/
def EndsOn (t : Int32) (log : List Entry) (blk : BlockId) (page after : Page) : Prop :=
  (∀ e ∈ losers [] log, byTx t e = true → e.undoOn blk = none) ∨
    ((∀ e ∈ losers [] log, e.undoOn blk ≠ none → byTx t e = true) ∧ page = after)

theorem undosOn_ended {t : Int32}
    (h : ∀ e ∈ losers [] log, byTx t e = true → e.undoOn blk = none) :
    undosOn blk (losers [t] log) = undosOn blk (losers [] log) := by
  rw [losers_ended]
  apply undosOn_filter
  intro e he hundo
  rw [Bool.not_eq_true', ← Bool.not_eq_true]
  exact fun hby => hundo (h e he hby)

theorem undosOn_ended_nil {t : Int32}
    (h : ∀ e ∈ losers [] log, e.undoOn blk ≠ none → byTx t e = true) :
    undosOn blk (losers [t] log) = [] := by
  rw [losers_ended]
  apply undosOn_eq_nil
  intro e he
  obtain ⟨hmem, hby⟩ := List.mem_filter.mp he
  by_contra hundo
  rw [h e hmem hundo] at hby
  cases hby

theorem undoes_rollback {e : Entry} {t : Int32} (h : e.logRec = .rollback t)
    (hends : EndsOn t log blk page (committedPages pages log blk))
    (hold : Undoes pages log blk page) : Undoes pages (e :: log) blk page := by
  unfold Undoes at hold ⊢
  rw [committedPages_other (by rw [h]; intro t' heq; cases heq), losers, h]
  rcases hends with hnone | ⟨hall, heq⟩
  · rw [undosOn_ended hnone]
    exact hold
  · rw [undosOn_ended_nil hall]
    exact heq

theorem undoes_commit {e : Entry} {t : Int32} (h : e.logRec = .commit t)
    (hown : own t log = (losers [] log).filter (byTx t))
    (hends : EndsOn t log blk page (redoAll (own t log) (committedPages pages log) blk))
    (hold : Undoes pages log blk page) : Undoes pages (e :: log) blk page := by
  unfold Undoes at hold ⊢
  rw [committedPages_commit h, losers, h]
  rcases hends with hnone | ⟨hall, heq⟩
  · rw [undosOn_ended hnone, redoAll_ne]
    · exact hold
    · intro e' he'
      rw [hown] at he'
      obtain ⟨hmem, hby⟩ := List.mem_filter.mp he'
      exact hnone e' hmem hby
  · rw [undosOn_ended_nil hall]
    exact heq

theorem undoes_checkpoint {e : Entry} (h : e.logRec = .checkpoint)
    (hpage : page = committedPages pages log blk) : Undoes pages (e :: log) blk page := by
  unfold Undoes
  rw [committedPages_other (by rw [h]; intro t' heq; cases heq), losers_checkpoint h]
  exact hpage

/-- An update, with the value that it finds in its record, leaves the committed pages. -/
theorem undoes_setInt {e : Entry} {t : Int32} {blk' : BlockId} {offset old : Int32}
    (h : e.logRec = .setInt t blk' offset old) :
    Undoes pages (e :: log) blk page ↔
      applyAll (undosOn blk (e :: losers [] log)) page = committedPages pages log blk := by
  unfold Undoes
  rw [committedPages_other (by rw [h]; intro t' heq; cases heq), losers, h]
  exact Iff.rfl

end Undoes

section Operations

variable {size : ℕ} {pages : BlockId → Page} {log : List Entry} {unsaved unsaved' : ℕ} {lsn : ℤ}
  {disk : BlockId → Page} {pool : BlockId → Option (Buffer Page)}

theorem PagesInv.view_length (h : PagesInv size pages log unsaved lsn disk pool)
    (blk : BlockId) : (view disk pool blk).length = size := by
  unfold view
  split
  · rename_i buf hbuf
    exact (h.buffer blk buf hbuf).2.1
  · exact h.length blk

theorem PagesInv.undos_fit (h : PagesInv size pages log unsaved lsn disk pool) (blk : BlockId) :
    ∀ p ∈ undosOn blk (losers [] log), p.Fits size :=
  undosOn_fits (fun e he => h.inPage e (mem_losers_setInt he).1)

theorem PagesInv.undoes_disk (h : PagesInv size pages log unsaved lsn disk pool)
    (blk : BlockId) : Undoes pages log blk (disk blk) :=
  h.onDisk 0 (Nat.zero_le _) blk

theorem PagesInv.undoes_view (h : PagesInv size pages log unsaved lsn disk pool)
    (blk : BlockId) : Undoes pages log blk (view disk pool blk) :=
  h.inView 0 (Nat.zero_le _) blk (fun e he => by cases he)

/-- More of the log is saved. -/
theorem PagesInv.save (h : PagesInv size pages log unsaved lsn disk pool)
    (hle : unsaved' ≤ unsaved) : PagesInv size pages log unsaved' lsn disk pool where
  length := h.length
  inPage := h.inPage
  onDisk := fun k hk => h.onDisk k (Nat.le_trans hk hle)
  inView := fun k hk => h.inView k (Nat.le_trans hk hle)
  buffer := h.buffer
  covered := fun k hk => h.covered k (Nat.lt_of_lt_of_le hk hle)

/-- A record that is no update is added to the log. -/
theorem PagesInv.append (h : PagesInv size pages log unsaved lsn disk pool) {e : Entry}
    (hrec : ∀ t blk offset old, e.logRec ≠ .setInt t blk offset old)
    (hdisk : ∀ blk, Undoes pages (e :: log) blk (disk blk))
    (hview : ∀ blk, Undoes pages (e :: log) blk (view disk pool blk))
    (hle : unsaved' ≤ unsaved + 1) :
    PagesInv size pages (e :: log) unsaved' (lsn + 1) disk pool where
  length := h.length
  inPage := by
    intro e' he'
    rcases List.mem_cons.mp he' with rfl | he'
    · intro t blk offset old heq
      exact absurd heq (hrec t blk offset old)
    · exact h.inPage e' he'
  onDisk := by
    intro k hk blk
    cases k with
    | zero => exact hdisk blk
    | succ k => exact h.onDisk k (by omega) blk
  inView := by
    intro k hk blk hnone
    cases k with
    | zero => exact hview blk
    | succ k =>
      rw [List.take_succ_cons] at hnone
      exact h.inView k (by omega) blk (fun e' he' => hnone e' (List.mem_cons_of_mem e he'))
  buffer := h.buffer
  covered := by
    intro k hk e' blk hget hundo
    cases k with
    | zero =>
      cases hget
      exact absurd (undoOn_other hrec blk) hundo
    | succ k =>
      obtain ⟨buf, hbuf, htx, hlsn⟩ := h.covered k (by omega) e' blk hget hundo
      refine ⟨buf, hbuf, htx, ?_⟩
      omega

/-- A value of the buffer is that of the disk wherever no loser covers it. -/
theorem PagesInv.undo_disk (h : PagesInv size pages log unsaved lsn disk pool) {blk : BlockId}
    {offset old new : Int32} {buf : Buffer Page} {page : Page} (hbuf : pool blk = some buf)
    (hget : buf.contents.getInt offset.toInt = .ok old)
    (hset : buf.contents.setInt offset.toInt new = .ok page) :
    applyAll (undosOn blk (losers [] log))
        ((⟨offset.toInt.toNat, encodeInt old⟩ : Patch UInt8).apply (disk blk)) =
      applyAll (undosOn blk (losers [] log)) (disk blk) := by
  obtain ⟨-, hlen, -⟩ := h.buffer blk buf hbuf
  obtain ⟨h0, hfits, -⟩ := Page.getInt_eq_ok _ _ _ offset.toInt_lt hget
  obtain ⟨-, -, hback⟩ := Page.setInt_eq_ok _ _ _ _ offset.toInt_lt
    (Page.setInt_restore _ _ _ _ _ offset.toInt_lt hget hset)
  have hview : view disk pool blk = buf.contents := view_some hbuf
  have hpatch : (⟨offset.toInt.toNat, encodeInt old⟩ : Patch UInt8).Fits (disk blk).length := by
    unfold Patch.Fits
    dsimp only
    rw [encodeInt_length, h.length]
    omega
  have hfit := h.undos_fit blk
  apply applyAll_congr (Patch.apply_length hpatch)
  · rw [Patch.apply_length hpatch, h.length]
    exact hfit
  · intro j hj
    by_cases hcov : (⟨offset.toInt.toNat, encodeInt old⟩ : Patch UInt8).Covers j
    · have hsame : (applyAll (undosOn blk (losers [] log)) (view disk pool blk))[j]? =
          (applyAll (undosOn blk (losers [] log)) (disk blk))[j]? := by
        rw [h.undoes_view blk, h.undoes_disk blk]
      rw [applyAll_getElem?_of_not_covers (by rw [h.view_length]; exact hfit) hj,
        applyAll_getElem?_of_not_covers (by rw [h.length]; exact hfit) hj, hview] at hsame
      rw [Patch.apply_getElem?_of_covers hpatch hcov, ← hsame]
      have hwindow : buf.contents[j]? = (encodeInt old)[j - offset.toInt.toNat]? := by
        rw [hback]
        exact (splice_getElem? _ _ _ _ (by
          rw [encodeInt_length, Page.setInt_length _ _ _ _ offset.toInt_lt hset]
          omega)).trans (if_pos hcov)
      exact hwindow.symm
    · exact Patch.apply_getElem?_of_not_covers hpatch hcov

/-- The update of a transaction: its record, then the write to the buffer. -/
theorem PagesInv.write (h : PagesInv size pages log unsaved lsn disk pool) {e : Entry}
    {t : Int32} {blk : BlockId} {offset old : Int32} {buf : Buffer Page} {page : Page} {txnum : ℤ}
    (hrec : e.logRec = .setInt t blk offset old) (hbuf : pool blk = some buf)
    (hget : buf.contents.getInt offset.toInt = .ok old)
    (hset : buf.contents.setInt offset.toInt e.newVal = .ok page) (htx : 0 ≤ txnum)
    (hlsn : 0 ≤ lsn) (hle : unsaved' ≤ unsaved + 1) :
    PagesInv size pages (e :: log) unsaved' (lsn + 1) disk (Function.update pool blk
      (some ({ buf with contents := page }.setModified txnum (lsn + 1)))) := by
  obtain ⟨hblk, hlen, -⟩ := h.buffer blk buf hbuf
  obtain ⟨h0, hfits, hold⟩ := Page.getInt_eq_ok _ _ _ offset.toInt_lt hget
  obtain ⟨-, -, hback⟩ := Page.setInt_eq_ok _ _ _ _ offset.toInt_lt
    (Page.setInt_restore _ _ _ _ _ offset.toInt_lt hget hset)
  have hview : view disk pool blk = buf.contents := view_some hbuf
  have hundo := undoOn_setInt hrec
  constructor
  · exact h.length
  · intro e' he'
    rcases List.mem_cons.mp he' with rfl | he'
    · intro t' blk' offset' old' heq
      rw [hrec] at heq
      cases heq
      exact ⟨h0, by omega⟩
    · exact h.inPage e' he'
  · intro k hk blk'
    cases k with
    | succ k => exact h.onDisk k (by omega) blk'
    | zero =>
      refine (undoes_setInt hrec).mpr (Eq.trans ?_ (h.undoes_disk blk'))
      by_cases heq : blk' = blk
      · rw [heq, undosOn_cons_some hundo, applyAll_cons]
        exact h.undo_disk hbuf hget hset
      · rw [undosOn_cons_none (undoOn_ne hrec heq)]
  · intro k hk blk' hnone
    cases k with
    | zero =>
      refine (undoes_setInt hrec).mpr (Eq.trans ?_ (h.undoes_view blk'))
      by_cases heq : blk' = blk
      · rw [heq, undosOn_cons_some hundo, applyAll_cons, view_update_self, hview]
        congr 1
        exact hback.symm
      · rw [undosOn_cons_none (undoOn_ne hrec heq), view_update_ne heq]
    | succ k =>
      rw [List.take_succ_cons] at hnone
      have hne : blk' ≠ blk := by
        intro heq
        have hself := hnone e List.mem_cons_self
        rw [heq, hundo] at hself
        cases hself
      rw [view_update_ne hne]
      exact h.inView k (by omega) blk' (fun e' he' => hnone e' (List.mem_cons_of_mem e he'))
  · intro blk' buf' hbuf'
    by_cases heq : blk' = blk
    · rw [heq, Function.update_self] at hbuf'
      cases hbuf'
      refine ⟨hblk.trans heq.symm, ?_, ?_⟩
      · exact (Page.setInt_length _ _ _ _ offset.toInt_lt hset).trans hlen
      · intro hneg
        exact absurd hneg (by simpa [Buffer.setModified] using htx)
    · rw [Function.update_of_ne heq] at hbuf'
      exact h.buffer blk' buf' hbuf'
  · intro k hk e' blk' hget' hundo'
    by_cases heq : blk' = blk
    · have hmod : ∀ b : Buffer Page, (b.setModified txnum (lsn + 1)).lsn = lsn + 1 :=
        fun b => if_pos (by omega)
      rw [heq, Function.update_self]
      exact ⟨_, rfl, htx, by rw [hmod]; omega⟩
    · rw [Function.update_of_ne heq]
      cases k with
      | zero =>
        cases hget'
        exact absurd (undoOn_ne hrec heq) hundo'
      | succ k =>
        obtain ⟨buf', hbuf', htx', hlsn'⟩ := h.covered k (by omega) e' blk' hget' hundo'
        exact ⟨buf', hbuf', htx', by omega⟩

/-- The undo of a loser on the buffer. -/
theorem PagesInv.undo (h : PagesInv size pages log unsaved lsn disk pool) {e : Entry}
    {t : Int32} {blk : BlockId} {offset old : Int32} {buf : Buffer Page} {page : Page} {txnum : ℤ}
    (he : e ∈ losers [] log) (hrec : e.logRec = .setInt t blk offset old)
    (hbuf : pool blk = some buf) (hset : buf.contents.setInt offset.toInt old = .ok page)
    (htx : 0 ≤ txnum) :
    PagesInv size pages log unsaved lsn disk (Function.update pool blk
      (some ({ buf with contents := page }.setModified txnum (-1)))) := by
  obtain ⟨hblk, hlen, -⟩ := h.buffer blk buf hbuf
  obtain ⟨h0, hfits, hpage⟩ := Page.setInt_eq_ok _ _ _ _ offset.toInt_lt hset
  have hpage' := Page.setInt_length _ _ _ _ offset.toInt_lt hset
  have hview : view disk pool blk = buf.contents := view_some hbuf
  have hundo := undoOn_setInt hrec
  have hkeep : ∀ b : Buffer Page, (b.setModified txnum (-1)).lsn = b.lsn := by
    intro b
    unfold Buffer.setModified
    dsimp only
    exact if_neg (by decide)
  constructor
  · exact h.length
  · exact h.inPage
  · exact h.onDisk
  · intro k hk blk' hnone
    by_cases heq : blk' = blk
    · rw [heq, view_update_self]
      rw [heq] at hnone
      refine Eq.trans ?_ (h.inView k hk blk hnone)
      -- the record is older than those, so its patch is among the undos
      have hmem : e ∈ losers [] (log.drop k) := by
        rw [← List.take_append_drop k log] at he
        rcases mem_losers_append he with hnew | hmem
        · rw [hnone e hnew] at hundo
          cases hundo
        · exact hmem
      have hpatch := mem_undosOn.mpr ⟨e, hmem, hundo⟩
      have hfit : ∀ p ∈ undosOn blk (losers [] (log.drop k)), p.Fits size :=
        undosOn_fits (fun e' he' => h.inPage e' (List.mem_of_mem_drop (mem_losers_setInt he').1))
      rw [hview]
      apply applyAll_congr hpage'
      · intro p hp
        show p.Fits page.length
        rw [hpage', hlen]
        exact hfit p hp
      · intro j hj
        show page[j]? = _
        rw [hpage]
        exact (splice_getElem? _ _ _ _ (by rw [encodeInt_length]; omega)).trans
          (if_neg (hj _ hpatch))
    · rw [view_update_ne heq]
      exact h.inView k hk blk' hnone
  · intro blk' buf' hbuf'
    by_cases heq : blk' = blk
    · rw [heq, Function.update_self] at hbuf'
      cases hbuf'
      refine ⟨hblk.trans heq.symm, hpage'.trans hlen, ?_⟩
      intro hneg
      exact absurd hneg (by simpa [Buffer.setModified] using htx)
    · rw [Function.update_of_ne heq] at hbuf'
      exact h.buffer blk' buf' hbuf'
  · intro k hk e' blk' hget' hundo'
    obtain ⟨buf', hbuf', htx', hlsn'⟩ := h.covered k hk e' blk' hget' hundo'
    by_cases heq : blk' = blk
    · rw [heq] at hbuf' ⊢
      rw [hbuf] at hbuf'
      cases hbuf'
      rw [Function.update_self]
      exact ⟨_, rfl, htx, by rw [hkeep]; exact hlsn'⟩
    · rw [Function.update_of_ne heq]
      exact ⟨buf', hbuf', htx', hlsn'⟩

/-- Writing a modified buffer back, behind the flush of the log up to its LSN. -/
theorem PagesInv.flushBuffer (h : PagesInv size pages log unsaved lsn disk pool) {blk : BlockId}
    {buf : Buffer Page} (hbuf : pool blk = some buf)
    (hflush : unsaved' = 0 ∨ (unsaved' = unsaved ∧ buf.lsn < lsn - unsaved)) :
    PagesInv size pages log unsaved' lsn (Function.update disk buf.blk buf.contents)
      (Function.update pool blk (some { buf with txnum := -1 })) := by
  obtain ⟨rfl, hlen, -⟩ := h.buffer blk buf hbuf
  have hle : unsaved' ≤ unsaved := by
    rcases hflush with rfl | ⟨rfl, -⟩
    · exact Nat.zero_le _
    · exact Nat.le_refl _
  have hview : view (Function.update disk buf.blk buf.contents)
      (Function.update pool buf.blk (some { buf with txnum := -1 })) = view disk pool := by
    funext blk'
    by_cases heq : blk' = buf.blk
    · rw [heq, view_update_self, view_some hbuf]
    · rw [view_update_ne heq]
      unfold view
      rw [Function.update_of_ne heq]
  -- what is not saved then is on other blocks
  have hnone : ∀ k ≤ unsaved', ∀ e ∈ log.take k, e.undoOn buf.blk = none := by
    intro k hk e he
    rcases hflush with rfl | ⟨rfl, hlt⟩
    · rw [Nat.le_zero.mp hk] at he
      cases he
    · by_contra hundo
      obtain ⟨i, hi, hget⟩ := List.mem_take_iff_getElem.mp he
      obtain ⟨buf', hbuf', -, hlsn⟩ := h.covered i (by omega) e buf.blk
        (List.getElem?_eq_some_iff.mpr ⟨by omega, hget⟩) hundo
      rw [hbuf] at hbuf'
      cases hbuf'
      omega
  constructor
  · intro blk'
    by_cases heq : blk' = buf.blk
    · rw [heq, Function.update_self]
      exact hlen
    · rw [Function.update_of_ne heq]
      exact h.length blk'
  · exact h.inPage
  · intro k hk blk'
    by_cases heq : blk' = buf.blk
    · have hsame : view disk pool buf.blk = buf.contents := view_some hbuf
      rw [heq, Function.update_self, ← hsame]
      exact h.inView k (by omega) buf.blk (hnone k hk)
    · rw [Function.update_of_ne heq]
      exact h.onDisk k (by omega) blk'
  · rw [hview]
    exact fun k hk => h.inView k (by omega)
  · intro blk' buf' hbuf'
    by_cases heq : blk' = buf.blk
    · rw [heq, Function.update_self] at hbuf'
      cases hbuf'
      rw [heq, Function.update_self]
      exact ⟨rfl, hlen, fun _ => rfl⟩
    · rw [Function.update_of_ne heq] at hbuf' ⊢
      exact h.buffer blk' buf' hbuf'
  · intro k hk e blk' hget hundo
    have hne : blk' ≠ buf.blk := by
      intro heq
      rw [heq] at hundo
      apply hundo
      apply hnone (k + 1) (by omega)
      obtain ⟨hlt, hget⟩ := List.getElem?_eq_some_iff.mp hget
      exact List.mem_take_iff_getElem.mpr ⟨k, by omega, hget⟩
    rw [Function.update_of_ne hne]
    exact h.covered k (by omega) e blk' hget hundo

/-- A block is loaded into a buffer that had another block before. -/
theorem PagesInv.load (h : PagesInv size pages log unsaved lsn disk pool) {blk : BlockId}
    (hnone : pool blk = none) (lsn' : ℤ) :
    PagesInv size pages log unsaved lsn disk
        (Function.update pool blk (some ⟨disk blk, blk, 0, -1, lsn'⟩)) ∧
      view disk (Function.update pool blk (some ⟨disk blk, blk, 0, -1, lsn'⟩)) =
        view disk pool := by
  have hview : view disk (Function.update pool blk (some ⟨disk blk, blk, 0, -1, lsn'⟩)) =
      view disk pool := by
    funext blk'
    by_cases heq : blk' = blk
    · rw [heq, view_update_self]
      unfold view
      rw [hnone]
    · rw [view_update_ne heq]
  refine ⟨⟨h.length, h.inPage, h.onDisk, ?_, ?_, ?_⟩, hview⟩
  · rw [hview]
    exact h.inView
  · intro blk' buf' hbuf'
    by_cases heq : blk' = blk
    · rw [heq, Function.update_self] at hbuf'
      cases hbuf'
      rw [heq]
      exact ⟨rfl, h.length blk, fun _ => rfl⟩
    · rw [Function.update_of_ne heq] at hbuf'
      exact h.buffer blk' buf' hbuf'
  · intro k hk e blk' hget hundo
    obtain ⟨buf', hbuf', hmod⟩ := h.covered k hk e blk' hget hundo
    have hne : blk' ≠ blk := by
      intro heq
      rw [heq, hnone] at hbuf'
      cases hbuf'
    rw [Function.update_of_ne hne]
    exact ⟨buf', hbuf', hmod⟩

/-- An unmodified buffer is given to another block. -/
theorem PagesInv.evict (h : PagesInv size pages log unsaved lsn disk pool) {blk : BlockId}
    {buf : Buffer Page} (hbuf : pool blk = some buf) (hclean : buf.txnum < 0) :
    PagesInv size pages log unsaved lsn disk (Function.update pool blk none) ∧
      view disk (Function.update pool blk none) = view disk pool := by
  have hview : view disk (Function.update pool blk none) = view disk pool := by
    funext blk'
    by_cases heq : blk' = blk
    · rw [heq, view_some hbuf, (h.buffer blk buf hbuf).2.2 hclean]
      unfold view
      rw [Function.update_self]
    · rw [view_update_ne heq]
  refine ⟨⟨h.length, h.inPage, h.onDisk, ?_, ?_, ?_⟩, hview⟩
  · rw [hview]
    exact h.inView
  · intro blk' buf' hbuf'
    by_cases heq : blk' = blk
    · rw [heq, Function.update_self] at hbuf'
      cases hbuf'
    · rw [Function.update_of_ne heq] at hbuf'
      exact h.buffer blk' buf' hbuf'
  · intro k hk e blk' hget hundo
    obtain ⟨buf', hbuf', htx, hlsn⟩ := h.covered k hk e blk' hget hundo
    have hne : blk' ≠ blk := by
      intro heq
      rw [heq, hbuf] at hbuf'
      cases hbuf'
      omega
    rw [Function.update_of_ne hne]
    exact ⟨buf', hbuf', htx, hlsn⟩

/-- A crash loses the buffers and what is not saved of the log. -/
theorem PagesInv.crash (h : PagesInv size pages log unsaved lsn disk pool) (lsn' : ℤ) :
    PagesInv size pages (log.drop unsaved) 0 lsn' disk (fun _ => none) where
  length := h.length
  inPage := fun e he => h.inPage e (List.mem_of_mem_drop he)
  onDisk := by
    intro k hk blk
    rw [Nat.le_zero.mp hk]
    exact h.onDisk unsaved (Nat.le_refl _) blk
  inView := by
    intro k hk blk _
    rw [Nat.le_zero.mp hk]
    exact h.onDisk unsaved (Nat.le_refl _) blk
  buffer := by
    intro blk buf hbuf
    cases hbuf
  covered := by
    intro k hk
    omega

end Operations

end SampleDB.RecoveryPages
