import SampleDB.LogRecords
import SampleDB.Patches

/-!
What a log says about the pages. The committed pages are those that the committed
transactions leave; the losers are the updates that a recovery from the log has to
undo, and the own updates of a transaction those that its rollback has to undo.
Transaction numbers start again in every session, so a START record ends the search
for own updates and a checkpoint the search for losers.
-/
namespace SampleDB.RecoveryLog

open Slices Words Pages Blocks LogRecords Patches

/-- A log record, and the value that was written behind a SETINT record. -/
structure Entry where
  logRec : LogRecord Int32
  newVal : Int32
  deriving DecidableEq, Repr

namespace Entry

/-- What the update writes back where it is undone. -/
def undoOn (blk : BlockId) (e : Entry) : Option (Patch UInt8) :=
  match e.logRec with
  | .setInt _ blk' offset old =>
      if blk' = blk then some ⟨offset.toInt.toNat, encodeInt old⟩ else none
  | _ => none

/-- The update itself. -/
def redo (e : Entry) (pages : BlockId → Page) : BlockId → Page :=
  match e.logRec with
  | .setInt _ blk offset _ =>
      Function.update pages blk
        (((pages blk).setInt offset.toInt e.newVal).toOption.getD (pages blk))
  | _ => pages

/-- The offset of an update lies inside a page of `n` bytes. -/
def InPage (n : ℕ) (e : Entry) : Prop :=
  ∀ t blk offset old, e.logRec = .setInt t blk offset old →
    0 ≤ offset.toInt ∧ offset.toInt + 4 ≤ n

end Entry

/-- Logs have the newest entry first. These are the updates of the transaction since it
began. -/
def own (t : Int32) : List Entry → List Entry
  | [] => []
  | e :: log =>
      match e.logRec with
      | .start t' => if t' = t then [] else own t log
      | .setInt t' _ _ _ => if t' = t then e :: own t log else own t log
      | _ => own t log

/-- The updates since the last checkpoint whose transactions have not ended behind them;
`fin` are transactions that have ended already. -/
def losers (fin : List Int32) : List Entry → List Entry
  | [] => []
  | e :: log =>
      match e.logRec with
      | .checkpoint => []
      | .commit t => losers (t :: fin) log
      | .rollback t => losers (t :: fin) log
      | .setInt t _ _ _ => if t ∈ fin then losers fin log else e :: losers fin log
      | _ => losers fin log

/-- The updates carried out, the oldest first. -/
def redoAll (es : List Entry) (pages : BlockId → Page) : BlockId → Page :=
  es.foldr Entry.redo pages

/-- The pages with the updates of the committed transactions, in the order of the COMMIT
records. -/
def committedPages (pages : BlockId → Page) : List Entry → BlockId → Page
  | [] => pages
  | e :: log =>
      match e.logRec with
      | .commit t => redoAll (own t log) (committedPages pages log)
      | _ => committedPages pages log

/-- The patches that undo the updates of one block. -/
def undosOn (blk : BlockId) (es : List Entry) : List (Patch UInt8) :=
  es.filterMap (Entry.undoOn blk)

section Undo

theorem mem_undosOn {blk : BlockId} {es : List Entry} {p : Patch UInt8} :
    p ∈ undosOn blk es ↔ ∃ e ∈ es, e.undoOn blk = some p :=
  List.mem_filterMap

theorem undoOn_eq_some {blk : BlockId} {e : Entry} {p : Patch UInt8}
    (h : e.undoOn blk = some p) : ∃ t offset old, e.logRec = .setInt t blk offset old ∧
      p = ⟨offset.toInt.toNat, encodeInt old⟩ := by
  unfold Entry.undoOn at h
  split at h
  · rename_i t blk' offset old heq
    split at h
    · rename_i hblk
      cases h
      exact ⟨t, offset, old, by rw [heq, hblk], rfl⟩
    · cases h
  · cases h

theorem undoOn_setInt {e : Entry} {t : Int32} {blk : BlockId} {offset old : Int32}
    (h : e.logRec = .setInt t blk offset old) :
    e.undoOn blk = some ⟨offset.toInt.toNat, encodeInt old⟩ := by
  unfold Entry.undoOn
  rw [h]
  exact if_pos rfl

theorem undoOn_ne {e : Entry} {t : Int32} {blk blk' : BlockId} {offset old : Int32}
    (h : e.logRec = .setInt t blk offset old) (hne : blk' ≠ blk) : e.undoOn blk' = none := by
  unfold Entry.undoOn
  rw [h]
  exact if_neg (Ne.symm hne)

theorem undosOn_cons_some {blk : BlockId} {e : Entry} {p : Patch UInt8}
    (h : e.undoOn blk = some p) (es : List Entry) :
    undosOn blk (e :: es) = p :: undosOn blk es := by
  unfold undosOn
  rw [List.filterMap_cons, h]

theorem undosOn_cons_none {blk : BlockId} {e : Entry} (h : e.undoOn blk = none)
    (es : List Entry) : undosOn blk (e :: es) = undosOn blk es := by
  unfold undosOn
  rw [List.filterMap_cons, h]

/-- Entries that are not on the block do not matter. -/
theorem undosOn_filter (blk : BlockId) (es : List Entry) (keep : Entry → Bool)
    (h : ∀ e ∈ es, e.undoOn blk ≠ none → keep e = true) :
    undosOn blk (es.filter keep) = undosOn blk es := by
  induction es with
  | nil => rfl
  | cons e es ih =>
    have ih := ih (fun e' he' => h e' (List.mem_cons_of_mem e he'))
    cases hundo : e.undoOn blk with
    | none =>
      rw [undosOn_cons_none hundo, ← ih]
      by_cases hkeep : keep e = true
      · rw [List.filter_cons_of_pos hkeep, undosOn_cons_none hundo]
      · rw [List.filter_cons_of_neg hkeep]
    | some p =>
      have hkeep := h e List.mem_cons_self (by rw [hundo]; exact Option.some_ne_none p)
      rw [List.filter_cons_of_pos hkeep, undosOn_cons_some hundo, undosOn_cons_some hundo, ih]

theorem undosOn_eq_nil {blk : BlockId} {es : List Entry} (h : ∀ e ∈ es, e.undoOn blk = none) :
    undosOn blk es = [] :=
  List.filterMap_eq_nil_iff.mpr h

theorem undosOn_fits {blk : BlockId} {es : List Entry} {n : ℕ} (h : ∀ e ∈ es, e.InPage n) :
    ∀ p ∈ undosOn blk es, p.Fits n := by
  intro p hp
  obtain ⟨e, he, hundo⟩ := mem_undosOn.mp hp
  obtain ⟨t, offset, old, hrec, rfl⟩ := undoOn_eq_some hundo
  obtain ⟨h0, hle⟩ := h e he t blk offset old hrec
  unfold Patch.Fits
  dsimp only
  rw [encodeInt_length]
  omega

end Undo

section Losers

/-- The transaction of the entry. -/
def byTx (t : Int32) (e : Entry) : Bool := e.logRec.txNumber = some t

theorem mem_losers_setInt {fin : List Int32} {log : List Entry} {e : Entry}
    (h : e ∈ losers fin log) : e ∈ log ∧ ∃ t blk offset old, e.logRec = .setInt t blk offset old ∧
      t ∉ fin := by
  induction log generalizing fin with
  | nil => cases h
  | cons e' log ih =>
    unfold losers at h
    split at h
    · cases h
    · obtain ⟨hmem, t, blk, offset, old, hrec, hfin⟩ := ih h
      exact ⟨List.mem_cons_of_mem _ hmem, t, blk, offset, old, hrec,
        fun hin => hfin (List.mem_cons_of_mem _ hin)⟩
    · obtain ⟨hmem, t, blk, offset, old, hrec, hfin⟩ := ih h
      exact ⟨List.mem_cons_of_mem _ hmem, t, blk, offset, old, hrec,
        fun hin => hfin (List.mem_cons_of_mem _ hin)⟩
    · rename_i t blk offset old hrec
      split at h
      · obtain ⟨hmem, hset⟩ := ih h
        exact ⟨List.mem_cons_of_mem _ hmem, hset⟩
      · rename_i hfin
        rcases List.mem_cons.mp h with rfl | h
        · exact ⟨List.mem_cons_self, t, blk, offset, old, hrec, hfin⟩
        · obtain ⟨hmem, hset⟩ := ih h
          exact ⟨List.mem_cons_of_mem _ hmem, hset⟩
    · obtain ⟨hmem, hset⟩ := ih h
      exact ⟨List.mem_cons_of_mem _ hmem, hset⟩

/-- With one more transaction ended, its updates are left out. -/
theorem losers_add (t : Int32) (fin fin' : List Int32)
    (h : ∀ t', t' ∈ fin' ↔ t' = t ∨ t' ∈ fin) (log : List Entry) :
    losers fin' log = (losers fin log).filter (fun e => !byTx t e) := by
  induction log generalizing fin fin' with
  | nil => rfl
  | cons e log ih =>
    have hend : ∀ t₁, losers (t₁ :: fin') log =
        (losers (t₁ :: fin) log).filter (fun e => !byTx t e) := by
      intro t₁
      apply ih
      intro t'
      rw [List.mem_cons, List.mem_cons, h]
      tauto
    unfold losers
    split
    · rfl
    · exact hend _
    · exact hend _
    · rename_i t₁ blk offset old hrec
      by_cases hself : t₁ = t
      · have hby : byTx t e = true := by
          unfold byTx
          rw [hrec, hself]
          exact decide_eq_true rfl
        rw [if_pos ((h t₁).mpr (Or.inl hself)), ih fin fin' h]
        split
        · rfl
        · rw [List.filter_cons_of_neg (by rw [hby]; decide)]
      · have hby : byTx t e = false := by
          unfold byTx
          rw [hrec]
          exact decide_eq_false (fun heq => hself (Option.some.inj heq))
        by_cases hin : t₁ ∈ fin
        · rw [if_pos ((h t₁).mpr (Or.inr hin)), if_pos hin, ih fin fin' h]
        · have hnot : t₁ ∉ fin' := fun hmem => ((h t₁).mp hmem).elim hself hin
          rw [if_neg hnot, if_neg hin, List.filter_cons_of_pos (by rw [hby]; decide),
            ih fin fin' h]
    · exact ih fin fin' h

theorem losers_subset {fin fin' : List Int32} (h : ∀ t ∈ fin', t ∈ fin) {log : List Entry}
    {e : Entry} (he : e ∈ losers fin log) : e ∈ losers fin' log := by
  induction log generalizing fin fin' with
  | nil => cases he
  | cons e' log ih =>
    have hend : ∀ t, ∀ t' ∈ t :: fin', t' ∈ t :: fin := by
      intro t t' ht'
      rcases List.mem_cons.mp ht' with rfl | ht'
      · exact List.mem_cons_self
      · exact List.mem_cons_of_mem t (h t' ht')
    unfold losers at he ⊢
    split at he
    · cases he
    · exact ih (hend _) he
    · exact ih (hend _) he
    · rename_i t blk offset old hrec
      split at he
      · split
        · exact ih h he
        · exact List.mem_cons_of_mem _ (ih h he)
      · rename_i hfin
        rw [if_neg (fun hin => hfin (h t hin))]
        rcases List.mem_cons.mp he with rfl | he
        · exact List.mem_cons_self
        · exact List.mem_cons_of_mem _ (ih h he)
    · exact ih h he

/-- A loser of the log is a loser of every older part of the log that has it. -/
theorem mem_losers_append {fin : List Int32} {newer log : List Entry} {e : Entry}
    (he : e ∈ losers fin (newer ++ log)) : e ∈ newer ∨ e ∈ losers [] log := by
  induction newer generalizing fin with
  | nil => exact Or.inr (losers_subset (fun t ht => by cases ht) he)
  | cons e' newer ih =>
    have hold : ∀ fin, e ∈ losers fin (newer ++ log) → e ∈ e' :: newer ∨ e ∈ losers [] log := by
      intro fin he
      rcases ih he with hmem | hmem
      · exact Or.inl (List.mem_cons_of_mem _ hmem)
      · exact Or.inr hmem
    rw [List.cons_append] at he
    unfold losers at he
    split at he
    · cases he
    · exact hold _ he
    · exact hold _ he
    · split at he
      · exact hold _ he
      · rcases List.mem_cons.mp he with rfl | he
        · exact Or.inl List.mem_cons_self
        · exact hold _ he
    · exact hold _ he

theorem losers_start {e : Entry} {t : Int32} (h : e.logRec = .start t) (fin : List Int32)
    (log : List Entry) : losers fin (e :: log) = losers fin log := by
  rw [losers, h]

theorem losers_checkpoint {e : Entry} (h : e.logRec = .checkpoint) (fin : List Int32)
    (log : List Entry) : losers fin (e :: log) = [] := by
  rw [losers, h]

/-- A log in which a transaction has just ended. -/
theorem losers_ended (t : Int32) (log : List Entry) :
    losers [t] log = (losers [] log).filter (fun e => !byTx t e) := by
  apply losers_add
  intro t'
  simp

end Losers

section Own

/-- Entries of other transactions do not matter, nor does the end of its own. -/
theorem own_cons_other {t : Int32} {e : Entry}
    (h : ∀ blk offset old, e.logRec ≠ .setInt t blk offset old) (hstart : e.logRec ≠ .start t)
    (log : List Entry) : own t (e :: log) = own t log := by
  rw [own]
  split
  · rename_i t' hrec
    rw [if_neg]
    intro heq
    rw [heq] at hrec
    exact hstart hrec
  · rename_i t' blk offset old hrec
    rw [if_neg]
    intro heq
    rw [heq] at hrec
    exact h blk offset old hrec
  · rfl

theorem own_start {t : Int32} {e : Entry} (h : e.logRec = .start t) (log : List Entry) :
    own t (e :: log) = [] := by
  rw [own, h]
  exact if_pos rfl

theorem own_setInt {t : Int32} {e : Entry} {blk : BlockId} {offset old : Int32}
    (h : e.logRec = .setInt t blk offset old) (log : List Entry) :
    own t (e :: log) = e :: own t log := by
  rw [own, h]
  exact if_pos rfl

end Own

section Redo

theorem redo_ne {e : Entry} {blk : BlockId} (h : e.undoOn blk = none) (pages : BlockId → Page) :
    e.redo pages blk = pages blk := by
  unfold Entry.undoOn at h
  unfold Entry.redo
  split at h
  · rename_i t blk' offset old hrec
    simp only [hrec]
    rw [Function.update_of_ne]
    intro heq
    rw [if_pos heq.symm] at h
    cases h
  · rfl

theorem redoAll_cons (e : Entry) (es : List Entry) (pages : BlockId → Page) :
    redoAll (e :: es) pages = e.redo (redoAll es pages) := rfl

/-- A block without updates stays as it is. -/
theorem redoAll_ne {es : List Entry} {blk : BlockId} (h : ∀ e ∈ es, e.undoOn blk = none)
    (pages : BlockId → Page) : redoAll es pages blk = pages blk := by
  induction es with
  | nil => rfl
  | cons e es ih =>
    rw [redoAll_cons, redo_ne (h e List.mem_cons_self)]
    exact ih (fun e' he' => h e' (List.mem_cons_of_mem e he'))

/-- What the updates make of a block depends on that block only. -/
theorem redoAll_congr {es : List Entry} {blk : BlockId} {pages pages' : BlockId → Page}
    (h : pages blk = pages' blk) : redoAll es pages blk = redoAll es pages' blk := by
  induction es with
  | nil => exact h
  | cons e es ih =>
    rw [redoAll_cons, redoAll_cons]
    unfold Entry.redo
    cases e.logRec with
    | setInt t blk' offset old =>
      dsimp only
      by_cases heq : blk = blk'
      · rw [← heq, Function.update_self, Function.update_self, ih]
      · rw [Function.update_of_ne heq, Function.update_of_ne heq, ih]
    | _ => exact ih

theorem committedPages_commit {pages : BlockId → Page} {e : Entry} {t : Int32}
    (h : e.logRec = .commit t) (log : List Entry) :
    committedPages pages (e :: log) = redoAll (own t log) (committedPages pages log) := by
  rw [committedPages, h]

theorem committedPages_other {pages : BlockId → Page} {e : Entry}
    (h : ∀ t, e.logRec ≠ .commit t) (log : List Entry) :
    committedPages pages (e :: log) = committedPages pages log := by
  rw [committedPages]
  split
  · rename_i t hrec
    exact absurd hrec (h t)
  · rfl

end Redo

end SampleDB.RecoveryLog
