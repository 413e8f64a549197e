import Mathlib.Data.List.Basic
import Mathlib.Data.Nat.Notation
import Mathlib.Logic.Function.Basic
import SampleDB.Runs

/-!
One transaction over cells that are kept in pages, with an undo log. A cell is written after
its old value was appended to the log, and a page goes to disk after the records of its cells.
The transaction is committed when all pages are on disk, and the commit is durable when the
log is saved after it. A crash leaves the pages on disk and the saved part of the log.
-/
namespace SampleDB.UndoLogs

open Runs

variable {Cell Val Page : Type*} [DecidableEq Cell]

/-- The log has the newest old value first; of its oldest records so many are saved. -/
structure State (Cell Val : Type*) where
  todo : List (Cell × Val)
  mem : Cell → Val
  disk : Cell → Val
  log : List (Cell × Val)
  saved : ℕ
  committed : Bool
  durable : Bool

inductive Action (Page : Type*)
  | write
  | saveLog
  | savePage (page : Page)
  | commit

namespace State

def savedLog (s : State Cell Val) : List (Cell × Val) := s.log.drop (s.log.length - s.saved)

def unsavedLog (s : State Cell Val) : List (Cell × Val) := s.log.take (s.log.length - s.saved)

/-- The state before the first write. -/
def start (init : Cell → Val) (writes : List (Cell × Val)) : State Cell Val :=
  ⟨writes, init, init, [], 0, false, false⟩

end State

/-- The old values are put back, the newest first. -/
def undo (cells : Cell → Val) (log : List (Cell × Val)) : Cell → Val :=
  log.foldl (fun cells r => Function.update cells r.1 r.2) cells

/-- The writes are made one after another. -/
def replay (cells : Cell → Val) (writes : List (Cell × Val)) : Cell → Val :=
  writes.foldl (fun cells w => Function.update cells w.1 w.2) cells

/-- The cells after a crash and recovery. -/
def State.recover (s : State Cell Val) : Cell → Val :=
  if s.durable then s.disk else undo s.disk s.savedLog

variable [DecidableEq Page] (home : Cell → Page)

inductive Step : State Cell Val → Action Page → State Cell Val → Prop
  | write (s : State Cell Val) (c : Cell) (v : Val) (rest : List (Cell × Val)) :
      s.todo = (c, v) :: rest → Step s .write { s with
        todo := rest, mem := Function.update s.mem c v, log := (c, s.mem c) :: s.log }
  | saveLog (s : State Cell Val) :
      Step s .saveLog { s with saved := s.log.length, durable := s.committed }
  | savePage (s : State Cell Val) (page : Page) : (∀ r ∈ s.unsavedLog, home r.1 ≠ page) →
      Step s (.savePage page) { s with
        disk := fun c => if home c = page then s.mem c else s.disk c }
  | commit (s : State Cell Val) : s.todo = [] → s.disk = s.mem →
      Step s .commit { s with committed := true }

/-- The oldest record of a cell has its first value. -/
def Oldest (init : Cell → Val) : List (Cell × Val) → Prop
  | [] => True
  | (c, old) :: older => (c ∉ older.map Prod.fst → old = init c) ∧ Oldest init older

structure Inv (init : Cell → Val) (writes : List (Cell × Val)) (s : State Cell Val) : Prop where
  saved : s.saved ≤ s.log.length
  oldest : Oldest init s.log
  mem : ∀ c, c ∉ s.log.map Prod.fst → s.mem c = init c
  disk : ∀ c, c ∉ s.savedLog.map Prod.fst → s.disk c = init c
  writes : replay s.mem s.todo = replay init writes
  committed : s.committed = true → s.todo = [] ∧ s.disk = s.mem
  durable : s.durable = true → s.committed = true

section Logs

variable {init cells : Cell → Val} {log : List (Cell × Val)} {s : State Cell Val}

omit [DecidableEq Cell] in
theorem Oldest.drop (h : Oldest init log) (n : ℕ) : Oldest init (log.drop n) := by
  induction n generalizing log with
  | zero => exact h
  | succ n ih =>
    cases log with
    | nil => exact h
    | cons r log => exact ih h.2

/-- Undoing gives every cell of the log its first value. -/
theorem undo_apply (h : Oldest init log) (c : Cell) :
    undo cells log c = if c ∈ log.map Prod.fst then init c else cells c := by
  induction log generalizing cells with
  | nil => rfl
  | cons r older ih =>
    obtain ⟨c', old⟩ := r
    show undo (Function.update cells c' old) older c = _
    rw [ih h.2, List.map_cons]
    by_cases hmem : c ∈ older.map Prod.fst
    · rw [if_pos hmem, if_pos (List.mem_cons_of_mem _ hmem)]
    · rw [if_neg hmem]
      by_cases heq : c = c'
      · subst heq
        rw [Function.update_self, if_pos List.mem_cons_self]
        exact h.1 hmem
      · rw [Function.update_of_ne heq, if_neg (fun h => (List.mem_cons.mp h).elim heq hmem)]

omit [DecidableEq Cell] in
theorem savedLog_subset : s.savedLog ⊆ s.log := List.drop_subset _ _

omit [DecidableEq Cell] in
theorem unsaved_append : s.unsavedLog ++ s.savedLog = s.log := List.take_append_drop _ _

end Logs

section Runs

variable {init : Cell → Val} {writes : List (Cell × Val)} {s s' : State Cell Val}
  {a : Action Page} {home}

omit [DecidableEq Page] in
theorem inv_start : Inv init writes (State.start init writes) where
  saved := Nat.le_refl 0
  oldest := trivial
  mem _ _ := rfl
  disk _ _ := rfl
  writes := rfl
  committed h := absurd h Bool.false_ne_true
  durable h := absurd h Bool.false_ne_true

theorem Inv.step (h : Inv init writes s) (hstep : Step home s a s') : Inv init writes s' := by
  cases hstep with
  | write c v rest htodo =>
    have hsaved := h.saved
    have hkeep : ((c, s.mem c) :: s.log).drop (((c, s.mem c) :: s.log).length - s.saved) =
        s.savedLog := by
      rw [List.length_cons, Nat.succ_sub hsaved, List.drop_succ_cons]
      rfl
    refine ⟨Nat.le_succ_of_le hsaved, ⟨fun hc => h.mem c hc, h.oldest⟩, fun c' hc' => ?_,
      fun c' hc' => ?_, ?_, fun hcommitted => ?_, h.durable⟩
    · rw [List.map_cons, List.mem_cons, not_or] at hc'
      show Function.update s.mem c v c' = init c'
      rw [Function.update_of_ne hc'.1]
      exact h.mem c' hc'.2
    · apply h.disk c'
      intro hin
      apply hc'
      show c' ∈ (((c, s.mem c) :: s.log).drop _).map Prod.fst
      rw [hkeep]
      exact hin
    · have hwrites := h.writes
      rw [htodo] at hwrites
      exact hwrites
    · rw [(h.committed hcommitted).1] at htodo
      cases htodo
  | saveLog =>
    refine ⟨Nat.le_refl _, h.oldest, h.mem, fun c hc => ?_, h.writes, h.committed, id⟩
    apply h.disk c
    intro hin
    apply hc
    show c ∈ (s.log.drop (s.log.length - s.log.length)).map Prod.fst
    rw [Nat.sub_self, List.drop_zero]
    exact List.map_subset Prod.fst savedLog_subset hin
  | savePage page hpage =>
    refine ⟨h.saved, h.oldest, h.mem, fun c hc => ?_, h.writes, fun hcommitted => ?_, h.durable⟩
    · show (if home c = page then s.mem c else s.disk c) = init c
      by_cases hhome : home c = page
      · rw [if_pos hhome]
        apply h.mem c
        rw [← unsaved_append, List.map_append, List.mem_append, not_or]
        refine ⟨fun hin => ?_, hc⟩
        obtain ⟨r, hr, hrc⟩ := List.mem_map.mp hin
        exact hpage r hr (hrc ▸ hhome)
      · rw [if_neg hhome]
        exact h.disk c hc
    · obtain ⟨htodo, hdisk⟩ := h.committed hcommitted
      refine ⟨htodo, funext fun c => ?_⟩
      show (if home c = page then s.mem c else s.disk c) = s.mem c
      rw [hdisk, ite_self]
  | commit htodo hdisk =>
    exact ⟨h.saved, h.oldest, h.mem, h.disk, h.writes, fun _ => ⟨htodo, hdisk⟩, fun _ => rfl⟩

/-- After a crash and recovery all writes are there if the commit was durable, else none. -/
theorem recover_eq {as : List (Action Page)}
    (hrun : Run (Step home) (State.start init writes) as s) :
    s.recover = if s.durable then replay init writes else init := by
  have h : Inv init writes s := hrun.invariant (Inv init writes) (fun _ _ _ h => h.step) inv_start
  unfold State.recover
  by_cases hdurable : s.durable = true
  · obtain ⟨htodo, hdisk⟩ := h.committed (h.durable hdurable)
    have hwrites := h.writes
    rw [htodo] at hwrites
    rw [if_pos hdurable, if_pos hdurable, hdisk]
    exact hwrites
  · rw [if_neg hdurable, if_neg hdurable]
    funext c
    have holdest : Oldest init s.savedLog := h.oldest.drop _
    rw [undo_apply holdest]
    by_cases hmem : c ∈ s.savedLog.map Prod.fst
    · exact if_pos hmem
    · exact (if_neg hmem).trans (h.disk c hmem)

end Runs

end SampleDB.UndoLogs
