import Mathlib.Data.List.GetD
import Mathlib.Data.List.Nodup
import SampleDB.TwoDatabases

/-!
A database by itself: its files are named as its statements name them, and its transactions
are numbered as it begins them, so nothing in it depends on what else there is in a process.
-/
namespace SampleDB.AloneDatabase

open Lexer Schemas SharedLocks Programs TwoDatabases
open Locking (LockType)
open Directory (FileName)

structure Alone (X L : Type) where
  lockTable : BlockId FileRef → ℤ
  store : Store FileRef X
  txs : List (BlockId FileRef → Option LockType)
  temps : ℕ
  managers : Managers L

namespace Alone

variable {X A L R : Type} (a : Alone X L)

def locks (i : ℕ) : BlockId FileRef → Option LockType := a.txs.getD i (fun _ => none)

def cell (i : ℕ) (blk : BlockId FileRef) : Cell := ⟨a.lockTable blk, a.locks i blk⟩

def setCell (i : ℕ) (blk : BlockId FileRef) (c : Cell) : Alone X L :=
  { a with
    txs := a.txs.set i (Function.update (a.locks i) blk c.entry)
    lockTable := Function.update a.lockTable blk c.value }

def access (i : ℕ) (ref : FileRef) (op : FileOp) : Alone X L × Answer A L :=
  let blk := ⟨ref, op.number⟩
  let (c, granted) := Cell.request op.lock (a.cell i blk)
  let a := a.setCell i blk c
  if granted then
    let (st, answer) := a.store.apply i ref op
    ({ a with store := st }, answer)
  else (a, .deadlock)

def step (i : ℕ) : Op X A L → Alone X L × Answer A L
  | .file ref op => a.access i ref op
  | .newTemp => ({ a with temps := a.temps + 1 }, .number a.temps)
  | .manager op =>
    ({ a with managers := (a.managers.apply (A := A) op).1 }, (a.managers.apply op).2)
  | .rest f => ({ a with store := { a.store with rest := (f a.store.rest).1 } },
      .other (f a.store.rest).2)

def release (i : ℕ) : Alone X L :=
  { a with
    txs := a.txs.set i (fun _ => none)
    lockTable := unlockAll a.lockTable (a.locks i) }

def act (a : Alone X L) : Action X A L R → Alone X L × Option R
  | .begin =>
      ({ a with
        store := a.store.append (.start a.txs.length)
        txs := a.txs ++ [fun _ => none] }, none)
  | .statement i prog =>
      if i < a.txs.length then
        let (a, r) := exec (fun a => a.step i) prog a
        (a, some r)
      else (a, none)
  | .commit i =>
      if i < a.txs.length then
        ({ a with store := a.store.append (.finish i) }.release i, none)
      else (a, none)
  | .rollback i =>
      if i < a.txs.length then
        ({ a with store := (a.store.rollback i).append (.finish i) }.release i, none)
      else (a, none)
  | .destroy i => if i < a.txs.length then (a.release i, none) else (a, none)

end Alone

/-- The statement can name the file: its name is none of a temporary table, and it has as
many temporary tables. -/
def Known (temps : ℕ) : FileRef → Prop
  | .file fileName => ∀ n, fileName ≠ tempFile n
  | .temp i => i < temps

section Names

variable {ref ref' : FileRef} {temps : List ℕ} {m : ℕ} {V : Type}

theorem tempFile_injective : Function.Injective tempFile := by
  intro m n h
  unfold tempFile Directory.tableFile Directory.tempName at h
  have hdigits := List.append_cancel_left (List.append_cancel_right h)
  rw [Nat.toString_eq_repr, Nat.toString_eq_repr, Nat.toList_repr, Nat.toList_repr] at hdigits
  have hvalue := congrArg (fun l => Nat.ofDigitChars 10 l 0) hdigits
  simpa using hvalue

theorem fileName_temp {i : ℕ} (h : i < temps.length) :
    fileName temps (.temp i) = tempFile temps[i] := by
  show tempFile (temps.getD i 0) = tempFile temps[i]
  rw [List.getD_eq_getElem _ _ h]

/-- Different files have different names. -/
theorem fileName_inj (hnodup : temps.Nodup) (h : Known temps.length ref)
    (h' : Known temps.length ref') (heq : fileName temps ref = fileName temps ref') :
    ref = ref' := by
  cases ref with
  | file f =>
    cases ref' with
    | file f' => exact congrArg FileRef.file heq
    | temp i => exact absurd heq (h _)
  | temp i =>
    cases ref' with
    | file f' => exact absurd heq.symm (h' _)
    | temp j =>
      rw [fileName_temp h, fileName_temp h'] at heq
      exact congrArg FileRef.temp ((List.Nodup.getElem_inj_iff hnodup).mp (tempFile_injective heq))

theorem fileName_ne (h : Known temps.length ref) (hm : m ∉ temps) :
    fileName temps ref ≠ tempFile m := by
  intro heq
  cases ref with
  | file f => exact h m heq
  | temp i =>
    rw [fileName_temp h] at heq
    exact hm (tempFile_injective heq ▸ List.getElem_mem h)

theorem fileName_append (h : Known temps.length ref) (m : ℕ) :
    fileName (temps ++ [m]) ref = fileName temps ref := by
  cases ref with
  | file f => rfl
  | temp i =>
    have hi : i < (temps ++ [m]).length := by
      rw [List.length_append]
      exact Nat.lt_add_right _ h
    rw [fileName_temp h, fileName_temp hi, List.getElem_append_left h]

theorem fileName_last (temps : List ℕ) (m : ℕ) :
    fileName (temps ++ [m]) (.temp temps.length) = tempFile m := by
  rw [fileName_temp (by rw [List.length_append]; exact Nat.lt_succ_self _),
    List.getElem_concat_length rfl]

theorem Known.append (h : Known (temps ++ [m]).length ref) :
    Known temps.length ref ∨ ref = .temp temps.length := by
  cases ref with
  | file f => exact Or.inl h
  | temp i =>
    have hi : i < (temps ++ [m]).length := h
    rw [List.length_append, List.length_singleton] at hi
    rcases Nat.lt_or_eq_of_le (Nat.lt_succ_iff.mp hi) with hlt | heq
    · exact Or.inl hlt
    · exact Or.inr (congrArg FileRef.temp heq)

theorem Known.mono (h : Known temps.length ref) (m : ℕ) : Known (temps ++ [m]).length ref := by
  cases ref with
  | file f => exact h
  | temp i =>
    show i < (temps ++ [m]).length
    rw [List.length_append]
    exact Nat.lt_add_right _ h

/-- A block as its database names it. -/
def named (temps : List ℕ) (blk : BlockId FileRef) : BlockId FileName :=
  ⟨fileName temps blk.file, blk.number⟩

theorem named_inj {blk blk' : BlockId FileRef} (hnodup : temps.Nodup)
    (h : Known temps.length blk.file) (h' : Known temps.length blk'.file)
    (heq : named temps blk = named temps blk') : blk = blk' := by
  obtain ⟨ref, k⟩ := blk
  obtain ⟨ref', k'⟩ := blk'
  obtain ⟨hfile, hnumber⟩ := BlockId.mk.inj heq
  obtain rfl : k = k' := hnumber
  exact congrArg (fun ref => BlockId.mk ref k) (fileName_inj hnodup h h' hfile)

/-- An update under a name and under what it names. -/
theorem update_named {K K' : Type} [DecidableEq K] [DecidableEq K'] {name : K' → K}
    {f : K → V} {g : K' → V} {x y : K'} (hinj : name x = name y → x = y)
    (h : f (name y) = g y) (v : V) :
    Function.update f (name x) v (name y) = Function.update g x v y := by
  by_cases heq : y = x
  · subst heq
    rw [Function.update_self, Function.update_self]
  · rw [Function.update_of_ne heq, Function.update_of_ne (fun hname => heq (hinj hname.symm).symm)]
    exact h

end Names

/-- Records of the same transaction, whose number is the place where it was begun. -/
inductive SameRecord (nums temps : List ℕ) : LogRecord FileName → LogRecord FileRef → Prop
  | start {n i : ℕ} : nums[i]? = some n → SameRecord nums temps (.start n) (.start i)
  | setVal {n i : ℕ} (blk : BlockId FileRef) (offset : ℕ) (oldVal : Constant) :
      nums[i]? = some n → Known temps.length blk.file →
      SameRecord nums temps (.setVal n (named temps blk) offset oldVal)
        (.setVal i blk offset oldVal)
  | finish {n i : ℕ} : nums[i]? = some n → SameRecord nums temps (.finish n) (.finish i)

/-- What a database has for itself, with and without numbers of the process in its names. -/
structure Stored {X : Type} (nums temps : List ℕ) (st : Store FileName X) (st' : Store FileRef X) :
    Prop where
  length : ∀ ref, Known temps.length ref → st.length (fileName temps ref) = st'.length ref
  page : ∀ blk, Known temps.length blk.file → st.page (named temps blk) = st'.page blk
  rest : st.rest = st'.rest
  log : List.Forall₂ (SameRecord nums temps) st.log st'.log
  unused : ∀ m, m ∉ temps → st.length (tempFile m) = 0 ∧ ∀ k, st.page ⟨tempFile m, k⟩ = blank
  unnamed : ∀ i, temps.length ≤ i →
    st'.length (.temp i) = 0 ∧ ∀ k, st'.page ⟨.temp i, k⟩ = blank

section Stores

variable {X A L : Type} {nums temps : List ℕ} {st : Store FileName X} {st' : Store FileRef X}
  {ref : FileRef} {i n m : ℕ} {page : BlockId FileName → Page} {page' : BlockId FileRef → Page}

/-- The pages of two databases. -/
structure SamePages (temps : List ℕ) (page : BlockId FileName → Page)
    (page' : BlockId FileRef → Page) : Prop where
  same : ∀ blk, Known temps.length blk.file → page (named temps blk) = page' blk
  unused : ∀ m, m ∉ temps → ∀ k, page ⟨tempFile m, k⟩ = blank
  unnamed : ∀ i, temps.length ≤ i → ∀ k, page' ⟨.temp i, k⟩ = blank

theorem SamePages.update (h : SamePages temps page page') (hnodup : temps.Nodup)
    {blk : BlockId FileRef} (hknown : Known temps.length blk.file) (p : Page) :
    SamePages temps (Function.update page (named temps blk) p) (Function.update page' blk p) where
  same blk' h' := update_named (fun heq => named_inj hnodup hknown h' heq) (h.same blk' h') p
  unused m hm k := by
    rw [Function.update_of_ne]
    · exact h.unused m hm k
    · intro heq
      exact fileName_ne hknown hm (congrArg BlockId.file heq).symm
  unnamed i hi k := by
    rw [Function.update_of_ne]
    · exact h.unnamed i hi k
    · rintro rfl
      exact absurd hknown (Nat.not_lt.mpr hi)

theorem SamePages.write (h : SamePages temps page page') (hnodup : temps.Nodup)
    {blk : BlockId FileRef} (hknown : Known temps.length blk.file) (offset : ℕ) (val : Constant) :
    SamePages temps (write page (named temps blk) offset val) (write page' blk offset val) := by
  have hupdate := h.update hnodup hknown (Function.update (page' blk) offset val)
  unfold TwoDatabases.write
  rw [h.same blk hknown]
  exact hupdate

theorem Stored.pages (h : Stored nums temps st st') : SamePages temps st.page st'.page :=
  ⟨h.page, fun m hm => (h.unused m hm).2, fun i hi => (h.unnamed i hi).2⟩

theorem Stored.setPages (h : Stored nums temps st st') (hpages : SamePages temps page page') :
    Stored nums temps { st with page := page } { st' with page := page' } where
  length := h.length
  page := hpages.same
  rest := h.rest
  log := h.log
  unused m hm := ⟨(h.unused m hm).1, hpages.unused m hm⟩
  unnamed i hi := ⟨(h.unnamed i hi).1, hpages.unnamed i hi⟩

theorem Stored.append (h : Stored nums temps st st') {record : LogRecord FileName}
    {record' : LogRecord FileRef} (hrecord : SameRecord nums temps record record') :
    Stored nums temps (st.append record) (st'.append record') where
  length := h.length
  page := h.page
  rest := h.rest
  log := .cons hrecord h.log
  unused := h.unused
  unnamed := h.unnamed

theorem Stored.setRest (h : Stored nums temps st st') (x : X) :
    Stored nums temps { st with rest := x } { st' with rest := x } where
  length := h.length
  page := h.page
  rest := rfl
  log := h.log
  unused := h.unused
  unnamed := h.unnamed

theorem Stored.addLog (h : Stored nums temps st st') {log : List (LogRecord FileName)}
    {log' : List (LogRecord FileRef)} (hlog : List.Forall₂ (SameRecord nums temps) log log') :
    Stored nums temps { st with log := log } { st' with log := log' } where
  length := h.length
  page := h.page
  rest := h.rest
  log := hlog
  unused := h.unused
  unnamed := h.unnamed

theorem Stored.apply (h : Stored nums temps st st') (hnodup : temps.Nodup)
    (hnum : nums[i]? = some n) (hknown : Known temps.length ref) (op : FileOp) :
    Stored nums temps (st.apply (A := A) (L := L) n (fileName temps ref) op).1
        (st'.apply (A := A) (L := L) i ref op).1 ∧
      (st.apply (A := A) (L := L) n (fileName temps ref) op).2 = (st'.apply i ref op).2 := by
  cases op with
  | get number offset =>
    have hpage := h.page ⟨ref, number⟩ hknown
    exact ⟨h, congrArg Answer.value (congrFun hpage offset)⟩
  | set number offset val okToLog =>
    have hpage := h.page ⟨ref, number⟩ hknown
    have hpages := @SamePages.write temps _ _ h.pages hnodup ⟨ref, number⟩ hknown offset val
    have hset := h.setPages hpages
    cases okToLog with
    | false => exact ⟨hset, rfl⟩
    | true =>
      have hrecord : SameRecord nums temps
          (.setVal n (named temps ⟨ref, number⟩) offset
            (st.page (named temps ⟨ref, number⟩) offset))
          (.setVal i ⟨ref, number⟩ offset (st'.page ⟨ref, number⟩ offset)) := by
        rw [hpage]
        exact .setVal ⟨ref, number⟩ offset _ hnum hknown
      exact ⟨hset.addLog (.cons hrecord h.log), rfl⟩
  | size => exact ⟨h, congrArg Answer.number (h.length ref hknown)⟩
  | append =>
    have hlength := h.length ref hknown
    have hpages := @SamePages.update temps _ _ h.pages hnodup ⟨ref, st'.length ref⟩ hknown blank
    have hset := h.setPages hpages
    refine ⟨⟨fun ref' h' => ?_, ?_, h.rest, h.log, fun m hm => ⟨?_, ?_⟩, fun j hj => ⟨?_, ?_⟩⟩,
      congrArg Answer.number hlength⟩
    · show Function.update st.length (fileName temps ref) (st.length (fileName temps ref) + 1) _ = _
      rw [hlength]
      exact update_named (fun heq => fileName_inj hnodup hknown h' heq) (h.length ref' h') _
    · show ∀ blk, _ → Function.update st.page
        ⟨fileName temps ref, (st.length (fileName temps ref) : ℤ)⟩
        blank _ = _
      rw [hlength]
      exact hpages.same
    · show Function.update st.length (fileName temps ref) _ (tempFile m) = 0
      rw [Function.update_of_ne (fun heq => fileName_ne hknown hm heq.symm)]
      exact (h.unused m hm).1
    · show ∀ k, Function.update st.page ⟨fileName temps ref, (st.length (fileName temps ref) : ℤ)⟩
        blank ⟨tempFile m, k⟩ = blank
      rw [hlength]
      exact hpages.unused m hm
    · show Function.update st'.length ref _ (.temp j) = 0
      rw [Function.update_of_ne]
      · exact (h.unnamed j hj).1
      · rintro rfl
        exact absurd hknown (Nat.not_lt.mpr hj)
    · exact hpages.unnamed j hj

/-- Numbers of transactions that were begun at different times are different. -/
theorem num_eq_iff {i j n n' : ℕ} (hnodup : nums.Nodup) (hi : nums[i]? = some n)
    (hj : nums[j]? = some n') : n' = n ↔ j = i := by
  obtain ⟨hi, rfl⟩ := List.getElem?_eq_some_iff.mp hi
  obtain ⟨hj, rfl⟩ := List.getElem?_eq_some_iff.mp hj
  exact List.Nodup.getElem_inj_iff hnodup

theorem SamePages.undo (h : SamePages temps page page') (hnodup : temps.Nodup)
    (hnums : nums.Nodup) (hnum : nums[i]? = some n) {log : List (LogRecord FileName)}
    {log' : List (LogRecord FileRef)} (hlog : List.Forall₂ (SameRecord nums temps) log log') :
    SamePages temps (undo n log page) (undo i log' page') := by
  induction hlog generalizing page page' with
  | nil => exact h
  | cons hrecord hrest ih =>
    cases hrecord with
    | start hnum' =>
      have hiff := num_eq_iff hnums hnum hnum'
      rw [TwoDatabases.undo, TwoDatabases.undo]
      split
      · rename_i heq
        rw [if_pos (hiff.mp heq)]
        exact h
      · rename_i hne
        rw [if_neg (fun heq => hne (hiff.mpr heq))]
        exact ih h
    | setVal blk offset oldVal hnum' hknown =>
      have hiff := num_eq_iff hnums hnum hnum'
      rw [TwoDatabases.undo, TwoDatabases.undo]
      split
      · rename_i heq
        rw [if_pos (hiff.mp heq)]
        exact ih (h.write hnodup hknown offset oldVal)
      · rename_i hne
        rw [if_neg (fun heq => hne (hiff.mpr heq))]
        exact ih h
    | finish hnum' => exact ih h

theorem Stored.rollback (h : Stored nums temps st st') (hnodup : temps.Nodup)
    (hnums : nums.Nodup) (hnum : nums[i]? = some n) :
    Stored nums temps (st.rollback n) (st'.rollback i) :=
  h.setPages (h.pages.undo hnodup hnums hnum h.log)

/-- A further transaction. -/
theorem Stored.begin (h : Stored nums temps st st') (n : ℕ) :
    Stored (nums ++ [n]) temps st st' := by
  refine ⟨h.length, h.page, h.rest, h.log.imp ?_, h.unused, h.unnamed⟩
  have hnum : ∀ {i m : ℕ}, nums[i]? = some m → (nums ++ [n])[i]? = some m := fun hm => by
    rw [List.getElem?_append_left (List.getElem?_eq_some_iff.mp hm).1]
    exact hm
  intro record record' hrecord
  cases hrecord with
  | start h => exact .start (hnum h)
  | setVal blk offset oldVal h hknown => exact .setVal blk offset oldVal (hnum h) hknown
  | finish h => exact .finish (hnum h)

/-- A further temporary table, whose file has not been used. -/
theorem Stored.newTemp (h : Stored nums temps st st') (hm : m ∉ temps) :
    Stored nums (temps ++ [m]) st st' where
  length ref hknown := by
    rcases hknown.append with hold | rfl
    · rw [fileName_append hold]
      exact h.length ref hold
    · rw [fileName_last, (h.unused m hm).1, (h.unnamed _ (Nat.le_refl _)).1]
  page blk hknown := by
    obtain ⟨ref, k⟩ := blk
    unfold named
    rcases hknown.append with hold | rfl
    · dsimp only
      rw [fileName_append hold]
      exact h.page ⟨ref, k⟩ hold
    · dsimp only
      rw [fileName_last, (h.unused m hm).2, (h.unnamed _ (Nat.le_refl _)).2]
  rest := h.rest
  log := by
    refine h.log.imp ?_
    intro record record' hrecord
    cases hrecord with
    | start h => exact .start h
    | finish h => exact .finish h
    | setVal blk offset oldVal h hknown =>
      have hname : named temps blk = named (temps ++ [m]) blk := by
        unfold named
        rw [fileName_append hknown]
      rw [hname]
      exact .setVal blk offset oldVal h (hknown.mono m)
  unused m' hm' := h.unused m' (fun hin => hm' (List.mem_append_left _ hin))
  unnamed i hi := by
    rw [List.length_append] at hi
    exact h.unnamed i (by omega)

end Stores

end SampleDB.AloneDatabase
