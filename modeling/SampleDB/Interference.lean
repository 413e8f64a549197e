import SampleDB.DatabaseLocks

/-!
A database among others in a process follows the same database by itself, as long as no lock
request of one meets a lock of the other and the static managers answer it as managers of its
own would. So its statements have the results that they have without the other database.
-/
namespace SampleDB.Interference

open Lexer Schemas SharedLocks Programs TwoDatabases AloneDatabase DatabaseLocks
open Locking (LockType)
open Directory (FileName)

/-- The first database follows the database by itself. -/
structure Follows {X L : Type} (s : Process X L) (a : Alone X L) : Prop where
  stored : Stored ((s.engine .first).txs.map Transaction.txNum) (s.engine .first).temps
    (s.engine .first).store a.store
  locked : Locked (s.engine .first).temps s.lockTable (s.maps .first) (s.maps .second)
    a.lockTable a.txs
  nodup : (s.engine .first).temps.Nodup
  used : ∀ m ∈ (s.engine .first).temps, m ≤ s.nextTableNum
  temps : (s.engine .first).temps.length = a.temps
  nums : ((s.engine .first).txs.map Transaction.txNum).Nodup
  begun : ∀ n ∈ (s.engine .first).txs.map Transaction.txNum, n ≤ s.nextTxNum
  txs : (s.engine .first).txs.length = a.txs.length
  managers : s.own .first = a.managers

/-- No lock request meets a lock of the other database, the static managers answer the first
database as managers of its own would, and it opens no file with the name of a temporary
table. -/
def Calm {X A L : Type} (s : Process X L) (d : Database) (i : ℕ) : Op X A L → Prop
  | .file ref op =>
      let blk := ⟨s.fileName d ref, op.number⟩
      (d = .first → Known (s.engine d).temps.length ref) ∧
        Apart op.lock (s.cell d i blk) (entriesAt (s.maps d) blk) (entriesAt (s.maps d.other) blk)
  | .manager op => d = .first → (s.managers.apply (A := A) op).2 = ((s.own d).apply op).2
  | _ => True

def CalmEvent {X A L R : Type} (s : Process X L) (e : Event X A L R) : Prop :=
  match e.action with
  | .statement i prog => i < (s.engine e.database).txs.length →
      Always (fun s => s.step e.database i) (fun s => Calm s e.database i) prog s
  | _ => True

section Engines

variable {X A L R : Type} {s : Process X L} {d : Database} {i : ℕ}

theorem engine_setEngine (s : Process X L) (d : Database) (e : Engine X) :
    (s.setEngine d e).engine d = e := Function.update_self ..

theorem engine_setEngine_ne {d d' : Database} (s : Process X L) (h : d' ≠ d) (e : Engine X) :
    (s.setEngine d e).engine d' = s.engine d' := Function.update_of_ne h ..

theorem getElem?_txs (h : i < (s.engine d).txs.length) :
    (s.engine d).txs[i]? = some (s.tx d i) := by
  unfold Process.tx
  rw [List.getD_eq_getElem _ _ h]
  exact List.getElem?_eq_getElem h

theorem getElem?_maps (h : i < (s.engine d).txs.length) :
    (s.maps d)[i]? = some (s.tx d i).locks := by
  unfold Process.maps
  rw [List.getElem?_map, getElem?_txs h]
  rfl

theorem getElem?_nums (h : i < (s.engine d).txs.length) :
    ((s.engine d).txs.map Transaction.txNum)[i]? = some (s.tx d i).txNum := by
  rw [List.getElem?_map, getElem?_txs h]
  rfl

theorem maps_setLocks (s : Process X L) (d : Database) (i : ℕ)
    (locks : BlockId FileName → Option LockType) :
    (s.setLocks d i locks).maps d = (s.maps d).set i locks := by
  unfold Process.maps Process.setLocks
  rw [engine_setEngine]
  exact List.map_set

theorem nums_setLocks (h : i < (s.engine d).txs.length)
    (locks : BlockId FileName → Option LockType) :
    ((s.setLocks d i locks).engine d).txs.map Transaction.txNum =
      (s.engine d).txs.map Transaction.txNum := by
  unfold Process.setLocks
  rw [engine_setEngine]
  show ((s.engine d).txs.set i ⟨(s.tx d i).txNum, locks⟩).map Transaction.txNum = _
  rw [List.map_set]
  obtain ⟨hlt, hget⟩ := List.getElem?_eq_some_iff.mp (getElem?_nums h)
  rw [← hget, List.set_getElem_self]

theorem length_setLocks (s : Process X L) (d : Database) (i : ℕ)
    (locks : BlockId FileName → Option LockType) :
    ((s.setLocks d i locks).engine d).txs.length = (s.engine d).txs.length := by
  unfold Process.setLocks
  rw [engine_setEngine]
  exact List.length_set

theorem engine_setLocks_ne {d d' : Database} (s : Process X L) (h : d' ≠ d) (i : ℕ)
    (locks : BlockId FileName → Option LockType) :
    (s.setLocks d i locks).engine d' = s.engine d' := engine_setEngine_ne s h _

theorem second_ne : Database.second ≠ .first := by decide

end Engines

section Steps

variable {X A L R : Type} {s : Process X L} {a : Alone X L} {i : ℕ} {blk : BlockId FileRef}

/-- New locks of a transaction of the first database, and a new lock table. -/
theorem Follows.setLocks (h : Follows s a) (hi : i < (s.engine .first).txs.length)
    {table : BlockId FileName → ℤ} {table' : BlockId FileRef → ℤ}
    {locks : BlockId FileName → Option LockType} {locks' : BlockId FileRef → Option LockType}
    (hlocked : Locked (s.engine .first).temps table ((s.maps .first).set i locks)
      (s.maps .second) table' (a.txs.set i locks')) :
    Follows { s.setLocks .first i locks with lockTable := table }
      { a with txs := a.txs.set i locks', lockTable := table' } := by
  have hengine : ((s.setLocks .first i locks).engine .first).txs.map Transaction.txNum =
      (s.engine .first).txs.map Transaction.txNum := nums_setLocks hi locks
  refine ⟨?_, ?_, h.nodup, h.used, h.temps, ?_, ?_, ?_, h.managers⟩
  · show Stored (((s.setLocks .first i locks).engine .first).txs.map Transaction.txNum) _ _ _
    rw [hengine]
    exact h.stored
  · show Locked _ _ ((s.setLocks .first i locks).maps .first)
      ((s.setLocks .first i locks).maps .second)
      _ _
    rw [maps_setLocks]
    unfold Process.maps
    rw [engine_setLocks_ne s second_ne]
    exact hlocked
  · show (((s.setLocks .first i locks).engine .first).txs.map Transaction.txNum).Nodup
    rw [hengine]
    exact h.nums
  · show ∀ n ∈ ((s.setLocks .first i locks).engine .first).txs.map Transaction.txNum, _
    rw [hengine]
    exact h.begun
  · show ((s.setLocks .first i locks).engine .first).txs.length = (a.txs.set i locks').length
    rw [length_setLocks, List.length_set]
    exact h.txs

theorem Follows.setStore (h : Follows s a) {st : Store FileName X} {st' : Store FileRef X}
    (hstored : Stored ((s.engine .first).txs.map Transaction.txNum)
      (s.engine .first).temps st st') :
    Follows (s.setStore .first st) { a with store := st' } :=
  ⟨hstored, h.locked, h.nodup, h.used, h.temps, h.nums, h.begun, h.txs, h.managers⟩

theorem Follows.locks (h : Follows s a) (hi : i < (s.engine .first).txs.length) :
    a.txs[i]? = some (a.locks i) := by
  have hi' : i < a.txs.length := h.txs ▸ hi
  unfold Alone.locks
  rw [List.getD_eq_getElem _ _ hi']
  exact List.getElem?_eq_getElem hi'

theorem access_eq (s : Process X L) (d : Database) (i : ℕ) (ref : FileRef) (op : FileOp) :
    s.access (A := A) d i ref op =
      if (Cell.request op.lock (s.cell d i ⟨s.fileName d ref, op.number⟩)).2 then
        let s' := s.setCell d i ⟨s.fileName d ref, op.number⟩
          (Cell.request op.lock (s.cell d i ⟨s.fileName d ref, op.number⟩)).1
        let r := (s'.engine d).store.apply (s'.tx d i).txNum (s'.fileName d ref) op
        (s'.setStore d r.1, r.2)
      else (s.setCell d i ⟨s.fileName d ref, op.number⟩
        (Cell.request op.lock (s.cell d i ⟨s.fileName d ref, op.number⟩)).1, .deadlock) := rfl

theorem alone_access_eq (a : Alone X L) (i : ℕ) (ref : FileRef) (op : FileOp) :
    a.access (A := A) i ref op =
      if (Cell.request op.lock (a.cell i ⟨ref, op.number⟩)).2 then
        let a' := a.setCell i ⟨ref, op.number⟩ (Cell.request op.lock (a.cell i ⟨ref, op.number⟩)).1
        let r := a'.store.apply i ref op
        ({ a' with store := r.1 }, r.2)
      else (a.setCell i ⟨ref, op.number⟩ (Cell.request op.lock (a.cell i ⟨ref, op.number⟩)).1,
        .deadlock) := rfl

theorem length_access (s : Process X L) (d : Database) (i : ℕ) (ref : FileRef) (op : FileOp) :
    ((s.access (A := A) d i ref op).1.engine d).txs.length = (s.engine d).txs.length := by
  have hcell : ∀ blk c, ((s.setCell d i blk c).engine d).txs.length = (s.engine d).txs.length :=
    fun blk c => length_setLocks s d i _
  rw [access_eq]
  split
  · unfold Process.setStore
    dsimp only
    rw [engine_setEngine]
    exact hcell _ _
  · exact hcell _ _

theorem Follows.access (h : Follows s a) (hi : i < (s.engine .first).txs.length) {ref : FileRef}
    {op : FileOp} (hknown : Known (s.engine .first).temps.length ref)
    (hapart : Apart op.lock (s.cell .first i ⟨s.fileName .first ref, op.number⟩)
      (entriesAt (s.maps .first) ⟨s.fileName .first ref, op.number⟩)
      (entriesAt (s.maps .second) ⟨s.fileName .first ref, op.number⟩)) :
    Follows (s.access (A := A) .first i ref op).1 (a.access (A := A) i ref op).1 ∧
      (s.access (A := A) .first i ref op).2 = (a.access i ref op).2 := by
  obtain ⟨hgranted, hlocked⟩ := @Locked.request _ _ _ _ _ _ _ _ _ op.lock h.locked h.nodup
    (getElem?_maps hi) (h.locks hi) ⟨ref, op.number⟩ hknown hapart
  have hgranted : (Cell.request op.lock (s.cell .first i ⟨s.fileName .first ref, op.number⟩)).2 =
    (Cell.request op.lock (a.cell i ⟨ref, op.number⟩)).2 := hgranted
  have hcell := h.setLocks hi hlocked
  rw [access_eq, alone_access_eq, ← hgranted]
  by_cases hg : (Cell.request op.lock (s.cell .first i ⟨s.fileName .first ref, op.number⟩)).2 = true
  · rw [if_pos hg, if_pos hg]
    have hi' : i < ((s.setCell .first i ⟨s.fileName .first ref, op.number⟩
        (Cell.request op.lock (s.cell .first i ⟨s.fileName .first ref, op.number⟩)).1).engine
          .first).txs.length := by
      refine Nat.lt_of_lt_of_eq hi (Eq.symm ?_)
      exact length_setLocks s .first i _
    obtain ⟨hstored, hanswer⟩ := @Stored.apply _ A L _ _ _ _ _ _ _ hcell.stored hcell.nodup
      (getElem?_nums hi') hknown op
    exact ⟨hcell.setStore hstored, hanswer⟩
  · rw [if_neg hg, if_neg hg]
    exact ⟨hcell, rfl⟩

/-- An operation of the first database. -/
theorem Follows.step (h : Follows s a) (hi : i < (s.engine .first).txs.length) {op : Op X A L}
    (hcalm : Calm s .first i op) :
    Follows (s.step .first i op).1 (a.step i op).1 ∧
      (s.step .first i op).2 = (a.step i op).2 := by
  cases op with
  | file ref op => exact h.access hi (hcalm.1 rfl) hcalm.2
  | newTemp =>
    have hm : s.nextTableNum + 1 ∉ (s.engine .first).temps :=
      fun hmem => Nat.not_succ_le_self _ (h.used _ hmem)
    refine ⟨⟨h.stored.newTemp hm, h.locked.newTemp ?_ hm, ?_, ?_, ?_, h.nums, h.begun, h.txs,
      h.managers⟩, congrArg Answer.number h.temps⟩
    · unfold Process.maps
      rw [List.length_map]
      exact h.txs
    · show ((s.engine .first).temps ++ [s.nextTableNum + 1]).Nodup
      rw [List.nodup_append]
      exact ⟨h.nodup, List.nodup_singleton _, fun m hmem m' hm' heq =>
        hm (List.mem_singleton.mp hm' ▸ heq ▸ hmem)⟩
    · intro m hmem
      rcases List.mem_append.mp hmem with hold | hnew
      · exact Nat.le_succ_of_le (h.used m hold)
      · exact Nat.le_of_eq (List.mem_singleton.mp hnew)
    · show ((s.engine .first).temps ++ [s.nextTableNum + 1]).length = a.temps + 1
      rw [List.length_append, h.temps]
      rfl
  | manager op =>
    have hanswer := hcalm rfl
    rw [h.managers] at hanswer
    refine ⟨⟨h.stored, h.locked, h.nodup, h.used, h.temps, h.nums, h.begun, h.txs, ?_⟩, hanswer⟩
    show ((s.own .first).apply (A := A) op).1 = (a.managers.apply (A := A) op).1
    rw [h.managers]
  | rest f =>
    have hrest := h.stored.rest
    have hstored := h.stored.setRest (f (s.engine .first).store.rest).1
    have hstore := h.setStore hstored
    refine ⟨?_, ?_⟩
    · show Follows (s.setStore .first { (s.engine .first).store with
        rest := (f (s.engine .first).store.rest).1 }) { a with store := { a.store with
          rest := (f a.store.rest).1 } }
      rw [← hrest]
      exact hstore
    · show Answer.other (f (s.engine .first).store.rest).2 = Answer.other (f a.store.rest).2
      rw [hrest]

theorem length_step (s : Process X L) (d : Database) (i : ℕ) (op : Op X A L) :
    ((s.step d i op).1.engine d).txs.length = (s.engine d).txs.length := by
  cases op with
  | file ref op => exact length_access s d i ref op
  | newTemp =>
    show ((s.setEngine d _).engine d).txs.length = _
    rw [engine_setEngine]
  | manager op => rfl
  | rest f =>
    show ((s.setEngine d _).engine d).txs.length = _
    rw [engine_setEngine]

theorem Follows.exec (h : Follows s a) (hi : i < (s.engine .first).txs.length)
    (prog : Prog (Op X A L) (Answer A L) R)
    (halways : Always (fun s : Process X L => s.step .first i) (fun s => Calm s .first i) prog s) :
    Follows (exec (fun s : Process X L => s.step .first i) prog s).1
        (exec (fun a : Alone X L => a.step i) prog a).1 ∧
      (exec (fun s : Process X L => s.step .first i) prog s).2 =
        (exec (fun a : Alone X L => a.step i) prog a).2 := by
  have hrun := @exec_followed (Op X A L) (Answer A L) R (Process X L) (Alone X L)
    (fun s => s.step .first i) (fun a => a.step i) (fun s => Calm s .first i)
    (fun s a => Follows s a ∧ i < (s.engine .first).txs.length) s a
    (fun s a op hrel hcalm => by
      obtain ⟨hstep, hanswer⟩ := hrel.1.step hrel.2 hcalm
      exact ⟨⟨hstep, (length_step s .first i op).symm ▸ hrel.2⟩, hanswer⟩)
    prog ⟨h, hi⟩ halways
  exact ⟨hrun.1.1, hrun.2⟩

theorem Follows.release (h : Follows s a) (hi : i < (s.engine .first).txs.length) :
    Follows (s.release .first i) (a.release i) :=
  h.setLocks hi (h.locked.release (getElem?_maps hi) (h.locks hi))

theorem Follows.begin (h : Follows s a) :
    Follows (s.begin .first) { a with
      store := a.store.append (.start a.txs.length), txs := a.txs ++ [fun _ => none] } := by
  have hnums : ((s.begin .first).engine .first).txs.map Transaction.txNum =
      (s.engine .first).txs.map Transaction.txNum ++ [s.nextTxNum + 1] := List.map_append
  have hnew : s.nextTxNum + 1 ∉ (s.engine .first).txs.map Transaction.txNum :=
    fun hmem => Nat.not_succ_le_self _ (h.begun _ hmem)
  have hlast : ((s.engine .first).txs.map Transaction.txNum ++ [s.nextTxNum + 1])[a.txs.length]? =
      some (s.nextTxNum + 1) := by
    have hlength : ((s.engine .first).txs.map Transaction.txNum).length = a.txs.length := by
      rw [List.length_map, h.txs]
    rw [← hlength, List.getElem?_concat_length]
  refine ⟨?_, ?_, h.nodup, h.used, h.temps, ?_, ?_, ?_, h.managers⟩
  · rw [hnums]
    exact (h.stored.begin _).append (.start hlast)
  · have hmaps : (s.begin .first).maps .first = s.maps .first ++ [fun _ => none] := List.map_append
    rw [hmaps]
    exact h.locked.begin
  · rw [hnums, List.nodup_append]
    exact ⟨h.nums, List.nodup_singleton _, fun m hmem m' hm' heq =>
      hnew (List.mem_singleton.mp hm' ▸ heq ▸ hmem)⟩
  · rw [hnums]
    intro n hn
    rcases List.mem_append.mp hn with hold | hlast
    · exact Nat.le_succ_of_le (h.begun n hold)
    · exact Nat.le_of_eq (List.mem_singleton.mp hlast)
  · show ((s.engine .first).txs ++ [_]).length = (a.txs ++ [_]).length
    rw [List.length_append, List.length_append, h.txs]
    rfl

/-- An event of the first database. -/
theorem Follows.act (h : Follows s a) {action : Action X A L R}
    (hcalm : CalmEvent s ⟨.first, action⟩) :
    Follows (s.act ⟨.first, action⟩).1 (a.act action).1 ∧
      (s.act ⟨.first, action⟩).2 = (a.act action).2 := by
  have hiff : ∀ i, i < (s.engine .first).txs.length ↔ i < a.txs.length := fun i => by rw [h.txs]
  cases action with
  | begin => exact ⟨h.begin, rfl⟩
  | statement i prog =>
    unfold Process.act Alone.act
    dsimp only
    by_cases hi : i < (s.engine .first).txs.length
    · rw [if_pos hi, if_pos ((hiff i).mp hi)]
      obtain ⟨hexec, hresult⟩ := h.exec hi prog (hcalm hi)
      exact ⟨hexec, congrArg some hresult⟩
    · rw [if_neg hi, if_neg (fun hi' => hi ((hiff i).mpr hi'))]
      exact ⟨h, rfl⟩
  | commit i =>
    unfold Process.act Alone.act
    dsimp only
    by_cases hi : i < (s.engine .first).txs.length
    · rw [if_pos hi, if_pos ((hiff i).mp hi)]
      have hstored := h.stored.append (.finish (getElem?_nums hi))
      exact ⟨(h.setStore hstored).release hi, rfl⟩
    · rw [if_neg hi, if_neg (fun hi' => hi ((hiff i).mpr hi'))]
      exact ⟨h, rfl⟩
  | rollback i =>
    unfold Process.act Alone.act
    dsimp only
    by_cases hi : i < (s.engine .first).txs.length
    · rw [if_pos hi, if_pos ((hiff i).mp hi)]
      have hstored := (h.stored.rollback h.nodup h.nums (getElem?_nums hi)).append
        (.finish (getElem?_nums hi))
      exact ⟨(h.setStore hstored).release hi, rfl⟩
    · rw [if_neg hi, if_neg (fun hi' => hi ((hiff i).mpr hi'))]
      exact ⟨h, rfl⟩
  | destroy i =>
    unfold Process.act Alone.act
    dsimp only
    by_cases hi : i < (s.engine .first).txs.length
    · rw [if_pos hi, if_pos ((hiff i).mp hi)]
      exact ⟨h.release hi, rfl⟩
    · rw [if_neg hi, if_neg (fun hi' => hi ((hiff i).mpr hi'))]
      exact ⟨h, rfl⟩

end Steps

section Others

variable {X A L R : Type} {s s' : Process X L} {a : Alone X L} {i : ℕ}

end Others

/-- The process has no transaction of the second database, and its managers are those of the
first. -/
structure Solo {X L : Type} (s : Process X L) : Prop where
  txs : (s.engine .second).txs = []
  managers : s.own .first = s.managers

section Alone

variable {X A L R : Type} {s t : Process X L} {a : Alone X L} {i : ℕ}

theorem Solo.of_eq (h : Solo s) (hengine : t.engine .second = s.engine .second)
    (hown : t.own .first = s.own .first) (hmanagers : t.managers = s.managers) : Solo t :=
  ⟨by rw [hengine]; exact h.txs, by rw [hown, hmanagers]; exact h.managers⟩

theorem Solo.step (h : Solo s) (i : ℕ) (op : Op X A L) : Solo (s.step .first i op).1 := by
  cases op with
  | file ref op =>
    show Solo (s.access .first i ref op).1
    rw [access_eq]
    split
    · exact h.of_eq rfl rfl rfl
    · exact h.of_eq rfl rfl rfl
  | newTemp => exact h.of_eq rfl rfl rfl
  | manager op =>
    refine ⟨h.txs, ?_⟩
    show ((s.own .first).apply (A := A) op).1 = (s.managers.apply (A := A) op).1
    rw [h.managers]
  | rest f => exact h.of_eq rfl rfl rfl

theorem Solo.exec (h : Solo s) (i : ℕ) (prog : Prog (Op X A L) (Answer A L) R) :
    Solo (exec (fun s : Process X L => s.step .first i) prog s).1 := by
  induction prog generalizing s with
  | done r => exact h
  | call op k ih => exact ih _ (h.step i op)

theorem Solo.act (h : Solo s) (action : Action X A L R) : Solo (s.act ⟨.first, action⟩).1 := by
  cases action with
  | begin => exact h.of_eq rfl rfl rfl
  | statement i prog =>
    unfold Process.act
    dsimp only
    split
    · exact h.exec i prog
    · exact h
  | commit i =>
    unfold Process.act
    dsimp only
    split
    · exact h.of_eq rfl rfl rfl
    · exact h
  | rollback i =>
    unfold Process.act
    dsimp only
    split
    · exact h.of_eq rfl rfl rfl
    · exact h
  | destroy i =>
    unfold Process.act
    dsimp only
    split
    · exact h.of_eq rfl rfl rfl
    · exact h

end Alone

/-- The constructor of FileMgr removes the files of temporary tables. -/
def cleanUp {X : Type} (st : Store FileName X) : Store FileName X where
  length f := if Directory.isTemp f then 0 else st.length f
  page blk := if Directory.isTemp blk.file then blank else st.page blk
  log := []
  rest := st.rest

/-- A process in which nothing has been done with the databases yet. -/
def start {X : Type} (L : Type) (st : Database → Store FileName X) : Process X L :=
  ⟨fun _ => 0, 0, 0, .new L, fun d => ⟨cleanUp (st d), [], []⟩, fun _ => .new L⟩

section Runs

variable {X A L R : Type}

theorem isTemp_tempFile (n : ℕ) : Directory.isTemp (tempFile n) = true :=
  Directory.isTemp_tempFile n

end Runs

/-- Tables of one block, with the value 0. -/
def oneBlock : Database → Store FileName Unit := fun _ => ⟨fun _ => 1, fun _ => blank, [], ()⟩

end SampleDB.Interference
