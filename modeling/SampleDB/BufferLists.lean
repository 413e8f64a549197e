import Mathlib.Algebra.BigOperators.Group.Finset.Piecewise
import Mathlib.Algebra.Order.BigOperators.Group.Finset
import SampleDB.PoolCoherence

/-!
Transactions that share a buffer pool. A transaction lists the blocks it has pinned, one entry
for each pin, and keeps a map from them to their buffers. The pool agrees with the lists of all
transactions: each buffer counts the entries that lead to it.
-/
namespace SampleDB.BufferLists

open Pages Blocks BufferPool

section Calls

variable {α : Type}

/-- A buffer stands for its place in the pool. -/
structure BufferList where
  pinned : List BlockId
  buffers : BlockId → Option ℕ

namespace BufferList

def empty : BufferList := ⟨[], fun _ => none⟩

/-- The flag is false where `BufferMgr::pin` throws. An attempt that fails leaves the pool
alone, so the last attempt of a `pin` that waits is the whole of it. -/
def pin (l : BufferList) (bm : BufferMgr α) (blk : BlockId) : BufferMgr α × BufferList × Bool :=
  match bm.tryToPin blk with
  | (bm, some buf) => (bm, ⟨l.pinned ++ [blk], Function.update l.buffers blk (some buf)⟩, true)
  | (bm, none) => (bm, l, false)

def unpin (l : BufferList) (bm : BufferMgr α) (blk : BlockId) : BufferMgr α × BufferList :=
  match l.buffers blk with
  | none => (bm, l)
  | some buf =>
    let pinned := l.pinned.erase blk
    (bm.unpin buf,
      ⟨pinned, if blk ∈ pinned then l.buffers else Function.update l.buffers blk none⟩)

/-- A block that is not in the map would have a null pointer for its buffer. -/
def unpinAll (l : BufferList) (bm : BufferMgr α) : Result (BufferMgr α × BufferList) := do
  let bm ← l.pinned.foldlM (fun bm blk =>
    match l.buffers blk with
    | none => .error .outside
    | some buf => .ok (bm.unpin buf)) bm
  .ok (bm, empty)

end BufferList

structure Transaction where
  txNum : ℤ
  buffers : BufferList
  finished : Bool

/-- A log record of the transaction: the block, and how undoing it changes the page. -/
abbrev Undo (α : Type) := BlockId × (α → α)

namespace Transaction

def new (txNum : ℤ) : Transaction := ⟨txNum, .empty, false⟩

/-- `setInt` and `setString`, under the lock they take: `f` is the change to the page. -/
def set (tx : Transaction) (bm : BufferMgr α) (blk : BlockId) (f : α → α) (lsn : ℤ) :
    Result (BufferMgr α) :=
  match tx.buffers.buffers blk with
  | none => .error .outside
  | some buf => .ok (bm.modify buf f tx.txNum lsn)

def pin (tx : Transaction) (bm : BufferMgr α) (blk : BlockId) :
    BufferMgr α × Transaction × Bool :=
  let (bm, buffers, done) := tx.buffers.pin bm blk
  (bm, { tx with buffers := buffers }, done)

def unpin (tx : Transaction) (bm : BufferMgr α) (blk : BlockId) : BufferMgr α × Transaction :=
  let (bm, buffers) := tx.buffers.unpin bm blk
  (bm, { tx with buffers := buffers })

/-- `undo` of `SetIntRecord` and `SetStringRecord`. The transaction still has the lock it
took for the change. -/
def undo (tx : Transaction) (bm : BufferMgr α) (u : Undo α) :
    Result (BufferMgr α × Transaction × Bool) :=
  match tx.pin bm u.1 with
  | (bm, tx, false) => .ok (bm, tx, false)
  | (bm, tx, true) => do
    let bm ← tx.set bm u.1 u.2 (-1)
    let (bm, tx) := tx.unpin bm u.1
    .ok (bm, tx, true)

/-- The records of the transaction in the order of the log iterator. -/
def doRollback (tx : Transaction) (bm : BufferMgr α) :
    List (Undo α) → Result (BufferMgr α × Transaction × Bool)
  | [] => .ok (bm, tx, true)
  | u :: us => do
    match ← tx.undo bm u with
    | (bm, tx, false) => .ok (bm, tx, false)
    | (bm, tx, true) => tx.doRollback bm us

/-- The end of `commit` and `rollback`. The record that they append to the log in between
touches no buffer. -/
def finish (tx : Transaction) (bm : BufferMgr α) : Result (BufferMgr α × Transaction) := do
  let (bm, buffers) ← tx.buffers.unpinAll (bm.flushAll tx.txNum)
  .ok (bm, { tx with buffers := buffers, finished := true })

def commit (tx : Transaction) (bm : BufferMgr α) : Result (BufferMgr α × Transaction × Bool) := do
  let (bm, tx) ← tx.finish bm
  .ok (bm, tx, true)

def rollback (tx : Transaction) (bm : BufferMgr α) (us : List (Undo α)) :
    Result (BufferMgr α × Transaction × Bool) := do
  match ← tx.doRollback bm us with
  | (bm, tx, false) => .ok (bm, tx, false)
  | (bm, tx, true) =>
    let (bm, tx) ← tx.finish bm
    .ok (bm, tx, true)

end Transaction

/-- The calls on a transaction. A rollback comes with the records it finds in the log. -/
inductive Call (α : Type)
  | pin (blk : BlockId)
  | unpin (blk : BlockId)
  | set (blk : BlockId) (f : α → α) (lsn : ℤ)
  | commit
  | rollback (us : List (Undo α))

/-- The flag is false where the call throws. -/
def Transaction.call (tx : Transaction) (bm : BufferMgr α) :
    Call α → Result (BufferMgr α × Transaction × Bool)
  | .pin blk => .ok (tx.pin bm blk)
  | .unpin blk =>
    let (bm, tx) := tx.unpin bm blk
    .ok (bm, tx, true)
  | .set blk f lsn => do
    let bm ← tx.set bm blk f lsn
    .ok (bm, tx, true)
  | .commit => tx.commit bm
  | .rollback us => tx.rollback bm us

end Calls

section Counting

variable {ι α : Type}

theorem sum_update {β : Type} [Fintype ι] [DecidableEq ι] (f : ι → β) (t : ι) (x : β) (g : β → ℕ) :
    (∑ t', g (Function.update f t x t')) + g (f t) = (∑ t', g (f t')) + g x := by
  have hcomp : (fun t' => g (Function.update f t x t')) =
      Function.update (fun t' => g (f t')) t (g x) := by
    funext t'
    exact Function.apply_update (fun _ => g) f t x t'
  have hsum := Finset.sum_update_of_mem (Finset.mem_univ t) (fun t' => g (f t')) (g (f t))
  rw [Function.update_eq_self] at hsum
  rw [hcomp, Finset.sum_update_of_mem (Finset.mem_univ t), hsum]
  omega

theorem pinned_update [DecidableEq ι] (lists : ι → BufferList) (t : ι) (l : BufferList) :
    (fun t' => (Function.update lists t l t').pinned) =
      Function.update (fun t' => (lists t').pinned) t l.pinned := by
  funext t'
  exact Function.apply_update (fun _ l => BufferList.pinned l) lists t l t'

/-- The pins of a list that are on the buffer at one place. -/
def places (m : BufferMgr α) (pinned : List BlockId) (i : ℕ) : ℕ :=
  pinned.countP (fun blk => m.findExistingBuffer blk = some i)

/-- The block of a buffer that has not been given one. -/
def noBlock : BlockId := ⟨[], -1⟩

/-- The pool agrees with the lists of all transactions. -/
structure Counted [Fintype ι] (m : BufferMgr α) (pinned : ι → List BlockId) : Prop where
  unique : ∀ (i j : ℕ) (b c : Buffer α), m.pool[i]? = some b → m.pool[j]? = some c →
    b.blk = c.blk → b.blk ≠ noBlock → i = j
  found : ∀ t, ∀ blk ∈ pinned t, m.findExistingBuffer blk ≠ none
  pins : ∀ (i : ℕ) (b : Buffer α), m.pool[i]? = some b →
    b.pins = (∑ t, places m (pinned t) i : ℕ)

variable {m m' : BufferMgr α} {pinned : ι → List BlockId} [Fintype ι]

theorem findExistingBuffer_congr
    (h : m'.pool.map (fun b => b.blk) = m.pool.map (fun b => b.blk)) :
    m'.findExistingBuffer = m.findExistingBuffer := by
  funext blk
  have hmap (m : BufferMgr α) : m.findExistingBuffer blk =
      (m.pool.map (fun b => b.blk)).findIdx? (fun x => x = blk) := by
    rw [List.findIdx?_map]
    rfl
  rw [hmap, hmap, h]

theorem map_set_same {β : Type} {pool : List (Buffer α)} {i : ℕ} {b b' : Buffer α}
    (hb : pool[i]? = some b) (g : Buffer α → β) (hg : g b' = g b) :
    (pool.set i b').map g = pool.map g := by
  obtain ⟨hi, rfl⟩ := List.getElem?_eq_some_iff.mp hb
  rw [List.map_set, hg, ← List.getElem_map (f := g) (h := by simpa using hi),
    List.set_getElem_self]

/-- A pinned block is held by a buffer whose count is above zero. -/
theorem Counted.pos (h : Counted m pinned) {t : ι} {blk : BlockId} (hmem : blk ∈ pinned t)
    {i : ℕ} {b : Buffer α} (hfind : m.findExistingBuffer blk = some i)
    (hb : m.pool[i]? = some b) : 0 < b.pins := by
  have hplaces : 0 < places m (pinned t) i :=
    List.countP_pos_iff.mpr ⟨blk, hmem, decide_eq_true hfind⟩
  have hle : places m (pinned t) i ≤ ∑ t, places m (pinned t) i :=
    Finset.single_le_sum (f := fun t => places m (pinned t) i) (fun _ _ => Nat.zero_le _)
      (Finset.mem_univ t)
  rw [h.pins i b hb]
  omega

/-- Where no buffer changes its block, only the counts are to be compared. -/
theorem Counted.of_blocks (h : Counted m pinned)
    (hblks : m'.pool.map (fun b => b.blk) = m.pool.map (fun b => b.blk))
    {pinned' : ι → List BlockId} (hfound : ∀ t, ∀ blk ∈ pinned' t, m.findExistingBuffer blk ≠ none)
    (hpins : ∀ (i : ℕ) (b : Buffer α), m'.pool[i]? = some b →
      b.pins = (∑ t, places m (pinned' t) i : ℕ)) :
    Counted m' pinned' ∧ m'.findExistingBuffer = m.findExistingBuffer := by
  have hfind := findExistingBuffer_congr hblks
  have hplace : ∀ (j : ℕ) (c : Buffer α), m'.pool[j]? = some c →
      ∃ c' : Buffer α, m.pool[j]? = some c' ∧ c'.blk = c.blk := by
    intro j c hc
    have hget := congrArg (fun l => l[j]?) hblks
    simp only [List.getElem?_map, hc, Option.map_some] at hget
    exact Option.map_eq_some_iff.mp hget.symm
  refine ⟨⟨?_, ?_, ?_⟩, hfind⟩
  · intro j k c d hc hd heq hnull
    obtain ⟨c', hc', hcblk⟩ := hplace j c hc
    obtain ⟨d', hd', hdblk⟩ := hplace k d hd
    exact h.unique j k c' d' hc' hd' (by rw [hcblk, hdblk, heq]) (by rwa [hcblk])
  · rw [hfind]
    exact hfound
  · intro j c hc
    unfold places at hpins ⊢
    rw [hfind]
    exact hpins j c hc

/-- The count of one buffer changes with the lists. -/
theorem Counted.set_pins (h : Counted m pinned) {i : ℕ} {b : Buffer α}
    (hb : m.pool[i]? = some b) (b' : Buffer α) (hpool : m'.pool = m.pool.set i b')
    (hblk : b'.blk = b.blk) {pinned' : ι → List BlockId}
    (hfound : ∀ t, ∀ blk ∈ pinned' t, m.findExistingBuffer blk ≠ none)
    (hpins : b'.pins = (∑ t, places m (pinned' t) i : ℕ))
    (hothers : ∀ j, j ≠ i → ∑ t, places m (pinned' t) j = ∑ t, places m (pinned t) j) :
    Counted m' pinned' ∧ m'.findExistingBuffer = m.findExistingBuffer := by
  refine h.of_blocks ?_ hfound ?_
  · rw [hpool]
    exact map_set_same hb _ hblk
  · intro j c hc
    rw [hpool] at hc
    rcases PoolCoherence.getElem?_set_cases hc with ⟨rfl, rfl⟩ | ⟨hji, hc'⟩
    · exact hpins
    · rw [hothers j hji]
      exact h.pins j c hc'

/-- Calls that keep the block and the count of every buffer. -/
theorem Counted.alike (h : Counted m pinned)
    (heq : m'.pool.map (fun b => (b.blk, b.pins)) = m.pool.map (fun b => (b.blk, b.pins))) :
    Counted m' pinned ∧ m'.findExistingBuffer = m.findExistingBuffer := by
  refine h.of_blocks ?_ h.found ?_
  · have hfst := congrArg (List.map Prod.fst) heq
    rw [List.map_map, List.map_map] at hfst
    exact hfst
  · intro j c hc
    have hget := congrArg (fun l => l[j]?) heq
    simp only [List.getElem?_map, hc, Option.map_some] at hget
    obtain ⟨c', hc', hsame⟩ := Option.map_eq_some_iff.mp hget.symm
    have hpins : c'.pins = c.pins := congrArg Prod.snd hsame
    rw [← hpins]
    exact h.pins j c' hc'

theorem onBuffer_alike (m : BufferMgr α) (i : ℕ) (f : Files α → Buffer α → Files α × Buffer α)
    (hf : ∀ files b, (f files b).2.blk = b.blk ∧ (f files b).2.pins = b.pins) :
    (m.onBuffer i f).pool.map (fun b => (b.blk, b.pins)) =
      m.pool.map (fun b => (b.blk, b.pins)) := by
  cases hb : m.pool[i]? with
  | none =>
    unfold BufferMgr.onBuffer
    rw [hb]
  | some b =>
    rw [BufferMgr.onBuffer_eq hb]
    exact map_set_same hb _ (Prod.ext (hf m.files b).1 (hf m.files b).2)

theorem flushAll_alike (m : BufferMgr α) (txnum : ℤ) :
    (m.flushAll txnum).pool.map (fun b => (b.blk, b.pins)) =
      m.pool.map (fun b => (b.blk, b.pins)) := by
  unfold BufferMgr.flushAll
  generalize List.range m.pool.length = is
  induction is generalizing m with
  | nil => rfl
  | cons i is ih =>
    rw [List.foldl_cons, ih]
    apply onBuffer_alike
    intro files b
    split
    · obtain ⟨hblk, hpins, -⟩ := PoolCoherence.flush_keeps files b
      exact ⟨hblk, hpins⟩
    · exact ⟨rfl, rfl⟩

theorem findExistingBuffer_set {i : ℕ} {b' : Buffer α} (hpool : m'.pool = m.pool.set i b')
    (hi : i < m.pool.length) (hnone : m.findExistingBuffer b'.blk = none) :
    m'.findExistingBuffer b'.blk = some i := by
  have habsent := BufferMgr.findExistingBuffer_eq_none.mp hnone
  unfold BufferMgr.findExistingBuffer
  rw [hpool, List.findIdx?_eq_some_iff_getElem]
  refine ⟨by rwa [List.length_set], by simp, ?_⟩
  intro j hji
  rw [List.getElem_set_ne (by omega)]
  simpa using habsent _ (List.getElem_mem (by omega))

theorem findExistingBuffer_set_ne {i : ℕ} {b' : Buffer α} (hpool : m'.pool = m.pool.set i b')
    {blk : BlockId} {j : ℕ} (hji : j ≠ i) (hne : b'.blk ≠ blk)
    (hfind : m.findExistingBuffer blk = some j) : m'.findExistingBuffer blk = some j := by
  obtain ⟨hj, heq, hfirst⟩ := List.findIdx?_eq_some_iff_getElem.mp hfind
  unfold BufferMgr.findExistingBuffer
  rw [hpool, List.findIdx?_eq_some_iff_getElem]
  refine ⟨by rwa [List.length_set], by rwa [List.getElem_set_ne hji.symm], ?_⟩
  intro k hkj
  rw [List.getElem_set]
  split
  · simpa using hne
  · exact hfirst k hkj

/-- The buffer that is taken for a block that no buffer holds has no pins. -/
theorem Counted.assignToBlock (h : Counted m pinned) {blk : BlockId} {i : ℕ} {b : Buffer α}
    (hnone : m.findExistingBuffer blk = none) (hb : m.pool[i]? = some b)
    (hfree : b.isPinned = false) :
    Counted (m.onBuffer i (Buffer.assignToBlock blk)) pinned ∧
      (m.onBuffer i (Buffer.assignToBlock blk)).findExistingBuffer blk = some i ∧
      ∀ t, ∀ blk' ∈ pinned t,
        (m.onBuffer i (Buffer.assignToBlock blk)).findExistingBuffer blk' =
          m.findExistingBuffer blk' := by
  generalize hm' : m.onBuffer i (Buffer.assignToBlock blk) = m'
  obtain ⟨b', hpool, rfl, hzero⟩ : ∃ b' : Buffer α,
      m'.pool = m.pool.set i b' ∧ b'.blk = blk ∧ b'.pins = 0 := by
    rw [← hm', BufferMgr.onBuffer_eq hb]
    exact ⟨_, rfl, rfl, rfl⟩
  have hnot : ¬ 0 < b.pins := by simpa [Buffer.isPinned] using hfree
  have hfind := findExistingBuffer_set hpool (List.getElem?_eq_some_iff.mp hb).1 hnone
  have hkept : ∀ t, ∀ blk' ∈ pinned t,
      m'.findExistingBuffer blk' = m.findExistingBuffer blk' := by
    intro t blk' hmem
    cases hfind' : m.findExistingBuffer blk' with
    | none => exact absurd hfind' (h.found t blk' hmem)
    | some j =>
      apply findExistingBuffer_set_ne hpool ?_ ?_ hfind'
      · rintro rfl
        exact hnot (h.pos hmem hfind' hb)
      · rintro rfl
        rw [hnone] at hfind'
        cases hfind'
  refine ⟨⟨?_, ?_, ?_⟩, hfind, hkept⟩
  · have hother : ∀ (j : ℕ) (c : Buffer α), m.pool[j]? = some c → c.blk ≠ b'.blk :=
      fun j c hc => BufferMgr.findExistingBuffer_eq_none.mp hnone c (List.mem_of_getElem? hc)
    intro j k c d hc hd heq hnull
    rw [hpool] at hc hd
    rcases PoolCoherence.getElem?_set_cases hc with ⟨rfl, rfl⟩ | ⟨hji, hc'⟩
    · rcases PoolCoherence.getElem?_set_cases hd with ⟨rfl, rfl⟩ | ⟨hki, hd'⟩
      · rfl
      · exact absurd heq.symm (hother k d hd')
    · rcases PoolCoherence.getElem?_set_cases hd with ⟨rfl, rfl⟩ | ⟨hki, hd'⟩
      · exact absurd heq (hother j c hc')
      · exact h.unique j k c d hc' hd' heq hnull
  · intro t blk' hmem
    rw [hkept t blk' hmem]
    exact h.found t blk' hmem
  · intro j c hc
    have hplaces : ∑ t, places m' (pinned t) j = ∑ t, places m (pinned t) j := by
      apply Finset.sum_congr rfl
      intro t _
      apply List.countP_congr
      intro blk' hmem
      rw [hkept t blk' hmem]
    rw [hplaces]
    rw [hpool] at hc
    rcases PoolCoherence.getElem?_set_cases hc with ⟨rfl, rfl⟩ | ⟨hji, hc'⟩
    · have hnat := h.pins j b hb
      omega
    · exact h.pins j c hc'

theorem places_append (m : BufferMgr α) (l : List BlockId) (blk : BlockId) (j : ℕ) :
    places m (l ++ [blk]) j =
      places m l j + if m.findExistingBuffer blk = some j then 1 else 0 := by
  unfold places
  rw [List.countP_append, List.countP_singleton]
  simp only [decide_eq_true_eq]

theorem places_erase (m : BufferMgr α) {l : List BlockId} {blk : BlockId} (hmem : blk ∈ l) (j : ℕ) :
    places m (l.erase blk) j + (if m.findExistingBuffer blk = some j then 1 else 0) =
      places m l j := by
  unfold places
  rw [(List.perm_cons_erase hmem).countP_eq, List.countP_cons]
  simp only [decide_eq_true_eq]

variable [DecidableEq ι]

/-- One more pin of a block, in the list of one transaction. -/
theorem Counted.pinBuffer (h : Counted m pinned) (t : ι) {blk : BlockId} {i : ℕ}
    (hfind : m.findExistingBuffer blk = some i) :
    Counted (m.pinBuffer i) (Function.update pinned t (pinned t ++ [blk])) ∧
      (m.pinBuffer i).findExistingBuffer = m.findExistingBuffer := by
  obtain ⟨b, hb, -⟩ := BufferMgr.findExistingBuffer_eq_some hfind
  have hsum (j : ℕ) := sum_update pinned t (pinned t ++ [blk]) (fun l => places m l j)
  simp only [places_append, hfind, Option.some.injEq] at hsum
  apply h.set_pins hb b.pin
  · rw [BufferMgr.pinBuffer_eq hb]
  · rfl
  · intro t' blk' hmem
    by_cases ht : t' = t
    · subst ht
      rw [Function.update_self, List.mem_append, List.mem_singleton] at hmem
      rcases hmem with hold | rfl
      · exact h.found t' blk' hold
      · rw [hfind]
        exact Option.some_ne_none i
    · rw [Function.update_of_ne ht] at hmem
      exact h.found t' blk' hmem
  · have hpins := h.pins i b hb
    have hi := hsum i
    rw [if_pos rfl] at hi
    unfold Buffer.pin
    dsimp only
    omega
  · intro j hji
    have hj := hsum j
    rw [if_neg hji.symm] at hj
    omega

/-- One pin of a block less. -/
theorem Counted.unpin (h : Counted m pinned) {t : ι} {blk : BlockId} {i : ℕ}
    (hmem : blk ∈ pinned t) (hfind : m.findExistingBuffer blk = some i) :
    Counted (m.unpin i) (Function.update pinned t ((pinned t).erase blk)) ∧
      (m.unpin i).findExistingBuffer = m.findExistingBuffer := by
  obtain ⟨b, hb, -⟩ := BufferMgr.findExistingBuffer_eq_some hfind
  have hsum (j : ℕ) := sum_update pinned t ((pinned t).erase blk) (fun l => places m l j)
  have herase (j : ℕ) := places_erase m hmem j
  simp only [hfind, Option.some.injEq] at herase
  apply h.set_pins hb b.unpin
  · rw [BufferMgr.unpin_eq hb]
  · rfl
  · intro t' blk' hmem'
    by_cases ht : t' = t
    · subst ht
      rw [Function.update_self] at hmem'
      exact h.found t' blk' (List.mem_of_mem_erase hmem')
    · rw [Function.update_of_ne ht] at hmem'
      exact h.found t' blk' hmem'
  · have hpins := h.pins i b hb
    have hi := hsum i
    have hi' := herase i
    rw [if_pos rfl] at hi'
    unfold Buffer.unpin
    dsimp only
    omega
  · intro j hji
    have hj := hsum j
    have hj' := herase j
    rw [if_neg hji.symm] at hj'
    omega

/-- An attempt to pin either adds one pin, and moves no pinned block, or does nothing. -/
theorem Counted.tryToPin (h : Counted m pinned) (t : ι) (blk : BlockId) :
    (∃ m' i, m.tryToPin blk = (m', some i) ∧ m'.findExistingBuffer blk = some i ∧
        Counted m' (Function.update pinned t (pinned t ++ [blk])) ∧
        ∀ t, ∀ blk' ∈ pinned t, m'.findExistingBuffer blk' = m.findExistingBuffer blk') ∨
      m.tryToPin blk = (m, none) := by
  unfold BufferMgr.tryToPin
  cases hfind : m.findExistingBuffer blk with
  | some i =>
    obtain ⟨hcounted, hsame⟩ := h.pinBuffer t hfind
    refine Or.inl ⟨m.pinBuffer i, i, rfl, ?_, hcounted, ?_⟩
    · rw [hsame, hfind]
    · intro t' blk' _
      rw [hsame]
  | none =>
    cases hchoose : m.chooseUnpinnedBuffer with
    | none => exact Or.inr rfl
    | some i =>
      obtain ⟨b, hb, hfree⟩ := BufferMgr.chooseUnpinnedBuffer_eq_some hchoose
      obtain ⟨hassigned, hfind', hkept⟩ := h.assignToBlock hfind hb hfree
      obtain ⟨hcounted, hsame⟩ := hassigned.pinBuffer t hfind'
      refine Or.inl ⟨_, i, rfl, ?_, hcounted, ?_⟩
      · rw [hsame, hfind']
      · intro t' blk' hmem
        rw [hsame, hkept t' blk' hmem]

/-- The loop of `unpinAll` with the pins of `rest` still to be undone. -/
theorem Counted.foldlM_unpin {t : ι} {l : BufferList} {rest : List BlockId}
    (h : Counted m (Function.update pinned t rest))
    (hmap : ∀ blk ∈ rest, l.buffers blk = m.findExistingBuffer blk) :
    ∃ m', rest.foldlM (fun bm blk =>
        match l.buffers blk with
        | none => Except.error Fault.outside
        | some buf => .ok (bm.unpin buf)) m = .ok m' ∧
      Counted m' (Function.update pinned t []) ∧
      m'.findExistingBuffer = m.findExistingBuffer := by
  induction rest generalizing m with
  | nil => exact ⟨m, rfl, h, rfl⟩
  | cons blk rest ih =>
    have hmem : blk ∈ Function.update pinned t (blk :: rest) t := by
      rw [Function.update_self]
      exact List.mem_cons_self
    obtain ⟨i, hfind⟩ := Option.ne_none_iff_exists'.mp (h.found t blk hmem)
    obtain ⟨hcounted, hsame⟩ := h.unpin hmem hfind
    rw [Function.update_idem, Function.update_self, List.erase_cons_head] at hcounted
    obtain ⟨m', hfold, hcounted', hsame'⟩ := ih hcounted (by
      intro blk' hmem'
      rw [hsame]
      exact hmap blk' (List.mem_cons_of_mem blk hmem'))
    refine ⟨m', ?_, hcounted', hsame'.trans hsame⟩
    rw [List.foldlM_cons, hmap blk List.mem_cons_self, hfind]
    exact hfold

end Counting

end SampleDB.BufferLists
