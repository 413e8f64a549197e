import SampleDB.Logging

/-!
The buffer manager. A buffer keeps a copy of one block, written back before the
buffer is given to another block and when the transaction that modified it asks for
it; the log is flushed up to the LSN of the buffer first. What a page holds does
not matter here, so its type is a parameter.
-/
namespace SampleDB.BufferPool

open Blocks Logging

/-- What the buffers share: the log manager, and the data blocks on disk. -/
structure Files (α : Type) where
  log : LogMgr
  disk : BlockId → α

structure Buffer (α : Type) where
  contents : α
  blk : BlockId
  pins : ℤ
  txnum : ℤ
  lsn : ℤ

namespace Buffer

variable {α : Type}

/-- The block of a new buffer is `BlockId("", -1)`. -/
def new (blank : α) : Buffer α := ⟨blank, ⟨[], -1⟩, 0, -1, -1⟩

def setModified (b : Buffer α) (txnum lsn : ℤ) : Buffer α :=
  { b with txnum := txnum, lsn := if lsn ≥ 0 then lsn else b.lsn }

def isPinned (b : Buffer α) : Bool := b.pins > 0

def flush (files : Files α) (b : Buffer α) : Files α × Buffer α :=
  if b.txnum ≥ 0 then
    (⟨files.log.flush b.lsn, Function.update files.disk b.blk b.contents⟩, { b with txnum := -1 })
  else (files, b)

def assignToBlock (blk : BlockId) (files : Files α) (b : Buffer α) : Files α × Buffer α :=
  let (files, b) := b.flush files
  (files, { b with blk := blk, contents := files.disk blk, pins := 0 })

def pin (b : Buffer α) : Buffer α := { b with pins := b.pins + 1 }

def unpin (b : Buffer α) : Buffer α := { b with pins := b.pins - 1 }

end Buffer

structure BufferMgr (α : Type) where
  files : Files α
  pool : List (Buffer α)
  numAvailable : ℤ

namespace BufferMgr

variable {α : Type}

def new (files : Files α) (blank : α) (buffSize : ℕ) : BufferMgr α :=
  ⟨files, List.replicate buffSize (Buffer.new blank), buffSize⟩

/-- A call on the buffer at one place of the pool. -/
def onBuffer (m : BufferMgr α) (i : ℕ) (f : Files α → Buffer α → Files α × Buffer α) :
    BufferMgr α :=
  match m.pool[i]? with
  | none => m
  | some b =>
    let (files, b) := f m.files b
    { m with files := files, pool := m.pool.set i b }

def flushAll (m : BufferMgr α) (txnum : ℤ) : BufferMgr α :=
  (List.range m.pool.length).foldl (fun m i =>
    m.onBuffer i (fun files b => if b.txnum = txnum then b.flush files else (files, b))) m

def isPinned (m : BufferMgr α) (i : ℕ) : Bool :=
  match m.pool[i]? with
  | none => false
  | some b => b.isPinned

def unpin (m : BufferMgr α) (i : ℕ) : BufferMgr α :=
  let m := m.onBuffer i (fun files b => (files, b.unpin))
  if m.isPinned i then m else { m with numAvailable := m.numAvailable + 1 }

def findExistingBuffer (m : BufferMgr α) (blk : BlockId) : Option ℕ :=
  m.pool.findIdx? (fun b => b.blk = blk)

def chooseUnpinnedBuffer (m : BufferMgr α) : Option ℕ :=
  m.pool.findIdx? (fun b => !b.isPinned)

def pinBuffer (m : BufferMgr α) (i : ℕ) : BufferMgr α :=
  let m := if m.isPinned i then m else { m with numAvailable := m.numAvailable - 1 }
  m.onBuffer i (fun files b => (files, b.pin))

/-- One attempt of `pin`, which waits and tries again for some time after a failed one. -/
def tryToPin (m : BufferMgr α) (blk : BlockId) : BufferMgr α × Option ℕ :=
  match m.findExistingBuffer blk with
  | some i => (m.pinBuffer i, some i)
  | none =>
    match m.chooseUnpinnedBuffer with
    | none => (m, none)
    | some i => ((m.onBuffer i (Buffer.assignToBlock blk)).pinBuffer i, some i)

/-- A write to the page of a buffer, and `setModified` on the buffer. -/
def modify (m : BufferMgr α) (i : ℕ) (f : α → α) (txnum lsn : ℤ) : BufferMgr α :=
  m.onBuffer i (fun files b =>
    (files, { b with contents := f b.contents }.setModified txnum lsn))

theorem onBuffer_eq {m : BufferMgr α} {i : ℕ} {b : Buffer α} (h : m.pool[i]? = some b)
    (f : Files α → Buffer α → Files α × Buffer α) :
    m.onBuffer i f =
      { m with files := (f m.files b).1, pool := m.pool.set i (f m.files b).2 } := by
  unfold onBuffer
  rw [h]

theorem onBuffer_onBuffer (m : BufferMgr α) (i : ℕ)
    (f g : Files α → Buffer α → Files α × Buffer α) :
    (m.onBuffer i f).onBuffer i g =
      m.onBuffer i (fun files b => g (f files b).1 (f files b).2) := by
  cases h : m.pool[i]? with
  | none => simp [onBuffer, h]
  | some b =>
    have hi := (List.getElem?_eq_some_iff.mp h).1
    rw [onBuffer_eq h, onBuffer_eq (m := { m with files := _, pool := _ })
      (List.getElem?_set_self hi), onBuffer_eq h, List.set_set]

theorem isPinned_eq {m : BufferMgr α} {i : ℕ} {b : Buffer α} (h : m.pool[i]? = some b) :
    m.isPinned i = b.isPinned := by
  unfold isPinned
  rw [h]

theorem pinBuffer_eq {m : BufferMgr α} {i : ℕ} {b : Buffer α} (h : m.pool[i]? = some b) :
    m.pinBuffer i = ⟨m.files, m.pool.set i b.pin,
      if b.isPinned then m.numAvailable else m.numAvailable - 1⟩ := by
  unfold pinBuffer
  rw [isPinned_eq h]
  cases b.isPinned <;> simp [onBuffer, h]

theorem unpin_eq {m : BufferMgr α} {i : ℕ} {b : Buffer α} (h : m.pool[i]? = some b) :
    m.unpin i = ⟨m.files, m.pool.set i b.unpin,
      if b.unpin.isPinned then m.numAvailable else m.numAvailable + 1⟩ := by
  have hself : (m.pool.set i b.unpin)[i]? = some b.unpin :=
    List.getElem?_set_self (List.getElem?_eq_some_iff.mp h).1
  unfold unpin
  simp only [onBuffer_eq h, isPinned, hself]
  cases b.unpin.isPinned <;> rfl

/-- The buffer found for a block holds it, and none does when there is no such buffer. -/
theorem findExistingBuffer_eq_some {m : BufferMgr α} {blk : BlockId} {i : ℕ}
    (h : m.findExistingBuffer blk = some i) : ∃ b, m.pool[i]? = some b ∧ b.blk = blk := by
  obtain ⟨hi, heq, -⟩ := List.findIdx?_eq_some_iff_getElem.mp h
  exact ⟨m.pool[i], List.getElem?_eq_getElem hi, by simpa using heq⟩

theorem findExistingBuffer_eq_none {m : BufferMgr α} {blk : BlockId} :
    m.findExistingBuffer blk = none ↔ ∀ b ∈ m.pool, b.blk ≠ blk := by
  unfold findExistingBuffer
  rw [List.findIdx?_eq_none_iff]
  simp

theorem chooseUnpinnedBuffer_eq_some {m : BufferMgr α} {i : ℕ}
    (h : m.chooseUnpinnedBuffer = some i) :
    ∃ b, m.pool[i]? = some b ∧ b.isPinned = false := by
  obtain ⟨hi, heq, -⟩ := List.findIdx?_eq_some_iff_getElem.mp h
  exact ⟨m.pool[i], List.getElem?_eq_getElem hi, by simpa using heq⟩

theorem chooseUnpinnedBuffer_eq_none {m : BufferMgr α} :
    m.chooseUnpinnedBuffer = none ↔ ∀ b ∈ m.pool, b.isPinned := by
  unfold chooseUnpinnedBuffer
  rw [List.findIdx?_eq_none_iff]
  simp

end BufferMgr

end SampleDB.BufferPool
