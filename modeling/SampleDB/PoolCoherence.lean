import SampleDB.BufferPool
import SampleDB.Runs

/-!
Coherence of the buffer pool. Seen from outside it is a store of blocks with a list
of outstanding pins; the pool and the disk together always represent that store.
-/
namespace SampleDB.PoolCoherence

open Blocks BufferPool

/-- An outstanding pin: the block, and the place of the buffer in the pool. -/
abbrev Handle := BlockId × ℕ

/-- The buffer manager next to the store it stands for: the outstanding pins, and what
was last written to each block. -/
structure PoolState (α : Type) where
  mgr : BufferMgr α
  handles : List Handle
  last : BlockId → α

inductive PoolOp (α : Type)
  | pin (blk : BlockId)
  | unpin (h : Handle)
  | modify (h : Handle) (f : α → α) (txnum lsn : ℤ)
  | flushAll (txnum : ℤ)

namespace PoolState

variable {α : Type}

def new (files : Files α) (blank : α) (buffSize : ℕ) : PoolState α :=
  ⟨BufferMgr.new files blank buffSize, [], files.disk⟩

/-- Only a block with a file name can be pinned, only an outstanding pin can be undone or
used for writing, and the writer is a transaction. -/
def step (s : PoolState α) : PoolOp α → Option (PoolState α)
  | .pin blk =>
      if blk.isNull then none
      else
        match s.mgr.tryToPin blk with
        | (mgr, some i) => some ⟨mgr, s.handles ++ [(blk, i)], s.last⟩
        | (mgr, none) => some { s with mgr := mgr }
  | .unpin h =>
      if h ∈ s.handles then some ⟨s.mgr.unpin h.2, s.handles.erase h, s.last⟩ else none
  | .modify h f txnum lsn =>
      if h ∈ s.handles ∧ txnum ≥ 0 then
        some ⟨s.mgr.modify h.2 f txnum lsn, s.handles,
          Function.update s.last h.1 (f (s.last h.1))⟩
      else none
  | .flushAll txnum => some { s with mgr := s.mgr.flushAll txnum }

def run (s : PoolState α) (ops : List (PoolOp α)) : Option (PoolState α) := ops.foldlM step s

end PoolState

section Coherence

variable {α : Type}

/-- The pool and the disk represent the store. -/
structure Coherent (m : BufferMgr α) (handles : List Handle) (last : BlockId → α) : Prop where
  available : m.numAvailable = m.pool.countP (fun b => !b.isPinned)
  unique : ∀ (i j : ℕ) (b c : Buffer α), m.pool[i]? = some b → m.pool[j]? = some c →
    b.blk = c.blk → b.blk.isNull = false → i = j
  pins : ∀ (i : ℕ) (b : Buffer α), m.pool[i]? = some b →
    b.pins = (handles.countP (fun h => h.2 = i) : ℕ)
  held : ∀ h ∈ handles, h.1.isNull = false ∧ ∃ b : Buffer α, m.pool[h.2]? = some b ∧ b.blk = h.1
  shown : ∀ (i : ℕ) (b : Buffer α), m.pool[i]? = some b → b.blk.isNull = false →
    b.contents = last b.blk
  stored : ∀ blk, blk.isNull = false → m.files.disk blk = last blk ∨
    ∃ (i : ℕ) (b : Buffer α), m.pool[i]? = some b ∧ b.blk = blk ∧ 0 ≤ b.txnum

/-- How the number of unpinned buffers changes with one buffer. -/
theorem unpinned_set (pool : List (Buffer α)) (i : ℕ) (b b' : Buffer α)
    (h : pool[i]? = some b) :
    (pool.set i b').countP (fun b => !b.isPinned) + (if b.isPinned then 0 else 1) =
      pool.countP (fun b => !b.isPinned) + (if b'.isPinned then 0 else 1) := by
  obtain ⟨hi, rfl⟩ := List.getElem?_eq_some_iff.mp h
  have hpos : pool[i].isPinned = false → 0 < pool.countP (fun b => !b.isPinned) := by
    intro hunpinned
    exact List.countP_pos_iff.mpr ⟨pool[i], List.getElem_mem hi, by rw [hunpinned]; rfl⟩
  rw [List.countP_set hi]
  cases hb : pool[i].isPinned with
  | false =>
    have hcount := hpos hb
    cases b'.isPinned <;> simp <;> omega
  | true => cases b'.isPinned <;> simp

theorem getElem?_set_cases {pool : List (Buffer α)} {i j : ℕ} {b' c : Buffer α}
    (h : (pool.set i b')[j]? = some c) :
    (j = i ∧ c = b') ∨ (j ≠ i ∧ pool[j]? = some c) := by
  rw [List.getElem?_set] at h
  split at h
  · rename_i hij
    split at h
    · exact Or.inl ⟨hij.symm, (Option.some.inj h).symm⟩
    · cases h
  · rename_i hij
    exact Or.inr ⟨fun hji => hij hji.symm, h⟩

variable {m : BufferMgr α} {handles : List Handle} {last : BlockId → α}

/-- A dirty buffer of another block is not the one at this place. -/
theorem stored_set {i : ℕ} {b : Buffer α} (hb : m.pool[i]? = some b) (b' : Buffer α)
    {blk : BlockId} (hne : b.blk ≠ blk ∨ b.txnum < 0)
    (h : ∃ (j : ℕ) (c : Buffer α), m.pool[j]? = some c ∧ c.blk = blk ∧ 0 ≤ c.txnum) :
    ∃ (j : ℕ) (c : Buffer α), (m.pool.set i b')[j]? = some c ∧ c.blk = blk ∧ 0 ≤ c.txnum := by
  obtain ⟨j, c, hc, hblk, hdirty⟩ := h
  have hji : i ≠ j := by
    rintro rfl
    rw [hb] at hc
    cases hc
    rcases hne with hblk' | hclean
    · exact hblk' hblk
    · omega
  exact ⟨j, c, (List.getElem?_set_ne hji).trans hc, hblk, hdirty⟩

/-- A buffer changed in place, which keeps its block and its pins. -/
theorem Coherent.set_same (h : Coherent m handles last) {i : ℕ} {b : Buffer α}
    (hb : m.pool[i]? = some b) (b' : Buffer α) (files : Files α) (last' : BlockId → α)
    (hblk : b'.blk = b.blk) (hpins : b'.pins = b.pins)
    (hshown : b.blk.isNull = false → b'.contents = last' b.blk)
    (hlast : ∀ blk, blk ≠ b.blk → last' blk = last blk)
    (hstored : b.blk.isNull = false → files.disk b.blk = last' b.blk ∨ 0 ≤ b'.txnum)
    (hdisk : ∀ blk, blk ≠ b.blk → files.disk blk = m.files.disk blk) :
    Coherent ⟨files, m.pool.set i b', m.numAvailable⟩ handles last' := by
  have hi : i < m.pool.length := (List.getElem?_eq_some_iff.mp hb).1
  have hself : (m.pool.set i b')[i]? = some b' := List.getElem?_set_self hi
  -- every buffer keeps the block that was at its place
  have hplace : ∀ (j : ℕ) (c : Buffer α), (m.pool.set i b')[j]? = some c →
      ∃ c' : Buffer α, m.pool[j]? = some c' ∧ c'.blk = c.blk ∧ c'.pins = c.pins := by
    intro j c hc
    rcases getElem?_set_cases hc with ⟨rfl, rfl⟩ | ⟨-, hc'⟩
    · exact ⟨b, hb, hblk.symm, hpins.symm⟩
    · exact ⟨c, hc', rfl, rfl⟩
  constructor <;> dsimp only
  · have hcount := unpinned_set m.pool i b b' hb
    have hpinned : b'.isPinned = b.isPinned := by
      unfold Buffer.isPinned
      rw [hpins]
    rw [hpinned] at hcount
    have havail := h.available
    omega
  · intro j k c d hc hd heq hnull
    obtain ⟨c', hc', hcblk, -⟩ := hplace j c hc
    obtain ⟨d', hd', hdblk, -⟩ := hplace k d hd
    exact h.unique j k c' d' hc' hd' (by rw [hcblk, hdblk, heq]) (by rw [hcblk, hnull])
  · intro j c hc
    obtain ⟨c', hc', -, hcpins⟩ := hplace j c hc
    rw [← hcpins]
    exact h.pins j c' hc'
  · intro hd hmem
    obtain ⟨hnull, c, hc, hcblk⟩ := h.held hd hmem
    refine ⟨hnull, ?_⟩
    by_cases hji : hd.2 = i
    · rw [hji, hb] at hc
      cases hc
      exact ⟨b', by rw [hji]; exact hself, hblk.trans hcblk⟩
    · exact ⟨c, (List.getElem?_set_ne (Ne.symm hji)).trans hc, hcblk⟩
  · intro j c hc hnull
    rcases getElem?_set_cases hc with ⟨rfl, rfl⟩ | ⟨hji, hc'⟩
    · rw [hblk] at hnull ⊢
      exact hshown hnull
    · have hne : c.blk ≠ b.blk := fun heq => hji (h.unique j i c b hc' hb heq hnull)
      rw [hlast _ hne]
      exact h.shown j c hc' hnull
  · intro blk hnull
    by_cases heq : blk = b.blk
    · subst heq
      rcases hstored hnull with hleft | hright
      · exact Or.inl hleft
      · exact Or.inr ⟨i, b', hself, hblk, hright⟩
    · rw [hlast blk heq, hdisk blk heq]
      rcases h.stored blk hnull with hleft | hright
      · exact Or.inl hleft
      · exact Or.inr (stored_set hb b' (Or.inl (Ne.symm heq)) hright)

theorem Coherent.flush (h : Coherent m handles last) (i : ℕ) :
    Coherent (m.onBuffer i Buffer.flush) handles last := by
  cases hb : m.pool[i]? with
  | none =>
    unfold BufferMgr.onBuffer
    rwa [hb]
  | some b =>
    rw [BufferMgr.onBuffer_eq hb]
    by_cases hdirty : b.txnum ≥ 0
    · have hflush : b.flush m.files = (⟨m.files.log.flush b.lsn,
          Function.update m.files.disk b.blk b.contents⟩, { b with txnum := -1 }) := by
        unfold Buffer.flush
        rw [if_pos hdirty]
      rw [hflush]
      refine h.set_same hb { b with txnum := -1 } _ last rfl rfl (h.shown i b hb)
        (fun _ _ => rfl) ?_ ?_
      · intro hnull
        left
        dsimp only
        rw [Function.update_self]
        exact h.shown i b hb hnull
      · intro blk hne
        exact Function.update_of_ne hne _ _
    · have hflush : b.flush m.files = (m.files, b) := by
        unfold Buffer.flush
        rw [if_neg hdirty]
      rw [hflush]
      refine h.set_same hb b _ last rfl rfl (h.shown i b hb) (fun _ _ => rfl) ?_ (fun _ _ => rfl)
      · intro hnull
        rcases h.stored b.blk hnull with hleft | ⟨j, c, hc, hblk, hdirty'⟩
        · exact Or.inl hleft
        · have hji := h.unique j i c b hc hb hblk (by rw [hblk, hnull])
          rw [hji, hb] at hc
          cases hc
          exact absurd hdirty' hdirty

theorem Coherent.flushAll (h : Coherent m handles last) (txnum : ℤ) :
    Coherent (m.flushAll txnum) handles last := by
  unfold BufferMgr.flushAll
  generalize List.range m.pool.length = is
  induction is generalizing m with
  | nil => exact h
  | cons i is ih =>
    rw [List.foldl_cons]
    apply ih
    cases hb : m.pool[i]? with
    | none =>
      unfold BufferMgr.onBuffer
      rwa [hb]
    | some b =>
      have hflush := h.flush i
      rw [BufferMgr.onBuffer_eq hb] at hflush ⊢
      by_cases hmine : b.txnum = txnum
      · simp only [if_pos hmine]
        exact hflush
      · simp only [if_neg hmine]
        obtain ⟨hi, rfl⟩ := List.getElem?_eq_some_iff.mp hb
        rw [List.set_getElem_self hi]
        exact h

theorem flush_keeps (files : Files α) (b : Buffer α) :
    (b.flush files).2.blk = b.blk ∧ (b.flush files).2.pins = b.pins ∧
      (b.flush files).2.txnum < 0 := by
  unfold Buffer.flush
  by_cases hdirty : b.txnum ≥ 0
  · rw [if_pos hdirty]
    exact ⟨rfl, rfl, by simp⟩
  · rw [if_neg hdirty]
    exact ⟨rfl, rfl, Int.not_le.mp hdirty⟩

/-- A clean buffer that is not pinned takes a block that no buffer holds. -/
theorem Coherent.replace (h : Coherent m handles last) {i : ℕ} {b : Buffer α}
    (hb : m.pool[i]? = some b) (hclean : b.txnum < 0) (hunpinned : b.isPinned = false)
    (b' : Buffer α) (hnull : b'.blk.isNull = false) (habsent : ∀ c ∈ m.pool, c.blk ≠ b'.blk)
    (hcontents : b'.contents = m.files.disk b'.blk) (hpins : b'.pins = 0) :
    Coherent ⟨m.files, m.pool.set i b', m.numAvailable⟩ handles last := by
  have hnone : b.pins = 0 := by
    have hcount := h.pins i b hb
    have hle := of_decide_eq_false hunpinned
    omega
  have hdisk : m.files.disk b'.blk = last b'.blk := by
    rcases h.stored b'.blk hnull with hleft | ⟨j, c, hc, hcblk, -⟩
    · exact hleft
    · exact absurd hcblk (habsent c (List.mem_of_getElem? hc))
  constructor <;> dsimp only
  · have hcount := unpinned_set m.pool i b b' hb
    have hpinned : b'.isPinned = b.isPinned := by
      unfold Buffer.isPinned
      rw [hpins, hnone]
    rw [hpinned] at hcount
    have havail := h.available
    omega
  · intro j k c d hc hd heq hnull'
    rcases getElem?_set_cases hc with ⟨rfl, rfl⟩ | ⟨hji, hc'⟩
    · rcases getElem?_set_cases hd with ⟨rfl, -⟩ | ⟨hki, hd'⟩
      · rfl
      · exact absurd heq.symm (habsent d (List.mem_of_getElem? hd'))
    · rcases getElem?_set_cases hd with ⟨rfl, rfl⟩ | ⟨hki, hd'⟩
      · exact absurd heq (habsent c (List.mem_of_getElem? hc'))
      · exact h.unique j k c d hc' hd' heq hnull'
  · intro j c hc
    rcases getElem?_set_cases hc with ⟨rfl, rfl⟩ | ⟨hji, hc'⟩
    · rw [hpins, ← hnone]
      exact h.pins j b hb
    · exact h.pins j c hc'
  · intro hd hmem
    obtain ⟨hnull', c, hc, hcblk⟩ := h.held hd hmem
    refine ⟨hnull', c, ?_, hcblk⟩
    have hji : i ≠ hd.2 := by
      intro hij
      have hpos : 0 < handles.countP (fun h => h.2 = i) :=
        List.countP_pos_iff.mpr ⟨hd, hmem, by simpa using hij.symm⟩
      have hcount := h.pins i b hb
      omega
    exact (List.getElem?_set_ne hji).trans hc
  · intro j c hc hnull'
    rcases getElem?_set_cases hc with ⟨rfl, rfl⟩ | ⟨hji, hc'⟩
    · exact hcontents.trans hdisk
    · exact h.shown j c hc' hnull'
  · intro blk hnull'
    rcases h.stored blk hnull' with hleft | hright
    · exact Or.inl hleft
    · exact Or.inr (stored_set hb b' (Or.inr hclean) hright)

theorem Coherent.assignToBlock (h : Coherent m handles last) {i : ℕ} {b : Buffer α}
    (hb : m.pool[i]? = some b) (hunpinned : b.isPinned = false) (blk : BlockId)
    (hnull : blk.isNull = false) (habsent : ∀ c ∈ m.pool, c.blk ≠ blk) :
    Coherent (m.onBuffer i (Buffer.assignToBlock blk)) handles last := by
  obtain ⟨hblk, hpins, hclean⟩ := flush_keeps m.files b
  have hi : i < m.pool.length := (List.getElem?_eq_some_iff.mp hb).1
  have hflush := h.flush i
  rw [BufferMgr.onBuffer_eq hb] at hflush
  have hsplit := BufferMgr.onBuffer_onBuffer m i Buffer.flush
    (fun files b => (files, { b with blk := blk, contents := files.disk blk, pins := 0 }))
  rw [BufferMgr.onBuffer_eq hb] at hsplit
  have hself : (m.pool.set i (b.flush m.files).2)[i]? = some (b.flush m.files).2 :=
    List.getElem?_set_self hi
  have hstep : Coherent _ handles last := hflush.replace hself hclean
    (by unfold Buffer.isPinned at hunpinned ⊢; rw [hpins, hunpinned])
    { (b.flush m.files).2 with blk := blk, contents := (b.flush m.files).1.disk blk, pins := 0 }
    hnull (by
      intro c hc
      rcases List.mem_or_eq_of_mem_set hc with hc | rfl
      · exact habsent c hc
      · rw [hblk]
        exact habsent b (List.mem_of_getElem? hb)) rfl rfl
  rw [BufferMgr.onBuffer_eq hself] at hsplit
  unfold Buffer.assignToBlock
  rw [← hsplit]
  exact hstep

/-- Only the pin count of a buffer changes, together with the outstanding pins. -/
theorem Coherent.set_pins (h : Coherent m handles last) {i : ℕ} {b : Buffer α}
    (hb : m.pool[i]? = some b) (n numAvailable : ℤ) (handles' : List Handle)
    (hn : n = (handles'.countP (fun h => h.2 = i) : ℕ))
    (havail : numAvailable + (if b.isPinned then 0 else 1) =
      m.numAvailable + (if Buffer.isPinned { b with pins := n } then 0 else 1))
    (hothers : ∀ j ≠ i, handles'.countP (fun h => h.2 = j) = handles.countP (fun h => h.2 = j))
    (hheld : ∀ h ∈ handles', h ∈ handles ∨ h = (b.blk, i) ∧ b.blk.isNull = false) :
    Coherent ⟨m.files, m.pool.set i { b with pins := n }, numAvailable⟩ handles' last := by
  have hi : i < m.pool.length := (List.getElem?_eq_some_iff.mp hb).1
  have hself : (m.pool.set i { b with pins := n })[i]? = some { b with pins := n } :=
    List.getElem?_set_self hi
  constructor <;> dsimp only
  · have hcount := unpinned_set m.pool i b { b with pins := n } hb
    have havail' := h.available
    cases hold : b.isPinned <;> cases hnew : Buffer.isPinned { b with pins := n } <;>
      simp only [hold, hnew, Bool.false_eq_true, if_false, if_true] at hcount havail <;> omega
  · intro j k c d hc hd heq hnull
    rcases getElem?_set_cases hc with ⟨rfl, rfl⟩ | ⟨hji, hc'⟩
    · rcases getElem?_set_cases hd with ⟨rfl, -⟩ | ⟨hki, hd'⟩
      · rfl
      · exact h.unique j k b d hb hd' heq hnull
    · rcases getElem?_set_cases hd with ⟨rfl, rfl⟩ | ⟨hki, hd'⟩
      · exact h.unique j k c b hc' hb heq hnull
      · exact h.unique j k c d hc' hd' heq hnull
  · intro j c hc
    rcases getElem?_set_cases hc with ⟨rfl, rfl⟩ | ⟨hji, hc'⟩
    · exact hn
    · rw [hothers j hji]
      exact h.pins j c hc'
  · intro hd hmem
    rcases hheld hd hmem with hold | ⟨rfl, hnull⟩
    · obtain ⟨hnull, c, hc, hcblk⟩ := h.held hd hold
      refine ⟨hnull, ?_⟩
      by_cases hji : hd.2 = i
      · rw [hji, hb] at hc
        cases hc
        exact ⟨{ b with pins := n }, by rw [hji]; exact hself, hcblk⟩
      · exact ⟨c, (List.getElem?_set_ne (Ne.symm hji)).trans hc, hcblk⟩
    · exact ⟨hnull, _, hself, rfl⟩
  · intro j c hc hnull
    rcases getElem?_set_cases hc with ⟨rfl, rfl⟩ | ⟨hji, hc'⟩
    · exact h.shown j b hb hnull
    · exact h.shown j c hc' hnull
  · intro blk hnull
    rcases h.stored blk hnull with hleft | ⟨j, c, hc, hcblk, hdirty⟩
    · exact Or.inl hleft
    · by_cases hji : j = i
      · subst hji
        rw [hb] at hc
        cases hc
        exact Or.inr ⟨j, _, hself, hcblk, hdirty⟩
      · exact Or.inr ⟨j, c, (List.getElem?_set_ne (Ne.symm hji)).trans hc, hcblk, hdirty⟩

theorem Coherent.pinBuffer (h : Coherent m handles last) {i : ℕ} {b : Buffer α}
    (hb : m.pool[i]? = some b) (hnull : b.blk.isNull = false) :
    Coherent (m.pinBuffer i) (handles ++ [(b.blk, i)]) last := by
  have hpins := h.pins i b hb
  rw [BufferMgr.pinBuffer_eq hb]
  apply h.set_pins hb
  · rw [List.countP_append, hpins]
    simp
  · have hpinned : Buffer.isPinned { b with pins := b.pins + 1 } = true :=
      decide_eq_true (by dsimp only; omega)
    rw [hpinned]
    cases b.isPinned <;> simp
  · intro j hji
    rw [List.countP_append]
    simp [hji.symm]
  · intro hd hmem
    rcases List.mem_append.mp hmem with hold | hnew
    · exact Or.inl hold
    · exact Or.inr ⟨List.mem_singleton.mp hnew, hnull⟩

theorem Coherent.unpin (h : Coherent m handles last) (hd : Handle) (hmem : hd ∈ handles) :
    Coherent (m.unpin hd.2) (handles.erase hd) last := by
  obtain ⟨hnull, b, hb, hblk⟩ := h.held hd hmem
  have hpins := h.pins hd.2 b hb
  have hcount : ∀ j, handles.countP (fun h => h.2 = j) =
      (handles.erase hd).countP (fun h => h.2 = j) + if hd.2 = j then 1 else 0 := by
    intro j
    rw [(List.perm_cons_erase hmem).countP_eq, List.countP_cons]
    simp
  have hself := hcount hd.2
  rw [if_pos rfl] at hself
  rw [BufferMgr.unpin_eq hb]
  apply h.set_pins hb
  · omega
  · have hpinned : b.isPinned = true := decide_eq_true (by omega)
    rw [hpinned, show Buffer.isPinned { b with pins := b.pins - 1 } = b.unpin.isPinned from rfl]
    cases b.unpin.isPinned <;> simp
  · intro j hji
    rw [hcount j, if_neg (Ne.symm hji)]
    rfl
  · intro hd' hmem'
    exact Or.inl (List.mem_of_mem_erase hmem')

theorem Coherent.modify (h : Coherent m handles last) (hd : Handle) (hmem : hd ∈ handles)
    (f : α → α) (txnum lsn : ℤ) (htx : txnum ≥ 0) :
    Coherent (m.modify hd.2 f txnum lsn) handles
      (Function.update last hd.1 (f (last hd.1))) := by
  obtain ⟨hnull, b, hb, hblk⟩ := h.held hd hmem
  unfold BufferMgr.modify
  rw [BufferMgr.onBuffer_eq hb, ← hblk]
  refine h.set_same hb _ _ _ rfl rfl ?_ ?_ (fun _ => Or.inr htx) (fun _ _ => rfl)
  · intro hnull'
    rw [Function.update_self, ← h.shown hd.2 b hb hnull']
    rfl
  · intro blk hne
    exact Function.update_of_ne hne _ _

/-- An attempt to pin either gives a buffer with the block, or it finds every buffer pinned
to another block and changes nothing. -/
theorem Coherent.tryToPin (h : Coherent m handles last) (blk : BlockId)
    (hnull : blk.isNull = false) :
    (∃ m' i, m.tryToPin blk = (m', some i) ∧ Coherent m' (handles ++ [(blk, i)]) last) ∨
      (m.tryToPin blk = (m, none) ∧ ∀ b ∈ m.pool, b.isPinned ∧ b.blk ≠ blk) := by
  unfold BufferMgr.tryToPin
  cases hfind : m.findExistingBuffer blk with
  | some i =>
    obtain ⟨b, hb, rfl⟩ := BufferMgr.findExistingBuffer_eq_some hfind
    exact Or.inl ⟨_, i, rfl, h.pinBuffer hb hnull⟩
  | none =>
    have habsent := BufferMgr.findExistingBuffer_eq_none.mp hfind
    cases hchoose : m.chooseUnpinnedBuffer with
    | some i =>
      left
      obtain ⟨b, hb, hunpinned⟩ := BufferMgr.chooseUnpinnedBuffer_eq_some hchoose
      have hassign := h.assignToBlock hb hunpinned blk hnull habsent
      have hi : i < m.pool.length := (List.getElem?_eq_some_iff.mp hb).1
      have hself : (m.onBuffer i (Buffer.assignToBlock blk)).pool[i]? =
          some (b.assignToBlock blk m.files).2 := by
        rw [BufferMgr.onBuffer_eq hb]
        exact List.getElem?_set_self hi
      exact ⟨_, i, rfl, hassign.pinBuffer hself hnull⟩
    | none =>
      right
      have hpinned := BufferMgr.chooseUnpinnedBuffer_eq_none.mp hchoose
      exact ⟨rfl, fun b hb => ⟨hpinned b hb, habsent b hb⟩⟩

end Coherence

section Runs

variable {α : Type}

end Runs

end SampleDB.PoolCoherence
