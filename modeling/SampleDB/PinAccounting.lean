import SampleDB.BufferLists

/-!
The pins of transactions in every run. What each transaction has outstanding is read off the
calls alone; the pool, the lists of the transactions and their maps agree with it.
-/
namespace SampleDB.PinAccounting

open Pages Blocks BufferPool BufferLists

section Accounts

variable {ι α : Type} [DecidableEq ι]

structure State (ι α : Type) where
  mgr : BufferMgr α
  txs : ι → Transaction

namespace State

def new (files : Files α) (blank : α) (buffSize : ℕ) (txNums : ι → ℤ) : State ι α :=
  ⟨.new files blank buffSize, fun t => .new (txNums t)⟩

def step (s : State ι α) (t : ι) (c : Call α) : Result (State ι α × Bool) := do
  let (mgr, tx, done) ← (s.txs t).call s.mgr c
  .ok (⟨mgr, Function.update s.txs t tx⟩, done)

end State

/-- A call on a transaction, and whether it returns. -/
abbrev Label (ι α : Type) := (ι × Call α) × Bool

def Step (s : State ι α) (l : Label ι α) (s' : State ι α) : Prop :=
  s.step l.1.1 l.1.2 = .ok (s', l.2)

/-- How many pins of a block each transaction has outstanding. -/
abbrev Account (ι : Type) := ι → BlockId → ℕ

/-- What a call that returns does to the pins of its transaction. Undoing a pin of a block that
has none does nothing. -/
def after (c : Call α) (held : BlockId → ℕ) : BlockId → ℕ :=
  match c with
  | .pin blk => Function.update held blk (held blk + 1)
  | .unpin blk => Function.update held blk (held blk - 1)
  | .set _ _ _ => held
  | .commit => fun _ => 0
  | .rollback _ => fun _ => 0

def ends : Call α → Bool
  | .commit => true
  | .rollback _ => true
  | _ => false

namespace Account

/-- A call that throws leaves all as it was. -/
def after (a : Account ι) (l : Label ι α) : Account ι :=
  if l.2 then Function.update a l.1.1 (PinAccounting.after l.1.2 (a l.1.1)) else a

def of (calls : List (Label ι α)) : Account ι := calls.foldl after (fun _ _ => 0)

end Account

end Accounts

section Lists

variable {ι α : Type} [Fintype ι]

/-- The map holds the listed blocks, each with the buffer that the pool has for it. -/
def Mapped (m : BufferMgr α) (l : BufferList) : Prop :=
  ∀ blk, l.buffers blk = if blk ∈ l.pinned then m.findExistingBuffer blk else none

structure Held (m : BufferMgr α) (lists : ι → BufferList) : Prop where
  counted : Counted m (fun t => (lists t).pinned)
  mapped : ∀ t, Mapped m (lists t)

variable {m m' : BufferMgr α} {lists : ι → BufferList} {t : ι} {l l' : BufferList}

theorem Held.alike (h : Held m lists)
    (heq : m'.pool.map (fun b => (b.blk, b.pins)) = m.pool.map (fun b => (b.blk, b.pins))) :
    Held m' lists := by
  obtain ⟨hcounted, hfind⟩ := h.counted.alike heq
  refine ⟨hcounted, ?_⟩
  intro t blk
  rw [hfind]
  exact h.mapped t blk

/-- The place that the map gives for a listed block. -/
theorem Held.exists_buffer (h : Held m lists) (t : ι) (blk : BlockId)
    (hmem : blk ∈ (lists t).pinned) :
    ∃ i, (lists t).buffers blk = some i ∧ m.findExistingBuffer blk = some i := by
  obtain ⟨i, hi⟩ := Option.ne_none_iff_exists'.mp (h.counted.found t blk hmem)
  refine ⟨i, ?_, hi⟩
  rw [h.mapped t blk, if_pos hmem, hi]

variable [DecidableEq ι]

/-- A call on one transaction that leaves the listed blocks of all others where they are. -/
theorem Held.of_counted (h : Held m (Function.update lists t l))
    (hcounted : Counted m' (fun t' => (Function.update lists t l' t').pinned))
    (hmapped : Mapped m' l')
    (hkept : ∀ t', t' ≠ t → ∀ blk ∈ (lists t').pinned,
      m'.findExistingBuffer blk = m.findExistingBuffer blk) :
    Held m' (Function.update lists t l') := by
  refine ⟨hcounted, ?_⟩
  intro t'
  by_cases ht : t' = t
  · subst ht
    rw [Function.update_self]
    exact hmapped
  · rw [Function.update_of_ne ht]
    intro blk
    have hold := h.mapped t' blk
    rw [Function.update_of_ne ht] at hold
    rw [hold]
    split
    · rename_i hmem
      rw [hkept t' ht blk hmem]
    · rfl

theorem Held.pin (h : Held m (Function.update lists t l)) (blk : BlockId) :
    (∃ m' l', l.pin m blk = (m', l', true) ∧ Held m' (Function.update lists t l') ∧
        l'.pinned = l.pinned ++ [blk]) ∨
      l.pin m blk = (m, l, false) := by
  unfold BufferList.pin
  rcases h.counted.tryToPin t blk with ⟨m', i, htry, hfind, hcounted, hkept⟩ | htry
  · rw [htry]
    refine Or.inl ⟨m', _, rfl, h.of_counted ?_ ?_ ?_, rfl⟩
    · rw [pinned_update] at hcounted ⊢
      simpa only [Function.update_idem, Function.update_self] using hcounted
    · intro blk'
      have hold := h.mapped t blk'
      rw [Function.update_self] at hold
      dsimp only
      by_cases hblk : blk' = blk
      · subst hblk
        rw [Function.update_self, if_pos (by simp), hfind]
      · rw [Function.update_of_ne hblk, hold]
        simp only [List.mem_append, List.mem_singleton, hblk, or_false]
        split
        · rename_i hmem
          rw [hkept t blk' (by rwa [Function.update_self])]
        · rfl
    · intro t' ht blk' hmem
      exact hkept t' blk' (by rwa [Function.update_of_ne ht])
  · rw [htry]
    exact Or.inr rfl

theorem Held.unpin (h : Held m (Function.update lists t l)) (blk : BlockId) :
    ∃ m' l', l.unpin m blk = (m', l') ∧ Held m' (Function.update lists t l') ∧
      l'.pinned = l.pinned.erase blk := by
  have hmap := h.mapped t
  rw [Function.update_self] at hmap
  unfold BufferList.unpin
  by_cases hmem : blk ∈ l.pinned
  · obtain ⟨i, hbuf, hfind⟩ := h.exists_buffer t blk
      (by rwa [Function.update_self])
    rw [Function.update_self] at hbuf
    obtain ⟨hcounted, hsame⟩ := h.counted.unpin (t := t) (by rwa [Function.update_self]) hfind
    rw [hbuf]
    refine ⟨_, _, rfl, h.of_counted ?_ ?_ ?_, rfl⟩
    · rw [pinned_update] at hcounted ⊢
      simpa only [Function.update_idem, Function.update_self] using hcounted
    · intro blk'
      rw [hsame]
      dsimp only
      by_cases hblk : blk' = blk
      · subst hblk
        split
        · rw [hbuf, hfind]
        · rw [Function.update_self]
      · have hiff : blk' ∈ l.pinned.erase blk ↔ blk' ∈ l.pinned := List.mem_erase_of_ne hblk
        have hsplit : (if blk ∈ l.pinned.erase blk then l.buffers
            else Function.update l.buffers blk none) blk' = l.buffers blk' := by
          split
          · rfl
          · rw [Function.update_of_ne hblk]
        rw [hsplit, hmap blk']
        simp only [hiff]
    · intro t' _ blk' _
      rw [hsame]
  · rw [hmap blk, if_neg hmem]
    exact ⟨m, l, rfl, h, (List.erase_of_not_mem hmem).symm⟩

theorem Held.unpinAll (h : Held m (Function.update lists t l)) :
    ∃ m', l.unpinAll m = .ok (m', .empty) ∧ Held m' (Function.update lists t .empty) := by
  have hcounted := h.counted
  rw [pinned_update] at hcounted
  obtain ⟨m', hfold, hcounted', hsame⟩ := hcounted.foldlM_unpin (l := l) (by
    intro blk hmem
    have hmap := h.mapped t blk
    rwa [Function.update_self, if_pos hmem] at hmap)
  refine ⟨m', ?_, h.of_counted ?_ ?_ ?_⟩
  · unfold BufferList.unpinAll
    rw [hfold]
    rfl
  · rw [pinned_update]
    exact hcounted'
  · intro blk
    rw [if_neg (by simp [BufferList.empty])]
    rfl
  · intro t' _ blk _
    rw [hsame]

end Lists

section Runs

variable {ι α : Type} [Fintype ι] [DecidableEq ι]
variable {m : BufferMgr α} {lists : ι → BufferList} {t : ι}

theorem Held.set (tx : Transaction) (h : Held m (Function.update lists t tx.buffers))
    {blk : BlockId} (hmem : blk ∈ tx.buffers.pinned) (f : α → α) (lsn : ℤ) :
    ∃ m', tx.set m blk f lsn = .ok m' ∧ Held m' (Function.update lists t tx.buffers) := by
  obtain ⟨i, hbuf, -⟩ := h.exists_buffer t blk (by rwa [Function.update_self])
  rw [Function.update_self] at hbuf
  unfold Transaction.set
  rw [hbuf]
  refine ⟨_, rfl, h.alike ?_⟩
  exact onBuffer_alike m i _ (fun _ _ => ⟨rfl, rfl⟩)

/-- Undoing a record takes its own pin and gives it back, or leaves all as it was. -/
theorem Held.undo {tx : Transaction} (h : Held m (Function.update lists t tx.buffers))
    (u : Undo α) :
    ∃ m' l' done, tx.undo m u = .ok (m', { tx with buffers := l' }, done) ∧
      Held m' (Function.update lists t l') ∧ l'.pinned.Perm tx.buffers.pinned := by
  unfold Transaction.undo Transaction.pin
  rcases h.pin u.1 with ⟨m₁, l₁, hpin, hheld, hl₁⟩ | hpin
  · rw [hpin]
    have hmem : u.1 ∈ l₁.pinned := by
      rw [hl₁]
      simp
    obtain ⟨m₂, hset, hheld₂⟩ := Held.set { tx with buffers := l₁ } hheld hmem u.2 (-1)
    obtain ⟨m₃, l₃, hunpin, hheld₃, hl₃⟩ := hheld₂.unpin u.1
    refine ⟨m₃, l₃, true, ?_, hheld₃, ?_⟩
    · dsimp only
      rw [hset, ok_bind]
      unfold Transaction.unpin
      dsimp only at hunpin ⊢
      rw [hunpin]
    · rw [hl₃]
      dsimp only
      rw [hl₁]
      have hcons := (List.perm_append_singleton u.1 tx.buffers.pinned).erase u.1
      rwa [List.erase_cons_head] at hcons
  · rw [hpin]
    exact ⟨m, tx.buffers, false, rfl, h, .refl _⟩

theorem Held.doRollback {tx : Transaction} (h : Held m (Function.update lists t tx.buffers))
    (us : List (Undo α)) :
    ∃ m' l' done, tx.doRollback m us = .ok (m', { tx with buffers := l' }, done) ∧
      Held m' (Function.update lists t l') ∧ l'.pinned.Perm tx.buffers.pinned := by
  induction us generalizing m tx with
  | nil => exact ⟨m, tx.buffers, true, rfl, h, .refl _⟩
  | cons u us ih =>
    obtain ⟨m₁, l₁, done, hundo, hheld, hperm⟩ := h.undo u
    unfold Transaction.doRollback
    rw [hundo, ok_bind]
    cases done with
    | false => exact ⟨m₁, l₁, false, rfl, hheld, hperm⟩
    | true =>
      obtain ⟨m₂, l₂, done, hrest, hheld₂, hperm₂⟩ := @ih m₁ { tx with buffers := l₁ } hheld
      exact ⟨m₂, l₂, done, hrest, hheld₂, hperm₂.trans hperm⟩

theorem Held.finish (tx : Transaction) (h : Held m (Function.update lists t tx.buffers)) :
    ∃ m', tx.finish m = .ok (m', { tx with buffers := .empty, finished := true }) ∧
      Held m' (Function.update lists t .empty) := by
  obtain ⟨m', hunpin, hheld⟩ := (h.alike (flushAll_alike m tx.txNum)).unpinAll
  refine ⟨m', ?_, hheld⟩
  unfold Transaction.finish
  rw [hunpin]
  rfl

theorem count_append (l : List BlockId) (blk : BlockId) :
    (fun blk' => (l ++ [blk]).count blk') =
      Function.update (fun blk' => l.count blk') blk (l.count blk + 1) := by
  funext blk'
  rw [List.count_append, Function.update_apply]
  split
  · rename_i heq
    rw [heq, List.count_singleton_self]
  · rename_i hne
    rw [List.count_singleton, beq_false_of_ne (Ne.symm hne)]
    rfl

theorem count_erase (l : List BlockId) (blk : BlockId) :
    (fun blk' => (l.erase blk).count blk') =
      Function.update (fun blk' => l.count blk') blk (l.count blk - 1) := by
  funext blk'
  rw [Function.update_apply]
  split
  · rename_i heq
    rw [heq, List.count_erase_self]
  · rename_i hne
    rw [List.count_erase_of_ne hne]

/-- What a call does to its transaction. -/
structure Called (c : Call α) (done : Bool) (tx tx' : Transaction) : Prop where
  held : tx'.buffers.pinned.count =
    if done then after c tx.buffers.pinned.count else tx.buffers.pinned.count
  finished : tx'.finished = (done && ends c || tx.finished)
  emptied : done = true → ends c = true → tx'.buffers = .empty
  commits : c = .commit → done = true

/-- One call, on a transaction that agrees with the pool. -/
theorem Held.call {tx : Transaction} (h : Held m (Function.update lists t tx.buffers)) (c : Call α)
    (hset : ∀ blk f lsn, c = .set blk f lsn → blk ∈ tx.buffers.pinned) :
    ∃ m' tx' done, tx.call m c = .ok (m', tx', done) ∧
      Held m' (Function.update lists t tx'.buffers) ∧ Called c done tx tx' := by
  cases c with
  | pin blk =>
    unfold Transaction.call Transaction.pin
    dsimp only
    rcases h.pin blk with ⟨m', l', hpin, hheld, hl'⟩ | hpin
    · rw [hpin]
      refine ⟨_, _, true, rfl, hheld, ?_, rfl, by rintro - ⟨⟩, nofun⟩
      dsimp only
      rw [hl', if_pos rfl]
      exact count_append tx.buffers.pinned blk
    · rw [hpin]
      exact ⟨m, tx, false, rfl, h, rfl, rfl, by rintro ⟨⟩, nofun⟩
  | unpin blk =>
    obtain ⟨m', l', hunpin, hheld, hl'⟩ := h.unpin blk
    unfold Transaction.call Transaction.unpin
    dsimp only
    rw [hunpin]
    refine ⟨_, _, true, rfl, hheld, ?_, rfl, by rintro - ⟨⟩, nofun⟩
    dsimp only
    rw [hl', if_pos rfl]
    exact count_erase tx.buffers.pinned blk
  | set blk f lsn =>
    obtain ⟨m', hok, hheld⟩ := Held.set tx h (hset blk f lsn rfl) f lsn
    unfold Transaction.call
    dsimp only
    rw [hok]
    exact ⟨m', tx, true, rfl, hheld, rfl, rfl, by rintro - ⟨⟩, nofun⟩
  | commit =>
    obtain ⟨m', hfinish, hheld⟩ := Held.finish tx h
    unfold Transaction.call Transaction.commit
    dsimp only
    rw [hfinish]
    exact ⟨m', _, true, rfl, hheld, rfl, rfl, fun _ _ => rfl, fun _ => rfl⟩
  | rollback us =>
    obtain ⟨m₁, l₁, done, hundo, hheld, hperm⟩ := h.doRollback us
    unfold Transaction.call Transaction.rollback
    dsimp only
    rw [hundo, ok_bind]
    cases done with
    | false =>
      refine ⟨m₁, _, false, rfl, hheld, ?_, rfl, by rintro ⟨⟩, nofun⟩
      funext blk
      exact hperm.count_eq blk
    | true =>
      obtain ⟨m₂, hfinish, hheld₂⟩ := Held.finish { tx with buffers := l₁ } hheld
      dsimp only
      rw [hfinish]
      exact ⟨m₂, _, true, rfl, hheld₂, rfl, rfl, fun _ _ => rfl, nofun⟩

end Runs

section Results

variable {ι α : Type} [Fintype ι] {s s' : State ι α} {a : Account ι}

structure Agrees (s : State ι α) (a : Account ι) : Prop where
  held : Held s.mgr (fun t => (s.txs t).buffers)
  listed : ∀ t, (s.txs t).buffers.pinned.count = a t

theorem agrees_new (files : Files α) (blank : α) (buffSize : ℕ) (txNums : ι → ℤ) :
    Agrees (State.new files blank buffSize txNums) (fun _ _ => 0) := by
  have hbuf : ∀ (i : ℕ) (b : Buffer α),
      (BufferMgr.new files blank buffSize).pool[i]? = some b → b = Buffer.new blank :=
    fun i b hb => List.eq_of_mem_replicate (List.mem_of_getElem? hb)
  refine ⟨⟨⟨?_, ?_, ?_⟩, ?_⟩, ?_⟩
  · intro i j b c hb _ _ hnull
    rw [hbuf i b hb] at hnull
    exact absurd rfl hnull
  · intro t blk hmem
    cases hmem
  · intro i b hb
    rw [hbuf i b hb]
    have hzero : ∑ t : ι, places (State.new files blank buffSize txNums).mgr
        ((State.new (α := α) files blank buffSize txNums).txs t).buffers.pinned i = 0 :=
      Finset.sum_eq_zero (fun t _ => rfl)
    rw [hzero]
    rfl
  · intro t blk
    rfl
  · intro t
    rfl

theorem Agrees.pins (h : Agrees s a) {i : ℕ} {b : Buffer α} (hb : s.mgr.pool[i]? = some b)
    (hblk : s.mgr.findExistingBuffer b.blk = some i ∨ b.blk ≠ noBlock) :
    b.pins = (∑ t, a t b.blk : ℕ) := by
  rw [h.held.counted.pins i b hb]
  congr 1
  apply Finset.sum_congr rfl
  intro t _
  rw [← h.listed t]
  unfold places List.count
  apply List.countP_congr
  intro blk hmem
  rw [decide_eq_true_eq, beq_iff_eq]
  constructor
  · intro hfind
    obtain ⟨b', hb', hblk'⟩ := BufferMgr.findExistingBuffer_eq_some hfind
    cases hb.symm.trans hb'
    exact hblk'.symm
  · rintro rfl
    rcases hblk with hfind | hnamed
    · exact hfind
    · obtain ⟨j, hj⟩ := Option.ne_none_iff_exists'.mp (h.held.counted.found t b.blk hmem)
      obtain ⟨c, hc, hcblk⟩ := BufferMgr.findExistingBuffer_eq_some hj
      rw [hj, h.held.counted.unique i j b c hb hc hcblk.symm hnamed]

variable [DecidableEq ι]

theorem Agrees.step (h : Agrees s a) (t : ι) (c : Call α)
    (hset : ∀ blk f lsn, c = .set blk f lsn → 0 < a t blk) :
    ∃ s' done, s.step t c = .ok (s', done) ∧ Agrees s' (a.after ((t, c), done)) ∧
      Called c done (s.txs t) (s'.txs t) ∧ ∀ t', t' ≠ t → s'.txs t' = s.txs t' := by
  have hheld : Held s.mgr
      (Function.update (fun t => (s.txs t).buffers) t (s.txs t).buffers) := by
    rw [Function.update_eq_self]
    exact h.held
  obtain ⟨m', tx', done, hcall, hheld', hcalled⟩ := hheld.call c (by
    intro blk f lsn hc
    have hpos := hset blk f lsn hc
    rw [← h.listed t] at hpos
    exact List.count_pos_iff.mp hpos)
  refine ⟨⟨m', Function.update s.txs t tx'⟩, done, ?_, ⟨?_, ?_⟩, ?_, ?_⟩
  · unfold State.step
    rw [hcall]
    rfl
  · have hlists : (fun t' => (Function.update s.txs t tx' t').buffers) =
        Function.update (fun t' => (s.txs t').buffers) t tx'.buffers := by
      funext t'
      exact Function.apply_update (fun _ tx => Transaction.buffers tx) s.txs t tx' t'
    rw [hlists]
    exact hheld'
  · intro t'
    unfold Account.after
    dsimp only
    by_cases ht : t' = t
    · subst ht
      rw [Function.update_self, hcalled.held, h.listed t']
      cases done
      · rfl
      · simp
    · rw [Function.update_of_ne ht, h.listed t']
      cases done
      · rfl
      · simp [ht]
  · dsimp only
    rw [Function.update_self]
    exact hcalled
  · intro t' ht
    exact Function.update_of_ne ht _ _

/-- A page is written only through a block that the transaction has pinned. -/
theorem Agrees.set_pinned (h : Agrees s a) {t : ι} {c : Call α} {done : Bool}
    (hstep : s.step t c = .ok (s', done)) :
    ∀ blk f lsn, c = .set blk f lsn → 0 < a t blk := by
  rintro blk f lsn rfl
  rw [← h.listed t, List.count_pos_iff]
  apply Classical.byContradiction
  intro hnot
  have hmap := h.held.mapped t blk
  rw [if_neg hnot] at hmap
  unfold State.step Transaction.call Transaction.set at hstep
  dsimp only at hstep
  rw [hmap] at hstep
  cases hstep

theorem Agrees.of_step (h : Agrees s a) {t : ι} {c : Call α} {done : Bool}
    (hstep : s.step t c = .ok (s', done)) :
    Agrees s' (a.after ((t, c), done)) ∧ Called c done (s.txs t) (s'.txs t) ∧
      ∀ t', t' ≠ t → s'.txs t' = s.txs t' := by
  obtain ⟨s₁, done₁, hstep₁, hrest⟩ := h.step t c (h.set_pinned hstep)
  cases hstep.symm.trans hstep₁
  exact hrest

theorem agrees_of_run {calls : List (Label ι α)} (h : Agrees s a)
    (hrun : Runs.Run Step s calls s') : Agrees s' (calls.foldl Account.after a) := by
  induction hrun generalizing a with
  | nil => exact h
  | cons hfirst _ ih => exact ih (h.of_step hfirst).1

/-- What holds between two calls. A rollback can throw at a pin of its own, and leaves the
transaction as it was. -/
structure Accounted (s : State ι α) (a : Account ι) : Prop where
  pins : ∀ b ∈ s.mgr.pool, b.blk ≠ noBlock → b.pins = (∑ t, a t b.blk : ℕ)
  unassigned : ∀ (i : ℕ) (b : Buffer α), s.mgr.pool[i]? = some b → b.blk = noBlock →
    b.pins = (if s.mgr.findExistingBuffer noBlock = some i then ∑ t, a t noBlock else 0 : ℕ)
  mapped : ∀ t blk, 0 < a t blk → ∃ (i : ℕ) (b : Buffer α),
    (s.txs t).buffers.buffers blk = some i ∧ s.mgr.pool[i]? = some b ∧ b.blk = blk
  returns : ∀ t c, (∀ blk f lsn, c = .set blk f lsn → 0 < a t blk) →
    ∃ s' done, s.step t c = .ok (s', done) ∧ (c = .commit → done = true)
  ends : ∀ t c s', ends c = true → s.step t c = .ok (s', true) →
    (s'.txs t).buffers = .empty ∧ (∀ t', t' ≠ t → s'.txs t' = s.txs t') ∧
      ∀ b ∈ s'.mgr.pool, b.blk ≠ noBlock → b.pins = (∑ t' with t' ≠ t, a t' b.blk : ℕ)

theorem Agrees.accounted (h : Agrees s a) : Accounted s a where
  pins := by
    intro b hmem hnamed
    obtain ⟨i, hb⟩ := List.getElem?_of_mem hmem
    exact h.pins hb (Or.inr hnamed)
  unassigned := by
    intro i b hb hblk
    split
    · rename_i hfind
      rw [← hblk] at hfind ⊢
      exact h.pins hb (Or.inl hfind)
    · rename_i hfind
      rw [h.held.counted.pins i b hb]
      congr 1
      apply Finset.sum_eq_zero
      intro t _
      apply List.countP_eq_zero.mpr
      intro blk _
      rw [decide_eq_true_eq]
      intro hblk'
      obtain ⟨c, hc, hcblk⟩ := BufferMgr.findExistingBuffer_eq_some hblk'
      cases hb.symm.trans hc
      rw [← hcblk, hblk] at hblk'
      exact hfind hblk'
  mapped := by
    intro t blk hpos
    rw [← h.listed t] at hpos
    obtain ⟨i, hbuf, hfind⟩ := h.held.exists_buffer t blk (List.count_pos_iff.mp hpos)
    obtain ⟨b, hb, hblk⟩ := BufferMgr.findExistingBuffer_eq_some hfind
    exact ⟨i, b, hbuf, hb, hblk⟩
  returns := by
    intro t c hset
    obtain ⟨s', done, hstep, -, hcalled, -⟩ := h.step t c hset
    exact ⟨s', done, hstep, hcalled.commits⟩
  ends := by
    intro t c s' hends hstep
    obtain ⟨hagrees, hcalled, hothers⟩ := h.of_step hstep
    refine ⟨hcalled.emptied rfl hends, hothers, ?_⟩
    intro b hmem hnamed
    obtain ⟨i, hb⟩ := List.getElem?_of_mem hmem
    rw [hagrees.pins hb (Or.inr hnamed), Finset.sum_filter]
    congr 1
    apply Finset.sum_congr rfl
    intro t' _
    rw [← hagrees.listed t']
    split
    · rename_i ht
      rw [hothers t' ht, h.listed t']
    · rename_i ht
      rw [Classical.not_not.mp ht, hcalled.emptied rfl hends]
      rfl

/-- No call is made on a transaction that has ended. -/
def StepUnfinished (s : State ι α) (l : Label ι α) (s' : State ι α) : Prop :=
  (s.txs l.1.1).finished = false ∧ Step s l s'

theorem finished_of_run {calls : List (Label ι α)} (h : Agrees s a)
    (hfinished : ∀ t, (s.txs t).finished = true → a t = fun _ => 0)
    (hrun : Runs.Run StepUnfinished s calls s') :
    ∀ t, (s'.txs t).finished = true → calls.foldl Account.after a t = fun _ => 0 := by
  induction hrun generalizing a with
  | nil => exact hfinished
  | @cons s s₁ s₂ l _ hfirst _ ih =>
    obtain ⟨hunfinished, hstep⟩ := hfirst
    obtain ⟨hagrees, hcalled, hothers⟩ := h.of_step hstep
    apply ih hagrees
    intro t ht
    unfold Account.after
    dsimp only
    by_cases hother : t = l.1.1
    · subst hother
      rw [hcalled.finished, hunfinished, Bool.or_false, Bool.and_eq_true] at ht
      rw [if_pos ht.1, Function.update_self]
      funext blk
      revert ht
      cases l.1.2 <;> simp [ends, PinAccounting.after]
    · rw [hothers t hother] at ht
      split
      · rw [Function.update_of_ne hother]
        exact hfinished t ht
      · exact hfinished t ht

/-- Whatever the transactions call, in any order, the pool, the lists and the maps agree with
what is outstanding. Where no call is made on a transaction that has ended, all of it is
outstanding in the others. -/
theorem accounted_of_run (files : Files α) (blank : α) (buffSize : ℕ) (txNums : ι → ℤ)
    (calls : List (Label ι α)) (s : State ι α)
    (hrun : Runs.Run Step (State.new files blank buffSize txNums) calls s) :
    Accounted s (Account.of calls) ∧
      (Runs.Run StepUnfinished (State.new files blank buffSize txNums) calls s →
        ∀ b ∈ s.mgr.pool, b.blk ≠ noBlock →
          b.pins = (∑ t with (s.txs t).finished = false, Account.of calls t b.blk : ℕ)) := by
  have hnew := agrees_new files blank buffSize txNums
  have haccounted := (agrees_of_run hnew hrun).accounted
  refine ⟨haccounted, ?_⟩
  intro hunfinished b hmem hnamed
  rw [haccounted.pins b hmem hnamed]
  congr 1
  symm
  apply Finset.sum_filter_of_ne
  intro t _ hne
  rw [Bool.eq_false_iff]
  intro hended
  have hzero := finished_of_run hnew (by nofun) hunfinished t hended
  exact hne (congrFun hzero b.blk)

/-- Two transactions share block 1 of `t` in the only buffer, so that the first cannot get
another block. The second one rolls back. -/
theorem accounted_of_run_shared :
    ∃ s : State Bool ℕ, Accounted s (Account.of
        [((false, .pin ⟨[116], 1⟩), true), ((true, .pin ⟨[116], 1⟩), true),
          ((false, .pin ⟨[116], 2⟩), false),
          ((true, .rollback [(⟨[116], 1⟩, fun _ => 7)]), true)]) ∧
      s.mgr.pool.map (fun b => (b.blk, b.pins)) = [(⟨[116], 1⟩, 1)] := by
  have hrun := fun s => accounted_of_run ⟨⟨[], [], 0, 0, 0⟩, fun _ => 0⟩ 0 1
    (fun t => if t then 2 else 1)
    [((false, .pin ⟨[116], 1⟩), true), ((true, .pin ⟨[116], 1⟩), true),
      ((false, .pin ⟨[116], 2⟩), false), ((true, .rollback [(⟨[116], 1⟩, fun _ => 7)]), true)] s
  exact ⟨_, (hrun _ (.cons rfl (.cons rfl (.cons rfl (.cons rfl (.nil _)))))).1,
    by decide +kernel⟩

end Results

end SampleDB.PinAccounting
