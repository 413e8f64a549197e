import Mathlib.Data.Fintype.Card
import Mathlib.Algebra.BigOperators.Group.Finset.Piecewise
import SampleDB.Locking
import SampleDB.Runs

/-!
Lock safety. The counter of a block agrees with the locks held on it as long as every
manager that goes on with a block of its map was granted that lock. An entry left by
a request that timed out breaks this: releasing it takes a lock from its owner.
-/
namespace SampleDB.LockSafety

open Blocks Locking

section Counter

variable {M : Type} [Fintype M]

def sharers (held : M → Option LockType) : ℕ :=
  (Finset.univ.filter (fun m => held m = some .S)).card

/-- The value of a block, and the locks that the managers hold on it. -/
structure BlockSafe (value : ℤ) (held : M → Option LockType) : Prop where
  exclusive : ∀ m m', held m = some .X → m' ≠ m → held m' = none
  value_exclusive : ∀ m, held m = some .X → value = -1
  value_shared : (∀ m, held m ≠ some .X) → value = sharers held

variable {value : ℤ} {held : M → Option LockType}

theorem BlockSafe.not_exclusive (h : BlockSafe value held) (hvalue : value ≠ -1) (m : M) :
    held m ≠ some .X :=
  fun hm => hvalue (h.value_exclusive m hm)

variable [DecidableEq M]

theorem sharers_update (held : M → Option LockType) (m : M) (t : Option LockType) :
    sharers (Function.update held m t) + (if held m = some .S then 1 else 0) =
      sharers held + (if t = some .S then 1 else 0) := by
  unfold sharers
  rw [Finset.card_filter, Finset.card_filter,
    ← Finset.add_sum_erase Finset.univ _ (Finset.mem_univ m),
    ← Finset.add_sum_erase Finset.univ (fun m => if held m = some .S then 1 else 0)
      (Finset.mem_univ m), Function.update_self]
  have hrest : ∑ x ∈ Finset.univ.erase m,
      (if Function.update held m t x = some .S then 1 else 0) =
      ∑ x ∈ Finset.univ.erase m, (if held x = some .S then 1 else 0) := by
    apply Finset.sum_congr rfl
    intro x hx
    rw [Function.update_of_ne (Finset.ne_of_mem_erase hx)]
  rw [hrest]
  omega

theorem BlockSafe.grantS (h : BlockSafe value held) (hvalue : ¬ value < 0) (m : M)
    (hm : held m = none) : BlockSafe (value + 1) (Function.update held m (some .S)) := by
  have hnone : ∀ m', Function.update held m (some .S) m' ≠ some .X := by
    intro m'
    by_cases heq : m' = m
    · rw [heq, Function.update_self]
      decide
    · rw [Function.update_of_ne heq]
      exact h.not_exclusive (by omega) m'
  constructor
  · intro m' m'' hx
    exact absurd hx (hnone m')
  · intro m' hx
    exact absurd hx (hnone m')
  · intro _
    have hcount := sharers_update held m (some .S)
    rw [if_neg (by rw [hm]; decide), if_pos rfl] at hcount
    have hshared := h.value_shared (h.not_exclusive (by omega))
    omega

/-- Only the upgrading manager holds the block. -/
theorem BlockSafe.grantX (h : BlockSafe value held) (hvalue : ¬ value > 1) (m : M)
    (hm : held m = some .S) : BlockSafe (-1) (Function.update held m (some .X)) := by
  have hnone : ∀ m', held m' ≠ some .X := by
    intro m' hx
    by_cases heq : m = m'
    · rw [heq, hx] at hm
      cases hm
    · rw [h.exclusive m' m hx heq] at hm
      cases hm
  have hshared := h.value_shared hnone
  have hothers : ∀ m', m' ≠ m → held m' = none := by
    intro m' hne
    cases hheld : held m' with
    | none => rfl
    | some t =>
      cases t with
      | X => exact absurd hheld (hnone m')
      | S =>
        have hsub : ({m, m'} : Finset M) ⊆ Finset.univ.filter (fun m => held m = some .S) := by
          intro x hx
          rcases Finset.mem_insert.mp hx with rfl | hx
          · exact Finset.mem_filter.mpr ⟨Finset.mem_univ _, hm⟩
          · rw [Finset.mem_singleton] at hx
            rw [hx]
            exact Finset.mem_filter.mpr ⟨Finset.mem_univ _, hheld⟩
        have hcard := Finset.card_le_card hsub
        rw [Finset.card_pair (Ne.symm hne)] at hcard
        unfold sharers at hshared
        omega
  constructor
  · intro m' m'' hx hne
    by_cases heq : m' = m
    · rw [heq] at hne
      rw [Function.update_of_ne hne]
      exact hothers m'' hne
    · rw [Function.update_of_ne heq] at hx
      exact absurd hx (hnone m')
  · exact fun _ _ => rfl
  · intro hall
    exact absurd (Function.update_self m _ held) (hall m)

theorem BlockSafe.unlock (h : BlockSafe value held) (m : M) (hm : held m ≠ none) :
    BlockSafe (if value > 1 then value - 1 else 0) (Function.update held m none) := by
  have hnone : ∀ m', Function.update held m none m' ≠ some .X := by
    intro m' hx
    by_cases heq : m' = m
    · rw [heq, Function.update_self] at hx
      cases hx
    · rw [Function.update_of_ne heq] at hx
      exact hm (h.exclusive m' m hx (Ne.symm heq))
  constructor
  · intro m' m'' hx
    exact absurd hx (hnone m')
  · intro m' hx
    exact absurd hx (hnone m')
  · intro _
    have hcount := sharers_update held m none
    rw [if_neg (by decide : (none : Option LockType) ≠ some .S)] at hcount
    cases hheld : held m with
    | none => exact absurd hheld hm
    | some t =>
      cases t with
      | S =>
        rw [if_pos hheld] at hcount
        have hshared := h.value_shared (by
          intro m' hx
          by_cases heq : m = m'
          · rw [heq, hx] at hheld
            cases hheld
          · rw [h.exclusive m' m hx heq] at hheld
            cases hheld)
        split <;> omega
      | X =>
        have hvalue := h.value_exclusive m hheld
        have hzero : sharers held = 0 := by
          unfold sharers
          rw [Finset.card_eq_zero, Finset.filter_eq_empty_iff]
          intro m' _ hs
          by_cases heq : m' = m
          · rw [heq, hheld] at hs
            cases hs
          · rw [h.exclusive m m' hheld heq] at hs
            cases hs
        rw [if_neg (by rw [hheld]; decide)] at hcount
        rw [if_neg (by omega)]
        omega

end Counter

/-- What holds of a manager by itself, however its requests end. -/
structure MgrInv (mgr : ConcurrencyMgr) : Prop where
  entries : (mgr.locks.map Prod.fst).Nodup
  entered : ∀ blk, mgr.held blk ≠ none → blk ∈ mgr.locks.map Prod.fst
  sWaiting : ∀ blk inXLock, mgr.pc = .sWait blk inXLock →
    mgr.held blk = none ∧ blk ∈ mgr.locks.map Prod.fst
  xWaiting : ∀ blk, mgr.pc = .xWait blk → mgr.held blk = some .S
  releasing : ∀ rest, mgr.pc = .releasing rest → rest.Nodup ∧
    ∀ blk, blk ∈ rest ↔ mgr.held blk ≠ none

section Manager

variable {mgr : ConcurrencyMgr}

theorem mem_setLock (mgr : ConcurrencyMgr) (blk blk' : BlockId) (t : LockType) :
    blk' ∈ (mgr.setLock blk t).locks.map Prod.fst ↔
      blk' = blk ∨ blk' ∈ mgr.locks.map Prod.fst := by
  unfold ConcurrencyMgr.setLock
  simp only [List.map_cons, List.mem_cons, List.mem_map, List.mem_filter]
  constructor
  · rintro (rfl | ⟨e, ⟨he, -⟩, rfl⟩)
    · exact Or.inl rfl
    · exact Or.inr ⟨e, he, rfl⟩
  · rintro (rfl | ⟨e, he, rfl⟩)
    · exact Or.inl rfl
    · by_cases heq : e.1 = blk
      · exact Or.inl heq
      · exact Or.inr ⟨e, ⟨he, by simpa using heq⟩, rfl⟩

theorem nodup_setLock (mgr : ConcurrencyMgr) (blk : BlockId) (t : LockType)
    (h : (mgr.locks.map Prod.fst).Nodup) :
    ((mgr.setLock blk t).locks.map Prod.fst).Nodup := by
  unfold ConcurrencyMgr.setLock
  rw [List.map_cons, List.nodup_cons]
  constructor
  · intro hmem
    obtain ⟨e, he, heq⟩ := List.mem_map.mp hmem
    have hne := (List.mem_filter.mp he).2
    simp only [heq, ne_eq, not_true_eq_false, decide_false] at hne
    cases hne
  · exact h.sublist (List.filter_sublist.map Prod.fst)

theorem not_mem_locks_of_find {blk : BlockId} (h : mgr.find blk = none) :
    blk ∉ mgr.locks.map Prod.fst := by
  intro hmem
  obtain ⟨e, he, rfl⟩ := List.mem_map.mp hmem
  have hne := List.lookup_eq_none_iff.mp h e he
  simp at hne

theorem returned_eq_self {blk : BlockId} {t : LockType} (h : mgr.held blk ≠ none)
    (ht : t = .X → mgr.held blk = some .X) : mgr.returned blk t = mgr := by
  have hheld : Function.update mgr.held blk
      (some (if t = .S ∧ mgr.held blk = some .X then .X else t)) = mgr.held := by
    apply Function.update_eq_self_iff.mpr
    cases hcur : mgr.held blk with
    | none => exact absurd hcur h
    | some cur => cases cur <;> cases t <;> simp_all
  unfold ConcurrencyMgr.returned
  dsimp only
  rw [hheld]

theorem MgrInv.setPc_idle (h : MgrInv mgr) : MgrInv (mgr.setPc .idle) where
  entries := h.entries
  entered := h.entered
  sWaiting := by
    intro blk inXLock hpc
    cases hpc
  xWaiting := by
    intro blk hpc
    cases hpc
  releasing := by
    intro rest hpc
    cases hpc

theorem MgrInv.sLock (h : MgrInv mgr) (blk : BlockId) (inXLock : Bool)
    (hfind : mgr.find blk = none) :
    MgrInv ((mgr.setLock blk .S).setPc (.sWait blk inXLock)) where
  entries := nodup_setLock mgr blk .S h.entries
  entered := fun blk' hheld => (mem_setLock mgr blk blk' .S).mpr (Or.inr (h.entered blk' hheld))
  sWaiting := by
    intro blk' inXLock' hpc
    cases hpc
    refine ⟨?_, (mem_setLock mgr blk blk .S).mpr (Or.inl rfl)⟩
    by_contra hheld
    exact not_mem_locks_of_find hfind (h.entered blk hheld)
  xWaiting := by
    intro blk' hpc
    cases hpc
  releasing := by
    intro rest hpc
    cases hpc

theorem MgrInv.xWait (h : MgrInv mgr) (blk : BlockId) (hheld : mgr.held blk = some .S) :
    MgrInv ((mgr.setLock blk .X).setPc (.xWait blk)) where
  entries := nodup_setLock mgr blk .X h.entries
  entered := fun blk' hheld => (mem_setLock mgr blk blk' .X).mpr (Or.inr (h.entered blk' hheld))
  sWaiting := by
    intro blk' inXLock' hpc
    cases hpc
  xWaiting := by
    intro blk' hpc
    cases hpc
    exact hheld
  releasing := by
    intro rest hpc
    cases hpc

theorem MgrInv.granted (h : MgrInv mgr) (blk : BlockId) (t : LockType)
    (hmem : blk ∈ mgr.locks.map Prod.fst) : MgrInv ((mgr.returned blk t).setPc .idle) where
  entries := h.entries
  entered := by
    intro blk' hheld
    by_cases heq : blk' = blk
    · rw [heq]
      exact hmem
    · apply h.entered blk'
      unfold ConcurrencyMgr.returned ConcurrencyMgr.setPc at hheld
      dsimp only at hheld
      rwa [Function.update_of_ne heq] at hheld
  sWaiting := by
    intro blk inXLock hpc
    cases hpc
  xWaiting := by
    intro blk hpc
    cases hpc
  releasing := by
    intro rest hpc
    cases hpc

theorem MgrInv.release (h : MgrInv mgr) (hheld : ∀ e ∈ mgr.locks, mgr.held e.1 ≠ none) :
    MgrInv (mgr.setPc (.releasing (mgr.locks.map Prod.fst))) where
  entries := h.entries
  entered := h.entered
  sWaiting := by
    intro blk inXLock hpc
    cases hpc
  xWaiting := by
    intro blk hpc
    cases hpc
  releasing := by
    intro rest hpc
    cases hpc
    refine ⟨h.entries, fun blk => ⟨?_, h.entered blk⟩⟩
    intro hmem
    obtain ⟨e, he, rfl⟩ := List.mem_map.mp hmem
    exact hheld e he

theorem MgrInv.unlock (h : MgrInv mgr) (blk : BlockId) (rest : List BlockId)
    (hpc : mgr.pc = .releasing rest) :
    MgrInv ((mgr.unlocked blk).setPc (.releasing (rest.erase blk))) where
  entries := h.entries
  entered := by
    intro blk' hheld
    apply h.entered blk'
    intro hnone
    apply hheld
    unfold ConcurrencyMgr.unlocked ConcurrencyMgr.setPc
    dsimp only
    by_cases heq : blk' = blk
    · rw [heq, Function.update_self]
    · rw [Function.update_of_ne heq]
      exact hnone
  sWaiting := by
    intro blk inXLock hpc'
    cases hpc'
  xWaiting := by
    intro blk hpc'
    cases hpc'
  releasing := by
    intro rest' hpc'
    cases hpc'
    obtain ⟨hnodup, hmem⟩ := h.releasing rest hpc
    refine ⟨hnodup.erase blk, fun blk' => ?_⟩
    rw [hnodup.mem_erase_iff, hmem blk']
    unfold ConcurrencyMgr.unlocked ConcurrencyMgr.setPc
    dsimp only
    by_cases heq : blk' = blk
    · rw [heq, Function.update_self]
      simp
    · rw [Function.update_of_ne heq]
      simp [heq]

theorem MgrInv.clear (h : MgrInv mgr) (hpc : mgr.pc = .releasing []) :
    MgrInv { mgr with pc := .idle, locks := [] } where
  entries := List.nodup_nil
  entered := by
    intro blk hheld
    obtain ⟨-, hmem⟩ := h.releasing [] hpc
    exact absurd ((hmem blk).mpr hheld) List.not_mem_nil
  sWaiting := by
    intro blk inXLock hpc'
    cases hpc'
  xWaiting := by
    intro blk hpc'
    cases hpc'
  releasing := by
    intro rest hpc'
    cases hpc'

end Manager

section System

variable {M : Type}

/-- The manager that acts was granted the locks that its map has for the blocks concerned. -/
def Matched (s : LockState M) : LockLabel M → Prop
  | .sLock m blk => (s.mgrs m).find blk ≠ none → (s.mgrs m).held blk ≠ none
  | .xLock m blk => ∀ t, (s.mgrs m).find blk = some t → (s.mgrs m).held blk = some t
  | .release m => ∀ e ∈ (s.mgrs m).locks, (s.mgrs m).held e.1 ≠ none
  | _ => True

variable [Fintype M]

/-- A lock that is held exclusively is held by nobody else, and each value of the table
agrees with the locks that are held. -/
def LockSafe (s : LockState M) : Prop :=
  ∀ blk, BlockSafe (s.table blk) (fun m => (s.mgrs m).held blk)

structure Inv (s : LockState M) : Prop where
  safe : LockSafe s
  mgrs : ∀ m, MgrInv (s.mgrs m)

theorem inv_new : Inv (LockState.new (M := M)) where
  safe := by
    intro blk
    constructor
    · intro m m' hx
      cases hx
    · intro m hx
      cases hx
    · intro _
      show (0 : ℤ) = sharers (fun _ : M => (none : Option LockType))
      simp [sharers]
  mgrs := by
    intro m
    constructor
    · exact List.nodup_nil
    · intro blk hheld
      exact absurd rfl hheld
    · intro blk inXLock hpc
      cases hpc
    · intro blk hpc
      cases hpc
    · intro rest hpc
      cases hpc

variable [DecidableEq M] {s : LockState M}

theorem Inv.setMgr (h : Inv s) (m : M) (mgr : ConcurrencyMgr) (hmgr : MgrInv mgr)
    (hheld : mgr.held = (s.mgrs m).held) : Inv (s.setMgr m mgr) where
  safe := by
    intro blk
    have heq : (fun m' => ((s.setMgr m mgr).mgrs m').held blk) =
        fun m' => (s.mgrs m').held blk := by
      funext m'
      unfold LockState.setMgr
      dsimp only
      by_cases hm : m' = m
      · rw [hm, Function.update_self, hheld]
      · rw [Function.update_of_ne hm]
    rw [heq]
    exact h.safe blk
  mgrs := by
    intro m'
    unfold LockState.setMgr
    dsimp only
    by_cases hm : m' = m
    · rw [hm, Function.update_self]
      exact hmgr
    · rw [Function.update_of_ne hm]
      exact h.mgrs m'

/-- One manager and the value of one block change together. -/
theorem Inv.setLock (h : Inv s) (m : M) (mgr : ConcurrencyMgr) (hmgr : MgrInv mgr)
    (blk : BlockId) (t : Option LockType) (value : ℤ)
    (hheld : mgr.held = Function.update (s.mgrs m).held blk t)
    (hsafe : BlockSafe value (Function.update (fun m' => (s.mgrs m').held blk) m t)) :
    Inv ({ s with table := Function.update s.table blk value }.setMgr m mgr) where
  safe := by
    intro blk'
    unfold LockState.setMgr
    dsimp only
    by_cases hblk : blk' = blk
    · have heq : (fun m' => (Function.update s.mgrs m mgr m').held blk') =
          Function.update (fun m' => (s.mgrs m').held blk) m t := by
        funext m'
        by_cases hm : m' = m
        · rw [hm, Function.update_self, Function.update_self, hheld, hblk, Function.update_self]
        · rw [Function.update_of_ne hm, Function.update_of_ne hm, hblk]
      rw [heq, hblk, Function.update_self]
      exact hsafe
    · have heq : (fun m' => (Function.update s.mgrs m mgr m').held blk') =
          fun m' => (s.mgrs m').held blk' := by
        funext m'
        by_cases hm : m' = m
        · rw [hm, Function.update_self, hheld, Function.update_of_ne hblk]
        · rw [Function.update_of_ne hm]
      rw [heq, Function.update_of_ne hblk]
      exact h.safe blk'
  mgrs := by
    intro m'
    unfold LockState.setMgr
    dsimp only
    by_cases hm : m' = m
    · rw [hm, Function.update_self]
      exact hmgr
    · rw [Function.update_of_ne hm]
      exact h.mgrs m'

theorem Inv.grantedS (h : Inv s) (m : M) (blk : BlockId) (inXLock : Bool)
    (hpc : (s.mgrs m).pc = .sWait blk inXLock)
    (hfree : s.table.hasXLock blk = false) :
    Inv ({ s with table := s.table.sLock blk }.setMgr m
      (((s.mgrs m).returned blk .S).setPc .idle)) := by
  obtain ⟨hnone, hmem⟩ := (h.mgrs m).sWaiting blk inXLock hpc
  have hvalue : ¬ s.table blk < 0 := of_decide_eq_false hfree
  refine h.setLock m _ ((h.mgrs m).granted blk .S hmem) blk (some .S) _ ?_
    ((h.safe blk).grantS hvalue m hnone)
  unfold ConcurrencyMgr.returned ConcurrencyMgr.setPc
  simp [hnone]

theorem Inv.grantedX (h : Inv s) (m : M) (blk : BlockId) (hpc : (s.mgrs m).pc = .xWait blk)
    (hfree : s.table.hasOtherSLocks blk = false) :
    Inv ({ s with table := s.table.xLock blk }.setMgr m
      (((s.mgrs m).returned blk .X).setPc .idle)) := by
  have hshared := (h.mgrs m).xWaiting blk hpc
  have hmem := (h.mgrs m).entered blk (by rw [hshared]; decide)
  have hvalue : ¬ s.table blk > 1 := of_decide_eq_false hfree
  refine h.setLock m _ ((h.mgrs m).granted blk .X hmem) blk (some .X) _ ?_
    ((h.safe blk).grantX hvalue m hshared)
  unfold ConcurrencyMgr.returned ConcurrencyMgr.setPc
  simp

theorem Inv.unlock (h : Inv s) (m : M) (blk : BlockId) (rest : List BlockId)
    (hpc : (s.mgrs m).pc = .releasing rest) (hmem : blk ∈ rest) :
    Inv ({ s with table := s.table.unlock blk }.setMgr m
      (((s.mgrs m).unlocked blk).setPc (.releasing (rest.erase blk)))) := by
  obtain ⟨-, hrest⟩ := (h.mgrs m).releasing rest hpc
  have htable : s.table.unlock blk = Function.update s.table blk
      (if s.table blk > 1 then s.table blk - 1 else 0) := by
    unfold LockTable.unlock
    split <;> rfl
  rw [htable]
  exact h.setLock m _ ((h.mgrs m).unlock blk rest hpc) blk none _ rfl
    ((h.safe blk).unlock m ((hrest blk).mp hmem))

theorem xLock_inv {m : M} {blk : BlockId} {s' : LockState M} (h : Inv s)
    (hmatched : Matched s (.xLock m blk)) (hstep : s.step (.xLock m blk) = some s') : Inv s' := by
  unfold LockState.step at hstep
  cases hpc : (s.mgrs m).pc with
  | idle =>
    cases hfind : (s.mgrs m).find blk with
    | none =>
      simp only [hpc, hfind, Option.some.injEq] at hstep
      rw [← hstep]
      exact h.setMgr m _ ((h.mgrs m).sLock blk true hfind) rfl
    | some t =>
      have hheld : (s.mgrs m).held blk = some t := hmatched t hfind
      cases t with
      | S =>
        simp only [hpc, hfind, Option.some.injEq] at hstep
        rw [← hstep]
        exact h.setMgr m _ ((h.mgrs m).xWait blk hheld) rfl
      | X =>
        simp only [hpc, hfind, Option.some.injEq] at hstep
        rw [← hstep, returned_eq_self (by rw [hheld]; decide) (fun _ => hheld)]
        exact h.setMgr m _ (h.mgrs m) rfl
  | sWait blk' inXLock => simp [hpc] at hstep
  | xWait blk' => simp [hpc] at hstep
  | releasing rest => simp [hpc] at hstep

/-- A manager that was waiting goes on. One that asked for an exclusive lock has its shared lock
now, and waits for the other shared locks. -/
theorem granted_inv {m : M} {s' : LockState M} (h : Inv s)
    (hstep : s.step (.granted m) = some s') : Inv s' := by
  unfold LockState.step at hstep
  cases hpc : (s.mgrs m).pc with
  | idle => simp [hpc] at hstep
  | releasing rest => simp [hpc] at hstep
  | sWait blk inXLock =>
    simp only [hpc] at hstep
    cases hfree : s.table.hasXLock blk with
    | true => simp [hfree] at hstep
    | false =>
      simp only [hfree, Bool.false_eq_true, if_false, Option.some.injEq] at hstep
      have hgranted := h.grantedS m blk inXLock hpc hfree
      rw [← hstep]
      cases inXLock with
      | false => exact hgranted
      | true =>
        have hheld : (((s.mgrs m).returned blk .S).setPc .idle).held blk = some .S := by
          obtain ⟨hnone, -⟩ := (h.mgrs m).sWaiting blk true hpc
          unfold ConcurrencyMgr.returned ConcurrencyMgr.setPc
          simp [hnone]
        have hmgr := hgranted.mgrs m
        unfold LockState.setMgr at hmgr
        dsimp only at hmgr
        rw [Function.update_self] at hmgr
        rw [if_pos rfl]
        unfold LockState.xWait
        refine hgranted.setMgr m _ ?_ rfl
        unfold LockState.setMgr
        dsimp only
        rw [Function.update_self]
        exact hmgr.xWait blk hheld
  | xWait blk =>
    simp only [hpc] at hstep
    cases hfree : s.table.hasOtherSLocks blk with
    | true => simp [hfree] at hstep
    | false =>
      simp only [hfree, Bool.false_eq_true, if_false, Option.some.injEq] at hstep
      rw [← hstep]
      exact h.grantedX m blk hpc hfree

theorem timeout_inv {m : M} {s' : LockState M} (h : Inv s)
    (hstep : s.step (.timeout m) = some s') : Inv s' := by
  have hidle : Inv (s.setMgr m ((s.mgrs m).setPc .idle)) :=
    h.setMgr m _ (h.mgrs m).setPc_idle rfl
  unfold LockState.step at hstep
  cases hpc : (s.mgrs m).pc with
  | idle => simp [hpc] at hstep
  | releasing rest => simp [hpc] at hstep
  | sWait blk inXLock =>
    simp only [hpc, Option.ite_none_right_eq_some, Option.some.injEq] at hstep
    rw [← hstep.2]
    exact hidle
  | xWait blk =>
    simp only [hpc, Option.ite_none_right_eq_some, Option.some.injEq] at hstep
    rw [← hstep.2]
    exact hidle

theorem step_inv {l : LockLabel M} {s' : LockState M} (h : Inv s) (hmatched : Matched s l)
    (hstep : s.step l = some s') : Inv s' := by
  cases l with
  | sLock m blk =>
    unfold LockState.step at hstep
    cases hpc : (s.mgrs m).pc <;> cases hfind : (s.mgrs m).find blk <;>
      simp only [hpc, hfind, reduceCtorEq, Option.some.injEq] at hstep
    · rw [← hstep]
      exact h.setMgr m _ ((h.mgrs m).sLock blk false hfind) rfl
    · have hheld : (s.mgrs m).held blk ≠ none :=
        hmatched (by rw [hfind]; exact Option.some_ne_none _)
      rw [← hstep, returned_eq_self hheld (fun ht => by cases ht)]
      exact h.setMgr m _ (h.mgrs m) rfl
  | xLock m blk => exact xLock_inv h hmatched hstep
  | granted m => exact granted_inv h hstep
  | timeout m => exact timeout_inv h hstep
  | release m =>
    unfold LockState.step at hstep
    cases hpc : (s.mgrs m).pc <;> simp only [hpc, reduceCtorEq, Option.some.injEq] at hstep
    rw [← hstep]
    exact h.setMgr m _ ((h.mgrs m).release hmatched) rfl
  | unlock m blk =>
    unfold LockState.step at hstep
    cases hpc : (s.mgrs m).pc <;> simp only [hpc, reduceCtorEq, Option.ite_none_right_eq_some,
      Option.some.injEq] at hstep
    rw [← hstep.2]
    exact h.unlock m blk _ hpc hstep.1
  | clear m =>
    unfold LockState.step at hstep
    cases hpc : (s.mgrs m).pc with
    | idle => simp [hpc] at hstep
    | sWait blk inXLock => simp [hpc] at hstep
    | xWait blk => simp [hpc] at hstep
    | releasing rest =>
      cases rest with
      | nil =>
        simp only [hpc, Option.some.injEq] at hstep
        rw [← hstep]
        exact h.setMgr m _ ((h.mgrs m).clear hpc) rfl
      | cons blk rest => simp [hpc] at hstep

/-- Lock safety in every run in which a manager goes on only with blocks it was granted. -/
theorem lockSafe_of_matched (ls : List (LockLabel M)) (s : LockState M)
    (hrun : Runs.Run (fun s l s' => LockState.step s l = some s' ∧ Matched s l) .new ls s) :
    LockSafe s := by
  have hinv : Inv s := hrun.invariant Inv
    (fun s l s' h hstep => step_inv h hstep.2 hstep.1) inv_new
  exact hinv.safe

/-- A block is locked exclusively and released, and then shared by the other manager. -/
theorem lockSafe_of_matched_two : ∃ s : LockState Bool,
    Runs.Run (fun s l s' => LockState.step s l = some s' ∧ Matched s l) .new
      [.xLock false ⟨[116], 0⟩, .granted false, .granted false, .release false,
        .unlock false ⟨[116], 0⟩, .clear false, .sLock true ⟨[116], 0⟩, .granted true] s ∧
      LockSafe s := by
  have hrun : ∃ s : LockState Bool,
      Runs.Run (fun s l s' => LockState.step s l = some s' ∧ Matched s l) .new
        [.xLock false ⟨[116], 0⟩, .granted false, .granted false, .release false,
          .unlock false ⟨[116], 0⟩, .clear false, .sLock true ⟨[116], 0⟩, .granted true] s :=
    ⟨_, .cons ⟨rfl, fun t ht => by cases ht⟩ (.cons ⟨rfl, trivial⟩ (.cons ⟨rfl, trivial⟩
      (.cons ⟨rfl, by unfold Matched; decide⟩ (.cons ⟨rfl, trivial⟩ (.cons ⟨rfl, trivial⟩
      (.cons ⟨rfl, fun ht => absurd rfl ht⟩ (.cons ⟨rfl, trivial⟩ (.nil _))))))))⟩
  obtain ⟨s, hs⟩ := hrun
  exact ⟨s, hs, lockSafe_of_matched _ s hs⟩

/-- The shared request of manager 1 times out, its release takes the exclusive lock from
manager 0, and manager 2 is granted a shared lock next to it. -/
theorem not_lockSafe_timeout : ∃ s : LockState (Fin 3),
    Runs.Run (fun s l s' => LockState.step s l = some s') .new
      [.xLock 0 ⟨[116], 0⟩, .granted 0, .granted 0, .sLock 1 ⟨[116], 0⟩, .timeout 1,
        .release 1, .unlock 1 ⟨[116], 0⟩, .clear 1, .sLock 2 ⟨[116], 0⟩, .granted 2] s ∧
      (s.mgrs 0).held ⟨[116], 0⟩ = some .X ∧ (s.mgrs 2).held ⟨[116], 0⟩ = some .S ∧
      ¬ LockSafe s := by
  refine ⟨_, .cons rfl (.cons rfl (.cons rfl (.cons rfl (.cons rfl (.cons rfl (.cons rfl
    (.cons rfl (.cons rfl (.cons rfl (.nil _)))))))))), by decide, by decide, ?_⟩
  intro hsafe
  have hnone := (hsafe ⟨[116], 0⟩).exclusive 0 2 (by decide) (by decide)
  revert hnone
  decide

end System

end SampleDB.LockSafety
