import SampleDB.LockSafety

/-!
The steps of the lock managers, described by what they do to the locks that are held,
for managers that go on only with blocks they were granted. Without timeouts every
manager is one of these.
-/
namespace SampleDB.LockSteps

open Blocks Locking LockSafety

variable {M : Type} [DecidableEq M]

theorem setMgr_other (s : LockState M) (table : LockTable) {m m' : M} (mgr : ConcurrencyMgr)
    (hne : m' ≠ m) : ({ s with table := table }.setMgr m mgr).mgrs m' = s.mgrs m' :=
  Function.update_of_ne hne _ _

theorem setMgr_self (s : LockState M) (table : LockTable) (m : M) (mgr : ConcurrencyMgr) :
    ({ s with table := table }.setMgr m mgr).mgrs m = mgr :=
  Function.update_self m _ _

theorem setMgr_eq_self (s : LockState M) (m : M) : s.setMgr m (s.mgrs m) = s := by
  unfold LockState.setMgr
  rw [Function.update_eq_self]

theorem sLock_mgrs (s : LockState M) (m : M) (blk : BlockId) (inXLock : Bool) :
    (s.sLock m blk inXLock).mgrs m = ((s.mgrs m).setLock blk .S).setPc (.sWait blk inXLock) :=
  Function.update_self m _ _

theorem xWait_mgrs (s : LockState M) (m : M) (blk : BlockId) :
    (s.xWait m blk).mgrs m = ((s.mgrs m).setLock blk .X).setPc (.xWait blk) :=
  Function.update_self m _ _

section Steps

variable [Fintype M] {s s' : LockState M} {m : M} {blk : BlockId}

/-- A shared request waits, or it returns because the block is locked already. -/
theorem sLock_cases (h : LockSafety.Inv s) (hmatched : Matched s (.sLock m blk))
    (hstep : s.step (.sLock m blk) = some s') :
    LockSafety.Inv s' ∧ (∀ m' ≠ m, s'.mgrs m' = s.mgrs m') ∧
      (s'.mgrs m).held = (s.mgrs m).held ∧
      ((s'.mgrs m).pc = .sWait blk false ∨
        ((s'.mgrs m).pc = .idle ∧ (s'.mgrs m).held blk ≠ none)) := by
  refine ⟨step_inv h hmatched hstep, ?_⟩
  unfold LockState.step at hstep
  cases hpc : (s.mgrs m).pc <;> cases hfind : (s.mgrs m).find blk <;>
    simp only [hpc, hfind, reduceCtorEq, Option.some.injEq] at hstep
  · subst hstep
    refine ⟨fun m' hne => setMgr_other s s.table _ hne, ?_, Or.inl ?_⟩
    · rw [sLock_mgrs]
      rfl
    · rw [sLock_mgrs]
      rfl
  · have hheld := hmatched (by rw [hfind]; exact Option.some_ne_none _)
    rw [returned_eq_self hheld (fun ht => by cases ht), setMgr_eq_self] at hstep
    subst hstep
    exact ⟨fun _ _ => rfl, rfl, Or.inr ⟨hpc, hheld⟩⟩

/-- An exclusive request waits, or it returns because the block is locked exclusively. -/
theorem xLock_cases (h : LockSafety.Inv s) (hmatched : Matched s (.xLock m blk))
    (hstep : s.step (.xLock m blk) = some s') :
    LockSafety.Inv s' ∧ (∀ m' ≠ m, s'.mgrs m' = s.mgrs m') ∧
      (s'.mgrs m).held = (s.mgrs m).held ∧
      ((s'.mgrs m).pc = .sWait blk true ∨ (s'.mgrs m).pc = .xWait blk ∨
        ((s'.mgrs m).pc = .idle ∧ (s'.mgrs m).held blk = some .X)) ∧
      ((s.mgrs m).held blk = some .X → (s'.mgrs m).pc = .idle) := by
  refine ⟨step_inv h hmatched hstep, ?_⟩
  unfold LockState.step at hstep
  cases hpc : (s.mgrs m).pc with
  | sWait blk' inXLock => simp [hpc] at hstep
  | xWait blk' => simp [hpc] at hstep
  | releasing rest => simp [hpc] at hstep
  | idle =>
    cases hfind : (s.mgrs m).find blk with
    | none =>
      have hnone : (s.mgrs m).held blk = none := by
        by_contra hheld
        exact not_mem_locks_of_find hfind ((h.mgrs m).entered blk hheld)
      simp only [hpc, hfind, Option.some.injEq] at hstep
      subst hstep
      refine ⟨fun m' hne => setMgr_other s s.table _ hne, ?_, Or.inl ?_, ?_⟩
      · rw [sLock_mgrs]
        rfl
      · rw [sLock_mgrs]
        rfl
      · intro hx
        rw [hnone] at hx
        cases hx
    | some t =>
      have hheld := hmatched t hfind
      cases t with
      | S =>
        simp only [hpc, hfind, Option.some.injEq] at hstep
        subst hstep
        refine ⟨fun m' hne => setMgr_other s s.table _ hne, ?_, Or.inr (Or.inl ?_), ?_⟩
        · rw [xWait_mgrs]
          rfl
        · rw [xWait_mgrs]
          rfl
        · intro hx
          rw [hheld] at hx
          cases hx
      | X =>
        simp only [hpc, hfind, Option.some.injEq] at hstep
        rw [returned_eq_self (by rw [hheld]; decide) (fun _ => hheld), setMgr_eq_self] at hstep
        subst hstep
        exact ⟨fun _ _ => rfl, rfl, Or.inr (Or.inr ⟨hpc, hheld⟩), fun _ => hpc⟩

omit [DecidableEq M] in
theorem held_exclusive (h : LockSafety.Inv s) {m m' : M} {blk : BlockId}
    (hx : (s.mgrs m).held blk = some .X) (hne : m' ≠ m) : (s.mgrs m').held blk = none :=
  (h.safe blk).exclusive m m' hx hne

theorem returned_held {mgr : ConcurrencyMgr} {blk : BlockId} {t : LockType}
    (h : mgr.held blk ≠ some .X) :
    (mgr.returned blk t).held = Function.update mgr.held blk (some t) := by
  unfold ConcurrencyMgr.returned
  dsimp only
  rw [if_neg (fun hx => h hx.2)]

/-- What a granted lock changes, and that nobody had the block exclusively. -/
theorem granted_cases (h : LockSafety.Inv s) (hstep : s.step (.granted m) = some s') :
    LockSafety.Inv s' ∧ (∀ m' ≠ m, s'.mgrs m' = s.mgrs m') ∧
      ∃ blk t, (s'.mgrs m).held = Function.update (s.mgrs m).held blk (some t) ∧
        (∀ m', (s.mgrs m').held blk ≠ some .X) ∧
        (((s.mgrs m).pc = .sWait blk false ∧ t = .S ∧ (s.mgrs m).held blk = none ∧
            (s'.mgrs m).pc = .idle) ∨
          ((s.mgrs m).pc = .sWait blk true ∧ t = .S ∧ (s.mgrs m).held blk = none ∧
            (s'.mgrs m).pc = .xWait blk) ∨
          ((s.mgrs m).pc = .xWait blk ∧ t = .X ∧ (s.mgrs m).held blk = some .S ∧
            (s'.mgrs m).pc = .idle)) := by
  refine ⟨step_inv (l := .granted m) h trivial hstep, ?_⟩
  unfold LockState.step at hstep
  cases hpc : (s.mgrs m).pc with
  | idle => simp [hpc] at hstep
  | releasing rest => simp [hpc] at hstep
  | sWait blk inXLock =>
    simp only [hpc, Option.ite_none_left_eq_some, Option.some.injEq, Bool.not_eq_true] at hstep
    obtain ⟨hfree, rfl⟩ := hstep
    obtain ⟨hnone, -⟩ := (h.mgrs m).sWaiting blk inXLock hpc
    have hvalue : ¬ s.table blk < 0 := of_decide_eq_false hfree
    have hothers := fun m' => (h.safe blk).not_exclusive (by omega) m'
    have hmgr := setMgr_self s (s.table.sLock blk) m (((s.mgrs m).returned blk .S).setPc .idle)
    have hheld : ((({ s with table := s.table.sLock blk }.setMgr m
        (((s.mgrs m).returned blk .S).setPc .idle))).mgrs m).held =
        Function.update (s.mgrs m).held blk (some .S) := by
      rw [hmgr]
      exact returned_held (by rw [hnone]; decide)
    cases inXLock with
    | false =>
      refine ⟨fun m' hne => setMgr_other s _ _ hne, blk, .S, hheld, hothers, Or.inl ?_⟩
      exact ⟨rfl, rfl, hnone, congrArg ConcurrencyMgr.pc hmgr⟩
    | true =>
      rw [if_pos rfl]
      refine ⟨?_, blk, .S, ?_, hothers, Or.inr (Or.inl ⟨rfl, rfl, hnone, ?_⟩)⟩
      · intro m' hne
        exact (Function.update_of_ne hne _ _).trans (setMgr_other s _ _ hne)
      · rw [xWait_mgrs]
        exact hheld
      · rw [xWait_mgrs]
        rfl
  | xWait blk =>
    simp only [hpc, Option.ite_none_left_eq_some, Option.some.injEq, Bool.not_eq_true] at hstep
    obtain ⟨hfree, rfl⟩ := hstep
    have hshared := (h.mgrs m).xWaiting blk hpc
    have hmgr := setMgr_self s (s.table.xLock blk) m (((s.mgrs m).returned blk .X).setPc .idle)
    refine ⟨fun m' hne => setMgr_other s _ _ hne, blk, .X, ?_, ?_,
      Or.inr (Or.inr ⟨rfl, rfl, hshared, congrArg ConcurrencyMgr.pc hmgr⟩)⟩
    · rw [hmgr]
      exact returned_held (by rw [hshared]; decide)
    · intro m' hx
      by_cases heq : m = m'
      · rw [heq, hx] at hshared
        cases hshared
      · rw [held_exclusive h hx heq] at hshared
        cases hshared

/-- A request that times out leaves the locks as they are. -/
theorem timeout_cases (h : LockSafety.Inv s) (hstep : s.step (.timeout m) = some s') :
    LockSafety.Inv s' ∧ (∀ m' ≠ m, s'.mgrs m' = s.mgrs m') ∧
      (s'.mgrs m).held = (s.mgrs m).held ∧ (s'.mgrs m).pc = .idle ∧
      (s.mgrs m).pc ≠ .idle ∧ ∀ rest, (s.mgrs m).pc ≠ .releasing rest := by
  refine ⟨step_inv (l := .timeout m) h trivial hstep, ?_⟩
  have hmgr := setMgr_self s s.table m ((s.mgrs m).setPc .idle)
  unfold LockState.step at hstep
  cases hpc : (s.mgrs m).pc <;> simp only [hpc, reduceCtorEq, Option.ite_none_right_eq_some,
    Option.some.injEq] at hstep
  all_goals
    obtain ⟨-, rfl⟩ := hstep
    exact ⟨fun m' hne => setMgr_other s s.table _ hne,
      (congrArg ConcurrencyMgr.held hmgr).trans rfl, congrArg ConcurrencyMgr.pc hmgr,
      (fun hidle => by cases hidle), (fun rest hrest => by cases hrest)⟩

/-- A release begins. -/
theorem release_cases (h : LockSafety.Inv s) (hmatched : Matched s (.release m))
    (hstep : s.step (.release m) = some s') :
    LockSafety.Inv s' ∧ (∀ m' ≠ m, s'.mgrs m' = s.mgrs m') ∧
      (s'.mgrs m).held = (s.mgrs m).held ∧ ∃ rest, (s'.mgrs m).pc = .releasing rest := by
  refine ⟨step_inv h hmatched hstep, ?_⟩
  unfold LockState.step at hstep
  cases hpc : (s.mgrs m).pc <;> simp only [hpc, reduceCtorEq, Option.some.injEq] at hstep
  subst hstep
  have hmgr := setMgr_self s s.table m
    ((s.mgrs m).setPc (.releasing ((s.mgrs m).locks.map Prod.fst)))
  exact ⟨fun m' hne => setMgr_other s s.table _ hne, (congrArg ConcurrencyMgr.held hmgr).trans rfl,
    _, congrArg ConcurrencyMgr.pc hmgr⟩

theorem unlock_cases (h : LockSafety.Inv s) (hstep : s.step (.unlock m blk) = some s') :
    LockSafety.Inv s' ∧ (∀ m' ≠ m, s'.mgrs m' = s.mgrs m') ∧
      (s'.mgrs m).held = Function.update (s.mgrs m).held blk none ∧
      (∃ rest, (s.mgrs m).pc = .releasing rest) ∧ ∃ rest, (s'.mgrs m).pc = .releasing rest := by
  refine ⟨step_inv (l := .unlock m blk) h trivial hstep, ?_⟩
  unfold LockState.step at hstep
  cases hpc : (s.mgrs m).pc <;> simp only [hpc, reduceCtorEq, Option.ite_none_right_eq_some,
    Option.some.injEq] at hstep
  rename_i rest
  obtain ⟨hmem, rfl⟩ := hstep
  have hmgr := setMgr_self s (s.table.unlock blk) m
    (((s.mgrs m).unlocked blk).setPc (.releasing (rest.erase blk)))
  exact ⟨fun m' hne => setMgr_other s _ _ hne, congrArg ConcurrencyMgr.held hmgr, ⟨rest, rfl⟩, _,
    congrArg ConcurrencyMgr.pc hmgr⟩

/-- When a release ends, nothing is held. -/
theorem clear_cases (h : LockSafety.Inv s) (hstep : s.step (.clear m) = some s') :
    LockSafety.Inv s' ∧ (∀ m' ≠ m, s'.mgrs m' = s.mgrs m') ∧
      (s'.mgrs m).held = (s.mgrs m).held ∧ (∀ blk, (s.mgrs m).held blk = none) ∧
      (∃ rest, (s.mgrs m).pc = .releasing rest) ∧ (s'.mgrs m).pc = .idle := by
  refine ⟨step_inv (l := .clear m) h trivial hstep, ?_⟩
  unfold LockState.step at hstep
  cases hpc : (s.mgrs m).pc with
  | idle => simp [hpc] at hstep
  | sWait blk inXLock => simp [hpc] at hstep
  | xWait blk => simp [hpc] at hstep
  | releasing rest =>
    cases rest with
    | cons blk rest => simp [hpc] at hstep
    | nil =>
      simp only [hpc, Option.some.injEq] at hstep
      subst hstep
      have hmgr := setMgr_self s s.table m { (s.mgrs m) with pc := .idle, locks := [] }
      refine ⟨fun m' hne => setMgr_other s s.table _ hne,
        (congrArg ConcurrencyMgr.held hmgr).trans rfl, ?_, ⟨[], rfl⟩,
        congrArg ConcurrencyMgr.pc hmgr⟩
      intro blk
      by_contra hheld
      have hmem := (((h.mgrs m).releasing [] hpc).2 blk).mpr hheld
      cases hmem

end Steps

/-!
Without timeouts every entry of a manager's map was granted, or the manager still waits
for it; so every step is one of a manager that goes on with blocks it was granted.
-/

/-- Outside of a release the map has the locks held and the one that is waited for. -/
def Granted (mgr : ConcurrencyMgr) : Prop :=
  (∀ rest, mgr.pc ≠ .releasing rest) → ∀ blk t, mgr.find blk = some t →
    mgr.held blk = some t ∨ (∃ inXLock, mgr.pc = .sWait blk inXLock) ∨ mgr.pc = .xWait blk

theorem find_setLock (mgr : ConcurrencyMgr) (blk blk' : BlockId) (t : LockType) :
    (mgr.setLock blk t).find blk' = if blk' = blk then some t else mgr.find blk' := by
  unfold ConcurrencyMgr.setLock ConcurrencyMgr.find
  dsimp only
  rw [List.lookup_cons]
  by_cases heq : blk' = blk
  · simp [heq]
  · have hne : (blk' == blk) = false := by simpa using heq
    rw [hne, if_neg heq]
    dsimp only
    induction mgr.locks with
    | nil => rfl
    | cons e locks ih =>
      by_cases he : e.1 = blk
      · have hne' : (blk' == e.1) = false := by rw [he]; exact hne
        rw [List.filter_cons_of_neg (by simpa using he), List.lookup_cons, hne']
        exact ih
      · rw [List.filter_cons_of_pos (by simpa using he), List.lookup_cons, List.lookup_cons, ih]

theorem Granted.find_idle {mgr : ConcurrencyMgr} (h : Granted mgr) (hpc : mgr.pc = .idle)
    {blk : BlockId} {t : LockType} (hfind : mgr.find blk = some t) : mgr.held blk = some t := by
  rcases h (by rw [hpc]; intro rest hrest; cases hrest) blk t hfind with
    hheld | ⟨inXLock, hwait⟩ | hwait
  · exact hheld
  · rw [hpc] at hwait
    cases hwait
  · rw [hpc] at hwait
    cases hwait

/-- Waiting for a lock that is entered now. -/
theorem Granted.wait {mgr : ConcurrencyMgr} (h : Granted mgr) (hpc : mgr.pc = .idle)
    (blk : BlockId) (t : LockType) (pc : Pc)
    (hwait : (∃ inXLock, pc = .sWait blk inXLock) ∨ pc = .xWait blk) :
    Granted ((mgr.setLock blk t).setPc pc) := by
  intro _ blk' t' hfind
  have hfind' : (mgr.setLock blk t).find blk' = some t' := hfind
  rw [find_setLock] at hfind'
  by_cases heq : blk' = blk
  · rw [heq]
    exact Or.inr hwait
  · rw [if_neg heq] at hfind'
    exact Or.inl (h.find_idle hpc hfind')

/-- A lock is granted; it is held in the mode of its entry. -/
theorem Granted.returned {mgr : ConcurrencyMgr} (h : Granted mgr) (blk : BlockId) (t : LockType)
    (hpc : (∃ inXLock, mgr.pc = .sWait blk inXLock) ∨ mgr.pc = .xWait blk)
    (hfind : mgr.find blk = some t) (hheld : mgr.held blk ≠ some .X) :
    Granted ((mgr.returned blk t).setPc .idle) := by
  intro _ blk' t' hfind'
  left
  have hfind'' : mgr.find blk' = some t' := hfind'
  unfold ConcurrencyMgr.returned ConcurrencyMgr.setPc
  dsimp only
  by_cases heq : blk' = blk
  · rw [heq, Function.update_self, if_neg (fun hx => hheld hx.2), ← hfind, ← heq, hfind'']
  · rw [Function.update_of_ne heq]
    have hnot : ∀ rest, mgr.pc ≠ .releasing rest := by
      intro rest hrest
      rcases hpc with ⟨inXLock, hwait⟩ | hwait
      · rw [hwait] at hrest
        cases hrest
      · rw [hwait] at hrest
        cases hrest
    rcases h hnot blk' t' hfind'' with hold | ⟨inXLock, hwait⟩ | hwait
    · exact hold
    · rcases hpc with ⟨inXLock', hwait'⟩ | hwait'
      · rw [hwait'] at hwait
        cases hwait
        exact absurd rfl heq
      · rw [hwait'] at hwait
        cases hwait
    · rcases hpc with ⟨inXLock', hwait'⟩ | hwait'
      · rw [hwait'] at hwait
        cases hwait
      · rw [hwait'] at hwait
        cases hwait
        exact absurd rfl heq

/-- The entry of a lock that is waited for. -/
structure WaitEntry (mgr : ConcurrencyMgr) : Prop where
  sWait : ∀ blk inXLock, mgr.pc = .sWait blk inXLock → mgr.find blk = some .S
  xWait : ∀ blk, mgr.pc = .xWait blk → mgr.find blk = some .X

/-- The managers' locks are safe, and none of their requests has failed. -/
structure LocksOk [Fintype M] (s : LockState M) : Prop where
  inv : LockSafety.Inv s
  granted : ∀ m, Granted (s.mgrs m)
  waiting : ∀ m, WaitEntry (s.mgrs m)

omit [DecidableEq M] in
theorem locksOk_new [Fintype M] : LocksOk (LockState.new (M := M)) where
  inv := inv_new
  granted := by
    intro m _ blk t hfind
    cases hfind
  waiting := by
    intro m
    constructor
    · intro blk inXLock hpc
      cases hpc
    · intro blk hpc
      cases hpc

section NoTimeout

variable [Fintype M] {s s' : LockState M} {m : M}

theorem LocksOk.of_setMgr (h : LocksOk s) (table : LockTable) (m : M) (mgr : ConcurrencyMgr)
    (hinv : LockSafety.Inv ({ s with table := table }.setMgr m mgr)) (hmgr : Granted mgr)
    (hwait : WaitEntry mgr) : LocksOk ({ s with table := table }.setMgr m mgr) where
  inv := hinv
  granted := by
    intro m'
    by_cases hm : m' = m
    · rw [hm, setMgr_self]
      exact hmgr
    · rw [setMgr_other s table mgr hm]
      exact h.granted m'
  waiting := by
    intro m'
    by_cases hm : m' = m
    · rw [hm, setMgr_self]
      exact hwait
    · rw [setMgr_other s table mgr hm]
      exact h.waiting m'

theorem waitEntry_of_pc {mgr : ConcurrencyMgr} (hs : ∀ blk inXLock, mgr.pc ≠ .sWait blk inXLock)
    (hx : ∀ blk, mgr.pc ≠ .xWait blk) : WaitEntry mgr where
  sWait := fun blk inXLock hpc => absurd hpc (hs blk inXLock)
  xWait := fun blk hpc => absurd hpc (hx blk)

theorem waitEntry_sLock (mgr : ConcurrencyMgr) (blk : BlockId) (inXLock : Bool) :
    WaitEntry ((mgr.setLock blk .S).setPc (.sWait blk inXLock)) where
  sWait := by
    intro blk' inXLock' hpc
    cases hpc
    exact (find_setLock mgr blk blk .S).trans (if_pos rfl)
  xWait := by
    intro blk' hpc
    cases hpc

theorem waitEntry_xWait (mgr : ConcurrencyMgr) (blk : BlockId) :
    WaitEntry ((mgr.setLock blk .X).setPc (.xWait blk)) where
  sWait := by
    intro blk' inXLock hpc
    cases hpc
  xWait := by
    intro blk' hpc
    cases hpc
    exact (find_setLock mgr blk blk .X).trans (if_pos rfl)

/-- A manager goes on only with blocks it was granted. -/
theorem LocksOk.matched (h : LocksOk s) {l : LockLabel M} (hstep : s.step l = some s') :
    Matched s l := by
  cases l with
  | granted m => trivial
  | timeout m => trivial
  | unlock m blk => trivial
  | clear m => trivial
  | sLock m blk =>
    unfold LockState.step at hstep
    cases hpc : (s.mgrs m).pc <;> simp only [hpc, reduceCtorEq] at hstep
    intro hfind
    obtain ⟨t, ht⟩ := Option.ne_none_iff_exists'.mp hfind
    rw [(h.granted m).find_idle hpc ht]
    exact Option.some_ne_none t
  | xLock m blk =>
    unfold LockState.step at hstep
    cases hpc : (s.mgrs m).pc <;> simp only [hpc, reduceCtorEq] at hstep
    exact fun t ht => (h.granted m).find_idle hpc ht
  | release m =>
    unfold LockState.step at hstep
    cases hpc : (s.mgrs m).pc <;> simp only [hpc, reduceCtorEq] at hstep
    intro e he
    cases hfind : (s.mgrs m).find e.1 with
    | none => exact absurd (List.mem_map_of_mem he) (not_mem_locks_of_find hfind)
    | some t =>
      rw [(h.granted m).find_idle hpc hfind]
      exact Option.some_ne_none t

/-- A manager that waits or is releasing has no other open request. -/
theorem waitEntry_idle {mgr : ConcurrencyMgr} (h : mgr.pc = .idle) : WaitEntry mgr :=
  waitEntry_of_pc (fun _ _ hpc => by rw [h] at hpc; cases hpc)
    (fun _ hpc => by rw [h] at hpc; cases hpc)

theorem waitEntry_releasing {mgr : ConcurrencyMgr} {rest : List BlockId}
    (h : mgr.pc = .releasing rest) : WaitEntry mgr :=
  waitEntry_of_pc (fun _ _ hpc => by rw [h] at hpc; cases hpc)
    (fun _ hpc => by rw [h] at hpc; cases hpc)

theorem LocksOk.granted_step (h : LocksOk s) (hstep : s.step (.granted m) = some s') :
    LocksOk s' := by
  have hinv := step_inv (l := .granted m) h.inv trivial hstep
  unfold LockState.step at hstep
  cases hpc : (s.mgrs m).pc with
  | idle => simp [hpc] at hstep
  | releasing rest => simp [hpc] at hstep
  | sWait blk inXLock =>
    simp only [hpc, Option.ite_none_left_eq_some, Option.some.injEq, Bool.not_eq_true] at hstep
    obtain ⟨hfree, rfl⟩ := hstep
    obtain ⟨hnone, -⟩ := (h.inv.mgrs m).sWaiting blk inXLock hpc
    have hmgr : Granted (((s.mgrs m).returned blk .S).setPc .idle) := by
      refine (h.granted m).returned blk .S (Or.inl ⟨inXLock, hpc⟩)
        ((h.waiting m).sWait blk inXLock hpc) ?_
      rw [hnone]
      decide
    have hok : LocksOk ({ s with table := s.table.sLock blk }.setMgr m
        (((s.mgrs m).returned blk .S).setPc .idle)) :=
      h.of_setMgr _ m _ (h.inv.grantedS m blk inXLock hpc hfree) hmgr (waitEntry_idle rfl)
    cases inXLock with
    | false => exact hok
    | true =>
      have hself := setMgr_self s (s.table.sLock blk) m (((s.mgrs m).returned blk .S).setPc .idle)
      have hidle := congrArg ConcurrencyMgr.pc hself
      exact hok.of_setMgr _ m _ hinv ((hok.granted m).wait hidle blk .X _ (Or.inr rfl))
        (waitEntry_xWait _ _)
  | xWait blk =>
    simp only [hpc, Option.ite_none_left_eq_some, Option.some.injEq, Bool.not_eq_true] at hstep
    obtain ⟨hfree, rfl⟩ := hstep
    have hmgr : Granted (((s.mgrs m).returned blk .X).setPc .idle) := by
      refine (h.granted m).returned blk .X (Or.inr hpc) ((h.waiting m).xWait blk hpc) ?_
      rw [(h.inv.mgrs m).xWaiting blk hpc]
      decide
    exact h.of_setMgr _ m _ hinv hmgr (waitEntry_idle rfl)

theorem LocksOk.step (h : LocksOk s) {l : LockLabel M} (hl : ∀ m, l ≠ .timeout m)
    (hstep : s.step l = some s') : LocksOk s' := by
  have hinv := step_inv h.inv (h.matched hstep) hstep
  cases l with
  | granted m => exact h.granted_step hstep
  | timeout m => exact absurd rfl (hl m)
  | sLock m blk =>
    unfold LockState.step at hstep
    cases hpc : (s.mgrs m).pc <;> cases hfind : (s.mgrs m).find blk <;>
      simp only [hpc, hfind, reduceCtorEq, Option.some.injEq] at hstep
    · subst hstep
      exact h.of_setMgr s.table m _ hinv ((h.granted m).wait hpc blk .S _ (Or.inl ⟨false, rfl⟩))
        (waitEntry_sLock _ _ _)
    · have hheld := (h.granted m).find_idle hpc hfind
      rw [returned_eq_self (by rw [hheld]; exact Option.some_ne_none _) (fun ht => by cases ht),
        setMgr_eq_self] at hstep
      exact hstep ▸ h
  | xLock m blk =>
    unfold LockState.step at hstep
    cases hpc : (s.mgrs m).pc with
    | sWait blk' inXLock => simp [hpc] at hstep
    | xWait blk' => simp [hpc] at hstep
    | releasing rest => simp [hpc] at hstep
    | idle =>
      cases hfind : (s.mgrs m).find blk with
      | none =>
        simp only [hpc, hfind, Option.some.injEq] at hstep
        subst hstep
        exact h.of_setMgr s.table m _ hinv ((h.granted m).wait hpc blk .S _ (Or.inl ⟨true, rfl⟩))
          (waitEntry_sLock _ _ _)
      | some t =>
        have hheld := (h.granted m).find_idle hpc hfind
        cases t with
        | S =>
          simp only [hpc, hfind, Option.some.injEq] at hstep
          subst hstep
          exact h.of_setMgr s.table m _ hinv ((h.granted m).wait hpc blk .X _ (Or.inr rfl))
            (waitEntry_xWait _ _)
        | X =>
          simp only [hpc, hfind, Option.some.injEq] at hstep
          rw [returned_eq_self (by rw [hheld]; decide) (fun _ => hheld), setMgr_eq_self] at hstep
          exact hstep ▸ h
  | release m =>
    unfold LockState.step at hstep
    cases hpc : (s.mgrs m).pc <;> simp only [hpc, reduceCtorEq, Option.some.injEq] at hstep
    subst hstep
    exact h.of_setMgr s.table m _ hinv (fun hnot => absurd rfl (hnot _)) (waitEntry_releasing rfl)
  | unlock m blk =>
    unfold LockState.step at hstep
    cases hpc : (s.mgrs m).pc <;> simp only [hpc, reduceCtorEq, Option.ite_none_right_eq_some,
      Option.some.injEq] at hstep
    obtain ⟨-, rfl⟩ := hstep
    exact h.of_setMgr _ m _ hinv (fun hnot => absurd rfl (hnot _)) (waitEntry_releasing rfl)
  | clear m =>
    unfold LockState.step at hstep
    cases hpc : (s.mgrs m).pc with
    | idle => simp [hpc] at hstep
    | sWait blk inXLock => simp [hpc] at hstep
    | xWait blk => simp [hpc] at hstep
    | releasing rest =>
      cases rest with
      | cons blk rest => simp [hpc] at hstep
      | nil =>
        simp only [hpc, Option.some.injEq] at hstep
        subst hstep
        refine h.of_setMgr s.table m _ hinv ?_ (waitEntry_idle rfl)
        intro _ blk t hfind
        cases hfind

end NoTimeout

end SampleDB.LockSteps
