import SampleDB.LockSteps
import SampleDB.WaitGraphs

/-!
Which waiting requests can still return. As long as no request times out, a manager that
waits, through others, for a manager that waits through others for itself never goes on,
and every other request can return: those that it waits for finish one after another.
-/
namespace SampleDB.Deadlocks

open Blocks Locking LockSafety LockSteps Relation Runs WaitGraphs

section Waiting

variable {M : Type}

def Waiting (mgr : ConcurrencyMgr) : Prop :=
  mgr.pc ≠ .idle ∧ ∀ rest, mgr.pc ≠ .releasing rest

/-- A call of the one manager returns only after the other one has released its lock. An
exclusive request needs the block for itself, also while it asks for the shared lock. -/
def WaitsFor (s : LockState M) (m m' : M) : Prop :=
  m' ≠ m ∧ match (s.mgrs m).pc with
    | .sWait blk false => (s.mgrs m').held blk = some .X
    | .sWait blk true => (s.mgrs m').held blk ≠ none
    | .xWait blk => (s.mgrs m').held blk ≠ none
    | _ => False

variable {s s' : LockState M} {m m' : M}

theorem WaitsFor.waiting (h : WaitsFor s m m') : Waiting (s.mgrs m) := by
  obtain ⟨-, hmatch⟩ := h
  constructor
  · intro hpc
    simp [hpc] at hmatch
  · intro rest hpc
    simp [hpc] at hmatch

/-- Whoever is waited for holds a lock. -/
theorem WaitsFor.holds (h : WaitsFor s m m') : ∃ blk, (s.mgrs m').held blk ≠ none := by
  obtain ⟨-, hmatch⟩ := h
  cases hpc : (s.mgrs m).pc with
  | idle => simp [hpc] at hmatch
  | releasing rest => simp [hpc] at hmatch
  | xWait blk =>
    simp only [hpc] at hmatch
    exact ⟨blk, hmatch⟩
  | sWait blk inXLock =>
    cases inXLock with
    | false =>
      simp only [hpc] at hmatch
      exact ⟨blk, by rw [hmatch]; exact Option.some_ne_none _⟩
    | true =>
      simp only [hpc] at hmatch
      exact ⟨blk, hmatch⟩

/-- The waiting depends on the request of the one and the locks of the other. -/
theorem WaitsFor.congr (h : WaitsFor s m m') (hm : s'.mgrs m = s.mgrs m)
    (hx : ∀ blk, (s.mgrs m').held blk = some .X → (s'.mgrs m').held blk = some .X)
    (hheld : ∀ blk, (s.mgrs m').held blk ≠ none → (s'.mgrs m').held blk ≠ none) :
    WaitsFor s' m m' := by
  obtain ⟨hne, hmatch⟩ := h
  refine ⟨hne, ?_⟩
  rw [hm]
  cases hpc : (s.mgrs m).pc with
  | idle => simp [hpc] at hmatch
  | releasing rest => simp [hpc] at hmatch
  | xWait blk =>
    simp only [hpc] at hmatch ⊢
    exact hheld blk hmatch
  | sWait blk inXLock =>
    cases inXLock with
    | false =>
      simp only [hpc] at hmatch ⊢
      exact hx blk hmatch
    | true =>
      simp only [hpc] at hmatch ⊢
      exact hheld blk hmatch

end Waiting

variable {M : Type} [DecidableEq M]

/-- A step in which no request times out. -/
def Untimed (s : LockState M) (l : LockLabel M) (s' : LockState M) : Prop :=
  s.step l = some s' ∧ ∀ m, l ≠ .timeout m

variable [Fintype M] {s s' : LockState M} {l : LockLabel M} {m m' : M} {blk : BlockId}

omit [Fintype M] in
theorem exists_untimed (h : (s.step l).isSome) (hl : ∀ m, l ≠ .timeout m) :
    ∃ s', Untimed s l s' := by
  obtain ⟨s', hstep⟩ := Option.isSome_iff_exists.mp h
  exact ⟨s', hstep, hl⟩

theorem locksOk_run {ls : List (LockLabel M)} (h : LocksOk s) (hrun : Run Untimed s ls s') :
    LocksOk s' :=
  hrun.invariant LocksOk (fun _ _ _ hok hstep => hok.step hstep.2 hstep.1) h

/-- One manager acts in a step; it does not wait, or its request is granted. -/
theorem acting_cases (h : LocksOk s) (hstep : Untimed s l s') :
    ∃ m, (∀ m' ≠ m, s'.mgrs m' = s.mgrs m') ∧ (¬ Waiting (s.mgrs m) ∨ l = .granted m) := by
  obtain ⟨hstep, htimed⟩ := hstep
  have hmatched := h.matched hstep
  cases l with
  | timeout m => exact absurd rfl (htimed m)
  | granted m =>
    obtain ⟨-, hothers, -⟩ := granted_cases h.inv hstep
    exact ⟨m, hothers, Or.inr rfl⟩
  | sLock m blk =>
    obtain ⟨-, hothers, -⟩ := sLock_cases h.inv hmatched hstep
    refine ⟨m, hothers, Or.inl fun hwait => ?_⟩
    unfold LockState.step at hstep
    cases hpc : (s.mgrs m).pc <;> simp only [hpc, reduceCtorEq] at hstep
    exact hwait.1 hpc
  | xLock m blk =>
    obtain ⟨-, hothers, -⟩ := xLock_cases h.inv hmatched hstep
    refine ⟨m, hothers, Or.inl fun hwait => ?_⟩
    unfold LockState.step at hstep
    cases hpc : (s.mgrs m).pc <;> simp only [hpc, reduceCtorEq] at hstep
    exact hwait.1 hpc
  | release m =>
    obtain ⟨-, hothers, -⟩ := release_cases h.inv hmatched hstep
    refine ⟨m, hothers, Or.inl fun hwait => ?_⟩
    unfold LockState.step at hstep
    cases hpc : (s.mgrs m).pc <;> simp only [hpc, reduceCtorEq] at hstep
    exact hwait.1 hpc
  | unlock m blk =>
    obtain ⟨-, hothers, -, ⟨rest, hrest⟩, -⟩ := unlock_cases h.inv hstep
    exact ⟨m, hothers, Or.inl fun hwait => hwait.2 rest hrest⟩
  | clear m =>
    obtain ⟨-, hothers, -, -, ⟨rest, hrest⟩, -⟩ := clear_cases h.inv hstep
    exact ⟨m, hothers, Or.inl fun hwait => hwait.2 rest hrest⟩

/-!
A manager that waits for another one can be granted no more than the shared lock that an
exclusive request begins with, and it goes on waiting for the same locks.
-/

theorem waiting_step (h : LocksOk s) (hstep : Untimed s l s') (hwait : WaitsFor s m m') :
    s'.mgrs m = s.mgrs m ∨ ∃ blk, (s.mgrs m).pc = .sWait blk true ∧
      (s'.mgrs m).pc = .xWait blk ∧ (s.mgrs m).held blk = none ∧
      (s'.mgrs m).held = Function.update (s.mgrs m).held blk (some .S) := by
  obtain ⟨a, hothers, hact⟩ := acting_cases h hstep
  by_cases hma : m = a
  · right
    subst hma
    rcases hact with hnot | rfl
    · exact absurd hwait.waiting hnot
    obtain ⟨hne, hmatch⟩ := hwait
    obtain ⟨hinv, -, blk, t, hheld, hnoX, hcases⟩ := granted_cases h.inv hstep.1
    rcases hcases with ⟨hpc, -⟩ | ⟨hpc, rfl, hnone, hpc'⟩ | ⟨hpc, rfl, -⟩
    · simp only [hpc] at hmatch
      exact absurd hmatch (hnoX m')
    · exact ⟨blk, hpc, hpc', hnone, hheld⟩
    · -- the other one's lock would stand beside the exclusive one
      simp only [hpc] at hmatch
      have hx : (s'.mgrs m).held blk = some .X := by
        rw [hheld]
        exact Function.update_self blk _ _
      have hnone := held_exclusive hinv hx hne
      rw [hothers m' hne] at hnone
      exact absurd hnone hmatch
  · exact Or.inl (hothers m hma)

/-- Its own locks only grow. -/
theorem waiting_locks (h : LocksOk s) (hstep : Untimed s l s') (hwait : WaitsFor s m m') :
    (∀ blk, (s.mgrs m).held blk = some .X → (s'.mgrs m).held blk = some .X) ∧
      ∀ blk, (s.mgrs m).held blk ≠ none → (s'.mgrs m).held blk ≠ none := by
  rcases waiting_step h hstep hwait with hsame | ⟨blk', -, -, hnone, hheld⟩
  · rw [hsame]
    exact ⟨fun blk hx => hx, fun blk hne => hne⟩
  · rw [hheld]
    constructor
    · intro blk hx
      rw [Function.update_of_ne]
      · exact hx
      · rintro rfl
        rw [hnone] at hx
        cases hx
    · intro blk hne
      rw [Function.update_of_ne]
      · exact hne
      · rintro rfl
        exact hne hnone

/-- No step lets anyone out of a set of managers that wait for each other. -/
theorem stuck_step {D : Set M} (h : LocksOk s) (hstuck : Stuck (WaitsFor s) D)
    (hstep : Untimed s l s') : Stuck (WaitsFor s') D := by
  refine hstuck.mono fun m _ m' hm' hwait => ?_
  obtain ⟨m'', -, hwait'⟩ := hstuck m' hm'
  obtain ⟨hx, hheld⟩ := waiting_locks h hstep hwait'
  rcases waiting_step h hstep hwait with hsame | ⟨blk, hpc, hpc', -⟩
  · exact hwait.congr hsame hx hheld
  · obtain ⟨hne, hmatch⟩ := hwait
    simp only [hpc] at hmatch
    refine ⟨hne, ?_⟩
    simp only [hpc']
    exact hheld blk hmatch

theorem stuck_run {D : Set M} {ls : List (LockLabel M)} (h : LocksOk s)
    (hstuck : Stuck (WaitsFor s) D) (hrun : Run Untimed s ls s') : Stuck (WaitsFor s') D := by
  have hboth := hrun.invariant (fun s => LocksOk s ∧ Stuck (WaitsFor s) D)
    (fun _ _ _ hs hstep => ⟨hs.1.step hstep.2 hstep.1, stuck_step hs.1 hs.2 hstep⟩) ⟨h, hstuck⟩
  exact hboth.2

theorem stuck_never_returns {D : Set M} {ls : List (LockLabel M)} (h : LocksOk s)
    (hstuck : Stuck (WaitsFor s) D) (hm : m ∈ D) (hrun : Run Untimed s ls s') :
    (s'.mgrs m).pc ≠ .idle := by
  obtain ⟨m', -, hwait⟩ := stuck_run h hstuck hrun m hm
  exact hwait.waiting.1

/-!
A manager that waits for nobody gets its locks, finishes and releases them, and no step of
another manager is needed.
-/

omit [DecidableEq M] in
/-- The last lock on a block is the shared lock that is to be upgraded. -/
theorem value_one {value : ℤ} {held : M → Option LockType} (h : BlockSafe value held)
    (hm : held m = some .S) (hothers : ∀ m' ≠ m, held m' = none) : value = 1 := by
  have hnoX : ∀ m', held m' ≠ some .X := by
    intro m' hx
    by_cases heq : m' = m
    · rw [heq, hm] at hx
      cases hx
    · rw [hothers m' heq] at hx
      cases hx
  have hsharers : Finset.univ.filter (fun m' => held m' = some .S) = {m} := by
    ext m'
    rw [Finset.mem_filter, Finset.mem_singleton]
    constructor
    · rintro ⟨-, hs⟩
      by_contra hne
      rw [hothers m' hne] at hs
      cases hs
    · rintro rfl
      exact ⟨Finset.mem_univ _, hm⟩
  have hvalue := h.value_shared hnoX
  unfold sharers at hvalue
  rw [hsharers, Finset.card_singleton] at hvalue
  exact hvalue

theorem granted_sWait {inXLock : Bool} (h : LocksOk s) (hpc : (s.mgrs m).pc = .sWait blk inXLock)
    (hfree : ∀ m' ≠ m, (s.mgrs m').held blk ≠ some .X) : ∃ s', Untimed s (.granted m) s' := by
  have hvalue : s.table.hasXLock blk = false := by
    have hnoX : ∀ m', (s.mgrs m').held blk ≠ some .X := by
      intro m' hx
      by_cases heq : m' = m
      · rw [heq, ((h.inv.mgrs m).sWaiting blk inXLock hpc).1] at hx
        cases hx
      · exact hfree m' heq hx
    have hshared := (h.inv.safe blk).value_shared hnoX
    unfold LockTable.hasXLock
    rw [decide_eq_false_iff_not]
    omega
  refine exists_untimed ?_ fun m' hlabel => by cases hlabel
  unfold LockState.step
  simp only [hpc, hvalue, Bool.false_eq_true, if_false, Option.isSome_some]

theorem granted_xWait (h : LocksOk s) (hpc : (s.mgrs m).pc = .xWait blk)
    (hfree : ∀ m' ≠ m, (s.mgrs m').held blk = none) : ∃ s', Untimed s (.granted m) s' := by
  have hvalue := value_one (h.inv.safe blk) ((h.inv.mgrs m).xWaiting blk hpc) hfree
  have hother : s.table.hasOtherSLocks blk = false := by
    unfold LockTable.hasOtherSLocks
    rw [hvalue]
    rfl
  refine exists_untimed ?_ fun m' hlabel => by cases hlabel
  unfold LockState.step
  simp only [hpc, hother, Bool.false_eq_true, if_false, Option.isSome_some]

theorem xWait_returns (h : LocksOk s) (hpc : (s.mgrs m).pc = .xWait blk)
    (hfree : ∀ m' ≠ m, (s.mgrs m').held blk = none) : ∃ s', Untimed s (.granted m) s' ∧
      (s'.mgrs m).pc = .idle ∧ ∀ m' ≠ m, s'.mgrs m' = s.mgrs m' := by
  obtain ⟨s', hstep⟩ := granted_xWait h hpc hfree
  obtain ⟨-, hsame, blk', t, -, -, hcases⟩ := granted_cases h.inv hstep.1
  rw [hpc] at hcases
  rcases hcases with ⟨heq, -⟩ | ⟨heq, -⟩ | ⟨-, -, -, hidle⟩
  · cases heq
  · cases heq
  · exact ⟨s', hstep, hidle, hsame⟩

/-- The request of a manager that waits for nobody returns. -/
theorem free_returns (h : LocksOk s) (hwaiting : Waiting (s.mgrs m))
    (hfree : ∀ m', ¬ WaitsFor s m m') : ∃ ls s', Run Untimed s ls s' ∧
      (s'.mgrs m).pc = .idle ∧ ∀ m' ≠ m, s'.mgrs m' = s.mgrs m' := by
  cases hpc : (s.mgrs m).pc with
  | idle => exact absurd hpc hwaiting.1
  | releasing rest => exact absurd hpc (hwaiting.2 rest)
  | xWait blk =>
    have hothers : ∀ m' ≠ m, (s.mgrs m').held blk = none := by
      intro m' hne
      by_contra hheld
      exact hfree m' ⟨hne, by simpa only [hpc] using hheld⟩
    obtain ⟨s', hstep, hidle, hsame⟩ := xWait_returns h hpc hothers
    exact ⟨_, s', .cons hstep (.nil s'), hidle, hsame⟩
  | sWait blk inXLock =>
    have hnoX : ∀ m' ≠ m, (s.mgrs m').held blk ≠ some .X := by
      intro m' hne hx
      refine hfree m' ⟨hne, ?_⟩
      cases inXLock with
      | false => simpa only [hpc] using hx
      | true =>
        simp only [hpc, hx]
        exact Option.some_ne_none _
    obtain ⟨s₁, hstep⟩ := granted_sWait h hpc hnoX
    obtain ⟨-, hsame, blk', t, -, -, hcases⟩ := granted_cases h.inv hstep.1
    rw [hpc] at hcases
    rcases hcases with ⟨-, -, -, hidle⟩ | ⟨heq, -, -, hxWait⟩ | ⟨heq, -⟩
    · exact ⟨_, s₁, .cons hstep (.nil s₁), hidle, hsame⟩
    · -- the shared lock of an exclusive request; nobody else has a lock on the block
      cases heq
      have hothers : ∀ m' ≠ m, (s₁.mgrs m').held blk = none := by
        intro m' hne
        rw [hsame m' hne]
        by_contra hheld
        exact hfree m' ⟨hne, by simpa only [hpc] using hheld⟩
      obtain ⟨s', hstep', hidle, hsame'⟩ := xWait_returns (h.step hstep.2 hstep.1) hxWait hothers
      exact ⟨_, s', .cons hstep (.cons hstep' (.nil s')), hidle,
        fun m' hne => (hsame' m' hne).trans (hsame m' hne)⟩
    · cases heq

/-- A release unlocks the blocks one after another. -/
theorem releasing_finishes (rest : List BlockId) {s : LockState M} (h : LocksOk s)
    (hpc : (s.mgrs m).pc = .releasing rest) : ∃ ls s', Run Untimed s ls s' ∧
      (s'.mgrs m).pc = .idle ∧ (∀ blk, (s'.mgrs m).held blk = none) ∧
      ∀ m' ≠ m, s'.mgrs m' = s.mgrs m' := by
  induction rest generalizing s with
  | nil =>
    have hclear : ∃ s', Untimed s (.clear m) s' := by
      refine exists_untimed ?_ fun m' hlabel => by cases hlabel
      unfold LockState.step
      simp only [hpc, Option.isSome_some]
    obtain ⟨s', hstep⟩ := hclear
    obtain ⟨-, hsame, hheld, hnone, -, hidle⟩ := clear_cases h.inv hstep.1
    exact ⟨_, s', .cons hstep (.nil s'), hidle, fun blk => by rw [hheld, hnone], hsame⟩
  | cons blk rest ih =>
    have hunlock : s.step (.unlock m blk) = some ({ s with table := s.table.unlock blk }.setMgr m
        (((s.mgrs m).unlocked blk).setPc (.releasing rest))) := by
      unfold LockState.step
      simp only [hpc, List.mem_cons, true_or, if_true, List.erase_cons_head]
    have hstep : Untimed s (.unlock m blk) _ := ⟨hunlock, fun m' hlabel => by cases hlabel⟩
    have hpc₁ := congrArg ConcurrencyMgr.pc (setMgr_self s (s.table.unlock blk) m
      (((s.mgrs m).unlocked blk).setPc (.releasing rest)))
    obtain ⟨-, hsame, -⟩ := unlock_cases h.inv hstep.1
    obtain ⟨ls, s', hrun, hidle, hnone, hsame'⟩ := ih (h.step hstep.2 hstep.1) hpc₁
    exact ⟨_, s', .cons hstep hrun, hidle, hnone,
      fun m' hne => (hsame' m' hne).trans (hsame m' hne)⟩

theorem idle_finishes (h : LocksOk s) (hpc : (s.mgrs m).pc = .idle) :
    ∃ ls s', Run Untimed s ls s' ∧ (s'.mgrs m).pc = .idle ∧
      (∀ blk, (s'.mgrs m).held blk = none) ∧ ∀ m' ≠ m, s'.mgrs m' = s.mgrs m' := by
  have hrelease : ∃ s', Untimed s (.release m) s' := by
    refine exists_untimed ?_ fun m' hlabel => by cases hlabel
    unfold LockState.step
    simp only [hpc, Option.isSome_some]
  obtain ⟨s₁, hstep⟩ := hrelease
  obtain ⟨-, hsame, -, rest, hpc₁⟩ := release_cases h.inv (h.matched hstep.1) hstep.1
  obtain ⟨ls, s', hrun, hidle, hnone, hsame'⟩ :=
    releasing_finishes rest (h.step hstep.2 hstep.1) hpc₁
  exact ⟨_, s', .cons hstep hrun, hidle, hnone,
    fun m' hne => (hsame' m' hne).trans (hsame m' hne)⟩

/-- A manager that waits for nobody can commit: in the end it holds nothing. -/
theorem free_finishes (h : LocksOk s) (hfree : ∀ m', ¬ WaitsFor s m m') :
    ∃ ls s', Run Untimed s ls s' ∧ (s'.mgrs m).pc = .idle ∧
      (∀ blk, (s'.mgrs m).held blk = none) ∧ ∀ m' ≠ m, s'.mgrs m' = s.mgrs m' := by
  by_cases hwaiting : Waiting (s.mgrs m)
  · obtain ⟨ls, s₁, hrun, hpc, hsame⟩ := free_returns h hwaiting hfree
    obtain ⟨ls', s', hrun', hidle, hnone, hsame'⟩ := idle_finishes (locksOk_run h hrun) hpc
    exact ⟨_, s', hrun.append hrun', hidle, hnone,
      fun m' hne => (hsame' m' hne).trans (hsame m' hne)⟩
  · cases hpc : (s.mgrs m).pc with
    | idle => exact idle_finishes h hpc
    | releasing rest => exact releasing_finishes rest h hpc
    | sWait blk inXLock =>
      exact absurd ⟨by rw [hpc]; exact Pc.noConfusion, by rw [hpc]; exact fun _ => Pc.noConfusion⟩
        hwaiting
    | xWait blk =>
      exact absurd ⟨by rw [hpc]; exact Pc.noConfusion, by rw [hpc]; exact fun _ => Pc.noConfusion⟩
        hwaiting

/-!
Whoever is in no stuck set waits, through others, for a manager that waits for nobody. When
that one has finished, fewer managers hold a lock and nobody waits for more than before.
-/

omit [DecidableEq M] [Fintype M] in
/-- Nobody waits for a manager that holds nothing, and it waits for nobody when it is idle. -/
theorem waitsFor_of_finished {m₀ : M} (hidle : (s'.mgrs m₀).pc = .idle)
    (hnone : ∀ blk, (s'.mgrs m₀).held blk = none) (hsame : ∀ m ≠ m₀, s'.mgrs m = s.mgrs m)
    (hwait : WaitsFor s' m m') : WaitsFor s m m' := by
  have hm : m ≠ m₀ := by
    rintro rfl
    exact hwait.waiting.1 hidle
  have hm' : m' ≠ m₀ := by
    rintro rfl
    obtain ⟨blk, hheld⟩ := hwait.holds
    exact hheld (hnone blk)
  refine hwait.congr (hsame m hm).symm ?_ ?_
  · rw [hsame m' hm']
    exact fun blk hx => hx
  · rw [hsame m' hm']
    exact fun blk hne => hne

open Classical in
/-- The managers that hold a lock. -/
noncomputable def holders (s : LockState M) : Finset M :=
  Finset.univ.filter (fun m => ∃ blk, (s.mgrs m).held blk ≠ none)

omit [DecidableEq M] in
theorem holders_of_finished {m₀ : M} (hholds : ∃ blk, (s.mgrs m₀).held blk ≠ none)
    (hnone : ∀ blk, (s'.mgrs m₀).held blk = none) (hsame : ∀ m ≠ m₀, s'.mgrs m = s.mgrs m) :
    (holders s').card < (holders s).card := by
  classical
  apply Finset.card_lt_card
  unfold holders
  rw [Finset.ssubset_iff_of_subset]
  · refine ⟨m₀, Finset.mem_filter.mpr ⟨Finset.mem_univ _, hholds⟩, ?_⟩
    intro hmem
    obtain ⟨-, blk, hheld⟩ := Finset.mem_filter.mp hmem
    exact hheld (hnone blk)
  · intro m hm
    obtain ⟨-, blk, hheld⟩ := Finset.mem_filter.mp hm
    refine Finset.mem_filter.mpr ⟨Finset.mem_univ _, blk, ?_⟩
    rw [hsame m] at hheld
    · exact hheld
    · rintro rfl
      exact hheld (hnone blk)

theorem returns_of_not_stuck {s : LockState M} (h : LocksOk s) (hwaiting : Waiting (s.mgrs m))
    (hnot : ∀ D, Stuck (WaitsFor s) D → m ∉ D) :
    ∃ ls s', Run Untimed s ls s' ∧ (s'.mgrs m).pc = .idle := by
  induction hcard : (holders s).card using Nat.strong_induction_on generalizing s with
  | _ n ih =>
    obtain ⟨m₀, hreach, hfree⟩ := exists_free hnot
    rcases ReflTransGen.cases_tail hreach with rfl | ⟨m₁, -, hlast⟩
    · obtain ⟨ls, s', hrun, hidle, -⟩ := free_returns h hwaiting hfree
      exact ⟨ls, s', hrun, hidle⟩
    · by_cases heq : m = m₀
      · subst heq
        obtain ⟨ls, s', hrun, hidle, -⟩ := free_returns h hwaiting hfree
        exact ⟨ls, s', hrun, hidle⟩
      · obtain ⟨ls, s₁, hrun, hidle, hnone, hsame⟩ := free_finishes h hfree
        have hless := holders_of_finished hlast.holds hnone hsame
        have hnot₁ : ∀ D, Stuck (WaitsFor s₁) D → m ∉ D := fun D hD => hnot D
          (hD.mono fun _ _ _ _ hwait => waitsFor_of_finished hidle hnone hsame hwait)
        obtain ⟨ls', s', hrun', hreturned⟩ := ih _ (hcard ▸ hless)
          (locksOk_run h hrun) (by rw [hsame m heq]; exact hwaiting) hnot₁ rfl
        exact ⟨_, s', hrun.append hrun', hreturned⟩

omit [DecidableEq M] [Fintype M] in
theorem transGen_both {s : LockState Bool} (h : ∀ m, WaitsFor s m (!m)) (m : Bool) :
    TransGen (WaitsFor s) m m := by
  have hback := h (!m)
  rw [Bool.not_not] at hback
  exact (TransGen.single (h m)).tail hback

/-- As long as no request times out, a request can return exactly if its manager does not
wait, through others, for a manager that waits, through others, for itself. -/
theorem returns_iff_not_deadlocked (ls : List (LockLabel M)) (s : LockState M)
    (hrun : Run Untimed .new ls s) (m : M) (hwaiting : Waiting (s.mgrs m)) :
    (∃ ls' s', Run Untimed s ls' s' ∧ (s'.mgrs m).pc = .idle) ↔
      ¬ ∃ m', ReflTransGen (WaitsFor s) m m' ∧ TransGen (WaitsFor s) m' m' := by
  have hok := locksOk_run locksOk_new hrun
  rw [← mem_stuck_iff]
  constructor
  · rintro ⟨ls', s', hrun', hidle⟩ ⟨D, hD, hm⟩
    exact stuck_never_returns hok hD hm hrun' hidle
  · intro hnot
    exact returns_of_not_stuck hok hwaiting fun D hD hm => hnot ⟨D, hD, hm⟩

/-- Two managers that have read a block and both want to write it never go on. -/
theorem returns_iff_not_deadlocked_upgrade : ∃ s : LockState Bool,
    Run Untimed .new [.sLock false ⟨[116], 0⟩, .granted false, .sLock true ⟨[116], 0⟩,
      .granted true, .xLock false ⟨[116], 0⟩, .xLock true ⟨[116], 0⟩] s ∧
      ∀ m, ¬ ∃ ls' s', Run Untimed s ls' s' ∧ (s'.mgrs m).pc = .idle := by
  have hrun : ∃ s : LockState Bool, Run Untimed .new [.sLock false ⟨[116], 0⟩, .granted false,
      .sLock true ⟨[116], 0⟩, .granted true, .xLock false ⟨[116], 0⟩, .xLock true ⟨[116], 0⟩] s ∧
      ∀ m, (s.mgrs m).pc = .xWait ⟨[116], 0⟩ ∧ (s.mgrs m).held ⟨[116], 0⟩ = some .S := by
    refine ⟨_, .cons ⟨rfl, by decide⟩ (.cons ⟨rfl, by decide⟩ (.cons ⟨rfl, by decide⟩
      (.cons ⟨rfl, by decide⟩ (.cons ⟨rfl, by decide⟩ (.cons ⟨rfl, by decide⟩ (.nil _)))))), ?_⟩
    decide
  obtain ⟨s, hs, hboth⟩ := hrun
  refine ⟨s, hs, fun m => ?_⟩
  have hwaits : ∀ m, WaitsFor s m (!m) := by
    intro m
    refine ⟨Bool.not_ne_self m, ?_⟩
    simp only [(hboth m).1, (hboth (!m)).2]
    exact Option.some_ne_none _
  rw [returns_iff_not_deadlocked _ s hs m (hwaits m).waiting, not_not]
  exact ⟨m, .refl, transGen_both hwaits m⟩

end SampleDB.Deadlocks
