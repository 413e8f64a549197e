import SampleDB.SavedPositions

/-!
The merge join. The first call of `next` already compares a join value of the left side with the
join value that the scan keeps, which is not set yet.
-/
namespace SampleDB.MergeJoins

open Lexer Schemas Statements Pages Blocks TableScans UpdatePlanner Scans Plans TypedTables Iterators Fuel
open TableRows SortOrder ExternalSort SortScans SavedPositions

section Scans

/-- MergeJoinScan; the sort of the right side saves its position. -/
structure MergeJoinScan where
  s₁ : Scan
  s₂ : SavingScan
  fld₁ : Name
  fld₂ : Name
  joinValue : Constant

namespace MergeJoinScan

variable (rounds : ℕ)

def beforeFirst (s : MergeJoinScan) : Result MergeJoinScan := do
  let s₁ ← s.s₁.beforeFirst rounds
  return { s with s₁ := s₁, s₂ := { s.s₂ with scan := s.s₂.scan.beforeFirst } }

/-- The constructor. -/
def new (s₁ : Scan) (s₂ : SortScan) (fld₁ fld₂ : Name) : Result MergeJoinScan :=
  beforeFirst rounds ⟨s₁, ⟨s₂, []⟩, fld₁, fld₂, .null⟩

/-- A value is compared with the join value after the first condition holds. -/
def isJoinValue (condition : Bool) (value : Result Constant) (joinValue : Constant) : Result Bool :=
  if condition then do constantEq (← value) joinValue else .ok false

/-- The loop of `next`. -/
def loop : ℕ → Bool → Bool → MergeJoinScan → Result (Bool × MergeJoinScan)
  | 0, _, _, _ => .error .outside
  | n + 1, true, true, s => do
      let v₁ ← s.s₁.getValue s.fld₁
      let v₂ ← s.s₂.scan.getValue s.fld₂
      if ← constantLt v₁ v₂ then
        let (hasMore₁, s₁) ← s.s₁.next rounds
        loop n hasMore₁ true { s with s₁ := s₁ }
      else if ← constantGt v₁ v₂ then
        let (hasMore₂, s₂) ← s.s₂.next
        loop n true hasMore₂ { s with s₂ := s₂ }
      else
        let s₂ ← s.s₂.savePosition
        let value ← s₂.scan.getValue s.fld₂
        return (true, { s with s₂ := s₂, joinValue := assign s.joinValue value })
  | _ + 1, _, _, s => .ok (false, s)

/-- The right side is asked for its join value where it has no further record. -/
def next (s : MergeJoinScan) : Result (Bool × MergeJoinScan) := do
  let (hasMore₂, s₂) ← s.s₂.next
  if ← isJoinValue (!hasMore₂) (s₂.scan.getValue s.fld₂) s.joinValue then
    return (true, { s with s₂ := s₂ })
  else
    let (hasMore₁, s₁) ← s.s₁.next rounds
    if ← isJoinValue hasMore₁ (s₁.getValue s.fld₁) s.joinValue then
      let s₂ ← s₂.restorePosition
      return (true, { s with s₁ := s₁, s₂ := s₂ })
    else loop rounds rounds hasMore₁ hasMore₂ { s with s₁ := s₁, s₂ := s₂ }

def getValue (s : MergeJoinScan) (fieldName : Name) : Result Constant := do
  if ← s.s₁.hasField fieldName then s.s₁.getValue fieldName else s.s₂.scan.getValue fieldName

end MergeJoinScan

/-- `MergeJoinPlan::open`; both sides are sorted by their join fields. -/
def openMergeJoin (rounds : ℕ) (B : BlockSize) (db : Db) (p₁ p₂ : Plan) (fld₁ fld₂ : Name) :
    Result MergeJoinScan := do
  let s₁ ← Plan.open rounds B db (.sort p₁ [fld₁])
  let src₂ ← Plan.open rounds B db p₂
  let s₂ ← openSort rounds B p₂.schema [fld₂] src₂
  MergeJoinScan.new rounds s₁ s₂ fld₁ fld₂

end Scans

section Joining

variable {B : BlockSize} {db : Db} {p p₁ p₂ : Plan} {fld fld₁ fld₂ : Name}
  {rows rows₁ rows₂ : List Row}

/-- The calls of a join, and the two records that it is on. -/
def joins (schema₁ schema₂ : Schema) : Iterator MergeJoinScan (Row × Row) where
  next s found s' := Returns (fun n => s.next n) (found, s')
  reset s s' := Returns (fun n => s.beforeFirst n) s'
  shows s r := ∀ F, (schema₁.hasField F = true → s.getValue F = .ok (r.1 F)) ∧
    (schema₁.hasField F = false → schema₂.hasField F = true → s.getValue F = .ok (r.2 F))

/-- The scan of the join ends, after each pair of records with equal join values. -/
def YieldsJoin (p₁ p₂ : Plan) (fld₁ fld₂ : Name) (rows₁ rows₂ : List Row)
    (s : MergeJoinScan) : Prop :=
  ∃ results, (joins p₁.schema p₂.schema).Emits (fun _ => True) s results ∧
    results.Perm ((rows₁ ×ˢ rows₂).filter (fun r => r.1 fld₁ = r.2 fld₂))

theorem constantEq_null {k : Kind} {c : Constant} (h : OfKind k c) :
    constantEq c .null = .error .outside := by
  cases k with
  | integer =>
    obtain ⟨n, rfl⟩ := h
    rfl
  | string =>
    obtain ⟨s, rfl⟩ := h
    rfl

/-- A sorted side, after it was reset, goes to its first record at once. -/
theorem sorted_first (h : HasRows B db p rows) (hne : rows ≠ [])
    (hfld : p.schema.hasField fld = true) :
    ∃ src s s' r, Returns (fun n => Plan.open n B db p) src ∧
      Returns (fun n => openSort n B p.schema [fld] src) s ∧ s.beforeFirst.next = .ok (true, s') ∧
      s'.getValue fld = .ok (r fld) ∧ FitsRow p.schema r := by
  have hsort : ∀ F ∈ [fld], p.schema.hasField F = true :=
    fun F hF => List.mem_singleton.mp hF ▸ hfld
  obtain ⟨src, t₁, t₂, hopen, hreturns, hfits₁, hfits₂, hperm, -⟩ := h.openSort hne hsort
  have hemits := restart_emits hfits₁ hfits₂ hsort
  have hstate : SortState p.schema [fld] t₁ t₂
      (.restart [fld] t₁.beforeFirst (t₂.map OpenTable.beforeFirst)) := restart_state hfits₁ hfits₂
  obtain ⟨found, s', hnext, -⟩ := hstate.next hfits₁ hfits₂ hsort
  cases hrows : sortedRows [fld] t₁ t₂ with
  | nil =>
    rw [hrows] at hperm
    exact absurd hperm.nil_eq.symm hne
  | cons r rest =>
    rw [hrows] at hemits hperm
    obtain ⟨x, hx, -, hshows, -⟩ := hemits
    have hfound : (scans p.schema).next (.sort _) found (.sort s') := sort_next hnext
    have heq := Returns.unique hfound hx
    cases heq
    refine ⟨src, _, s', r, hopen, hreturns, ?_, shows_value hshows hfld, ?_⟩
    · rw [hstate.beforeFirst_eq]
      exact hnext
    · exact h.fits r (hperm.mem_iff.mp List.mem_cons_self)

/-- The first call follows a pointer of the unset join value. -/
theorem mergeJoin_fails (h₁ : HasRows B db p₁ rows₁) (h₂ : HasRows B db p₂ rows₂)
    (hne₁ : rows₁ ≠ []) (hne₂ : rows₂ ≠ []) (hfld₁ : p₁.schema.hasField fld₁ = true)
    (hfld₂ : p₂.schema.hasField fld₂ = true) :
    ∃ s, Returns (fun n => openMergeJoin n B db p₁ p₂ fld₁ fld₂) s ∧
      ∀ n, s.next n = .error .outside := by
  obtain ⟨src₁, s₁, s₁', r₁, hopen₁, hsort₁, hnext₁, hget₁, hr₁⟩ := sorted_first h₁ hne₁ hfld₁
  obtain ⟨src₂, s₂, s₂', r₂, hopen₂, hsort₂, hnext₂, hget₂, hr₂⟩ := sorted_first h₂ hne₂ hfld₂
  have hfirst : ∀ n, MergeJoinScan.next n
      ⟨.sort s₁.beforeFirst, ⟨s₂.beforeFirst, []⟩, fld₁, fld₂, .null⟩ = .error .outside := by
    intro n
    obtain ⟨info, hinfo⟩ := Option.isSome_iff_exists.mp hfld₁
    have hnull : constantEq (r₁ fld₁) .null = .error .outside :=
      constantEq_null (hr₁.kinds fld₁ info hinfo)
    have hright : SavingScan.next ⟨s₂.beforeFirst, []⟩ = .ok (true, ⟨s₂', []⟩) := by
      unfold SavingScan.next
      dsimp only
      rw [hnext₂]
      rfl
    unfold MergeJoinScan.next
    dsimp only
    rw [hright, ok_bind]
    show (Scan.next n (.sort s₁.beforeFirst) >>= fun p => _) = _
    cases n with
    | zero => rfl
    | succ n =>
      have hleft : Scan.getValue (.sort s₁') fld₁ = .ok (r₁ fld₁) := hget₁
      rw [Scan.next, hnext₁, ok_bind]
      show (MergeJoinScan.isJoinValue true
        (Scan.getValue (.sort s₁') fld₁) .null >>= fun c => _) = _
      unfold MergeJoinScan.isJoinValue
      rw [if_pos rfl, hleft, ok_bind, hnull]
      rfl
  refine ⟨⟨.sort s₁.beforeFirst, ⟨s₂.beforeFirst, []⟩, fld₁, fld₂, .null⟩, ?_, hfirst⟩
  have hleft : Returns (fun n => Plan.open n B db (.sort p₁ [fld₁])) (.sort s₁) :=
    hopen₁.bind (hsort₁.bind (returns_ok _))
  have hnew : Returns (fun n => MergeJoinScan.new n (.sort s₁) s₂ fld₁ fld₂) _ :=
    returns_of_forall fun n => rfl
  exact hleft.bind (hopen₂.bind (hsort₂.bind hnew))

/-- A scan that yields its pairs answers its first call. -/
theorem not_yieldsJoin {s : MergeJoinScan} (h : ∀ n, s.next n = .error .outside) :
    ¬ YieldsJoin p₁ p₂ fld₁ fld₂ rows₁ rows₂ s := by
  rintro ⟨results, hemits, -⟩
  have hanswer : ∃ found s', (joins p₁.schema p₂.schema).next s found s' := by
    cases results with
    | nil =>
      obtain ⟨s', hnext, -⟩ := hemits
      exact ⟨false, s', hnext⟩
    | cons r results =>
      obtain ⟨s', hnext, -⟩ := hemits
      exact ⟨true, s', hnext⟩
  obtain ⟨found, s', hnext⟩ := hanswer
  obtain ⟨n, hn⟩ := Returns.eventually hnext
  rw [h n] at hn
  cases hn

/-- Whatever the two sides give, the join yields nothing at all. -/
theorem mergeJoin_never_yields (h₁ : HasRows B db p₁ rows₁) (h₂ : HasRows B db p₂ rows₂)
    (hne₁ : rows₁ ≠ []) (hne₂ : rows₂ ≠ []) (hfld₁ : p₁.schema.hasField fld₁ = true)
    (hfld₂ : p₂.schema.hasField fld₂ = true) :
    ∃ s, Returns (fun n => openMergeJoin n B db p₁ p₂ fld₁ fld₂) s ∧
      (∀ n, s.next n = .error .outside) ∧ ¬ YieldsJoin p₁ p₂ fld₁ fld₂ rows₁ rows₂ s := by
  obtain ⟨s, hreturns, hfails⟩ := mergeJoin_fails h₁ h₂ hne₁ hne₂ hfld₁ hfld₂
  exact ⟨s, hreturns, hfails, not_yieldsJoin hfails⟩

end Joining

section Examples

def oneNumber : List Int32 := [7]

/-- A table that is joined with itself. -/
theorem mergeJoin_never_yields_oneNumber :
    ∃ s, Returns (fun n =>
      openMergeJoin n narrowBlock (numbersDb ['a'] oneNumber) (numbersPlan ['a'])
        (numbersPlan ['a']) ['a'] ['a']) s ∧ (∀ n, s.next n = .error .outside) ∧
      ¬ YieldsJoin (numbersPlan ['a']) (numbersPlan ['a']) ['a'] ['a']
        (oneNumber.map (numberRow ['a']))
        (oneNumber.map (numberRow ['a'])) s :=
  mergeJoin_never_yields (numbers_hasRows ['a'] oneNumber) (numbers_hasRows ['a'] oneNumber)
    (by decide)
    (by decide) (by decide) (by decide)

/-- The pair of the record with itself is not yielded. -/
theorem not_yieldsJoin_oneNumber :
    ∃ s, Returns (fun n =>
      openMergeJoin n narrowBlock (numbersDb ['a'] oneNumber) (numbersPlan ['a'])
        (numbersPlan ['a']) ['a'] ['a']) s ∧
      ¬ YieldsJoin (numbersPlan ['a']) (numbersPlan ['a']) ['a'] ['a']
        (oneNumber.map (numberRow ['a']))
        (oneNumber.map (numberRow ['a'])) s := by
  have h := numbers_hasRows ['a'] oneNumber
  have hfld : (numbersPlan ['a']).schema.hasField ['a'] = true := by decide
  obtain ⟨s, hreturns, hfails⟩ := mergeJoin_fails h h (by decide) (by decide) hfld hfld
  exact ⟨s, hreturns, not_yieldsJoin hfails⟩

end Examples

end SampleDB.MergeJoins
