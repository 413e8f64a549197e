import SampleDB.SortOrder
import Mathlib.Data.List.Forall2

/-!
The external sort. The source is split into sorted runs whose concatenation it is; a merge
iteration leaves sorted runs with the same rows, and half as many; the last two runs are merged by
the scan itself, as it is asked for records.
-/
namespace SampleDB.ExternalSort

open Lexer Schemas Statements Pages Blocks TableScans UpdatePlanner Scans Plans TypedTables Iterators Fuel
open SortedLists TableRows SortOrder

section Cursors

variable {schema : Schema} {sortFields : List Name} {t t₁ t₂ : OpenTable} {r r₁ r₂ : Row}

/-- A cursor in a table with this schema. -/
structure At (schema : Schema) (t : OpenTable) (r : Row) : Prop where
  schema_eq : t.schema = schema
  on : On t r
  fits : FitsRow schema r

theorem At.getValue (h : At schema t r) {F : Name} (hF : schema.hasField F = true) :
    t.getValue F = .ok (r F) :=
  getValue_on h.on (by rw [h.schema_eq]; exact hF)

theorem compare_at (hsort : ∀ F ∈ sortFields, schema.hasField F = true) (h₁ : At schema t₁ r₁)
    (h₂ : At schema t₂ r₂) : ∃ c, Scans.compare t₁.getValue t₂.getValue sortFields = .ok c ∧
      (c < 0 ↔ sortKey sortFields r₁ < sortKey sortFields r₂) :=
  compare_lt (comparable_of_fits h₁.fits h₂.fits (fun _ hF => h₁.getValue hF)
    (fun _ hF => h₂.getValue hF) hsort)

/-- The rows that are ahead of a cursor; it is on the first of them already. -/
def Ahead (schema : Schema) (more : Bool) (t : OpenTable) (rows : List Row) : Prop :=
  (more = true ∧ ∃ r, rows = r :: later t ∧ At schema t r) ∨ (more = false ∧ rows = [])

theorem ahead_next (hschema : t.schema = schema) (hfits : ∀ r ∈ later t, FitsRow schema r) :
    Ahead schema t.next.1 t.next.2 (later t) := by
  rcases next_cases t with ⟨r, hmore, hrows, hon⟩ | ⟨hmore, hrows⟩
  · refine Or.inl ⟨hmore, r, hrows, hschema, hon, hfits r ?_⟩
    rw [hrows]
    exact List.mem_cons_self
  · exact Or.inr ⟨hmore, hrows⟩

end Cursors

variable {schema : Schema} {B : BlockSize} {form : Form Row} {sortFields : List Name}

section Runs

/-- Sorted rows. -/
structure IsRun (schema : Schema) (sortFields : List Name) (rows : List Row) : Prop where
  sorted : Sorted (sortKey sortFields) rows
  fits : ∀ r ∈ rows, FitsRow schema r
  nonempty : rows ≠ []

/-- Temporary tables with these runs. -/
structure Runs (schema : Schema) (sortFields : List Name) (temps : List TempTable)
    (runs : List (List Row)) : Prop where
  holds : List.Forall₂ (Holds schema) temps runs
  isRun : ∀ run ∈ runs, IsRun schema sortFields run

theorem Runs.append {temps : List TempTable} {runs : List (List Row)} {t : OpenTable}
    {rows : List Row} (h : Runs schema sortFields temps runs) (ht : Dest schema t rows)
    (hrun : IsRun schema sortFields rows) :
    Runs schema sortFields (temps ++ [tempTable t]) (runs ++ [rows]) := by
  refine ⟨List.rel_append h.holds (List.Forall₂.cons ht.holds .nil), ?_⟩
  intro run hmem
  rcases List.mem_append.mp hmem with hmem | hmem
  · exact h.isRun run hmem
  · rw [List.mem_singleton.mp hmem]
    exact hrun

theorem isRun_singleton {r : Row} (h : FitsRow schema r) : IsRun schema sortFields [r] :=
  ⟨List.pairwise_singleton _ _, fun _ hmem => List.mem_singleton.mp hmem ▸ h, List.cons_ne_nil _ _⟩

/-- A run goes on with a row that is not smaller than its last one. -/
theorem IsRun.append {rows : List Row} {r r' : Row} (h : IsRun schema sortFields (rows ++ [r]))
    (hr' : FitsRow schema r') (hle : sortKey sortFields r ≤ sortKey sortFields r') :
    IsRun schema sortFields (rows ++ [r] ++ [r']) := by
  refine ⟨sorted_append.mpr ⟨h.sorted, List.pairwise_singleton _ _, ?_⟩, ?_, ?_⟩
  · intro x hx y hy
    rw [List.mem_singleton.mp hy]
    rcases List.mem_append.mp hx with hx | hx
    · exact ((sorted_append.mp h.sorted).2.2 x hx r (List.mem_singleton_self r)).trans hle
    · rw [List.mem_singleton.mp hx]
      exact hle
  · intro x hx
    rcases List.mem_append.mp hx with hx | hx
    · exact h.fits x hx
    · rw [List.mem_singleton.mp hx]
      exact hr'
  · exact List.append_ne_nil_of_right_ne_nil _ (List.cons_ne_nil _ _)

end Runs

section Splitting

/-- What a round does after the row has been copied. -/
def splitRound (B : BlockSize) (sortFields : List Name) (dest : OpenTable) (temps : List TempTable)
    (n : ℕ × ℕ) (p : Bool × Scan) : Result (List TempTable) :=
  if p.1 then do
    let c ← Scans.compare p.2.getValue dest.getValue sortFields
    if c < 0 then
      let currentTemp ← TempTable.new B dest.schema
      splitLoop n.1 B sortFields n.2 p.2 currentTemp.open (temps ++ [tempTable dest])
    else splitLoop n.1 B sortFields n.2 p.2 dest temps
  else return temps ++ [tempTable dest]

theorem splitLoop_round {src : Scan} {dest dest₁ : OpenTable} {temps temps' : List TempTable}
    (hcopy : copyRecord src.getValue dest = .ok dest₁) {found : Bool} {src' : Scan}
    (hnext : (scans schema).next src found src')
    (hround : Returns (fun n => splitRound B sortFields dest₁ temps n (found, src')) temps') :
    Returns (fun n : ℕ × ℕ => splitLoop n.1 B sortFields n.2 src dest temps) temps' := by
  have heq : ∀ n : ℕ × ℕ, splitLoop n.1 B sortFields (n.2 + 1) src dest temps =
      src.next n.1 >>= splitRound B sortFields dest₁ temps n := by
    intro n
    rw [splitLoop, hcopy]
    rfl
  exact Returns.of_inner (f := fun n m => splitLoop n B sortFields m src dest temps)
    (Returns.congr (hnext.outer.bind hround) heq)

/-- The row that was read last is copied behind the current run. -/
theorem splitLoop_returns (hform : UpdatePlanner.form B schema = some form)
    (hlisted : Listed schema)
    (hsort : ∀ F ∈ sortFields, schema.hasField F = true) {I : Scan → Prop} {src : Scan} {r : Row}
    {rest rows : List Row} {dest : OpenTable} {temps : List TempTable} {runs : List (List Row)}
    (hsrc : (scans schema).Emits I src rest) (hon : (scans schema).shows src r)
    (hfits : ∀ r' ∈ rest, FitsRow schema r') (hdest : Dest schema dest rows)
    (hrun : IsRun schema sortFields (rows ++ [r])) (hruns : Runs schema sortFields temps runs) :
    ∃ temps' runs', Returns
      (fun n : ℕ × ℕ => splitLoop n.1 B sortFields n.2 src dest temps) temps' ∧
      Runs schema sortFields temps' runs' ∧ runs'.flatten = runs.flatten ++ rows ++ r :: rest := by
  induction rest generalizing src r rows dest temps runs with
  | nil =>
    obtain ⟨src', hnext, -⟩ := hsrc
    have hr : FitsRow schema r :=
      hrun.fits r (List.mem_append_right rows (List.mem_singleton_self r))
    obtain ⟨dest₁, hcopy, hdest₁, -⟩ := hdest.copyRecord hlisted hr (fun _ hF => shows_value hon hF)
    refine ⟨_, _, splitLoop_round hcopy hnext (returns_ok _), hruns.append hdest₁ hrun, ?_⟩
    rw [List.flatten_append, List.flatten_singleton, List.append_assoc]
  | cons r' rest ih =>
    obtain ⟨src', hnext, -, hon', hrest⟩ := hsrc
    obtain ⟨hr', hfits⟩ := List.forall_mem_cons.mp hfits
    have hr : FitsRow schema r :=
      hrun.fits r (List.mem_append_right rows (List.mem_singleton_self r))
    obtain ⟨dest₁, hcopy, hdest₁, hondest⟩ :=
      hdest.copyRecord hlisted hr (fun _ hF => shows_value hon hF)
    have hat : At schema dest₁ r := ⟨hdest₁.schema_eq, hondest, hr⟩
    obtain ⟨c, hc, hlt⟩ := compare_lt
      (comparable_of_fits hr' hr (fun _ hF => shows_value hon' hF)
        (fun _ hF => hat.getValue hF) hsort)
    by_cases hless : sortKey sortFields r' < sortKey sortFields r
    · -- a new run begins with the smaller row
      obtain ⟨temp, hnew, htemp⟩ := newTemp_dest hform
      obtain ⟨temps', runs', hloop, hruns', hflat⟩ := ih hrest hon' hfits htemp
        (isRun_singleton hr') (hruns.append hdest₁ hrun)
      refine ⟨temps', runs', splitLoop_round hcopy hnext (hloop.congr fun n => ?_), hruns', ?_⟩
      · show (Scans.compare src'.getValue dest₁.getValue sortFields >>= fun c => _) = _
        rw [hc, ok_bind, if_pos (hlt.mpr hless), hdest₁.schema_eq, hnew]
        rfl
      · rw [hflat, List.flatten_append, List.flatten_singleton, List.append_nil, List.append_assoc,
          List.append_assoc, List.append_assoc]
        rfl
    · obtain ⟨temps', runs', hloop, hruns', hflat⟩ := ih hrest hon' hfits hdest₁
        (hrun.append hr' (not_lt.mp hless)) hruns
      refine ⟨temps', runs', splitLoop_round hcopy hnext (hloop.congr fun n => ?_), hruns', ?_⟩
      · show (Scans.compare src'.getValue dest₁.getValue sortFields >>= fun c => _) = _
        rw [hc, ok_bind, if_neg (fun h => hless (hlt.mp h))]
      · rw [hflat, ← List.append_assoc, List.append_assoc _ [r]]
        rfl

/-- The runs of a source, one after the other, are its rows. -/
theorem splitIntoRuns_returns (hform : UpdatePlanner.form B schema = some form)
    (hlisted : Listed schema) (hsort : ∀ F ∈ sortFields, schema.hasField F = true)
    {I : Scan → Prop} {src src₀ : Scan} {rows : List Row} (hreset : (scans schema).reset src src₀)
    (hsrc : (scans schema).Emits I src₀ rows) (hne : rows ≠ [])
    (hfits : ∀ r ∈ rows, FitsRow schema r) :
    ∃ temps runs, Returns (fun n => splitIntoRuns n B schema sortFields src) temps ∧
      Runs schema sortFields temps runs ∧ runs.flatten = rows := by
  cases rows with
  | nil => exact absurd rfl hne
  | cons r rest =>
    obtain ⟨src₁, hnext, -, hon, hrest⟩ := hsrc
    obtain ⟨hr, hfits⟩ := List.forall_mem_cons.mp hfits
    obtain ⟨temp, hnew, htemp⟩ := newTemp_dest hform
    have hstart : Runs schema sortFields [] [] := ⟨List.Forall₂.nil, by simp⟩
    obtain ⟨temps, runs, hloop, hruns, hflat⟩ :=
      splitLoop_returns hform hlisted hsort hrest hon hfits
      htemp (isRun_singleton hr) hstart
    have hloop' := Returns.diagonal
      (f := fun n m => splitLoop n B sortFields m src₁ temp.open []) hloop
    refine ⟨temps, runs, ?_, hruns, hflat⟩
    refine Returns.bind hreset (Returns.bind hnext (Returns.congr hloop' fun n => ?_))
    show (TempTable.new B schema >>= fun _ => _) = _
    rw [hnew]
    rfl

end Splitting

section Merging

variable {m : ℕ} {a₁ a₂ : Bool × OpenTable} {dest : OpenTable} {rows₁ rows₂ done : List Row}

/-- What is ahead in a run is ahead of the cursor, with the rows of the file fitting. -/
theorem Ahead.next {t : OpenTable} {r : Row} {rows : List Row} (h : Ahead schema true t (r :: rows))
    (hfits : ∀ r' ∈ rows, FitsRow schema r') :
    At schema t r ∧ Ahead schema t.next.1 t.next.2 rows := by
  rcases h with ⟨-, r', hrows, hat⟩ | ⟨hmore, -⟩
  · obtain ⟨rfl, rfl⟩ := List.cons.inj hrows
    exact ⟨hat, ahead_next hat.schema_eq hfits⟩
  · cases hmore

theorem Ahead.more {more : Bool} {t : OpenTable} {r : Row} {rows : List Row}
    (h : Ahead schema more t (r :: rows)) : more = true := by
  rcases h with ⟨hmore, -⟩ | ⟨-, hnil⟩
  · exact hmore
  · cases hnil

theorem Ahead.no_more {more : Bool} {t : OpenTable} (h : Ahead schema more t []) :
    more = false := by
  rcases h with ⟨-, r, hcons, -⟩ | ⟨hmore, -⟩
  · cases hcons
  · exact hmore

/-- The row of one of the runs is copied, and the other rows follow. -/
theorem mergeLoop_round {t : OpenTable} {r : Row} {b₁ b₂ : Bool × OpenTable} {rows : List Row}
    (hlisted : Listed schema) (hdest : Dest schema dest done) (hr : FitsRow schema r)
    (hat : At schema t r)
    (hround : ∀ n dest₁, copyRecord t.getValue dest = .ok dest₁ →
      mergeLoop sortFields (n + 1) a₁ a₂ dest = mergeLoop sortFields n b₁ b₂ dest₁)
    (hrest : ∀ {dest done}, Dest schema dest done →
      ∃ dest', Returns (fun n => mergeLoop sortFields n b₁ b₂ dest) dest' ∧
        Dest schema dest' (done ++ rows)) :
    ∃ dest', Returns (fun n => mergeLoop sortFields n a₁ a₂ dest) dest' ∧
      Dest schema dest' (done ++ r :: rows) := by
  obtain ⟨dest₁, hcopy, hdest₁, -⟩ := hdest.copyRecord hlisted hr (fun _ hF => hat.getValue hF)
  obtain ⟨dest', hloop, hdest'⟩ := hrest hdest₁
  refine ⟨dest', Returns.of_succ (hloop.congr fun n => hround n dest₁ hcopy), ?_⟩
  rw [List.append_cons]
  exact hdest'

/-- The rows of both runs are copied behind those of the result. -/
theorem mergeLoop_returns (hlisted : Listed schema)
    (hsort : ∀ F ∈ sortFields, schema.hasField F = true) (hm : rows₁.length + rows₂.length = m)
    (h₁ : Ahead schema a₁.1 a₁.2 rows₁) (h₂ : Ahead schema a₂.1 a₂.2 rows₂)
    (hfits₁ : ∀ r ∈ rows₁, FitsRow schema r) (hfits₂ : ∀ r ∈ rows₂, FitsRow schema r)
    (hdest : Dest schema dest done) :
    ∃ dest', Returns (fun n => mergeLoop sortFields n a₁ a₂ dest) dest' ∧
      Dest schema dest' (done ++ merged (sortKey sortFields) rows₁ rows₂) := by
  induction m generalizing a₁ a₂ dest rows₁ rows₂ done with
  | zero =>
    obtain rfl : rows₁ = [] := List.length_eq_zero_iff.mp (by omega)
    obtain rfl : rows₂ = [] := List.length_eq_zero_iff.mp (by omega)
    obtain ⟨more₁, t₁⟩ := a₁
    obtain ⟨more₂, t₂⟩ := a₂
    obtain rfl := h₁.no_more
    obtain rfl := h₂.no_more
    refine ⟨dest, Returns.of_succ (returns_of_forall fun n => rfl), ?_⟩
    rw [merged_nil_left, List.append_nil]
    exact hdest
  | succ m ih =>
    obtain ⟨more₁, t₁⟩ := a₁
    obtain ⟨more₂, t₂⟩ := a₂
    cases rows₁ with
    | nil =>
      obtain rfl := h₁.no_more
      cases rows₂ with
      | nil => cases hm
      | cons r rows =>
        obtain rfl := h₂.more
        obtain ⟨hr, hfits⟩ := List.forall_mem_cons.mp hfits₂
        obtain ⟨hat, hahead⟩ := h₂.next hfits
        rw [List.length_cons] at hm
        rw [merged_nil_cons]
        refine mergeLoop_round hlisted hdest hr hat (fun n dest₁ hcopy => ?_)
          (ih (by omega) h₁ hahead hfits₁ hfits)
        rw [mergeLoop, hcopy]
        rfl
    | cons r₁ rows =>
      obtain rfl := h₁.more
      obtain ⟨hr₁, hfits₁⟩ := List.forall_mem_cons.mp hfits₁
      obtain ⟨hat₁, hahead₁⟩ := h₁.next hfits₁
      rw [List.length_cons] at hm
      cases rows₂ with
      | nil =>
        obtain rfl := h₂.no_more
        rw [merged_cons_nil]
        refine mergeLoop_round hlisted hdest hr₁ hat₁ (fun n dest₁ hcopy => ?_)
          (ih (by omega) hahead₁ h₂ hfits₁ hfits₂)
        rw [mergeLoop, hcopy]
        rfl
      | cons r₂ rows' =>
        obtain rfl := h₂.more
        obtain ⟨hr₂, hfits⟩ := List.forall_mem_cons.mp hfits₂
        obtain ⟨hat₂, hahead₂⟩ := h₂.next hfits
        obtain ⟨c, hc, hlt⟩ := compare_at hsort hat₁ hat₂
        by_cases hless : sortKey sortFields r₁ < sortKey sortFields r₂
        · rw [merged_lt hless]
          refine mergeLoop_round hlisted hdest hr₁ hat₁ (fun n dest₁ hcopy => ?_)
            (ih (by omega) hahead₁ h₂ hfits₁ hfits₂)
          rw [mergeLoop, hc, ok_bind, if_pos (hlt.mpr hless), hcopy]
          rfl
        · rw [merged_not_lt hless]
          refine mergeLoop_round hlisted hdest hr₂ hat₂ (fun n dest₁ hcopy => ?_)
            (ih ?_ h₁ hahead₂ (List.forall_mem_cons.mpr ⟨hr₁, hfits₁⟩) hfits)
          · rw [mergeLoop, hc, ok_bind, if_neg (fun h => hless (hlt.mp h)), hcopy]
            rfl
          · rw [List.length_cons] at hm ⊢
            omega

theorem merged_isRun (h₁ : IsRun schema sortFields rows₁) (h₂ : IsRun schema sortFields rows₂) :
    IsRun schema sortFields (merged (sortKey sortFields) rows₁ rows₂) := by
  refine ⟨merged_sorted h₁.sorted h₂.sorted, ?_, ?_⟩
  · intro r hr
    rcases List.mem_append.mp (merged_perm.mem_iff.mp hr) with hr | hr
    · exact h₁.fits r hr
    · exact h₂.fits r hr
  · intro hnil
    have hperm : (merged (sortKey sortFields) rows₁ rows₂).Perm (rows₁ ++ rows₂) := merged_perm
    rw [hnil] at hperm
    exact h₁.nonempty (List.append_eq_nil_iff.mp hperm.symm.eq_nil).1

theorem mergeTwoRuns_returns (hform : UpdatePlanner.form B schema = some form)
    (hlisted : Listed schema)
    (hsort : ∀ F ∈ sortFields, schema.hasField F = true) {p₁ p₂ : TempTable}
    (h₁ : Holds schema p₁ rows₁) (h₂ : Holds schema p₂ rows₂)
    (hrun₁ : IsRun schema sortFields rows₁)
    (hrun₂ : IsRun schema sortFields rows₂) :
    ∃ t, Returns (fun n => mergeTwoRuns n B schema sortFields p₁ p₂) t ∧
      Holds schema t (merged (sortKey sortFields) rows₁ rows₂) := by
  obtain ⟨temp, hnew, htemp⟩ := newTemp_dest hform
  have hahead : ∀ {p rows}, Holds schema p rows → IsRun schema sortFields rows →
      Ahead schema p.open.next.1 p.open.next.2 rows := by
    intro p rows hp hrun
    have hahead := ahead_next (t := p.open) hp.schema_eq (by rw [hp.later]; exact hrun.fits)
    rwa [hp.later] at hahead
  obtain ⟨dest, hloop, hdest⟩ := mergeLoop_returns hlisted hsort rfl (hahead h₁ hrun₁)
    (hahead h₂ hrun₂) hrun₁.fits hrun₂.fits htemp
  refine ⟨tempTable dest, ?_, hdest.holds⟩
  unfold mergeTwoRuns
  rw [hnew]
  exact hloop.bind (returns_ok _)

theorem Runs.cons {temps : List TempTable} {runs : List (List Row)} {t : TempTable}
    {rows : List Row}
    (ht : Holds schema t rows) (hrun : IsRun schema sortFields rows)
    (h : Runs schema sortFields temps runs) : Runs schema sortFields (t :: temps) (rows :: runs) :=
  ⟨List.Forall₂.cons ht h.holds, List.forall_mem_cons.mpr ⟨hrun, h.isRun⟩⟩

/-- Runs are merged in pairs; one may be left. -/
theorem doAMergeIteration_returns (hform : UpdatePlanner.form B schema = some form)
    (hlisted : Listed schema) (hsort : ∀ F ∈ sortFields, schema.hasField F = true)
    {temps : List TempTable} {runs : List (List Row)} (h : Runs schema sortFields temps runs) :
    ∃ temps' runs', Returns (fun n => doAMergeIteration n B schema sortFields temps) temps' ∧
      Runs schema sortFields temps' runs' ∧ runs'.flatten.Perm runs.flatten ∧
        runs'.length = (runs.length + 1) / 2 := by
  induction temps using List.twoStepInduction generalizing runs with
  | nil =>
    obtain ⟨hholds, hrun⟩ := h
    cases hholds
    exact ⟨[], [], returns_of_forall fun n => rfl, ⟨.nil, hrun⟩, .refl _, rfl⟩
  | singleton p =>
    obtain ⟨hholds, hrun⟩ := h
    cases hholds with
    | cons hp hnil =>
      cases hnil
      refine ⟨[p], [_], returns_of_forall fun n => rfl, ⟨.cons hp .nil, hrun⟩, .refl _, ?_⟩
      rw [List.length_singleton]
  | cons_cons p₁ p₂ temps ih =>
    obtain ⟨hholds, hrun⟩ := h
    cases hholds with
    | cons h₁ hholds =>
      cases hholds with
      | cons h₂ hholds =>
        rename_i rows₁ rows₂ runs
        obtain ⟨hrun₁, hrun⟩ := List.forall_mem_cons.mp hrun
        obtain ⟨hrun₂, hrun⟩ := List.forall_mem_cons.mp hrun
        obtain ⟨temps', runs', hrest, hruns', hperm, hlength⟩ := ih ⟨hholds, hrun⟩
        obtain ⟨t, hmerge, ht⟩ := mergeTwoRuns_returns hform hlisted hsort h₁ h₂ hrun₁ hrun₂
        refine ⟨t :: temps', merged (sortKey sortFields) rows₁ rows₂ :: runs',
          hmerge.bind (hrest.bind (returns_ok _)),
            .cons ht (merged_isRun hrun₁ hrun₂) hruns', ?_, ?_⟩
        · rw [List.flatten_cons, List.flatten_cons, List.flatten_cons, ← List.append_assoc]
          exact merged_perm.append hperm
        · rw [List.length_cons, List.length_cons, List.length_cons, hlength]
          omega

theorem Runs.length_eq {temps : List TempTable} {runs : List (List Row)}
    (h : Runs schema sortFields temps runs) : temps.length = runs.length :=
  h.holds.length_eq

/-- Each iteration leaves fewer runs, until there are at most two. -/
theorem mergeRuns_returns (hform : UpdatePlanner.form B schema = some form)
    (hlisted : Listed schema)
    (hsort : ∀ F ∈ sortFields, schema.hasField F = true) {temps : List TempTable}
    {runs : List (List Row)} (h : Runs schema sortFields temps runs) (hne : runs ≠ []) :
    ∃ temps' runs', Returns (fun n : ℕ × ℕ => mergeRuns n.1 B schema sortFields n.2 temps) temps' ∧
      Runs schema sortFields temps' runs' ∧ runs'.flatten.Perm runs.flatten ∧ runs' ≠ [] ∧
        runs'.length ≤ 2 := by
  induction hm : runs.length using Nat.strong_induction_on generalizing temps runs with
  | _ m ih =>
    by_cases htwo : 2 < runs.length
    · obtain ⟨temps₁, runs₁, hiteration, hruns₁, hperm₁, hlength₁⟩ :=
        doAMergeIteration_returns hform hlisted hsort h
      have hne₁ : runs₁ ≠ [] := by
        rintro rfl
        rw [List.length_nil] at hlength₁
        omega
      obtain ⟨temps', runs', hloop, hruns', hperm, hne', hlength⟩ := ih runs₁.length (by omega)
        hruns₁ hne₁ rfl
      refine ⟨temps', runs', ?_, hruns', hperm.trans hperm₁, hne', hlength⟩
      refine Returns.of_inner (f := fun n m => mergeRuns n B schema sortFields m temps)
        ((hiteration.outer.bind hloop).congr fun n => ?_)
      rw [mergeRuns, if_pos (h.length_eq ▸ htwo)]
    · refine ⟨temps, runs, returns_of_forall fun n => ?_, h, .refl _, hne, not_lt.mp htwo⟩
      unfold mergeRuns
      rw [if_neg (h.length_eq ▸ htwo)]

end Merging

end SampleDB.ExternalSort
