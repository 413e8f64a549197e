import SampleDB.ExternalSort

/-!
The scan of a sort. Both runs are one record ahead, the current one apart, which has not gone on
yet; what the scan still yields is the merge of the rows that are ahead in the runs.
-/
namespace SampleDB.SortScans

open Lexer Schemas Statements Pages Blocks TableScans UpdatePlanner Scans Plans TypedTables Iterators Fuel
open SortedLists TableRows SortOrder ExternalSort

variable {schema : Schema} {sortFields : List Name}

section States

/-- The records of a table, which fit in its fields. -/
structure FitsTable (schema : Schema) (t : OpenTable) : Prop where
  schema_eq : t.schema = schema
  fits : ∀ slot ∈ t.ts.slots, slot.used = true → FitsRow schema slot.row

variable {t t' : OpenTable} {r : Row}

theorem FitsTable.same (h : FitsTable schema t) (hsame : SameFile t t') : FitsTable schema t' :=
  ⟨hsame.schema.trans h.schema_eq, by rw [hsame.slots]; exact h.fits⟩

theorem mem_later (h : r ∈ later t) : ∃ slot ∈ t.ts.slots, slot.used = true ∧ slot.row = r := by
  obtain ⟨⟨rid, row⟩, hp, rfl⟩ := List.mem_map.mp h
  obtain ⟨k, slot, hslot, hused, -, hrow⟩ := mem_recordsFrom.mp hp
  exact ⟨slot, List.mem_of_mem_drop (List.mem_of_getElem? hslot), hused, hrow.symm⟩

theorem FitsTable.later (h : FitsTable schema t) : ∀ r ∈ later t, FitsRow schema r := by
  intro r hr
  obtain ⟨slot, hslot, hused, rfl⟩ := mem_later hr
  exact h.fits slot hslot hused

theorem FitsTable.next (h : FitsTable schema t) : Ahead schema t.next.1 t.next.2
    (TableRows.later t) :=
  ahead_next h.schema_eq h.later

theorem FitsTable.next_at (h : FitsTable schema t) (hmore : t.next.1 = true) :
    ∃ r, At schema t.next.2 r := by
  rcases h.next with ⟨-, r, -, hat⟩ | ⟨hnone, -⟩
  · exact ⟨r, hat⟩
  · rw [hmore] at hnone
    cases hnone

/-- A scan of these two runs, at any place. -/
structure SortState (schema : Schema) (sortFields : List Name) (t₁ : OpenTable)
    (t₂ : Option OpenTable)
    (s : SortScan) : Prop where
  sortFields_eq : s.sortFields = sortFields
  same₁ : SameFile t₁ s.s₁
  same₂ : Option.Rel SameFile t₂ s.s₂
  on₁ : s.hasMore₁ = true → ∃ r, At schema s.s₁ r
  on₂ : s.hasMore₂ = true → ∃ t r, s.s₂ = some t ∧ At schema t r

variable {t₁ : OpenTable} {t₂ : Option OpenTable} {s s' : SortScan}

theorem rel_next {s₂ : Option OpenTable} (h : Option.Rel SameFile t₂ s₂) :
    Option.Rel SameFile t₂ (s₂.map (fun t => t.next.2)) := by
  cases h with
  | none => exact .none
  | some hsame => exact .some (hsame.trans (sameFile_next _))

theorem second_next {s₂ : Option OpenTable} (h : Option.Rel SameFile t₂ s₂)
    (hfits₂ : ∀ t ∈ t₂, FitsTable schema t) (hmore : s₂.elim false (fun t => t.next.1) = true) :
    ∃ t r, s₂.map (fun t => t.next.2) = some t ∧ At schema t r := by
  cases h with
  | none => cases hmore
  | some hsame =>
    obtain ⟨r, hat⟩ := ((hfits₂ _ rfl).same hsame).next_at hmore
    exact ⟨_, r, rfl, hat⟩

theorem SortState.advance (h : SortState schema sortFields t₁ t₂ s) (hfits₁ : FitsTable schema t₁)
    (hfits₂ : ∀ t ∈ t₂, FitsTable schema t) : SortState schema sortFields t₁ t₂ s.advance := by
  unfold SortScan.advance
  cases hcurrent : s.current with
  | none => exact h
  | some side =>
    cases side with
    | first =>
      exact ⟨h.sortFields_eq, h.same₁.trans (sameFile_next s.s₁), h.same₂,
        fun hmore => (hfits₁.same h.same₁).next_at hmore, h.on₂⟩
    | second =>
      exact ⟨h.sortFields_eq, h.same₁, rel_next h.same₂, h.on₁,
        fun hmore => second_next h.same₂ hfits₂ hmore⟩

theorem SortState.withCurrent (h : SortState schema sortFields t₁ t₂ s) (current : Option Side) :
    SortState schema sortFields t₁ t₂ { s with current := current } :=
  ⟨h.sortFields_eq, h.same₁, h.same₂, h.on₁, h.on₂⟩

/-- The current records of the runs are compared. -/
theorem SortState.smaller (h : SortState schema sortFields t₁ t₂ s)
    (hsort : ∀ F ∈ sortFields, schema.hasField F = true) {t : OpenTable} {r₁ r₂ : Row}
    (h₁ : At schema s.s₁ r₁) (hs₂ : s.s₂ = some t) (h₂ : At schema t r₂) :
    s.smaller = .ok (if sortKey sortFields r₁ <
      sortKey sortFields r₂ then .first else .second) := by
  obtain ⟨c, hc, hlt⟩ := compare_at hsort h₁ h₂
  unfold SortScan.smaller
  rw [hs₂]
  dsimp only
  rw [h.sortFields_eq, hc, ok_bind]
  by_cases hless : sortKey sortFields r₁ < sortKey sortFields r₂
  · rw [if_pos hless, if_pos (hlt.mpr hless)]
    rfl
  · rw [if_neg hless, if_neg (fun h => hless (hlt.mp h))]
    rfl

theorem choose_neither (h₁ : s.hasMore₁ = false) (h₂ : s.hasMore₂ = false) :
    s.choose = .ok (false, s) := by
  unfold SortScan.choose
  rw [h₁, h₂]

theorem choose_onlyFirst (h₁ : s.hasMore₁ = true) (h₂ : s.hasMore₂ = false) :
    s.choose = .ok (true, { s with current := some .first }) := by
  obtain ⟨sortFields, s₁, hasMore₁, s₂, hasMore₂, current⟩ := s
  cases h₁
  cases h₂
  rfl

theorem choose_onlySecond (h₁ : s.hasMore₁ = false) (h₂ : s.hasMore₂ = true) :
    s.choose = .ok (true, { s with current := some .second }) := by
  obtain ⟨sortFields, s₁, hasMore₁, s₂, hasMore₂, current⟩ := s
  cases h₁
  cases h₂
  rfl

theorem choose_both (h₁ : s.hasMore₁ = true) (h₂ : s.hasMore₂ = true) {side : Side}
    (hside : s.smaller = .ok side) : s.choose = .ok (true, { s with current := some side }) := by
  obtain ⟨sortFields, s₁, hasMore₁, s₂, hasMore₂, current⟩ := s
  cases h₁
  cases h₂
  unfold SortScan.choose
  dsimp only
  rw [hside]
  rfl

/-- `next` always answers. -/
theorem SortState.next (h : SortState schema sortFields t₁ t₂ s) (hfits₁ : FitsTable schema t₁)
    (hfits₂ : ∀ t ∈ t₂, FitsTable schema t) (hsort : ∀ F ∈ sortFields, schema.hasField F = true) :
    ∃ found s', s.next = .ok (found, s') ∧ SortState schema sortFields t₁ t₂ s' := by
  have hadvance := h.advance hfits₁ hfits₂
  unfold SortScan.next
  cases hmore₁ : s.advance.hasMore₁ with
  | false =>
    cases hmore₂ : s.advance.hasMore₂ with
    | false => exact ⟨_, _, choose_neither hmore₁ hmore₂, hadvance⟩
    | true => exact ⟨_, _, choose_onlySecond hmore₁ hmore₂, hadvance.withCurrent _⟩
  | true =>
    cases hmore₂ : s.advance.hasMore₂ with
    | false => exact ⟨_, _, choose_onlyFirst hmore₁ hmore₂, hadvance.withCurrent _⟩
    | true =>
      obtain ⟨r₁, h₁⟩ := hadvance.on₁ hmore₁
      obtain ⟨t, r₂, hs₂, h₂⟩ := hadvance.on₂ hmore₂
      exact ⟨_, _, choose_both hmore₁ hmore₂ (hadvance.smaller hsort h₁ hs₂ h₂),
        hadvance.withCurrent _⟩

end States

section Merging

variable {t₁ : OpenTable} {t₂ : Option OpenTable} {s : SortScan} {rows₁ rows₂ : List Row}

/-- The rows that are ahead in the second run, if there is one. -/
def AheadSecond (schema : Schema) (more : Bool) (s₂ : Option OpenTable) (rows : List Row) : Prop :=
  match s₂ with
  | some t => Ahead schema more t rows
  | none => more = false ∧ rows = []

/-- The rows that a scan still has in its runs, behind the current record. -/
structure Pending (schema : Schema) (s : SortScan) (rows₁ rows₂ : List Row) : Prop where
  first : Ahead schema s.advance.hasMore₁ s.advance.s₁ rows₁
  second : AheadSecond schema s.advance.hasMore₂ s.advance.s₂ rows₂
  fits₁ : ∀ r ∈ rows₁, FitsRow schema r
  fits₂ : ∀ r ∈ rows₂, FitsRow schema r

theorem AheadSecond.some {more : Bool} {s₂ : Option OpenTable} {r : Row} {rows : List Row}
    (h : AheadSecond schema more s₂ (r :: rows)) :
    ∃ t, s₂ = some t ∧ Ahead schema more t (r :: rows) := by
  cases s₂ with
  | none => cases h.2
  | some t => exact ⟨t, rfl, h⟩

theorem AheadSecond.no_more {more : Bool} {s₂ : Option OpenTable}
    (h : AheadSecond schema more s₂ []) :
    more = false := by
  cases s₂ with
  | none => exact h.1
  | some t => exact Ahead.no_more h

theorem shows_current {x : SortScan} {t : OpenTable} {r : Row} (hcurrent : x.currentScan = some t)
    (hat : At schema t r) : (scans schema).shows (.sort x) r := by
  intro F
  constructor
  · show x.hasField F = _
    unfold SortScan.hasField
    rw [hcurrent]
    exact congrArg (fun s : Schema => Except.ok (s.hasField F)) hat.schema_eq
  · intro hF
    show x.getValue F = _
    unfold SortScan.getValue
    rw [hcurrent]
    exact hat.getValue hF

/-- A record of the first run has been chosen. -/
theorem choose_first {r : Row} (h : Pending schema s (r :: rows₁) rows₂) :
    (scans schema).shows (.sort { s.advance with current := some .first }) r ∧
      Pending schema { s.advance with current := some .first } rows₁ rows₂ := by
  obtain ⟨hr, hfits⟩ := List.forall_mem_cons.mp h.fits₁
  have hmore := h.first.more
  have hfirst := h.first
  rw [hmore] at hfirst
  obtain ⟨hat, hahead⟩ := hfirst.next hfits
  exact ⟨shows_current rfl hat, hahead, h.second, hfits, h.fits₂⟩

theorem choose_second {r : Row} (h : Pending schema s rows₁ (r :: rows₂)) :
    (scans schema).shows (.sort { s.advance with current := some .second }) r ∧
      Pending schema { s.advance with current := some .second } rows₁ rows₂ := by
  obtain ⟨hr, hfits⟩ := List.forall_mem_cons.mp h.fits₂
  obtain ⟨t, hs₂, hsecond⟩ := h.second.some
  have hmore := hsecond.more
  rw [hmore] at hsecond
  obtain ⟨hat, hahead⟩ := hsecond.next hfits
  refine ⟨shows_current hs₂ hat, h.first, ?_, h.fits₁, hfits⟩
  show AheadSecond schema (s.advance.s₂.elim false _) (s.advance.s₂.map _) rows₂
  rw [hs₂]
  exact hahead

/-- The scans of these runs, at all places. -/
def SortStates (schema : Schema) (sortFields : List Name) (t₁ : OpenTable) (t₂ : Option OpenTable)
    (x : Scan) : Prop := ∃ s, x = .sort s ∧ SortState schema sortFields t₁ t₂ s

theorem sort_next {s : SortScan} {found : Bool} {s' : SortScan} (h : s.next = .ok (found, s')) :
    (scans schema).next (.sort s) found (.sort s') := by
  refine Returns.of_succ (returns_of_forall fun n => ?_)
  rw [Scan.next, h]
  rfl

theorem sort_emits (hfits₁ : FitsTable schema t₁) (hfits₂ : ∀ t ∈ t₂, FitsTable schema t)
    (hsort : ∀ F ∈ sortFields, schema.hasField F = true) {m : ℕ}
    (hm : rows₁.length + rows₂.length = m) (hstate : SortState schema sortFields t₁ t₂ s)
    (h : Pending schema s rows₁ rows₂) :
    (scans schema).Emits (SortStates schema sortFields t₁ t₂) (.sort s)
      (merged (sortKey sortFields) rows₁ rows₂) := by
  induction m generalizing s rows₁ rows₂ with
  | zero =>
    obtain rfl : rows₁ = [] := List.length_eq_zero_iff.mp (by omega)
    obtain rfl : rows₂ = [] := List.length_eq_zero_iff.mp (by omega)
    rw [merged_nil_left]
    exact ⟨_, sort_next (choose_neither h.first.no_more h.second.no_more), _, rfl,
      hstate.advance hfits₁ hfits₂⟩
  | succ m ih =>
    have hadvance := hstate.advance hfits₁ hfits₂
    -- one of the runs gives its row, and the other ones follow
    have hround : ∀ {side r rows₁' rows₂'},
      s.next = .ok (true, { s.advance with current := some side }) →
        (scans schema).shows (.sort { s.advance with current := some side }) r ∧
          Pending schema { s.advance with current := some side } rows₁' rows₂' →
        rows₁'.length + rows₂'.length = m →
        (scans schema).Emits (SortStates schema sortFields t₁ t₂) (.sort s)
          (r :: merged (sortKey sortFields) rows₁' rows₂') := by
      intro side r rows₁' rows₂' hnext ⟨hshows, hpending⟩ hm
      exact ⟨_, sort_next hnext, ⟨_, rfl, hadvance.withCurrent _⟩, hshows,
        ih hm (hadvance.withCurrent _) hpending⟩
    cases rows₁ with
    | nil =>
      cases rows₂ with
      | nil => cases hm
      | cons r rows =>
        obtain ⟨t, -, hahead⟩ := h.second.some
        have hnext := choose_onlySecond h.first.no_more hahead.more
        rw [merged_nil_cons]
        rw [List.length_cons] at hm
        exact hround hnext (choose_second h) (by omega)
    | cons r₁ rows =>
      rw [List.length_cons] at hm
      cases rows₂ with
      | nil =>
        have hnext := choose_onlyFirst h.first.more h.second.no_more
        rw [merged_cons_nil]
        exact hround hnext (choose_first h) (by omega)
      | cons r₂ rows' =>
        obtain ⟨t, hs₂, hahead⟩ := h.second.some
        have hat₁ := ((h.first.more ▸ h.first).next (List.forall_mem_cons.mp h.fits₁).2).1
        have hat₂ := ((hahead.more ▸ hahead).next (List.forall_mem_cons.mp h.fits₂).2).1
        have hside := hadvance.smaller hsort hat₁ hs₂ hat₂
        by_cases hless : sortKey sortFields r₁ < sortKey sortFields r₂
        · rw [if_pos hless] at hside
          rw [merged_lt hless]
          exact hround (choose_both h.first.more hahead.more hside) (choose_first h) (by omega)
        · rw [if_neg hless] at hside
          rw [merged_not_lt hless]
          rw [List.length_cons] at hm
          exact hround (choose_both h.first.more hahead.more hside) (choose_second h)
            (by rw [List.length_cons]; omega)

end Merging

section Restart

variable {t₁ : OpenTable} {t₂ : Option OpenTable} {s : SortScan}

/-- The rows of both runs. -/
def sortedRows (sortFields : List Name) (t₁ : OpenTable) (t₂ : Option OpenTable) : List Row :=
  merged (sortKey sortFields) (later t₁.beforeFirst) (t₂.elim [] (fun t => later t.beforeFirst))

theorem restart_state (hfits₁ : FitsTable schema t₁) (hfits₂ : ∀ t ∈ t₂, FitsTable schema t) :
    SortState schema sortFields t₁ t₂
      (.restart sortFields t₁.beforeFirst (t₂.map OpenTable.beforeFirst)) := by
  have hsame₂ : Option.Rel SameFile t₂ (t₂.map OpenTable.beforeFirst) := by
    cases t₂ with
    | none => exact .none
    | some t => exact .some (sameFile_beforeFirst t)
  refine ⟨rfl, (sameFile_beforeFirst t₁).trans (sameFile_next _), rel_next hsame₂, ?_, ?_⟩
  · exact (hfits₁.same (sameFile_beforeFirst t₁)).next_at
  · exact second_next hsame₂ hfits₂

theorem restart_pending (hfits₁ : FitsTable schema t₁) (hfits₂ : ∀ t ∈ t₂, FitsTable schema t) :
    Pending schema (.restart sortFields t₁.beforeFirst (t₂.map OpenTable.beforeFirst))
      (later t₁.beforeFirst) (t₂.elim [] (fun t => later t.beforeFirst)) := by
  have hfront := hfits₁.same (sameFile_beforeFirst t₁)
  refine ⟨hfront.next, ?_, hfront.later, ?_⟩
  · cases t₂ with
    | none => exact ⟨rfl, rfl⟩
    | some t => exact ((hfits₂ t rfl).same (sameFile_beforeFirst t)).next
  · cases t₂ with
    | none => exact fun r hr => by cases hr
    | some t => exact ((hfits₂ t rfl).same (sameFile_beforeFirst t)).later

theorem rel_beforeFirst {s₂ : Option OpenTable} (h : Option.Rel SameFile t₂ s₂) :
    s₂.map OpenTable.beforeFirst = t₂.map OpenTable.beforeFirst := by
  cases h with
  | none => rfl
  | some hsame => exact congrArg some hsame.beforeFirst_eq

theorem SortState.beforeFirst_eq (h : SortState schema sortFields t₁ t₂ s) :
    s.beforeFirst = .restart sortFields t₁.beforeFirst (t₂.map OpenTable.beforeFirst) := by
  unfold SortScan.beforeFirst
  rw [h.sortFields_eq, h.same₁.beforeFirst_eq, rel_beforeFirst h.same₂]

theorem restart_emits (hfits₁ : FitsTable schema t₁) (hfits₂ : ∀ t ∈ t₂, FitsTable schema t)
    (hsort : ∀ F ∈ sortFields, schema.hasField F = true) :
    (scans schema).Emits (SortStates schema sortFields t₁ t₂)
      (.sort (.restart sortFields t₁.beforeFirst (t₂.map OpenTable.beforeFirst)))
      (sortedRows sortFields t₁ t₂) :=
  sort_emits hfits₁ hfits₂ hsort rfl (restart_state hfits₁ hfits₂) (restart_pending hfits₁ hfits₂)

/-- From any place the runs have rows that are ahead. -/
theorem SortState.pending (h : SortState schema sortFields t₁ t₂ s) (hfits₁ : FitsTable schema t₁)
    (hfits₂ : ∀ t ∈ t₂, FitsTable schema t) : ∃ rows₁ rows₂, Pending schema s rows₁ rows₂ := by
  have hadvance := h.advance hfits₁ hfits₂
  have hfirst : ∃ rows, Ahead schema s.advance.hasMore₁ s.advance.s₁ rows ∧
      ∀ r ∈ rows, FitsRow schema r := by
    cases hmore : s.advance.hasMore₁ with
    | false => exact ⟨[], Or.inr ⟨rfl, rfl⟩, by simp⟩
    | true =>
      obtain ⟨r, hat⟩ := hadvance.on₁ hmore
      exact ⟨_, Or.inl ⟨rfl, r, rfl, hat⟩,
        List.forall_mem_cons.mpr ⟨hat.fits, (hfits₁.same hadvance.same₁).later⟩⟩
  have hsecond : ∃ rows, AheadSecond schema s.advance.hasMore₂ s.advance.s₂ rows ∧
      ∀ r ∈ rows, FitsRow schema r := by
    cases hmore : s.advance.hasMore₂ with
    | false =>
      refine ⟨[], ?_, by simp⟩
      cases s.advance.s₂ with
      | none => exact ⟨rfl, rfl⟩
      | some t => exact Or.inr ⟨rfl, rfl⟩
    | true =>
      obtain ⟨t, r, hs₂, hat⟩ := hadvance.on₂ hmore
      have hsame := hadvance.same₂
      rw [hs₂] at hsame ⊢
      cases hsame with
      | some hsame => exact ⟨_, Or.inl ⟨rfl, r, rfl, hat⟩,
          List.forall_mem_cons.mpr ⟨hat.fits, ((hfits₂ _ rfl).same hsame).later⟩⟩
  obtain ⟨rows₁, hahead₁, hrows₁⟩ := hfirst
  obtain ⟨rows₂, hahead₂, hrows₂⟩ := hsecond
  exact ⟨rows₁, rows₂, hahead₁, hahead₂, hrows₁, hrows₂⟩

end Restart

section Opening

variable {B : BlockSize} {form : Form Row}

theorem open_fits {t : TempTable} {rows : List Row} (h : Holds schema t rows)
    (hfits : ∀ r ∈ rows, FitsRow schema r) : FitsTable schema t.open := by
  obtain ⟨k, hslots⟩ := h.open_slots
  refine ⟨h.schema_eq, ?_⟩
  rw [hslots]
  intro slot hslot hused
  rcases List.mem_append.mp hslot with hslot | hslot
  · obtain ⟨r, hr, rfl⟩ := List.mem_map.mp hslot
    exact hfits r hr
  · rw [(List.mem_replicate.mp hslot).2] at hused
    cases hused

theorem open_beforeFirst (t : TempTable) : t.open.beforeFirst = t.open := rfl

/-- One run is left, or two. -/
theorem runs_cases {temps : List TempTable} {runs : List (List Row)}
    (h : Runs schema sortFields temps runs) (hne : runs ≠ []) (hlength : runs.length ≤ 2) :
    (∃ p rows, temps = [p] ∧ runs = [rows] ∧ Holds schema p rows ∧ IsRun schema sortFields rows) ∨
      ∃ p₁ p₂ rows₁ rows₂, temps = [p₁, p₂] ∧ runs = [rows₁, rows₂] ∧ Holds schema p₁ rows₁ ∧
        Holds schema p₂ rows₂ ∧ IsRun schema sortFields rows₁ ∧ IsRun schema sortFields rows₂ := by
  match temps, runs, h.holds, h.isRun with
  | _, [], _, _ => exact absurd rfl hne
  | [p], [rows], .cons hp .nil, hrun =>
    exact Or.inl ⟨p, rows, rfl, rfl, hp, hrun rows (List.mem_singleton_self rows)⟩
  | [p₁, p₂], [rows₁, rows₂], .cons h₁ (.cons h₂ .nil), hrun =>
    obtain ⟨hrun₁, hrun⟩ := List.forall_mem_cons.mp hrun
    exact Or.inr ⟨p₁, p₂, rows₁, rows₂, rfl, rfl, h₁, h₂, hrun₁,
      hrun rows₂ (List.mem_singleton_self rows₂)⟩
  | _, _ :: _ :: _ :: _, _, _ =>
    rw [List.length_cons, List.length_cons, List.length_cons] at hlength
    omega

theorem sortedRows_one {p : TempTable} {rows : List Row} (sortFields : List Name)
    (h : Holds schema p rows) :
    sortedRows sortFields p.open none = rows := by
  unfold sortedRows
  rw [open_beforeFirst, h.later]
  exact merged_nil_right

theorem sortedRows_two {p₁ p₂ : TempTable} {rows₁ rows₂ : List Row} (sortFields : List Name)
    (h₁ : Holds schema p₁ rows₁) (h₂ : Holds schema p₂ rows₂) : sortedRows sortFields p₁.open
    (some p₂.open) =
      merged (sortKey sortFields) rows₁ rows₂ := by
  unfold sortedRows
  rw [open_beforeFirst, h₁.later]
  show merged _ _ (later p₂.open) = _
  rw [h₂.later]

/-- What `SortPlan::open` opens. -/
theorem openSort_returns (hform : UpdatePlanner.form B schema = some form) (hlisted : Listed schema)
    (hsort : ∀ F ∈ sortFields, schema.hasField F = true) {I : Scan → Prop} {src src₀ : Scan}
    {rows : List Row} (hreset : (scans schema).reset src src₀)
    (hsrc : (scans schema).Emits I src₀ rows) (hne : rows ≠ [])
    (hfits : ∀ r ∈ rows, FitsRow schema r) :
    ∃ t₁ t₂, Returns (fun n => openSort n B schema sortFields src)
        (.restart sortFields t₁.beforeFirst (t₂.map OpenTable.beforeFirst)) ∧
      FitsTable schema t₁ ∧ (∀ t ∈ t₂, FitsTable schema t) ∧
      (sortedRows sortFields t₁ t₂).Perm rows ∧
        Sorted (sortKey sortFields) (sortedRows sortFields t₁ t₂) := by
  obtain ⟨temps, runs, hsplit, hruns, hflat⟩ :=
    splitIntoRuns_returns hform hlisted hsort hreset hsrc hne hfits
  have hrunsne : runs ≠ [] := by
    rintro rfl
    exact hne hflat.symm
  obtain ⟨temps', runs', hmerge, hruns', hperm, hne', hlength⟩ :=
    mergeRuns_returns hform hlisted hsort hruns hrunsne
  have hmerge' := Returns.diagonal (f := fun n m => mergeRuns n B schema sortFields m temps) hmerge
  rw [hflat] at hperm
  rcases runs_cases hruns' hne' hlength with
    ⟨p, rows', rfl, rfl, hp, hrun⟩ | ⟨p₁, p₂, rows₁, rows₂, rfl, rfl, h₁, h₂, hrun₁, hrun₂⟩
  · have hrows := sortedRows_one sortFields hp
    rw [List.flatten_singleton] at hperm
    refine ⟨p.open, none, hsplit.bind (hmerge'.bind (returns_ok _)),
      open_fits hp hrun.fits, by simp, ?_, ?_⟩
    · rw [hrows]
      exact hperm
    · rw [hrows]
      exact hrun.sorted
  · have hrows := sortedRows_two sortFields h₁ h₂
    rw [List.flatten_cons, List.flatten_singleton] at hperm
    refine ⟨p₁.open, some p₂.open, hsplit.bind (hmerge'.bind (returns_ok _)),
      open_fits h₁ hrun₁.fits, ?_, ?_, ?_⟩
    · intro t ht
      obtain rfl := Option.mem_some_iff.mp ht
      exact open_fits h₂ hrun₂.fits
    · rw [hrows]
      exact merged_perm.trans hperm
    · rw [hrows]
      exact merged_sorted hrun₁.sorted hrun₂.sorted

/-- A plan whose scan can be reset and gives these rows; they fit in the fields of the plan, and the
fields fit in a block. -/
structure HasRows (B : BlockSize) (db : Db) (p : Plan) (rows : List Row) : Prop where
  fits_block : ∃ form, UpdatePlanner.form B p.schema = some form
  listed : Listed p.schema
  opens : ∃ src src₀ I, Returns (fun n => Plan.open n B db p) src ∧
    (scans p.schema).reset src src₀ ∧
    (scans p.schema).Emits I src₀ rows
  fits : ∀ r ∈ rows, FitsRow p.schema r

theorem HasRows.openSort {db : Db} {p : Plan} {rows : List Row} (h : HasRows B db p rows)
    (hne : rows ≠ []) (hsort : ∀ F ∈ sortFields, p.schema.hasField F = true) :
    ∃ src t₁ t₂, Returns (fun n => Plan.open n B db p) src ∧
      Returns (fun n => openSort n B p.schema sortFields src)
        (.restart sortFields t₁.beforeFirst (t₂.map OpenTable.beforeFirst)) ∧
      FitsTable p.schema t₁ ∧ (∀ t ∈ t₂, FitsTable p.schema t) ∧
      (sortedRows sortFields t₁ t₂).Perm rows ∧
      Sorted (sortKey sortFields) (sortedRows sortFields t₁ t₂) := by
  obtain ⟨⟨form, hform⟩, hlisted, ⟨src, src₀, I, hopen, hreset, hsrc⟩, hfits⟩ := h
  obtain ⟨t₁, t₂, hreturns⟩ := openSort_returns hform hlisted hsort hreset hsrc hne hfits
  exact ⟨src, t₁, t₂, hopen, hreturns⟩

end Opening

section Examples

/-- A block has room for four slots of an integer. -/
def narrowBlock : BlockSize := ⟨32, by decide, by decide⟩

def numberSchema (F : Name) : Schema := Schema.empty.addIntField F

def numberRow (F : Name) (n : Int32) : Row := fun F' => if F' = F then .ofInt n else .null

def numberForm (F : Name) : Form Row := ⟨4, Nat.succ_pos 3, blankRow (numberSchema F)⟩

theorem slotSize_number (F : Name) : slotSize (numberSchema F) = 8 := by
  show 4 + ([F].map (lengthInBytes (numberSchema F))).sum = 8
  unfold lengthInBytes
  rw [List.map_singleton,
    show (numberSchema F).fieldInfo F = _ from Schema.addField_info_self _ _ _]
  rfl

theorem form_number (F : Name) :
    UpdatePlanner.form narrowBlock (numberSchema F) = some (numberForm F) := by
  unfold UpdatePlanner.form
  simp only [slotSize_number]
  rfl

/-- A table of numbers. -/
def numbers (F : Name) (ns : List Int32) : TempTable :=
  ⟨numberSchema F, numberForm F, ns.map (fun n => ⟨true, numberRow F n⟩)⟩

theorem numberRow_fits (F : Name) (n : Int32) : FitsRow (numberSchema F) (numberRow F n) := by
  have hinfo : ∀ F' info, (numberSchema F).fieldInfo F' = some info →
      numberRow F n F' = .ofInt n ∧ info.type = .integer := by
    intro F' info h
    by_cases heq : F' = F
    · rw [heq] at h ⊢
      rw [show (numberSchema F).fieldInfo F = _ from Schema.addField_info_self _ _ _] at h
      cases h
      exact ⟨if_pos rfl, rfl⟩
    · rw [show (numberSchema F).fieldInfo F' = _ from Schema.addField_info_ne _ _ heq] at h
      cases h
  refine ⟨?_, ?_, ?_⟩
  · intro F' info h
    obtain ⟨hrow, htype⟩ := hinfo F' info h
    rw [hrow, htype]
    exact ⟨n, rfl⟩
  · intro F' info s h hs
    rw [(hinfo F' info h).1] at hs
    cases hs
  · intro F' h
    by_cases heq : F' = F
    · rw [heq, show (numberSchema F).fieldInfo F = _ from Schema.addField_info_self _ _ _] at h
      cases h
    · exact if_neg heq

theorem numbers_holds (F : Name) (ns : List Int32) :
    Holds (numberSchema F) (numbers F ns) (ns.map (numberRow F)) := by
  refine ⟨rfl, rfl, 0, ?_⟩
  unfold block
  rw [List.map_map, List.replicate_zero, List.append_nil]
  rfl

/-- The table of numbers in a database. -/
def numbersDb (F : Name) (ns : List Int32) : Db :=
  { Db.empty with tables := fun _ => some ⟨.empty, numberForm F, (numbers F ns).slots, rfl⟩ }

def numbersPlan (F : Name) : Plan := .table F (some ⟨numberSchema F, numberForm F⟩)

theorem numbers_fit (F : Name) (ns : List Int32) :
    ∀ r ∈ ns.map (numberRow F), FitsRow (numberSchema F) r := by
  intro r hr
  obtain ⟨n, -, rfl⟩ := List.mem_map.mp hr
  exact numberRow_fits F n

theorem numbers_hasRows (F : Name) (ns : List Int32) :
    HasRows narrowBlock (numbersDb F ns) (numbersPlan F) (ns.map (numberRow F)) := by
  obtain ⟨src₀, hreset, -, hsrc⟩ := (table_source (numbers F ns).open).restarts _ ⟨_, rfl, .refl _⟩
  rw [open_beforeFirst, (numbers_holds F ns).later] at hsrc
  exact ⟨⟨_, form_number F⟩, listed_addField listed_empty _ _,
    ⟨_, src₀, _, returns_of_forall fun _ => rfl, hreset, hsrc⟩, numbers_fit F ns⟩

theorem sortField_number : ∀ F ∈ [['a']], (numberSchema ['a']).hasField F = true := by decide

end Examples

end SampleDB.SortScans
