import SampleDB.Products

/-!
What scans answer behind their end. A table scan that has come to its end stands in front of the
last block of its file, so that the records of this block are given again. The other scans
hand this on: a selection where one of these records satisfies its predicate, a sort where they are
in the run that the last record came from. A product begins again whenever its right side
has a record.
-/
namespace SampleDB.ExhaustedScans

open Lexer Schemas Statements Pages Blocks TableScans UpdatePlanner Scans Plans Iterators Fuel TableRows
open SortScans Products

/-- The calls of a scan. -/
abbrev calls : Iterator Scan Row := scans .empty

/-- The calls of a table scan. -/
def tableCalls : Iterator OpenTable Row where
  next t found t' := t.next = (found, t')
  reset t t' := t.beforeFirst = t'
  shows t r := TableRows.On t r

section States

/-- The cursor at a place of the file. -/
def at' (t : OpenTable) (i : ℕ) : OpenTable := { t with ts := t.ts.moveTo t.form i }

def lastBlock (t : OpenTable) : ℕ := t.ts.slots.length / t.form.perBlock - 1

/-- Where the cursor is left at the end of the file. -/
def ended (t : OpenTable) : OpenTable :=
  { t with ts := { t.ts with block := lastBlock t, slot := none } }

/-- The cursor is on a record. -/
def OnRecord (t : OpenTable) : Prop :=
  ∃ i slot, t.ts.current t.form = some i ∧ t.ts.slots[i]? = some slot ∧ slot.used = true

/-- A cursor on a record of the last block. -/
def LateIn (t t' : OpenTable) : Prop :=
  ∃ i slot, lastBlock t * t.form.perBlock ≤ i ∧ t.ts.slots[i]? = some slot ∧ slot.used = true ∧
    t' = at' t i

/-- The run of a side. -/
def run (s : SortScan) : Side → Option OpenTable
  | .first => some s.s₁
  | .second => s.s₂

/-- A run at another place. -/
def put (s : SortScan) (side : Side) (t : OpenTable) (more : Bool) : SortScan :=
  match side with
  | .first => { s with s₁ := t, hasMore₁ := more }
  | .second => { s with s₂ := some t, hasMore₂ := more }

/-- Two states of one scan. -/
def Same : Scan → Scan → Prop
  | .table t, .table t' => SameFile t t'
  | .select s pred, .select s' pred' => pred' = pred ∧ Same s s'
  | .project s fields, .project s' fields' => fields' = fields ∧ Same s s'
  | .product s₁ s₂, .product s₁' s₂' => Same s₁ s₁' ∧ Same s₂ s₂'
  | .sort s, .sort s' =>
      s'.sortFields = s.sortFields ∧ SameFile s.s₁ s'.s₁ ∧ Option.Rel SameFile s.s₂ s'.s₂
  | _, _ => False

/-- Where a run of a sort is said to have more, it is on a record. There is no grouping. -/
def Valid : Scan → Prop
  | .table _ => True
  | .select s _ => Valid s
  | .project s _ => Valid s
  | .product s₁ s₂ => Valid s₁ ∧ Valid s₂
  | .sort s => (s.hasMore₁ = true → OnRecord s.s₁) ∧
      (s.hasMore₂ = true → ∃ t, s.s₂ = some t ∧ OnRecord t)
  | .groupBy .. => False

/-- The scan is on a record, by the tables that it reads from; a product by its right side. -/
def On : Scan → Prop
  | .table t => OnRecord t
  | .select s pred => On s ∧ satisfies s.getValue pred = .ok true
  | .project s _ => On s
  | .product _ s₂ => On s₂
  | .sort s => ∃ t, s.currentScan = some t ∧ OnRecord t
  | .groupBy .. => False

/-- On no record of the scan a predicate or a comparison fails. -/
def Clean : Scan → Prop
  | .table _ => True
  | .select s pred => Clean s ∧ ∀ x, Same s x → On x → ∃ b, satisfies x.getValue pred = .ok b
  | .project s _ => Clean s
  | .product s₁ s₂ => Clean s₁ ∧ Clean s₂
  | .sort s => ∀ t t₁ t₂, s.s₂ = some t → SameFile s.s₁ t₁ → SameFile t t₂ → OnRecord t₁ →
      OnRecord t₂ → ∃ c, compare t₁.getValue t₂.getValue s.sortFields = .ok c
  | .groupBy .. => False

/-- The scan has no record at all. -/
def Empty (s : Scan) : Prop := ∀ x, Same s x → ¬ On x

/-- Where a scan that has come to its end finds records again: in the last block of a table, and of
the run that a sort read last. -/
def Again : Scan → Scan → Prop
  | .table t, .table t' => LateIn t t'
  | .select s pred, .select x pred' =>
    pred' = pred ∧ Again s x ∧ satisfies x.getValue pred = .ok true
  | .project s fields, .project x fields' => fields' = fields ∧ Again s x
  | .sort s, .sort x => ∃ side t t', s.current = some side ∧ run s side = some t ∧ LateIn t t' ∧
      x = put s side t' true
  | _, _ => False

/-- What a scan that has come to its end does again does not fail; the right side of a product has no
record. -/
def Answers : Scan → Prop
  | .table _ => True
  | .select s pred => Answers s ∧ ∀ x, Again s x → ∃ b, satisfies x.getValue pred = .ok b
  | .project s _ => Answers s
  | .product s₁ s₂ => Clean s₁ ∧ Clean s₂ ∧ Empty s₂
  | .sort _ => True
  | .groupBy .. => False

end States

section Tables

variable {t t' : OpenTable} {i : ℕ}

theorem search_none (h : search t.ts.slots i true = none) {j : ℕ} {slot : Slot Row} (hj : i ≤ j)
    (hslot : t.ts.slots[j]? = some slot) : slot.used = false := by
  unfold search at h
  rw [Option.map_eq_none_iff, List.findIdx?_eq_none_iff] at h
  have hmem : slot ∈ t.ts.slots.drop i := by
    refine List.mem_of_getElem? (i := j - i) ?_
    rw [List.getElem?_drop, Nat.add_sub_of_le hj]
    exact hslot
  exact Bool.eq_false_iff.mpr (of_decide_eq_false (h slot hmem))

theorem search_first {k : ℕ} (h : search t.ts.slots i true = some k) {j : ℕ} {slot : Slot Row}
    (hj : i ≤ j) (hjk : j < k) (hslot : t.ts.slots[j]? = some slot) : slot.used = false := by
  unfold search at h
  obtain ⟨m, hm, rfl⟩ := Option.map_eq_some_iff.mp h
  obtain ⟨hlt, -, hfirst⟩ := List.findIdx?_eq_some_iff_getElem.mp hm
  have hother := hfirst (j - i) (by omega)
  have hget : (t.ts.slots.drop i)[j - i]? = some slot := by
    rw [List.getElem?_drop, Nat.add_sub_of_le hj]
    exact hslot
  obtain ⟨hlt', heq⟩ := List.getElem?_eq_some_iff.mp hget
  rw [heq] at hother
  exact Bool.eq_false_iff.mpr (of_decide_eq_false (Bool.eq_false_iff.mpr hother))

theorem next_of_search (h : search t.ts.slots (t.ts.start t.form) true = some i) :
    t.next = (true, at' t i) := by
  unfold OpenTable.next TableScan.next
  rw [h]
  rfl

theorem next_of_none (h : search t.ts.slots (t.ts.start t.form) true = none) :
    t.next = (false, ended t) := by
  unfold OpenTable.next TableScan.next
  rw [h]
  rfl

theorem onRecord_at {slot : Slot Row} (hslot : t.ts.slots[i]? = some slot)
    (hused : slot.used = true) :
    OnRecord (at' t i) := ⟨i, slot, current_moveTo t.form t.ts i, hslot, hused⟩

theorem next_onRecord (h : t.next.1 = true) : OnRecord t.next.2 := by
  cases hsearch : search t.ts.slots (t.ts.start t.form) true with
  | some i =>
    obtain ⟨-, slot, hslot, hused⟩ := search_eq_some hsearch
    rw [next_of_search hsearch]
    exact onRecord_at hslot hused
  | none =>
    rw [next_of_none hsearch] at h
    cases h

theorem next_ended (h : t.next.1 = false) : t.next.2 = ended t := by
  cases hsearch : search t.ts.slots (t.ts.start t.form) true with
  | some i =>
    rw [next_of_search hsearch] at h
    cases h
  | none => rw [next_of_none hsearch]

/-- A table scan goes through the records behind its cursor. -/
theorem table_passes (t : OpenTable) : ∃ xs, tableCalls.Passes t xs (ended t) ∧
    ∀ x, x ∈ xs ↔ ∃ i slot, t.ts.start t.form ≤ i ∧ t.ts.slots[i]? = some slot ∧ slot.used = true ∧
      x = at' t i := by
  obtain ⟨m, hm⟩ : ∃ m, t.ts.slots.length ≤ t.ts.start t.form + m :=
    ⟨t.ts.slots.length, Nat.le_add_left _ _⟩
  induction m generalizing t with
  | zero =>
    have hnone : search t.ts.slots (t.ts.start t.form) true = none := search_end hm
    refine ⟨[], .done (next_of_none hnone), fun x => ⟨fun hx => (nomatch hx), ?_⟩⟩
    rintro ⟨i, slot, hi, hslot, hused, -⟩
    rw [search_none hnone hi hslot] at hused
    cases hused
  | succ m ih =>
    cases hsearch : search t.ts.slots (t.ts.start t.form) true with
    | none =>
      refine ⟨[], .done (next_of_none hsearch), fun x => ⟨fun hx => (nomatch hx), ?_⟩⟩
      rintro ⟨i, slot, hi, hslot, hused, -⟩
      rw [search_none hsearch hi hslot] at hused
      cases hused
    | some k =>
      obtain ⟨hk, slot, hslot, hused⟩ := search_eq_some hsearch
      have hstart : (at' t k).ts.start (at' t k).form = k + 1 := start_moveTo t.form t.ts k
      have hslots : (at' t k).ts.slots = t.ts.slots := rfl
      obtain ⟨xs, hpass, hmem⟩ := ih (at' t k) (by rw [hstart, hslots]; omega)
      refine ⟨at' t k :: xs, .more (next_of_search hsearch) hpass, fun x => ?_⟩
      rw [List.mem_cons, hmem, hstart]
      constructor
      · rintro (rfl | ⟨i, slot', hi, hslot', hused', rfl⟩)
        · exact ⟨k, slot, hk, hslot, hused, rfl⟩
        · exact ⟨i, slot', by omega, hslot', hused', rfl⟩
      · rintro ⟨i, slot', hi, hslot', hused', rfl⟩
        rcases Nat.lt_trichotomy i k with hlt | rfl | hgt
        · rw [search_first hsearch hi hlt hslot'] at hused'
          cases hused'
        · exact Or.inl rfl
        · exact Or.inr ⟨i, slot', by omega, hslot', hused', rfl⟩

/-- At the end it goes through the records of the last block again. -/
theorem ended_passes (t : OpenTable) : ∃ xs, tableCalls.Passes (ended t) xs (ended t) ∧
    ∀ x, x ∈ xs ↔ LateIn (ended t) x := by
  obtain ⟨xs, hpass, hmem⟩ := table_passes (ended t)
  exact ⟨xs, hpass, hmem⟩

theorem sameFile_at (t : OpenTable) (i : ℕ) : SameFile t (at' t i) := ⟨rfl, rfl, rfl⟩

theorem sameFile_ended (t : OpenTable) : SameFile t (ended t) := ⟨rfl, rfl, rfl⟩

theorem tableCalls_walks (t : OpenTable) : tableCalls.Walks (SameFile t) OnRecord := by
  constructor
  · exact fun t' ht' => ⟨_, rfl, ht'.trans (sameFile_beforeFirst t')⟩
  · intro t' ht'
    obtain ⟨xs, hpass, hmem⟩ := table_passes t'
    refine ⟨xs, ended t', hpass, fun x hx => ?_, ht'.trans (sameFile_ended t')⟩
    obtain ⟨i, slot, -, hslot, hused, rfl⟩ := (hmem x).mp hx
    exact ⟨ht'.trans (sameFile_at t' i), onRecord_at hslot hused⟩

end Tables

section Shapes

variable {s s₁ s₂ x : Scan}

theorem same_table {t : OpenTable} (h : Same (.table t) x) :
    ∃ t', x = .table t' ∧ SameFile t t' := by
  cases x with
  | table t' => exact ⟨t', rfl, h⟩
  | _ => cases h

theorem same_select {pred : Predicate} (h : Same (.select s pred) x) :
    ∃ s', x = .select s' pred ∧ Same s s' := by
  cases x with
  | select s' pred' =>
    obtain ⟨rfl, h⟩ := h
    exact ⟨s', rfl, h⟩
  | _ => cases h

theorem same_project {fields : List Name} (h : Same (.project s fields) x) :
    ∃ s', x = .project s' fields ∧ Same s s' := by
  cases x with
  | project s' fields' =>
    obtain ⟨rfl, h⟩ := h
    exact ⟨s', rfl, h⟩
  | _ => cases h

theorem same_product (h : Same (.product s₁ s₂) x) :
    ∃ x₁ x₂, x = .product x₁ x₂ ∧ Same s₁ x₁ ∧ Same s₂ x₂ := by
  cases x with
  | product x₁ x₂ => exact ⟨x₁, x₂, rfl, h⟩
  | _ => cases h

theorem same_sort {s : SortScan} (h : Same (.sort s) x) : ∃ s', x = .sort s' := by
  cases x with
  | sort s' => exact ⟨s', rfl⟩
  | _ => cases h

end Shapes

section Sorts

variable {s s' s₀ : SortScan} {t t' : OpenTable} {found : Bool}

/-- How many records a run has ahead, with the current one. -/
def ahead (more : Bool) (t : OpenTable) : ℕ := if more then (later t).length + 1 else 0

theorem ahead_next (t : OpenTable) : ahead t.next.1 t.next.2 = (later t).length := by
  unfold ahead
  rcases next_cases t with ⟨r, hmore, hlater, -⟩ | ⟨hmore, hlater⟩
  · rw [if_pos hmore, hlater]
    rfl
  · rw [hmore, hlater]
    rfl

def aheadSecond (more : Bool) (s₂ : Option OpenTable) : ℕ := s₂.elim 0 (ahead more)

/-- How many records a sort has still to give. -/
def remaining (s : SortScan) : ℕ :=
  ahead s.advance.hasMore₁ s.advance.s₁ + aheadSecond s.advance.hasMore₂ s.advance.s₂

theorem remaining_first (h : s.advance.hasMore₁ = true) :
    remaining { s.advance with current := some .first } < remaining s := by
  have hahead : ahead s.advance.hasMore₁ s.advance.s₁ = (later s.advance.s₁).length + 1 := if_pos h
  have hnext := ahead_next s.advance.s₁
  show ahead s.advance.s₁.next.1 s.advance.s₁.next.2 + _ < ahead _ _ + _
  rw [hahead, hnext]
  exact Nat.add_lt_add_right (Nat.lt_succ_self _) _

theorem remaining_second {t : OpenTable} (h : s.advance.hasMore₂ = true)
    (hs₂ : s.advance.s₂ = some t) :
    remaining { s.advance with current := some .second } < remaining s := by
  have hnext := ahead_next t
  show _ + aheadSecond (s.advance.s₂.elim false (fun t => t.next.1))
    (s.advance.s₂.map (fun t => t.next.2)) < _ + aheadSecond s.advance.hasMore₂ s.advance.s₂
  rw [hs₂, h]
  show _ + ahead t.next.1 t.next.2 < _ + ((later t).length + 1)
  rw [hnext]
  exact Nat.add_lt_add_left (Nat.lt_succ_self _) _

theorem sort_same_advance (h : Same (.sort s₀) (.sort s)) : Same (.sort s₀) (.sort s.advance) := by
  obtain ⟨hfields, h₁, h₂⟩ := h
  unfold SortScan.advance
  cases hcurrent : s.current with
  | none => exact ⟨hfields, h₁, h₂⟩
  | some side =>
    cases side with
    | first => exact ⟨hfields, h₁.trans (sameFile_next s.s₁), h₂⟩
    | second => exact ⟨hfields, h₁, rel_next h₂⟩

theorem sort_valid_advance (h : Valid (.sort s)) : Valid (.sort s.advance) := by
  obtain ⟨h₁, h₂⟩ := h
  unfold SortScan.advance
  cases hcurrent : s.current with
  | none => exact ⟨h₁, h₂⟩
  | some side =>
    cases side with
    | first => exact ⟨next_onRecord, h₂⟩
    | second =>
      refine ⟨h₁, fun hmore => ?_⟩
      have hmore : s.s₂.elim false (fun t => t.next.1) = true := hmore
      show ∃ t, s.s₂.map (fun t => t.next.2) = some t ∧ OnRecord t
      cases hs₂ : s.s₂ with
      | none =>
        rw [hs₂] at hmore
        cases hmore
      | some t =>
        rw [hs₂] at hmore
        exact ⟨_, rfl, next_onRecord hmore⟩

theorem rel_some {s₂ : Option OpenTable} (h : Option.Rel SameFile s₂ (some t)) :
    ∃ t₀, s₂ = some t₀ ∧ SameFile t₀ t := by
  cases h with
  | some hfile => exact ⟨_, rfl, hfile⟩

theorem rel_front {s₂ s₂' : Option OpenTable} (h : Option.Rel SameFile s₂ s₂') :
    Option.Rel SameFile s₂ (s₂'.map OpenTable.beforeFirst) := by
  cases h with
  | none => exact .none
  | some hfile => exact .some (hfile.trans (sameFile_beforeFirst _))

/-- A comparison is made of two records of the runs. -/
theorem sort_smaller (hclean : Clean (.sort s₀)) (hsame : Same (.sort s₀) (.sort s))
    (hvalid : Valid (.sort s)) (h₁ : s.hasMore₁ = true) (h₂ : s.hasMore₂ = true) :
    ∃ side, s.smaller = .ok side := by
  obtain ⟨hfields, hs₁, hs₂⟩ := hsame
  obtain ⟨t, ht, hon⟩ := hvalid.2 h₂
  rw [ht] at hs₂
  obtain ⟨t₀, ht₀, hfile⟩ := rel_some hs₂
  obtain ⟨c, hc⟩ := hclean t₀ s.s₁ t ht₀ hs₁ hfile (hvalid.1 h₁) hon
  refine ⟨if c < 0 then .first else .second, ?_⟩
  unfold SortScan.smaller
  rw [ht]
  dsimp only
  rw [hfields, hc]
  rfl

/-- A sort gives a record of one of its runs, or both runs have come to their end. -/
theorem sort_step (hclean : Clean (.sort s₀)) (hsame : Same (.sort s₀) (.sort s))
    (hvalid : Valid (.sort s)) :
    (∃ s', s.next = .ok (true, s') ∧ Same (.sort s₀) (.sort s') ∧ Valid (.sort s') ∧ On (.sort s') ∧
      remaining s' < remaining s) ∨
    (s.next = .ok (false, s.advance) ∧ Same (.sort s₀) (.sort s.advance) ∧
      Valid (.sort s.advance)) := by
  have hsame' := sort_same_advance hsame
  have hvalid' := sort_valid_advance hvalid
  have hfirst : s.advance.hasMore₁ = true →
      s.advance.choose = .ok (true, { s.advance with current := some .first }) →
      ∃ s', s.next = .ok (true, s') ∧ Same (.sort s₀) (.sort s') ∧ Valid (.sort s') ∧
        On (.sort s') ∧
        remaining s' < remaining s :=
    fun hmore hchoose => ⟨_, hchoose, hsame', hvalid',
      ⟨_, rfl, hvalid'.1 hmore⟩, remaining_first hmore⟩
  have hsecond : s.advance.hasMore₂ = true →
      s.advance.choose = .ok (true, { s.advance with current := some .second }) →
      ∃ s', s.next = .ok (true, s') ∧ Same (.sort s₀) (.sort s') ∧ Valid (.sort s') ∧
        On (.sort s') ∧
        remaining s' < remaining s := by
    intro hmore hchoose
    obtain ⟨t, ht, hon⟩ := hvalid'.2 hmore
    exact ⟨_, hchoose, hsame', hvalid', ⟨t, ht, hon⟩, remaining_second hmore ht⟩
  cases h₁ : s.advance.hasMore₁ with
  | false =>
    cases h₂ : s.advance.hasMore₂ with
    | false => exact Or.inr ⟨choose_neither h₁ h₂, hsame', hvalid'⟩
    | true => exact Or.inl (hsecond h₂ (choose_onlySecond h₁ h₂))
  | true =>
    cases h₂ : s.advance.hasMore₂ with
    | false => exact Or.inl (hfirst h₁ (choose_onlyFirst h₁ h₂))
    | true =>
      obtain ⟨side, hside⟩ := sort_smaller hclean hsame' hvalid' h₁ h₂
      cases side with
      | first => exact Or.inl (hfirst h₁ (choose_both h₁ h₂ hside))
      | second => exact Or.inl (hsecond h₂ (choose_both h₁ h₂ hside))

theorem sort_calls (h : s.next = .ok (found, s')) : calls.next (.sort s) found (.sort s') :=
  sort_next h

theorem restart_valid (sortFields : List Name) (t : OpenTable) (t₂ : Option OpenTable) :
    Valid (.sort (.restart sortFields t t₂)) := by
  refine ⟨next_onRecord, fun hmore => ?_⟩
  cases t₂ with
  | none => cases hmore
  | some t' => exact ⟨_, rfl, next_onRecord hmore⟩

theorem sort_same_beforeFirst (h : Same (.sort s₀) (.sort s)) :
    Same (.sort s₀) (.sort s.beforeFirst) := by
  obtain ⟨hfields, h₁, h₂⟩ := h
  exact ⟨hfields, h₁.trans ((sameFile_beforeFirst s.s₁).trans (sameFile_next _)),
    rel_next (rel_front h₂)⟩

theorem sort_walks (hclean : Clean (.sort s₀)) :
    calls.Walks (fun x => Same (.sort s₀) x ∧ Valid x) On := by
  constructor
  · rintro x ⟨hsame, -⟩
    obtain ⟨s, rfl⟩ := same_sort hsame
    exact ⟨.sort s.beforeFirst, returns_of_forall fun _ => rfl, sort_same_beforeFirst hsame,
      restart_valid _ _ _⟩
  · rintro x ⟨hsame, hvalid⟩
    obtain ⟨s, rfl⟩ := same_sort hsame
    obtain ⟨m, hm⟩ : ∃ m, remaining s ≤ m := ⟨_, Nat.le_refl _⟩
    induction m generalizing s with
    | zero =>
      obtain ⟨s', -, -, -, -, hlt⟩ | ⟨hnext, hrest⟩ := sort_step hclean hsame hvalid
      · omega
      · exact ⟨[], _, .done (sort_calls hnext), fun x hx => (nomatch hx), hrest⟩
    | succ m ih =>
      obtain ⟨s', hnext, hsame', hvalid', hon, hlt⟩ | ⟨hnext, hrest⟩ :=
        sort_step hclean hsame hvalid
      · obtain ⟨xs, e, hpass, hxs, he⟩ := ih s' hsame' hvalid' (by omega)
        exact ⟨_ :: xs, e, .more (sort_calls hnext) hpass,
          List.forall_mem_cons.mpr ⟨⟨⟨hsame', hvalid'⟩, hon⟩, hxs⟩, he⟩
      · exact ⟨[], _, .done (sort_calls hnext), fun x hx => (nomatch hx), hrest⟩

end Sorts

section Trees

variable {s s' s₁ s₂ x : Scan} {pred : Predicate} {fields : List Name} {found : Bool}

theorem table_calls {t t' : OpenTable} (h : t.next = (found, t')) :
    calls.next (.table t) found (.table t') := by
  refine Returns.of_succ (returns_of_forall fun n => ?_)
  rw [Scan.next, h]

theorem calls_eventually (h : calls.next s found s') :
    ∃ N, ∀ n, N ≤ n → Scan.next n s = .ok (found, s') := h

theorem project_calls (h : calls.next s found s') :
    calls.next (.project s fields) found (.project s' fields) := by
  refine Returns.of_succ ?_
  obtain ⟨N, hN⟩ := calls_eventually h
  refine ⟨N, fun n hn => ?_⟩
  show Scan.next (n + 1) (.project s fields) = _
  rw [Scan.next, hN n hn]
  rfl

/-- What a predicate says of a state of the scan below. -/
def sat (pred : Predicate) (x : Scan) (b : Bool) : Prop := satisfies x.getValue pred = .ok b

theorem sat_fun (x : Scan) (h : sat pred x true) : ¬ sat pred x false := by
  intro h'
  cases h.symm.trans h'

theorem select_calls (h : Iterator.FilterNext calls (sat pred) s found s') :
    calls.next (.select s pred) found (.select s' pred) := by
  refine Returns.of_succ ?_
  induction h with
  | @done s s' h =>
    obtain ⟨N, hN⟩ := calls_eventually h
    refine ⟨N, fun n hn => ?_⟩
    show Scan.next (n + 1) (.select s pred) = _
    rw [Scan.next, hN n hn]
    rfl
  | @keep s s' h hsat =>
    obtain ⟨N, hN⟩ := calls_eventually h
    refine ⟨N, fun n hn => ?_⟩
    have hsat : satisfies s'.getValue pred = .ok true := hsat
    show Scan.next (n + 1) (.select s pred) = _
    rw [Scan.next, hN n hn, ok_bind]
    dsimp only
    rw [if_pos rfl, hsat]
    rfl
  | @skip s s₁ s' found h hsat hrest ih =>
    obtain ⟨N, hN⟩ := calls_eventually h
    obtain ⟨N', hN'⟩ := calls_eventually (Returns.of_succ ih)
    refine ⟨N + N', fun n hn => ?_⟩
    have hsat : satisfies s₁.getValue pred = .ok false := hsat
    show Scan.next (n + 1) (.select s pred) = _
    rw [Scan.next, hN n (by omega), ok_bind]
    dsimp only
    rw [if_pos rfl, hsat, ok_bind, if_neg Bool.false_ne_true]
    exact hN' n (by omega)

theorem reset_returns {f : Scan → Scan} (hf : ∀ (next : Scan → Result (Bool × Scan)) s,
      (f s).beforeFirstBy next = (do return f (← s.beforeFirstBy next)))
    (h : calls.reset s s') : calls.reset (f s) (f s') := by
  obtain ⟨N, hN⟩ := reset_eventually h
  refine ⟨N, fun n hn => ?_⟩
  show (f s).beforeFirstBy (Scan.next n) = _
  rw [hf, hN n hn]
  rfl

/-- From any state a scan comes to its end, and it can be reset. -/
theorem walks (hclean : Clean s) : calls.Walks (fun x => Same s x ∧ Valid x) On := by
  induction s with
  | table t =>
    refine Iterator.Walks.map (f := Scan.table) (fun t found t' => table_calls)
      (fun t t' ht => returns_of_forall fun n => ?_) ?_ (fun t' ht' => ⟨ht', trivial⟩)
      (fun t' _ hon => hon) (tableCalls_walks t)
    · rw [← (show t.beforeFirst = t' from ht)]
      rfl
    · rintro x ⟨hx, -⟩
      exact same_table hx
  | select s pred ih =>
    have hfilter : (calls.filter (sat pred)).Walks (fun x => Same s x ∧ Valid x)
        (fun x => On x ∧ sat pred x true) :=
      (ih hclean.1).filter (fun x hx hon => hclean.2 x hx.1 hon) sat_fun
    refine Iterator.Walks.map (f := fun s => Scan.select s pred) ?_ ?_ ?_ ?_ ?_ hfilter
    · exact fun s found s' => select_calls
    · exact fun s s' => reset_returns (f := fun s => Scan.select s pred) (fun _ _ => rfl)
    · rintro x ⟨hx, hvalid⟩
      obtain ⟨s', rfl, hs'⟩ := same_select hx
      exact ⟨s', rfl, hs', hvalid⟩
    · exact fun s' hs' => ⟨⟨rfl, hs'.1⟩, hs'.2⟩
    · exact fun s' _ hon => hon
  | project s fields ih =>
    refine Iterator.Walks.map (f := fun s => Scan.project s fields)
      (fun s found s' => project_calls)
      (fun s s' => reset_returns (f := fun s => Scan.project s fields) (fun _ _ => rfl)) ?_
        (fun s' hs' => ⟨⟨rfl, hs'.1⟩, hs'.2⟩)
      (fun s' _ hon => hon) (ih hclean)
    rintro x ⟨hx, hvalid⟩
    obtain ⟨s', rfl, hs'⟩ := same_project hx
    exact ⟨s', rfl, hs', hvalid⟩
  | product s₁ s₂ ih₁ ih₂ =>
    refine Iterator.Walks.map (f := productScan) (fun p found p' => product_next)
      (fun p p' => product_reset) ?_ (fun p hp => ⟨⟨hp.1.1, hp.2.1⟩, hp.1.2, hp.2.2⟩)
      (fun p _ hon => hon) (Iterator.product_walks (ih₁ hclean.1) (ih₂ hclean.2))
    rintro x ⟨hx, hvalid⟩
    obtain ⟨x₁, x₂, rfl, hx₁, hx₂⟩ := same_product hx
    exact ⟨(x₁, x₂), rfl, ⟨hx₁, hvalid.1⟩, hx₂, hvalid.2⟩
  | sort s => exact sort_walks hclean
  | groupBy => exact hclean.elim

end Trees

section Contents

variable {s s' x : Scan}

theorem rel_refl (s₂ : Option OpenTable) : Option.Rel SameFile s₂ s₂ := by
  cases s₂ with
  | none => exact .none
  | some t => exact .some (.refl t)

theorem same_refl (h : Valid s) : Same s s := by
  induction s with
  | table t => exact SameFile.refl t
  | select s pred ih => exact ⟨rfl, ih h⟩
  | project s fields ih => exact ⟨rfl, ih h⟩
  | product s₁ s₂ ih₁ ih₂ => exact ⟨ih₁ h.1, ih₂ h.2⟩
  | sort s => exact ⟨rfl, .refl s.s₁, rel_refl s.s₂⟩
  | groupBy => exact h.elim

theorem rel_trans {s₂ s₂' s₂'' : Option OpenTable} (h : Option.Rel SameFile s₂ s₂')
    (h' : Option.Rel SameFile s₂' s₂'') : Option.Rel SameFile s₂ s₂'' := by
  cases h with
  | none => exact h'
  | some hfile =>
    cases h' with
    | some hfile' => exact .some (hfile.trans hfile')

theorem Same.trans (h : Same s s') (h' : Same s' x) : Same s x := by
  induction s generalizing s' x with
  | table t =>
    obtain ⟨t', rfl, ht⟩ := same_table h
    obtain ⟨t'', rfl, ht'⟩ := same_table h'
    exact SameFile.trans ht ht'
  | select s pred ih =>
    obtain ⟨s', rfl, hs⟩ := same_select h
    obtain ⟨x, rfl, hx⟩ := same_select h'
    exact ⟨rfl, ih hs hx⟩
  | project s fields ih =>
    obtain ⟨s', rfl, hs⟩ := same_project h
    obtain ⟨x, rfl, hx⟩ := same_project h'
    exact ⟨rfl, ih hs hx⟩
  | product s₁ s₂ ih₁ ih₂ =>
    obtain ⟨s₁', s₂', rfl, h₁, h₂⟩ := same_product h
    obtain ⟨x₁, x₂, rfl, h₁', h₂'⟩ := same_product h'
    exact ⟨ih₁ h₁ h₁', ih₂ h₂ h₂'⟩
  | sort s =>
    obtain ⟨s', rfl⟩ := same_sort h
    obtain ⟨x, rfl⟩ := same_sort h'
    exact ⟨h'.1.trans h.1, h.2.1.trans h'.2.1, rel_trans h.2.2 h'.2.2⟩
  | groupBy => cases s' <;> cases h

theorem Empty.same (h : Empty s) (hsame : Same s s') : Empty s' :=
  fun x hx => h x (hsame.trans hx)

theorem Clean.same (h : Clean s) (hsame : Same s s') : Clean s' := by
  induction s generalizing s' with
  | table t =>
    obtain ⟨t', rfl, -⟩ := same_table hsame
    trivial
  | select s pred ih =>
    obtain ⟨s', rfl, hs⟩ := same_select hsame
    exact ⟨ih h.1 hs, fun x hx => h.2 x (hs.trans hx)⟩
  | project s fields ih =>
    obtain ⟨s', rfl, hs⟩ := same_project hsame
    have hclean : Clean s' := ih h hs
    exact hclean
  | product s₁ s₂ ih₁ ih₂ =>
    obtain ⟨s₁', s₂', rfl, hsame₁, hsame₂⟩ := same_product hsame
    exact ⟨ih₁ h.1 hsame₁, ih₂ h.2 hsame₂⟩
  | sort s =>
    obtain ⟨s', rfl⟩ := same_sort hsame
    obtain ⟨hfields, h₁, h₂⟩ := hsame
    intro t' t₁ t₂ ht' ht₁ ht₂ hon₁ hon₂
    rw [ht'] at h₂
    obtain ⟨t, ht, hfile⟩ := rel_some h₂
    rw [hfields]
    exact h t t₁ t₂ ht (h₁.trans ht₁) (hfile.trans ht₂) hon₁ hon₂
  | groupBy => exact h.elim

end Contents

section Ends

variable {s s' e x : Scan} {n : ℕ} {found : Bool}

/-- The scan has just answered that there is no record. -/
def Ended : Scan → Prop
  | .table t => t = ended t
  | .select s _ => Ended s
  | .project s _ => Ended s
  | .product .. => True
  | .sort s => s.hasMore₁ = false ∧ s.hasMore₂ = false ∧
      ∀ side t, s.current = some side → run s side = some t → t = ended t
  | .groupBy .. => True

theorem sort_next_cases {s s' : SortScan} (h : s.next = .ok (found, s')) :
    (found = true ∧ ∃ side, s' = { s.advance with current := some side }) ∨
      (found = false ∧ s' = s.advance ∧ s.advance.hasMore₁ = false ∧
        s.advance.hasMore₂ = false) := by
  unfold SortScan.next at h
  cases h₁ : s.advance.hasMore₁ with
  | false =>
    cases h₂ : s.advance.hasMore₂ with
    | false =>
      cases (choose_neither h₁ h₂).symm.trans h
      exact Or.inr ⟨rfl, rfl, rfl, rfl⟩
    | true =>
      cases (choose_onlySecond h₁ h₂).symm.trans h
      exact Or.inl ⟨rfl, .second, rfl⟩
  | true =>
    cases h₂ : s.advance.hasMore₂ with
    | false =>
      cases (choose_onlyFirst h₁ h₂).symm.trans h
      exact Or.inl ⟨rfl, .first, rfl⟩
    | true =>
      unfold SortScan.choose at h
      cases hside : s.advance.smaller with
      | error e =>
        rw [h₁, h₂, hside] at h
        cases h
      | ok side =>
        cases (choose_both h₁ h₂ hside).symm.trans h
        exact Or.inl ⟨rfl, side, rfl⟩

theorem sort_advance_ended {s : SortScan} (h₁ : s.advance.hasMore₁ = false)
    (h₂ : s.advance.hasMore₂ = false) : Ended (.sort s.advance) := by
  refine ⟨h₁, h₂, fun side t hside hrun => ?_⟩
  obtain ⟨sortFields, t₁, more₁, t₂, more₂, current⟩ := s
  cases current with
  | none => cases hside
  | some current =>
    cases current with
    | first =>
      obtain rfl : Side.first = side := Option.some.inj hside
      obtain rfl : t₁.next.2 = t := Option.some.inj hrun
      have hended := next_ended h₁
      rw [hended]
      rfl
    | second =>
      obtain rfl : Side.second = side := Option.some.inj hside
      cases t₂ with
      | none => cases hrun
      | some t₂ =>
        obtain rfl : t₂.next.2 = t := Option.some.inj hrun
        have hended := next_ended h₂
        rw [hended]
        rfl

/-- The steps of a selection. -/
theorem select_step {pred : Predicate} (h : Scan.next (n + 1) (.select s pred) = .ok (found, e)) :
    ∃ more s₁, s.next n = .ok (more, s₁) ∧
      (e = .select s₁ pred ∧ found = more ∨
        Scan.next n (.select s₁ pred) = .ok (found, e)) := by
  obtain ⟨⟨more, s₁⟩, hs, h⟩ := bind_eq_ok.mp h
  refine ⟨more, s₁, hs, ?_⟩
  cases more with
  | false =>
    cases h
    exact Or.inl ⟨rfl, rfl⟩
  | true =>
    obtain ⟨b, -, h⟩ := bind_eq_ok.mp h
    cases b with
    | true =>
      cases h
      exact Or.inl ⟨rfl, rfl⟩
    | false => exact Or.inr h

/-- The steps of a product; its sides have been asked, and the right one reset. -/
theorem product_step {s₁ s₂ : Scan} (h : Scan.next (n + 1) (.product s₁ s₂) = .ok (found, e)) :
    ∃ more x₂, s₂.next n = .ok (more, x₂) ∧
      (e = .product s₁ x₂ ∨
        ∃ f₂ more₁ x₁, x₂.beforeFirstBy (Scan.next n) = .ok f₂ ∧ s₁.next n = .ok (more₁, x₁) ∧
          (e = .product x₁ f₂ ∨ ∃ more₂ y₂, f₂.next n = .ok (more₂, y₂) ∧ e = .product x₁ y₂)) := by
  obtain ⟨⟨more, x₂⟩, h₂, h⟩ := bind_eq_ok.mp h
  refine ⟨more, x₂, h₂, ?_⟩
  cases more with
  | true =>
    cases h
    exact Or.inl rfl
  | false =>
    obtain ⟨f₂, hreset, h⟩ := bind_eq_ok.mp h
    obtain ⟨⟨more₁, x₁⟩, h₁, h⟩ := bind_eq_ok.mp h
    refine Or.inr ⟨f₂, more₁, x₁, hreset, h₁, ?_⟩
    cases more₁ with
    | false =>
      cases h
      exact Or.inl rfl
    | true =>
      obtain ⟨⟨more₂, y₂⟩, hy, h⟩ := bind_eq_ok.mp h
      cases h
      exact Or.inr ⟨_, y₂, hy, rfl⟩

theorem ended_of_next (h : s.next n = .ok (false, e)) : Ended e := by
  induction n generalizing s e with
  | zero => cases h
  | succ n ih =>
    cases s with
    | table t =>
      have h : Except.ok (t.next.1, Scan.table t.next.2) = .ok (false, e) := h
      obtain ⟨hnone, rfl⟩ := Prod.mk.inj (Except.ok.inj h)
      have hended := next_ended hnone
      show t.next.2 = ended t.next.2
      rw [hended]
      rfl
    | select s pred =>
      obtain ⟨more, s₁, hs, ⟨rfl, rfl⟩ | h⟩ := select_step h
      · have hended : Ended s₁ := ih hs
        exact hended
      · exact ih h
    | project s fields =>
      obtain ⟨⟨more, s₁⟩, hs, h⟩ := bind_eq_ok.mp h
      cases h
      have hended : Ended s₁ := ih hs
      exact hended
    | product s₁ s₂ =>
      obtain ⟨more, x₂, -, rfl | ⟨f₂, more₁, x₁, -, -, rfl | ⟨more₂, y₂, -, rfl⟩⟩⟩ := product_step h
      all_goals trivial
    | sort s =>
      obtain ⟨⟨more, s'⟩, hs, h⟩ := bind_eq_ok.mp h
      cases h
      obtain ⟨hmore, -⟩ | ⟨-, rfl, h₁, h₂⟩ := sort_next_cases hs
      · cases hmore
      · exact sort_advance_ended h₁ h₂
    | groupBy src groupFields aggFns currentGroup moreGroups =>
      cases e with
      | groupBy => trivial
      | _ =>
        cases moreGroups with
        | false => cases h
        | true =>
          obtain ⟨a, -, h⟩ := bind_eq_ok.mp h
          obtain ⟨g, -, h⟩ := bind_eq_ok.mp h
          obtain ⟨⟨m, src', a'⟩, -, h⟩ := bind_eq_ok.mp h
          cases h

/-- A reset keeps what the steps keep. -/
theorem valid_reset {next : Scan → Result (Bool × Scan)}
    (hnext : ∀ s found s', Valid s → next s = .ok (found, s') → Valid s') (hvalid : Valid s)
    (h : s.beforeFirstBy next = .ok s') : Valid s' := by
  induction s generalizing s' with
  | table t =>
    cases h
    trivial
  | select s pred ih =>
    obtain ⟨s₁, hs, h⟩ := bind_eq_ok.mp h
    cases h
    have hs₁ : Valid s₁ := ih hvalid hs
    exact hs₁
  | project s fields ih =>
    obtain ⟨s₁, hs, h⟩ := bind_eq_ok.mp h
    cases h
    have hs₁ : Valid s₁ := ih hvalid hs
    exact hs₁
  | product s₁ s₂ ih₁ ih₂ =>
    obtain ⟨f₁, hf₁, h⟩ := bind_eq_ok.mp h
    obtain ⟨⟨more, x₁⟩, hx₁, h⟩ := bind_eq_ok.mp h
    obtain ⟨f₂, hf₂, h⟩ := bind_eq_ok.mp h
    cases h
    exact ⟨hnext f₁ more x₁ (ih₁ hvalid.1 hf₁) hx₁, ih₂ hvalid.2 hf₂⟩
  | sort s =>
    cases h
    exact restart_valid _ _ _
  | groupBy => exact hvalid.elim

theorem valid_next (hvalid : Valid s) (h : s.next n = .ok (found, e)) : Valid e := by
  induction n generalizing s found e with
  | zero => cases h
  | succ n ih =>
    cases s with
    | table t =>
      cases h
      trivial
    | select s pred =>
      obtain ⟨more, s₁, hs, ⟨rfl, rfl⟩ | h⟩ := select_step h
      · have hs₁ : Valid s₁ := ih (s := s) hvalid hs
        exact hs₁
      · have hs₁ : Valid s₁ := ih (s := s) hvalid hs
        exact ih (s := .select s₁ pred) hs₁ h
    | project s fields =>
      obtain ⟨⟨more, s₁⟩, hs, h⟩ := bind_eq_ok.mp h
      cases h
      have hs₁ : Valid s₁ := ih (s := s) hvalid hs
      exact hs₁
    | product s₁ s₂ =>
      obtain ⟨more, x₂, h₂, hrest⟩ := product_step h
      have hx₂ := ih hvalid.2 h₂
      obtain rfl | ⟨f₂, more₁, x₁, hreset, h₁, hrest⟩ := hrest
      · exact ⟨hvalid.1, hx₂⟩
      have hf₂ := valid_reset (fun _ _ _ hv hok => ih hv hok) hx₂ hreset
      have hx₁ := ih hvalid.1 h₁
      obtain rfl | ⟨more₂, y₂, hy₂, rfl⟩ := hrest
      · exact ⟨hx₁, hf₂⟩
      · exact ⟨hx₁, ih hf₂ hy₂⟩
    | sort s =>
      obtain ⟨⟨more, s'⟩, hs, h⟩ := bind_eq_ok.mp h
      cases h
      have hadvance := sort_valid_advance hvalid
      obtain ⟨-, side, rfl⟩ | ⟨-, rfl, -, -⟩ := sort_next_cases hs
      · exact hadvance
      · exact hadvance
    | groupBy => exact hvalid.elim

end Ends

section Restarts

variable {s s₁ s₂ e x : Scan} {pred : Predicate} {fields : List Name}

theorem again_table {t : OpenTable} :
    Again (.table t) x ↔ ∃ t', x = .table t' ∧ LateIn t t' := by
  constructor
  · intro h
    cases x with
    | table t' => exact ⟨t', rfl, h⟩
    | _ => cases h
  · rintro ⟨t', rfl, h⟩
    exact h

theorem again_select : Again (.select s pred) x ↔
    ∃ y, x = .select y pred ∧ Again s y ∧ satisfies y.getValue pred = .ok true := by
  constructor
  · intro h
    cases x with
    | select y pred' =>
      obtain ⟨rfl, h⟩ := h
      exact ⟨y, rfl, h⟩
    | _ => cases h
  · rintro ⟨y, rfl, h⟩
    exact ⟨rfl, h⟩

theorem again_project : Again (.project s fields) x ↔ ∃ y, x = .project y fields ∧ Again s y := by
  constructor
  · intro h
    cases x with
    | project y fields' =>
      obtain ⟨rfl, h⟩ := h
      exact ⟨y, rfl, h⟩
    | _ => cases h
  · rintro ⟨y, rfl, h⟩
    exact ⟨rfl, h⟩

theorem not_again_product : ¬ Again (.product s₁ s₂) x := by
  cases x <;> exact id

theorem again_sort {ss : SortScan} : Again (.sort ss) x ↔ ∃ side t t', ss.current = some side ∧
    run ss side = some t ∧ LateIn t t' ∧ x = .sort (put ss side t' true) := by
  constructor
  · intro h
    cases x with
    | sort y =>
      obtain ⟨side, t, t', hside, hrun, hlate, rfl⟩ := h
      exact ⟨side, t, t', hside, hrun, hlate, rfl⟩
    | _ => cases h
  · rintro ⟨side, t, t', hside, hrun, hlate, rfl⟩
    exact ⟨side, t, t', hside, hrun, hlate, rfl⟩

/-- A scan goes from its end through these states, and comes to an end of the same kind. -/
def Restarts (e : Scan) : Prop :=
  ∃ xs e', calls.Passes e xs e' ∧ (∀ x, x ∈ xs ↔ Again e x) ∧ Ended e' ∧ Valid e' ∧ Answers e' ∧
    ∀ x, Again e' x ↔ Again e x

/-- Where the other run has come to its end, a sort does what its run does. -/
theorem put_next {ss : SortScan} {side : Side} {t t' : OpenTable} {more found : Bool}
    (hcurrent : ss.current = some side) (h₁ : ss.hasMore₁ = false) (h₂ : ss.hasMore₂ = false)
    (h : t.next = (found, t')) : (put ss side t more).next = .ok (found, put ss side t' found) := by
  obtain ⟨sortFields, s₁, hasMore₁, s₂, hasMore₂, current⟩ := ss
  cases hcurrent
  cases h₁
  cases h₂
  cases side with
  | first =>
    show SortScan.choose ⟨sortFields, t.next.2, t.next.1, s₂, false, some .first⟩ = _
    rw [h]
    cases found <;> rfl
  | second =>
    show SortScan.choose ⟨sortFields, s₁, false, some t.next.2, t.next.1, some .second⟩ = _
    rw [h]
    cases found <;> rfl

theorem put_passes {ss : SortScan} {side : Side} {t t' : OpenTable} {xs : List OpenTable}
    (hcurrent : ss.current = some side) (h₁ : ss.hasMore₁ = false) (h₂ : ss.hasMore₂ = false)
    (h : tableCalls.Passes t xs t') (more : Bool) :
    calls.Passes (.sort (put ss side t more)) (xs.map (fun t => .sort (put ss side t true)))
      (.sort (put ss side t' false)) := by
  induction h generalizing more with
  | done hnext => exact .done (sort_calls (put_next hcurrent h₁ h₂ hnext))
  | more hnext hrest ih => exact .more (sort_calls (put_next hcurrent h₁ h₂ hnext)) (ih true)

theorem put_run {ss : SortScan} {side : Side} {t : OpenTable} (h₁ : ss.hasMore₁ = false)
    (h₂ : ss.hasMore₂ = false) (hrun : run ss side = some t) : put ss side t false = ss := by
  obtain ⟨sortFields, s₁, hasMore₁, s₂, hasMore₂, current⟩ := ss
  cases h₁
  cases h₂
  cases side with
  | first =>
    cases hrun
    rfl
  | second =>
    have hrun : s₂ = some t := hrun
    rw [hrun]
    rfl

/-- Without a current run, or with one that is not there, nothing happens. -/
theorem idle_next {ss : SortScan} (h₁ : ss.hasMore₁ = false) (h₂ : ss.hasMore₂ = false)
    (hidle : ∀ side t, ss.current = some side → run ss side ≠ some t) :
    ss.next = .ok (false, ss) := by
  obtain ⟨sortFields, s₁, hasMore₁, s₂, hasMore₂, current⟩ := ss
  cases h₁
  cases h₂
  cases current with
  | none => rfl
  | some side =>
    cases side with
    | first => exact absurd rfl (hidle .first s₁ rfl)
    | second =>
      cases s₂ with
      | none => rfl
      | some t => exact absurd rfl (hidle .second t rfl)

theorem sort_restarts {ss : SortScan} (hended : Ended (.sort ss)) (hvalid : Valid (.sort ss)) :
    Restarts (.sort ss) := by
  obtain ⟨h₁, h₂, hends⟩ := id hended
  by_cases hidle : ∀ side t, ss.current = some side → run ss side ≠ some t
  · refine ⟨[], _, .done (sort_calls (idle_next h₁ h₂ hidle)), fun x => ?_, hended, hvalid, trivial,
      fun x => Iff.rfl⟩
    rw [again_sort]
    refine ⟨fun hx => (nomatch hx), ?_⟩
    rintro ⟨side, t, t', hside, hrun, -⟩
    exact absurd hrun (hidle side t hside)
  · obtain ⟨side, t, hside, hrun⟩ : ∃ side t, ss.current = some side ∧ run ss side = some t := by
      by_contra hnone
      exact hidle (fun side t hside hrun => hnone ⟨side, t, hside, hrun⟩)
    obtain ⟨xs, hpass, hmem⟩ := ended_passes t
    rw [← hends side t hside hrun] at hpass hmem
    have hsort := put_passes hside h₁ h₂ hpass false
    rw [put_run h₁ h₂ hrun] at hsort
    refine ⟨_, _, hsort, fun x => ?_, hended, hvalid, trivial, fun x => Iff.rfl⟩
    rw [again_sort, List.mem_map]
    constructor
    · rintro ⟨t', ht', rfl⟩
      exact ⟨side, t, t', hside, hrun, (hmem t').mp ht', rfl⟩
    · rintro ⟨side', u, t', hside', hrun', hlate, rfl⟩
      cases hside.symm.trans hside'
      cases hrun.symm.trans hrun'
      exact ⟨t', (hmem t').mpr hlate, rfl⟩

theorem restarts (hended : Ended e) (hvalid : Valid e) (hanswers : Answers e) : Restarts e := by
  induction e with
  | table t =>
    obtain ⟨xs, hpass, hmem⟩ := ended_passes t
    have ht : t = ended t := hended
    rw [← ht] at hpass hmem
    refine ⟨xs.map .table, .table t, hpass.map (fun _ _ _ => table_calls), fun x => ?_, hended,
      trivial, trivial, fun x => Iff.rfl⟩
    rw [again_table, List.mem_map]
    constructor
    · rintro ⟨t', ht', rfl⟩
      exact ⟨t', rfl, (hmem t').mp ht'⟩
    · rintro ⟨t', rfl, hlate⟩
      exact ⟨t', (hmem t').mpr hlate, rfl⟩
  | select s pred ih =>
    obtain ⟨xs, e', hpass, hmem, hended', hvalid', hanswers', hagain⟩ := ih hended hvalid hanswers.1
    have hsat : ∀ x ∈ xs, ∃ b, sat pred x b := fun x hx => hanswers.2 x ((hmem x).mp hx)
    obtain ⟨ys, hys, hmem'⟩ := hpass.filter hsat sat_fun
    refine ⟨ys.map (fun s => .select s pred), .select e' pred,
      Iterator.Passes.map (fun _ _ _ => select_calls) hys, fun x => ?_, hended', hvalid',
      ⟨hanswers', fun x hx => hanswers.2 x ((hagain x).mp hx)⟩, fun x => ?_⟩
    · rw [again_select, List.mem_map]
      constructor
      · rintro ⟨y, hy, rfl⟩
        obtain ⟨hy, hsat⟩ := (hmem' y).mp hy
        exact ⟨y, rfl, (hmem y).mp hy, hsat⟩
      · rintro ⟨y, rfl, hy, hsat⟩
        exact ⟨y, (hmem' y).mpr ⟨(hmem y).mpr hy, hsat⟩, rfl⟩
    · simp only [again_select, hagain]
  | project s fields ih =>
    obtain ⟨xs, e', hpass, hmem, hended', hvalid', hanswers', hagain⟩ := ih hended hvalid hanswers
    refine ⟨xs.map (fun s => .project s fields), .project e' fields,
      Iterator.Passes.map (fun _ _ _ => project_calls) hpass, fun x => ?_, hended', hvalid',
      hanswers', fun x => ?_⟩
    · rw [again_project, List.mem_map]
      constructor
      · rintro ⟨y, hy, rfl⟩
        exact ⟨y, rfl, (hmem y).mp hy⟩
      · rintro ⟨y, rfl, hy⟩
        exact ⟨y, (hmem y).mpr hy, rfl⟩
    · simp only [again_project, hagain]
  | product s₁ s₂ =>
    obtain ⟨hclean₁, hclean₂, hempty⟩ := hanswers
    obtain ⟨p, hnext, ⟨hsame₁, hvalid₁⟩, hsame₂, hvalid₂⟩ :=
      Iterator.product_no_more (walks hclean₁) (walks hclean₂) (fun x hx => hempty x hx.1)
        ⟨same_refl hvalid.1, hvalid.1⟩ ⟨same_refl hvalid.2, hvalid.2⟩
    refine ⟨[], productScan p, .done (product_next hnext), fun x => ⟨fun hx => (nomatch hx), ?_⟩,
      trivial, ⟨hvalid₁, hvalid₂⟩, ⟨hclean₁.same hsame₁, hclean₂.same hsame₂, hempty.same hsame₂⟩,
      fun x => ⟨fun hx => (not_again_product hx).elim, fun hx => (not_again_product hx).elim⟩⟩
    exact fun hx => (not_again_product hx).elim
  | sort ss => exact sort_restarts hended hvalid
  | groupBy => exact hvalid.elim

/-- A scan that has answered that there is no record goes on to answer so if and only if there is no
record where it goes back to. -/
theorem exhausted_iff (hvalid : Valid s) (hnext : calls.next s false e) (hanswers : Answers e) :
    (∀ k, calls.Silent k e) ↔ ∀ x, ¬ Again e x := by
  obtain ⟨n, hn⟩ := Returns.eventually hnext
  have hended := ended_of_next hn
  have hvalid' := valid_next hvalid hn
  constructor
  · intro hsilent x hx
    obtain ⟨e', hend, -⟩ := hsilent 1
    obtain ⟨xs, e'', hpass, hmem, -⟩ := restarts hended hvalid' hanswers
    cases hpass with
    | done => cases (hmem x).mpr hx
    | more hmore => cases (Prod.mk.inj (Returns.unique hend hmore)).1
  · intro hnone
    refine Iterator.silent_of_invariant
      (fun e => Ended e ∧ Valid e ∧ Answers e ∧ ∀ x, ¬ Again e x) ?_
        ⟨hended, hvalid', hanswers, hnone⟩
    rintro e ⟨hended, hvalid, hanswers, hnone⟩
    obtain ⟨xs, e', hpass, hmem, hended', hvalid', hanswers', hagain⟩ :=
      restarts hended hvalid hanswers
    cases hpass with
    | done hend =>
      exact ⟨e', hend, hended', hvalid', hanswers', fun x hx => hnone x ((hagain x).mp hx)⟩
    | more => exact absurd ((hmem _).mp (List.mem_cons_self ..)) (hnone _)

end Restarts

section Examples

/-- A block with the record 1 and one with the record 2; the cursor is on the first record. -/
def twoBlocks : OpenTable :=
  let free : Slot Row := ⟨false, numberRow ['a'] 0⟩
  ⟨numberSchema ['a'], numberForm ['a'],
    ⟨[⟨true, numberRow ['a'] 1⟩, free, free, free, ⟨true, numberRow ['a'] 2⟩, free, free, free], 0,
      some 0⟩⟩

/-- `a = 1` -/
def isOne : Predicate := [⟨.ofField ['a'], .ofConstant (.ofInt 1)⟩]

theorem twoBlocks_late {t : OpenTable} (h : LateIn (ended twoBlocks) t) : t = at' twoBlocks 4 := by
  obtain ⟨i, slot, hi, hslot, hused, rfl⟩ := h
  have hi : 4 ≤ i := hi
  obtain ⟨hlt, hget⟩ := List.getElem?_eq_some_iff.mp hslot
  have hlt : i < 8 := hlt
  have hone : i = 4 ∨ i = 5 ∨ i = 6 ∨ i = 7 := by omega
  rcases hone with rfl | rfl | rfl | rfl
  · rfl
  all_goals
    cases hslot
    cases hused

theorem not_one : sat isOne (.table (at' twoBlocks 4)) false := rfl

theorem not_again_isOne (x : Scan) : ¬ Again (.select (.table (ended twoBlocks)) isOne) x := by
  intro h
  obtain ⟨y, rfl, hy, hsat⟩ := again_select.mp h
  obtain ⟨t, rfl, ht⟩ := again_table.mp hy
  rw [twoBlocks_late ht] at hsat
  exact sat_fun _ hsat not_one

/-- The record of the last block is read again, and is not selected. -/
theorem exhausted_iff_isOne :
    calls.next (.select (.table twoBlocks) isOne) false (.select (.table (ended twoBlocks)) isOne) ∧
      ∀ k, calls.Silent k (.select (.table (ended twoBlocks)) isOne) := by
  have hnext : calls.next (.select (.table twoBlocks) isOne) false
      (.select (.table (ended twoBlocks)) isOne) := by
    have hsecond : calls.next (.table twoBlocks) true (.table (at' twoBlocks 4)) := table_calls rfl
    have hend : calls.next (.table (at' twoBlocks 4)) false (.table (ended twoBlocks)) :=
      table_calls rfl
    exact select_calls (.skip hsecond not_one (.done hend))
  have hanswers : Answers (.select (.table (ended twoBlocks)) isOne) := by
    refine ⟨trivial, fun x hx => ⟨false, ?_⟩⟩
    obtain ⟨t, rfl, ht⟩ := again_table.mp hx
    rw [twoBlocks_late ht]
    exact not_one
  have hvalid : Valid (.select (.table twoBlocks) isOne) := trivial
  exact ⟨hnext, (exhausted_iff hvalid hnext hanswers).mpr not_again_isOne⟩

/-- A table of one record gives it once more after its end. -/
theorem not_exhausted_one : ∃ s₁ e s₂, calls.next (.table (numbers ['a'] [1]).open) true s₁ ∧
    calls.next s₁ false e ∧ calls.next e true s₂ ∧ ¬ ∀ k, calls.Silent k e := by
  obtain ⟨t₁, t₂, t₃, h₁, h₂, h₃⟩ : ∃ t₁ t₂ t₃, (numbers ['a'] [1]).open.next = (true, t₁) ∧
      t₁.next = (false, t₂) ∧ t₂.next = (true, t₃) := ⟨_, _, _, rfl, rfl, rfl⟩
  refine ⟨_, _, _, table_calls h₁, table_calls h₂, table_calls h₃, fun hsilent => ?_⟩
  obtain ⟨e, hend, -⟩ := hsilent 1
  cases (Prod.mk.inj (Returns.unique hend (table_calls h₃))).1

end Examples

end SampleDB.ExhaustedScans
