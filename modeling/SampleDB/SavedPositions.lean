import SampleDB.SortScans
import Mathlib.Logic.Relation

/-!
Positions of a sort scan that are saved and restored. Only the two record identifiers are saved:
restoring brings the cursors back, and leaves which run is the current one and whether the runs
have records as it finds them.
-/
namespace SampleDB.SavedPositions

open Lexer Schemas Statements Pages Blocks TableScans UpdatePlanner Scans Plans TypedTables Iterators Fuel
open SortedLists TableRows SortOrder ExternalSort SortScans

section Positions

/-- A record identifier; `none` is the slot in front of the first one of the block. -/
abbrev Position := ℕ × Option ℕ

def getRid (t : OpenTable) : Position := (t.ts.block, t.ts.slot)

def moveToRid (t : OpenTable) (rid : Position) : OpenTable :=
  { t with ts := { t.ts with block := rid.1, slot := rid.2 } }

/-- A SortScan with its saved position, which is an empty vector at first. -/
structure SavingScan where
  scan : SortScan
  savedPosition : List Position

namespace SavingScan

def savePosition (s : SavingScan) : Result SavingScan :=
  match s.scan.s₂ with
  | some s₂ => .ok { s with savedPosition := [getRid s.scan.s₁, getRid s₂] }
  | none => .error .outside

def restorePosition (s : SavingScan) : Result SavingScan :=
  match s.savedPosition, s.scan.s₂ with
  | [rid₁, rid₂], some s₂ => .ok { s with
      scan := { s.scan with s₁ := moveToRid s.scan.s₁ rid₁, s₂ := some (moveToRid s₂ rid₂) } }
  | _, _ => .error .outside

def next (s : SavingScan) : Result (Bool × SavingScan) := do
  let (found, scan) ← s.scan.next
  return (found, { s with scan := scan })

/-- So many calls of `next`. -/
def nexts : ℕ → SavingScan → Result SavingScan
  | 0, s => .ok s
  | k + 1, s => do
      let (_, s) ← s.next
      nexts k s

end SavingScan

end Positions

section Sides

def other : Side → Side
  | .first => .second
  | .second => .first

theorem eq_or_other (side side' : Side) : side' = side ∨ side' = other side := by
  cases side <;> cases side' <;> decide

def more (s : SortScan) : Side → Bool
  | .first => s.hasMore₁
  | .second => s.hasMore₂

/-- So many calls of `next` on the scan alone. -/
def nexts : ℕ → SortScan → Result SortScan
  | 0, s => .ok s
  | k + 1, s => do
      let (_, s) ← s.next
      nexts k s

theorem saving_nexts (k : ℕ) (s : SortScan) (savedPosition : List Position) :
    SavingScan.nexts k ⟨s, savedPosition⟩ =
      (nexts k s).bind (fun after => .ok ⟨after, savedPosition⟩) := by
  induction k generalizing s with
  | zero => rfl
  | succ k ih =>
    rw [SavingScan.nexts, nexts]
    unfold SavingScan.next
    cases s.next with
    | error e => rfl
    | ok p => exact ih p.2

variable {s s' : SortScan} {side : Side} {found : Bool}

theorem advance_none (h : s.current = none) : s.advance = s := by
  unfold SortScan.advance
  rw [h]

theorem advance_first (h : s.current = some .first) :
    s.advance = { s with s₁ := s.s₁.next.2, hasMore₁ := s.s₁.next.1 } := by
  unfold SortScan.advance
  rw [h]

theorem advance_second (h : s.current = some .second) :
    s.advance = { s with
      s₂ := s.s₂.map (fun t => t.next.2), hasMore₂ := s.s₂.elim false (fun t => t.next.1) } := by
  unfold SortScan.advance
  rw [h]

/-- The run that is not the current one stays where it is. -/
theorem advance_other (h : s.current = some side) :
    s.advance.current = some side ∧ more s.advance (other side) = more s (other side) := by
  cases side with
  | first =>
    rw [advance_first h]
    exact ⟨h, rfl⟩
  | second =>
    rw [advance_second h]
    exact ⟨h, rfl⟩

/-- A record comes from a run that has one; without a record nothing changes. -/
theorem choose_cases (h : s.choose = .ok (found, s')) :
    (found = false ∧ s' = s) ∨
      ∃ side, found = true ∧ more s side = true ∧ s' = { s with current := some side } := by
  obtain ⟨sortFields, s₁, hasMore₁, s₂, hasMore₂, current⟩ := s
  cases hasMore₁ with
  | false =>
    cases hasMore₂ with
    | false =>
      cases h
      exact Or.inl ⟨rfl, rfl⟩
    | true =>
      cases h
      exact Or.inr ⟨.second, rfl, rfl, rfl⟩
  | true =>
    cases hasMore₂ with
    | false =>
      cases h
      exact Or.inr ⟨.first, rfl, rfl, rfl⟩
    | true =>
      obtain ⟨side, -, hside⟩ := bind_eq_ok.mp h
      cases hside
      cases side with
      | first => exact Or.inr ⟨.first, rfl, rfl, rfl⟩
      | second => exact Or.inr ⟨.second, rfl, rfl, rfl⟩

theorem more_withCurrent (s : SortScan) (current : Option Side) (side : Side) :
    more { s with current := current } side = more s side := by
  cases side <;> rfl

/-- Where only the current run has a record left, the other one is not asked again. -/
theorem next_keeps (hcurrent : s.current = some side) (hother : more s (other side) = false)
    (h : s.next = .ok (found, s')) : s'.current = some side ∧ more s' (other side) = false := by
  obtain ⟨hadvance, hmore⟩ := advance_other hcurrent
  rw [hother] at hmore
  rcases choose_cases h with ⟨-, rfl⟩ | ⟨side', -, hside, rfl⟩
  · exact ⟨hadvance, hmore⟩
  · rcases eq_or_other side side' with rfl | rfl
    · exact ⟨rfl, (more_withCurrent _ _ _).trans hmore⟩
    · rw [hmore] at hside
      cases hside

theorem nexts_keeps {k : ℕ} (hcurrent : s.current = some side)
    (hother : more s (other side) = false)
    (h : nexts k s = .ok s') : s'.current = some side ∧ more s' (other side) = false := by
  induction k generalizing s with
  | zero =>
    cases h
    exact ⟨hcurrent, hother⟩
  | succ k ih =>
    obtain ⟨⟨found, s₁⟩, hnext, hrest⟩ := bind_eq_ok.mp h
    obtain ⟨hcurrent₁, hother₁⟩ := next_keeps hcurrent hother hnext
    exact ih hcurrent₁ hother₁ hrest

/-- While there is a current record, it comes from one of the runs. -/
theorem nexts_current {k : ℕ} (hcurrent : s.current = some side) (h : nexts k s = .ok s') :
    s'.current = some side ∨ s'.current = some (other side) := by
  induction k generalizing s side with
  | zero =>
    cases h
    exact Or.inl hcurrent
  | succ k ih =>
    obtain ⟨⟨found, s₁⟩, hnext, hrest⟩ := bind_eq_ok.mp h
    rcases choose_cases hnext with ⟨-, rfl⟩ | ⟨side', -, -, rfl⟩
    · exact ih (advance_other hcurrent).1 hrest
    · rcases eq_or_other side side' with rfl | rfl
      · exact ih rfl hrest
      · rcases ih (by rfl) hrest with hsame | hother
        · exact Or.inr hsame
        · exact Or.inl (hother.trans (by cases side <;> rfl))

end Sides

section Merges

variable {α κ : Type} [LinearOrder κ] {key : α → κ} {a : α} {xs ys : List α}

theorem merged_cons_right (h : Sorted key (a :: xs)) :
    merged key xs (a :: ys) = a :: merged key xs ys := by
  cases xs with
  | nil => rw [merged_nil_left, merged_nil_left]
  | cons x xs =>
    have hle := (List.pairwise_cons.mp h).1 x List.mem_cons_self
    exact merged_not_lt (not_lt.mpr hle)

/-- An element can go from one list to the other when all that are equal in the order are equal. -/
theorem merged_exchange (hxs : Sorted key (a :: xs)) (hys : Sorted key (a :: ys)) :
    merged key (a :: xs) ys = merged key xs (a :: ys) ↔ ∀ y ∈ ys, key y = key a → y = a := by
  rw [merged_cons_right hxs]
  induction ys with
  | nil =>
    rw [merged_nil_right, merged_nil_right]
    simp
  | cons y ys ih =>
    obtain ⟨hle, htail⟩ := List.pairwise_cons.mp hys
    by_cases hlt : key a < key y
    · rw [merged_lt hlt]
      refine iff_of_true rfl fun y' hy' heq => ?_
      have hle' : key y ≤ key y' := by
        rcases List.mem_cons.mp hy' with rfl | hy'
        · exact le_rfl
        · exact (List.pairwise_cons.mp htail).1 y' hy'
      exact absurd (heq ▸ hle') (not_le.mpr hlt)
    · have hkey : key y = key a := le_antisymm (not_lt.mp hlt) (hle y List.mem_cons_self)
      have hsorted : Sorted key (a :: ys) := List.pairwise_cons.mpr
        ⟨fun y' hy' => hle y' (List.mem_cons_of_mem y hy'), (List.pairwise_cons.mp htail).2⟩
      rw [merged_not_lt hlt, List.forall_mem_cons]
      constructor
      · intro heq
        obtain ⟨rfl, hrest⟩ := List.cons.inj heq
        rw [merged_cons_right hxs] at hrest
        exact ⟨fun _ => rfl, (ih hsorted).mp hrest⟩
      · rintro ⟨hy, hys'⟩
        obtain rfl := hy hkey
        rw [(ih hsorted).mpr hys', merged_cons_right hxs]

theorem length_merged : (merged key xs ys).length = xs.length + ys.length := by
  rw [merged_perm.length_eq, List.length_append]

/-- The elements of a list that is not asked any more are missing. -/
theorem flag_iff {f : List α → List α} {zs : List α} (hlength : (f zs).length ≠ (f []).length)
    {m m' : Bool} (h : m' = true → m = true) :
    f (if m then zs else []) = f (if m' then zs else []) ↔ (m = true → m' = true) := by
  cases m with
  | false =>
    cases m' with
    | false => exact iff_of_true rfl (fun h => h)
    | true => cases h rfl
  | true =>
    cases m' with
    | false =>
      exact iff_of_false (fun heq => hlength (congrArg List.length heq)) (fun h => nomatch h rfl)
    | true => exact iff_of_true rfl (fun h => h)

theorem merged_flag_right {m m' : Bool} (h : m' = true → m = true) :
    merged key xs (if m then a :: ys else []) = merged key xs (if m' then a :: ys else []) ↔
      (m = true → m' = true) := by
  refine flag_iff ?_ h
  rw [length_merged, length_merged, List.length_cons, List.length_nil]
  omega

theorem merged_flag_left {m m' : Bool} (h : m' = true → m = true) :
    merged key (if m then a :: xs else []) ys = merged key (if m' then a :: xs else []) ys ↔
      (m = true → m' = true) := by
  refine flag_iff (f := fun zs => merged key zs ys) ?_ h
  rw [length_merged, length_merged, List.length_cons, List.length_nil]
  omega

theorem and_flag_iff {f : List α → List α} {zs ws : List α} {b : α} {same : Prop} {m : Bool}
    (hlength : ws.length ≠ (f []).length) (h : a = b → (ws = f zs ↔ same)) :
    (a = b ∧ ws = f (if m then zs else [])) ↔ (m = true ∧ a = b ∧ same) := by
  cases m with
  | false =>
    exact iff_of_false (fun h => hlength (congrArg List.length h.2)) (fun h => nomatch h.1)
  | true =>
    rw [if_pos rfl, and_iff_right rfl]
    exact and_congr_right h

/-- The first element of one list is the first one of the other list as well. -/
theorem exchange_iff {b : α} {m : Bool} (hxs : Sorted key (a :: xs)) (hys : Sorted key (b :: ys)) :
    (a = b ∧ merged key xs (b :: ys) = merged key (if m then a :: xs else []) ys) ↔
      (m = true ∧ a = b ∧ ∀ y ∈ ys, key y = key b → y = b) := by
  refine and_flag_iff (f := fun zs => merged key zs ys) ?_ fun heq => ?_
  · rw [length_merged, length_merged, List.length_cons, List.length_nil]
    omega
  · subst heq
    rw [eq_comm]
    exact merged_exchange hxs hys

theorem exchange_iff' {b : α} {m : Bool} (hxs : Sorted key (a :: xs)) (hys : Sorted key (b :: ys)) :
    (b = a ∧ merged key (a :: xs) ys = merged key xs (if m then b :: ys else [])) ↔
      (m = true ∧ a = b ∧ ∀ y ∈ ys, key y = key b → y = b) := by
  rw [eq_comm (a := b)]
  refine and_flag_iff ?_ fun heq => ?_
  · rw [length_merged, length_merged, List.length_cons, List.length_nil]
    omega
  · subst heq
    exact merged_exchange hxs hys

end Merges

section States

variable {schema : Schema} {sortFields : List Name} {t₁ : OpenTable} {t₂ : Option OpenTable}
  {s s' : SortScan} {found : Bool}

/-- A run with a record has been asked for it. -/
structure Arrived (t₁ : OpenTable) (t₂ : Option OpenTable) (s : SortScan) : Prop where
  first : s.hasMore₁ = true → ∃ u, SameFile t₁ u ∧ u.next.1 = true ∧ s.s₁ = u.next.2
  second : s.hasMore₂ = true →
    ∃ t ∈ t₂, ∃ u, SameFile t u ∧ u.next.1 = true ∧ s.s₂ = some u.next.2

theorem Arrived.withCurrent (h : Arrived t₁ t₂ s) (current : Option Side) :
    Arrived t₁ t₂ { s with current := current } := ⟨h.first, h.second⟩

theorem second_arrived {s₂ : Option OpenTable} (h : Option.Rel SameFile t₂ s₂)
    (hmore : s₂.elim false (fun t => t.next.1) = true) :
    ∃ t ∈ t₂, ∃ u, SameFile t u ∧ u.next.1 = true ∧ s₂.map (fun t => t.next.2) = some u.next.2 := by
  cases h with
  | none => cases hmore
  | some hsame => exact ⟨_, rfl, _, hsame, hmore, rfl⟩

theorem Arrived.next (h : Arrived t₁ t₂ s) (hstate : SortState schema sortFields t₁ t₂ s)
    (hnext : s.next = .ok (found, s')) : Arrived t₁ t₂ s' := by
  have hadvance : Arrived t₁ t₂ s.advance := by
    cases hcurrent : s.current with
    | none =>
      rw [advance_none hcurrent]
      exact h
    | some side =>
      cases side with
      | first =>
        rw [advance_first hcurrent]
        exact ⟨fun hmore => ⟨s.s₁, hstate.same₁, hmore, rfl⟩, h.second⟩
      | second =>
        rw [advance_second hcurrent]
        exact ⟨h.first, fun hmore => second_arrived hstate.same₂ hmore⟩
  rcases choose_cases hnext with ⟨-, rfl⟩ | ⟨side, -, -, rfl⟩
  · exact hadvance
  · exact hadvance.withCurrent _

theorem restart_arrived : Arrived t₁ t₂
    (.restart sortFields t₁.beforeFirst (t₂.map OpenTable.beforeFirst)) := by
  refine ⟨fun hmore => ⟨_, sameFile_beforeFirst t₁, hmore, rfl⟩, fun hmore => ?_⟩
  cases t₂ with
  | none => cases hmore
  | some t => exact ⟨t, rfl, _, sameFile_beforeFirst t, hmore, rfl⟩

/-- What the calls of `next` and `beforeFirst` lead to. -/
inductive Reached (s : SortScan) : SortScan → Prop
  | opened : Reached s s
  | next {s₁ s₂ : SortScan} {found : Bool} (h : Reached s s₁) (hnext : s₁.next = .ok (found, s₂)) :
      Reached s s₂
  | beforeFirst {s₁ : SortScan} (h : Reached s s₁) : Reached s s₁.beforeFirst

theorem next_state (hfits₁ : FitsTable schema t₁) (hfits₂ : ∀ t ∈ t₂, FitsTable schema t)
    (hsort : ∀ F ∈ sortFields, schema.hasField F = true)
    (hstate : SortState schema sortFields t₁ t₂ s) (hnext : s.next = .ok (found, s')) :
    SortState schema sortFields t₁ t₂ s' := by
  obtain ⟨found', s'', hnext', hs''⟩ := hstate.next hfits₁ hfits₂ hsort
  rw [hnext] at hnext'
  cases hnext'
  exact hs''

theorem reached_state (hfits₁ : FitsTable schema t₁) (hfits₂ : ∀ t ∈ t₂, FitsTable schema t)
    (hsort : ∀ F ∈ sortFields, schema.hasField F = true)
    (h : Reached (.restart sortFields t₁.beforeFirst (t₂.map OpenTable.beforeFirst)) s) :
    SortState schema sortFields t₁ t₂ s ∧ Arrived t₁ t₂ s := by
  induction h with
  | opened => exact ⟨restart_state hfits₁ hfits₂, restart_arrived⟩
  | next h hnext ih => exact ⟨next_state hfits₁ hfits₂ hsort ih.1 hnext, ih.2.next ih.1 hnext⟩
  | beforeFirst h ih =>
    rw [ih.1.beforeFirst_eq]
    exact ⟨restart_state hfits₁ hfits₂, restart_arrived⟩

/-- Any number of calls is answered. -/
theorem nexts_state (hfits₁ : FitsTable schema t₁) (hfits₂ : ∀ t ∈ t₂, FitsTable schema t)
    (hsort : ∀ F ∈ sortFields, schema.hasField F = true) (k : ℕ)
    (hstate : SortState schema sortFields t₁ t₂ s) :
    ∃ after, nexts k s = .ok after ∧ SortState schema sortFields t₁ t₂ after := by
  induction k generalizing s with
  | zero => exact ⟨s, rfl, hstate⟩
  | succ k ih =>
    obtain ⟨found, s₁, hnext, hs₁⟩ := hstate.next hfits₁ hfits₂ hsort
    obtain ⟨after, hafter, hs⟩ := ih hs₁
    refine ⟨after, ?_, hs⟩
    rw [nexts, hnext]
    exact hafter

theorem later_suffix {t u : OpenTable} (h : SameFile t u) : later u <:+ later t.beforeFirst := by
  have hfront : (later t.beforeFirst) = (recordsFrom t.form 0 t.ts.slots).map Prod.snd := by
    show (recordsFrom t.form (0 * t.form.perBlock + 0)
      (t.ts.slots.drop (0 * t.form.perBlock + 0))).map _ = _
    rw [Nat.zero_mul, Nat.add_zero, List.drop_zero]
  rw [hfront]
  unfold later
  rw [h.form, h.slots]
  generalize u.ts.start t.form = n
  by_cases hle : n ≤ t.ts.slots.length
  · refine ⟨(recordsFrom t.form 0 (t.ts.slots.take n)).map Prod.snd, ?_⟩
    rw [← List.map_append]
    have happend : recordsFrom t.form 0 (t.ts.slots.take n ++ t.ts.slots.drop n) = _ :=
      recordsFrom_append 0 (t.ts.slots.take n) (t.ts.slots.drop n)
    rw [List.take_append_drop, List.length_take, Nat.min_eq_left hle, Nat.zero_add] at happend
    rw [happend]
  · rw [List.drop_eq_nil_of_le (by omega)]
    exact List.nil_suffix

/-- The record under a cursor stands in front of those behind it. -/
theorem arrived_sorted {t u : OpenTable} {r : Row} (hsame : SameFile t u) (hmore : u.next.1 = true)
    (hsorted : Sorted (sortKey sortFields) (later t.beforeFirst)) (hon : On u.next.2 r) :
    Sorted (sortKey sortFields) (r :: later u.next.2) := by
  rcases next_cases u with ⟨r', -, hlater, hon'⟩ | ⟨hnone, -⟩
  · have heq : r = r' := by
      obtain ⟨i, slot, hi, hslot, rfl⟩ := hon
      obtain ⟨j, slot', hj, hslot', rfl⟩ := hon'
      rw [hi] at hj
      cases hj
      rw [hslot] at hslot'
      cases hslot'
      rfl
    rw [heq, ← hlater]
    exact hsorted.sublist (later_suffix hsame).sublist
  · rw [hmore] at hnone
    cases hnone

end States

section Behaviour

variable {schema : Schema} {x y : Scan} {r r' : Row} {rows rows' : List Row}

/-- The calls of a scan, with records that have nothing outside the schema. -/
def records (schema : Schema) : Iterator Scan Row where
  next := (scans schema).next
  reset := (scans schema).reset
  shows s r := (scans schema).shows s r ∧ ∀ F, schema.fieldInfo F = none → r F = .null

/-- The same current record, and the same ones behind it. -/
def Same (schema : Schema) (x y : Scan) : Prop :=
  ∃ r rows, (records schema).shows x r ∧ (records schema).Emits (fun _ => True) x rows ∧
    (records schema).shows y r ∧ (records schema).Emits (fun _ => True) y rows

theorem emits_records {I : Scan → Prop} (h : (scans schema).Emits I x rows)
    (hfits : ∀ r ∈ rows, FitsRow schema r) : (records schema).Emits (fun _ => True) x rows := by
  induction rows generalizing x with
  | nil =>
    obtain ⟨x', hnext, -⟩ := h
    exact ⟨x', hnext, trivial⟩
  | cons r rows ih =>
    obtain ⟨hr, hfits⟩ := List.forall_mem_cons.mp hfits
    obtain ⟨x', hnext, -, hshows, hrest⟩ := h
    exact ⟨x', hnext, trivial, ⟨hshows, hr.rest⟩, ih hrest hfits⟩

theorem shows_unique (h : (records schema).shows x r) (h' : (records schema).shows x r') :
    r = r' := by
  funext F
  cases hinfo : schema.fieldInfo F with
  | none => rw [h.2 F hinfo, h'.2 F hinfo]
  | some info =>
    have hF : schema.hasField F = true := Option.isSome_iff_exists.mpr ⟨info, hinfo⟩
    exact Except.ok.inj ((shows_value h.1 hF).symm.trans (shows_value h'.1 hF))

theorem emits_unique {I J : Scan → Prop} (h : (records schema).Emits I x rows)
    (h' : (records schema).Emits J x rows') : rows = rows' := by
  refine h.unique ?_ (fun _ _ _ => shows_unique) h'
  intro x found x₁ found' x₂ hnext hnext'
  exact Prod.mk.inj (Returns.unique hnext hnext')

theorem same_iff (hx : (records schema).shows x r)
    (hxs : (records schema).Emits (fun _ => True) x rows)
    (hy : (records schema).shows y r') (hys : (records schema).Emits (fun _ => True) y rows') :
    Same schema x y ↔ r = r' ∧ rows = rows' := by
  constructor
  · rintro ⟨r₀, rows₀, hx₀, hxs₀, hy₀, hys₀⟩
    exact ⟨(shows_unique hx hx₀).trans (shows_unique hy₀ hy),
      (emits_unique hxs hxs₀).trans (emits_unique hys₀ hys)⟩
  · rintro ⟨rfl, rfl⟩
    exact ⟨r, rows, hx, hxs, hy, hys⟩

end Behaviour

section Restoring

variable {schema : Schema} {sortFields : List Name} {t₁ : OpenTable} {t₂ : Option OpenTable}
  {s after : SortScan} {u : OpenTable} {a₁ a₂ : Row}

/-- The rows behind the current record in the first run, which has its record in front of them
unless that is the current one. -/
def ahead₁ (s : SortScan) (a₁ : Row) : List Row :=
  if s.current = some .first then later s.s₁ else if s.hasMore₁ then a₁ :: later s.s₁ else []

def ahead₂ (s : SortScan) (u : OpenTable) (a₂ : Row) : List Row :=
  if s.current = some .second then later u else if s.hasMore₂ then a₂ :: later u else []

theorem ahead_flag {more : Bool} {t : OpenTable} {a : Row} (h : more = true → At schema t a) :
    Ahead schema more t (if more then a :: later t else []) := by
  cases more with
  | false => exact Or.inr ⟨rfl, rfl⟩
  | true => exact Or.inl ⟨rfl, a, rfl, h rfl⟩

theorem ahead_flag_fits {more : Bool} {t : OpenTable} {a : Row} (ht : FitsTable schema t)
    (h : more = true → At schema t a) :
    ∀ r ∈ (if more then a :: later t else []), FitsRow schema r := by
  cases more with
  | false => exact fun r hr => by cases hr
  | true => exact List.forall_mem_cons.mpr ⟨(h rfl).fits, ht.later⟩

theorem SortState.second (h : SortState schema sortFields t₁ t₂ s) (hs₂ : s.s₂ = some u) :
    ∃ t ∈ t₂, SameFile t u := by
  have hrel := h.same₂
  rw [hs₂] at hrel
  cases hrel with
  | some hsame => exact ⟨_, rfl, hsame⟩

/-- The records behind the current one. -/
theorem emits_ahead (hfits₁ : FitsTable schema t₁) (hfits₂ : ∀ t ∈ t₂, FitsTable schema t)
    (hsort : ∀ F ∈ sortFields, schema.hasField F = true)
    (hstate : SortState schema sortFields t₁ t₂ s) (hs₂ : s.s₂ = some u)
    (hcurrent : s.current.isSome)
    (h₁ : s.hasMore₁ = true → At schema s.s₁ a₁) (h₂ : s.hasMore₂ = true → At schema u a₂) :
    (records schema).Emits (fun _ => True) (.sort s)
      (merged (sortKey sortFields) (ahead₁ s a₁) (ahead₂ s u a₂)) := by
  obtain ⟨t, ht, hsame⟩ := SortState.second hstate hs₂
  have hfirst := hfits₁.same hstate.same₁
  have hsecond := (hfits₂ t ht).same hsame
  have hpending : Pending schema s (ahead₁ s a₁) (ahead₂ s u a₂) := by
    obtain ⟨side, hside⟩ := Option.isSome_iff_exists.mp hcurrent
    unfold ahead₁ ahead₂
    rw [hside]
    cases side with
    | first =>
      refine ⟨?_, ?_, hfirst.later, ahead_flag_fits hsecond h₂⟩
      · rw [advance_first hside]
        exact hfirst.next
      · rw [advance_first hside]
        show AheadSecond schema s.hasMore₂ s.s₂ _
        rw [hs₂]
        exact ahead_flag h₂
    | second =>
      refine ⟨?_, ?_, ahead_flag_fits hfirst h₁, hsecond.later⟩
      · rw [advance_second hside]
        exact ahead_flag h₁
      · rw [advance_second hside]
        show AheadSecond schema (s.s₂.elim false _) (s.s₂.map _) _
        rw [hs₂]
        exact hsecond.next
  refine emits_records (sort_emits hfits₁ hfits₂ hsort rfl hstate hpending) fun r hr => ?_
  rcases List.mem_append.mp (merged_perm.mem_iff.mp hr) with hr | hr
  · exact hpending.fits₁ r hr
  · exact hpending.fits₂ r hr

/-- What `restorePosition` leaves of the state at the save and of the one that it finds. -/
def restored (s after : SortScan) : SortScan :=
  { s with hasMore₁ := after.hasMore₁, hasMore₂ := after.hasMore₂, current := after.current }

theorem moveToRid_getRid {t u u' : OpenTable} (h : SameFile t u) (h' : SameFile t u') :
    moveToRid u' (getRid u) = u := by
  obtain ⟨schema, form, slots, block, slot⟩ := u
  obtain ⟨schema', form', slots', block', slot'⟩ := u'
  obtain ⟨rfl, rfl, rfl⟩ := h
  obtain ⟨hschema, hform, hslots⟩ := h'
  cases hschema
  cases hform
  cases hslots
  rfl

theorem restorePosition_eq (hstate : SortState schema sortFields t₁ t₂ s)
    (hafter : SortState schema sortFields t₁ t₂ after) (hs₂ : s.s₂ = some u) :
    SavingScan.restorePosition ⟨after, [getRid s.s₁, getRid u]⟩ =
      .ok ⟨restored s after, [getRid s.s₁, getRid u]⟩ := by
  obtain ⟨t, ht, hsame⟩ := SortState.second hstate hs₂
  have hrel := hafter.same₂
  obtain rfl := Option.mem_def.mp ht
  unfold SavingScan.restorePosition
  cases hafter₂ : after.s₂ with
  | none =>
    rw [hafter₂] at hrel
    cases hrel
  | some u' =>
    rw [hafter₂] at hrel
    cases hrel with
    | some hsame' =>
      dsimp only
      rw [moveToRid_getRid hstate.same₁ hafter.same₁, moveToRid_getRid hsame hsame']
      unfold restored
      rw [hafter.sortFields_eq, ← hstate.sortFields_eq, ← hs₂]

/-- The cursors stand on one record, with which all other ones of the second run that are equal to
it in the order agree. -/
def Interchangeable (schema : Schema) (sortFields : List Name) (s₁ s₂ : OpenTable) : Prop :=
  ∃ r, At schema s₁ r ∧ At schema s₂ r ∧
    ∀ b ∈ later s₂, sortKey sortFields b = sortKey sortFields r → b = r

/-- There is a second run, and `restorePosition` finds the run current that was at the save, and the
other one with a record if it had one; or it finds the other run current where either of them can
give its record first. -/
def Restorable (schema : Schema) (s after : SortScan) : Prop :=
  ∃ u side, s.s₂ = some u ∧ s.current = some side ∧
    ((after.current = some side ∧ (more s (other side) = true → more after (other side) = true)) ∨
      (after.current = some (other side) ∧ more after side = true ∧
        Interchangeable schema s.sortFields s.s₁ u))

/-- A record of its run is the current one. -/
def Positioned (s : SortScan) : Prop := ∃ side, s.current = some side ∧ more s side = true

theorem positioned_of_next (h : s.next = .ok (true, after)) : Positioned after := by
  rcases choose_cases h with ⟨hfound, -⟩ | ⟨side, -, hmore, rfl⟩
  · cases hfound
  · exact ⟨side, rfl, (more_withCurrent _ _ _).trans hmore⟩

theorem at_unique {t : OpenTable} {r r' : Row} (h : At schema t r) (h' : At schema t r') :
    r = r' := by
  obtain ⟨i, slot, hi, hslot, rfl⟩ := h.on
  obtain ⟨j, slot', hj, hslot', rfl⟩ := h'.on
  rw [hi] at hj
  cases hj
  rw [hslot] at hslot'
  cases hslot'
  rfl

/-- The record that the current run gives. -/
def chosen (side : Side) (a₁ a₂ : Row) : Row :=
  match side with
  | .first => a₁
  | .second => a₂

def cursor (s₁ s₂ : OpenTable) : Side → OpenTable
  | .first => s₁
  | .second => s₂

theorem shows_chosen {x : SortScan} {side : Side} (a₁ a₂ : Row) (hcurrent : x.current = some side)
    (hs₂ : x.s₂ = some u) (h : At schema (cursor x.s₁ u side)
      (chosen side a₁ a₂)) : (records schema).shows (.sort x) (chosen side a₁ a₂) := by
  refine ⟨shows_current ?_ h, h.fits.rest⟩
  unfold SortScan.currentScan
  cases side with
  | first =>
    rw [hcurrent]
    rfl
  | second =>
    rw [hcurrent]
    exact hs₂

/-- A run that is found with a record had one at the save. -/
theorem nexts_more {k : ℕ} {side : Side} (hcurrent : s.current = some side)
    (hmore : more s side = true)
    (h : nexts k s = .ok after) (side' : Side) (hmore' : more after side' = true) :
    more s side' = true := by
  rcases eq_or_other side side' with rfl | rfl
  · exact hmore
  · cases hother : more s (other side) with
    | true => rfl
    | false =>
      rw [(nexts_keeps hcurrent hother h).2] at hmore'
      cases hmore'

theorem interchangeable_iff (h₁ : At schema s.s₁ a₁) (h₂ : At schema u a₂) :
    Interchangeable schema sortFields s.s₁ u ↔ a₁ = a₂ ∧
      ∀ b ∈ later u, sortKey sortFields b = sortKey sortFields a₂ → b = a₂ := by
  constructor
  · rintro ⟨r, hr₁, hr₂, hrest⟩
    obtain rfl := at_unique h₁ hr₁
    obtain rfl := at_unique h₂ hr₂
    exact ⟨rfl, hrest⟩
  · rintro ⟨rfl, hrest⟩
    exact ⟨a₁, h₁, h₂, hrest⟩

/-- A scan of two runs that is restored goes on as at the save where the state is restorable. -/
theorem same_restored_iff (hfits₁ : FitsTable schema t₁) (hfits₂ : ∀ t ∈ t₂, FitsTable schema t)
    (hsort : ∀ F ∈ sortFields, schema.hasField F = true)
    (hsorted₁ : Sorted (sortKey sortFields) (later t₁.beforeFirst))
    (hsorted₂ : ∀ t ∈ t₂, Sorted (sortKey sortFields) (later t.beforeFirst))
    (hstate : SortState schema sortFields t₁ t₂ s) (harrived : Arrived t₁ t₂ s)
    (hs₂ : s.s₂ = some u)
    {side : Side} (hcurrent : s.current = some side) (hmore : more s side = true) {k : ℕ}
    (hafter : nexts k s = .ok after) :
    Same schema (.sort s) (.sort (restored s after)) ↔
      (after.current = some side ∧ (more s (other side) = true → more after (other side) = true)) ∨
        (after.current = some (other side) ∧ more after side = true ∧
          Interchangeable schema sortFields s.s₁ u) := by
  have hflags := nexts_more hcurrent hmore hafter
  obtain ⟨a₁, h₁⟩ : ∃ a₁, s.hasMore₁ = true → At schema s.s₁ a₁ := by
    cases hmore₁ : s.hasMore₁ with
    | false => exact ⟨blankRow schema, fun h => (nomatch h)⟩
    | true =>
      obtain ⟨a₁, h₁⟩ := hstate.on₁ hmore₁
      exact ⟨a₁, fun _ => h₁⟩
  obtain ⟨a₂, h₂⟩ : ∃ a₂, s.hasMore₂ = true → At schema u a₂ := by
    cases hmore₂ : s.hasMore₂ with
    | false => exact ⟨blankRow schema, fun h => (nomatch h)⟩
    | true =>
      obtain ⟨t, a₂, ht, h₂⟩ := hstate.on₂ hmore₂
      rw [hs₂] at ht
      cases ht
      exact ⟨a₂, fun _ => h₂⟩
  have hrestored : SortState schema sortFields t₁ t₂ (restored s after) :=
    ⟨hstate.sortFields_eq, hstate.same₁, hstate.same₂, fun h => ⟨a₁, h₁ (hflags .first h)⟩,
      fun h => ⟨u, a₂, hs₂, h₂ (hflags .second h)⟩⟩
  have hcurrent' := nexts_current hcurrent hafter
  have hemits := emits_ahead hfits₁ hfits₂ hsort hstate hs₂ (by rw [hcurrent]; rfl) h₁ h₂
  have hemits' := emits_ahead hfits₁ hfits₂ hsort hrestored hs₂
    (by show after.current.isSome = true; rcases hcurrent' with h | h <;> rw [h] <;> rfl)
    (fun h => h₁ (hflags .first h)) (fun h => h₂ (hflags .second h))
  -- in the other run, once it is found current, there was a record
  have hother : after.current = some (other side) → more s (other side) = true := by
    intro hother
    cases hmoreOther : more s (other side) with
    | true => rfl
    | false =>
      have hkept := (nexts_keeps hcurrent hmoreOther hafter).1
      rw [hother] at hkept
      cases side <;> cases hkept
  have hrows₁ : s.hasMore₁ = true → Sorted (sortKey sortFields) (a₁ :: later s.s₁) := by
    intro hmore₁
    obtain ⟨v, hsame, hv, heq⟩ := harrived.first hmore₁
    have hon := (h₁ hmore₁).on
    rw [heq] at hon ⊢
    exact arrived_sorted hsame hv hsorted₁ hon
  have hrows₂ : s.hasMore₂ = true → Sorted (sortKey sortFields) (a₂ :: later u) := by
    intro hmore₂
    obtain ⟨t, ht, v, hsame, hv, heq⟩ := harrived.second hmore₂
    rw [hs₂] at heq
    cases heq
    exact arrived_sorted hsame hv (hsorted₂ t ht) (h₂ hmore₂).on
  cases side with
  | first =>
    have hshows := shows_chosen a₁ a₂ hcurrent hs₂ (h₁ hmore)
    rcases hcurrent' with hcurrent' | hcurrent'
    · have hshows' := shows_chosen (x := restored s after) a₁ a₂ hcurrent' hs₂ (h₁ hmore)
      rw [same_iff hshows hemits hshows' hemits', and_iff_right rfl]
      unfold ahead₁ ahead₂ restored
      rw [hcurrent, hcurrent']
      simp only [reduceCtorEq, Option.some.injEq, false_and, or_false, true_and, ↓reduceIte, other]
      exact merged_flag_right (hflags .second)
    · have hmore₂ : s.hasMore₂ = true := hother hcurrent'
      have hshows' := shows_chosen (x := restored s after) a₁ a₂ hcurrent' hs₂ (h₂ hmore₂)
      rw [same_iff hshows hemits hshows' hemits', interchangeable_iff (h₁ hmore) (h₂ hmore₂)]
      unfold ahead₁ ahead₂ restored
      rw [hcurrent, hcurrent', hmore₂]
      simp only [reduceCtorEq, Option.some.injEq, false_and, false_or, true_and, ↓reduceIte, other]
      exact exchange_iff (hrows₁ hmore) (hrows₂ hmore₂)
  | second =>
    have hshows := shows_chosen a₁ a₂ hcurrent hs₂ (h₂ hmore)
    rcases hcurrent' with hcurrent' | hcurrent'
    · have hshows' := shows_chosen (x := restored s after) a₁ a₂ hcurrent' hs₂ (h₂ hmore)
      rw [same_iff hshows hemits hshows' hemits', and_iff_right rfl]
      unfold ahead₁ ahead₂ restored
      rw [hcurrent, hcurrent']
      simp only [reduceCtorEq, Option.some.injEq, false_and, or_false, true_and, ↓reduceIte, other]
      exact merged_flag_left (hflags .first)
    · have hmore₁ : s.hasMore₁ = true := hother hcurrent'
      have hshows' := shows_chosen (x := restored s after) a₁ a₂ hcurrent' hs₂ (h₁ hmore₁)
      rw [same_iff hshows hemits hshows' hemits', interchangeable_iff (h₁ hmore₁) (h₂ hmore)]
      unfold ahead₁ ahead₂ restored
      rw [hcurrent, hcurrent', hmore₁]
      simp only [reduceCtorEq, Option.some.injEq, false_and, false_or, true_and, ↓reduceIte, other]
      exact exchange_iff' (hrows₁ hmore₁) (hrows₂ hmore)

/-- Saving, any number of calls, and restoring give the same records again exactly where there is a
second run and `restorePosition` finds a state that it can bring back. -/
theorem restorePosition_same_iff (hfits₁ : FitsTable schema t₁)
    (hfits₂ : ∀ t ∈ t₂, FitsTable schema t)
    (hsort : ∀ F ∈ sortFields, schema.hasField F = true)
    (hsorted₁ : Sorted (sortKey sortFields) (later t₁.beforeFirst))
    (hsorted₂ : ∀ t ∈ t₂, Sorted (sortKey sortFields) (later t.beforeFirst)) {s₀ : SortScan}
    (hreached : Reached (.restart sortFields t₁.beforeFirst (t₂.map OpenTable.beforeFirst)) s₀)
    (hnext : s₀.next = .ok (true, s)) (savedPosition : List Position) (k : ℕ) :
    (∃ saved found end', SavingScan.savePosition ⟨s, savedPosition⟩ = .ok saved ∧
        saved.nexts k = .ok found ∧ found.restorePosition = .ok end' ∧
        Same schema (.sort s) (.sort end'.scan)) ↔
      ∃ after, nexts k s = .ok after ∧ Restorable schema s after := by
  obtain ⟨hstate₀, harrived₀⟩ := reached_state hfits₁ hfits₂ hsort hreached
  have hstate := next_state hfits₁ hfits₂ hsort hstate₀ hnext
  have harrived := harrived₀.next hstate₀ hnext
  obtain ⟨side, hcurrent, hmore⟩ := positioned_of_next hnext
  obtain ⟨after, hafter, hstate'⟩ := nexts_state hfits₁ hfits₂ hsort k hstate
  cases hs₂ : s.s₂ with
  | none =>
    -- the second run is a null pointer
    have hfail : SavingScan.savePosition ⟨s, savedPosition⟩ = .error .outside := by
      unfold SavingScan.savePosition
      rw [hs₂]
    refine iff_of_false ?_ ?_
    · rintro ⟨saved, -, -, hsave, -⟩
      rw [hfail] at hsave
      cases hsave
    · rintro ⟨after', -, u, side', hu, -⟩
      rw [hs₂] at hu
      cases hu
  | some u =>
    have hsave : SavingScan.savePosition ⟨s, savedPosition⟩ = .ok ⟨s, [getRid s.s₁, getRid u]⟩ := by
      unfold SavingScan.savePosition
      rw [hs₂]
    have hnexts : SavingScan.nexts k ⟨s, [getRid s.s₁, getRid u]⟩ =
        .ok ⟨after, [getRid s.s₁, getRid u]⟩ := by
      rw [saving_nexts, hafter]
      rfl
    have hiff := same_restored_iff hfits₁ hfits₂ hsort hsorted₁ hsorted₂ hstate harrived hs₂
      hcurrent
      hmore hafter
    have hfields := hstate.sortFields_eq
    constructor
    · rintro ⟨saved, found, end', hsave', hnexts', hrestore, hsame⟩
      rw [hsave] at hsave'
      cases hsave'
      rw [hnexts] at hnexts'
      cases hnexts'
      rw [restorePosition_eq hstate hstate' hs₂] at hrestore
      cases hrestore
      refine ⟨after, hafter, u, side, hs₂, hcurrent, ?_⟩
      rw [hfields]
      exact hiff.mp hsame
    · rintro ⟨after', hafter', u', side', hu', hcurrent', hrestorable⟩
      rw [hafter] at hafter'
      cases hafter'
      rw [hs₂] at hu'
      cases hu'
      rw [hcurrent] at hcurrent'
      cases hcurrent'
      rw [hfields] at hrestorable
      exact ⟨_, _, _, hsave, hnexts, restorePosition_eq hstate hstate' hs₂, hiff.mpr hrestorable⟩

end Restoring

section Examples

/-- Two runs of one record each. -/
def twoRuns : SortScan :=
  .restart [['a']] (numbers ['a'] [1]).open (some (numbers ['a'] [2]).open)

theorem later_numbers (F : Name) (ns : List Int32) :
    later (numbers F ns).open.beforeFirst = ns.map (numberRow F) := by
  rw [open_beforeFirst]
  exact (numbers_holds F ns).later

theorem numbers_fitsTable (F : Name) (ns : List Int32) :
    FitsTable (numberSchema F) (numbers F ns).open := by
  exact open_fits (numbers_holds F ns) (numbers_fit F ns)

theorem number_sorted (F : Name) (n : Int32) (sortFields : List Name) :
    Sorted (sortKey sortFields) (later (numbers F [n]).open.beforeFirst) := by
  rw [later_numbers]
  exact List.pairwise_singleton _ _

theorem twoRuns_next : ∃ s, twoRuns.next = .ok (true, s) := by
  have hfound : twoRuns.next.map Prod.fst = .ok true := by decide +kernel
  cases hnext : twoRuns.next with
  | error e =>
    rw [hnext] at hfound
    cases hfound
  | ok p =>
    obtain ⟨found, s⟩ := p
    rw [hnext] at hfound
    cases hfound
    exact ⟨s, rfl⟩

/-- The condition decides about a detour over the second record. -/
theorem restorePosition_same_iff_twoRuns : ∃ s, twoRuns.next = .ok (true, s) ∧
    ((∃ saved found end', SavingScan.savePosition ⟨s, []⟩ = .ok saved ∧ saved.nexts 1 = .ok found ∧
        found.restorePosition = .ok end' ∧
        Same (numberSchema ['a']) (.sort s) (.sort end'.scan)) ↔
      ∃ after, nexts 1 s = .ok after ∧ Restorable (numberSchema ['a']) s after) := by
  obtain ⟨s, hnext⟩ := twoRuns_next
  have hfits₂ : ∀ t ∈ some (numbers ['a'] [2]).open, FitsTable (numberSchema ['a']) t := by
    intro t ht
    obtain rfl := Option.mem_some_iff.mp ht
    exact numbers_fitsTable ['a'] [2]
  have hsorted₂ : ∀ t ∈ some (numbers ['a'] [2]).open,
      Sorted (sortKey [['a']]) (later t.beforeFirst) := by
    intro t ht
    obtain rfl := Option.mem_some_iff.mp ht
    exact number_sorted ['a'] 2 [['a']]
  exact ⟨s, hnext, restorePosition_same_iff (numbers_fitsTable ['a'] [1]) hfits₂ sortField_number
    (number_sorted ['a'] 1 [['a']]) hsorted₂ .opened hnext [] 1⟩

/-- The values of the current record at the save and after the detour. -/
def detour : Result (Constant × Constant) := do
  let (_, s) ← twoRuns.next
  let saved ← SavingScan.savePosition ⟨s, []⟩
  let found ← saved.nexts 1
  let end' ← found.restorePosition
  let c ← s.getValue ['a']
  let c' ← end'.scan.getValue ['a']
  return (c, c')

/-- The second record is the current one after the detour, though it was the first one. -/
theorem not_same_twoRuns : ∃ found s saved found' end', twoRuns.next = .ok (found, s) ∧
    SavingScan.savePosition ⟨s, []⟩ = .ok saved ∧ saved.nexts 1 = .ok found' ∧
    found'.restorePosition = .ok end' ∧
    ¬ Same (numberSchema ['a']) (.sort s) (.sort end'.scan) := by
  have hdetour : detour = .ok (.ofInt 1, .ofInt 2) := by decide +kernel
  obtain ⟨⟨found, s⟩, hnext, hdetour⟩ := bind_eq_ok.mp hdetour
  obtain ⟨saved, hsave, hdetour⟩ := bind_eq_ok.mp hdetour
  obtain ⟨found', hnexts, hdetour⟩ := bind_eq_ok.mp hdetour
  obtain ⟨end', hrestore, hdetour⟩ := bind_eq_ok.mp hdetour
  obtain ⟨c, hc, hdetour⟩ := bind_eq_ok.mp hdetour
  obtain ⟨c', hc', hdetour⟩ := bind_eq_ok.mp hdetour
  cases hdetour
  refine ⟨found, s, saved, found', end', hnext, hsave, hnexts, hrestore, ?_⟩
  rintro ⟨r, rows, hx, -, hy, -⟩
  have hfield : (numberSchema ['a']).hasField ['a'] = true := by decide
  have hfirst := (shows_value hx.1 hfield).symm.trans hc
  have hsecond := (shows_value hy.1 hfield).symm.trans hc'
  cases (Except.ok.inj hfirst).symm.trans (Except.ok.inj hsecond)

end Examples

end SampleDB.SavedPositions
