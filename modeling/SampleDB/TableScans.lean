import SampleDB.Pages
import Mathlib.Data.List.Basic
import Mathlib.Data.Nat.Init

/-!
Scans over a table file at the level of records. The slots of all blocks stand in one
sequence, each with its flag and with a row that stays when the slot is freed. A block
that is added is formatted: its slots are empty and their rows blank.
-/
namespace SampleDB.TableScans

open Pages

structure Slot (R : Type) where
  used : Bool
  row : R
  deriving DecidableEq

/-- How many slots a block has, and the row that `format` writes. -/
structure Form (R : Type) where
  perBlock : ℕ
  pos : 0 < perBlock
  blank : R

structure Rid where
  blockNumber : ℕ
  slotNumber : ℕ
  deriving DecidableEq, Repr

/-- `none` is the slot in front of the first one of the block. -/
structure TableScan (R : Type) where
  slots : List (Slot R)
  block : ℕ
  slot : Option ℕ

variable {R σ : Type}

namespace Form

def emptyBlock (form : Form R) : List (Slot R) := List.replicate form.perBlock ⟨false, form.blank⟩

/-- The record identifier of a slot, by its place in the file. -/
def rid (form : Form R) (i : ℕ) : Rid := ⟨i / form.perBlock, i % form.perBlock⟩

def place (form : Form R) (rid : Rid) : ℕ := rid.blockNumber * form.perBlock + rid.slotNumber

theorem place_rid (form : Form R) (i : ℕ) : form.place (form.rid i) = i :=
  Nat.div_add_mod' i form.perBlock

theorem rid_inj (form : Form R) {i j : ℕ} (h : form.rid i = form.rid j) : i = j := by
  rw [← form.place_rid i, h, form.place_rid]

end Form

/-- The first slot at or behind a place that has this flag. -/
def search (slots : List (Slot R)) (start : ℕ) (used : Bool) : Option ℕ :=
  ((slots.drop start).findIdx? (fun slot => slot.used = used)).map (start + ·)

namespace TableScan

/-- The constructor; it adds a block to an empty file. -/
def new (form : Form R) (slots : List (Slot R)) : TableScan R :=
  ⟨if slots = [] then form.emptyBlock else slots, 0, none⟩

/-- The place behind the cursor. -/
def start (form : Form R) (ts : TableScan R) : ℕ :=
  ts.block * form.perBlock + ts.slot.elim 0 (· + 1)

/-- The place of the current record. -/
def current (form : Form R) (ts : TableScan R) : Option ℕ :=
  ts.slot.map (ts.block * form.perBlock + ·)

def moveTo (form : Form R) (ts : TableScan R) (i : ℕ) : TableScan R :=
  { ts with block := i / form.perBlock, slot := some (i % form.perBlock) }

def beforeFirst (ts : TableScan R) : TableScan R := { ts with block := 0, slot := none }

/-- At the end of the file the cursor is in front of the last block. -/
def next (form : Form R) (ts : TableScan R) : Bool × TableScan R :=
  match search ts.slots (ts.start form) true with
  | some i => (true, ts.moveTo form i)
  | none => (false, { ts with block := ts.slots.length / form.perBlock - 1, slot := none })

def setSlot (ts : TableScan R) (i : ℕ) (slot : Slot R) : TableScan R :=
  { ts with slots := ts.slots.set i slot }

/-- The flag of a free slot behind the cursor is set, or one of a new block. -/
def insert (form : Form R) (ts : TableScan R) : TableScan R :=
  match search ts.slots (ts.start form) false with
  | some i =>
    { ts with slots := ts.slots.modify i (fun slot => { slot with used := true }) }.moveTo form i
  | none =>
      { ts with slots := (ts.slots ++ form.emptyBlock).modify ts.slots.length
                  (fun slot => { slot with used := true }) }.moveTo form ts.slots.length

/-- What is under the cursor; without a current record the page would be accessed in front of
its first slot. -/
def get (form : Form R) (ts : TableScan R) : Result (ℕ × Slot R) :=
  match ts.current form with
  | some i => match ts.slots[i]? with
    | some slot => .ok (i, slot)
    | none => .error .outside
  | none => .error .outside

def remove (form : Form R) (ts : TableScan R) : Result (TableScan R) := do
  let (i, slot) ← ts.get form
  return ts.setSlot i { slot with used := false }

def moveToRid (ts : TableScan R) (rid : Rid) : TableScan R :=
  { ts with block := rid.blockNumber, slot := some rid.slotNumber }

def getRid (ts : TableScan R) : Result Rid :=
  match ts.slot with
  | some slot => .ok ⟨ts.block, slot⟩
  | none => .error .outside

end TableScan

/-- The order of the records in a file. -/
def Rid.Before (rid rid' : Rid) : Prop :=
  rid.blockNumber < rid'.blockNumber ∨
    (rid.blockNumber = rid'.blockNumber ∧ rid.slotNumber < rid'.slotNumber)

/-- `SelectScan::next`, in at most so many steps. -/
def selectNext (form : Form R) (isSatisfied : R → Result Bool) :
    ℕ → TableScan R → Result (Bool × TableScan R)
  | 0, ts => .ok (false, ts)
  | n + 1, ts =>
      let (found, ts) := ts.next form
      if found then do
        let (_, slot) ← ts.get form
        if ← isSatisfied slot.row then return (true, ts) else selectNext form isSatisfied n ts
      else .ok (false, ts)

/-- The loop over the records that a scan selects, in at most so many steps. -/
def whileNext (form : Form R) (isSatisfied : R → Result Bool)
    (body : TableScan R → σ → Result (TableScan R × σ)) :
    ℕ → TableScan R → σ → Result (TableScan R × σ)
  | 0, ts, s => .ok (ts, s)
  | n + 1, ts, s => do
      let (found, ts) ← selectNext form isSatisfied (ts.slots.length + 1) ts
      if found then
        let (ts, s) ← body ts s
        whileNext form isSatisfied body n ts s
      else return (ts, s)

/-- Whether the slot has a record that is selected. -/
def isSelected (isSatisfied : R → Result Bool) (slot : Slot R) : Result Bool :=
  if slot.used then isSatisfied slot.row else .ok false

def visit (isSatisfied : R → Result Bool) (act : ℕ → Slot R → σ → Result (Slot R × σ)) (i : ℕ)
    (slot : Slot R) (s : σ) : Result (Slot R × σ) := do
  if ← isSelected isSatisfied slot then act i slot s else return (slot, s)

/-- Each slot from a place on is visited once, in order. -/
def walk (isSatisfied : R → Result Bool) (act : ℕ → Slot R → σ → Result (Slot R × σ)) :
    ℕ → List (Slot R) → σ → Result (List (Slot R) × σ)
  | _, [], s => .ok ([], s)
  | i, slot :: slots, s => do
      let (slot, s) ← visit isSatisfied act i slot s
      let (slots, s) ← walk isSatisfied act (i + 1) slots s
      return (slot :: slots, s)

/-- The records from a place on, in the order of their identifiers. -/
def recordsFrom (form : Form R) : ℕ → List (Slot R) → List (Rid × R)
  | _, [] => []
  | i, slot :: slots =>
      if slot.used then (form.rid i, slot.row) :: recordsFrom form (i + 1) slots
      else recordsFrom form (i + 1) slots

def records (form : Form R) (slots : List (Slot R)) : List (Rid × R) := recordsFrom form 0 slots

section Search

variable {slots : List (Slot R)} {slot : Slot R} {start i : ℕ} {used : Bool}

theorem search_end (h : slots.length ≤ start) : search slots start used = none := by
  unfold search
  rw [List.drop_eq_nil_of_le h]
  rfl

theorem search_here (h : slots[start]? = some slot) (hused : slot.used = used) :
    search slots start used = some start := by
  obtain ⟨hlt, rfl⟩ := List.getElem?_eq_some_iff.mp h
  unfold search
  rw [List.drop_eq_getElem_cons hlt, List.findIdx?_cons, if_pos (decide_eq_true hused)]
  rfl

theorem search_skip (h : slots[start]? = some slot) (hused : slot.used ≠ used) :
    search slots start used = search slots (start + 1) used := by
  obtain ⟨hlt, rfl⟩ := List.getElem?_eq_some_iff.mp h
  unfold search
  rw [List.drop_eq_getElem_cons hlt, List.findIdx?_cons, if_neg (by simpa using hused),
    Option.map_map]
  refine congrFun (congrArg Option.map (funext fun j => ?_)) _
  rw [Function.comp_apply]
  omega

end Search

section Cursor

variable (form : Form R) (ts : TableScan R)

theorem start_moveTo (i : ℕ) : (ts.moveTo form i).start form = i + 1 := by
  have h := form.place_rid i
  unfold Form.place Form.rid at h
  unfold TableScan.start TableScan.moveTo
  simp only [Option.elim_some] at h ⊢
  omega

theorem current_moveTo (i : ℕ) : (ts.moveTo form i).current form = some i := by
  have h := form.place_rid i
  unfold Form.place Form.rid at h
  unfold TableScan.current TableScan.moveTo
  rw [Option.map_some, h]

theorem get_moveTo {slot : Slot R} {i : ℕ} (h : ts.slots[i]? = some slot) :
    (ts.moveTo form i).get form = .ok (i, slot) := by
  unfold TableScan.get
  rw [current_moveTo]
  have hslots : (ts.moveTo form i).slots = ts.slots := rfl
  simp only [hslots, h]

theorem getRid_moveTo (i : ℕ) : (ts.moveTo form i).getRid = .ok (form.rid i) := rfl

/-- What `next` does depends on the place behind the cursor. -/
theorem next_congr {ts ts' : TableScan R} (hslots : ts'.slots = ts.slots)
    (hsearch : search ts.slots (ts'.start form) true = search ts.slots (ts.start form) true) :
    ts'.next form = ts.next form := by
  unfold TableScan.next TableScan.moveTo
  rw [hslots, hsearch]

end Cursor

section Loop

variable {form : Form R} {isSatisfied : R → Result Bool} {ts ts' : TableScan R}

/-- The first selected slot at or behind a place. -/
def firstSelected (isSatisfied : R → Result Bool) : ℕ → List (Slot R) → Result (Option ℕ)
  | _, [] => .ok none
  | i, slot :: slots => do
      if ← isSelected isSatisfied slot then return some i
      else firstSelected isSatisfied (i + 1) slots

/-- The cursor at a place that was found, or at the end. -/
def arrive (form : Form R) (ts : TableScan R) : Option ℕ → Bool × TableScan R
  | some i => (true, ts.moveTo form i)
  | none => (false, { ts with block := ts.slots.length / form.perBlock - 1, slot := none })

theorem next_eq : ts.next form = arrive form ts (search ts.slots (ts.start form) true) := by
  unfold TableScan.next
  cases search ts.slots (ts.start form) true <;> rfl

theorem arrive_moveTo (i : ℕ) (found : Option ℕ) :
    arrive form (ts.moveTo form i) found = arrive form ts found := by
  cases found <;> rfl

/-- A scan finds the first selected slot behind its cursor. -/
theorem selectNext_eq {n : ℕ} (hn : ts.slots.length ≤ n + ts.start form) :
    selectNext form isSatisfied (n + 1) ts =
      (firstSelected isSatisfied (ts.start form) (ts.slots.drop (ts.start form))).map
        (arrive form ts) := by
  obtain ⟨k, hk⟩ : ∃ k, k = ts.slots.length - ts.start form := ⟨_, rfl⟩
  induction k generalizing n ts with
  | zero =>
    have hend : ts.slots.length ≤ ts.start form := by omega
    rw [selectNext, next_eq, search_end hend, List.drop_eq_nil_of_le hend]
    rfl
  | succ k ih =>
    have hlt : ts.start form < ts.slots.length := by omega
    have hget : ts.slots[ts.start form]? = some ts.slots[ts.start form] :=
      List.getElem?_eq_getElem hlt
    have hstart := start_moveTo form ts (ts.start form)
    -- from here on the scan goes on as if the cursor were at this slot
    have hrest : ∀ m, ts.slots.length ≤ m + (ts.start form + 1) →
        selectNext form isSatisfied (m + 1) (ts.moveTo form (ts.start form)) =
          (firstSelected isSatisfied (ts.start form + 1)
            (ts.slots.drop (ts.start form + 1))).map (arrive form ts) := by
      intro m hm
      have hmoved : (ts.moveTo form (ts.start form)).slots = ts.slots := rfl
      rw [ih (by rw [hmoved, hstart]; exact hm) (by rw [hmoved, hstart]; omega), hmoved, hstart]
      exact congrFun (congrArg Except.map (funext fun found => arrive_moveTo _ found)) _
    rw [List.drop_eq_getElem_cons hlt, firstSelected]
    unfold isSelected
    by_cases hused : ts.slots[ts.start form].used = true
    · rw [selectNext, next_eq, search_here hget hused, if_pos hused]
      simp only [arrive, if_true, get_moveTo form ts hget, ok_bind]
      cases hsat : isSatisfied ts.slots[ts.start form].row with
      | error e => rfl
      | ok selected =>
        cases selected with
        | true => rfl
        | false =>
          obtain ⟨m, rfl⟩ : ∃ m, n = m + 1 := ⟨n - 1, by omega⟩
          exact hrest m (by omega)
    · have hnext : selectNext form isSatisfied (n + 1) ts =
          selectNext form isSatisfied (n + 1) (ts.moveTo form (ts.start form)) := by
        have hsame : (ts.moveTo form (ts.start form)).next form = ts.next form := by
          refine next_congr form rfl ?_
          rw [hstart, search_skip hget hused]
        rw [selectNext, selectNext, hsame]
      rw [if_neg hused, hnext, hrest n (by omega)]
      rfl

theorem whileNext_congr {body : TableScan R → σ → Result (TableScan R × σ)} {n : ℕ} {s : σ}
    (hslots : ts'.slots = ts.slots)
    (hselect : selectNext form isSatisfied (ts.slots.length + 1) ts' =
      selectNext form isSatisfied (ts.slots.length + 1) ts) :
    whileNext form isSatisfied body (n + 1) ts' s =
      whileNext form isSatisfied body (n + 1) ts s := by
  rw [whileNext, whileNext, hslots, hselect]

/-- A loop whose body changes the current slot only. -/
theorem whileNext_eq {body : TableScan R → σ → Result (TableScan R × σ)}
    {act : ℕ → Slot R → σ → Result (Slot R × σ)}
    (hbody : ∀ (ts : TableScan R) (i : ℕ) (slot : Slot R) (s : σ), ts.slots[i]? = some slot →
      body (ts.moveTo form i) s =
        (act i slot s).map (fun p => ((ts.moveTo form i).setSlot i p.1, p.2)))
    {n : ℕ} {s : σ} (hn : ts.slots.length ≤ n + ts.start form) :
    (whileNext form isSatisfied body (n + 1) ts s).map (fun p => (p.1.slots, p.2)) =
      (walk isSatisfied act (ts.start form) (ts.slots.drop (ts.start form)) s).map
        (fun p => (ts.slots.take (ts.start form) ++ p.1, p.2)) := by
  obtain ⟨k, hk⟩ : ∃ k, k = ts.slots.length - ts.start form := ⟨_, rfl⟩
  have hselect : ∀ ts : TableScan R, selectNext form isSatisfied (ts.slots.length + 1) ts =
      (firstSelected isSatisfied (ts.start form) (ts.slots.drop (ts.start form))).map
        (arrive form ts) := fun ts => selectNext_eq (by omega)
  induction k generalizing n ts s with
  | zero =>
    have hend : ts.slots.length ≤ ts.start form := by omega
    rw [whileNext, hselect, List.drop_eq_nil_of_le hend, List.take_of_length_le hend]
    simp [firstSelected, walk, Except.map, arrive]
    rfl
  | succ k ih =>
    have hlt : ts.start form < ts.slots.length := by omega
    have hget : ts.slots[ts.start form]? = some ts.slots[ts.start form] :=
      List.getElem?_eq_getElem hlt
    have hstart := start_moveTo form ts (ts.start form)
    have hfirst := hselect ts
    rw [List.drop_eq_getElem_cons hlt, firstSelected] at hfirst
    rw [List.drop_eq_getElem_cons hlt, walk]
    unfold visit
    cases hsat : isSelected isSatisfied ts.slots[ts.start form] with
    | error e =>
      rw [hsat] at hfirst
      rw [whileNext, hfirst]
      rfl
    | ok selected =>
      rw [hsat] at hfirst
      cases selected with
      | false =>
        have hmoved : (ts.moveTo form (ts.start form)).slots = ts.slots := rfl
        have hsame : selectNext form isSatisfied (ts.slots.length + 1)
            (ts.moveTo form (ts.start form)) =
            selectNext form isSatisfied (ts.slots.length + 1) ts := by
          have hthere := hselect (ts.moveTo form (ts.start form))
          rw [hmoved, hstart] at hthere
          rw [hthere, hfirst]
          exact congrFun (congrArg Except.map (funext fun found => arrive_moveTo _ found)) _
        rw [← whileNext_congr hmoved hsame,
          ih (by rw [hmoved, hstart]; omega) (by rw [hmoved, hstart]; omega), hmoved, hstart]
        simp only [ok_bind, Bool.false_eq_true, if_false, pure_bind]
        cases walk isSatisfied act (ts.start form + 1) (ts.slots.drop (ts.start form + 1)) s with
        | error e => rfl
        | ok p =>
          refine congrArg Except.ok (Prod.ext ?_ rfl)
          show ts.slots.take (ts.start form + 1) ++ p.1 = _
          rw [← List.take_append_getElem hlt, List.append_assoc]
          rfl
      | true =>
        obtain ⟨m, rfl⟩ : ∃ m, n = m + 1 := ⟨n - 1, by omega⟩
        rw [whileNext, hfirst]
        simp only [ok_bind, if_true, Except.map, arrive, pure, Except.pure,
          hbody ts (ts.start form) _ s hget]
        cases hact : act (ts.start form) ts.slots[ts.start form] s with
        | error e => rfl
        | ok p =>
          obtain ⟨slot', s'⟩ := p
          have hset : ((ts.moveTo form (ts.start form)).setSlot (ts.start form) slot').slots =
              ts.slots.set (ts.start form) slot' := rfl
          have hstart' : ((ts.moveTo form (ts.start form)).setSlot
            (ts.start form) slot').start form =
              ts.start form + 1 := hstart
          have hrest := @ih ((ts.moveTo form (ts.start form)).setSlot (ts.start form) slot') m s'
            (by rw [hset, hstart', List.length_set]; omega)
            (by rw [hset, hstart', List.length_set]; omega)
          rw [hset, hstart', List.drop_set_of_lt (by omega)] at hrest
          simp only [Except.map, Except.bind, bind] at hrest ⊢
          rw [hrest]
          cases walk isSatisfied act (ts.start form + 1) (ts.slots.drop (ts.start form + 1)) s' with
          | error e => rfl
          | ok p =>
            refine congrArg Except.ok (Prod.ext ?_ rfl)
            show (ts.slots.set (ts.start form) slot').take (ts.start form + 1) ++ p.1 = _
            rw [← List.take_append_getElem (by rw [List.length_set]; exact hlt),
              List.getElem_set_self, List.take_set_of_le (by omega), List.append_assoc]
            rfl

end Loop

section Walk

variable {form : Form R} {sat : R → Result Bool} {act : ℕ → Slot R → σ → Result (Slot R × σ)}
  {slot : Slot R} {slots : List (Slot R)} {i : ℕ}

theorem visit_unused (h : slot.used = false) (s : σ) :
    visit sat act i slot s = .ok (slot, s) := by
  unfold visit isSelected
  rw [h]
  rfl

theorem visit_used (h : slot.used = true) {selected : Bool} (hsat : sat slot.row = .ok selected)
    (s : σ) : visit sat act i slot s = if selected then act i slot s else .ok (slot, s) := by
  unfold visit isSelected
  rw [if_pos h, hsat]
  rfl

/-- The rest of a walk behind a slot that was visited. -/
theorem walk_cons {slot' : Slot R} {s s' : σ} (h : visit sat act i slot s = .ok (slot', s')) :
    walk sat act i (slot :: slots) s =
      (walk sat act (i + 1) slots s').map (fun p => (slot' :: p.1, p.2)) := by
  rw [walk, h]
  rfl

theorem recordsFrom_unused (h : ∀ slot ∈ slots, slot.used = false) (i : ℕ) :
    recordsFrom form i slots = [] := by
  induction slots generalizing i with
  | nil => rfl
  | cons slot slots ih =>
    rw [List.forall_mem_cons] at h
    rw [recordsFrom, h.1, ih h.2]
    rfl

theorem walk_unused (h : ∀ slot ∈ slots, slot.used = false) (i : ℕ) (s : σ) :
    walk sat act i slots s = .ok (slots, s) := by
  induction slots generalizing i with
  | nil => rfl
  | cons slot slots ih =>
    rw [List.forall_mem_cons] at h
    rw [walk_cons (visit_unused h.1 s), ih h.2]
    rfl

/-- A walk that fails on every record ends at the first one. -/
theorem walk_error {f : Fault} (hsat : ∀ row, sat row = .ok true)
    (hact : ∀ i slot s, act i slot s = .error f) (h : ∃ slot ∈ slots, slot.used = true) (i : ℕ)
    (s : σ) : walk sat act i slots s = .error f := by
  induction slots generalizing i with
  | nil => simp at h
  | cons slot slots ih =>
    cases hused : slot.used with
    | true =>
      rw [walk, visit_used hused (hsat slot.row), if_pos rfl, hact]
      rfl
    | false =>
      have hrest : ∃ slot ∈ slots, slot.used = true := by
        obtain ⟨slot', hmem, hused'⟩ := h
        rcases List.mem_cons.mp hmem with rfl | hmem
        · rw [hused] at hused'
          cases hused'
        · exact ⟨slot', hmem, hused'⟩
      rw [walk_cons (visit_unused hused s), ih hrest]
      rfl

end Walk

section Records

variable {form : Form R} {slot : Slot R} {slots : List (Slot R)}

/-- The record of one slot. -/
def recordOf (form : Form R) (i : ℕ) (slot : Slot R) : List (Rid × R) :=
  if slot.used then [(form.rid i, slot.row)] else []

theorem recordOf_used {i : ℕ} (h : slot.used = true) :
    recordOf form i slot = [(form.rid i, slot.row)] := by
  unfold recordOf
  rw [if_pos h]

theorem recordOf_unused {i : ℕ} (h : slot.used = false) : recordOf form i slot = [] := by
  unfold recordOf
  rw [h]
  rfl

theorem recordsFrom_cons (i : ℕ) (slot : Slot R) (slots : List (Slot R)) :
    recordsFrom form i (slot :: slots) = recordOf form i slot ++ recordsFrom form
      (i + 1) slots := by
  unfold recordOf
  rw [recordsFrom]
  split <;> rfl

theorem recordsFrom_append (i : ℕ) (slots slots' : List (Slot R)) :
    recordsFrom form i (slots ++ slots') =
      recordsFrom form i slots ++ recordsFrom form (i + slots.length) slots' := by
  induction slots generalizing i with
  | nil => rfl
  | cons slot slots ih =>
    rw [List.cons_append, recordsFrom_cons, recordsFrom_cons, ih, List.append_assoc,
      List.length_cons, show i + 1 + slots.length = i + (slots.length + 1) by omega]

/-- A free slot that is taken adds a record. -/
theorem recordsFrom_set (form : Form R) {j : ℕ} (h : slots[j]? = some slot)
    (hused : slot.used = false) (i : ℕ)
    (row : R) : (recordsFrom form i (slots.set j ⟨true, row⟩)).Perm
      ((form.rid (i + j), row) :: recordsFrom form i slots) := by
  obtain ⟨hlt, hslot⟩ := List.getElem?_eq_some_iff.mp h
  have hsplit : slots = slots.take j ++ slot :: slots.drop (j + 1) := by
    rw [← hslot, ← List.drop_eq_getElem_cons hlt, List.take_append_drop]
  have hlen : (slots.take j).length = j := by
    rw [List.length_take]
    omega
  have hset : slots.set j ⟨true, row⟩ = slots.take j ++ ⟨true, row⟩ :: slots.drop (j + 1) := by
    rw [List.set_eq_take_append_cons_drop, if_pos hlt]
  have hnone : recordOf form (i + j) slot = [] := by
    unfold recordOf
    rw [hused]
    rfl
  have hsome : recordOf form (i + j) ⟨true, row⟩ = [(form.rid (i + j), row)] := rfl
  rw [hset]
  conv => rhs; rw [hsplit]
  rw [recordsFrom_append, recordsFrom_append, recordsFrom_cons, recordsFrom_cons, hlen,
    hnone, hsome]
  exact List.perm_middle

theorem emptyBlock_unused (form : Form R) : ∀ slot ∈ form.emptyBlock, slot.used = false := by
  intro slot hslot
  rw [(List.mem_replicate.mp hslot).2]

theorem records_append_emptyBlock (slots : List (Slot R)) :
    records form (slots ++ form.emptyBlock) = records form slots := by
  unfold records
  rw [recordsFrom_append, recordsFrom_unused (emptyBlock_unused form), List.append_nil]

theorem records_new (slots : List (Slot R)) :
    records form (TableScan.new form slots).slots = records form slots := by
  unfold TableScan.new
  split
  · rename_i hnil
    rw [hnil]
    exact recordsFrom_unused (emptyBlock_unused form) 0
  · rfl

theorem mem_recordsFrom {i : ℕ} {rid : Rid} {row : R} :
    (rid, row) ∈ recordsFrom form i slots ↔ ∃ k slot, slots[k]? = some slot ∧ slot.used = true ∧
      rid = form.rid (i + k) ∧ row = slot.row := by
  induction slots generalizing i with
  | nil =>
    refine ⟨(fun h => by cases h), ?_⟩
    rintro ⟨k, slot, h, -⟩
    cases h
  | cons slot slots ih =>
    rw [recordsFrom_cons, List.mem_append, ih]
    constructor
    · rintro (hone | ⟨k, slot', hslot, hused, hrid, hrow⟩)
      · unfold recordOf at hone
        split at hone
        · rename_i hused
          cases List.mem_singleton.mp hone
          exact ⟨0, slot, rfl, hused, rfl, rfl⟩
        · cases hone
      · exact ⟨k + 1, slot', hslot, hused, by rw [hrid]; congr 1; omega, hrow⟩
    · rintro ⟨k, slot', hslot, hused, rfl, rfl⟩
      cases k with
      | zero =>
        cases hslot
        left
        rw [recordOf_used hused]
        exact List.mem_singleton_self _
      | succ k => exact Or.inr ⟨k, slot', hslot, hused, by congr 1; omega, rfl⟩

theorem Form.rid_before (form : Form R) {i j : ℕ} (h : i < j) :
    (form.rid i).Before (form.rid j) := by
  have hi := Nat.div_add_mod i form.perBlock
  have hj := Nat.div_add_mod j form.perBlock
  rcases Nat.lt_or_ge (i / form.perBlock) (j / form.perBlock) with hlt | hge
  · exact Or.inl hlt
  · have hle : i / form.perBlock ≤ j / form.perBlock := Nat.div_le_div_right (Nat.le_of_lt h)
    have heq : i / form.perBlock = j / form.perBlock := by omega
    refine Or.inr ⟨heq, ?_⟩
    show i % form.perBlock < j % form.perBlock
    rw [heq] at hi
    omega

/-- The records are listed in the order of their identifiers. -/
theorem recordsFrom_pairwise (form : Form R) (slots : List (Slot R)) (i : ℕ) :
    ((recordsFrom form i slots).map Prod.fst).Pairwise Rid.Before := by
  induction slots generalizing i with
  | nil => exact List.Pairwise.nil
  | cons slot slots ih =>
    rw [recordsFrom_cons]
    unfold recordOf
    split
    · refine List.Pairwise.cons ?_ (ih (i + 1))
      intro rid hrid
      obtain ⟨⟨rid', row⟩, hmem, rfl⟩ := List.mem_map.mp hrid
      obtain ⟨k, -, -, -, rfl, -⟩ := mem_recordsFrom.mp hmem
      exact form.rid_before (by omega)
    · exact ih (i + 1)

/-- The records from a place on are the one that a search finds and those behind it. -/
theorem recordsFrom_drop (form : Form R) (slots : List (Slot R)) (start : ℕ) :
    (∃ i slot, search slots start true = some i ∧ slots[i]? = some slot ∧ start ≤ i ∧
      recordsFrom form start (slots.drop start) =
        (form.rid i, slot.row) :: recordsFrom form (i + 1) (slots.drop (i + 1))) ∨
    (search slots start true = none ∧ recordsFrom form start (slots.drop start) = []) := by
  obtain ⟨k, hk⟩ : ∃ k, k = slots.length - start := ⟨_, rfl⟩
  induction k generalizing start with
  | zero =>
    have hend : slots.length ≤ start := by omega
    rw [search_end hend, List.drop_eq_nil_of_le hend]
    exact Or.inr ⟨rfl, rfl⟩
  | succ k ih =>
    have hlt : start < slots.length := by omega
    have hget : slots[start]? = some slots[start] := List.getElem?_eq_getElem hlt
    rw [List.drop_eq_getElem_cons hlt, recordsFrom_cons]
    cases hused : slots[start].used with
    | true =>
      rw [search_here hget hused, recordOf_used hused]
      exact Or.inl ⟨start, slots[start], rfl, hget, Nat.le_refl _, rfl⟩
    | false =>
      rw [search_skip hget (by rw [hused]; decide), recordOf_unused hused, List.nil_append]
      rcases ih (start + 1) (by omega) with ⟨i, slot, hfound, hslot, hle, hrecords⟩ | hnone
      · exact Or.inl ⟨i, slot, hfound, hslot, by omega, hrecords⟩
      · exact Or.inr hnone

end Records

section Entries

variable {sat : R → Result Bool} {act : ℕ → Slot R → σ → Result (Slot R × σ)}
  {slots slots' : List (Slot R)} {i : ℕ} {s s' : σ}

theorem visit_cases {slot slot' : Slot R} (h : visit sat act i slot s = .ok (slot', s')) :
    (slot' = slot ∧ s' = s) ∨ (slot.used = true ∧ act i slot s = .ok (slot', s')) := by
  unfold visit isSelected at h
  cases hused : slot.used with
  | false =>
    rw [hused] at h
    cases h
    exact Or.inl ⟨rfl, rfl⟩
  | true =>
    rw [hused, if_pos rfl] at h
    obtain ⟨selected, -, h⟩ := bind_eq_ok.mp h
    cases selected with
    | false =>
      cases h
      exact Or.inl ⟨rfl, rfl⟩
    | true => exact Or.inr ⟨rfl, h⟩

theorem walk_cases {slot : Slot R} (h : walk sat act i (slot :: slots) s = .ok (slots', s')) :
    ∃ slot₁ s₁ slots₁, visit sat act i slot s = .ok (slot₁, s₁) ∧
      walk sat act (i + 1) slots s₁ = .ok (slots₁, s') ∧ slots' = slot₁ :: slots₁ := by
  rw [walk] at h
  obtain ⟨⟨slot₁, s₁⟩, hvisit, h⟩ := bind_eq_ok.mp h
  obtain ⟨⟨slots₁, s₂⟩, hwalk, h⟩ := bind_eq_ok.mp h
  cases h
  exact ⟨slot₁, s₁, slots₁, hvisit, hwalk, rfl⟩

/-- What every visit preserves holds at the end. -/
theorem walk_invariant {P : σ → Prop} {Q : Slot R → Prop}
    (hact : ∀ i slot s slot' s', slot.used = true → Q slot → P s →
      act i slot s = .ok (slot', s') → Q slot' ∧ P s')
    (hslots : ∀ slot ∈ slots, Q slot) (hs : P s) (h : walk sat act i slots s = .ok (slots', s')) :
    (∀ slot ∈ slots', Q slot) ∧ P s' := by
  induction slots generalizing i s slots' with
  | nil =>
    cases h
    exact ⟨hslots, hs⟩
  | cons slot slots ih =>
    rw [List.forall_mem_cons] at hslots
    obtain ⟨slot₁, s₁, slots₁, hvisit, hwalk, rfl⟩ := walk_cases h
    have hone : Q slot₁ ∧ P s₁ := by
      rcases visit_cases hvisit with ⟨rfl, rfl⟩ | ⟨hused, hok⟩
      · exact ⟨hslots.1, hs⟩
      · exact hact i slot s slot₁ s₁ hused hslots.1 hs hok
    obtain ⟨hrest, hs'⟩ := ih hslots.2 hone.2 hwalk
    exact ⟨List.forall_mem_cons.mpr ⟨hone.1, hrest⟩, hs'⟩

/-- A bag that every visit keeps in step with the record of its slot is in step with all
records at the end. -/
theorem walk_entries {α : Type} (form : Form R) (content : σ → List α) (entry : Rid × R → α)
    {Q : Slot R → Prop} (hact : ∀ i slot s slot' s', slot.used = true → Q slot →
      act i slot s = .ok (slot', s') → ∀ A : List α,
      (content s).Perm ((recordOf form i slot).map entry ++ A) →
      (content s').Perm ((recordOf form i slot').map entry ++ A))
    (hslots : ∀ slot ∈ slots, Q slot) (h : walk sat act i slots s = .ok (slots', s'))
    (A : List α) (hperm : (content s).Perm ((recordsFrom form i slots).map entry ++ A)) :
    (content s').Perm ((recordsFrom form i slots').map entry ++ A) := by
  induction slots generalizing i s slots' A with
  | nil =>
    cases h
    exact hperm
  | cons slot slots ih =>
    rw [List.forall_mem_cons] at hslots
    obtain ⟨slot₁, s₁, slots₁, hvisit, hwalk, rfl⟩ := walk_cases h
    rw [recordsFrom_cons, List.map_append, List.append_assoc] at hperm
    have hone : (content s₁).Perm ((recordOf form i slot₁).map entry ++
        ((recordsFrom form (i + 1) slots).map entry ++ A)) := by
      rcases visit_cases hvisit with ⟨rfl, rfl⟩ | ⟨hused, hok⟩
      · exact hperm
      · exact hact i slot s slot₁ s₁ hused hslots.1 hok _ hperm
    have hswap := hone.trans (List.perm_append_comm_assoc _ _ A)
    have hrest := ih hslots.2 hwalk _ hswap
    rw [recordsFrom_cons, List.map_append, List.append_assoc]
    exact hrest.trans (List.perm_append_comm_assoc _ _ A)

end Entries

section Insert

variable {form : Form R} {slots : List (Slot R)} {start i : ℕ} {used : Bool}

theorem search_eq_some (h : search slots start used = some i) :
    start ≤ i ∧ ∃ slot, slots[i]? = some slot ∧ slot.used = used := by
  unfold search at h
  obtain ⟨j, hj, rfl⟩ := Option.map_eq_some_iff.mp h
  obtain ⟨hlt, hused, -⟩ := List.findIdx?_eq_some_iff_getElem.mp hj
  refine ⟨Nat.le_add_right start j, _, List.getElem?_drop.symm.trans
    (List.getElem?_eq_getElem hlt), of_decide_eq_true hused⟩

theorem modify_eq_set {α : Type} {l : List α} {a : α} (h : l[i]? = some a) (f : α → α) :
    l.modify i f = l.set i (f a) := by
  obtain ⟨hlt, rfl⟩ := List.getElem?_eq_some_iff.mp h
  rw [List.modify_eq_take_cons_drop hlt, List.set_eq_take_append_cons_drop, if_pos hlt]

/-- The slot that an insertion takes was free; it is one of the file or of a new block, and is
not in front of the cursor. -/
theorem insert_cases (form : Form R) (ts : TableScan R) : ∃ (slots : List (Slot R)) (i : ℕ)
    (slot : Slot R), (slots = ts.slots ∨ slots = ts.slots ++ form.emptyBlock) ∧
      slots[i]? = some slot ∧ slot.used = false ∧ ts.insert form =
        { ts with slots := slots.set i { slot with used := true } }.moveTo form i ∧
      min (ts.start form) ts.slots.length ≤ i := by
  unfold TableScan.insert
  cases hsearch : search ts.slots (ts.start form) false with
  | some i =>
    obtain ⟨hstart, slot, hslot, hused⟩ := search_eq_some hsearch
    refine ⟨ts.slots, i, slot, Or.inl rfl, hslot, hused, ?_,
      Nat.le_trans (Nat.min_le_left _ _) hstart⟩
    simp only [modify_eq_set hslot]
  | none =>
    have hslot : (ts.slots ++ form.emptyBlock)[ts.slots.length]? = some ⟨false, form.blank⟩ := by
      rw [List.getElem?_append_right (Nat.le_refl _), Nat.sub_self]
      unfold Form.emptyBlock
      rw [List.getElem?_replicate, if_pos form.pos]
    refine ⟨ts.slots ++ form.emptyBlock, ts.slots.length, ⟨false, form.blank⟩, Or.inr rfl, hslot,
      rfl, ?_, Nat.min_le_right _ _⟩
    simp only [modify_eq_set hslot]

end Insert

end SampleDB.TableScans
