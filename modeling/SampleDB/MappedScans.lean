import SampleDB.TableScans

/-!
Scans over slots whose rows are read in another way. The search looks at the flags only, so a
scan and its image under a map of the rows go through the file together.
-/
namespace SampleDB.MappedScans

open Pages TableScans

variable {R R' : Type}

def mapSlot (f : R → R') (slot : Slot R) : Slot R' := ⟨slot.used, f slot.row⟩

def mapForm (f : R → R') (form : Form R) : Form R' := ⟨form.perBlock, form.pos, f form.blank⟩

def mapScan (f : R → R') (ts : TableScan R) : TableScan R' :=
  ⟨ts.slots.map (mapSlot f), ts.block, ts.slot⟩

variable {f : R → R'} {form : Form R} {ts : TableScan R}

@[simp]
theorem mapForm_perBlock : (mapForm f form).perBlock = form.perBlock := rfl

@[simp]
theorem mapScan_slots : (mapScan f ts).slots = ts.slots.map (mapSlot f) := rfl

theorem search_map (slots : List (Slot R)) (start : ℕ) (used : Bool) :
    search (slots.map (mapSlot f)) start used = search slots start used := by
  unfold search
  rw [← List.map_drop, List.findIdx?_map]
  rfl

theorem mapScan_start : (mapScan f ts).start (mapForm f form) = ts.start form := rfl

theorem emptyBlock_map :
    (mapForm f form).emptyBlock = form.emptyBlock.map (mapSlot f) := by
  unfold Form.emptyBlock
  rw [List.map_replicate]
  rfl

theorem mapScan_new (slots : List (Slot R)) :
    TableScan.new (mapForm f form) (slots.map (mapSlot f)) =
      mapScan f (TableScan.new form slots) := by
  unfold TableScan.new mapScan
  cases slots with
  | nil => simp [emptyBlock_map]
  | cons slot slots => simp

theorem mapScan_next :
    (mapScan f ts).next (mapForm f form) = ((ts.next form).1, mapScan f (ts.next form).2) := by
  unfold TableScan.next
  rw [mapScan_start, mapScan_slots, search_map]
  cases search ts.slots (ts.start form) true with
  | some i => rfl
  | none => simp [mapScan]

theorem modify_map (slots : List (Slot R)) (i : ℕ) :
    (slots.map (mapSlot f)).modify i (fun slot => { slot with used := true }) =
      (slots.modify i (fun slot => { slot with used := true })).map (mapSlot f) := by
  apply List.ext_getElem?
  intro j
  simp only [List.getElem?_modify, List.getElem?_map]
  cases slots[j]? with
  | none => rfl
  | some slot =>
    by_cases hij : i = j <;> simp [hij, mapSlot]

theorem mapScan_insert :
    (mapScan f ts).insert (mapForm f form) = mapScan f (ts.insert form) := by
  unfold TableScan.insert
  rw [mapScan_start, mapScan_slots, search_map]
  cases search ts.slots (ts.start form) false with
  | some i =>
    dsimp only
    rw [modify_map]
    rfl
  | none =>
    dsimp only
    rw [emptyBlock_map, ← List.map_append, List.length_map, modify_map]
    rfl

theorem mapScan_get :
    (mapScan f ts).get (mapForm f form) =
      (ts.get form).map (fun p => (p.1, mapSlot f p.2)) := by
  have hcurrent : (mapScan f ts).current (mapForm f form) = ts.current form := rfl
  unfold TableScan.get
  rw [hcurrent]
  cases ts.current form with
  | none => rfl
  | some i =>
    simp only [mapScan_slots, List.getElem?_map]
    cases ts.slots[i]? <;> rfl

theorem mapScan_setSlot (i : ℕ) (slot : Slot R) :
    (mapScan f ts).setSlot i (mapSlot f slot) = mapScan f (ts.setSlot i slot) := by
  unfold TableScan.setSlot mapScan
  rw [List.map_set]

end SampleDB.MappedScans
