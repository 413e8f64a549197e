import Mathlib.Data.Multiset.Filter
import Mathlib.Data.Multiset.Replicate
import SampleDB.TableScans

/-!
Slots as two bags: the rows of the records, and the rows that the free slots still hold. An
insertion moves a row from one bag to the other, or takes that of a new slot; a loop over the
records that frees them or changes them is a filter or a map.
-/
namespace SampleDB.SlotBags

open Pages TableScans

variable {R σ : Type}

/-- The rows of the slots with this flag. -/
def rows (used : Bool) (slots : List (Slot R)) : Multiset R :=
  ((slots.filter (fun slot => slot.used = used)).map Slot.row : List R)

section Bags

variable {u : Bool} {slots slots' : List (Slot R)} {slot : Slot R} {form : Form R}

@[simp]
theorem rows_true_used (row : R) : rows true (⟨true, row⟩ :: slots) = row ::ₘ rows true slots := rfl

@[simp]
theorem rows_true_free (row : R) : rows true (⟨false, row⟩ :: slots) = rows true slots := rfl

@[simp]
theorem rows_false_used (row : R) : rows false (⟨true, row⟩ :: slots) = rows false slots := rfl

@[simp]
theorem rows_false_free (row : R) :
    rows false (⟨false, row⟩ :: slots) = row ::ₘ rows false slots := rfl

@[simp]
theorem rows_nil (used : Bool) : rows used ([] : List (Slot R)) = 0 := rfl

theorem rows_append : rows u (slots ++ slots') = rows u slots + rows u slots' := by
  simp [rows]

theorem mem_rows {row : R} : row ∈ rows u slots ↔ ∃ slot ∈ slots, slot.used = u ∧
    slot.row = row := by
  simp [rows, and_assoc]

theorem rows_emptyBlock (form : Form R) :
    rows true form.emptyBlock = 0 ∧
      rows false form.emptyBlock = Multiset.replicate form.perBlock form.blank := by
  simp [rows, Form.emptyBlock, Multiset.coe_replicate]

/-- A slot that is set changes the bag of its old flag and the one of its new flag. -/
theorem rows_set {i : ℕ} (h : slots[i]? = some slot) (slot' : Slot R) :
    rows u (slots.set i slot') + rows u [slot] = rows u slots + rows u [slot'] := by
  obtain ⟨hlt, hslot⟩ := List.getElem?_eq_some_iff.mp h
  have hsplit : slots = slots.take i ++ ([slot] ++ slots.drop (i + 1)) := by
    rw [← hslot, List.singleton_append, ← List.drop_eq_getElem_cons hlt, List.take_append_drop]
  have hset : slots.set i slot' = slots.take i ++ ([slot'] ++ slots.drop (i + 1)) := by
    rw [List.set_eq_take_append_cons_drop, if_pos hlt]
    rfl
  rw [hset]
  conv => rhs; rw [hsplit]
  simp only [rows_append]
  rw [Multiset.add_assoc, Multiset.add_assoc, Multiset.add_assoc, Multiset.add_assoc]
  congr 1
  rw [Multiset.add_comm, Multiset.add_comm (rows u (slots.drop (i + 1))), Multiset.add_assoc]

end Bags

section Insertion

variable {form : Form R} {slots : List (Slot R)}

/-- An insertion takes the row of a free slot, or of one in a new block. -/
theorem insert_takes (form : Form R) (ts : TableScan R) : ∃ i old k,
    (ts.insert form).get form = .ok (i, ⟨true, old⟩) ∧
    ∀ row, rows true ((ts.insert form).setSlot i ⟨true, row⟩).slots = row ::ₘ rows true ts.slots ∧
      rows false ts.slots + Multiset.replicate k form.blank =
        old ::ₘ rows false ((ts.insert form).setSlot i ⟨true, row⟩).slots := by
  obtain ⟨slots, i, ⟨used, old⟩, hslots, hslot, hused, heq, -⟩ := insert_cases form ts
  obtain rfl : used = false := hused
  have hlt := (List.getElem?_eq_some_iff.mp hslot).1
  have hbags : ∃ k, rows true slots = rows true ts.slots ∧
      rows false slots = rows false ts.slots + Multiset.replicate k form.blank := by
    rcases hslots with hsame | hlonger
    · refine ⟨0, ?_⟩
      rw [hsame]
      simp
    · refine ⟨form.perBlock, ?_⟩
      rw [hlonger, rows_append, rows_append, (rows_emptyBlock form).1, (rows_emptyBlock form).2]
      simp
  obtain ⟨k, htaken, hfree⟩ := hbags
  refine ⟨i, old, k, ?_, fun row => ?_⟩
  · rw [heq]
    exact get_moveTo form _ (List.getElem?_set_self hlt)
  · have hset : ((ts.insert form).setSlot i ⟨true, row⟩).slots = slots.set i ⟨true, row⟩ := by
      rw [heq]
      exact List.set_set _
    have htrue := rows_set (u := true) hslot ⟨true, row⟩
    have hfalse := rows_set (u := false) hslot ⟨true, row⟩
    simp only [rows_true_used, rows_true_free, rows_false_used, rows_false_free, rows_nil,
      Multiset.add_zero, Multiset.add_cons] at htrue hfalse
    rw [hset, ← htaken, ← hfree]
    exact ⟨htrue, hfalse.symm⟩

/-- A scan that is opened adds a block to an empty file. -/
theorem rows_new (form : Form R) (slots : List (Slot R)) : ∃ k,
    rows true (TableScan.new form slots).slots = rows true slots ∧
      rows false (TableScan.new form slots).slots =
        rows false slots + Multiset.replicate k form.blank := by
  unfold TableScan.new
  split
  · rename_i hnil
    rw [hnil]
    refine ⟨form.perBlock, ?_⟩
    simpa [rows] using rows_emptyBlock form
  · exact ⟨0, rfl, by simp⟩

end Insertion

section Walks

variable {isSatisfied : R → Result Bool} {act : ℕ → Slot R → σ → Result (Slot R × σ)}
  {slots slots' : List (Slot R)} {i : ℕ} {s s' : σ}

/-- The slots of the selected records are freed. -/
def freed (sat : R → Bool) (slots : List (Slot R)) : List (Slot R) :=
  slots.map (fun slot => if slot.used && sat slot.row then { slot with used := false } else slot)

/-- The rows of the selected records are changed. -/
def changed (sat : R → Bool) (f : R → R) (slots : List (Slot R)) : List (Slot R) :=
  slots.map (fun slot =>
    if slot.used && sat slot.row then { slot with row := f slot.row } else slot)

@[simp]
theorem freed_free (sat : R → Bool) (row : R) (slots : List (Slot R)) :
    freed sat (⟨false, row⟩ :: slots) = ⟨false, row⟩ :: freed sat slots := rfl

@[simp]
theorem freed_used (sat : R → Bool) (row : R) (slots : List (Slot R)) :
    freed sat (⟨true, row⟩ :: slots) =
      (if sat row then ⟨false, row⟩ else ⟨true, row⟩) :: freed sat slots := rfl

@[simp]
theorem changed_free (sat : R → Bool) (f : R → R) (row : R) (slots : List (Slot R)) :
    changed sat f (⟨false, row⟩ :: slots) = ⟨false, row⟩ :: changed sat f slots := rfl

@[simp]
theorem changed_used (sat : R → Bool) (f : R → R) (row : R) (slots : List (Slot R)) :
    changed sat f (⟨true, row⟩ :: slots) =
      (if sat row then ⟨true, f row⟩ else ⟨true, row⟩) :: changed sat f slots := rfl

end Walks

end SampleDB.SlotBags
