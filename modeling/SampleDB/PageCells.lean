import SampleDB.PageValues

/-!
Cells of a page: places, each with the bytes that it may use, that lie inside the page and do not
overlap. A write to one cell leaves the values of the others alone.
-/
namespace SampleDB.PageCells

open Slices Words Pages Rollback Endings PageValues

variable {ι : Type}

/-- Cells that lie inside a page of `n` bytes, apart from each other. -/
structure Places (n : ℕ) (Of : ι → Prop) (pos : ι → Int32) (width : ι → ℕ) : Prop where
  inside : ∀ c, Of c → 0 ≤ (pos c).toInt ∧ (pos c).toInt + width c ≤ n
  four_le : ∀ c, Of c → 4 ≤ width c
  apart : ∀ c c', Of c → Of c' → c' ≠ c →
    (pos c').toInt + width c' ≤ (pos c).toInt ∨ (pos c).toInt + width c ≤ (pos c').toInt

/-- The cell has a value, which stays inside it. -/
structure Holds (pos : ι → Int32) (width : ι → ℕ) (p : Page) (c : ι) (val : Value) : Prop where
  get : get p (pos c) (kind val) = .ok val
  size : val.size ≤ width c

section Writes

variable {n : ℕ} {Of : ι → Prop} {pos : ι → Int32} {width : ι → ℕ} {p q : Page} {c : ι}
  {val : Value}

theorem Places.isShort (h : Places n Of pos width) (hn : n < 2147483648) (hc : Of c)
    (hsize : val.size ≤ width c) : IsShort val := by
  obtain ⟨hstart, hend⟩ := h.inside c hc
  cases val with
  | int x => trivial
  | string s =>
    rw [size_string] at hsize
    show s.length < 2147483648
    omega

theorem Places.set_ok (h : Places n Of pos width) (hn : n < 2147483648) (hp : p.length = n)
    (hc : Of c) (hsize : val.size ≤ width c) : ∃ q, set p (pos c) val = .ok q := by
  obtain ⟨hstart, hend⟩ := h.inside c hc
  cases val with
  | int x =>
    have hfour := h.four_le c hc
    exact ⟨_, Page.setInt_ok p _ x hstart (by omega) (by omega)⟩
  | string s =>
    rw [size_string] at hsize
    exact ⟨_, Page.setBytes_ok p _ s hstart (by omega) (by omega)⟩

/-- Another cell has the value that it had. -/
theorem Places.holds_of_set (h : Places n Of pos width) (hn : n < 2147483648) (hp : p.length = n)
    (hc : Of c) (hsize : val.size ≤ width c) (hset : set p (pos c) val = .ok q) {c' : ι}
    (hc' : Of c') (hne : c' ≠ c) {v : Value} (hv : Holds pos width p c' v) :
    Holds pos width q c' v := by
  obtain ⟨hstart, hend⟩ := h.inside c hc
  have happ := h.apart c c' hc hc' hne
  have hlen := valueBytes_length val
  refine ⟨?_, hv.size⟩
  obtain ⟨-, -, rfl⟩ := set_eq_ok (h.isShort hn hc hsize) (by omega) hset
  rw [get_splice (by rw [hlen]; omega) _ ?_ (h.four_le c' hc') ?_]
  · exact hv.get
  · intro w hw
    rw [hv.get] at hw
    cases hw
    exact hv.size
  · rw [hlen]
    omega

/-- A write to a cell. -/
theorem Places.set (h : Places n Of pos width) (hn : n < 2147483648) (hp : p.length = n)
    (hc : Of c) (hsize : val.size ≤ width c) :
    ∃ q, set p (pos c) val = .ok q ∧ q.length = n ∧ Holds pos width q c val ∧
      ∀ c', Of c' → c' ≠ c → ∀ v, Holds pos width p c' v → Holds pos width q c' v := by
  obtain ⟨q, hset⟩ := h.set_ok hn hp hc hsize
  have hshort := h.isShort hn hc hsize
  refine ⟨q, hset, by rw [set_length hshort (by omega) hset, hp],
    ⟨get_set hshort (by omega) hset, hsize⟩, ?_⟩
  intro c' hc' hne v hv
  exact h.holds_of_set hn hp hc hsize hset hc' hne hv

end Writes

end SampleDB.PageCells
