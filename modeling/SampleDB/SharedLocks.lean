import Mathlib.Data.List.Basic
import Mathlib.Data.Int.Notation
import SampleDB.Locking

/-!
A lock table with two groups of lock managers. What the table and a manager have for one block
is a cell. The cell of one group by itself and the one that is shared with another group agree
as long as no request meets a lock of the other group, shared locks apart that the table counts.
-/
namespace SampleDB.SharedLocks

open Locking

/-- The value of a block in the lock table, and the entry that a manager has for it. -/
structure Cell where
  value : ℤ
  entry : Option LockType

namespace Cell

/-- `ConcurrencyMgr::sLock`; no other call comes in between, so a request that has to wait
ends in the exception, and the flag is false. -/
def sLock (c : Cell) : Cell × Bool :=
  match c.entry with
  | some _ => (c, true)
  | none => if c.value < 0 then (⟨c.value, some .S⟩, false) else (⟨c.value + 1, some .S⟩, true)

def xLock (c : Cell) : Cell × Bool :=
  if c.entry = some .X then (c, true)
  else
    let (c, granted) := c.sLock
    if granted then
      if c.value > 1 then (⟨c.value, some .X⟩, false) else (⟨-1, some .X⟩, true)
    else (c, false)

def request : LockType → Cell → Cell × Bool
  | .S, c => c.sLock
  | .X, c => c.xLock

/-- `ConcurrencyMgr::release`, for one block. -/
def release (c : Cell) : ℤ :=
  match c.entry with
  | none => c.value
  | some _ => if c.value > 1 then c.value - 1 else 0

end Cell

/-- What the managers of a group have for one block. -/
abbrev Entries := List (Option LockType)

namespace Entries

def count (e : Entries) : ℕ := e.countP Option.isSome

/-- No manager has the block exclusively. -/
def Shared (e : Entries) : Prop := some .X ∉ e

end Entries

/-- The other group has no lock where this manager asks, or the two share one that the table
counts. -/
def Apart (t : LockType) (c : Cell) (own other : Entries) : Prop :=
  match t with
  | .S => c.entry ≠ none ∨ other.count = 0 ∨
      (other.Shared ∧ c.value = own.count + other.count)
  | .X => c.entry = some .X ∨ other.count = 0

/-- The shared value and the value of one group by itself. -/
structure Agree (shared alone : ℤ) (own other : Entries) : Prop where
  same : other.count = 0 → shared = alone
  counted : other.count ≠ 0 → own.count = 0 ∨
    (own.Shared ∧ other.Shared ∧ shared = own.count + other.count ∧ alone = own.count)

/-- The table has no more locks than there are entries. -/
def Bounded (value : ℤ) (n : ℕ) : Prop := value ≤ n ∧ (n = 0 → 0 ≤ value)

section Counts

variable {e : Entries} {i : ℕ} {l l' : Option LockType}

theorem count_set (h : e[i]? = some l) (l' : Option LockType) :
    Entries.count (e.set i l') + (if l.isSome then 1 else 0) =
      e.count + (if l'.isSome then 1 else 0) := by
  unfold Entries.count
  induction e generalizing i with
  | nil => cases h
  | cons l₀ e ih =>
    cases i with
    | zero =>
      cases h
      rw [List.set_cons_zero, List.countP_cons, List.countP_cons]
      omega
    | succ i =>
      have hrest := ih h
      rw [List.set_cons_succ, List.countP_cons, List.countP_cons]
      omega

theorem count_add (h : e[i]? = some none) (t : LockType) :
    Entries.count (e.set i (some t)) = e.count + 1 := by
  have hset := count_set h (some t)
  simpa using hset

theorem count_keep {t : LockType} (h : e[i]? = some (some t)) (t' : LockType) :
    Entries.count (e.set i (some t')) = e.count := by
  have hset := count_set h (some t')
  simpa using hset

theorem count_remove {t : LockType} (h : e[i]? = some (some t)) :
    Entries.count (e.set i none) + 1 = e.count := by
  have hset := count_set h none
  simpa using hset

theorem count_pos {t : LockType} (h : e[i]? = some (some t)) : 0 < e.count :=
  List.countP_pos_iff.mpr ⟨some t, List.mem_of_getElem? h, rfl⟩

theorem Shared.set (h : e.Shared) (hl : l ≠ some .X) : Entries.Shared (e.set i l) := by
  intro hmem
  cases List.mem_or_eq_of_mem_set hmem with
  | inl hold => exact h hold
  | inr heq => exact hl heq.symm

theorem set_self (h : e[i]? = some l) : e.set i l = e := by
  apply List.ext_getElem?
  intro j
  by_cases heq : i = j
  · subst heq
    rw [List.getElem?_set_self (List.getElem?_eq_some_iff.mp h).1, h]
  · rw [List.getElem?_set_ne heq]

end Counts

section Requests

variable {shared alone value : ℤ} {own other : Entries} {i n : ℕ} {l : Option LockType}
  {t : LockType}

/-- What a request makes of a cell. -/
theorem request_cases (t : LockType) (value : ℤ) (l : Option LockType) :
    (l ≠ none ∧ (t = .S ∨ l = some .X) ∧ Cell.request t ⟨value, l⟩ = (⟨value, l⟩, true)) ∨
    (l = none ∧ value < 0 ∧ Cell.request t ⟨value, l⟩ = (⟨value, some .S⟩, false)) ∨
    (l = none ∧ 0 ≤ value ∧ t = .S ∧ Cell.request t ⟨value, l⟩ = (⟨value + 1, some .S⟩, true)) ∨
    (t = .X ∧ l ≠ some .X ∧ ∃ value' granted,
      Cell.request t ⟨value, l⟩ = (⟨value', some .X⟩, granted) ∧
      (value' = -1 ∨ value' = value + if l = none then 1 else 0)) := by
  unfold Cell.request Cell.xLock Cell.sLock
  cases t with
  | S =>
    cases l with
    | some u => exact Or.inl ⟨Option.some_ne_none u, Or.inl rfl, rfl⟩
    | none =>
      by_cases hneg : value < 0
      · exact Or.inr (Or.inl ⟨rfl, hneg, if_pos hneg⟩)
      · exact Or.inr (Or.inr (Or.inl ⟨rfl, by omega, rfl, if_neg hneg⟩))
  | X =>
    cases l with
    | some u =>
      cases u with
      | X => exact Or.inl ⟨Option.some_ne_none _, Or.inr rfl, rfl⟩
      | S =>
        refine Or.inr (Or.inr (Or.inr ⟨rfl, by decide, ?_⟩))
        by_cases hmany : value > 1
        · exact ⟨value, false, by simp [hmany], Or.inr (by simp)⟩
        · exact ⟨-1, true, by simp [hmany], Or.inl rfl⟩
    | none =>
      by_cases hneg : value < 0
      · exact Or.inr (Or.inl ⟨rfl, hneg, by simp [hneg]⟩)
      · refine Or.inr (Or.inr (Or.inr ⟨rfl, by decide, ?_⟩))
        by_cases hmany : value + 1 > 1
        · exact ⟨value + 1, false, by simp [hneg, hmany], Or.inr rfl⟩
        · exact ⟨-1, true, by simp [hneg, hmany], Or.inl rfl⟩

/-- The manager has the lock already. -/
theorem request_kept (value : ℤ) (hl : l ≠ none) (ht : t = .S ∨ l = some .X) :
    Cell.request t ⟨value, l⟩ = (⟨value, l⟩, true) := by
  rcases ht with rfl | rfl
  · cases l with
    | none => exact absurd rfl hl
    | some u => rfl
  · cases t <;> rfl

theorem Bounded.request (h : Bounded value (own.count + n)) (hi : own[i]? = some l) :
    Bounded (Cell.request t ⟨value, l⟩).1.value
      (Entries.count (own.set i (Cell.request t ⟨value, l⟩).1.entry) + n) := by
  obtain ⟨hle, hnonneg⟩ := h
  rcases request_cases t value l with
    ⟨hl, -, h⟩ | ⟨rfl, hneg, h⟩ | ⟨rfl, hpos, -, h⟩ | ⟨-, -, value', _, h, hvalue⟩
  · rw [h, set_self hi]
    exact ⟨hle, hnonneg⟩
  · rw [h, count_add hi]
    dsimp only
    exact ⟨by omega, by omega⟩
  · rw [h, count_add hi]
    dsimp only
    exact ⟨by omega, by omega⟩
  · rw [h]
    dsimp only
    cases l with
    | none =>
      rw [count_add hi]
      rw [if_pos rfl] at hvalue
      exact ⟨by omega, by omega⟩
    | some u =>
      have hpos := count_pos hi
      rw [count_keep hi]
      rw [if_neg (Option.some_ne_none u), Int.add_zero] at hvalue
      exact ⟨by omega, by omega⟩

theorem release_some (value : ℤ) (t : LockType) :
    Cell.release ⟨value, some t⟩ = if value > 1 then value - 1 else 0 := rfl

theorem Bounded.release (h : Bounded value (own.count + n)) (hi : own[i]? = some l) :
    Bounded (Cell.release ⟨value, l⟩) (Entries.count (own.set i none) + n) := by
  cases l with
  | none =>
    rw [set_self hi]
    exact h
  | some u =>
    obtain ⟨hle, -⟩ := h
    have hcount := count_remove hi
    rw [release_some]
    split
    · exact ⟨by omega, by omega⟩
    · exact ⟨by omega, by omega⟩

/-- No entry at all is exclusive. -/
theorem shared_of_count (h : own.count = 0) : own.Shared := by
  intro hmem
  have hpos : 0 < own.count := List.countP_pos_iff.mpr ⟨some .X, hmem, rfl⟩
  omega

theorem Agree.of_none (h : other.count = 0) (value : ℤ) : Agree value value own other :=
  ⟨fun _ => rfl, fun hne => absurd h hne⟩

/-- A request of the group itself has the same answer with and without the other group. -/
theorem Agree.request (h : Agree shared alone own other) (hbound : Bounded alone own.count)
    (hi : own[i]? = some l) (hapart : Apart t ⟨shared, l⟩ own other) :
    (Cell.request t ⟨shared, l⟩).1.entry = (Cell.request t ⟨alone, l⟩).1.entry ∧
      (Cell.request t ⟨shared, l⟩).2 = (Cell.request t ⟨alone, l⟩).2 ∧
      Agree (Cell.request t ⟨shared, l⟩).1.value (Cell.request t ⟨alone, l⟩).1.value
        (own.set i (Cell.request t ⟨shared, l⟩).1.entry) other := by
  by_cases hother : other.count = 0
  · rw [h.same hother]
    exact ⟨rfl, rfl, Agree.of_none hother _⟩
  · have hsame : l ≠ none → (t = .S ∨ l = some .X) →
        (Cell.request t ⟨shared, l⟩).1.entry = (Cell.request t ⟨alone, l⟩).1.entry ∧
          (Cell.request t ⟨shared, l⟩).2 = (Cell.request t ⟨alone, l⟩).2 ∧
          Agree (Cell.request t ⟨shared, l⟩).1.value (Cell.request t ⟨alone, l⟩).1.value
            (own.set i (Cell.request t ⟨shared, l⟩).1.entry) other := by
      intro hl ht
      rw [request_kept shared hl ht, request_kept alone hl ht, set_self hi]
      exact ⟨rfl, rfl, h⟩
    cases t with
    | X =>
      rcases hapart with hX | hnone
      · have hX : l = some .X := hX
        exact hsame (by rw [hX]; exact Option.some_ne_none _) (Or.inr hX)
      · exact absurd hnone hother
    | S =>
      rcases hapart with hentry | hnone | ⟨hshared, hvalue⟩
      · exact hsame hentry (Or.inl rfl)
      · exact absurd hnone hother
      · have hvalue : shared = own.count + other.count := hvalue
        cases l with
        | some u => exact hsame (Option.some_ne_none u) (Or.inl rfl)
        | none =>
          have halone : alone = own.count ∧ own.Shared := by
            rcases h.counted hother with hzero | ⟨hown, -, -, halone⟩
            · obtain ⟨hle, hnonneg⟩ := hbound
              have hnonneg := hnonneg hzero
              exact ⟨by omega, shared_of_count hzero⟩
            · exact ⟨halone, hown⟩
          obtain ⟨halone, hown⟩ := halone
          have hgrant : ∀ value : ℤ, 0 ≤ value →
              Cell.request .S ⟨value, none⟩ = (⟨value + 1, some .S⟩, true) :=
            fun value hge => if_neg (Int.not_lt.mpr hge)
          have hS : (some .S : Option LockType) ≠ some .X := by decide
          rw [hgrant shared (by omega), hgrant alone (by omega)]
          refine ⟨rfl, rfl, fun hnone => absurd hnone hother, fun _ => Or.inr
            ⟨Shared.set hown hS, hshared, ?_, ?_⟩⟩
          · rw [count_add hi]
            show shared + 1 = _
            omega
          · rw [count_add hi]
            show alone + 1 = _
            omega

theorem Agree.release (h : Agree shared alone own other) (hi : own[i]? = some l) :
    Agree (Cell.release ⟨shared, l⟩) (Cell.release ⟨alone, l⟩) (own.set i none) other := by
  cases l with
  | none =>
    rw [set_self hi]
    exact h
  | some u =>
    have hcount := count_remove hi
    refine ⟨fun hzero => by rw [h.same hzero], fun hne => ?_⟩
    rcases h.counted hne with hzero | ⟨hown, hother, hshared, halone⟩
    · omega
    · have hs : Cell.release ⟨shared, some u⟩ = shared - 1 := by
          rw [release_some, if_pos (by omega)]
      have ha : Cell.release ⟨alone, some u⟩ = alone - 1 := by
        rw [release_some]
        split
        · rfl
        · omega
      rw [hs, ha]
      exact Or.inr ⟨Shared.set hown (by decide), hother, by omega, by omega⟩

end Requests

end SampleDB.SharedLocks
