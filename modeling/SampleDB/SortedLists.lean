import Mathlib.Order.Basic
import Mathlib.Order.Lattice
import Mathlib.Data.List.Induction

/-!
Lists that are sorted by a key. A key has a place in such a list, in front of the elements
that are not smaller, and the list can be cut at the place where a run of one key begins
or ends.
-/
namespace SampleDB.SortedLists

variable {α κ : Type*} [LinearOrder κ] (key : α → κ)

/-- Equal keys may stand beside each other. -/
def Sorted (xs : List α) : Prop := xs.Pairwise (fun a b => key a ≤ key b)

def StrictlySorted (xs : List α) : Prop := xs.Pairwise (fun a b => key a < key b)

/-- The elements with smaller keys. -/
def before (k : κ) (xs : List α) : List α := xs.takeWhile (fun a => key a < k)

def behind (k : κ) (xs : List α) : List α := xs.dropWhile (fun a => key a < k)

variable {key} {xs ys : List α} {x : α} {k : κ}

theorem before_append_behind (key : α → κ) (k : κ) (xs : List α) : before key k xs ++
    behind key k xs = xs :=
  List.takeWhile_append_dropWhile

theorem lt_of_mem_before (h : x ∈ before key k xs) : key x < k := by
  unfold before at h
  induction xs with
  | nil => cases h
  | cons a xs ih =>
    rw [List.takeWhile_cons] at h
    by_cases ha : key a < k
    · rw [if_pos (decide_eq_true ha)] at h
      cases h with
      | head => exact ha
      | tail _ hmem => exact ih hmem
    · rw [if_neg (fun hd => ha (of_decide_eq_true hd))] at h
      cases h

theorem Sorted.le_of_mem_behind (h : Sorted key xs) (hx : x ∈ behind key k xs) : k ≤ key x := by
  unfold behind at hx
  induction xs with
  | nil => cases hx
  | cons a xs ih =>
    obtain ⟨ha, htail⟩ := List.pairwise_cons.mp h
    rw [List.dropWhile_cons] at hx
    by_cases hlt : key a < k
    · rw [if_pos (decide_eq_true hlt)] at hx
      exact ih htail hx
    · rw [if_neg (fun hd => hlt (of_decide_eq_true hd))] at hx
      cases hx with
      | head => exact not_lt.mp hlt
      | tail _ hmem => exact (not_lt.mp hlt).trans (ha x hmem)

theorem sorted_append :
    Sorted key (xs ++ ys) ↔ Sorted key xs ∧ Sorted key ys ∧ ∀ x ∈ xs, ∀ y ∈ ys, key x ≤ key y :=
  List.pairwise_append

theorem strictlySorted_append : StrictlySorted key (xs ++ ys) ↔
    StrictlySorted key xs ∧ StrictlySorted key ys ∧ ∀ x ∈ xs, ∀ y ∈ ys, key x < key y :=
  List.pairwise_append

theorem StrictlySorted.sorted (h : StrictlySorted key xs) : Sorted key xs :=
  h.imp (fun hlt => le_of_lt hlt)

/-- An element goes in front of the ones that are not smaller. -/
theorem Sorted.insert (h : Sorted key xs) (x : α) :
    Sorted key (before key (key x) xs ++ x :: behind key (key x) xs) := by
  have hparts := h
  rw [← before_append_behind key (key x) xs] at hparts
  obtain ⟨hbefore, hbehind, hcross⟩ := sorted_append.mp hparts
  refine sorted_append.mpr ⟨hbefore, List.pairwise_cons.mpr
    ⟨fun b hb => h.le_of_mem_behind hb, hbehind⟩, ?_⟩
  intro a ha b hb
  cases hb with
  | head => exact (lt_of_mem_before ha).le
  | tail _ hmem => exact hcross a ha b hmem

theorem StrictlySorted.insert (h : StrictlySorted key xs) (x : α) (hx : ∀ a ∈ xs, key a ≠ key x) :
    StrictlySorted key (before key (key x) xs ++ x :: behind key (key x) xs) := by
  have hparts := h
  rw [← before_append_behind key (key x) xs] at hparts
  obtain ⟨hbefore, hbehind, hcross⟩ := strictlySorted_append.mp hparts
  refine strictlySorted_append.mpr ⟨hbefore, List.pairwise_cons.mpr ⟨?_, hbehind⟩, ?_⟩
  · intro b hb
    have hmem : b ∈ xs := (List.dropWhile_sublist _).subset hb
    exact lt_of_le_of_ne (h.sorted.le_of_mem_behind hb) (Ne.symm (hx b hmem))
  · intro a ha b hb
    cases hb with
    | head => exact lt_of_mem_before ha
    | tail _ hmem => exact hcross a ha b hmem

theorem insert_perm (key : α → κ) (x : α) (xs : List α) :
    (before key (key x) xs ++ x :: behind key (key x) xs).Perm (x :: xs) := by
  have h : (before key (key x) xs ++ x :: behind key (key x) xs).Perm
      (x :: (before key (key x) xs ++ behind key (key x) xs)) := List.perm_middle
  rw [before_append_behind] at h
  exact h

/-- The last run of a property, and what is in front of it. -/
theorem exists_last_run (p : α → Prop) [DecidablePred p] (xs : List α) :
    ∃ front run, xs = front ++ run ∧ (∀ y ∈ run, p y) ∧ ∀ y, front.getLast? = some y → ¬ p y := by
  induction xs using List.reverseRecOn with
  | nil => exact ⟨[], [], rfl, (fun y hy => by cases hy), (fun y hy => by cases hy)⟩
  | append_singleton xs x ih =>
    by_cases hx : p x
    · obtain ⟨front, run, rfl, hrun, hfront⟩ := ih
      refine ⟨front, run ++ [x], (List.append_assoc _ _ _), ?_, hfront⟩
      intro y hy
      cases List.mem_append.mp hy with
      | inl hmem => exact hrun y hmem
      | inr hmem => exact (List.mem_singleton.mp hmem) ▸ hx
    · refine ⟨xs ++ [x], [], (List.append_nil _).symm, (fun y hy => by cases hy), ?_⟩
      intro y hy
      rw [List.getLast?_append, List.getLast?_singleton, Option.some_or] at hy
      exact Option.some.inj hy ▸ hx

/-- The first run of a property, and what is behind it. -/
theorem exists_first_run (p : α → Prop) [DecidablePred p] (xs : List α) :
    ∃ run back, xs = run ++ back ∧ (∀ y ∈ run, p y) ∧ ∀ y, back.head? = some y → ¬ p y := by
  induction xs with
  | nil => exact ⟨[], [], rfl, (fun y hy => by cases hy), (fun y hy => by cases hy)⟩
  | cons x xs ih =>
    by_cases hx : p x
    · obtain ⟨run, back, rfl, hrun, hback⟩ := ih
      refine ⟨x :: run, back, rfl, ?_, hback⟩
      intro y hy
      cases hy with
      | head => exact hx
      | tail _ hmem => exact hrun y hmem
    · exact ⟨[], x :: xs, rfl, (fun y hy => by cases hy), fun y hy => Option.some.inj hy ▸ hx⟩

theorem exists_cut {i : ℕ} (h : i < xs.length) :
    ∃ front x back, xs = front ++ x :: back ∧ front.length = i := by
  refine ⟨xs.take i, xs[i], xs.drop (i + 1), ?_, List.length_take_of_le h.le⟩
  rw [← List.drop_eq_getElem_cons h, List.take_append_drop]

end SampleDB.SortedLists
