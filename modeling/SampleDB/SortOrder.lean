import SampleDB.TableRows
import SampleDB.SortedLists
import Mathlib.Data.List.Lex
import Mathlib.Data.Char
import Mathlib.Data.Sum.Order

/-!
The order of the record comparator. A row has a sort key, the list of the values of its sort
fields, and the comparator decides the lexicographic order of these keys. A merge that takes the
left row only where it is smaller is the library's merge with the sides exchanged.
-/
namespace SampleDB.SortOrder

open Lexer Schemas Statements Pages UpdatePlanner Scans TypedTables TableRows SortedLists

/-- A field has integers or strings, so how one kind stands to the other does not matter. -/
abbrev Rank := ℤ ⊕ₗ List Char

def rank (c : Constant) : Rank :=
  match c.ival with
  | some n => Sum.inlₗ n.toInt
  | none => Sum.inrₗ (c.sval.getD [])

def sortKey (sortFields : List Name) (r : Row) : List Rank := sortFields.map (fun F => rank (r F))

section Constants

variable {k : Kind} {c c' : Constant}

theorem constantLt_rank (h : OfKind k c) (h' : OfKind k c') :
    constantLt c c' = .ok (decide (rank c < rank c')) := by
  cases k with
  | integer =>
    obtain ⟨n, rfl⟩ := h
    obtain ⟨m, rfl⟩ := h'
    have hiff : n < m ↔ rank (.ofInt n) < rank (.ofInt m) :=
      Int32.lt_iff_toInt_lt.trans Sum.Lex.inl_lt_inl_iff.symm
    exact congrArg Except.ok (decide_eq_decide.mpr hiff)
  | string =>
    obtain ⟨s, rfl⟩ := h
    obtain ⟨s', rfl⟩ := h'
    have hiff : s < s' ↔ rank (.ofString s) < rank (.ofString s') := Sum.Lex.inr_lt_inr_iff.symm
    exact congrArg Except.ok (decide_eq_decide.mpr hiff)

theorem constantGt_rank (h : OfKind k c) (h' : OfKind k c') :
    constantGt c c' = .ok (decide (rank c' < rank c)) := by
  rw [← constantLt_rank h' h]
  cases k with
  | integer =>
    obtain ⟨n, rfl⟩ := h
    obtain ⟨m, rfl⟩ := h'
    rfl
  | string =>
    obtain ⟨s, rfl⟩ := h
    obtain ⟨s', rfl⟩ := h'
    rfl

theorem rank_inj (h : OfKind k c) (h' : OfKind k c') (heq : rank c = rank c') : c = c' := by
  cases k with
  | integer =>
    obtain ⟨n, rfl⟩ := h
    obtain ⟨m, rfl⟩ := h'
    rw [Int32.toInt_inj.mp (Sum.inl_injective heq)]
  | string =>
    obtain ⟨s, rfl⟩ := h
    obtain ⟨s', rfl⟩ := h'
    have hsval : s = s' := Sum.inr_injective heq
    rw [hsval]

end Constants

section Compare

variable {read read' : Name → Result Constant} {r r' : Row} {sortFields : List Name}

/-- The comparator reads the fields of two rows that have values of one kind there. -/
def Comparable (read read' : Name → Result Constant) (r r' : Row) (F : Name) : Prop :=
  read F = .ok (r F) ∧ read' F = .ok (r' F) ∧ ∃ k, OfKind k (r F) ∧ OfKind k (r' F)

theorem compare_lt (h : ∀ F ∈ sortFields, Comparable read read' r r' F) :
    ∃ c, Scans.compare read read' sortFields = .ok c ∧
      (c < 0 ↔ sortKey sortFields r < sortKey sortFields r') := by
  induction sortFields with
  | nil => exact ⟨0, rfl, by simp [sortKey]⟩
  | cons F sortFields ih =>
    obtain ⟨⟨hread, hread', k, hkind, hkind'⟩, hrest⟩ := List.forall_mem_cons.mp h
    have hcons : sortKey (F :: sortFields) r < sortKey (F :: sortFields) r' ↔
        rank (r F) < rank (r' F) ∨
          (rank (r F) = rank (r' F) ∧ sortKey sortFields r < sortKey sortFields r') :=
      List.cons_lt_cons_iff
    unfold Scans.compare
    rw [hread, hread', ok_bind, ok_bind, constantLt_rank hkind hkind', ok_bind, hcons]
    rcases lt_trichotomy (rank (r F)) (rank (r' F)) with hlt | heq | hgt
    · rw [decide_eq_true hlt]
      exact ⟨-1, rfl, iff_of_true (by decide) (Or.inl hlt)⟩
    · obtain ⟨c, hc, hiff⟩ := ih hrest
      rw [constantGt_rank hkind hkind', decide_eq_false (heq ▸ lt_irrefl _), ok_bind,
        decide_eq_false (heq ▸ lt_irrefl _)]
      refine ⟨c, hc, hiff.trans ⟨fun hlt => Or.inr ⟨heq, hlt⟩, ?_⟩⟩
      rintro (hlt | ⟨-, hlt⟩)
      · exact absurd (heq ▸ hlt) (lt_irrefl _)
      · exact hlt
    · rw [constantGt_rank hkind hkind', decide_eq_true hgt, decide_eq_false (lt_asymm hgt), ok_bind]
      refine ⟨1, rfl, iff_of_false (by decide) ?_⟩
      rintro (hlt | ⟨heq, -⟩)
      · exact lt_asymm hlt hgt
      · exact absurd (heq ▸ hgt) (lt_irrefl _)

/-- Two rows of one table. -/
theorem comparable_of_fits {schema : Schema} (h : FitsRow schema r) (h' : FitsRow schema r')
    (hread : ∀ F, schema.hasField F = true → read F = .ok (r F))
    (hread' : ∀ F, schema.hasField F = true → read' F = .ok (r' F))
    (hsort : ∀ F ∈ sortFields, schema.hasField F = true) :
    ∀ F ∈ sortFields, Comparable read read' r r' F := by
  intro F hF
  obtain ⟨info, hinfo⟩ := Option.isSome_iff_exists.mp (hsort F hF)
  exact ⟨hread F (hsort F hF), hread' F (hsort F hF), _, h.kinds F info hinfo,
    h'.kinds F info hinfo⟩

end Compare

section Merging

variable {α κ : Type} [LinearOrder κ] {key : α → κ} {a b : α} {xs ys : List α}

/-- Where the keys are equal, the element of the second list comes first. -/
def merged (key : α → κ) (xs ys : List α) : List α :=
  List.merge ys xs (fun b a => decide (key b ≤ key a))

theorem merged_nil_left : merged key [] ys = ys := List.merge_right ys

theorem merged_nil_right : merged key xs [] = xs := List.nil_merge xs

theorem merged_nil_cons (y : α) : merged key [] (y :: ys) = y :: merged key [] ys := by
  rw [merged_nil_left, merged_nil_left]

theorem merged_cons_nil (x : α) : merged key (x :: xs) [] = x :: merged key xs [] := by
  rw [merged_nil_right, merged_nil_right]

theorem merged_lt (h : key a < key b) :
    merged key (a :: xs) (b :: ys) = a :: merged key xs (b :: ys) := by
  unfold merged
  exact List.cons_merge_cons_neg _ _ _ (by rw [decide_eq_true_iff]; exact not_le.mpr h)

theorem merged_not_lt (h : ¬ key a < key b) :
    merged key (a :: xs) (b :: ys) = b :: merged key (a :: xs) ys := by
  unfold merged
  exact List.cons_merge_cons_pos _ _ _ (decide_eq_true (not_lt.mp h))

theorem merged_perm : (merged key xs ys).Perm (xs ++ ys) :=
  (List.merge_perm_append _).trans List.perm_append_comm

theorem merged_sorted (hxs : Sorted key xs) (hys : Sorted key ys) :
    Sorted key (merged key xs ys) := by
  have hle : ∀ {zs : List α}, Sorted key zs ↔
      zs.Pairwise (fun a b => decide (key a ≤ key b) = true) := by
    intro zs
    unfold Sorted
    simp only [decide_eq_true_iff]
  rw [hle] at hxs hys ⊢
  refine List.pairwise_merge ?_ ?_ ys xs hys hxs
  · intro a b c hab hbc
    exact decide_eq_true ((of_decide_eq_true hab).trans (of_decide_eq_true hbc))
  · intro a b
    rw [Bool.or_eq_true, decide_eq_true_iff, decide_eq_true_iff]
    exact le_total (key a) (key b)

end Merging

end SampleDB.SortOrder
