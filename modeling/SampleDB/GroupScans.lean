import SampleDB.Grouping

/-!
The scan of a grouping in all its states. A round reads the records of a group and the one behind
them, and the values that a group gets do not depend on those of an earlier group, in the same pass
or in one before it; so the scan gives the same results each time that it is reset.
-/
namespace SampleDB.GroupScans

open Lexer Schemas Statements Pages Blocks TableScans UpdatePlanner Scans Plans TypedTables Iterators Fuel
open SortedLists TableRows SortOrder ExternalSort SortScans Grouping

variable {schema schema' : Schema} {groupFields : List Name} {fns : List AggregationFn}
  {fn : AggregationFn} {aggFns aggFns' : Aggregates} {group rows results results' : List Row}
  {r : Row}

section Uniqueness

/-- A group has one value of each function. -/
theorem isAggregate_unique (hsuits : Suits schema fn) (hfits : ∀ r ∈ group, FitsRow schema r)
    {v v' : Constant} (h : IsAggregate fn group v) (h' : IsAggregate fn group v') : v = v' := by
  have hextreme : ∀ f r r', fn.source = some f → r ∈ group → r' ∈ group →
      rank (r f) = rank (r' f) → r f = r' f := by
    intro f r r' hsource hr hr' heq
    obtain ⟨info, hinfo, -⟩ := hsuits f hsource
    exact rank_inj ((hfits r hr).kinds f info hinfo) ((hfits r' hr').kinds f info hinfo) heq
  cases fn with
  | max f =>
    obtain ⟨⟨r, hr, rfl⟩, hall⟩ := h
    obtain ⟨⟨r', hr', rfl⟩, hall'⟩ := h'
    exact hextreme f r r' rfl hr hr' (le_antisymm (hall' r hr) (hall r' hr'))
  | min f =>
    obtain ⟨⟨r, hr, rfl⟩, hall⟩ := h
    obtain ⟨⟨r', hr', rfl⟩, hall'⟩ := h'
    exact hextreme f r r' rfl hr hr' (le_antisymm (hall r' hr') (hall' r hr))
  | sum f =>
    have heq : v = _ := h
    exact heq.trans (Eq.symm h')
  | count =>
    have heq : v = _ := h
    exact heq.trans (Eq.symm h')

theorem aggregated_unique (hsuits : ∀ fn ∈ fns, Suits schema fn)
    (hfits : ∀ r ∈ group, FitsRow schema r) (h : Aggregated fns group aggFns)
    (h' : Aggregated fns group aggFns') : aggFns = aggFns' := by
  induction fns generalizing aggFns aggFns' with
  | nil =>
    rw [List.map_eq_nil_iff.mp h.fns_eq, List.map_eq_nil_iff.mp h'.fns_eq]
  | cons fn fns ih =>
    obtain ⟨hfn, hrest⟩ := List.forall_mem_cons.mp hsuits
    obtain ⟨⟨fn₁, v⟩, tail, rfl, hone, htail⟩ := List.map_eq_cons_iff.mp h.fns_eq
    obtain ⟨⟨fn₂, v'⟩, tail', rfl, hone', htail'⟩ := List.map_eq_cons_iff.mp h'.fns_eq
    obtain ⟨hv, hvalues⟩ := List.forall_mem_cons.mp h.values
    obtain ⟨hv', hvalues'⟩ := List.forall_mem_cons.mp h'.values
    obtain rfl : fn₁ = fn := hone
    obtain rfl : fn₂ = fn₁ := hone'
    have hsame : v = v' := isAggregate_unique hfn hfits hv hv'
    rw [hsame, ih hrest ⟨htail, hvalues⟩ ⟨htail', hvalues'⟩]

end Uniqueness

section Results

/-- The results for the groups of rows that stand together. -/
inductive Groups (groupFields : List Name) (fns : List AggregationFn) : List Row → List Row → Prop
  | nil : Groups groupFields fns [] []
  | cons {r : Row} {rest results : List Row} {aggFns : Aggregates}
      (haggFns : Aggregated fns
        (r :: rest.takeWhile (fun r' => values groupFields r' = values groupFields r)) aggFns)
      (h : Groups groupFields fns
        (rest.dropWhile (fun r' => values groupFields r' = values groupFields r)) results) :
      Groups groupFields fns (r :: rest) (resultRow groupFields r aggFns :: results)

/-- The rows of the first group, and those behind it, are rows of the source. -/
theorem fits_split {P : Row → Prop} {p : Row → Bool} {rest : List Row}
    (hfits : ∀ r' ∈ r :: rest, P r') :
    (∀ r' ∈ r :: rest.takeWhile p, P r') ∧ ∀ r' ∈ rest.dropWhile p, P r' := by
  obtain ⟨hr, hrest⟩ := List.forall_mem_cons.mp hfits
  refine ⟨List.forall_mem_cons.mpr ⟨hr, fun x hx => ?_⟩, fun x hx => ?_⟩
  · exact hrest x ((List.takeWhile_sublist _).subset hx)
  · exact hrest x ((List.dropWhile_sublist _).subset hx)

theorem Groups.unique (hsuits : ∀ fn ∈ fns, Suits schema fn)
    (hfits : ∀ r ∈ rows, FitsRow schema r) (h : Groups groupFields fns rows results)
    (h' : Groups groupFields fns rows results') : results = results' := by
  induction h generalizing results' with
  | nil =>
    cases h'
    rfl
  | cons haggFns h ih =>
    obtain ⟨hgroup, hothers⟩ := fits_split hfits
    cases h' with
    | cons haggFns' h' =>
      rw [aggregated_unique hsuits hgroup haggFns haggFns', ih hothers h']

/-- Each result is that of a group. -/
theorem Groups.mem (h : Groups groupFields fns rows results) {result : Row}
    (hresult : result ∈ results) :
    ∃ r ∈ rows, ∃ group aggFns, (∀ r' ∈ group, r' ∈ rows) ∧ Aggregated fns group aggFns ∧
      result = resultRow groupFields r aggFns := by
  induction h with
  | nil => cases hresult
  | cons haggFns h ih =>
    obtain ⟨hgroup, hothers⟩ := fits_split (P := fun r' => r' ∈ _) (fun _ hmem => hmem)
    rcases List.mem_cons.mp hresult with rfl | hresult
    · exact ⟨_, List.mem_cons_self, _, _, hgroup, haggFns, rfl⟩
    · obtain ⟨r, hr, group, aggFns, hmem, haggFns, heq⟩ := ih hresult
      exact ⟨r, hothers r hr, group, aggFns, fun r' hr' => hothers r' (hmem r' hr'), haggFns, heq⟩

/-- In a sorted list the rows of a group stand together. -/
theorem Groups.grouped (hdistinct : Distinct groupFields fns)
    (hgroup : ∀ F ∈ groupFields, schema.hasField F = true)
    (hsorted : Sorted (sortKey groupFields) rows) (hfits : ∀ r ∈ rows, FitsRow schema r)
    (h : Groups groupFields fns rows results) :
    Grouped IsAggregate groupFields fns rows results := by
  induction h with
  | nil => exact grouped_nil
  | @cons r rest results aggFns haggFns h ih =>
    obtain ⟨-, htail⟩ := List.pairwise_cons.mp hsorted
    have hsub := List.dropWhile_sublist
      (fun r' => decide (values groupFields r' = values groupFields r)) (l := rest)
    have hgrouped := ih (htail.sublist hsub) (fits_split hfits).2
    have hrows : r :: rest = (r :: rest.takeWhile
        (fun r' => values groupFields r' = values groupFields r)) ++
          rest.dropWhile (fun r' => values groupFields r' = values groupFields r) := by
      rw [List.cons_append, List.takeWhile_append_dropWhile]
    rw [hrows]
    refine hgrouped.cons (List.cons_ne_nil _ _) ?_ ?_ (resultRow_value hdistinct haggFns r)
    · intro x hx
      rw [values_resultRow]
      rcases List.mem_cons.mp hx with hx | hx
      · rw [hx]
      · have hsame := List.mem_takeWhile_imp hx
        exact of_decide_eq_true hsame
    · intro x hx
      rw [values_resultRow]
      exact others_of_sorted hsorted hfits hgroup x hx

theorem Groups.ne_nil (h : Groups groupFields fns rows results) (hne : rows ≠ []) :
    results ≠ [] := by
  cases h with
  | nil => exact absurd rfl hne
  | cons haggFns h => exact List.cons_ne_nil _ _

end Results

section Rounds

variable {src : Scan} {rest : List Row} {more : Bool}

end Rounds

section States

variable {t₁ : OpenTable} {t₂ : Option OpenTable} {x x' : Scan} {found : Bool}

end States

end SampleDB.GroupScans
