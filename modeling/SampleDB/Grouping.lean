import Mathlib.Algebra.Ring.Int.Defs
import Mathlib.Data.List.TakeWhile
import SampleDB.SchemaAgreement
import SampleDB.SortScans

/-!
Groups of a sorted source. The records with the values of the first one of a group stand behind
it, and none of them stands behind the record that ends the group. Each aggregation function has
the value of the records of the group that were read so far; the value of an earlier group that is
still there is replaced by the first record.
-/
namespace SampleDB.Grouping

open Lexer Schemas Statements Pages Blocks TableScans UpdatePlanner Scans Plans TypedTables Iterators Fuel
open SortedLists TableRows SortOrder ExternalSort SortScans

variable {schema : Schema} {groupFields : List Name} {fn : AggregationFn} {value : Constant}
  {group : List Row} {r r' : Row} {read : Name → Result Constant}

section Aggregates

/-- The sum of a field, without a bound. -/
def total (f : Name) (group : List Row) : ℤ := (group.map (fun r => ((r f).ival.getD 0).toInt)).sum

def Greatest (f : Name) (group : List Row) (value : Constant) : Prop :=
  (∃ r ∈ group, value = r f) ∧ ∀ r ∈ group, rank (r f) ≤ rank value

def Least (f : Name) (group : List Row) (value : Constant) : Prop :=
  (∃ r ∈ group, value = r f) ∧ ∀ r ∈ group, rank value ≤ rank (r f)

/-- The value of a function, with sums and counts that wrap. -/
def IsAggregate (fn : AggregationFn) (group : List Row) (value : Constant) : Prop :=
  match fn with
  | .max f => Greatest f group value
  | .min f => Least f group value
  | .sum f => value = .ofInt (.ofInt (total f group))
  | .count => value = .ofInt (.ofInt group.length)

/-- A field of the schema, of integers where it is summed. -/
def Suits (schema : Schema) (fn : AggregationFn) : Prop :=
  ∀ f, fn.source = some f → ∃ info, schema.fieldInfo f = some info ∧
    (fn = .sum f → kind info.type = .integer)

/-- A value of a field that is as far in an order as any in the group. -/
def Extreme (le : Constant → Constant → Prop) (f : Name) (group : List Row) (value : Constant) :
    Prop :=
  (∃ r ∈ group, value = r f) ∧ ∀ r ∈ group, le (r f) value

theorem Extreme.replace {le : Constant → Constant → Prop} {f : Name} (h : Extreme le f group value)
    (hself : le (r f) (r f)) (hle : ∀ c, le c value → le c (r f)) :
    Extreme le f (group ++ [r]) (r f) := by
  refine ⟨⟨r, List.mem_append_right group (List.mem_singleton_self r), rfl⟩, ?_⟩
  intro r' hr'
  rcases List.mem_append.mp hr' with hold | hnew
  · exact hle _ (h.2 r' hold)
  · rw [List.mem_singleton.mp hnew]
    exact hself

theorem Extreme.keep {le : Constant → Constant → Prop} {f : Name} (h : Extreme le f group value)
    (hle : le (r f) value) : Extreme le f (group ++ [r]) value := by
  obtain ⟨⟨r₀, hr₀, hvalue⟩, hall⟩ := h
  refine ⟨⟨r₀, List.mem_append_left [r] hr₀, hvalue⟩, ?_⟩
  intro r' hr'
  rcases List.mem_append.mp hr' with hold | hnew
  · exact hall r' hold
  · rw [List.mem_singleton.mp hnew]
    exact hle

/-- These functions, with their values of a group. -/
structure Aggregated (fns : List AggregationFn) (group : List Row)
    (aggFns : Aggregates) : Prop where
  fns_eq : aggFns.map Prod.fst = fns
  values : ∀ a ∈ aggFns, IsAggregate a.1 group a.2

end Aggregates

section GroupValues

/-- The values of a row in the group fields. -/
def values (groupFields : List Name) (r : Row) : List Constant := groupFields.map r

/-- Rows with the same sort key have the same values. -/
theorem values_of_sortKey (hr : FitsRow schema r) (hr' : FitsRow schema r')
    (hgroup : ∀ F ∈ groupFields, schema.hasField F = true) :
    sortKey groupFields r = sortKey groupFields r' ↔
      values groupFields r = values groupFields r' := by
  unfold sortKey values
  rw [List.map_inj_left, List.map_inj_left]
  refine forall₂_congr fun F hF => ⟨fun heq => ?_, congrArg rank⟩
  obtain ⟨info, hinfo⟩ := Option.isSome_iff_exists.mp (hgroup F hF)
  exact rank_inj (hr.kinds F info hinfo) (hr'.kinds F info hinfo) heq

/-- Behind the other rows of its group, a row of a sorted table has rows of other groups. -/
theorem others_of_sorted {rest : List Row} (hsorted : Sorted (sortKey groupFields) (r :: rest))
    (hfits : ∀ r' ∈ r :: rest, FitsRow schema r')
    (hgroup : ∀ F ∈ groupFields, schema.hasField F = true) :
    ∀ r' ∈ rest.dropWhile (fun r' => values groupFields r' = values groupFields r),
      values groupFields r' ≠ values groupFields r := by
  obtain ⟨hr, hrest⟩ := List.forall_mem_cons.mp hfits
  induction rest with
  | nil => simp
  | cons r₁ rest ih =>
    obtain ⟨hr₁, hfits'⟩ := List.forall_mem_cons.mp hrest
    obtain ⟨hle, htail⟩ := List.pairwise_cons.mp hsorted
    rw [List.dropWhile_cons]
    by_cases hsame : values groupFields r₁ = values groupFields r
    · rw [if_pos (decide_eq_true hsame)]
      refine ih (List.pairwise_cons.mpr ⟨fun x hx => hle x (List.mem_cons_of_mem r₁ hx),
        (List.pairwise_cons.mp htail).2⟩) (List.forall_mem_cons.mpr ⟨hr, hfits'⟩) hfits'
    · rw [if_neg (fun h => hsame (of_decide_eq_true h))]
      intro r' hr' heq
      -- the key of the first other row is greater than that of the group
      have hr'fits := hrest r' hr'
      have hkey := (values_of_sortKey hr'fits hr hgroup).mpr heq
      have hle₁ : sortKey groupFields r ≤ sortKey groupFields r₁ := hle r₁ List.mem_cons_self
      have hle' : sortKey groupFields r₁ ≤ sortKey groupFields r' := by
        rcases List.mem_cons.mp hr' with rfl | hr'
        · exact le_rfl
        · exact (List.pairwise_cons.mp htail).1 r' hr'
      exact hsame ((values_of_sortKey hr₁ hr hgroup).mp (le_antisymm (hkey ▸ hle') hle₁))

end GroupValues

section Scanning

variable {fns : List AggregationFn} {aggFns : Aggregates} {src : Scan} {rest : List Row}

end Scanning

section Results

/-- The rows of a group, by its result. -/
def groupOf (groupFields : List Name) (rows : List Row) (result : Row) : List Row :=
  rows.filter (fun r => values groupFields r = values groupFields result)

/-- One result for each combination of values, with a value of each function for its group. -/
structure Grouped (V : AggregationFn → List Row → Constant → Prop) (groupFields : List Name)
    (fns : List AggregationFn) (rows results : List Row) : Prop where
  once : (results.map (values groupFields)).Nodup
  combinations : ∀ vs, vs ∈ results.map (values groupFields) ↔ vs ∈ rows.map (values groupFields)
  value : ∀ result ∈ results, ∀ fn ∈ fns,
    V fn (groupOf groupFields rows result) (result fn.fieldName)

variable {V V' : AggregationFn → List Row → Constant → Prop} {fns : List AggregationFn}
  {rows results others : List Row} {result : Row}

theorem grouped_nil : Grouped V groupFields fns [] [] :=
  ⟨List.nodup_nil, fun _ => Iff.rfl, by simp⟩

/-- A group whose values are not those of another row stands in front. -/
theorem Grouped.cons (h : Grouped V groupFields fns others results) (hne : group ≠ [])
    (hsame : ∀ r ∈ group, values groupFields r = values groupFields result)
    (hothers : ∀ r ∈ others, values groupFields r ≠ values groupFields result)
    (hvalue : ∀ fn ∈ fns, V fn group (result fn.fieldName)) :
    Grouped V groupFields fns (group ++ others) (result :: results) := by
  have hnew : values groupFields result ∉ results.map (values groupFields) := by
    intro hmem
    obtain ⟨r, hr, heq⟩ := List.mem_map.mp ((h.combinations _).mp hmem)
    exact hothers r hr heq
  refine ⟨List.nodup_cons.mpr ⟨hnew, h.once⟩, ?_, ?_⟩
  · intro vs
    rw [List.map_cons, List.mem_cons, h.combinations, List.map_append, List.mem_append]
    refine or_congr_left ⟨?_, ?_⟩
    · rintro rfl
      obtain ⟨r, hr⟩ := List.exists_mem_of_ne_nil group hne
      exact List.mem_map.mpr ⟨r, hr, hsame r hr⟩
    · intro hmem
      obtain ⟨r, hr, rfl⟩ := List.mem_map.mp hmem
      exact hsame r hr
  · intro result' hresult' fn hfn
    unfold groupOf
    rw [List.filter_append]
    rcases List.mem_cons.mp hresult' with rfl | hmem
    · rw [List.filter_eq_self.mpr (fun r hr => decide_eq_true (hsame r hr)),
        List.filter_eq_nil_iff.mpr (fun r hr h => hothers r hr (of_decide_eq_true h)),
          List.append_nil]
      exact hvalue fn hfn
    · have hother : ∀ r ∈ group, values groupFields r ≠ values groupFields result' := by
        intro r hr heq
        rw [hsame r hr] at heq
        rw [heq] at hnew
        exact hnew (List.mem_map_of_mem hmem)
      rw [List.filter_eq_nil_iff.mpr (fun r hr h => hother r hr (of_decide_eq_true h)),
        List.nil_append]
      exact h.value result' hmem fn hfn

theorem Grouped.mono (h : Grouped V groupFields fns rows results)
    (hV : ∀ result ∈ results, ∀ fn ∈ fns,
      V fn (groupOf groupFields rows result) (result fn.fieldName) →
      V' fn (groupOf groupFields rows result) (result fn.fieldName)) :
    Grouped V' groupFields fns rows results :=
  ⟨h.once, h.combinations, fun result hresult fn hfn =>
    hV result hresult fn hfn (h.value result hresult fn hfn)⟩

/-- What the scan gives for a group. -/
def resultRow (groupFields : List Name) (r : Row) (aggFns : Aggregates) : Row := fun F =>
  if F ∈ groupFields then r F
  else ((aggFns.find? (fun a => a.1.fieldName = F)).map Prod.snd).getD .null

theorem values_resultRow (groupFields : List Name) (r : Row) (aggFns : Aggregates) :
    values groupFields (resultRow groupFields r aggFns) = values groupFields r :=
  List.map_inj_left.mpr (fun _ hF => if_pos hF)

/-- The names of the results are distinct, and no group field has one of them. -/
structure Distinct (groupFields : List Name) (fns : List AggregationFn) : Prop where
  names : (fns.map AggregationFn.fieldName).Nodup
  apart : ∀ fn ∈ fns, fn.fieldName ∉ groupFields

theorem find_named {aggFns : Aggregates} (hnames : (aggFns.map (fun a => a.1.fieldName)).Nodup)
    {a : AggregationFn × Constant} (ha : a ∈ aggFns) :
    aggFns.find? (fun a' => a'.1.fieldName = a.1.fieldName) = some a := by
  induction aggFns with
  | nil => cases ha
  | cons a' aggFns ih =>
    obtain ⟨hnew, hnames⟩ := List.nodup_cons.mp hnames
    rcases List.mem_cons.mp ha with rfl | ha
    · exact List.find?_cons_of_pos (decide_eq_true rfl)
    · rw [List.find?_cons_of_neg (fun h => hnew ?_)]
      · exact ih hnames ha
      · show a'.1.fieldName ∈ _
        rw [of_decide_eq_true h]
        exact List.mem_map_of_mem ha

theorem resultRow_value {aggFns : Aggregates} (hdistinct : Distinct groupFields fns)
    (haggFns : Aggregated fns group aggFns) (r : Row) :
    ∀ fn ∈ fns, IsAggregate fn group (resultRow groupFields r aggFns fn.fieldName) := by
  intro fn hfn
  have hfns := haggFns.fns_eq
  obtain ⟨a, ha, rfl⟩ : ∃ a ∈ aggFns, a.1 = fn := by
    rw [← hfns] at hfn
    exact List.mem_map.mp hfn
  have hnames : (aggFns.map (fun a => a.1.fieldName)).Nodup := by
    have := hdistinct.names
    rwa [← hfns, List.map_map] at this
  unfold resultRow
  rw [if_neg (hdistinct.apart a.1 hfn), find_named hnames ha]
  exact haggFns.values a ha

end Results

section Emitting

variable {fns : List AggregationFn} {rows : List Row}

end Emitting

section Opening

variable {B : BlockSize} {form : Form Row} {fns : List AggregationFn}

def InRange (n : ℤ) : Prop := -2147483648 ≤ n ∧ n < 2147483648

theorem toInt_ofInt {n : ℤ} (h : InRange n) : (Int32.ofInt n).toInt = n :=
  Int32.toInt_ofInt_of_le h.1 h.2

end Opening

section Examples

end Examples

end SampleDB.Grouping
