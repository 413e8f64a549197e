import SampleDB.Plans
import Mathlib.Data.List.DropRight
import Mathlib.Data.List.Perm.Basic
import Mathlib.Data.List.Count

/-!
The aggregation functions of a query with groups. The planner collects them in a member, which the
plan of a view or a subquery clears and leaves with what it has collected itself. So the functions
of the tables in front of the last view or subquery are lost, and those of that one are taken over.
-/
namespace SampleDB.PlannedAggregates

open Lexer Schemas Statements Pages SqlParser UpdatePlanner Scans Plans

/-- The functions of the grouping that the plan of a query ends with. -/
def groupFns : Plan → Option (List AggregationFn)
  | .groupBy _ _ aggFns => some aggFns
  | .project p _ => groupFns p
  | .sort p _ => groupFns p
  | _ => none

section Sources

variable (overflow : ℕ → Option Int32) (db : Db) (viewDef : Name → Text)

def isTable (tableName : Name) : Bool := viewDef tableName = []

/-- The query of a view. -/
def viewData (tableName : Name) : Option QueryData :=
  if viewDef tableName = [] then none else (parse (query overflow) (viewDef tableName)).toOption

/-- What a table adds to the functions. -/
def tableFns (tableName : Name) : List AggregationFn :=
  fieldFns (layoutSchema (getLayout db tableName))

/-- The functions of the query's own tables. -/
def ownFns : QueryData → List AggregationFn
  | .mk _ tables _ _ _ _ => (tables.filter (isTable viewDef)).flatMap (tableFns db)

/-- The view or subquery that is planned last. -/
def lastNested : QueryData → Option QueryData
  | .mk _ tables queryTables _ _ _ =>
      queryTables.getLast?.or (tables.filterMap (viewData overflow viewDef)).getLast?

/-- The tables in front of it. -/
def lostTables : QueryData → List Name
  | .mk _ tables queryTables _ _ _ =>
      if queryTables.isEmpty then tables.rdropWhile (isTable viewDef) else tables

/-- The tables behind it. -/
def keptTables : QueryData → List Name
  | .mk _ tables queryTables _ _ _ =>
      if queryTables.isEmpty then tables.rtakeWhile (isTable viewDef) else []

def isGrouped : QueryData → Bool
  | .mk _ _ _ _ groupFields _ => !groupFields.isEmpty

/-- The functions that the plan of a query leaves in the planner. -/
def leftover : ℕ → QueryData → List AggregationFn
  | 0, _ => []
  | n + 1, q =>
      let before := (lastNested overflow viewDef q).elim [] (leftover n)
      if isGrouped q then before ++ (keptTables viewDef q).flatMap (tableFns db) ++ [.count]
      else before

/-- A query that leaves no functions: neither it nor the one that is planned last for it has
groups, and so on. -/
def Ungrouped : ℕ → QueryData → Prop
  | 0, _ => True
  | n + 1, q => isGrouped q = false ∧ ∀ q', lastNested overflow viewDef q = some q' → Ungrouped n q'

end Sources

section Folds

variable {overflow : ℕ → Option Int32} {db : Db} {viewDef : Name → Text} {grouped : Bool}
  {createPlan : QueryData → Result (Plan × List AggregationFn)}
  {left : QueryData → List AggregationFn}

/-- The functions after the tables and views, from what each view leaves. -/
theorem foldlM_addSource (hleft : ∀ q p aggFns, createPlan q = .ok (p, aggFns) → aggFns = left q)
    {tables : List Name} {sources : Sources}
    (h : tables.foldlM (addSource overflow db viewDef createPlan grouped) ([], []) =
      .ok sources) :
    sources.2 = (tables.filterMap (viewData overflow viewDef)).getLast?.elim [] left ++
      if grouped then (tables.rtakeWhile (isTable viewDef)).flatMap (tableFns db) else [] := by
  induction tables using List.reverseRecOn generalizing sources with
  | nil =>
    cases h
    cases grouped <;> rfl
  | append_singleton tables tableName ih =>
    rw [List.foldlM_append] at h
    obtain ⟨before, hbefore, h⟩ := bind_eq_ok.mp h
    have hfns := ih hbefore
    rw [List.foldlM_cons] at h
    obtain ⟨after, hadd, h⟩ := bind_eq_ok.mp h
    cases h
    unfold addSource at hadd
    by_cases htable : viewDef tableName = []
    · have hview : viewData overflow viewDef tableName = none := if_pos htable
      have hbase : isTable viewDef tableName = true := decide_eq_true htable
      rw [if_pos htable] at hadd
      cases hadd
      rw [List.filterMap_append, List.filterMap_cons, hview, List.filterMap_nil, List.append_nil,
        List.rtakeWhile_concat_pos _ _ _ hbase]
      unfold addTablePlan
      dsimp only
      rw [hfns]
      cases grouped with
      | false => rfl
      | true =>
        simp only [if_true, List.flatMap_append, List.flatMap_singleton, List.append_assoc]
        rfl
    · have hbase : ¬ isTable viewDef tableName = true := by
        unfold isTable
        rw [decide_eq_true_iff]
        exact htable
      rw [if_neg htable] at hadd
      cases hparse : parse (query overflow) (viewDef tableName) with
      | error e =>
        rw [hparse] at hadd
        cases hadd
      | ok data =>
        rw [hparse] at hadd
        obtain ⟨⟨p, aggFns⟩, hplan, hadd⟩ := bind_eq_ok.mp hadd
        cases hadd
        have hview : viewData overflow viewDef tableName = some data := by
          unfold viewData
          rw [if_neg htable, hparse]
          rfl
        rw [List.filterMap_append, List.filterMap_cons, hview, List.filterMap_nil,
          List.getLast?_concat, List.rtakeWhile_concat_neg _ _ _ hbase, hleft _ _ _ hplan]
        simp

/-- Each subquery leaves its own functions. -/
theorem foldlM_addSubquery
    (hleft : ∀ q p aggFns, createPlan q = .ok (p, aggFns) → aggFns = left q)
    {queryTables : List QueryData} {sources sources' : Sources}
    (h : queryTables.foldlM (addSubquery createPlan) sources = .ok sources') :
    sources'.2 = queryTables.getLast?.elim sources.2 left := by
  induction queryTables using List.reverseRecOn generalizing sources' with
  | nil =>
    cases h
    rfl
  | append_singleton queryTables q ih =>
    rw [List.foldlM_append] at h
    obtain ⟨before, hbefore, h⟩ := bind_eq_ok.mp h
    rw [List.foldlM_cons] at h
    obtain ⟨after, hadd, h⟩ := bind_eq_ok.mp h
    cases h
    obtain ⟨⟨p, aggFns⟩, hplan, hadd⟩ := bind_eq_ok.mp hadd
    cases hadd
    rw [List.getLast?_concat]
    exact hleft _ _ _ hplan

end Folds

section Planned

variable {overflow : ℕ → Option Int32} {db : Db} {viewDef : Name → Text} {n : ℕ} {q : QueryData}
  {plan : Plan} {aggFns : List AggregationFn}

theorem groupFns_addSort (p : Plan) (sortFields : List Name) :
    groupFns (addSort p sortFields) = groupFns p := by
  unfold addSort
  split <;> rfl

/-- What a plan leaves in the planner is what the grouping of a query with groups gets. -/
theorem createPlan_fns (h : createPlan overflow db viewDef n q = .ok (plan, aggFns)) :
    aggFns = leftover overflow db viewDef n q ∧
      (isGrouped q = true → groupFns plan = some aggFns) := by
  induction n generalizing q plan aggFns with
  | zero => cases h
  | succ n ih =>
    obtain ⟨fields, tables, queryTables, predicate, groupFields, sortFields⟩ := q
    obtain ⟨sources₁, htables, h⟩ := bind_eq_ok.mp h
    obtain ⟨sources₂, hqueries, h⟩ := bind_eq_ok.mp h
    obtain ⟨p₁, hproduct, h⟩ := bind_eq_ok.mp h
    obtain ⟨⟨p₂, aggFns₂⟩, hgroups, h⟩ := bind_eq_ok.mp h
    obtain ⟨p₃, hproject, h⟩ := bind_eq_ok.mp h
    cases h
    have hleft : ∀ q p aggFns, createPlan overflow db viewDef n q = .ok (p, aggFns) →
        aggFns = leftover overflow db viewDef n q := fun q p aggFns hplan => (ih hplan).1
    have hfns₁ := foldlM_addSource hleft htables
    have hfns₂ := foldlM_addSubquery hleft hqueries
    have hproj : groupFns p₃ = groupFns p₂ := by
      unfold Plan.newProject at hproject
      split at hproject
      · cases hproject
        rfl
      · cases hproject
    have hsources : sources₂.2 =
        (lastNested overflow viewDef (.mk fields tables queryTables predicate groupFields
          sortFields)).elim [] (leftover overflow db viewDef n) ++
        if !groupFields.isEmpty then (keptTables viewDef (.mk fields tables queryTables predicate
          groupFields sortFields)).flatMap (tableFns db) else [] := by
      rw [hfns₂, hfns₁]
      cases hlast : queryTables.getLast? with
      | none =>
        rw [List.getLast?_eq_none_iff.mp hlast]
        rfl
      | some q' =>
        have hne : queryTables.isEmpty = false := by
          cases queryTables with
          | nil => cases hlast
          | cons _ _ => rfl
        unfold lastNested keptTables
        simp [hlast, hne]
    rw [groupFns_addSort, hproj]
    unfold addGroups at hgroups
    have hgrouped : isGrouped (.mk fields tables queryTables predicate groupFields sortFields) =
      !groupFields.isEmpty := rfl
    unfold leftover
    dsimp only
    rw [hgrouped]
    cases hempty : groupFields.isEmpty with
    | true =>
      rw [hempty] at hgroups hsources
      cases hgroups
      refine ⟨?_, fun hgrouped => by cases hgrouped⟩
      rw [hsources]
      exact List.append_nil _
    | false =>
      rw [hempty] at hgroups hsources
      obtain ⟨p₄, hgroup, hgroups⟩ := bind_eq_ok.mp hgroups
      cases hgroups
      unfold Plan.newGroupBy at hgroup
      split at hgroup
      · cases hgroup
        refine ⟨?_, fun _ => rfl⟩
        rw [hsources]
        rfl
      · cases hgroup

/-- The functions of a field are no counts. -/
theorem count_not_mem_fieldFns (schema : Schema) : AggregationFn.count ∉ fieldFns schema := by
  unfold fieldFns
  intro hmem
  obtain ⟨fieldName, -, hmem⟩ := List.mem_flatMap.mp hmem
  split at hmem <;> simp at hmem

theorem fieldFns_eq_nil {schema : Schema} : fieldFns schema = [] ↔ schema.fields = [] := by
  unfold fieldFns
  rw [List.flatMap_eq_nil_iff]
  constructor
  · intro hall
    rw [List.eq_nil_iff_forall_not_mem]
    intro fieldName hmem
    have hnil := hall fieldName hmem
    split at hnil <;> cases hnil
  · intro hnil fieldName hmem
    rw [hnil] at hmem
    cases hmem

theorem count_flatMap_tableFns (tables : List Name) :
    (tables.flatMap (tableFns db)).count .count = 0 := by
  rw [List.count_eq_zero]
  intro hmem
  obtain ⟨tableName, -, hmem⟩ := List.mem_flatMap.mp hmem
  exact count_not_mem_fieldFns _ hmem

/-- What a query leaves is empty or has a count. -/
theorem leftover_eq_nil :
    leftover overflow db viewDef n q = [] ↔ Ungrouped overflow viewDef n q := by
  induction n generalizing q with
  | zero => exact iff_of_true rfl trivial
  | succ n ih =>
    unfold leftover Ungrouped
    dsimp only
    cases hgrouped : isGrouped q with
    | true => simp
    | false =>
      cases hlast : lastNested overflow viewDef q with
      | none => simp
      | some q' => simpa using ih

theorem count_leftover (h : leftover overflow db viewDef n q ≠ []) :
    0 < (leftover overflow db viewDef n q).count .count := by
  induction n generalizing q with
  | zero => exact absurd rfl h
  | succ n ih =>
    unfold leftover at h ⊢
    dsimp only at h ⊢
    cases hgrouped : isGrouped q with
    | true =>
      rw [if_pos rfl, List.count_append, List.count_singleton_self]
      omega
    | false =>
      rw [hgrouped] at h
      cases hlast : lastNested overflow viewDef q with
      | none =>
        rw [hlast] at h
        exact absurd rfl h
      | some q' =>
        rw [hlast] at h
        exact ih h

end Planned

/-- No table with fields comes before the view or subquery that is planned last, and that one
leaves no functions. -/
def OwnOnly (overflow : ℕ → Option Int32) (db : Db) (viewDef : Name → Text) :
    ℕ → QueryData → Prop
  | 0, _ => True
  | n + 1, q =>
      (∀ tableName ∈ lostTables viewDef q, isTable viewDef tableName = true →
        (layoutSchema (getLayout db tableName)).fields = []) ∧
      ∀ q', lastNested overflow viewDef q = some q' → Ungrouped overflow viewDef n q'

section Results

variable {overflow : ℕ → Option Int32} {db : Db} {viewDef : Name → Text} {n : ℕ} {q : QueryData}
  {plan : Plan} {aggFns : List AggregationFn}

theorem ownFns_split (db : Db) (viewDef : Name → Text) (q : QueryData) :
    ownFns db viewDef q = ((lostTables viewDef q).filter (isTable viewDef)).flatMap (tableFns db) ++
      (keptTables viewDef q).flatMap (tableFns db) := by
  obtain ⟨fields, tables, queryTables, predicate, groupFields, sortFields⟩ := q
  unfold ownFns lostTables keptTables
  dsimp only
  by_cases hqueries : queryTables.isEmpty
  · rw [if_pos hqueries, if_pos hqueries, ← List.flatMap_append]
    congr 1
    have hkept : (tables.rtakeWhile (isTable viewDef)).filter (isTable viewDef) =
        tables.rtakeWhile (isTable viewDef) :=
      List.filter_eq_self.mpr fun tableName hmem => List.mem_rtakeWhile_imp hmem
    conv_rhs => rw [← hkept, ← List.filter_append, List.rdropWhile_append_rtakeWhile]
  · rw [if_neg hqueries, if_neg hqueries, List.flatMap_nil, List.append_nil]

theorem lost_nil_iff :
    ((lostTables viewDef q).filter (isTable viewDef)).flatMap (tableFns db) = [] ↔
    ∀ tableName ∈ lostTables viewDef q, isTable viewDef tableName = true →
      (layoutSchema (getLayout db tableName)).fields = [] := by
  rw [List.flatMap_eq_nil_iff]
  unfold tableFns
  simp only [List.mem_filter, and_imp, fieldFns_eq_nil]

theorem left_nil_iff :
    (lastNested overflow viewDef q).elim [] (leftover overflow db viewDef n) = [] ↔
      ∀ q', lastNested overflow viewDef q = some q' → Ungrouped overflow viewDef n q' := by
  cases lastNested overflow viewDef q with
  | none => simp
  | some q' => simpa using leftover_eq_nil

theorem left_nil_of_count
    (h : ((lastNested overflow viewDef q).elim [] (leftover overflow db viewDef n)).count .count =
      0) :
    (lastNested overflow viewDef q).elim [] (leftover overflow db viewDef n) = [] := by
  cases hlast : lastNested overflow viewDef q with
  | none => rfl
  | some q' =>
    rw [hlast] at h
    by_contra hne
    exact absurd h (Nat.ne_of_gt (count_leftover hne))

/-- The functions that a query with groups is planned with are those of its own tables, and a
count, exactly if nothing was lost and nothing was left. -/
theorem own_functions_iff (h : createPlan overflow db viewDef n q = .ok (plan, aggFns))
    (hgrouped : isGrouped q = true) :
    (∃ fns, groupFns plan = some fns ∧ fns.Perm (ownFns db viewDef q ++ [.count])) ↔
      OwnOnly overflow db viewDef n q := by
  cases n with
  | zero => cases h
  | succ n =>
    obtain ⟨hfns, hgroup⟩ := createPlan_fns h
    have hleft : aggFns = (lastNested overflow viewDef q).elim []
        (leftover overflow db viewDef n) ++ (keptTables viewDef q).flatMap (tableFns db) ++
        [.count] := by
      rw [hfns]
      unfold leftover
      rw [hgrouped]
      rfl
    rw [hgroup hgrouped, hleft, ownFns_split, OwnOnly, ← lost_nil_iff, ← left_nil_iff]
    constructor
    · rintro ⟨fns, hfns, hperm⟩
      cases hfns
      have hcount := hperm.count_eq .count
      simp only [List.count_append, count_flatMap_tableFns] at hcount
      have hnil : (lastNested overflow viewDef q).elim [] (leftover overflow db viewDef n) = [] :=
        left_nil_of_count (by omega)
      have hlength := hperm.length_eq
      rw [hnil] at hlength
      simp only [List.length_append, List.length_nil] at hlength
      exact ⟨List.eq_nil_of_length_eq_zero (by omega), hnil⟩
    · rintro ⟨hlost, hnil⟩
      refine ⟨_, rfl, ?_⟩
      rw [hlost, hnil]

end Results

def oneColumn (c : Char) : Table :=
  ⟨Schema.empty.addIntField [c], ⟨1, Nat.one_pos, fun _ => .ofInt 0⟩, [], rfl⟩

/-- The tables `t (a int)` and `s (b int)`. -/
def twoTables : Db :=
  { Db.empty with tables := fun tableName =>
      if tableName = ['t'] then some (oneColumn 'a')
      else if tableName = ['s'] then some (oneColumn 'b') else none }

/-- `select a from t, (select b from s) group by a`. -/
def groupedOverSubquery : QueryData :=
  .mk [['a']] [['t']] [.mk [['b']] [['s']] [] [] [] []] [] [['a']] []

/-- The subquery clears the functions of the table. -/
theorem not_own_groupedOverSubquery : ∃ plan aggFns,
    createPlan (fun _ => none) twoTables (fun _ => []) 2 groupedOverSubquery =
      .ok (plan, aggFns) ∧
    ¬ ∃ fns, groupFns plan = some fns ∧
      fns.Perm (ownFns twoTables (fun _ => []) groupedOverSubquery ++ [.count]) := by
  refine ⟨_, _, rfl, ?_⟩
  rintro ⟨fns, hfns, hperm⟩
  cases hfns
  exact absurd hperm.length_eq (by decide)

/-- `select a from t group by a`. -/
def groupedTable : QueryData := .mk [['a']] [['t']] [] [] [['a']] []

theorem own_functions_groupedTable : ∃ plan aggFns,
    createPlan (fun _ => none) twoTables (fun _ => []) 1 groupedTable = .ok (plan, aggFns) ∧
    ∃ fns, groupFns plan = some fns ∧
      fns.Perm (ownFns twoTables (fun _ => []) groupedTable ++ [.count]) := by
  have hown : OwnOnly (fun _ => none) twoTables (fun _ => []) 1 groupedTable := by
    refine ⟨?_, ?_⟩
    · intro tableName hmem
      cases hmem
    · intro q' hlast
      cases hlast
  exact ⟨_, _, rfl, (own_functions_iff rfl rfl).mpr hown⟩

end SampleDB.PlannedAggregates
