import Mathlib.Logic.Function.Basic
import SampleDB.Lexer

/-!
Constants, and schemas. A constant of the source has a pointer to an integer and one to a
string; both are null in a null constant. A schema lists its field names in the order
they were added and keeps the newest type and length of each.
-/
namespace SampleDB.Schemas

open Lexer

structure Constant where
  ival : Option Int32
  sval : Option Text
  deriving DecidableEq, Repr

namespace Constant

/-- The default constructor. -/
def null : Constant := ⟨none, none⟩

def ofInt (ival : Int32) : Constant := ⟨some ival, none⟩

def ofString (sval : Text) : Constant := ⟨none, some sval⟩

def isNull (c : Constant) : Bool := c.ival.isNone && c.sval.isNone

/-- Not read where both are null. -/
def toString (c : Constant) : Text :=
  match c.ival with
  | some n => (ToString.toString n.toInt).toList
  | none => c.sval.getD []

end Constant

inductive FieldType
  | integer
  | varchar
  | boolean
  deriving DecidableEq, Repr

structure FieldInfo where
  type : FieldType
  length : Int32
  deriving DecidableEq, Repr

structure Schema where
  fields : List Name
  fieldInfo : Name → Option FieldInfo

namespace Schema

def empty : Schema := ⟨[], fun _ => none⟩

def addField (s : Schema) (fieldName : Name) (info : FieldInfo) : Schema :=
  ⟨s.fields ++ [fieldName], Function.update s.fieldInfo fieldName (some info)⟩

def addIntField (s : Schema) (fieldName : Name) : Schema := s.addField fieldName ⟨.integer, 0⟩

def addStringField (s : Schema) (fieldName : Name) (length : Int32) : Schema :=
  s.addField fieldName ⟨.varchar, length⟩

def addBoolField (s : Schema) (fieldName : Name) : Schema := s.addField fieldName ⟨.boolean, 0⟩

def hasField (s : Schema) (fieldName : Name) : Bool := (s.fieldInfo fieldName).isSome

/-- The fields of another schema, which has a type for each of its names. -/
def addAll (s other : Schema) : Schema :=
  other.fields.foldl (fun s fieldName =>
    match other.fieldInfo fieldName with
    | some info => s.addField fieldName info
    | none => s) s

/-- The schema with these fields, in their order. -/
def ofFields (defs : List (Name × FieldInfo)) : Schema :=
  defs.foldl (fun s d => s.addField d.1 d.2) empty

theorem addField_info_self (s : Schema) (name : Name) (info : FieldInfo) :
    (s.addField name info).fieldInfo name = some info :=
  Function.update_self name _ _

theorem addField_info_ne (s : Schema) {name name' : Name} (info : FieldInfo) (h : name' ≠ name) :
    (s.addField name info).fieldInfo name' = s.fieldInfo name' :=
  Function.update_of_ne h _ _

theorem foldl_addField_fields (defs : List (Name × FieldInfo)) (s : Schema) :
    (defs.foldl (fun s d => s.addField d.1 d.2) s).fields = s.fields ++ defs.map Prod.fst := by
  induction defs generalizing s with
  | nil => simp
  | cons d defs ih =>
    rw [List.foldl_cons, ih, List.map_cons]
    exact List.append_assoc s.fields [d.1] _

/-- The newest type and length of a name counts. -/
theorem foldl_addField_info (defs : List (Name × FieldInfo)) (s : Schema) (name : Name) :
    (defs.foldl (fun s d => s.addField d.1 d.2) s).fieldInfo name =
      if name ∈ defs.map Prod.fst then (ofFields defs).fieldInfo name else s.fieldInfo name := by
  induction defs generalizing s with
  | nil => rfl
  | cons d defs ih =>
    have hself : (ofFields (d :: defs)).fieldInfo name =
        if name ∈ defs.map Prod.fst then (ofFields defs).fieldInfo name
        else (empty.addField d.1 d.2).fieldInfo name := ih _
    have hcons : name ∈ (d :: defs).map Prod.fst ↔ name = d.1 ∨ name ∈ defs.map Prod.fst := by
      rw [List.map_cons, List.mem_cons]
    rw [List.foldl_cons, ih, hself]
    by_cases hmem : name ∈ defs.map Prod.fst
    · rw [if_pos hmem, if_pos (hcons.mpr (Or.inr hmem)), if_pos hmem]
    · rw [if_neg hmem]
      by_cases heq : name = d.1
      · rw [if_pos (hcons.mpr (Or.inl heq)), if_neg hmem, heq, addField_info_self,
          addField_info_self]
      · rw [if_neg (fun h => (hcons.mp h).elim heq hmem), addField_info_ne s d.2 heq]

theorem ofFields_info_ne_none {defs : List (Name × FieldInfo)} {name : Name}
    (h : name ∈ defs.map Prod.fst) : (ofFields defs).fieldInfo name ≠ none := by
  induction defs with
  | nil => cases h
  | cons d defs ih =>
    have hself : (ofFields (d :: defs)).fieldInfo name = _ := foldl_addField_info defs _ name
    rw [hself]
    by_cases hmem : name ∈ defs.map Prod.fst
    · rw [if_pos hmem]
      exact ih hmem
    · rw [if_neg hmem]
      have heq : name = d.1 := by
        rcases List.mem_cons.mp h with heq | h
        · exact heq
        · exact absurd h hmem
      rw [heq, addField_info_self]
      exact Option.some_ne_none d.2

/-- Adding all fields of a schema is adding its fields one after another. -/
theorem addAll_ofFields (s : Schema) (defs : List (Name × FieldInfo)) :
    s.addAll (ofFields defs) = defs.foldl (fun s d => s.addField d.1 d.2) s := by
  have hloop : ∀ (names : List Name) (s : Schema),
      (∀ name ∈ names, (ofFields defs).fieldInfo name ≠ none) →
      names.foldl (fun s fieldName =>
        match (ofFields defs).fieldInfo fieldName with
        | some info => s.addField fieldName info
        | none => s) s =
      ⟨s.fields ++ names, fun name =>
        if name ∈ names then (ofFields defs).fieldInfo name else s.fieldInfo name⟩ := by
    intro names
    induction names with
    | nil => simp
    | cons n names ih =>
      intro s hinfo
      obtain ⟨info, hn⟩ := Option.ne_none_iff_exists'.mp (hinfo n List.mem_cons_self)
      rw [List.foldl_cons, hn, ih _ (fun name hmem => hinfo name (List.mem_cons_of_mem n hmem))]
      dsimp only
      congr 1
      · exact List.append_assoc s.fields [n] names
      · funext name
        by_cases hmem : name ∈ names
        · rw [if_pos hmem, if_pos (List.mem_cons_of_mem n hmem)]
        · rw [if_neg hmem]
          by_cases heq : name = n
          · rw [heq, if_pos List.mem_cons_self, hn, addField_info_self]
          · rw [if_neg (fun h => (List.mem_cons.mp h).elim heq hmem), addField_info_ne s info heq]
  have hfields : (ofFields defs).fields = defs.map Prod.fst := by
    unfold ofFields
    rw [foldl_addField_fields]
    rfl
  unfold addAll
  rw [hloop _ s (fun name hmem => ofFields_info_ne_none (hfields ▸ hmem)), hfields]
  have hsame : ∀ s' : Schema, s' = ⟨s'.fields, s'.fieldInfo⟩ := fun _ => rfl
  rw [hsame (defs.foldl (fun s d => s.addField d.1 d.2) s), foldl_addField_fields]
  congr 1
  funext name
  exact (foldl_addField_info defs s name).symm

end Schema

end SampleDB.Schemas
