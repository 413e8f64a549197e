import SampleDB.PlanMeanings
import SampleDB.SlotBags

/-!
A relational database, and the update planner as one. A relation is a bag of rows; beside it stands
the bag of the deleted rows whose slots are free, since a new row has what it finds there in the
columns that it gets no value for. The commands are said on these bags alone, without slots,
blocks and indexes. Every run of the planner is a run of the relational database, with the same
counts.
-/
namespace SampleDB.Relations

open Lexer Schemas Statements SqlParser Pages Blocks TableScans UpdatePlanner TypedTables
open ExactUpdates PlanMeanings SlotBags Runs SchemaSoundness

structure Relation where
  schema : Schema
  rows : Multiset Row
  freed : Multiset Row

abbrev RelationalDb := Name → Option Relation

section Commands

/-- The row with these values; of two for one column it has the second. -/
def assign : List Name → List Constant → Row → Row
  | F :: fields, c :: values, row => assign fields values (Function.update row F c)
  | _, _, row => row

/-- The row that a new row is made from, and the freed rows that are left. -/
inductive Takes (r : Relation) : Row → Multiset Row → Prop
  | blank : Takes r (blankRow r.schema) r.freed
  | freed {old : Row} {freed : Multiset Row} (h : r.freed = old ::ₘ freed) : Takes r old freed

/-- A constant of the parser is an integer or a string. -/
def Literal (c : Constant) : Prop := ∃ k, OfKind k c

/-- A field, or a literal. -/
def Written (e : Expression) : Prop := e.value.isNull = true ∨ Literal e.value

def WrittenPredicate (pred : Predicate) : Prop := ∀ t ∈ pred, Written t.lhs ∧ Written t.rhs

/-- A command as the parser makes it. -/
def WellFormed : Command → Prop
  | .insert data => ∀ c ∈ data.values, Literal c
  | .delete data => WrittenPredicate data.predicate
  | .modify data => Written data.newValue ∧ WrittenPredicate data.predicate
  | .createTable data => Listed data.newSchema
  | _ => True

/-- The planner returns this count. -/
def Executes (B : BlockSize) (db : Db) (cmd : Command × ℕ) (db' : Db) : Prop :=
  execute db B cmd.1 = .ok (cmd.2, db') ∧ WellFormed cmd.1

end Commands

section Values

variable {schema : Schema} {row row' : Row} {F : Name} {c c' : Constant} {e : Expression}

theorem literal_ofInt (n : Int32) : Literal (.ofInt n) := ⟨.integer, n, rfl⟩

theorem literal_ofString (s : Text) : Literal (.ofString s) := ⟨.string, s, rfl⟩

end Values

section Parsing

open Parsing Grammar Acceptance

variable {overflow : ℕ → Option Int32} {l : Literals} {t : Token}

theorem literal_of_constant {c : Constant} (h : IsConstant l t c) : Literal c := by
  rcases h with ⟨-, rfl⟩ | ⟨-, rfl⟩ | ⟨s, -, rfl⟩ | ⟨n, -, rfl⟩
  · exact literal_ofInt 1
  · exact literal_ofInt 0
  · exact literal_ofString s
  · exact literal_ofInt n

theorem written_of_expression {e : Expression} (h : IsExpression l t e) : Written e := by
  rcases h with ⟨name, -, rfl⟩ | ⟨c, hc, rfl⟩
  · exact Or.inl rfl
  · exact Or.inr (literal_of_constant hc)

theorem written_of_where {r : Rules} {full : Last} {ts : List Token} {pred : Predicate}
    {wl : Option Last} (h : WhereClause r full ts pred wl) : WrittenPredicate pred := by
  cases h with
  | absent => exact fun t ht => (nomatch ht)
  | present hw hpred =>
    refine hpred.forall_item (P := fun _ => True) (fun _ _ => trivial) (fun ts term _ hterm => ?_)
    obtain ⟨t, eq, t', -, hl, -, hr⟩ := hterm
    exact ⟨written_of_expression hl, written_of_expression hr⟩

/-- The parser makes no other commands. -/
theorem wellFormed_of_parse {update : Text} {cmd : Command}
    (h : parse (updateCmd overflow) update = .ok cmd) : WellFormed cmd := by
  obtain ⟨rest, hparse⟩ := parse_eq_ok.mp h
  obtain ⟨ts, last, -, hcmd, -⟩ := (updateCmd_eq_ok overflow).mp hparse
  cases hcmd with
  | insert _ _ _ _ _ _ _ _ hconstants _ =>
    refine hconstants.forall_item (P := fun _ => True) (fun _ _ => trivial) (fun ts c _ hitem => ?_)
    obtain ⟨t, -, hc⟩ := hitem
    exact literal_of_constant hc
  | delete _ _ _ hwhere => exact written_of_where hwhere
  | modify _ _ _ _ _ hvalue hwhere =>
    obtain ⟨-, rfl⟩ := hvalue
    exact ⟨Or.inl rfl, written_of_where hwhere⟩
  | createTable _ _ _ _ hdefs _ => exact listed_ofFields _
  | createView | createIndex => trivial

end Parsing

section Refinement

/-- The bags of a table. The free slots that no record was in are blank. -/
structure Stands (t : Table) (r : Relation) : Prop where
  schema : t.schema = r.schema
  blank : t.form.blank = blankRow r.schema
  used : rows true t.slots = r.rows
  free : ∃ k, rows false t.slots = r.freed + Multiset.replicate k (blankRow r.schema)

def Represents (db : Db) (D : RelationalDb) : Prop :=
  ∀ tableName, Option.Rel Stands (db.tables tableName) (D tableName)

variable {B : BlockSize} {db db' : Db} {D : RelationalDb} {n : ℕ}

theorem Represents.find (h : Represents db D) {tableName : Name} {t : Table}
    (ht : db.tables tableName = some t) : ∃ r, D tableName = some r ∧ Stands t r := by
  have hrel := h tableName
  rw [ht] at hrel
  cases hD : D tableName with
  | none =>
    rw [hD] at hrel
    cases hrel
  | some r =>
    rw [hD] at hrel
    cases hrel with
    | some hstands => exact ⟨r, rfl, hstands⟩

theorem Represents.setTable (h : Represents db D) (tableName : Name) {t : Table} {r : Relation}
    (hstands : Stands t r) (index : Indexes) :
    Represents { db.setTable tableName t with index := index }
      (Function.update D tableName (some r)) := by
  intro tableName'
  show Option.Rel Stands ((db.setTable tableName t).tables tableName') _
  by_cases heq : tableName' = tableName
  · rw [heq, setTable_self, Function.update_self]
    exact .some hstands
  · rw [setTable_ne db t heq, Function.update_of_ne heq]
    exact h tableName'

/-- Opening a table adds blank slots only. -/
theorem Stands.opened {t : Table} {r : Relation} (h : Stands t r) :
    rows true t.opened = r.rows ∧
      ∃ k, rows false t.opened = r.freed + Multiset.replicate k (blankRow r.schema) := by
  obtain ⟨k₀, hnew, hnewFree⟩ := rows_new t.form t.slots
  obtain ⟨k, hfreed⟩ := h.free
  refine ⟨hnew.trans h.used, k + k₀, ?_⟩
  rw [Multiset.replicate_add, ← Multiset.add_assoc, ← hfreed, ← h.blank]
  exact hnewFree

end Refinement

section Examples

end Examples

end SampleDB.Relations
