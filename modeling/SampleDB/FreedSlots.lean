import SampleDB.PlannerAgreement
import SampleDB.Runs
import SampleDB.TypedTables

/-!
What a new record finds in the slot that it takes. Freeing a slot and taking it again change
its flag only, so the columns that an insertion does not name are those of the record that
was deleted from the slot.
-/
namespace SampleDB.FreedSlots

open Lexer Schemas Statements Pages Blocks TableScans UpdatePlanner UpdatePlanners PlannerAgreement
open Runs

variable {S : Type}

/-- A command is executed by one of the two planners. -/
inductive Executes (work : UpdatePlanners.IndexOp → S → Result S) :
    Db × S → Update → Db × S → Prop
  | basic (db db' : Db) (s : S) (u : Update) (n : ℕ) : basicExecute db u = .ok (n, db') →
      Executes work (db, s) u (db', s)
  | indexed (db db' : Db) (s s' : S) (u : Update) (n : ℕ) :
      indexedExecute work db s u = .ok ((n, db'), s') → Executes work (db, s) u (db', s')

section Commands

variable {work : UpdatePlanners.IndexOp → S → Result S} {db db' : Db} {s s' : S} {u : Update}
  {us : List Update} {n : ℕ} {p p' : Db × S} {t : Table} {data : InsertData} {tableName : Name}
  {B : BlockSize}

end Commands

section Examples

def twoColumns : Schema := (Schema.empty.addIntField ['a']).addIntField ['b']

def block : BlockSize := ⟨400, word_le_standard, standard_lt_int⟩

def created : Table := ⟨twoColumns, ⟨33, by decide, blankRow twoColumns⟩, [], by decide⟩

def start : Db × Unit := (Db.empty.setTable ['t'] created, ())

def noIndexes : UpdatePlanners.IndexOp → Unit → Result Unit := fun _ s => .ok s

/-- The database after a command of the basic planner. -/
def after (u : Update) (db : Db) : Db := (basicExecute db u).toOption.elim db Prod.snd

end Examples

end SampleDB.FreedSlots
