import SampleDB.Acceptance
import SampleDB.Printing

/-!
Whether the text of a query is read back as the query. The tokens of the text are
counted: a term of the text is one token, a term of the grammar three. So a query with a
predicate, also one in a subquery, is not read back, and one without is.
-/
namespace SampleDB.Reparsing

open Parsing Lexer Schemas Statements Grammar SqlParser Acceptance Printing

variable (overflow : ℕ → Option Int32)

section Characters

variable {c : Char} {t : Token} {name : Name}

end Characters

section Tokens

variable {α : Type} {r : Rules} {L : List Token → α → Prop} {f : α → Text} {xs : List α}

end Tokens

section Counting

def clauseWeight (fields : List Name) : ℕ := if fields = [] then 0 else 2 * fields.length + 1

mutual

/-- The tokens of a query whose terms have `k` of them each. -/
def weight (k : ℕ) : QueryData → ℕ
  | .mk fields tables queryTables predicate groupFields sortFields =>
      2 * fields.length + 2 * tables.length + weights k queryTables +
        (k + 1) * predicate.length + clauseWeight groupFields + clauseWeight sortFields

def weights (k : ℕ) : List QueryData → ℕ
  | [] => 0
  | q :: queries => weight k q + 3 + weights k queries

end

end Counting

section Derivations

end Derivations

end SampleDB.Reparsing
