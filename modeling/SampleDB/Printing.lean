import Mathlib.Algebra.GroupWithZero.Nat
import SampleDB.Statements

/-!
The text of a query, which is stored as the definition of a view, and the tokens that
the text is read back as. Every part of it but a term is set off by blanks or commas; a
term is printed without blanks and comes back as one token.
-/
namespace SampleDB.Statements

open Lexer

/-- The items, with a comma and a blank behind each. -/
def listed (items : List Text) : Text := items.flatMap (fun item => item ++ [',', ' '])

/-- `substr(0, size() - 2)`. -/
def dropTail (result : Text) : Text := result.take (result.length - 2)

def Predicate.toString : Predicate → Text
  | [] => []
  | term :: terms =>
      term.toString ++ terms.flatMap (fun t => ' ' :: (Word.andWord ++ ' ' :: t.toString))

/-- The clause that begins with GROUP or with ORDER is added where it has fields. -/
def addFields (result : Text) (word : Token) (fields : List Name) : Text :=
  if 0 < fields.length then
    dropTail (result ++ ' ' :: (word ++ ' ' :: (Word.byWord ++ ' ' :: listed fields)))
  else result

mutual

def QueryData.toString : QueryData → Text
  | .mk fields tables queryTables predicate groupFields sortFields =>
      let selected := dropTail (Word.selectWord ++ ' ' :: listed fields)
      let sources := dropTail (selected ++ ' ' :: (Word.fromWord ++ ' ' ::
        (listed tables ++ parenthesized queryTables)))
      let predicateStr := Predicate.toString predicate
      let filtered :=
        if predicateStr = [] then sources
        else sources ++ ' ' :: (Word.whereWord ++ ' ' :: predicateStr)
      addFields (addFields filtered Word.groupWord groupFields) Word.orderWord sortFields

/-- The queries in parentheses, with a comma and a blank behind each. -/
def parenthesized : List QueryData → Text
  | [] => []
  | q :: queries =>
      Word.leftParen :: ' ' :: (q.toString ++ [' ', Word.rightParen, ',', ' ']) ++
        parenthesized queries

end

end SampleDB.Statements

namespace SampleDB.Printing

open Lexer Statements

/-- A text that is read as one token. -/
def Unbroken (text : Text) : Prop := text ≠ [] ∧ ∀ c ∈ text, c ≠ ' ' ∧ c ≠ ','

section Tokens

/-- A blank and a comma end a token. -/
theorem tokensFrom_append {c : Char} (hc : c = ' ' ∨ c = ',') (begun a b : Text) :
    tokensFrom begun (a ++ c :: b) = tokensFrom begun a ++ tokens (c :: b) := by
  induction a generalizing begun with
  | nil =>
    rcases hc with rfl | rfl
    · simp [tokensFrom, tokens]
    · simp [tokensFrom, tokens]
  | cons d a ih =>
    simp only [List.cons_append, tokensFrom]
    by_cases hblank : d = ' '
    · rw [if_pos hblank, if_pos hblank, ih, List.append_assoc]
    · rw [if_neg hblank, if_neg hblank]
      by_cases hcomma : d = ','
      · rw [if_pos hcomma, if_pos hcomma, ih, List.append_assoc]
        rfl
      · rw [if_neg hcomma, if_neg hcomma, ih]

theorem tokens_blank (a b : Text) : tokens (a ++ ' ' :: b) = tokens a ++ tokens b :=
  tokensFrom_append (Or.inl rfl) [] a b

/-- A comma is a token. -/
theorem tokens_comma (a b : Text) : tokens (a ++ ',' :: b) = tokens a ++ [','] :: tokens b :=
  tokensFrom_append (Or.inr rfl) [] a b

theorem tokensFrom_unbroken {begun text : Text} (h : ∀ c ∈ text, c ≠ ' ' ∧ c ≠ ',')
    (hne : begun ++ text ≠ []) : tokensFrom begun text = [begun ++ text] := by
  induction text generalizing begun with
  | nil =>
    rw [List.append_nil] at hne ⊢
    exact if_neg hne
  | cons c text ih =>
    obtain ⟨hblank, hcomma⟩ := h c List.mem_cons_self
    rw [tokensFrom, if_neg hblank, if_neg hcomma,
      ih (fun d hd => h d (List.mem_cons_of_mem c hd)) (by simp), List.append_assoc]
    rfl

theorem tokens_unbroken {text : Text} (h : Unbroken text) : tokens text = [text] :=
  tokensFrom_unbroken h.2 h.1

end Tokens

section Texts

def sources (tables : List Name) (queryTables : List QueryData) : List (QueryData ⊕ Name) :=
  tables.map .inr ++ queryTables.map .inl

end Texts

section Parts

end Parts

end SampleDB.Printing
