import SampleDB.Parsing

/-!
The tokens of a command and the lexer. A text is split at blanks and commas, and
nowhere else, so a delimiter that is not set off by blanks is part of its token. The
lexer compares only the first character of a token with a delimiter.
-/
namespace SampleDB.Lexer

abbrev Text := List Char

abbrev Token := Text

/-- A table, a view, an index or a field. -/
abbrev Name := Text

instance lawfulBEqName : LawfulBEq Name := inferInstance

namespace Word

def equalSign : Char := '='
def comma : Char := ','
def leftParen : Char := '('
def rightParen : Char := ')'
def quote : Char := Char.ofNat 39

def andWord : Token := "and".toList
def selectWord : Token := "select".toList
def fromWord : Token := "from".toList
def whereWord : Token := "where".toList
def insertWord : Token := "insert".toList
def deleteWord : Token := "delete".toList
def updateWord : Token := "update".toList
def tableWord : Token := "table".toList
def viewWord : Token := "view".toList
def indexWord : Token := "index".toList
def createWord : Token := "create".toList
def setWord : Token := "set".toList
def asWord : Token := "as".toList
def onWord : Token := "on".toList
def intoWord : Token := "into".toList
def orderWord : Token := "order".toList
def groupWord : Token := "group".toList
def byWord : Token := "by".toList
def intWord : Token := "int".toList
def varcharWord : Token := "varchar".toList
def boolWord : Token := "bool".toList
def trueWord : Token := "true".toList
def falseWord : Token := "false".toList
def valuesWord : Token := "values".toList

end Word

section StreamTokenizer

/-- The tokens of a text behind the characters of a token that has begun. -/
def tokensFrom (begun : Text) : Text → List Token
  | [] => if begun = [] then [] else [begun]
  | c :: text =>
      if c = ' ' then (if begun = [] then [] else [begun]) ++ tokensFrom [] text
      else if c = ',' then (if begun = [] then [] else [begun]) ++ [','] :: tokensFrom [] text
      else tokensFrom (begun ++ [c]) text

/-- The tokens of `boost::char_separator(" ", ",")`. -/
def tokens (text : Text) : List Token := tokensFrom [] text

def toLower (t : Token) : Token := t.map Char.toLower

def isNumber (t : Token) : Bool := t.all Char.isDigit

def isWord (t : Token) : Bool := !isNumber t && t.all Char.isAlphanum

/-- The type of the current token, in front of the remaining ones. -/
def ttype : List Token → Text
  | [] => "EOF".toList
  | t :: _ =>
      if isNumber t then "NUMBER".toList
      else if isWord t then "WORD".toList
      else if t.head? = some Word.quote then [Word.quote]
      else toLower t

/-- Read only where the type says that there is a token. -/
def sval : List Token → Token
  | [] => []
  | t :: _ => toLower t

/-- The value of a string of digits. -/
def numeral (t : Token) : ℕ := t.foldl (fun n c => 10 * n + (c.toNat - 48)) 0

end StreamTokenizer

/-- Which `eat` has thrown. The text of the delimiter error is the result of pointer
arithmetic on a literal, so it is left out. -/
inductive ParseError
  | keyword (word : Token)
  | delimiter (delim : Char)
  | integer
  | string
  | identifier
  deriving DecidableEq, Repr

/-- A method of the lexer or of the parser, on the tokens that remain. -/
abbrev Parse (α : Type) := Parsing.Parser Token ParseError α

def keywords : List Token :=
  [Word.selectWord, Word.fromWord, Word.whereWord, Word.andWord, Word.insertWord, Word.intoWord,
    Word.valuesWord, Word.deleteWord, Word.updateWord, Word.setWord, Word.createWord,
    Word.tableWord, Word.varcharWord, Word.intWord, Word.boolWord, Word.trueWord, Word.falseWord,
    Word.viewWord, Word.asWord, Word.indexWord, Word.onWord]

def matchDelimiter (delim : Char) (toks : List Token) : Bool := (ttype toks).head? = some delim

def matchInteger (toks : List Token) : Bool := ttype toks = "NUMBER".toList

def matchString (toks : List Token) : Bool := (ttype toks).head? = some Word.quote

def matchKeyword (word : Token) (toks : List Token) : Bool :=
  ttype toks = "WORD".toList && sval toks = word

def matchIdentifier (toks : List Token) : Bool :=
  ttype toks = "WORD".toList && !keywords.contains (sval toks)

def eatDelimiter (delim : Char) : Parse Unit := fun toks =>
  if matchDelimiter delim toks then .ok ((), toks.tail) else .error (.delimiter delim)

/-- The conversion of a `double` to an `int` is not defined out of range, and `stod` throws
for a number that is no `double`; `overflow` is what becomes of such a number. -/
def eatInteger (overflow : ℕ → Option Int32) : Parse Int32 := fun toks =>
  if matchInteger toks then
    let n := numeral (sval toks)
    match if n < 2147483648 then some (Int32.ofNat n) else overflow n with
    | some x => .ok (x, toks.tail)
    | none => .error .integer
  else .error .integer

def unquote (s : Text) : Text :=
  if 2 ≤ s.length ∧ s.head? = some Word.quote ∧ s.getLast? = some Word.quote then
    s.tail.dropLast
  else s

def eatString : Parse Text := fun toks =>
  if matchString toks then .ok (unquote (sval toks), toks.tail) else .error .string

def eatKeyword (word : Token) : Parse Unit := fun toks =>
  if matchKeyword word toks then .ok ((), toks.tail) else .error (.keyword word)

def eatIdentifier : Parse Name := fun toks =>
  if matchIdentifier toks then .ok (sval toks, toks.tail) else .error .identifier

end SampleDB.Lexer
