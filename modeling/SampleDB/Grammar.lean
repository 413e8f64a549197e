import SampleDB.Statements
import SampleDB.Parsing

/-!
The grammar of the supported commands: which token sequences are a command, and what
they denote. What counts as a delimiter, as a string and as an integer, what stands for
the new value of an update, and whether GROUP and ORDER may stand without BY are
parameters. With the rules of the documentation a delimiter is a token of one character;
the parser has rules of its own.
-/
namespace SampleDB.Grammar

open Parsing Lexer Schemas Statements

structure Literals where
  string : Token → Text → Prop
  integer : Token → Int32 → Prop

structure Rules extends Literals where
  delimiter : Char → Token → Prop
  newValue : List Token → Expression → Prop
  bareWords : Prop

/-- Upper and lower case are the same in words. -/
def Keyword (word t : Token) : Prop := isWord t = true ∧ toLower t = word

def Identifier (t : Token) (name : Name) : Prop :=
  isWord t = true ∧ toLower t = name ∧ name ∉ keywords

/-- The literals `true` and `false` are integers. -/
def IsConstant (l : Literals) (t : Token) (c : Constant) : Prop :=
  (Keyword Word.trueWord t ∧ c = .ofInt 1) ∨ (Keyword Word.falseWord t ∧ c = .ofInt 0) ∨
    (∃ s, l.string t s ∧ c = .ofString s) ∨ ∃ n, l.integer t n ∧ c = .ofInt n

def IsExpression (l : Literals) (t : Token) (e : Expression) : Prop :=
  (∃ name, Identifier t name ∧ e = .ofField name) ∨ ∃ c, IsConstant l t c ∧ e = .ofConstant c

/-- A list of items with commas between them. -/
def CommaList {α : Type} (r : Rules) (L : List Token → α → Prop) : List Token → List α → Prop :=
  Separated L (r.delimiter Word.comma)

def FieldName (ts : List Token) (name : Name) : Prop := ∃ t, ts = [t] ∧ Identifier t name

def IsTerm (r : Rules) (ts : List Token) (term : Term) : Prop :=
  ∃ t eq t', ts = [t, eq, t'] ∧ IsExpression r.toLiterals t term.lhs ∧
    r.delimiter Word.equalSign eq ∧
    IsExpression r.toLiterals t' term.rhs

def IsPredicate (r : Rules) : List Token → Predicate → Prop :=
  Separated (IsTerm r) (Keyword Word.andWord)

/-- What the last token of a command belongs to. `unfiltered` is in front of a WHERE that is
left out, `filter` is behind it, in a command that is no query. -/
inductive Last
  | tables
  | predicate
  | bareGroup
  | groupFields
  | bareOrder
  | sortFields
  | unfiltered
  | filter
  | closed

/-- The tokens that go on with the part itself. -/
def Own (r : Rules) : Last → Token → Prop
  | .tables | .groupFields | .sortFields => r.delimiter Word.comma
  | .predicate | .filter => Keyword Word.andWord
  | .bareGroup | .bareOrder => Keyword Word.byWord
  | .unfiltered | .closed => fun _ => False

/-- The words of the parts that may come behind it. -/
def later : Last → List Token
  | .tables => [Word.whereWord, Word.groupWord, Word.orderWord]
  | .predicate => [Word.groupWord, Word.orderWord]
  | .bareGroup | .groupFields => [Word.orderWord]
  | .unfiltered => [Word.whereWord]
  | .bareOrder | .sortFields | .filter | .closed => []

def Continues (r : Rules) (last : Last) (t : Token) : Prop :=
  Own r last t ∨ ∃ word ∈ later last, Keyword word t

/-- No token of this kind follows. -/
def Stops (P : Token → Prop) (toks : List Token) : Prop := ∀ t, toks.head? = some t → ¬ P t

/-- WHERE and a predicate, or nothing; with what the last token belongs to. -/
inductive WhereClause (r : Rules) (full : Last) : List Token → Predicate → Option Last → Prop
  | absent : WhereClause r full [] [] none
  | present {w : Token} {ts : List Token} {pred : Predicate} (hw : Keyword Word.whereWord w)
      (hpred : IsPredicate r ts pred) : WhereClause r full (w :: ts) pred (some full)

/-- GROUP BY or ORDER BY, by its first word. -/
inductive FieldsClause (r : Rules) (word : Token) (bare full : Last) :
    List Token → List Name → Option Last → Prop
  | absent : FieldsClause r word bare full [] [] none
  | bare {w : Token} (h : r.bareWords) (hw : Keyword word w) :
      FieldsClause r word bare full [w] [] (some bare)
  | present {w b : Token} {ts : List Token} {fields : List Name} (hw : Keyword word w)
      (hb : Keyword Word.byWord b) (hfields : CommaList r FieldName ts fields) :
      FieldsClause r word bare full (w :: b :: ts) fields (some full)

section Stops

variable {r : Rules} {t : Token} {toks rest : List Token} {P Q : Token → Prop}

theorem keyword_unique {w w' : Token} (h : Keyword w t) (h' : Keyword w' t) : w = w' :=
  h.2.symm.trans h'.2

theorem keyword_ne {w w' : Token} (hne : w ≠ w') : ∀ t, Keyword w t → ¬ Keyword w' t :=
  fun _ h h' => hne (keyword_unique h h')

theorem stops_cons : Stops P (t :: rest) ↔ ¬ P t := by
  unfold Stops
  simp

theorem stops_or : Stops (fun t => P t ∨ Q t) toks ↔ Stops P toks ∧ Stops Q toks := by
  unfold Stops
  simp only [not_or]
  exact ⟨fun h => ⟨fun t ht => (h t ht).1, fun t ht => (h t ht).2⟩,
    fun h t ht => ⟨h.1 t ht, h.2 t ht⟩⟩

/-- An optional part hides what is behind it, unless it is left out. -/
theorem WhereClause.stops {full : Last} {ts : List Token} {pred : Predicate} {wl : Option Last}
    (h : WhereClause r full ts pred wl) (hP : ∀ t, Keyword Word.whereWord t → ¬ P t) :
    Stops P (ts ++ rest) ↔ (wl = none → Stops P rest) := by
  cases h with
  | absent => simp
  | present hw hpred => simp [stops_cons, hP _ hw]

theorem FieldsClause.stops {word : Token} {bare full : Last} {ts : List Token}
    {fields : List Name} {gl : Option Last}
    (h : FieldsClause r word bare full ts fields gl) (hP : ∀ t, Keyword word t → ¬ P t) :
    Stops P (ts ++ rest) ↔ (gl = none → Stops P rest) := by
  cases h with
  | absent => simp
  | bare _ hw => simp [stops_cons, hP _ hw]
  | present hw hb hfields => simp [stops_cons, hP _ hw]

theorem FieldsClause.last_cases {word : Token} {bare full : Last} {ts : List Token}
    {fields : List Name} {gl : Option Last}
    (h : FieldsClause r word bare full ts fields gl) :
    gl = none ∨ gl = some bare ∨ gl = some full := by
  cases h <;> simp

theorem WhereClause.last_cases {full : Last} {ts : List Token} {pred : Predicate}
    {wl : Option Last} (h : WhereClause r full ts pred wl) :
    wl = none ∨ wl = some full := by
  cases h <;> simp

end Stops

/-- A table name, or a query in parentheses. -/
def TableItem (r : Rules) (sub : List Token → QueryData → Prop) (ts : List Token) :
    QueryData ⊕ Name → Prop
  | .inr name => FieldName ts name
  | .inl q => ∃ left qs right, ts = left :: (qs ++ [right]) ∧ r.delimiter Word.leftParen left ∧
      sub qs q ∧ r.delimiter Word.rightParen right

theorem TableItem.mono {r : Rules} {sub sub' : List Token → QueryData → Prop} {ts : List Token}
    {x : QueryData ⊕ Name} (h : TableItem r sub ts x) (hsub : ∀ ts q, sub ts q → sub' ts q) :
    TableItem r sub' ts x := by
  cases x with
  | inr name => exact h
  | inl q =>
    obtain ⟨left, qs, right, rfl, hl, hq, hr⟩ := h
    exact ⟨left, qs, right, rfl, hl, hsub _ _ hq, hr⟩

/-- The tables are a set, the subqueries a list. -/
def tableData (items : List (QueryData ⊕ Name)) : TableData :=
  ⟨(items.filterMap Sum.getRight?).foldl (fun names name => insertName name names) [],
    items.filterMap Sum.getLeft?⟩

/-- The queries in parentheses are queries. -/
inductive Query (r : Rules) : List Token → QueryData → Last → Prop
  | intro {sub : List Token → QueryData → Last → Prop} {s f : Token}
      {fs ts ws gs os : List Token} {fields : List Name} {items : List (QueryData ⊕ Name)}
      {pred : Predicate} {groupFields sortFields : List Name} {wl gl ol : Option Last}
      (hsub : ∀ ts q last, sub ts q last → Query r ts q last)
      (hselect : Keyword Word.selectWord s) (hfields : CommaList r FieldName fs fields)
      (hfrom : Keyword Word.fromWord f)
      (htables : CommaList r (TableItem r (fun ts q => ∃ last, sub ts q last)) ts items)
      (hwhere : WhereClause r .predicate ws pred wl)
      (hgroup : FieldsClause r Word.groupWord .bareGroup .groupFields gs groupFields gl)
      (hsort : FieldsClause r Word.orderWord .bareOrder .sortFields os sortFields ol) :
      Query r (s :: (fs ++ f :: (ts ++ (ws ++ (gs ++ os)))))
        (.mk fields (tableData items).tables (tableData items).queryData pred groupFields
          sortFields)
        (((ol.or gl).or wl).getD .tables)

/-- A field, its type and its length. -/
def FieldDefinition (r : Rules) (ts : List Token) (d : Name × FieldInfo) : Prop :=
  (∃ f t, ts = [f, t] ∧ Identifier f d.1 ∧
    ((Keyword Word.intWord t ∧ d.2 = ⟨.integer, 0⟩) ∨
      (Keyword Word.boolWord t ∧ d.2 = ⟨.boolean, 0⟩))) ∨
  ∃ f t left n right len, ts = [f, t, left, n, right] ∧ Identifier f d.1 ∧
    Keyword Word.varcharWord t ∧ r.delimiter Word.leftParen left ∧ r.integer n len ∧
    r.delimiter Word.rightParen right ∧ d.2 = ⟨.varchar, len⟩

inductive IsCommand (r : Rules) : List Token → Command → Last → Prop
  | insert {i o t left right v left' right' : Token} {fs vs : List Token} {tableName : Name}
      {fields : List Name} {values : List Constant}
      (hinsert : Keyword Word.insertWord i) (hinto : Keyword Word.intoWord o)
      (htable : Identifier t tableName) (hleft : r.delimiter Word.leftParen left)
      (hfields : CommaList r FieldName fs fields) (hright : r.delimiter Word.rightParen right)
      (hvalues : Keyword Word.valuesWord v) (hleft' : r.delimiter Word.leftParen left')
      (hconstants : CommaList r (fun ts c => ∃ t, ts = [t] ∧ IsConstant r.toLiterals t c) vs values)
      (hright' : r.delimiter Word.rightParen right') :
      IsCommand r (i :: o :: t :: left :: (fs ++ right :: v :: left' :: (vs ++ [right'])))
        (.insert ⟨tableName, fields, values⟩) .closed
  | delete {d f t : Token} {ws : List Token} {tableName : Name} {pred : Predicate}
      {wl : Option Last} (hdelete : Keyword Word.deleteWord d) (hfrom : Keyword Word.fromWord f)
      (htable : Identifier t tableName) (hwhere : WhereClause r .filter ws pred wl) :
      IsCommand r (d :: f :: t :: ws) (.delete ⟨tableName, pred⟩) (wl.getD .unfiltered)
  | modify {u t s f eq : Token} {vs ws : List Token} {tableName fieldName : Name}
      {newValue : Expression} {pred : Predicate} {wl : Option Last}
      (hupdate : Keyword Word.updateWord u) (htable : Identifier t tableName)
      (hset : Keyword Word.setWord s) (hfield : Identifier f fieldName)
      (hequal : r.delimiter Word.equalSign eq) (hvalue : r.newValue vs newValue)
      (hwhere : WhereClause r .filter ws pred wl) :
      IsCommand r (u :: t :: s :: f :: eq :: (vs ++ ws))
        (.modify ⟨tableName, fieldName, newValue, pred⟩) (wl.getD .unfiltered)
  | createTable {c w t left right : Token} {ds : List Token} {tableName : Name}
      {defs : List (Name × FieldInfo)} (hcreate : Keyword Word.createWord c)
      (hword : Keyword Word.tableWord w) (htable : Identifier t tableName)
      (hleft : r.delimiter Word.leftParen left)
      (hdefs : CommaList r (FieldDefinition r) ds defs)
      (hright : r.delimiter Word.rightParen right) :
      IsCommand r (c :: w :: t :: left :: (ds ++ [right]))
        (.createTable ⟨tableName, Schema.ofFields defs⟩) .closed
  | createView {c w t a : Token} {qs : List Token} {viewName : Name} {q : QueryData} {last : Last}
      (hcreate : Keyword Word.createWord c) (hword : Keyword Word.viewWord w)
      (hview : Identifier t viewName) (has : Keyword Word.asWord a) (hquery : Query r qs q last) :
      IsCommand r (c :: w :: t :: a :: qs) (.createView ⟨viewName, q⟩) last
  | createIndex {c w i o t left f right : Token} {indexName tableName fieldName : Name}
      (hcreate : Keyword Word.createWord c) (hword : Keyword Word.indexWord w)
      (hindex : Identifier i indexName) (hon : Keyword Word.onWord o)
      (htable : Identifier t tableName) (hleft : r.delimiter Word.leftParen left)
      (hfield : Identifier f fieldName) (hright : r.delimiter Word.rightParen right) :
      IsCommand r [c, w, i, o, t, left, f, right]
        (.createIndex ⟨indexName, tableName, fieldName⟩) .closed

/-- The words that a command begins with. -/
def firstWord : Command → Token
  | .insert _ => Word.insertWord
  | .delete _ => Word.deleteWord
  | .modify _ => Word.updateWord
  | .createTable _ | .createView _ | .createIndex _ => Word.createWord

theorem IsCommand.first {r : Rules} {ts : List Token} {cmd : Command} {last : Last}
    (h : IsCommand r ts cmd last) : ∃ t ts', ts = t :: ts' ∧ Keyword (firstWord cmd) t := by
  cases h with
  | insert hi => exact ⟨_, _, rfl, hi⟩
  | delete hd => exact ⟨_, _, rfl, hd⟩
  | modify hu => exact ⟨_, _, rfl, hu⟩
  | createTable hc => exact ⟨_, _, rfl, hc⟩
  | createView hc => exact ⟨_, _, rfl, hc⟩
  | createIndex hc => exact ⟨_, _, rfl, hc⟩

/-- A string is what stands between its quotes, in lower case, and an integer is an `int`. -/
def documentedLiterals : Literals where
  string t s := ∃ s', Word.quote ∉ s' ∧ t = Word.quote :: (s' ++ [Word.quote]) ∧ s = toLower s'
  integer t n := t ≠ [] ∧ isNumber t = true ∧ numeral t < 2147483648 ∧ n = Int32.ofNat (numeral t)

/-- The grammar of the documentation. -/
def documented : Rules where
  toLiterals := documentedLiterals
  delimiter c t := t = [c]
  newValue ts e := ∃ t, ts = [t] ∧ IsExpression documentedLiterals t e
  bareWords := False

section Transfer

def IsDelimiter (c : Char) : Prop := c.isAlphanum = false ∧ c ≠ Word.quote

/-- On tokens of a kind, what the first rules allow the second ones allow as well. -/
structure Weaker (P : Token → Prop) (r r' : Rules) : Prop where
  string : ∀ t s, P t → r.string t s → r'.string t s
  integer : ∀ t n, P t → r.integer t n → r'.integer t n
  delimiter : ∀ c t, IsDelimiter c → P t → r.delimiter c t → r'.delimiter c t
  bareWords : r.bareWords → r'.bareWords

variable {P : Token → Prop} {r r' : Rules} {t : Token} {ts : List Token}

theorem IsConstant.transfer (hr : Weaker P r r') {c : Constant} (ht : P t)
    (h : IsConstant r.toLiterals t c) : IsConstant r'.toLiterals t c := by
  rcases h with h | h | ⟨s, hs, rfl⟩ | ⟨n, hn, rfl⟩
  · exact Or.inl h
  · exact Or.inr (Or.inl h)
  · exact Or.inr (Or.inr (Or.inl ⟨s, hr.string t s ht hs, rfl⟩))
  · exact Or.inr (Or.inr (Or.inr ⟨n, hr.integer t n ht hn, rfl⟩))

theorem IsExpression.transfer (hr : Weaker P r r') {e : Expression} (ht : P t)
    (h : IsExpression r.toLiterals t e) : IsExpression r'.toLiterals t e := by
  rcases h with h | ⟨c, hc, rfl⟩
  · exact Or.inl h
  · exact Or.inr ⟨c, hc.transfer hr ht, rfl⟩

theorem CommaList.transfer {α : Type} (hr : Weaker P r r') {L L' : List Token → α → Prop}
    {xs : List α} (hitem : ∀ ts x, (∀ t ∈ ts, P t) → L ts x → L' ts x) (hts : ∀ t ∈ ts, P t)
    (h : CommaList r L ts xs) : CommaList r' L' ts xs :=
  h.mono_of_forall hitem (hr.delimiter _ · ⟨by decide, by decide⟩) hts

theorem IsPredicate.transfer (hr : Weaker P r r') {pred : Predicate} (hts : ∀ t ∈ ts, P t)
    (h : IsPredicate r ts pred) : IsPredicate r' ts pred := by
  refine h.mono_of_forall ?_ (fun _ _ h => h) hts
  rintro _ term hP ⟨t, eq, t', rfl, ht, heq, ht'⟩
  simp only [List.forall_mem_cons] at hP
  exact ⟨t, eq, t', rfl, ht.transfer hr hP.1,
    hr.delimiter _ _ ⟨by decide, by decide⟩ hP.2.1 heq, ht'.transfer hr hP.2.2.1⟩

theorem WhereClause.transfer (hr : Weaker P r r') {full : Last} {pred : Predicate}
    {wl : Option Last} (hts : ∀ t ∈ ts, P t) (h : WhereClause r full ts pred wl) :
    WhereClause r' full ts pred wl := by
  cases h with
  | absent => exact .absent
  | present hw hpred =>
    rw [List.forall_mem_cons] at hts
    exact .present hw (hpred.transfer hr hts.2)

theorem FieldsClause.transfer (hr : Weaker P r r') {word : Token} {bare full : Last}
    {fields : List Name} {gl : Option Last} (hts : ∀ t ∈ ts, P t)
    (h : FieldsClause r word bare full ts fields gl) :
    FieldsClause r' word bare full ts fields gl := by
  cases h with
  | absent => exact .absent
  | bare hbare hw => exact .bare (hr.bareWords hbare) hw
  | present hw hb hfields =>
    simp only [List.forall_mem_cons] at hts
    exact .present hw hb (hfields.transfer hr (fun _ _ _ h => h) hts.2.2)

theorem TableItem.transfer (hr : Weaker P r r') {sub sub' : List Token → QueryData → Prop}
    {x : QueryData ⊕ Name} (hsub : ∀ ts q, (∀ t ∈ ts, P t) → sub ts q → sub' ts q)
    (hts : ∀ t ∈ ts, P t) (h : TableItem r sub ts x) : TableItem r' sub' ts x := by
  cases x with
  | inr name => exact h
  | inl q =>
    obtain ⟨left, qs, right, rfl, hl, hq, hright⟩ := h
    simp only [List.forall_mem_cons, List.forall_mem_append] at hts
    exact ⟨left, qs, right, rfl, hr.delimiter _ _ ⟨by decide, by decide⟩ hts.1 hl,
      hsub qs q hts.2.1 hq, hr.delimiter _ _ ⟨by decide, by decide⟩ hts.2.2.1 hright⟩

/-- A query by the first rules is a query by the second ones. -/
theorem Query.transfer (hr : Weaker P r r') {q : QueryData} {last : Last}
    (h : Query r ts q last) (hts : ∀ t ∈ ts, P t) : Query r' ts q last := by
  induction h with
  | @intro sub s f fs ts ws gs os fields items pred groupFields sortFields wl gl ol hsub hs hfs hf
      htables hws hgs hos ih =>
    simp only [List.forall_mem_cons, List.forall_mem_append] at hts
    obtain ⟨-, hPfs, -, hPts, hPws, hPgs, hPos⟩ := hts
    have hsub' : ∀ ts q last, (sub ts q last ∧ ∀ t ∈ ts, P t) → Query r' ts q last :=
      fun ts q last h => ih ts q last h.1 h.2
    refine .intro hsub' hs (hfs.transfer hr (fun _ _ _ h => h) hPfs) hf
      (htables.transfer hr ?_ hPts) (hws.transfer hr hPws) (hgs.transfer hr hPgs)
      (hos.transfer hr hPos)
    intro ts x hPts' hitem
    refine hitem.transfer hr ?_ hPts'
    rintro ts q hP ⟨last, hq⟩
    exact ⟨last, hq, hP⟩

theorem FieldDefinition.transfer (hr : Weaker P r r') {d : Name × FieldInfo}
    (hts : ∀ t ∈ ts, P t) (h : FieldDefinition r ts d) : FieldDefinition r' ts d := by
  rcases h with h | ⟨f, t, left, n, right, len, rfl, hf, ht, hl, hn, hright, hinfo⟩
  · exact Or.inl h
  · simp only [List.forall_mem_cons] at hts
    obtain ⟨-, -, hPl, hPn, hPr, -⟩ := hts
    exact Or.inr ⟨f, t, left, n, right, len, rfl, hf, ht,
      hr.delimiter _ _ ⟨by decide, by decide⟩ hPl hl, hr.integer _ _ hPn hn,
      hr.delimiter _ _ ⟨by decide, by decide⟩ hPr hright, hinfo⟩

/-- The new value of an update is a matter of its own. -/
theorem IsCommand.transfer (hr : Weaker P r r') {cmd : Command} {last : Last}
    (hupdate : firstWord cmd ≠ Word.updateWord) (hts : ∀ t ∈ ts, P t)
    (h : IsCommand r ts cmd last) : IsCommand r' ts cmd last := by
  have hdelim : ∀ t, P t → (r.delimiter Word.leftParen t → r'.delimiter Word.leftParen t) ∧
      (r.delimiter Word.rightParen t → r'.delimiter Word.rightParen t) :=
    fun t ht => ⟨hr.delimiter _ t ⟨by decide, by decide⟩ ht,
      hr.delimiter _ t ⟨by decide, by decide⟩ ht⟩
  cases h with
  | insert hi ho ht hl hfs hright hv hl' hvs hright' =>
    simp only [List.forall_mem_cons, List.forall_mem_append] at hts
    obtain ⟨-, -, -, hPl, hPfs, hPr, -, hPl', hPvs, hPr', -⟩ := hts
    refine .insert hi ho ht ((hdelim _ hPl).1 hl) (hfs.transfer hr (fun _ _ _ h => h) hPfs)
      ((hdelim _ hPr).2 hright) hv ((hdelim _ hPl').1 hl') (hvs.transfer hr ?_ hPvs)
      ((hdelim _ hPr').2 hright')
    rintro _ c hP ⟨t, rfl, hc⟩
    exact ⟨t, rfl, hc.transfer hr (hP t List.mem_cons_self)⟩
  | delete hd hf ht hws =>
    simp only [List.forall_mem_cons] at hts
    exact .delete hd hf ht (hws.transfer hr hts.2.2.2)
  | modify => exact absurd rfl hupdate
  | createTable hc hw ht hl hds hright =>
    simp only [List.forall_mem_cons, List.forall_mem_append] at hts
    obtain ⟨-, -, -, hPl, hPds, hPr, -⟩ := hts
    exact .createTable hc hw ht ((hdelim _ hPl).1 hl)
      (hds.transfer hr (fun _ _ hP h => h.transfer hr hP) hPds) ((hdelim _ hPr).2 hright)
  | createView hc hw hv ha hq =>
    simp only [List.forall_mem_cons] at hts
    exact .createView hc hw hv ha (hq.transfer hr hts.2.2.2.2)
  | createIndex hc hw hi ho ht hl hf hright =>
    simp only [List.forall_mem_cons] at hts
    obtain ⟨-, -, -, -, -, hPl, -, hPr, -⟩ := hts
    exact .createIndex hc hw hi ho ht ((hdelim _ hPl).1 hl) hf ((hdelim _ hPr).2 hright)

/-- The tokens that the rules allow are of a kind. -/
structure Yields (P : Token → Prop) (r : Rules) : Prop where
  word : ∀ t, isWord t = true → P t
  string : ∀ t s, r.string t s → P t
  integer : ∀ t n, r.integer t n → P t
  delimiter : ∀ c t, IsDelimiter c → r.delimiter c t → P t

variable (hr : Yields P r)

include hr

theorem Yields.keyword {w : Token} (h : Keyword w t) : P t := hr.word t h.1

theorem Yields.identifier {name : Name} (h : Identifier t name) : P t := hr.word t h.1

theorem Yields.constant {c : Constant} (h : IsConstant r.toLiterals t c) : P t := by
  rcases h with ⟨h, -⟩ | ⟨h, -⟩ | ⟨s, hs, -⟩ | ⟨n, hn, -⟩
  · exact hr.keyword h
  · exact hr.keyword h
  · exact hr.string t s hs
  · exact hr.integer t n hn

theorem Yields.expression {e : Expression} (h : IsExpression r.toLiterals t e) : P t := by
  rcases h with ⟨name, h, -⟩ | ⟨c, hc, -⟩
  · exact hr.identifier h
  · exact hr.constant hc

theorem Yields.commaList {α : Type} {L : List Token → α → Prop} {xs : List α}
    (hitem : ∀ ts x, L ts x → ∀ t ∈ ts, P t) (h : CommaList r L ts xs) : ∀ t ∈ ts, P t :=
  h.forall_mem hitem (hr.delimiter _ · ⟨by decide, by decide⟩)

theorem Yields.fieldName {name : Name} (h : FieldName ts name) : ∀ t ∈ ts, P t := by
  obtain ⟨t, rfl, ht⟩ := h
  simpa using hr.identifier ht

theorem Yields.whereClause {full : Last} {pred : Predicate} {wl : Option Last}
    (h : WhereClause r full ts pred wl) : ∀ t ∈ ts, P t := by
  cases h with
  | absent => simp
  | present hw hpred =>
    rw [List.forall_mem_cons]
    refine ⟨hr.keyword hw, hpred.forall_mem ?_ (fun _ => hr.keyword)⟩
    rintro _ term ⟨t, eq, t', rfl, ht, heq, ht'⟩
    simp only [List.forall_mem_cons, List.not_mem_nil, false_implies, implies_true, and_true]
    exact ⟨hr.expression ht, hr.delimiter _ _ ⟨by decide, by decide⟩ heq, hr.expression ht'⟩

theorem Yields.fieldsClause {word : Token} {bare full : Last} {fields : List Name}
    {gl : Option Last} (h : FieldsClause r word bare full ts fields gl) : ∀ t ∈ ts, P t := by
  cases h with
  | absent => simp
  | bare _ hw => simpa using hr.keyword hw
  | present hw hb hfields =>
    simp only [List.forall_mem_cons]
    exact ⟨hr.keyword hw, hr.keyword hb, hr.commaList (fun _ _ => hr.fieldName) hfields⟩

theorem Yields.query {q : QueryData} {last : Last} (h : Query r ts q last) : ∀ t ∈ ts, P t := by
  induction h with
  | intro hsub hs hfs hf htables hws hgs hos ih =>
    simp only [List.forall_mem_cons, List.forall_mem_append]
    refine ⟨hr.keyword hs, hr.commaList (fun _ _ => hr.fieldName) hfs, hr.keyword hf, ?_,
      hr.whereClause hws, hr.fieldsClause hgs, hr.fieldsClause hos⟩
    refine hr.commaList ?_ htables
    intro ts x hitem
    cases x with
    | inr name => exact hr.fieldName hitem
    | inl q =>
      obtain ⟨left, qs, right, rfl, hl, ⟨last, hq⟩, hright⟩ := hitem
      simp only [List.forall_mem_cons, List.forall_mem_append, List.not_mem_nil, false_implies,
        implies_true, and_true]
      exact ⟨hr.delimiter _ _ ⟨by decide, by decide⟩ hl, ih qs q last hq,
        hr.delimiter _ _ ⟨by decide, by decide⟩ hright⟩

theorem Yields.fieldDefinition {d : Name × FieldInfo} (h : FieldDefinition r ts d) :
    ∀ t ∈ ts, P t := by
  rcases h with ⟨f, t, rfl, hf, ⟨ht, -⟩ | ⟨ht, -⟩⟩ |
    ⟨f, t, left, n, right, len, rfl, hf, ht, hl, hn, hright, -⟩
  · simpa using ⟨hr.identifier hf, hr.keyword ht⟩
  · simpa using ⟨hr.identifier hf, hr.keyword ht⟩
  · simpa using ⟨hr.identifier hf, hr.keyword ht, hr.delimiter _ _ ⟨by decide, by decide⟩ hl,
      hr.integer _ _ hn, hr.delimiter _ _ ⟨by decide, by decide⟩ hright⟩

theorem Yields.command {cmd : Command} {last : Last} (hupdate : firstWord cmd ≠ Word.updateWord)
    (h : IsCommand r ts cmd last) : ∀ t ∈ ts, P t := by
  have hdelim : ∀ t, (r.delimiter Word.leftParen t → P t) ∧ (r.delimiter Word.rightParen t → P t) :=
    fun t => ⟨hr.delimiter _ t ⟨by decide, by decide⟩, hr.delimiter _ t ⟨by decide, by decide⟩⟩
  cases h with
  | insert hi ho ht hl hfs hright hv hl' hvs hright' =>
    have hconstants := hr.commaList (fun ts c h t ht => by
      obtain ⟨t', rfl, hc⟩ := h
      rw [List.mem_singleton] at ht
      exact ht ▸ hr.constant hc) hvs
    simp only [List.forall_mem_cons, List.forall_mem_append, List.not_mem_nil, false_implies,
      implies_true, and_true]
    exact ⟨hr.keyword hi, hr.keyword ho, hr.identifier ht, (hdelim _).1 hl,
      hr.commaList (fun _ _ => hr.fieldName) hfs, (hdelim _).2 hright, hr.keyword hv,
      (hdelim _).1 hl', hconstants, (hdelim _).2 hright'⟩
  | delete hd hf ht hws =>
    simp only [List.forall_mem_cons]
    exact ⟨hr.keyword hd, hr.keyword hf, hr.identifier ht, hr.whereClause hws⟩
  | modify => exact absurd rfl hupdate
  | createTable hc hw ht hl hds hright =>
    simp only [List.forall_mem_cons, List.forall_mem_append, List.not_mem_nil, false_implies,
      implies_true, and_true]
    exact ⟨hr.keyword hc, hr.keyword hw, hr.identifier ht, (hdelim _).1 hl,
      hr.commaList (fun _ _ => hr.fieldDefinition) hds, (hdelim _).2 hright⟩
  | createView hc hw hv ha hq =>
    simp only [List.forall_mem_cons]
    exact ⟨hr.keyword hc, hr.keyword hw, hr.identifier hv, hr.keyword ha, hr.query hq⟩
  | createIndex hc hw hi ho ht hl hf hright =>
    simp only [List.forall_mem_cons, List.not_mem_nil, false_implies, implies_true, and_true]
    exact ⟨hr.keyword hc, hr.keyword hw, hr.identifier hi, hr.keyword ho, hr.identifier ht,
      (hdelim _).1 hl, hr.identifier hf, (hdelim _).2 hright⟩

end Transfer

end SampleDB.Grammar
