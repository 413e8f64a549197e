import SampleDB.CommandAcceptance

/-!
Where the parser and the grammar of the documentation agree. The parser takes more than
the grammar does: tokens behind a command are left unread, a delimiter may be glued to
other text, a string may lack its last quote, a number may be too large, GROUP and ORDER
may stand without BY, and an update has no new value.
-/
namespace SampleDB.Conformance

open Parsing Lexer Schemas Statements Grammar SqlParser Acceptance

variable (overflow : ℕ → Option Int32)

/-- A word, an `int`, a string with both quotes and none inside, or a delimiter alone. -/
def Plain (t : Token) : Prop :=
  isWord t = true ∨ (t ≠ [] ∧ isNumber t = true ∧ numeral t < 2147483648) ∨
    (∃ s, Word.quote ∉ s ∧ t = Word.quote :: (s ++ [Word.quote])) ∨
    ∃ c, IsDelimiter c ∧ t = [c]

/-- The rules of the parser, but with BY behind GROUP and ORDER. -/
def withBy : Rules := { parsed overflow with bareWords := False }

/-- The tokens begin with what the parser takes for a query, and behind it is a token that
does not go on with it, or a token of it is not plain, or BY is missing in it. -/
def QuerySlips (toks : List Token) : Prop :=
  ∃ ts rest q last, toks = ts ++ rest ∧ Query (parsed overflow) ts q last ∧
    Stops (Continues (parsed overflow) last) rest ∧
    (rest ≠ [] ∨ (∃ t ∈ ts, ¬ Plain t) ∨ ¬ ∃ last', Query (withBy overflow) ts q last')

/-- The same of the other commands; an update is always one of these. -/
def CommandSlips (toks : List Token) : Prop :=
  ∃ ts rest cmd last, toks = ts ++ rest ∧ IsCommand (parsed overflow) ts cmd last ∧
    Stops (Continues (parsed overflow) last) rest ∧
    (rest ≠ [] ∨ firstWord cmd = Word.updateWord ∨ (∃ t ∈ ts, ¬ Plain t) ∨
      ¬ ∃ last', IsCommand (withBy overflow) ts cmd last')

section Rules

theorem documented_yields : Yields Plain documented where
  word _ h := Or.inl h
  string _ _ h := by
    obtain ⟨s', hs', rfl, -⟩ := h
    exact Or.inr (Or.inr (Or.inl ⟨s', hs', rfl⟩))
  integer _ _ h := Or.inr (Or.inl ⟨h.1, h.2.1, h.2.2.1⟩)
  delimiter c _ hc h := Or.inr (Or.inr (Or.inr ⟨c, hc, h⟩))

/-- Both quotes are taken off. -/
theorem unquote_quoted (s : Text) :
    unquote (toLower (Word.quote :: (s ++ [Word.quote]))) = toLower s := by
  have hlower : toLower (Word.quote :: (s ++ [Word.quote])) =
      Word.quote :: (toLower s ++ [Word.quote]) := by
    unfold toLower
    rw [List.map_cons, List.map_append]
    rfl
  have hlast : (Word.quote :: (toLower s ++ [Word.quote])).getLast? = some Word.quote := by
    rw [← List.cons_append, List.getLast?_concat]
  rw [hlower]
  unfold unquote
  rw [if_pos ⟨by simp, rfl, hlast⟩, List.tail_cons, List.dropLast_concat]

theorem documented_weaker : Weaker (fun _ => True) documented (withBy overflow) where
  string t s _ h := by
    obtain ⟨s', -, rfl, rfl⟩ := h
    exact ⟨rfl, (unquote_quoted s').symm⟩
  integer t n _ h := by
    refine ⟨h.2.1, ?_⟩
    rw [if_pos h.2.2.1, h.2.2.2]
  delimiter c t _ _ h := by
    show t.head? = some c
    rw [show t = [c] from h]
    rfl
  bareWords h := h

theorem withBy_weaker_parsed : Weaker (fun _ => True) (withBy overflow) (parsed overflow) where
  string _ _ _ h := h
  integer _ _ _ h := h
  delimiter _ _ _ _ h := h
  bareWords h := h.elim

/-- On plain tokens the rules of the parser are those of the documentation. -/
theorem withBy_weaker_documented : Weaker Plain (withBy overflow) documented where
  string t s ht h := by
    obtain ⟨hquote, rfl⟩ := h
    rcases ht with hword | ⟨-, hnumber, -⟩ | ⟨s', hs', rfl⟩ | ⟨c, hc, rfl⟩
    · rw [not_word_of_quote hquote] at hword
      cases hword
    · rw [(not_alphanum_of_head hquote (by decide)).1] at hnumber
      cases hnumber
    · exact ⟨s', hs', rfl, unquote_quoted s'⟩
    · exact absurd (Option.some.inj hquote) hc.2
  integer t n ht h := by
    obtain ⟨hnumber, hvalue⟩ := h
    rcases ht with hword | ⟨hne, -, hlt⟩ | ⟨s', -, rfl⟩ | ⟨c, hc, rfl⟩
    · rw [not_word_of_number hnumber] at hword
      cases hword
    · rw [if_pos hlt] at hvalue
      exact ⟨hne, hnumber, hlt, (Option.some.inj hvalue).symm⟩
    · have hquote : (Word.quote :: (s' ++ [Word.quote])).head? = some Word.quote := rfl
      rw [(not_alphanum_of_head hquote (by decide)).1] at hnumber
      cases hnumber
    · have hhead : [c].head? = some c := rfl
      rw [(not_alphanum_of_head hhead hc.1).1] at hnumber
      cases hnumber
  delimiter c t hc ht h := by
    rcases ht with hword | ⟨-, hnumber, -⟩ | ⟨s', -, rfl⟩ | ⟨d, -, rfl⟩
    · rw [(not_alphanum_of_head h hc.1).2] at hword
      cases hword
    · rw [(not_alphanum_of_head h hc.1).1] at hnumber
      cases hnumber
    · exact absurd (Option.some.inj h).symm hc.2
    · rw [Option.some.inj h]
      rfl
  bareWords h := h

theorem query_documented_iff {ts : List Token} {q : QueryData} {last : Last} :
    Query documented ts q last ↔ Query (withBy overflow) ts q last ∧ ∀ t ∈ ts, Plain t := by
  constructor
  · intro h
    exact ⟨h.transfer (documented_weaker overflow) (fun _ _ => trivial), documented_yields.query h⟩
  · rintro ⟨h, hplain⟩
    exact h.transfer (withBy_weaker_documented overflow) hplain

theorem command_documented_iff {ts : List Token} {cmd : Command} {last : Last}
    (hupdate : firstWord cmd ≠ Word.updateWord) : IsCommand documented ts cmd last ↔
      IsCommand (withBy overflow) ts cmd last ∧ ∀ t ∈ ts, Plain t := by
  constructor
  · intro h
    exact ⟨h.transfer (documented_weaker overflow) hupdate (fun _ _ => trivial),
      documented_yields.command hupdate h⟩
  · rintro ⟨h, hplain⟩
    exact h.transfer (withBy_weaker_documented overflow) hupdate hplain

end Rules

/-- The parser accepts the derivations of the grammar, whole, and returns what they denote. -/
def QueryConforms (text : Text) : Prop :=
  ∀ q, parse (query overflow) text = .ok q ↔ ∃ last, Query documented (tokens text) q last

def CommandConforms (text : Text) : Prop :=
  ∀ cmd, parse (updateCmd overflow) text = .ok cmd ↔
    ∃ last, IsCommand documented (tokens text) cmd last

theorem stops_nil {P : Token → Prop} : Stops P [] := by
  intro t h
  cases h

/-- Which queries the parser reads as the documentation has them. -/
theorem queryConforms_iff (text : Text) :
    QueryConforms overflow text ↔ ¬ QuerySlips overflow (tokens text) := by
  have hparsed : ∀ {ts q last}, Query documented ts q last → Query (parsed overflow) ts q last :=
    fun h => ((query_documented_iff overflow).mp h).1.transfer (withBy_weaker_parsed overflow)
      (fun _ _ => trivial)
  have hwhole : ∀ {q last}, Query documented (tokens text) q last →
      query overflow (tokens text) = .ok (q, []) :=
    fun {q last} h => (query_eq_ok overflow).mpr
      ⟨tokens text, last, (List.append_nil _).symm, hparsed h, stops_nil⟩
  constructor
  · rintro hconf ⟨ts, rest, q, last, htoks, hq, hstop, hslip⟩
    have hok : query overflow (tokens text) = .ok (q, rest) :=
      (query_eq_ok overflow).mpr ⟨ts, last, htoks, hq, hstop⟩
    obtain ⟨last', hdoc⟩ := (hconf q).mp (parse_eq_ok.mpr ⟨rest, hok⟩)
    have hrest : rest = [] := by
      have heq := hok.symm.trans (hwhole hdoc)
      cases heq
      rfl
    rw [htoks, hrest, List.append_nil] at hdoc
    obtain ⟨hby, hplain⟩ := (query_documented_iff overflow).mp hdoc
    rcases hslip with hne | ⟨t, ht, hnot⟩ | hnot
    · exact hne hrest
    · exact hnot (hplain t ht)
    · exact hnot ⟨last', hby⟩
  · intro hno q
    constructor
    · intro h
      obtain ⟨rest, hok⟩ := parse_eq_ok.mp h
      obtain ⟨ts, last, htoks, hq, hstop⟩ := (query_eq_ok overflow).mp hok
      by_contra hdoc
      refine hno ⟨ts, rest, q, last, htoks, hq, hstop, ?_⟩
      by_contra hgood
      rw [not_or, not_or, not_not, not_not] at hgood
      obtain ⟨rfl, hplain, last', hby⟩ := hgood
      rw [List.append_nil] at htoks
      refine hdoc ⟨last', ?_⟩
      rw [htoks]
      refine (query_documented_iff overflow).mpr ⟨hby, fun t ht => ?_⟩
      by_contra hnot
      exact hplain ⟨t, ht, hnot⟩
    · rintro ⟨last, hdoc⟩
      exact parse_eq_ok.mpr ⟨[], hwhole hdoc⟩

theorem newValue_ne_null {t : Token} {e : Expression}
    (h : IsExpression documentedLiterals t e) : e ≠ .null := by
  rcases h with ⟨name, ⟨hword, hlower, -⟩, rfl⟩ | ⟨c, hc, rfl⟩
  · intro hnull
    have hname : name = [] := congrArg Expression.fieldName hnull
    rw [hname] at hlower
    have hnil : t = [] := List.map_eq_nil_iff.mp hlower
    rw [hnil] at hword
    exact absurd hword (by decide)
  · intro hnull
    have hc' : c = .null := congrArg Expression.value hnull
    rcases hc with ⟨-, rfl⟩ | ⟨-, rfl⟩ | ⟨s, -, rfl⟩ | ⟨n, -, rfl⟩ <;> cases hc'

theorem newValue_documented {toks : List Token} {data : ModifyData} {last : Last}
    (h : IsCommand documented toks (.modify data) last) : data.newValue ≠ .null := by
  cases h with
  | modify _ _ _ _ _ hvalue _ =>
    obtain ⟨v, rfl, hv⟩ := hvalue
    exact newValue_ne_null hv

theorem not_where_of_expression {t : Token} {e : Expression}
    (h : IsExpression documentedLiterals t e) : ¬ Keyword Word.whereWord t := by
  rintro hw
  rcases h with ⟨name, ⟨-, hlower, hname⟩, -⟩ | ⟨c, hc, -⟩
  · rw [← hlower, hw.2] at hname
    exact hname (by decide)
  · rcases hc with ⟨h, -⟩ | ⟨h, -⟩ | ⟨s, ⟨s', -, rfl, -⟩, -⟩ | ⟨n, h, -⟩
    · exact absurd (keyword_unique h hw) (by decide)
    · exact absurd (keyword_unique h hw) (by decide)
    · have hquote : (Word.quote :: (s' ++ [Word.quote])).head? = some Word.quote := rfl
      exact not_keyword_of_not_word (not_word_of_quote hquote) hw
    · exact not_keyword_of_not_word (not_word_of_number h.2.1) hw

/-- The parser stops in front of the new value of an update. -/
theorem update_slips {toks : List Token} {cmd : Command} {last : Last}
    (h : IsCommand documented toks cmd last) (hupdate : firstWord cmd = Word.updateWord) :
    CommandSlips overflow toks := by
  have hdelim := (documented_weaker overflow).delimiter
  cases h with
  | @modify u t s f eq vs ws tableName fieldName newValue pred wl hu ht hs hf heq hvalue hws =>
    obtain ⟨v, rfl, hv⟩ := hvalue
    have heq' : (parsed overflow).delimiter Word.equalSign eq :=
      hdelim _ eq ⟨by decide, by decide⟩ trivial heq
    refine ⟨[u, t, s, f, eq], v :: ws, _, _, rfl,
      .modify hu ht hs hf heq' ⟨rfl, rfl⟩ .absent, ?_, Or.inl (List.cons_ne_nil v ws)⟩
    rw [stops_cons]
    rintro (hown | ⟨word, hword, hkey⟩)
    · exact hown
    · rw [List.mem_singleton.mp hword] at hkey
      exact not_where_of_expression hv hkey
  | insert => exact absurd hupdate (show Word.insertWord ≠ Word.updateWord by decide)
  | delete => exact absurd hupdate (show Word.deleteWord ≠ Word.updateWord by decide)
  | _ => exact absurd hupdate (show Word.createWord ≠ Word.updateWord by decide)

/-- Which commands the parser reads as the documentation has them. -/
theorem commandConforms_iff (text : Text) :
    CommandConforms overflow text ↔ ¬ CommandSlips overflow (tokens text) := by
  have hwhole : ∀ {cmd last}, firstWord cmd ≠ Word.updateWord →
      IsCommand documented (tokens text) cmd last →
      updateCmd overflow (tokens text) = .ok (cmd, []) := by
    intro cmd last hupdate h
    have hparsed := ((command_documented_iff overflow hupdate).mp h).1.transfer
      (withBy_weaker_parsed overflow) hupdate (fun _ _ => trivial)
    exact (updateCmd_eq_ok overflow).mpr
      ⟨tokens text, last, (List.append_nil _).symm, hparsed, stops_nil⟩
  constructor
  · rintro hconf ⟨ts, rest, cmd, last, htoks, hcmd, hstop, hslip⟩
    have hok : updateCmd overflow (tokens text) = .ok (cmd, rest) :=
      (updateCmd_eq_ok overflow).mpr ⟨ts, last, htoks, hcmd, hstop⟩
    obtain ⟨last', hdoc⟩ := (hconf cmd).mp (parse_eq_ok.mpr ⟨rest, hok⟩)
    have hupdate : firstWord cmd ≠ Word.updateWord := by
      intro hupdate
      cases hcmd with
      | modify hu ht hs hf heq hvalue hws =>
        exact newValue_documented hdoc hvalue.2
      | insert => exact absurd hupdate (show Word.insertWord ≠ Word.updateWord by decide)
      | delete => exact absurd hupdate (show Word.deleteWord ≠ Word.updateWord by decide)
      | _ => exact absurd hupdate (show Word.createWord ≠ Word.updateWord by decide)
    have hrest : rest = [] := by
      have heq := hok.symm.trans (hwhole hupdate hdoc)
      cases heq
      rfl
    rw [htoks, hrest, List.append_nil] at hdoc
    obtain ⟨hby, hplain⟩ := (command_documented_iff overflow hupdate).mp hdoc
    rcases hslip with hne | hup | ⟨t, ht, hnot⟩ | hnot
    · exact hne hrest
    · exact hupdate hup
    · exact hnot (hplain t ht)
    · exact hnot ⟨last', hby⟩
  · intro hno cmd
    constructor
    · intro h
      obtain ⟨rest, hok⟩ := parse_eq_ok.mp h
      obtain ⟨ts, last, htoks, hcmd, hstop⟩ := (updateCmd_eq_ok overflow).mp hok
      by_contra hdoc
      refine hno ⟨ts, rest, cmd, last, htoks, hcmd, hstop, ?_⟩
      by_contra hgood
      rw [not_or, not_or, not_or, not_not, not_not] at hgood
      obtain ⟨rfl, hupdate, hplain, last', hby⟩ := hgood
      rw [List.append_nil] at htoks
      refine hdoc ⟨last', ?_⟩
      rw [htoks]
      refine (command_documented_iff overflow hupdate).mpr ⟨hby, fun t ht => ?_⟩
      by_contra hnot
      exact hplain ⟨t, ht, hnot⟩
    · rintro ⟨last, hdoc⟩
      by_cases hupdate : firstWord cmd = Word.updateWord
      · exact absurd (update_slips overflow hdoc hupdate) hno
      · exact parse_eq_ok.mpr ⟨[], hwhole hupdate hdoc⟩

/-- What the claim of the two entry points comes to, on one text. -/
theorem conforms_iff (text : Text) : QueryConforms overflow text ∧ CommandConforms overflow text ↔
    ¬ QuerySlips overflow (tokens text) ∧ ¬ CommandSlips overflow (tokens text) :=
  and_congr (queryConforms_iff overflow text) (commandConforms_iff overflow text)

/-- A misspelt WHERE is not read, and every record is deleted. -/
theorem not_conforms_misspelt : ¬ ∀ text : Text,
    QueryConforms (fun _ => none) text ∧ CommandConforms (fun _ => none) text := by
  intro h
  have hconf := (h "delete from t whre a = 1".toList).2
  have hkeyword : ∀ {word t : Token}, isWord t = true → toLower t = word → Keyword word t :=
    fun hw hl => ⟨hw, hl⟩
  refine (commandConforms_iff (fun _ => none) _).mp hconf
    ⟨["delete".toList, "from".toList, "t".toList],
      ["whre".toList, "a".toList, "=".toList, "1".toList], .delete ⟨"t".toList, []⟩,
      .unfiltered, by decide, ?_, ?_, Or.inl (by decide)⟩
  · exact .delete (hkeyword (by decide) (by decide)) (hkeyword (by decide) (by decide))
      ⟨by decide, by decide, by decide⟩ .absent
  · rw [stops_cons]
    rintro (hown | ⟨word, hword, hkey⟩)
    · exact hown
    · rw [List.mem_singleton.mp hword] at hkey
      exact absurd hkey.2 (by decide)

end SampleDB.Conformance
