import SampleDB.Grammar
import SampleDB.SqlParser

/-!
What the parser accepts. It follows the grammar with rules of its own: a delimiter is
known by its first character, a string by its first quote, and GROUP and ORDER may stand
without BY. It stops in front of the first token that does not go on with the command.
-/
namespace SampleDB.Acceptance

open Parsing Lexer Schemas Statements Grammar SqlParser

variable (overflow : ℕ → Option Int32)

def parsedLiterals : Literals where
  string t s := t.head? = some Word.quote ∧ s = unquote (toLower t)
  integer t n := isNumber t = true ∧
    (if numeral t < 2147483648 then some (Int32.ofNat (numeral t)) else overflow (numeral t))
      = some n

/-- The rules that the parser follows. -/
def parsed : Rules where
  toLiterals := parsedLiterals overflow
  delimiter c t := t.head? = some c
  newValue ts e := ts = [] ∧ e = .null
  bareWords := True

section Characters

variable {c d : Char} {t : Token} {toks : List Token}

theorem toLower_cases (c : Char) :
    c.toLower = c ∧ c.isUpper = false ∨ c.isUpper = true ∧ c.toLower.isLower = true := by
  unfold Char.toLower Char.isUpper Char.isLower
  split
  · rename_i h
    refine Or.inr ⟨by simpa using h, ?_⟩
    obtain ⟨hge, hle⟩ := h
    simp only [ge_iff_le, UInt32.le_iff_toNat_le, Char.reduceVal, UInt32.reduceToNat] at hge hle
    simp only [ge_iff_le, UInt32.le_iff_toNat_le, Char.reduceVal, UInt32.reduceToNat,
      UInt32.toNat_add, UInt32.reduceSub, Nat.reducePow, Bool.and_eq_true, decide_eq_true_eq]
    omega
  · rename_i h
    refine Or.inl ⟨rfl, ?_⟩
    simpa using h

/-- A character that is no letter is the lower case of itself only. -/
theorem toLower_eq_iff (hd : d.isAlphanum = false) : c.toLower = d ↔ c = d := by
  unfold Char.isAlphanum Char.isAlpha at hd
  rw [Bool.or_eq_false_iff, Bool.or_eq_false_iff] at hd
  constructor
  · intro h
    rcases toLower_cases c with ⟨hsame, -⟩ | ⟨-, hlower⟩
    · rw [← h, hsame]
    · rw [h, hd.1.2] at hlower
      cases hlower
  · rintro rfl
    rcases toLower_cases c with ⟨hsame, -⟩ | ⟨hupper, -⟩
    · exact hsame
    · rw [hd.1.1] at hupper
      cases hupper

theorem toLower_ne_of_isUpper (hd : d.isUpper = true) : c.toLower ≠ d := by
  rintro rfl
  rcases toLower_cases c with ⟨hsame, hupper⟩ | ⟨-, hlower⟩
  · rw [hsame, hupper] at hd
    cases hd
  · unfold Char.isUpper at hd
    unfold Char.isLower at hlower
    simp only [ge_iff_le, UInt32.le_iff_toNat_le, Bool.and_eq_true, decide_eq_true_eq] at hd hlower
    have hZ : 'Z'.val.toNat = 90 := rfl
    have ha : 'a'.val.toNat = 97 := rfl
    omega

theorem toLower_of_isDigit (hc : c.isDigit = true) : c.toLower = c := by
  rcases toLower_cases c with ⟨hsame, -⟩ | ⟨hupper, -⟩
  · exact hsame
  · unfold Char.isDigit at hc
    unfold Char.isUpper at hupper
    simp only [ge_iff_le, UInt32.le_iff_toNat_le, Bool.and_eq_true, decide_eq_true_eq] at hc hupper
    have hA : 'A'.val.toNat = 65 := rfl
    have h9 : '9'.val.toNat = 57 := rfl
    omega

theorem toLower_number (h : isNumber t = true) : toLower t = t := by
  unfold isNumber at h
  unfold toLower
  rw [List.all_eq_true] at h
  exact List.map_congr_left (fun c hc => toLower_of_isDigit (h c hc)) |>.trans (List.map_id t)

/-- A token that begins with another character is neither a number nor a word. -/
theorem not_alphanum_of_head (h : t.head? = some d) (hd : d.isAlphanum = false) :
    isNumber t = false ∧ isWord t = false := by
  have hmem : d ∈ t := List.mem_of_mem_head? h
  have hdigit : d.isDigit = false := by
    unfold Char.isAlphanum at hd
    exact (Bool.or_eq_false_iff.mp hd).2
  have hnumber : isNumber t = false := by
    unfold isNumber
    rw [List.all_eq_false]
    exact ⟨d, hmem, by rw [hdigit]; decide⟩
  have hall : t.all Char.isAlphanum = false := by
    rw [List.all_eq_false]
    exact ⟨d, hmem, by rw [hd]; decide⟩
  refine ⟨hnumber, ?_⟩
  unfold isWord
  rw [hall, Bool.and_false]

/-- The type of a token, by its four kinds. -/
theorem ttype_cases (t : Token) (toks : List Token) :
    (isNumber t = true ∧ isWord t = false ∧ ttype (t :: toks) = "NUMBER".toList) ∨
      (isNumber t = false ∧ isWord t = true ∧ ttype (t :: toks) = "WORD".toList) ∨
      (isNumber t = false ∧ isWord t = false ∧ t.head? = some Word.quote ∧
        ttype (t :: toks) = [Word.quote]) ∨
      (isNumber t = false ∧ isWord t = false ∧ t.head? ≠ some Word.quote ∧
        ttype (t :: toks) = toLower t) := by
  have hdef : ttype (t :: toks) = if isNumber t then "NUMBER".toList
      else if isWord t then "WORD".toList
      else if t.head? = some Word.quote then [Word.quote] else toLower t := rfl
  rw [hdef]
  by_cases hnumber : isNumber t = true
  · refine Or.inl ⟨hnumber, ?_, if_pos hnumber⟩
    unfold isWord
    rw [hnumber]
    rfl
  · rw [if_neg hnumber]
    have hnumber := Bool.eq_false_iff.mpr hnumber
    by_cases hword : isWord t = true
    · exact Or.inr (Or.inl ⟨hnumber, hword, if_pos hword⟩)
    · rw [if_neg hword]
      have hword := Bool.eq_false_iff.mpr hword
      by_cases hquote : t.head? = some Word.quote
      · exact Or.inr (Or.inr (Or.inl ⟨hnumber, hword, hquote, if_pos hquote⟩))
      · exact Or.inr (Or.inr (Or.inr ⟨hnumber, hword, hquote, if_neg hquote⟩))

theorem head_toLower (t : Token) : (toLower t).head? = t.head?.map Char.toLower :=
  List.head?_map

theorem ttype_eq_word : ttype (t :: toks) = "WORD".toList ↔ isWord t = true := by
  rcases ttype_cases t toks with ⟨-, hword, h⟩ | ⟨-, hword, h⟩ | ⟨-, hword, -, h⟩ | ⟨-, hword, -, h⟩
  · rw [h, hword]
    decide
  · rw [h, hword]
    decide
  · rw [h, hword]
    decide
  · rw [h, hword]
    refine ⟨fun heq => ?_, fun h => absurd h (by decide)⟩
    have hhead := head_toLower t
    rw [heq] at hhead
    obtain ⟨c, -, hc⟩ := Option.map_eq_some_iff.mp hhead.symm
    exact absurd hc (toLower_ne_of_isUpper (by decide))

theorem ttype_eq_number : ttype (t :: toks) = "NUMBER".toList ↔ isNumber t = true := by
  rcases ttype_cases t toks with ⟨hnum, -, h⟩ | ⟨hnum, -, h⟩ | ⟨hnum, -, -, h⟩ | ⟨hnum, -, -, h⟩
  · rw [h, hnum]
    decide
  · rw [h, hnum]
    decide
  · rw [h, hnum]
    decide
  · rw [h, hnum]
    refine ⟨fun heq => ?_, fun h => absurd h (by decide)⟩
    have hhead := head_toLower t
    rw [heq] at hhead
    obtain ⟨c, -, hc⟩ := Option.map_eq_some_iff.mp hhead.symm
    exact absurd hc (toLower_ne_of_isUpper (by decide))

/-- Only the first character of a token is compared. -/
theorem head_ttype (hd : d.isAlphanum = false) :
    (ttype (t :: toks)).head? = some d ↔ t.head? = some d := by
  rcases ttype_cases t toks with ⟨hnum, -, h⟩ | ⟨-, hword, h⟩ | ⟨-, -, hquote, h⟩ | ⟨-, -, -, h⟩
  · rw [h]
    constructor
    · intro heq
      cases heq
      exact absurd hd (by decide)
    · intro heq
      rw [(not_alphanum_of_head heq hd).1] at hnum
      cases hnum
  · rw [h]
    constructor
    · intro heq
      cases heq
      exact absurd hd (by decide)
    · intro heq
      rw [(not_alphanum_of_head heq hd).2] at hword
      cases hword
  · rw [h, hquote]
    rfl
  · rw [h, head_toLower, Option.map_eq_some_iff]
    constructor
    · rintro ⟨c, hc, heq⟩
      rw [hc, (toLower_eq_iff hd).mp heq]
    · intro heq
      exact ⟨d, heq, (toLower_eq_iff hd).mpr rfl⟩

theorem head_ttype_nil (hd : d.isAlphanum = false) : (ttype []).head? ≠ some d := by
  intro h
  cases h
  exact absurd hd (by decide)

end Characters

section Lexer

variable {t : Token} {toks rest : List Token}

theorem matchKeyword_iff {word : Token} :
    matchKeyword word toks = true ↔ ∃ t rest, toks = t :: rest ∧ Keyword word t := by
  unfold matchKeyword Keyword
  cases toks with
  | nil => simp [ttype]
  | cons t rest =>
    rw [Bool.and_eq_true, decide_eq_true_eq, ttype_eq_word, decide_eq_true_eq]
    simp [sval]

theorem matchIdentifier_iff :
    matchIdentifier toks = true ↔ ∃ t rest name, toks = t :: rest ∧ Identifier t name := by
  unfold matchIdentifier Identifier
  cases toks with
  | nil => simp [ttype]
  | cons t rest =>
    rw [Bool.and_eq_true, decide_eq_true_eq, ttype_eq_word]
    simp [sval]

theorem matchDelimiter_iff {delim : Char} (hd : delim.isAlphanum = false) :
    matchDelimiter delim toks = true ↔
      ∃ t rest, toks = t :: rest ∧ (parsed overflow).delimiter delim t := by
  unfold matchDelimiter parsed
  rw [decide_eq_true_eq]
  cases toks with
  | nil => simp [head_ttype_nil hd]
  | cons t rest =>
    rw [head_ttype hd]
    simp

theorem eatKeyword_iff {word : Token} {u : Unit} :
    eatKeyword word toks = .ok (u, rest) ↔ ∃ t, toks = t :: rest ∧ Keyword word t := by
  unfold eatKeyword
  by_cases h : matchKeyword word toks = true
  · obtain ⟨t, rest', rfl, hw⟩ := (matchKeyword_iff).mp h
    simp [h, hw]
  · rw [if_neg h]
    rw [matchKeyword_iff] at h
    simp only [reduceCtorEq, false_iff]
    rintro ⟨t, rfl, hw⟩
    exact h ⟨t, rest, rfl, hw⟩

theorem eatDelimiter_iff {delim : Char} (hd : delim.isAlphanum = false) {u : Unit} :
    eatDelimiter delim toks = .ok (u, rest) ↔
      ∃ t, toks = t :: rest ∧ (parsed overflow).delimiter delim t := by
  unfold eatDelimiter
  by_cases h : matchDelimiter delim toks = true
  · obtain ⟨t, rest', rfl, hw⟩ := (matchDelimiter_iff overflow hd).mp h
    simp [h, hw]
  · rw [if_neg h]
    rw [matchDelimiter_iff overflow hd] at h
    simp only [reduceCtorEq, false_iff]
    rintro ⟨t, rfl, hw⟩
    exact h ⟨t, rest, rfl, hw⟩

theorem eatIdentifier_iff {name : Name} :
    eatIdentifier toks = .ok (name, rest) ↔ ∃ t, toks = t :: rest ∧ Identifier t name := by
  unfold eatIdentifier
  by_cases h : matchIdentifier toks = true
  · obtain ⟨t, rest', name', rfl, hword, hlower, hname⟩ := (matchIdentifier_iff).mp h
    rw [if_pos h]
    constructor
    · intro hok
      cases hok
      subst hlower
      exact ⟨t, rfl, hword, rfl, hname⟩
    · rintro ⟨t', heq, -, hlower', -⟩
      cases heq
      rw [← hlower']
      rfl
  · rw [if_neg h]
    rw [matchIdentifier_iff] at h
    simp only [reduceCtorEq, false_iff]
    rintro ⟨t, rfl, hw⟩
    exact h ⟨t, rest, name, rfl, hw⟩

theorem matchString_cons : matchString (t :: toks) = true ↔ t.head? = some Word.quote := by
  unfold matchString
  rw [decide_eq_true_eq, head_ttype (by decide)]

theorem eatString_iff {s : Text} :
    eatString toks = .ok (s, rest) ↔ ∃ t, toks = t :: rest ∧
      (parsedLiterals overflow).string t s := by
  unfold eatString parsedLiterals
  cases toks with
  | nil => simp [matchString, ttype, Word.quote]
  | cons t toks =>
    by_cases h : matchString (t :: toks) = true
    · rw [if_pos h]
      have hquote := (matchString_cons).mp h
      constructor
      · intro hok
        cases hok
        exact ⟨t, rfl, hquote, rfl⟩
      · rintro ⟨t', heq, -, rfl⟩
        cases heq
        rfl
    · rw [if_neg h]
      rw [matchString_cons] at h
      simp only [reduceCtorEq, false_iff]
      rintro ⟨t', heq, hquote, -⟩
      cases heq
      exact h hquote

theorem eatInteger_iff {n : Int32} :
    eatInteger overflow toks = .ok (n, rest) ↔
      ∃ t, toks = t :: rest ∧ (parsedLiterals overflow).integer t n := by
  unfold eatInteger parsedLiterals matchInteger
  cases toks with
  | nil => simp [ttype]
  | cons t toks =>
    simp only [decide_eq_true_eq, ttype_eq_number]
    by_cases h : isNumber t = true
    · rw [if_pos h]
      have hval : numeral (sval (t :: toks)) = numeral t := congrArg numeral (toLower_number h)
      rw [hval]
      cases hn : if numeral t < 2147483648 then some (Int32.ofNat (numeral t))
        else overflow (numeral t) with
      | none =>
        simp only [reduceCtorEq, List.cons.injEq, false_iff]
        rintro ⟨t', ⟨rfl, -⟩, -, hsome⟩
        rw [hn] at hsome
        cases hsome
      | some x =>
        constructor
        · intro hok
          cases hok
          exact ⟨t, rfl, h, hn⟩
        · rintro ⟨t', heq, -, hsome⟩
          cases heq
          rw [hn] at hsome
          cases hsome
          rfl
    · rw [if_neg h]
      simp only [reduceCtorEq, List.cons.injEq, false_iff]
      rintro ⟨t', ⟨rfl, -⟩, hnumber, -⟩
      exact h hnumber

end Lexer

section Items

variable {t : Token} {toks rest : List Token} {n : ℕ}

theorem fieldName_reads : Reads n fieldName FieldName := by
  intro toks name rest _
  unfold fieldName FieldName
  rw [eatIdentifier_iff]
  constructor
  · rintro ⟨t, rfl, ht⟩
    exact ⟨[t], rfl, t, rfl, ht⟩
  · rintro ⟨ts, rfl, t, rfl, ht⟩
    exact ⟨t, rfl, ht⟩

theorem comma_separator : Separator (matchDelimiter Word.comma) (eatDelimiter Word.comma)
    ((parsed overflow).delimiter Word.comma) where
  more_iff _ := matchDelimiter_iff overflow (by decide)
  eat_iff _ _ _ := eatDelimiter_iff overflow (by decide)

theorem and_separator : Separator (matchKeyword Word.andWord) (eatKeyword Word.andWord)
    (Keyword Word.andWord) where
  more_iff _ := matchKeyword_iff
  eat_iff _ _ _ := eatKeyword_iff

theorem commaList_eq_ok {α : Type} {item : Parse α} {L : List Token → α → Prop} {xs : List α}
    (hitem : Reads n item L) (hpos : ∀ ts x, L ts x → ts ≠ []) (hn : toks.length ≤ n) :
    commaList item toks = .ok (xs, rest) ↔
      ∃ ts, toks = ts ++ rest ∧ CommaList (parsed overflow) L ts xs ∧
        matchDelimiter Word.comma rest = false := by
  unfold commaList
  rw [get_bind]
  exact listFrom_eq_ok hitem (comma_separator overflow) hpos hn (Nat.le_refl _)

theorem fieldName_ne_nil {ts : List Token} {name : Name} (h : FieldName ts name) : ts ≠ [] := by
  obtain ⟨t, rfl, -⟩ := h
  exact List.cons_ne_nil t []

theorem matchKeyword_cons {w : Token} : matchKeyword w (t :: rest) = true ↔ Keyword w t := by
  rw [matchKeyword_iff]
  constructor
  · rintro ⟨t', rest', heq, hw⟩
    cases heq
    exact hw
  · exact fun hw => ⟨t, rest, rfl, hw⟩

theorem matchKeyword_cons_false {w : Token} (h : ¬ Keyword w t) :
    matchKeyword w (t :: rest) = false :=
  Bool.eq_false_iff.mpr (fun hmatch => h (matchKeyword_cons.mp hmatch))

theorem not_keyword_of_not_word {w : Token} (h : isWord t = false) : ¬ Keyword w t := by
  rintro ⟨hword, -⟩
  rw [h] at hword
  cases hword

theorem not_word_of_number (h : isNumber t = true) : isWord t = false := by
  unfold isWord
  rw [h]
  rfl

theorem not_word_of_quote (h : t.head? = some Word.quote) : isWord t = false :=
  (not_alphanum_of_head h (by decide)).2

/-- The four kinds of constants have no token in common. -/
theorem constant_iff {c : Constant} : constant overflow toks = .ok (c, rest) ↔
    ∃ t, toks = t :: rest ∧ IsConstant (parsedLiterals overflow) t c := by
  unfold constant
  rw [get_bind]
  constructor
  · intro h
    split at h
    · obtain ⟨u, mid, heat, h⟩ := (bind_eq_ok).mp h
      obtain ⟨rfl, rfl⟩ := (pure_eq_ok).mp h
      obtain ⟨t, rfl, hw⟩ := (eatKeyword_iff).mp heat
      exact ⟨t, rfl, Or.inl ⟨hw, rfl⟩⟩
    · rw [get_bind] at h
      split at h
      · obtain ⟨u, mid, heat, h⟩ := (bind_eq_ok).mp h
        obtain ⟨rfl, rfl⟩ := (pure_eq_ok).mp h
        obtain ⟨t, rfl, hw⟩ := (eatKeyword_iff).mp heat
        exact ⟨t, rfl, Or.inr (Or.inl ⟨hw, rfl⟩)⟩
      · rw [get_bind] at h
        split at h
        · obtain ⟨s, mid, heat, h⟩ := (bind_eq_ok).mp h
          obtain ⟨rfl, rfl⟩ := (pure_eq_ok).mp h
          obtain ⟨t, rfl, hs⟩ := (eatString_iff overflow).mp heat
          exact ⟨t, rfl, Or.inr (Or.inr (Or.inl ⟨s, hs, rfl⟩))⟩
        · obtain ⟨n, mid, heat, h⟩ := (bind_eq_ok).mp h
          obtain ⟨rfl, rfl⟩ := (pure_eq_ok).mp h
          obtain ⟨t, rfl, hn⟩ := (eatInteger_iff overflow).mp heat
          exact ⟨t, rfl, Or.inr (Or.inr (Or.inr ⟨n, hn, rfl⟩))⟩
  · rintro ⟨t, rfl, ⟨hw, rfl⟩ | ⟨hw, rfl⟩ | ⟨s, hs, rfl⟩ | ⟨n, hn, rfl⟩⟩
    · rw [if_pos (matchKeyword_cons.mpr hw)]
      exact (bind_eq_ok).mpr
        ⟨(), rest, (eatKeyword_iff).mpr ⟨t, rfl, hw⟩, (pure_eq_ok).mpr ⟨rfl, rfl⟩⟩
    · have htrue : ¬ Keyword Word.trueWord t :=
        fun h => absurd (keyword_unique h hw) (by decide)
      rw [matchKeyword_cons_false htrue, if_neg (by decide), get_bind,
        if_pos (matchKeyword_cons.mpr hw)]
      exact (bind_eq_ok).mpr
        ⟨(), rest, (eatKeyword_iff).mpr ⟨t, rfl, hw⟩, (pure_eq_ok).mpr ⟨rfl, rfl⟩⟩
    · have hword := not_word_of_quote hs.1
      rw [matchKeyword_cons_false (not_keyword_of_not_word hword), if_neg (by decide), get_bind,
        matchKeyword_cons_false (not_keyword_of_not_word hword), if_neg (by decide), get_bind,
        if_pos (matchString_cons.mpr hs.1)]
      exact (bind_eq_ok).mpr ⟨s, rest, (eatString_iff overflow).mpr ⟨t, rfl, hs⟩,
        (pure_eq_ok).mpr ⟨rfl, rfl⟩⟩
    · have hword := not_word_of_number hn.1
      have hstring : ¬ matchString (t :: rest) = true := by
        intro h
        have hnumber := (not_alphanum_of_head (matchString_cons.mp h) (by decide)).1
        rw [hn.1] at hnumber
        cases hnumber
      rw [matchKeyword_cons_false (not_keyword_of_not_word hword), if_neg (by decide), get_bind,
        matchKeyword_cons_false (not_keyword_of_not_word hword), if_neg (by decide), get_bind,
        if_neg hstring]
      exact (bind_eq_ok).mpr ⟨n, rest, (eatInteger_iff overflow).mpr ⟨t, rfl, hn⟩,
        (pure_eq_ok).mpr ⟨rfl, rfl⟩⟩

theorem not_identifier_of_constant {c : Constant} {name : Name}
    (h : IsConstant (parsedLiterals overflow) t c) : ¬ Identifier t name := by
  rintro ⟨hword, hlower, hname⟩
  rcases h with ⟨hw, -⟩ | ⟨hw, -⟩ | ⟨s, hs, -⟩ | ⟨n, hn, -⟩
  · rw [← hlower, hw.2] at hname
    exact hname (by decide)
  · rw [← hlower, hw.2] at hname
    exact hname (by decide)
  · rw [not_word_of_quote hs.1] at hword
    cases hword
  · rw [not_word_of_number hn.1] at hword
    cases hword

theorem expression_iff {e : Expression} : expression overflow toks = .ok (e, rest) ↔
    ∃ t, toks = t :: rest ∧ IsExpression (parsedLiterals overflow) t e := by
  unfold expression IsExpression
  rw [get_bind]
  constructor
  · intro h
    split at h
    · obtain ⟨name, mid, heat, h⟩ := (bind_eq_ok).mp h
      obtain ⟨rfl, rfl⟩ := (pure_eq_ok).mp h
      obtain ⟨t, rfl, ht⟩ := (eatIdentifier_iff).mp heat
      exact ⟨t, rfl, Or.inl ⟨name, ht, rfl⟩⟩
    · obtain ⟨c, mid, hc, h⟩ := (bind_eq_ok).mp h
      obtain ⟨rfl, rfl⟩ := (pure_eq_ok).mp h
      obtain ⟨t, rfl, ht⟩ := (constant_iff overflow).mp hc
      exact ⟨t, rfl, Or.inr ⟨c, ht, rfl⟩⟩
  · rintro ⟨t, rfl, ⟨name, ht, rfl⟩ | ⟨c, hc, rfl⟩⟩
    · rw [if_pos (matchIdentifier_iff.mpr ⟨t, rest, name, rfl, ht⟩)]
      exact (bind_eq_ok).mpr ⟨name, rest, (eatIdentifier_iff).mpr ⟨t, rfl, ht⟩,
        (pure_eq_ok).mpr ⟨rfl, rfl⟩⟩
    · have hident : ¬ matchIdentifier (t :: rest) = true := by
        intro h
        obtain ⟨t', rest', name, heq, ht⟩ := (matchIdentifier_iff).mp h
        cases heq
        exact not_identifier_of_constant overflow hc ht
      rw [if_neg hident]
      exact (bind_eq_ok).mpr ⟨c, rest, (constant_iff overflow).mpr ⟨t, rfl, hc⟩,
        (pure_eq_ok).mpr ⟨rfl, rfl⟩⟩

theorem term_reads : Reads n (term overflow) (IsTerm (parsed overflow)) := by
  intro toks x rest _
  unfold term
  constructor
  · intro h
    obtain ⟨lhs, mid, hlhs, h⟩ := (bind_eq_ok).mp h
    obtain ⟨u, mid', heat, h⟩ := (bind_eq_ok).mp h
    obtain ⟨rhs, mid'', hrhs, h⟩ := (bind_eq_ok).mp h
    obtain ⟨rfl, rfl⟩ := (pure_eq_ok).mp h
    obtain ⟨t, rfl, ht⟩ := (expression_iff overflow).mp hlhs
    obtain ⟨eq, rfl, heq⟩ := (eatDelimiter_iff overflow (by decide)).mp heat
    obtain ⟨t', rfl, ht'⟩ := (expression_iff overflow).mp hrhs
    exact ⟨[t, eq, t'], rfl, t, eq, t', rfl, ht, heq, ht'⟩
  · rintro ⟨ts, rfl, t, eq, t', rfl, ht, heq, ht'⟩
    refine (bind_eq_ok).mpr ⟨x.lhs, _, (expression_iff overflow).mpr ⟨t, rfl, ht⟩, ?_⟩
    refine (bind_eq_ok).mpr ⟨(), _, (eatDelimiter_iff overflow (by decide)).mpr ⟨eq, rfl, heq⟩, ?_⟩
    refine (bind_eq_ok).mpr ⟨x.rhs, _, (expression_iff overflow).mpr ⟨t', rfl, ht'⟩, ?_⟩
    exact (pure_eq_ok).mpr ⟨rfl, rfl⟩

theorem predicate_eq_ok {pred : Predicate} : predicate overflow toks = .ok (pred, rest) ↔
    ∃ ts, toks = ts ++ rest ∧ IsPredicate (parsed overflow) ts pred ∧
      matchKeyword Word.andWord rest = false := by
  unfold predicate
  rw [get_bind]
  refine listFrom_eq_ok (term_reads overflow) and_separator ?_ (Nat.le_refl _) (Nat.le_refl _)
  rintro ts x ⟨t, eq, t', rfl, -⟩
  exact List.cons_ne_nil t _

end Items

section Clauses

variable {t : Token} {toks rest : List Token} {P Q : Token → Prop}

theorem matchKeyword_eq_false {w : Token} :
    matchKeyword w toks = false ↔ Stops (Keyword w) toks := by
  rw [Bool.eq_false_iff, ne_eq, matchKeyword_iff]
  unfold Stops
  cases toks <;> simp

theorem matchDelimiter_eq_false {delim : Char} (hd : delim.isAlphanum = false) :
    matchDelimiter delim toks = false ↔ Stops ((parsed overflow).delimiter delim) toks := by
  rw [Bool.eq_false_iff, ne_eq, matchDelimiter_iff overflow hd]
  unfold Stops
  cases toks <;> simp

/-- What ends an optional part: the tokens that go on with it, or its first word where it
is left out. -/
def Reach (word : Token) : Option Last → Token → Prop
  | none => Keyword word
  | some last => Own (parsed overflow) last

theorem wherePredicate_eq_ok (full : Last)
    (hfull : Own (parsed overflow) full = Keyword Word.andWord)
    {pred : Predicate} : wherePredicate overflow toks = .ok (pred, rest) ↔
      ∃ ts wl, toks = ts ++ rest ∧ WhereClause (parsed overflow) full ts pred wl ∧
        Stops (Reach overflow Word.whereWord wl) rest := by
  unfold wherePredicate
  rw [get_bind]
  constructor
  · intro h
    split at h
    · obtain ⟨u, mid, heat, hgo⟩ := (bind_eq_ok).mp h
      obtain ⟨w, rfl, hw⟩ := (eatKeyword_iff).mp heat
      obtain ⟨ts, rfl, hpred, hstop⟩ := (predicate_eq_ok overflow).mp hgo
      refine ⟨w :: ts, some full, rfl, .present hw hpred, ?_⟩
      rw [Reach, hfull]
      exact (matchKeyword_eq_false).mp hstop
    · rename_i hmatch
      obtain ⟨rfl, rfl⟩ := (pure_eq_ok).mp h
      exact ⟨[], none, rfl, .absent, (matchKeyword_eq_false).mp (Bool.eq_false_iff.mpr hmatch)⟩
  · rintro ⟨ts, wl, rfl, hclause, hstop⟩
    cases hclause with
    | absent =>
      rw [List.nil_append, (matchKeyword_eq_false).mpr hstop]
      exact (pure_eq_ok).mpr ⟨rfl, rfl⟩
    | @present w ts pred hw hpred =>
      rw [Reach, hfull] at hstop
      rw [List.cons_append, if_pos (matchKeyword_cons.mpr hw)]
      refine (bind_eq_ok).mpr ⟨(), _, (eatKeyword_iff).mpr ⟨w, rfl, hw⟩, ?_⟩
      exact (predicate_eq_ok overflow).mpr ⟨ts, rfl, hpred, (matchKeyword_eq_false).mpr hstop⟩

theorem clauseFieldList_eq_ok {word : Token} (bare full : Last)
    (hbare : Own (parsed overflow) bare = Keyword Word.byWord)
    (hfull : Own (parsed overflow) full = (parsed overflow).delimiter Word.comma)
    {fields : List Name} :
    clauseFieldList word toks = .ok (fields, rest) ↔
      ∃ ts gl, toks = ts ++ rest ∧ FieldsClause (parsed overflow) word bare full ts fields gl ∧
        Stops (Reach overflow word gl) rest := by
  unfold clauseFieldList
  rw [get_bind]
  constructor
  · intro h
    split at h
    · obtain ⟨u, mid, heat, hgo⟩ := (bind_eq_ok).mp h
      obtain ⟨w, rfl, hw⟩ := (eatKeyword_iff).mp heat
      rw [get_bind] at hgo
      split at hgo
      · obtain ⟨u', mid', heat', hlist⟩ := (bind_eq_ok).mp hgo
        obtain ⟨b, rfl, hb⟩ := (eatKeyword_iff).mp heat'
        obtain ⟨ts, rfl, hfields, hstop⟩ := (commaList_eq_ok overflow fieldName_reads
          (fun _ _ => fieldName_ne_nil) (Nat.le_refl _)).mp hlist
        refine ⟨w :: b :: ts, some full, rfl, .present hw hb hfields, ?_⟩
        rw [Reach, hfull]
        exact (matchDelimiter_eq_false overflow (by decide)).mp hstop
      · rename_i hby
        obtain ⟨rfl, rfl⟩ := (pure_eq_ok).mp hgo
        refine ⟨[w], some bare, rfl, .bare trivial hw, ?_⟩
        rw [Reach, hbare]
        exact (matchKeyword_eq_false).mp (Bool.eq_false_iff.mpr hby)
    · rename_i hmatch
      obtain ⟨rfl, rfl⟩ := (pure_eq_ok).mp h
      exact ⟨[], none, rfl, .absent, (matchKeyword_eq_false).mp (Bool.eq_false_iff.mpr hmatch)⟩
  · rintro ⟨ts, gl, rfl, hclause, hstop⟩
    cases hclause with
    | absent =>
      rw [List.nil_append, (matchKeyword_eq_false).mpr hstop]
      exact (pure_eq_ok).mpr ⟨rfl, rfl⟩
    | @bare w _ hw =>
      rw [Reach, hbare] at hstop
      rw [List.cons_append, if_pos (matchKeyword_cons.mpr hw)]
      refine (bind_eq_ok).mpr ⟨(), rest, (eatKeyword_iff).mpr ⟨w, rfl, hw⟩, ?_⟩
      rw [get_bind, (matchKeyword_eq_false).mpr hstop]
      exact (pure_eq_ok).mpr ⟨rfl, rfl⟩
    | @present w b ts fields hw hb hfields =>
      rw [Reach, hfull] at hstop
      rw [List.cons_append, if_pos (matchKeyword_cons.mpr hw)]
      refine (bind_eq_ok).mpr ⟨(), _, (eatKeyword_iff).mpr ⟨w, rfl, hw⟩, ?_⟩
      rw [get_bind, List.cons_append, if_pos (matchKeyword_cons.mpr hb)]
      refine (bind_eq_ok).mpr ⟨(), _, (eatKeyword_iff).mpr ⟨b, rfl, hb⟩, ?_⟩
      exact (commaList_eq_ok overflow fieldName_reads (fun _ _ => fieldName_ne_nil)
        (Nat.le_refl _)).mpr ⟨ts, rfl, hfields,
          (matchDelimiter_eq_false overflow (by decide)).mpr hstop⟩

theorem not_delimiter_of_keyword {w : Token} {delim : Char} (hd : delim.isAlphanum = false) :
    ∀ t, Keyword w t → ¬ (parsed overflow).delimiter delim t := by
  rintro t ⟨hword, -⟩ h
  rw [(not_alphanum_of_head h hd).2] at hword
  cases hword

end Clauses

section Queries

variable {t : Token} {toks rest : List Token} {n : ℕ}

theorem ends_iff {last : Last} : Stops (Continues (parsed overflow) last) rest ↔
    Stops (Own (parsed overflow) last) rest ∧ ∀ word ∈ later last, Stops (Keyword word) rest := by
  unfold Continues
  rw [stops_or]
  refine and_congr_right (fun _ => ?_)
  unfold Stops
  constructor
  · intro h word hword t ht hkey
    exact h t ht ⟨word, hword, hkey⟩
  · rintro h t ht ⟨word, hword, hkey⟩
    exact h word hword t ht hkey

/-- What the parts of a query have to stop in front of, all in all. -/
theorem query_ends {ws gs os : List Token} {pred : Predicate} {groupFields sortFields : List Name}
    {wl gl ol : Option Last} (hwhere : WhereClause (parsed overflow) .predicate ws pred wl)
    (hgroup : FieldsClause
      (parsed overflow) Word.groupWord .bareGroup .groupFields gs groupFields gl)
    (hsort : FieldsClause
      (parsed overflow) Word.orderWord .bareOrder .sortFields os sortFields ol) :
    (Stops ((parsed overflow).delimiter Word.comma) (ws ++ (gs ++ (os ++ rest))) ∧
      Stops (Reach overflow Word.whereWord wl) (gs ++ (os ++ rest)) ∧
      Stops (Reach overflow Word.groupWord gl) (os ++ rest) ∧
      Stops (Reach overflow Word.orderWord ol) rest) ↔
      Stops (Continues (parsed overflow) (((ol.or gl).or wl).getD .tables)) rest := by
  have hcomma : ∀ w : Token, ∀ t, Keyword w t → ¬ (parsed overflow).delimiter Word.comma t :=
    fun w => not_delimiter_of_keyword overflow (by decide)
  have hreachWhere : ∀ w, w ≠ Word.whereWord → w ≠ Word.andWord →
      ∀ t, Keyword w t → ¬ Reach overflow Word.whereWord wl t := by
    intro w hne hne'
    rcases hwhere.last_cases with rfl | rfl
    · exact keyword_ne hne
    · exact keyword_ne hne'
  have hreachGroup : ∀ t, Keyword Word.orderWord t → ¬ Reach overflow Word.groupWord gl t := by
    rcases hgroup.last_cases with rfl | rfl | rfl
    · exact keyword_ne (by decide)
    · exact keyword_ne (by decide)
    · exact hcomma _
  rw [hwhere.stops (hcomma _), hgroup.stops (hcomma _), hsort.stops (hcomma _),
    hgroup.stops (hreachWhere _ (by decide) (by decide)),
    hsort.stops (hreachWhere _ (by decide) (by decide)), hsort.stops hreachGroup, ends_iff]
  rcases hwhere.last_cases with rfl | rfl <;> rcases hgroup.last_cases with rfl | rfl | rfl <;>
    rcases hsort.last_cases with rfl | rfl | rfl <;>
    simp [Reach, Own, later]

theorem not_continues_rightParen {last : Last} (h : (parsed overflow).delimiter Word.rightParen t) :
    ¬ Continues (parsed overflow) last t := by
  have hkey : ∀ w, ¬ Keyword w t := fun w hw => not_delimiter_of_keyword overflow (by decide) t hw h
  have hcomma : ¬ (parsed overflow).delimiter Word.comma t := by
    intro hc
    exact absurd (Option.some.inj (h.symm.trans hc)) (by decide)
  rintro (hown | ⟨word, -, hw⟩)
  · cases last <;> first | exact hcomma hown | exact hkey _ hown | exact hown
  · exact hkey word hw

/-- The parser of subqueries, as far as their tokens are not too many. -/
def ReadsQueries (n : ℕ) (p : Parse QueryData) : Prop :=
  ∀ toks q rest, toks.length ≤ n → (p toks = .ok (q, rest) ↔
    ∃ ts last, toks = ts ++ rest ∧ Query (parsed overflow) ts q last ∧
      Stops (Continues (parsed overflow) last) rest)

theorem tableItem_reads {p : Parse QueryData} (hp : ReadsQueries overflow n p) :
    Reads n (tableItem p)
      (TableItem (parsed overflow) (fun ts q => ∃ last, Query (parsed overflow) ts q last)) := by
  intro toks x rest hn
  unfold tableItem
  rw [get_bind]
  constructor
  · intro h
    split at h
    · obtain ⟨u, mid, hleft, hgo⟩ := (bind_eq_ok).mp h
      obtain ⟨left, rfl, hl⟩ := (eatDelimiter_iff overflow (by decide)).mp hleft
      obtain ⟨q, mid', hq, hgo'⟩ := (bind_eq_ok).mp hgo
      obtain ⟨u', mid'', hright, hret⟩ := (bind_eq_ok).mp hgo'
      obtain ⟨rfl, rfl⟩ := (pure_eq_ok).mp hret
      rw [List.length_cons] at hn
      obtain ⟨ts, last, rfl, hquery, -⟩ := (hp mid q mid' (by omega)).mp hq
      obtain ⟨right, rfl, hr⟩ := (eatDelimiter_iff overflow (by decide)).mp hright
      exact ⟨left :: (ts ++ [right]), by simp, left, ts, right, rfl, hl, ⟨last, hquery⟩, hr⟩
    · obtain ⟨name, mid, heat, hret⟩ := (bind_eq_ok).mp h
      obtain ⟨rfl, rfl⟩ := (pure_eq_ok).mp hret
      obtain ⟨t, rfl, ht⟩ := (eatIdentifier_iff).mp heat
      exact ⟨[t], rfl, t, rfl, ht⟩
  · rintro ⟨ts, rfl, hitem⟩
    cases x with
    | inr name =>
      obtain ⟨t, rfl, ht⟩ := hitem
      have hleft : ¬ matchDelimiter Word.leftParen ([t] ++ rest) = true := by
        intro h
        obtain ⟨t', rest', heq, hd⟩ := (matchDelimiter_iff overflow (by decide)).mp h
        cases heq
        have hword := ht.1
        rw [(not_alphanum_of_head hd (by decide)).2] at hword
        cases hword
      rw [if_neg hleft]
      exact (bind_eq_ok).mpr ⟨name, rest, (eatIdentifier_iff).mpr ⟨t, rfl, ht⟩,
        (pure_eq_ok).mpr ⟨rfl, rfl⟩⟩
    | inl q =>
      obtain ⟨left, qs, right, rfl, hl, ⟨last, hquery⟩, hr⟩ := hitem
      have hlist : left :: (qs ++ [right]) ++ rest = left :: (qs ++ right :: rest) := by simp
      rw [hlist] at hn ⊢
      rw [List.length_cons] at hn
      rw [if_pos ((matchDelimiter_iff overflow (by decide)).mpr ⟨left, _, rfl, hl⟩)]
      refine (bind_eq_ok).mpr ⟨(), _, (eatDelimiter_iff overflow (by decide)).mpr
        ⟨left, rfl, hl⟩, ?_⟩
      refine (bind_eq_ok).mpr ⟨q, right :: rest, (hp _ q _ (by omega)).mpr ⟨qs, last, rfl, hquery,
        (stops_cons).mpr (not_continues_rightParen overflow hr)⟩, ?_⟩
      refine (bind_eq_ok).mpr ⟨(), rest, (eatDelimiter_iff overflow (by decide)).mpr
        ⟨right, rfl, hr⟩, ?_⟩
      exact (pure_eq_ok).mpr ⟨rfl, rfl⟩

theorem foldl_addTable (items : List (QueryData ⊕ Name)) (data : TableData) :
    items.foldl addTable data =
      ⟨(items.filterMap Sum.getRight?).foldl (fun names name => insertName name names) data.tables,
        data.queryData ++ items.filterMap Sum.getLeft?⟩ := by
  induction items generalizing data with
  | nil => simp
  | cons item items ih =>
    rw [List.foldl_cons, ih]
    cases item <;>
      simp [addTable, TableData.addTableName, TableData.addQueryData, List.filterMap_cons]

theorem tableItem_ne_nil {r : Rules} {sub : List Token → QueryData → Prop} {ts : List Token}
    {x : QueryData ⊕ Name} (h : TableItem r sub ts x) : ts ≠ [] := by
  cases x with
  | inr name => exact fieldName_ne_nil h
  | inl q =>
    obtain ⟨left, qs, right, rfl, -⟩ := h
    exact List.cons_ne_nil left _

theorem tableList_eq_ok {p : Parse QueryData} (hp : ReadsQueries overflow n p) {data : TableData}
    (hn : toks.length ≤ n) : tableList p toks = .ok (data, rest) ↔
      ∃ ts items, toks = ts ++ rest ∧ data = tableData items ∧ CommaList (parsed overflow)
        (TableItem (parsed overflow) (fun ts q => ∃ last, Query (parsed overflow) ts q last))
          ts items ∧
        Stops ((parsed overflow).delimiter Word.comma) rest := by
  unfold tableList
  have hlist : ∀ items rest, commaList (tableItem p) toks = .ok (items, rest) ↔
      ∃ ts, toks = ts ++ rest ∧ CommaList (parsed overflow) (TableItem (parsed overflow)
        (fun ts q => ∃ last, Query (parsed overflow) ts q last)) ts items ∧
        matchDelimiter Word.comma rest = false :=
    fun items rest => commaList_eq_ok overflow (tableItem_reads overflow hp)
      (fun _ _ => tableItem_ne_nil) hn
  constructor
  · intro h
    obtain ⟨items, mid, hitems, hret⟩ := (bind_eq_ok).mp h
    obtain ⟨rfl, rfl⟩ := (pure_eq_ok).mp hret
    obtain ⟨ts, rfl, hts, hstop⟩ := (hlist items mid).mp hitems
    refine ⟨ts, items, rfl, ?_, hts, (matchDelimiter_eq_false overflow (by decide)).mp hstop⟩
    rw [foldl_addTable]
    rfl
  · rintro ⟨ts, items, rfl, rfl, hts, hstop⟩
    refine (bind_eq_ok).mpr ⟨items, rest, (hlist items rest).mpr
      ⟨ts, rfl, hts, (matchDelimiter_eq_false overflow (by decide)).mpr hstop⟩, ?_⟩
    rw [foldl_addTable]
    exact (pure_eq_ok).mpr ⟨rfl, rfl⟩

theorem queryFrom_reads (n : ℕ) : ReadsQueries overflow n (queryFrom overflow n) := by
  induction n with
  | zero =>
    intro toks q rest hn
    have hnil : toks = [] := List.length_eq_zero_iff.mp (Nat.le_zero.mp hn)
    unfold queryFrom
    simp only [reduceCtorEq, false_iff]
    rintro ⟨ts, last, heq, hquery, -⟩
    cases hquery
    rw [hnil] at heq
    cases heq
  | succ n ih =>
    intro toks q rest hn
    have hfields : ∀ {m toks xs rest}, toks.length ≤ m →
      (commaList fieldName toks = .ok (xs, rest) ↔
        ∃ ts, toks = ts ++ rest ∧ CommaList (parsed overflow) FieldName ts xs ∧
          matchDelimiter Word.comma rest = false) := by
      intro m toks xs rest hm
      exact commaList_eq_ok overflow fieldName_reads (fun _ _ => fieldName_ne_nil) hm
    unfold queryFrom
    constructor
    · intro h
      obtain ⟨u, toks₁, hselect, h₁⟩ := (bind_eq_ok).mp h
      obtain ⟨fields, toks₂, hlist, h₂⟩ := (bind_eq_ok).mp h₁
      obtain ⟨u', toks₃, hfrom, h₃⟩ := (bind_eq_ok).mp h₂
      obtain ⟨data, toks₄, htables, h₄⟩ := (bind_eq_ok).mp h₃
      obtain ⟨pred, toks₅, hwhere, h₅⟩ := (bind_eq_ok).mp h₄
      obtain ⟨groupFields, toks₆, hgroup, h₆⟩ := (bind_eq_ok).mp h₅
      obtain ⟨sortFields, toks₇, hsort, h₇⟩ := (bind_eq_ok).mp h₆
      obtain ⟨rfl, rfl⟩ := (pure_eq_ok).mp h₇
      obtain ⟨s, rfl, hs⟩ := (eatKeyword_iff).mp hselect
      obtain ⟨fs, rfl, hfs, -⟩ := (hfields (Nat.le_refl _)).mp hlist
      obtain ⟨f, rfl, hf⟩ := (eatKeyword_iff).mp hfrom
      rw [List.length_cons, List.length_append, List.length_cons] at hn
      obtain ⟨ts, items, rfl, rfl, hts, hcomma⟩ :=
        (tableList_eq_ok overflow ih (by omega)).mp htables
      obtain ⟨ws, wl, rfl, hws, hwstop⟩ := (wherePredicate_eq_ok overflow .predicate rfl).mp hwhere
      obtain ⟨gs, gl, rfl, hgs, hgstop⟩ := (clauseFieldList_eq_ok overflow .bareGroup .groupFields
        rfl rfl).mp hgroup
      obtain ⟨os, ol, rfl, hos, hostop⟩ := (clauseFieldList_eq_ok overflow .bareOrder .sortFields
        rfl rfl).mp hsort
      refine ⟨_, _, ?_, .intro (fun _ _ _ h => h) hs hfs hf hts hws hgs hos,
        (query_ends overflow hws hgs hos).mp ⟨hcomma, hwstop, hgstop, hostop⟩⟩
      simp only [List.cons_append, List.append_assoc]
    · rintro ⟨_, _, rfl, hquery, hends⟩
      cases hquery with
      | @intro sub s f fs ts ws gs os fields items pred groupFields sortFields wl gl ol hsub hs hfs
          hf hts hws hgs hos =>
        obtain ⟨hcomma, hwstop, hgstop, hostop⟩ := (query_ends overflow hws hgs hos).mpr hends
        have hlist : s :: (fs ++ f :: (ts ++ (ws ++ (gs ++ os)))) ++ rest =
            s :: (fs ++ f :: (ts ++ (ws ++ (gs ++ (os ++ rest))))) := by
          simp only [List.cons_append, List.append_assoc]
        rw [hlist] at hn ⊢
        rw [List.length_cons, List.length_append, List.length_cons] at hn
        have hts' : CommaList (parsed overflow) (TableItem (parsed overflow)
            (fun ts q => ∃ last, Query (parsed overflow) ts q last)) ts items :=
          hts.mono (fun _ _ h => h.mono (fun ts q hq => hq.imp (fun last => hsub ts q last)))
            (fun _ h => h)
        have hfromstop : matchDelimiter Word.comma
            (f :: (ts ++ (ws ++ (gs ++ (os ++ rest))))) = false :=
          (matchDelimiter_eq_false overflow (by decide)).mpr
            (stops_cons.mpr (not_delimiter_of_keyword overflow (by decide) f hf))
        refine (bind_eq_ok).mpr ⟨(), _, (eatKeyword_iff).mpr ⟨s, rfl, hs⟩, ?_⟩
        refine (bind_eq_ok).mpr ⟨fields, _, (hfields (Nat.le_refl _)).mpr
          ⟨fs, rfl, hfs, hfromstop⟩, ?_⟩
        refine (bind_eq_ok).mpr ⟨(), _, (eatKeyword_iff).mpr ⟨f, rfl, hf⟩, ?_⟩
        refine (bind_eq_ok).mpr ⟨tableData items, _, (tableList_eq_ok overflow ih (by omega)).mpr
          ⟨ts, items, rfl, rfl, hts', hcomma⟩, ?_⟩
        refine (bind_eq_ok).mpr ⟨pred, _, (wherePredicate_eq_ok overflow .predicate rfl).mpr
          ⟨ws, wl, rfl, hws, hwstop⟩, ?_⟩
        refine (bind_eq_ok).mpr
          ⟨groupFields, _, (clauseFieldList_eq_ok overflow .bareGroup .groupFields
          rfl rfl).mpr ⟨gs, gl, rfl, hgs, hgstop⟩, ?_⟩
        refine (bind_eq_ok).mpr
          ⟨sortFields, _, (clauseFieldList_eq_ok overflow .bareOrder .sortFields
          rfl rfl).mpr ⟨os, ol, rfl, hos, hostop⟩, ?_⟩
        exact (pure_eq_ok).mpr ⟨rfl, rfl⟩

/-- What `query` accepts, and where it stops. -/
theorem query_eq_ok {q : QueryData} : query overflow toks = .ok (q, rest) ↔
    ∃ ts last, toks = ts ++ rest ∧ Query (parsed overflow) ts q last ∧
      Stops (Continues (parsed overflow) last) rest := by
  unfold query
  rw [get_bind]
  exact queryFrom_reads overflow toks.length toks q rest (Nat.le_refl _)

end Queries

theorem parse_eq_ok {α : Type} {p : Parse α} {text : Text} {x : α} :
    parse p text = .ok x ↔ ∃ rest, p (tokens text) = .ok (x, rest) := by
  unfold parse
  cases h : p (tokens text) with
  | error e => simp [Except.map]
  | ok r => simp [Except.map, Prod.ext_iff]

end SampleDB.Acceptance
