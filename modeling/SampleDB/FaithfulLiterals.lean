import Mathlib.Algebra.Group.Nat.Defs
import Mathlib.Data.Int.Notation
import SampleDB.Conformance
import SampleDB.Printing

/-!
The literals of a command, written between blanks, and the constants that the parser
reads them as. A string literal is cut at its blanks and commas before its quotes are
looked at, a sign is part of no number, and a number goes through a `double`.
-/
namespace SampleDB.FaithfulLiterals

open Lexer Schemas SqlParser Acceptance Printing

/-- Numbers from here on are rounded to no `double`, and `std::stod` throws. -/
def noDouble : ℕ := 2 ^ 1024 - 2 ^ 970

/-- A number that is no `int` raises an error where `std::stod` throws. Below, its
conversion from `double` is not defined, and `undefined` is what comes of it. -/
def converted (undefined : ℕ → Int32) (n : ℕ) : Option Int32 :=
  if n < noDouble then some (undefined n) else none

/-- A decimal integer of any number of digits, or characters between two quotes. -/
inductive Literal
  | integer (negative : Bool) (digits : Text) (nonempty : digits ≠ [])
      (decimal : isNumber digits = true)
  | string (s : Text) (unquoted : Word.quote ∉ s)

namespace Literal

def text : Literal → Text
  | integer negative digits _ _ => if negative then '-' :: digits else digits
  | string s _ => Word.quote :: (s ++ [Word.quote])

/-- The number that is written. -/
def number (negative : Bool) (digits : Text) : ℤ :=
  if negative then -(numeral digits : ℤ) else numeral digits

/-- The constant that is written, if it fits. -/
def value : Literal → Option Constant
  | integer negative digits _ _ =>
      if -2147483648 ≤ number negative digits ∧ number negative digits < 2147483648 then
        some (.ofInt (Int32.ofInt (number negative digits)))
      else none
  | string s _ => some (.ofString (toLower s))

/-- The tokens that remain where the parser is in front of the literal. -/
def ahead (lit : Literal) (before rest : Text) : List Token :=
  (tokens (before ++ ' ' :: (lit.text ++ ' ' :: rest))).drop (tokens before).length

/-- What is written is returned and nothing else is consumed, or there is an error where it
does not fit. -/
def Faithful (undefined : ℕ → Int32) (lit : Literal) (before rest : Text) : Prop :=
  match lit.value with
  | some c => constant (converted undefined) (lit.ahead before rest) = .ok (c, tokens rest)
  | none => ∃ e, constant (converted undefined) (lit.ahead before rest) = .error e

/-- The literals that are read faithfully. -/
def Handled : Literal → Prop
  | integer false digits _ _ => numeral digits < 2147483648 ∨ noDouble ≤ numeral digits
  | integer true digits _ _ => 2147483648 < numeral digits
  | string s _ => ' ' ∉ s ∧ ',' ∉ s

end Literal

section Tokens

variable {undefined : ℕ → Int32} {t : Token} {text before rest : Text} {toks : List Token}

theorem ahead_eq (lit : Literal) (before rest : Text) :
    lit.ahead before rest = tokens lit.text ++ tokens rest := by
  unfold Literal.ahead
  rw [tokens_blank, tokens_blank, List.drop_left]

theorem faithful_of_some {lit : Literal} {c : Constant} (h : lit.value = some c) :
    lit.Faithful undefined before rest ↔
      constant (converted undefined) (lit.ahead before rest) = .ok (c, tokens rest) := by
  unfold Literal.Faithful
  rw [h]

theorem faithful_of_none {lit : Literal} (h : lit.value = none) :
    lit.Faithful undefined before rest ↔
      ∃ e, constant (converted undefined) (lit.ahead before rest) = .error e := by
  unfold Literal.Faithful
  rw [h]

theorem tokensFrom_ne_nil {begun text : Text} (h : begun ≠ [] ∨ ∃ c ∈ text, c ≠ ' ') :
    tokensFrom begun text ≠ [] := by
  induction text generalizing begun with
  | nil =>
    have hbegun : begun ≠ [] := h.resolve_right (fun ⟨c, hc, _⟩ => by cases hc)
    rw [tokensFrom, if_neg hbegun]
    exact List.cons_ne_nil _ _
  | cons d text ih =>
    rw [tokensFrom]
    by_cases hblank : d = ' '
    · rw [if_pos hblank]
      by_cases hbegun : begun = []
      · rw [if_pos hbegun]
        refine ih (Or.inr ?_)
        obtain ⟨c, hc, hne⟩ := h.resolve_left (fun hne => hne hbegun)
        refine ⟨c, (List.mem_cons.mp hc).resolve_left ?_, hne⟩
        intro heq
        exact hne (heq.trans hblank)
      · rw [if_neg hbegun]
        exact List.cons_ne_nil _ _
    · rw [if_neg hblank]
      by_cases hcomma : d = ','
      · rw [if_pos hcomma]
        intro hnil
        exact List.cons_ne_nil _ _ (List.append_eq_nil_iff.mp hnil).2
      · rw [if_neg hcomma]
        exact ih (Or.inl (by simp))

/-- A blank or a comma inside a text cuts it. -/
theorem two_le_tokens {a b : Text} {c : Char} (hc : c = ' ' ∨ c = ',')
    (ha : ∃ d ∈ a, d ≠ ' ') (hb : ∃ d ∈ b, d ≠ ' ') : 2 ≤ (tokens (a ++ c :: b)).length := by
  have hfirst : 0 < (tokens a).length :=
    List.length_pos_of_ne_nil (tokensFrom_ne_nil (Or.inr ha))
  have hsecond : 0 < (tokens b).length :=
    List.length_pos_of_ne_nil (tokensFrom_ne_nil (Or.inr hb))
  rcases hc with rfl | rfl
  · rw [tokens_blank, List.length_append]
    omega
  · rw [tokens_comma, List.length_append, List.length_cons]
    omega

/-- A constant is one token. -/
theorem constant_length {c : Constant} {overflow : ℕ → Option Int32}
    (h : constant overflow (toks ++ tokens rest) = .ok (c, tokens rest)) : toks.length = 1 := by
  obtain ⟨t, heq, -⟩ := (constant_iff overflow).mp h
  have hlength := congrArg List.length heq
  rw [List.length_append, List.length_cons] at hlength
  omega

/-- What is neither a word, nor a number, nor begins with a quote is no constant. -/
theorem constant_error {overflow : ℕ → Option Int32} (hword : isWord t = false)
    (hquote : t.head? ≠ some Word.quote)
    (hinteger : ∀ n, ¬ (parsedLiterals overflow).integer t n) :
    ∃ e, constant overflow (t :: toks) = .error e := by
  cases hread : constant overflow (t :: toks) with
  | error e => exact ⟨e, rfl⟩
  | ok read =>
    obtain ⟨c, left⟩ := read
    obtain ⟨t', heq, hconst⟩ := (constant_iff overflow).mp hread
    cases heq
    rcases hconst with ⟨hw, -⟩ | ⟨hw, -⟩ | ⟨s, hs, -⟩ | ⟨n, hn, -⟩
    · exact absurd hw (not_keyword_of_not_word hword)
    · exact absurd hw (not_keyword_of_not_word hword)
    · exact absurd hs.1 hquote
    · exact absurd hn (hinteger n)

end Tokens

section Integers

variable {undefined : ℕ → Int32} {digits before rest : Text}

theorem value_integer {negative : Bool} (hne : digits ≠ []) (h : isNumber digits = true) :
    (Literal.integer negative digits hne h).value =
      if -2147483648 ≤ Literal.number negative digits ∧
          Literal.number negative digits < 2147483648 then
        some (.ofInt (Int32.ofInt (Literal.number negative digits)))
      else none := rfl

theorem number_unsigned : Literal.number false digits = numeral digits := rfl

theorem number_negative : Literal.number true digits = -(numeral digits : ℤ) := rfl

theorem not_separator_of_digits (h : isNumber digits = true) :
    ∀ c ∈ digits, c ≠ ' ' ∧ c ≠ ',' := by
  intro c hc
  have hdigit : c.isDigit = true := List.all_eq_true.mp h c hc
  constructor
  · rintro rfl
    exact absurd hdigit (by decide)
  · rintro rfl
    exact absurd hdigit (by decide)

theorem unbroken_of_digits (hne : digits ≠ []) (h : isNumber digits = true) : Unbroken digits :=
  ⟨hne, not_separator_of_digits h⟩

theorem unbroken_of_negative (h : isNumber digits = true) : Unbroken ('-' :: digits) := by
  refine ⟨List.cons_ne_nil _ _, fun c hc => ?_⟩
  rcases List.mem_cons.mp hc with rfl | hc
  · decide
  · exact not_separator_of_digits h c hc

theorem not_quote_of_digits (h : isNumber digits = true) : digits.head? ≠ some Word.quote := by
  intro hquote
  have hnumber := (not_alphanum_of_head hquote (by decide)).1
  rw [h] at hnumber
  cases hnumber

/-- The value of a string of digits, whatever becomes of it out of range. -/
theorem constant_digits {overflow : ℕ → Option Int32} (h : isNumber digits = true) {n : Int32}
    {toks : List Token} (hn : (if numeral digits < 2147483648 then
      some (Int32.ofNat (numeral digits)) else overflow (numeral digits)) = some n) :
    constant overflow (digits :: toks) = .ok (.ofInt n, toks) :=
  (constant_iff overflow).mpr
    ⟨digits, rfl, Or.inr (Or.inr (Or.inr ⟨n, ⟨h, hn⟩, rfl⟩))⟩

theorem faithful_digits (hne : digits ≠ []) (h : isNumber digits = true) :
    Literal.Faithful undefined (.integer false digits hne h) before rest ↔
      numeral digits < 2147483648 ∨ noDouble ≤ numeral digits := by
  have hahead : (Literal.integer false digits hne h).ahead before rest =
      digits :: tokens rest := by
    rw [ahead_eq]
    show tokens digits ++ tokens rest = _
    rw [tokens_unbroken (unbroken_of_digits hne h), List.singleton_append]
  by_cases hfits : numeral digits < 2147483648
  · have hvalue : (Literal.integer false digits hne h).value =
        some (.ofInt (Int32.ofNat (numeral digits))) := by
      rw [value_integer, number_unsigned, if_pos ⟨by omega, by omega⟩, Int32.ofInt_eq_ofNat]
    rw [faithful_of_some hvalue, hahead]
    exact ⟨fun _ => Or.inl hfits, fun _ => constant_digits h (if_pos hfits)⟩
  · have hvalue : (Literal.integer false digits hne h).value = none := by
      rw [value_integer, number_unsigned, if_neg (by omega)]
    rw [faithful_of_none hvalue, hahead]
    by_cases hdouble : numeral digits < noDouble
    · have hread : constant (converted undefined) (digits :: tokens rest) =
          .ok (.ofInt (undefined (numeral digits)), tokens rest) :=
        constant_digits h (by rw [if_neg hfits]; exact if_pos hdouble)
      constructor
      · rintro ⟨e, herror⟩
        rw [hread] at herror
        cases herror
      · rintro (hlt | hge)
        · exact absurd hlt hfits
        · exact absurd hdouble (Nat.not_lt.mpr hge)
    · refine ⟨fun _ => Or.inr (Nat.not_lt.mp hdouble), fun _ => ?_⟩
      refine constant_error (not_word_of_number h) (not_quote_of_digits h) ?_
      rintro n ⟨-, hn⟩
      rw [if_neg hfits] at hn
      have hnone : converted undefined (numeral digits) = none := if_neg hdouble
      rw [hnone] at hn
      cases hn

/-- No number has a sign. -/
theorem constant_negative {overflow : ℕ → Option Int32} {toks : List Token} :
    ∃ e, constant overflow (('-' :: digits) :: toks) = .error e := by
  obtain ⟨hnumber, hword⟩ :=
    @not_alphanum_of_head '-' ('-' :: digits) rfl (by decide)
  refine constant_error hword (fun hquote => ?_) ?_
  · exact absurd (Option.some.inj hquote) (by decide)
  · rintro n ⟨h, -⟩
    rw [hnumber] at h
    cases h

theorem faithful_negative (hne : digits ≠ []) (h : isNumber digits = true) :
    Literal.Faithful undefined (.integer true digits hne h) before rest ↔
      2147483648 < numeral digits := by
  have hahead : (Literal.integer true digits hne h).ahead before rest =
      ('-' :: digits) :: tokens rest := by
    rw [ahead_eq]
    show tokens ('-' :: digits) ++ tokens rest = _
    rw [tokens_unbroken (unbroken_of_negative h), List.singleton_append]
  obtain ⟨e, herror⟩ :=
    @constant_negative digits (converted undefined) (tokens rest)
  by_cases hfits : 2147483648 < numeral digits
  · have hvalue : (Literal.integer true digits hne h).value = none := by
      rw [value_integer, number_negative, if_neg (by omega)]
    rw [faithful_of_none hvalue, hahead]
    exact ⟨fun _ => hfits, fun _ => ⟨e, herror⟩⟩
  · have hvalue : (Literal.integer true digits hne h).value =
        some (.ofInt (Int32.ofInt (-(numeral digits : ℤ)))) := by
      rw [value_integer, number_negative, if_pos ⟨by omega, by omega⟩]
    rw [faithful_of_some hvalue, hahead, herror]
    constructor
    · intro hread
      cases hread
    · intro hlt
      exact absurd hlt hfits

end Integers

section Strings

variable {undefined : ℕ → Int32} {s before rest : Text}

/-- Without a blank and a comma the two quotes stay in one token and are taken off. -/
theorem constant_string {overflow : ℕ → Option Int32} {toks : List Token} :
    constant overflow ((Word.quote :: (s ++ [Word.quote])) :: toks) =
      .ok (.ofString (toLower s), toks) :=
  (constant_iff overflow).mpr
    ⟨_, rfl, Or.inr (Or.inr (Or.inl ⟨_, ⟨rfl, (Conformance.unquote_quoted s).symm⟩, rfl⟩))⟩

theorem unbroken_of_string (hblank : ' ' ∉ s) (hcomma : ',' ∉ s) :
    Unbroken (Word.quote :: (s ++ [Word.quote])) := by
  refine ⟨List.cons_ne_nil _ _, fun c hc => ?_⟩
  have hquote : Word.quote ≠ ' ' ∧ Word.quote ≠ ',' := by decide
  rcases List.mem_cons.mp hc with rfl | hc
  · exact hquote
  · rcases List.mem_append.mp hc with hc | hc
    · exact ⟨fun h => hblank (h ▸ hc), fun h => hcomma (h ▸ hc)⟩
    · rw [List.mem_singleton.mp hc]
      exact hquote

theorem two_le_string {c : Char} (hc : c = ' ' ∨ c = ',') (hmem : c ∈ s) :
    2 ≤ (tokens (Word.quote :: (s ++ [Word.quote]))).length := by
  obtain ⟨a, b, rfl⟩ := List.append_of_mem hmem
  have hquote : Word.quote ≠ ' ' := by decide
  have hshape : Word.quote :: (a ++ c :: b ++ [Word.quote]) =
      (Word.quote :: a) ++ c :: (b ++ [Word.quote]) := by
    simp
  rw [hshape]
  refine two_le_tokens hc ⟨Word.quote, List.mem_cons_self, hquote⟩ ?_
  exact ⟨Word.quote, List.mem_append_right b (List.mem_singleton.mpr rfl), hquote⟩

theorem faithful_string (h : Word.quote ∉ s) :
    Literal.Faithful undefined (.string s h) before rest ↔ ' ' ∉ s ∧ ',' ∉ s := by
  have hahead : (Literal.string s h).ahead before rest =
      tokens (Word.quote :: (s ++ [Word.quote])) ++ tokens rest := ahead_eq _ before rest
  rw [faithful_of_some rfl, hahead]
  constructor
  · intro hread
    have hone := constant_length hread
    constructor
    · intro hmem
      have htwo := two_le_string (Or.inl rfl) hmem
      omega
    · intro hmem
      have htwo := two_le_string (Or.inr rfl) hmem
      omega
  · rintro ⟨hblank, hcomma⟩
    rw [tokens_unbroken (unbroken_of_string hblank hcomma), List.singleton_append]
    exact constant_string

end Strings

/-- Wherever a literal stands, it is read faithfully if it is a string without blanks and
commas, an `int` without a sign, or a number that is rejected. -/
theorem literal_faithful_iff (undefined : ℕ → Int32) (lit : Literal) (before rest : Text) :
    lit.Faithful undefined before rest ↔ lit.Handled := by
  cases lit with
  | integer negative digits hne h =>
    cases negative with
    | false => exact faithful_digits hne h
    | true => exact faithful_negative hne h
  | string s h => exact faithful_string h

/-- Of a string with a blank the first half is returned, with its quote. -/
theorem constant_cut : constant (converted fun _ => 0)
    ((Literal.string "a b".toList (by decide)).ahead "select a from t where a =".toList []) =
      .ok (.ofString [Word.quote, 'a'], [['b', Word.quote]]) := by
  decide +kernel

theorem not_faithful_blank : ¬ ∀ (undefined : ℕ → Int32) (lit : Literal) (before rest : Text),
    lit.Faithful undefined before rest := by
  intro h
  have hread := h (fun _ => 0) (.string "a b".toList (by decide))
    "select a from t where a =".toList []
  have hcut := hread.symm.trans constant_cut
  cases hcut

end SampleDB.FaithfulLiterals
