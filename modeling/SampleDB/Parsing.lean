import Mathlib.Algebra.GroupWithZero.Nat
import Mathlib.Data.List.Basic

/-!
Parsers on lists of tokens, and the languages that they read. A list of items with
separators is read by a parser for one item and a test for the separator.
-/
namespace SampleDB.Parsing

variable {τ ε α β : Type}

abbrev Parser (τ ε α : Type) := StateT (List τ) (Except ε) α

/-- One item, and more behind each separator. -/
def listFrom (item : Parser τ ε α) (more : List τ → Bool) (eat : Parser τ ε Unit) :
    ℕ → Parser τ ε (List α)
  | 0 => do
      let x ← item
      return [x]
  | n + 1 => do
      let x ← item
      if more (← get) then
        eat
        let xs ← listFrom item more eat n
        return x :: xs
      else return [x]

section Monad

variable {p : Parser τ ε α} {f : α → Parser τ ε β} {toks rest : List τ}

theorem bind_eq_ok {y : β} : (p >>= f) toks = .ok (y, rest) ↔
    ∃ x mid, p toks = .ok (x, mid) ∧ f x mid = .ok (y, rest) := by
  cases h : p toks with
  | error e =>
    have hbind : (p >>= f) toks = .error e := by
      show (p toks >>= fun r => f r.1 r.2) = _
      rw [h]
      rfl
    rw [hbind]
    simp
  | ok r =>
    have hbind : (p >>= f) toks = f r.1 r.2 := by
      show (p toks >>= fun r => f r.1 r.2) = _
      rw [h]
      rfl
    rw [hbind]
    constructor
    · intro hf
      exact ⟨r.1, r.2, rfl, hf⟩
    · rintro ⟨x, mid, heq, hf⟩
      cases heq
      exact hf

theorem pure_eq_ok {x y : α} :
    (pure x : Parser τ ε α) toks = .ok (y, rest) ↔ x = y ∧ toks = rest := by
  show (Except.ok (x, toks) : Except ε (α × List τ)) = .ok (y, rest) ↔ _
  simp

theorem get_bind (f : List τ → Parser τ ε β) : (get >>= f) toks = f toks toks := rfl

end Monad

/-- On at most `n` tokens the parser accepts the words of the language, whatever follows. -/
def Reads (n : ℕ) (p : Parser τ ε α) (L : List τ → α → Prop) : Prop :=
  ∀ toks x rest, toks.length ≤ n →
    (p toks = .ok (x, rest) ↔ ∃ ts, toks = ts ++ rest ∧ L ts x)

theorem Reads.mono {n m : ℕ} {p : Parser τ ε α} {L : List τ → α → Prop} (h : Reads n p L)
    (hle : m ≤ n) : Reads m p L :=
  fun toks x rest hlen => h toks x rest (Nat.le_trans hlen hle)

/-- One item, or items with separators between them. -/
inductive Separated (L : List τ → α → Prop) (sep : τ → Prop) : List τ → List α → Prop
  | one {ts : List τ} {x : α} (h : L ts x) : Separated L sep ts [x]
  | more {ts rest : List τ} {s : τ} {x : α} {xs : List α} (h : L ts x) (hs : sep s)
      (hrest : Separated L sep rest xs) : Separated L sep (ts ++ s :: rest) (x :: xs)

theorem Separated.mono {L L' : List τ → α → Prop} {sep sep' : τ → Prop} {ts : List τ}
    {xs : List α} (h : Separated L sep ts xs) (hitem : ∀ ts x, L ts x → L' ts x)
    (hsep : ∀ s, sep s → sep' s) : Separated L' sep' ts xs := by
  induction h with
  | one h => exact .one (hitem _ _ h)
  | more h hs _ ih => exact .more (hitem _ _ h) (hsep _ hs) ih

/-- The same, with what is known of the tokens. -/
theorem Separated.mono_of_forall {L L' : List τ → α → Prop} {sep sep' : τ → Prop} {P : τ → Prop}
    {ts : List τ} {xs : List α} (h : Separated L sep ts xs)
    (hitem : ∀ ts x, (∀ t ∈ ts, P t) → L ts x → L' ts x) (hsep : ∀ s, P s → sep s → sep' s)
    (hP : ∀ t ∈ ts, P t) : Separated L' sep' ts xs := by
  induction h with
  | one h => exact .one (hitem _ _ hP h)
  | more h hs _ ih =>
    rw [List.forall_mem_append, List.forall_mem_cons] at hP
    exact .more (hitem _ _ hP.1 h) (hsep _ hP.2.1 hs) (ih hP.2.2)

theorem Separated.forall_mem {L : List τ → α → Prop} {sep : τ → Prop} {P : τ → Prop}
    {ts : List τ} {xs : List α} (h : Separated L sep ts xs)
    (hitem : ∀ ts x, L ts x → ∀ t ∈ ts, P t) (hsep : ∀ s, sep s → P s) : ∀ t ∈ ts, P t := by
  induction h with
  | one h => exact hitem _ _ h
  | more h hs _ ih =>
    rw [List.forall_mem_append, List.forall_mem_cons]
    exact ⟨hitem _ _ h, hsep _ hs, ih⟩

theorem Separated.ne_nil {L : List τ → α → Prop} {sep : τ → Prop} {ts : List τ} {xs : List α}
    (h : Separated L sep ts xs) (hitem : ∀ ts x, L ts x → ts ≠ []) : ts ≠ [] := by
  cases h with
  | one h => exact hitem _ _ h
  | more h hs hrest => simp

/-- Each item keeps what is known of its tokens. -/
theorem Separated.forall_item {L : List τ → α → Prop} {sep : τ → Prop} {P : τ → Prop}
    {Q : α → Prop} {ts : List τ} {xs : List α} (h : Separated L sep ts xs) (hts : ∀ t ∈ ts, P t)
    (hitem : ∀ ts x, (∀ t ∈ ts, P t) → L ts x → Q x) : ∀ x ∈ xs, Q x := by
  induction h with
  | one h => simpa using hitem _ _ hts h
  | more h _ _ ih =>
    rw [List.forall_mem_append, List.forall_mem_cons] at hts
    rw [List.forall_mem_cons]
    exact ⟨hitem _ _ hts.1 h, ih hts.2.2⟩

theorem separated_map {L : List τ → α → Prop} {sep : τ → Prop} (f : α → β) {ts : List τ}
    {ys : List β} : Separated (fun ts y => ∃ x, L ts x ∧ y = f x) sep ts ys ↔
      ∃ xs, Separated L sep ts xs ∧ ys = xs.map f := by
  constructor
  · intro h
    induction h with
    | one h =>
      obtain ⟨x, hx, rfl⟩ := h
      exact ⟨[x], .one hx, rfl⟩
    | more h hs _ ih =>
      obtain ⟨x, hx, rfl⟩ := h
      obtain ⟨xs, hxs, rfl⟩ := ih
      exact ⟨x :: xs, .more hx hs hxs, rfl⟩
  · rintro ⟨xs, h, rfl⟩
    induction h with
    | one h => exact .one ⟨_, h, rfl⟩
    | more h hs _ ih => exact .more ⟨_, h, rfl⟩ hs ih

section ListFrom

variable {item : Parser τ ε α} {more : List τ → Bool} {eat : Parser τ ε Unit}
  {L : List τ → α → Prop} {sep : τ → Prop}

/-- What separates items is one token, and the next token decides whether it is there. -/
structure Separator (more : List τ → Bool) (eat : Parser τ ε Unit) (sep : τ → Prop) : Prop where
  more_iff : ∀ toks, more toks = true ↔ ∃ s rest, toks = s :: rest ∧ sep s
  eat_iff : ∀ toks u rest, eat toks = .ok (u, rest) ↔ ∃ s, toks = s :: rest ∧ sep s

/-- The list ends where no separator follows. -/
theorem listFrom_eq_ok {n : ℕ} (hitem : Reads n item L) (hsep : Separator more eat sep)
    (hpos : ∀ ts x, L ts x → ts ≠ []) {m : ℕ} {toks rest : List τ} {xs : List α}
    (hn : toks.length ≤ n) (hm : toks.length ≤ m) :
    listFrom item more eat m toks = .ok (xs, rest) ↔
      ∃ ts, toks = ts ++ rest ∧ Separated L sep ts xs ∧ more rest = false := by
  induction m generalizing toks xs with
  | zero =>
    have hnil : toks = [] := List.length_eq_zero_iff.mp (Nat.le_zero.mp hm)
    constructor
    · intro h
      obtain ⟨x, mid, hx, -⟩ := bind_eq_ok.mp h
      obtain ⟨ts, heq, hL⟩ := (hitem toks x mid hn).mp hx
      rw [hnil] at heq
      exact absurd (List.append_eq_nil_iff.mp heq.symm).1 (hpos ts x hL)
    · rintro ⟨ts, heq, hts, -⟩
      rw [hnil] at heq
      exact absurd (List.append_eq_nil_iff.mp heq.symm).1 (hts.ne_nil hpos)
  | succ m ih =>
    constructor
    · intro h
      obtain ⟨x, mid, hx, hgo⟩ := bind_eq_ok.mp h
      obtain ⟨ts, rfl, hL⟩ := (hitem toks x mid hn).mp hx
      rw [get_bind] at hgo
      by_cases hmore : more mid = true
      · rw [if_pos hmore] at hgo
        obtain ⟨u, tail, heat, hlist⟩ := bind_eq_ok.mp hgo
        obtain ⟨s, rfl, hs⟩ := (hsep.eat_iff _ _ _).mp heat
        obtain ⟨xs', rest', hrest, hret⟩ := bind_eq_ok.mp hlist
        obtain ⟨rfl, rfl⟩ := pure_eq_ok.mp hret
        rw [List.length_append, List.length_cons] at hn hm
        obtain ⟨ts', rfl, hts', hend⟩ := (ih (by omega) (by omega)).mp hrest
        exact ⟨ts ++ s :: ts', by rw [List.append_assoc]; rfl, .more hL hs hts', hend⟩
      · rw [if_neg hmore] at hgo
        obtain ⟨rfl, rfl⟩ := pure_eq_ok.mp hgo
        exact ⟨ts, rfl, .one hL, Bool.eq_false_iff.mpr hmore⟩
    · rintro ⟨ts, rfl, hts, hend⟩
      cases hts with
      | one hL =>
        refine bind_eq_ok.mpr ⟨_, rest, (hitem _ _ _ hn).mpr ⟨ts, rfl, hL⟩, ?_⟩
        rw [get_bind, hend]
        exact pure_eq_ok.mpr ⟨rfl, rfl⟩
      | @more ts ts' s x xs hL hs hrest =>
        have hassoc : ts ++ s :: ts' ++ rest = ts ++ s :: (ts' ++ rest) := by
          rw [List.append_assoc]
          rfl
        rw [hassoc] at hn hm ⊢
        refine bind_eq_ok.mpr ⟨x, _, (hitem _ _ _ hn).mpr ⟨ts, rfl, hL⟩, ?_⟩
        rw [get_bind, if_pos ((hsep.more_iff _).mpr ⟨s, _, rfl, hs⟩)]
        refine bind_eq_ok.mpr ⟨(), _, (hsep.eat_iff _ _ _).mpr ⟨s, rfl, hs⟩, ?_⟩
        rw [List.length_append, List.length_cons] at hn hm
        refine bind_eq_ok.mpr ⟨xs, rest, (ih (by omega) (by omega)).mpr ⟨ts', rfl, hrest, hend⟩, ?_⟩
        exact pure_eq_ok.mpr ⟨rfl, rfl⟩

end ListFrom

end SampleDB.Parsing
