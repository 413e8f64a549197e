import Mathlib.Algebra.Group.Nat.Defs
import Mathlib.Data.Int.Notation
import Mathlib.Data.Nat.Notation

/-!
Arithmetic on 32-bit integers that stops where a result does not fit or a divisor is zero.
A computation stands for a natural number under a condition: it returns the number where the
condition holds, and stops where it does not.
-/
namespace SampleDB.CheckedInts

section Operations

variable {ε : Type} (e : ε)

def checked (n : ℤ) : Except ε Int32 :=
  if -2147483648 ≤ n ∧ n < 2147483648 then .ok (Int32.ofInt n) else .error e

def add (x y : Int32) : Except ε Int32 := checked e (x.toInt + y.toInt)

def mul (x y : Int32) : Except ε Int32 := checked e (x.toInt * y.toInt)

/-- The quotient is rounded towards zero. -/
def div (x y : Int32) : Except ε Int32 :=
  if y = 0 then .error e else checked e (x.toInt.tdiv y.toInt)

structure Computes (r : Except ε Int32) (P : Prop) (n : ℕ) : Prop where
  fits : P → n < 2147483648
  returns : P → r = .ok (Int32.ofNat n)
  stops : ¬ P → r = .error e

end Operations

section Numbers

variable {ε : Type} {e : ε} {n m : ℕ}

theorem toInt_ofNat (h : n < 2147483648) : (Int32.ofNat n).toInt = n := by
  rw [← Int32.ofInt_eq_ofNat]
  exact Int32.toInt_ofInt_of_le (by omega) (by omega)

theorem ofNat_toInt {x : Int32} (h : 0 ≤ x.toInt) : Int32.ofNat x.toInt.toNat = x := by
  rw [← Int32.ofInt_eq_ofNat, Int.toNat_of_nonneg h, Int32.ofInt_toInt]

theorem computes_ofNat (h : n < 2147483648) : Computes e (.ok (Int32.ofNat n)) True n :=
  ⟨fun _ => h, fun _ => rfl, fun hn => absurd trivial hn⟩

theorem computes_checked : Computes e (checked e (n : ℤ)) (n < 2147483648) n := by
  refine ⟨id, fun h => ?_, fun h => ?_⟩
  · unfold checked
    rw [if_pos ⟨by omega, by omega⟩, Int32.ofInt_eq_ofNat]
  · unfold checked
    rw [if_neg (by omega)]

theorem computes_add (hn : n < 2147483648) (hm : m < 2147483648) :
    Computes e (add e (Int32.ofNat n) (Int32.ofNat m)) (n + m < 2147483648) (n + m) := by
  unfold add
  rw [toInt_ofNat hn, toInt_ofNat hm, ← Int.natCast_add]
  exact computes_checked

theorem computes_mul (hn : n < 2147483648) (hm : m < 2147483648) :
    Computes e (mul e (Int32.ofNat n) (Int32.ofNat m)) (n * m < 2147483648) (n * m) := by
  unfold mul
  rw [toInt_ofNat hn, toInt_ofNat hm, ← Int.natCast_mul]
  exact computes_checked

theorem computes_div (hn : n < 2147483648) (hm : m < 2147483648) (hpos : 0 < m) :
    Computes e (div e (Int32.ofNat n) (Int32.ofNat m)) True (n / m) := by
  have hle : n / m ≤ n := Nat.div_le_self n m
  have hne : Int32.ofNat m ≠ 0 := by
    intro hzero
    have hvalue := toInt_ofNat hm
    rw [hzero] at hvalue
    have : (0 : Int32).toInt = 0 := rfl
    omega
  unfold div
  rw [if_neg hne, toInt_ofNat hn, toInt_ofNat hm, ← Int.ofNat_tdiv]
  have hquotient : Computes e (checked e ((n / m : ℕ) : ℤ)) (n / m < 2147483648) (n / m) :=
    computes_checked
  exact ⟨fun _ => by omega, fun _ => hquotient.returns (by omega), fun h => absurd trivial h⟩

theorem div_ok {x y z : Int32} (h : div e x y = .ok z) :
    y ≠ 0 ∧ z.toInt = x.toInt.tdiv y.toInt := by
  unfold div checked at h
  split at h
  · cases h
  · rename_i hne
    refine ⟨hne, ?_⟩
    split at h
    · rename_i hrange
      cases h
      exact Int32.toInt_ofInt_of_le hrange.1 hrange.2
    · cases h

theorem ofNat_le_iff (hn : n < 2147483648) (hm : m < 2147483648) :
    Int32.ofNat n ≤ Int32.ofNat m ↔ n ≤ m := by
  rw [Int32.le_iff_toInt_le, toInt_ofNat hn, toInt_ofNat hm]
  exact Int.ofNat_le

theorem max_ofNat (hn : n < 2147483648) (hm : m < 2147483648) :
    max (Int32.ofNat n) (Int32.ofNat m) = Int32.ofNat (max n m) := by
  show (if Int32.ofNat n ≤ Int32.ofNat m then Int32.ofNat m else Int32.ofNat n) = _
  by_cases h : n ≤ m
  · rw [if_pos ((ofNat_le_iff hn hm).mpr h), Nat.max_eq_right h]
  · rw [if_neg (fun hle => h ((ofNat_le_iff hn hm).mp hle)), Nat.max_eq_left (by omega)]

end Numbers

section Computations

variable {ε : Type} {e : ε} {r s : Except ε Int32} {P Q : Prop} {n m : ℕ}

theorem Computes.congr (h : Computes e r P n) (hiff : P ↔ Q) : Computes e r Q n :=
  ⟨fun hq => h.fits (hiff.mpr hq), fun hq => h.returns (hiff.mpr hq),
    fun hq => h.stops (fun hp => hq (hiff.mp hp))⟩

theorem Computes.ite {c : Prop} [Decidable c] (h : c → Computes e r P n)
    (h' : ¬ c → Computes e s Q m) :
    Computes e (if c then r else s) (if c then P else Q) (if c then n else m) := by
  by_cases hc : c
  · rw [if_pos hc, if_pos hc, if_pos hc]
    exact h hc
  · rw [if_neg hc, if_neg hc, if_neg hc]
    exact h' hc

/-- What follows is computed from the number. -/
theorem Computes.bind {f : Int32 → Except ε Int32} (h : Computes e r P n)
    (hf : P → Computes e (f (Int32.ofNat n)) Q m) : Computes e (r >>= f) (P ∧ Q) m := by
  refine ⟨fun hpq => (hf hpq.1).fits hpq.2, fun hpq => ?_, fun hpq => ?_⟩
  · rw [h.returns hpq.1]
    exact (hf hpq.1).returns hpq.2
  · by_cases hp : P
    · rw [h.returns hp]
      exact (hf hp).stops (fun hq => hpq ⟨hp, hq⟩)
    · rw [h.stops hp]
      rfl

theorem Computes.mul (h : Computes e r P n) (h' : Computes e s Q m) :
    Computes e (do CheckedInts.mul e (← r) (← s))
      (P ∧ Q ∧ n * m < 2147483648) (n * m) :=
  h.bind (fun hp => h'.bind (fun hq => computes_mul (h.fits hp) (h'.fits hq)))

theorem Computes.div (h : Computes e r P n) (h' : Computes e s Q m) (hpos : 0 < m) :
    Computes e (do CheckedInts.div e (← r) (← s)) (P ∧ Q) (n / m) :=
  (h.bind (fun hp => h'.bind (fun hq => computes_div (h.fits hp) (h'.fits hq) hpos))).congr
    (by rw [and_true])

theorem Computes.max (h : Computes e r P n) (h' : Computes e s Q m) :
    Computes e (do return Max.max (← r) (← s)) (P ∧ Q) (Max.max n m) := by
  have hmax : P → Q → Computes e (.ok (Max.max (Int32.ofNat n) (Int32.ofNat m))) True
      (Max.max n m) := by
    intro hp hq
    rw [max_ofNat (h.fits hp) (h'.fits hq)]
    exact computes_ofNat (Nat.max_lt.mpr ⟨h.fits hp, h'.fits hq⟩)
  exact (h.bind (fun hp => h'.bind (hmax hp))).congr (by rw [and_true])

theorem Computes.min_self (h : Computes e r P n) :
    Computes e (do return Min.min (← r) (← r)) P n := by
  have hmin : ∀ x : Int32, Min.min x x = x := by
    intro x
    show (if x ≤ x then x else x) = x
    rw [ite_self]
  refine ⟨h.fits, fun hp => ?_, fun hp => ?_⟩
  · rw [h.returns hp]
    exact congrArg Except.ok (hmin _)
  · rw [h.stops hp]
    rfl

theorem prod_pos {α : Type} {v : α → ℕ} {l : List α} (hpos : ∀ a ∈ l, 0 < v a) :
    0 < (l.map v).prod := by
  refine List.prod_pos_iff_forall_pos_nat.mpr (fun m hm => ?_)
  obtain ⟨a, ha, rfl⟩ := List.mem_map.mp hm
  exact hpos a ha

/-- Numbers that are not zero are multiplied as long as the whole product fits. -/
theorem computes_prod {α : Type} {g : α → Except ε Int32} {F : α → Prop} {v : α → ℕ}
    {l : List α} (h : ∀ a ∈ l, Computes e (g a) (F a) (v a)) (hpos : ∀ a ∈ l, 0 < v a) {k : ℕ}
    (hk : 0 < k) (hlt : k < 2147483648) :
    Computes e (l.foldlM (fun x a => do CheckedInts.mul e x (← g a)) (Int32.ofNat k))
      ((∀ a ∈ l, F a) ∧ k * (l.map v).prod < 2147483648) (k * (l.map v).prod) := by
  induction l generalizing k with
  | nil =>
    refine ⟨And.right, fun _ => ?_, fun hn => ?_⟩
    · rw [List.map_nil, List.prod_nil, Nat.mul_one]
      rfl
    · exact absurd ⟨by simp, by simpa using hlt⟩ hn
  | cons a l ih =>
    have ha := h a List.mem_cons_self
    have hva := hpos a List.mem_cons_self
    have hrest : 0 < (l.map v).prod := prod_pos (fun b hb => hpos b (List.mem_cons_of_mem a hb))
    have hstep := ha.bind (fun hp => computes_mul (e := e) hlt (ha.fits hp))
    have hprod : k * v a ≤ k * v a * (l.map v).prod := Nat.le_mul_of_pos_right _ hrest
    rw [List.map_cons, List.prod_cons, ← Nat.mul_assoc, List.foldlM_cons]
    refine (hstep.bind (fun hp => ih (fun b hb => h b (List.mem_cons_of_mem a hb))
      (fun b hb => hpos b (List.mem_cons_of_mem a hb)) (Nat.mul_pos hk hva) hp.2)).congr ?_
    rw [List.forall_mem_cons]
    constructor
    · rintro ⟨⟨hp, -⟩, hall, hfits⟩
      exact ⟨⟨hp, hall⟩, hfits⟩
    · rintro ⟨⟨hp, hall⟩, hfits⟩
      exact ⟨⟨hp, by omega⟩, hall, hfits⟩

/-- Where the number is at least `k`, so is what is returned. -/
theorem Computes.defined_iff (h : Computes e r P n) {k : ℤ} (hk : k ≤ n) :
    (∃ x, r = .ok x ∧ k ≤ x.toInt) ↔ P := by
  constructor
  · rintro ⟨x, hx, -⟩
    refine Classical.byContradiction (fun hp => ?_)
    rw [h.stops hp] at hx
    cases hx
  · intro hp
    refine ⟨Int32.ofNat n, h.returns hp, ?_⟩
    rw [toInt_ofNat (h.fits hp)]
    exact hk

end Computations

end SampleDB.CheckedInts
