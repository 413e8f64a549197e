import Mathlib.Data.List.Sort
import Mathlib.Data.Sum.Order
import Mathlib.Data.List.Lex
import SampleDB.Rollback

/-!
The comparison of constants. A comparison of an integer with a string follows a null pointer.
Characters are compared as unsigned bytes. Integers in front of strings make one linear order
of all values, which agrees with the comparisons that have a result.
-/
namespace SampleDB.KeyOrder

open Words Pages Rollback

/-- `operator<`. -/
def less : Value → Value → Result Bool
  | .int n, .int m => .ok (n.toInt < m.toInt)
  | .string s, .string s' => .ok (s.map UInt8.toNat < s'.map UInt8.toNat)
  | _, _ => .error .outside

/-- `operator==`. -/
def equal : Value → Value → Result Bool
  | .int n, .int m => .ok (n = m)
  | .string s, .string s' => .ok (s = s')
  | _, _ => .error .outside

/-- `operator>`. -/
def greater : Value → Value → Result Bool
  | .int n, .int m => .ok (n.toInt > m.toInt)
  | .string s, .string s' => .ok (s.map UInt8.toNat > s'.map UInt8.toNat)
  | _, _ => .error .outside

def rank : Value → ℤ ⊕ₗ List ℕ
  | .int n => toLex (Sum.inl n.toInt)
  | .string s => toLex (Sum.inr (s.map UInt8.toNat))

theorem rank_injective : Function.Injective rank := by
  intro a b h
  cases a with
  | int n =>
    cases b with
    | int m => exact congrArg Value.int (Int32.toInt_inj.mp (Sum.inl.inj (toLex.injective h)))
    | string s => cases toLex.injective h
  | string s =>
    cases b with
    | int m => cases toLex.injective h
    | string s' =>
      have hmap := Sum.inr.inj (toLex.injective h)
      exact congrArg Value.string
        (List.map_injective_iff.mpr (fun _ _ => UInt8.toNat_inj.mp) hmap)

instance : LinearOrder Value := LinearOrder.lift' rank rank_injective

/-- Both are integers or both are strings. -/
def SameKind : Value → Value → Prop
  | .int _, .int _ => True
  | .string _, .string _ => True
  | _, _ => False

theorem SameKind.symm {a b : Value} (h : SameKind a b) : SameKind b a := by
  cases a <;> cases b <;> trivial

theorem less_eq {a b : Value} (h : SameKind a b) : less a b = .ok (decide (a < b)) := by
  cases a with
  | int n =>
    cases b with
    | int m => exact congrArg Except.ok (decide_eq_decide.mpr Sum.Lex.inl_lt_inl_iff.symm)
    | string s => exact h.elim
  | string s =>
    cases b with
    | int m => exact h.elim
    | string s' => exact congrArg Except.ok (decide_eq_decide.mpr Sum.Lex.inr_lt_inr_iff.symm)

theorem greater_eq {a b : Value} (h : SameKind a b) : greater a b = .ok (decide (b < a)) := by
  cases a with
  | int n =>
    cases b with
    | int m => exact congrArg Except.ok (decide_eq_decide.mpr Sum.Lex.inl_lt_inl_iff.symm)
    | string s => exact h.elim
  | string s =>
    cases b with
    | int m => exact h.elim
    | string s' => exact congrArg Except.ok (decide_eq_decide.mpr Sum.Lex.inr_lt_inr_iff.symm)

theorem equal_eq {a b : Value} (h : SameKind a b) : equal a b = .ok (decide (a = b)) := by
  cases a with
  | int n =>
    cases b with
    | int m => exact congrArg Except.ok (decide_eq_decide.mpr (Value.int.injEq n m).symm.to_iff)
    | string s => exact h.elim
  | string s =>
    cases b with
    | int m => exact h.elim
    | string s' =>
      exact congrArg Except.ok (decide_eq_decide.mpr (Value.string.injEq s s').symm.to_iff)

end SampleDB.KeyOrder
