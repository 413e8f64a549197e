import Mathlib.Data.List.Basic
import Mathlib.Data.Int.Notation

/-!
Machine words. A 32-bit word is kept in memory as four bytes, the lowest first,
and reading those bytes gives the word back in both directions. Integers that
leave their range are reduced as the conversions to a 32-bit signed and to a
64-bit unsigned type reduce them.
-/
namespace SampleDB.Words

abbrev Bytes := List UInt8

/-- The bytes of a 32-bit word in memory. -/
def encodeInt (x : Int32) : Bytes :=
  [UInt8.ofNat x.toUInt32.toNat, UInt8.ofNat (x.toUInt32.toNat / 256),
    UInt8.ofNat (x.toUInt32.toNat / 65536), UInt8.ofNat (x.toUInt32.toNat / 16777216)]

def decodeInt : Bytes → Int32
  | [a, b, c, d] => (UInt32.ofNat
      (a.toNat + 256 * b.toNat + 65536 * c.toNat + 16777216 * d.toNat)).toInt32
  | _ => 0

@[simp] theorem encodeInt_length (x : Int32) : (encodeInt x).length = 4 := rfl

@[simp] theorem decodeInt_encodeInt (x : Int32) : decodeInt (encodeInt x) = x := by
  have hx := x.toUInt32.toNat_lt
  have hsum : x.toUInt32.toNat % 256 + 256 * (x.toUInt32.toNat / 256 % 256) +
      65536 * (x.toUInt32.toNat / 65536 % 256) +
      16777216 * (x.toUInt32.toNat / 16777216 % 256) = x.toUInt32.toNat := by
    omega
  simp only [encodeInt, decodeInt, UInt8.toNat_ofNat', Nat.reducePow, hsum, UInt32.ofNat_toNat,
    Int32.toInt32_toUInt32]

theorem encodeInt_decodeInt (bs : Bytes) (h : bs.length = 4) :
    encodeInt (decodeInt bs) = bs := by
  obtain ⟨a, b, c, d, rfl⟩ : ∃ a b c d, bs = [a, b, c, d] := by
    match bs, h with
    | [a, b, c, d], _ => exact ⟨a, b, c, d, rfl⟩
  have ha := a.toNat_lt
  have hb := b.toNat_lt
  have hc := c.toNat_lt
  have hd := d.toNat_lt
  simp only [encodeInt, decodeInt, UInt32.toUInt32_toInt32, UInt32.toNat_ofNat', Nat.reducePow,
    List.cons.injEq, ← UInt8.toNat_inj, UInt8.toNat_ofNat', and_true]
  refine ⟨?_, ?_, ?_, ?_⟩ <;> omega

/-- The value of an integer converted to a 32-bit signed type. -/
def toInt (n : ℤ) : ℤ := (Int32.ofInt n).toInt

/-- The value of an integer converted to a 64-bit unsigned type. -/
def toSize (n : ℤ) : ℕ := (n % 18446744073709551616).toNat

theorem toInt_range (n : ℤ) : -2147483648 ≤ toInt n ∧ toInt n < 2147483648 :=
  ⟨(Int32.ofInt n).le_toInt, (Int32.ofInt n).toInt_lt⟩

theorem toInt_eq (n : ℤ) (h : -2147483648 ≤ n) (h' : n < 2147483648) : toInt n = n :=
  Int32.toInt_ofInt_of_le h h'

/-- The reduction changes a value by a multiple of `2 ^ 32`. -/
theorem toInt_emod (n : ℤ) : (toInt n - n) % 4294967296 = 0 := by
  have h : toInt n = n.bmod 4294967296 := Int32.toInt_ofInt
  rw [h, Int.bmod_def]
  split <;> omega

@[simp] theorem ofInt_toInt (n : ℤ) : Int32.ofInt (toInt n) = Int32.ofInt n :=
  Int32.ofInt_toInt (Int32.ofInt n)

theorem toSize_eq (n : ℤ) (h : 0 ≤ n) (h' : n < 18446744073709551616) :
    (toSize n : ℤ) = n := by
  unfold toSize
  omega

end SampleDB.Words
