import SampleDB.Slices
import SampleDB.Words

/-!
Pages as byte buffers, with the bounds checks of the source: an `int` offset is
converted to `size_t`, the sum wraps at 64 bits and is compared with the size of
the buffer. An access that passes the check at a negative offset lies outside the
buffer. A length word is read from the page, so it can be any 32-bit integer.
-/
namespace SampleDB.Pages

open Slices Words

/-- The ways in which a call does not return. -/
inductive Fault
  | exit
  | exception
  | outside
  deriving DecidableEq, Repr

abbrev Result (α : Type) := Except Fault α

theorem bind_eq_ok {α β : Type} {x : Result α} {f : α → Result β} {b : β} :
    x >>= f = .ok b ↔ ∃ a, x = .ok a ∧ f a = .ok b := by
  cases x with
  | error e => simp [bind, Except.bind]
  | ok a => simp [bind, Except.bind]

theorem map_eq_ok {α β : Type} {x : Result α} {f : α → β} {b : β} :
    x.map f = .ok b ↔ ∃ a, x = .ok a ∧ f a = b := by
  cases x with
  | error e => simp [Except.map]
  | ok a => simp [Except.map]

@[simp] theorem ok_bind {α β : Type} (a : α) (f : α → Result β) :
    (Except.ok a : Result α) >>= f = f a := rfl

theorem toOption_eq_some {α : Type} {x : Result α} {a : α} :
    x.toOption = some a ↔ x = .ok a := by
  cases x with
  | error e => simp [Except.toOption]
  | ok a => simp [Except.toOption]

abbrev Page := Bytes

def zeroPage (blocksize : ℕ) : Page := List.replicate blocksize 0

@[simp] theorem zeroPage_length (blocksize : ℕ) : (zeroPage blocksize).length = blocksize :=
  List.length_replicate

namespace Page

def getInt (p : Page) (offset : ℤ) : Result Int32 :=
  if toSize (offset + 4) > p.length then .error .exit
  else if offset < 0 then .error .outside
  else .ok (decodeInt (slice p offset.toNat 4))

def setInt (p : Page) (offset : ℤ) (n : Int32) : Result Page :=
  if toSize (offset + 4) > p.length then .error .exit
  else if offset < 0 then .error .outside
  else .ok (splice p offset.toNat (encodeInt n))

/-- A negative length that passes the check reaches `std::vector<char>(len)`. -/
def getBytes (p : Page) (offset : ℤ) : Result Bytes := do
  let len := (← p.getInt offset).toInt
  if toSize (offset + 4 + len) > p.length then .error .exit
  else if len < 0 then .error .exception
  else .ok (slice p (offset + 4).toNat len.toNat)

def setBytes (p : Page) (offset : ℤ) (b : Bytes) : Result Page := do
  let len := toInt b.length
  if toSize (offset + 4 + len) > p.length then .error .exit
  else
    let p ← p.setInt offset (Int32.ofInt len)
    if len < 0 then .error .outside
    else .ok (splice p (offset + 4).toNat (b.take len.toNat))

/-- A `std::string` is its bytes. -/
def getString (p : Page) (offset : ℤ) : Result Bytes := p.getBytes offset

def setString (p : Page) (offset : ℤ) (s : Bytes) : Result Page := p.setBytes offset s

end Page

/-- `sizeof(int) + strlen * sizeof(char)`, with the conversions of its argument and result. -/
def maxLength (strlen : ℕ) : ℤ := toInt (4 + toInt strlen)

theorem maxLength_eq (n : ℕ) (h : (n : ℤ) + 4 < 2147483648) : maxLength n = 4 + n := by
  unfold maxLength
  rw [toInt_eq n (by omega) (by omega), toInt_eq _ (by omega) (by omega)]

namespace Page

/-- A read at an offset inside the page succeeds. -/
theorem getInt_ok (p : Page) (offset : ℤ) (h0 : 0 ≤ offset) (h : offset + 4 ≤ p.length)
    (hint : offset < 2147483648) :
    p.getInt offset = .ok (decodeInt (slice p offset.toNat 4)) := by
  have hs := toSize_eq (offset + 4) (by omega) (by omega)
  unfold getInt
  rw [if_neg (by omega), if_neg (by omega)]

theorem setInt_ok (p : Page) (offset : ℤ) (n : Int32) (h0 : 0 ≤ offset)
    (h : offset + 4 ≤ p.length) (hint : offset < 2147483648) :
    p.setInt offset n = .ok (splice p offset.toNat (encodeInt n)) := by
  have hs := toSize_eq (offset + 4) (by omega) (by omega)
  unfold setInt
  rw [if_neg (by omega), if_neg (by omega)]

/-- A read that succeeds has stayed inside the page. -/
theorem getInt_eq_ok (p : Page) (offset : ℤ) (n : Int32) (hint : offset < 2147483648)
    (h : p.getInt offset = .ok n) :
    0 ≤ offset ∧ offset + 4 ≤ p.length ∧ n = decodeInt (slice p offset.toNat 4) := by
  unfold getInt at h
  split at h
  · cases h
  · split at h
    · cases h
    · rename_i hle hneg
      have hs := toSize_eq (offset + 4) (by omega) (by omega)
      cases h
      exact ⟨by omega, by omega, rfl⟩

theorem setInt_eq_ok (p : Page) (offset : ℤ) (n : Int32) (q : Page)
    (hint : offset < 2147483648) (h : p.setInt offset n = .ok q) :
    0 ≤ offset ∧ offset + 4 ≤ p.length ∧ q = splice p offset.toNat (encodeInt n) := by
  unfold setInt at h
  split at h
  · cases h
  · split at h
    · cases h
    · rename_i hle hneg
      have hs := toSize_eq (offset + 4) (by omega) (by omega)
      cases h
      exact ⟨by omega, by omega, rfl⟩

/-- Writing the old value back restores the page. -/
theorem setInt_restore (p : Page) (offset : ℤ) (old n : Int32) (q : Page)
    (hint : offset < 2147483648) (hget : p.getInt offset = .ok old)
    (hset : p.setInt offset n = .ok q) : q.setInt offset old = .ok p := by
  obtain ⟨h0, hle, hold⟩ := getInt_eq_ok p offset old hint hget
  obtain ⟨-, -, hq⟩ := setInt_eq_ok p offset n q hint hset
  have hlen : q.length = p.length := by
    rw [hq]
    exact splice_length p _ _ (by rw [encodeInt_length]; omega)
  have hbytes : encodeInt old = slice p offset.toNat 4 := by
    rw [hold]
    exact encodeInt_decodeInt _ (slice_length p _ 4 (by omega))
  rw [setInt_ok q offset old h0 (by omega) hint, hq,
    splice_splice_self p _ (encodeInt n) (encodeInt old) rfl
    (by rw [encodeInt_length]; omega), hbytes, splice_slice_self p _ 4 (by omega)]

theorem setInt_length (p : Page) (offset : ℤ) (n : Int32) (q : Page)
    (hint : offset < 2147483648) (h : p.setInt offset n = .ok q) : q.length = p.length := by
  obtain ⟨h0, hle, rfl⟩ := setInt_eq_ok p offset n q hint h
  exact splice_length p _ _ (by rw [encodeInt_length]; omega)

theorem getBytes_ok (p : Page) (offset : ℤ) (b : Bytes) (h0 : 0 ≤ offset)
    (hlen : offset + 4 + b.length ≤ p.length) (hint : p.length < 2147483648)
    (hword : slice p offset.toNat 4 = encodeInt (Int32.ofInt b.length))
    (hbytes : slice p (offset + 4).toNat b.length = b) :
    p.getBytes offset = .ok b := by
  have hn : (Int32.ofInt b.length).toInt = b.length := toInt_eq _ (by omega) (by omega)
  have hs := toSize_eq (offset + 4 + b.length) (by omega) (by omega)
  unfold getBytes
  rw [getInt_ok p offset h0 (by omega) (by omega), hword, decodeInt_encodeInt]
  simp only [ok_bind, hn]
  rw [if_neg (by omega), if_neg (by omega), Int.toNat_natCast, hbytes]

/-- A byte vector that was read lies inside the page, behind its own length. -/
theorem getBytes_eq_ok (p : Page) (offset : ℤ) (b : Bytes) (hint : offset < 2147483648)
    (h : p.getBytes offset = .ok b) :
    0 ≤ offset ∧ offset + 4 + b.length ≤ p.length ∧
      (decodeInt (slice p offset.toNat 4)).toInt = b.length ∧
      b = slice p (offset + 4).toNat b.length := by
  unfold getBytes at h
  cases hget : p.getInt offset with
  | error f => rw [hget] at h; cases h
  | ok len =>
    obtain ⟨h0, hle, rfl⟩ := getInt_eq_ok p offset len hint hget
    rw [hget] at h
    simp only [ok_bind] at h
    split at h
    · cases h
    · split at h
      · cases h
      · rename_i hsize hneg
        have hlt := (decodeInt (slice p offset.toNat 4)).toInt_lt
        have hs := toSize_eq (offset + 4 + (decodeInt (slice p offset.toNat 4)).toInt)
          (by omega) (by omega)
        cases h
        rw [slice_length p _ _ (by omega)]
        exact ⟨h0, by omega, by omega, rfl⟩

theorem setBytes_length (p : Page) (offset : ℤ) (b : Bytes) (q : Page)
    (hint : offset < 2147483648) (h : p.setBytes offset b = .ok q) : q.length = p.length := by
  unfold setBytes at h
  dsimp only at h
  split at h
  · cases h
  · rename_i hsize
    obtain ⟨p', hset, h⟩ := bind_eq_ok.mp h
    obtain ⟨h0, hle, -⟩ := setInt_eq_ok p offset _ p' hint hset
    have hlen := setInt_length p offset _ p' hint hset
    split at h
    · cases h
    · rename_i hneg
      have hlt := (toInt_range b.length).2
      have hs := toSize_eq (offset + 4 + toInt b.length) (by omega) (by omega)
      cases h
      rw [splice_length _ _ _ (by simp only [List.length_take]; omega), hlen]

theorem setBytes_ok (p : Page) (offset : ℤ) (b : Bytes) (h0 : 0 ≤ offset)
    (hlen : offset + 4 + b.length ≤ p.length) (hint : p.length < 2147483648) :
    p.setBytes offset b =
      .ok (splice p offset.toNat (encodeInt (Int32.ofInt b.length) ++ b)) := by
  have hn : toInt b.length = b.length := toInt_eq _ (by omega) (by omega)
  have hs := toSize_eq (offset + 4 + b.length) (by omega) (by omega)
  unfold setBytes
  simp only [hn]
  rw [if_neg (by omega), setInt_ok p offset _ h0 (by omega) (by omega)]
  simp only [ok_bind]
  rw [if_neg (by omega), Int.toNat_natCast, List.take_length,
    show (offset + 4).toNat = offset.toNat + 4 by omega]
  congr 1
  exact (splice_append p offset.toNat _ b
    (by simp only [encodeInt_length]; omega)).symm

end Page

/-!
Records are laid out field after field. A buffer that was filled up to its first
`pre.length` bytes and is zero from there on takes the next field at that offset,
and a reader that has reached the offset gets the field back.
-/

theorem splice_zeroPage (pre ys : Bytes) (k : ℕ) :
    splice (pre ++ zeroPage k) pre.length ys = pre ++ ys ++ zeroPage (k - ys.length) := by
  unfold splice zeroPage
  rw [List.take_left, List.drop_append, List.drop_eq_nil_of_le (by omega),
    Nat.add_sub_cancel_left, List.nil_append, List.drop_replicate]

theorem slice_middle (pre ys post : Bytes) :
    slice (pre ++ ys ++ post) pre.length ys.length = ys := by
  unfold slice
  rw [List.append_assoc, List.drop_left, List.take_left]

namespace Page

theorem setInt_fill (pre : Bytes) (k : ℕ) (offset : ℤ) (n : Int32)
    (hoff : offset = pre.length) (hk : 4 ≤ k) (hint : pre.length < 2147483648) :
    setInt (pre ++ zeroPage k) offset n = .ok (pre ++ encodeInt n ++ zeroPage (k - 4)) := by
  rw [setInt_ok _ offset n (by omega)
    (by simp only [List.length_append, zeroPage_length]; omega) (by omega),
    hoff, Int.toNat_natCast, splice_zeroPage, encodeInt_length]

theorem setBytes_fill (pre b : Bytes) (k : ℕ) (offset : ℤ) (hoff : offset = pre.length)
    (hk : 4 + b.length ≤ k) (hint : pre.length + k < 2147483648) :
    setBytes (pre ++ zeroPage k) offset b =
      .ok (pre ++ (encodeInt (Int32.ofInt b.length) ++ b) ++ zeroPage (k - (4 + b.length))) := by
  rw [setBytes_ok _ offset b (by omega)
    (by simp only [List.length_append, zeroPage_length]; omega)
    (by simp only [List.length_append, zeroPage_length]; omega), hoff, Int.toNat_natCast,
    splice_zeroPage]
  simp only [List.length_append, encodeInt_length]

theorem getInt_middle (pre post : Bytes) (offset : ℤ) (n : Int32)
    (hoff : offset = pre.length) (hint : pre.length < 2147483648) :
    getInt (pre ++ encodeInt n ++ post) offset = .ok n := by
  have hs := slice_middle pre (encodeInt n) post
  rw [encodeInt_length] at hs
  rw [getInt_ok _ offset (by omega)
    (by simp only [List.length_append, encodeInt_length]; omega) (by omega), hoff,
    Int.toNat_natCast, hs, decodeInt_encodeInt]

theorem getBytes_middle (pre b post : Bytes) (offset : ℤ) (hoff : offset = pre.length)
    (hint : (pre ++ (encodeInt (Int32.ofInt b.length) ++ b) ++ post).length < 2147483648) :
    getBytes (pre ++ (encodeInt (Int32.ofInt b.length) ++ b) ++ post) offset = .ok b := by
  have hword := slice_middle pre (encodeInt (Int32.ofInt b.length)) (b ++ post)
  have hbytes := slice_middle (pre ++ encodeInt (Int32.ofInt b.length)) b post
  rw [encodeInt_length] at hword
  rw [List.length_append, encodeInt_length] at hbytes
  apply getBytes_ok _ offset b (by omega) _ hint
  · rw [hoff, Int.toNat_natCast]
    simpa only [List.append_assoc] using hword
  · rw [hoff, show ((pre.length : ℤ) + 4).toNat = pre.length + 4 by omega]
    simpa only [List.append_assoc] using hbytes
  · simp only [List.length_append, encodeInt_length]
    omega

end Page

end SampleDB.Pages
