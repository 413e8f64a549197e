import SampleDB.BeforeImage
import SampleDB.Endings

/-!
Values at the locations of a page. What is written at a location is read there, and a write
elsewhere leaves it alone, as long as it stays out of the bytes of the location.
-/
namespace SampleDB.PageValues

open Slices Words Pages Rollback BeforeImage Endings

variable {p q : Page} {offset : Int32} {val : Value}

/-- The length of a string is an `int`. -/
def IsShort : Value → Prop
  | .int _ => True
  | .string s => s.length < 2147483648

theorem valueBytes_length (val : Value) : (valueBytes val).length = val.size := by
  cases val with
  | int n => exact encodeInt_length n
  | string s => rw [valueBytes, List.length_append, encodeInt_length, Value.size]

theorem size_string (s : Bytes) : (Value.string s).size = 4 + s.length := rfl

theorem four_le_size (val : Value) : 4 ≤ val.size := by
  cases val <;> simp [Value.size]

theorem setBytes_eq_ok {b : Bytes} (hb : b.length < 2147483648) (hp : p.length < 2147483648)
    (h : p.setBytes offset.toInt b = .ok q) : 0 ≤ offset.toInt ∧
      offset.toInt + 4 + b.length ≤ p.length ∧
        q = splice p offset.toInt.toNat (encodeInt (Int32.ofInt b.length) ++ b) := by
  have hlen : toInt b.length = b.length := toInt_eq _ (by omega) (by omega)
  have hlt := offset.toInt_lt
  have hbounds : 0 ≤ offset.toInt ∧ offset.toInt + 4 + b.length ≤ p.length := by
    have hset := h
    unfold Page.setBytes at hset
    simp only [hlen] at hset
    split at hset
    · cases hset
    · rename_i hsize
      obtain ⟨p', hword, -⟩ := bind_eq_ok.mp hset
      obtain ⟨h0, -, -⟩ := Page.setInt_eq_ok p _ _ p' hlt hword
      have hs := toSize_eq (offset.toInt + 4 + b.length) (by omega) (by omega)
      exact ⟨h0, by omega⟩
  rw [Page.setBytes_ok p offset.toInt b hbounds.1 hbounds.2 hp] at h
  cases h
  exact ⟨hbounds.1, hbounds.2, rfl⟩

/-- A write splices the bytes of its value into the page. -/
theorem set_eq_ok (hval : IsShort val) (hp : p.length < 2147483648)
    (h : set p offset val = .ok q) : 0 ≤ offset.toInt ∧ offset.toInt + val.size ≤ p.length ∧
      q = splice p offset.toInt.toNat (valueBytes val) := by
  cases val with
  | int n => exact Page.setInt_eq_ok p offset.toInt n q offset.toInt_lt h
  | string s =>
    obtain ⟨h0, hle, hq⟩ := setBytes_eq_ok hval hp h
    refine ⟨h0, ?_, hq⟩
    rw [size_string]
    omega

theorem set_length (hval : IsShort val) (hp : p.length < 2147483648)
    (h : set p offset val = .ok q) : q.length = p.length := by
  obtain ⟨h0, hle, rfl⟩ := set_eq_ok hval hp h
  exact splice_length p _ _ (by rw [valueBytes_length]; omega)

/-- The value that was written is read. -/
theorem get_set (hval : IsShort val) (hp : p.length < 2147483648)
    (h : set p offset val = .ok q) : get q offset (kind val) = .ok val := by
  have hlen := set_length hval hp h
  obtain ⟨h0, hle, rfl⟩ := set_eq_ok hval hp h
  have hfit : offset.toInt.toNat + (valueBytes val).length ≤ p.length := by
    rw [valueBytes_length]
    omega
  have hself := slice_splice_self p offset.toInt.toNat (valueBytes val) hfit
  cases val with
  | int n =>
    have hle' : offset.toInt + 4 ≤ p.length := hle
    have hget := Page.getInt_ok (splice p offset.toInt.toNat (valueBytes (.int n))) offset.toInt h0
      (by rw [hlen]; exact hle') offset.toInt_lt
    have hslice : slice (splice p offset.toInt.toNat (valueBytes (.int n))) offset.toInt.toNat 4 =
        encodeInt n := hself
    rw [hslice, decodeInt_encodeInt] at hget
    show (do return Value.int (← Page.getInt _ _)) = _
    rw [hget]
    rfl
  | string s =>
    have hle' : offset.toInt + 4 + s.length ≤ p.length := by
      rw [size_string] at hle
      omega
    have hsplit := splice_append p offset.toInt.toNat (encodeInt (Int32.ofInt s.length)) s
      (by rw [encodeInt_length]; omega)
    have hword : slice (splice p offset.toInt.toNat (valueBytes (.string s))) offset.toInt.toNat 4 =
        encodeInt (Int32.ofInt s.length) := by
      have hone := slice_splice_self p offset.toInt.toNat (encodeInt (Int32.ofInt s.length))
        (by rw [encodeInt_length]; omega)
      rw [encodeInt_length] at hone
      have hfour := encodeInt_length (Int32.ofInt s.length)
      unfold valueBytes
      rw [hsplit, slice_splice_of_disjoint _ _ _ _ _ ?_ (Or.inl (by omega))]
      · exact hone
      · rw [splice_length _ _ _ (by rw [encodeInt_length]; omega), encodeInt_length]
        omega
    have hbytes : slice (splice p offset.toInt.toNat (valueBytes (.string s)))
        (offset.toInt + 4).toNat s.length = s := by
      unfold valueBytes
      rw [hsplit, encodeInt_length, show (offset.toInt + 4).toNat = offset.toInt.toNat + 4 by omega]
      refine slice_splice_self _ _ s ?_
      rw [splice_length _ _ _ (by rw [encodeInt_length]; omega)]
      omega
    have hget := Page.getBytes_ok _ offset.toInt s h0 (by rw [hlen]; exact hle')
      (by rw [hlen]; exact hp) hword hbytes
    show (do return Value.string (← Page.getBytes _ _)) = _
    rw [hget]
    rfl

theorem getInt_congr (hlen : q.length = p.length)
    (hslice : slice q offset.toInt.toNat 4 = slice p offset.toInt.toNat 4) :
    q.getInt offset.toInt = p.getInt offset.toInt := by
  unfold Page.getInt
  rw [hlen, hslice]

/-- A string is read as before where its length word and its characters are. -/
theorem getBytes_congr {q : Page} (hlen : q.length = p.length)
    (hint : q.getInt offset.toInt = p.getInt offset.toInt)
    (hbytes : ∀ s, p.getBytes offset.toInt = .ok s →
      slice q (offset.toInt + 4).toNat s.length = slice p (offset.toInt + 4).toNat s.length) :
    q.getBytes offset.toInt = p.getBytes offset.toInt := by
  cases hget : p.getBytes offset.toInt with
  | ok s =>
    obtain ⟨-, hle, -, hs⟩ := Page.getBytes_eq_ok p offset.toInt s offset.toInt_lt hget
    have hbytes' := hbytes s hget
    unfold Page.getBytes at hget ⊢
    rw [hint, hlen]
    obtain ⟨n, hn, hget⟩ := bind_eq_ok.mp hget
    rw [hn, ok_bind]
    dsimp only at hget ⊢
    split at hget
    · cases hget
    · rename_i hok
      rw [if_neg hok]
      split at hget
      · cases hget
      · rename_i hneg
        rw [if_neg hneg]
        have hlt := n.toInt_lt
        have hlt' := offset.toInt_lt
        have h0 := (Page.getInt_eq_ok p _ n offset.toInt_lt hn).1
        have hs := toSize_eq (offset.toInt + 4 + n.toInt) (by omega) (by omega)
        cases hget
        rw [slice_length p _ n.toInt.toNat (by omega)] at hbytes'
        rw [hbytes']
  | error e =>
    unfold Page.getBytes at hget ⊢
    rw [hint, hlen]
    cases hn : p.getInt offset.toInt with
    | error e' =>
      rw [hn] at hget
      exact hget
    | ok n =>
      rw [hn, ok_bind] at hget
      rw [ok_bind]
      dsimp only at hget ⊢
      split at hget
      · rename_i hout
        rw [if_pos hout]
        exact hget
      · rename_i hok
        rw [if_neg hok]
        split at hget
        · rename_i hneg
          rw [if_pos hneg]
          exact hget
        · cases hget

theorem getInt_splice {i : ℕ} {ys : Bytes} (hfit : i + ys.length ≤ p.length)
    (hdisjoint : offset.toInt + 4 ≤ i ∨ (i + ys.length : ℕ) ≤ offset.toInt) :
    Page.getInt (splice p i ys) offset.toInt = p.getInt offset.toInt := by
  have hlen := splice_length p i ys hfit
  by_cases h0 : 0 ≤ offset.toInt
  · exact getInt_congr hlen (slice_splice_of_disjoint p i ys _ 4 hfit (by omega))
  · unfold Page.getInt
    rw [hlen]
    split
    · rfl
    · rw [if_pos (by omega), if_pos (by omega)]

/-- What is written elsewhere does not change a value that takes at most `cap` bytes. -/
theorem get_splice {i : ℕ} {ys : Bytes} {cap : ℕ} (hfit : i + ys.length ≤ p.length) (k : Kind)
    (hcap : ∀ v, get p offset k = .ok v → v.size ≤ cap) (hfour : 4 ≤ cap)
    (hdisjoint : offset.toInt + cap ≤ i ∨ (i + ys.length : ℕ) ≤ offset.toInt) :
    get (splice p i ys) offset k = get p offset k := by
  have hint : Page.getInt (splice p i ys) offset.toInt = p.getInt offset.toInt :=
    getInt_splice hfit (by omega)
  cases k with
  | int =>
    show (do return Value.int (← Page.getInt _ _)) = (do return Value.int (← Page.getInt _ _))
    rw [hint]
  | string =>
    show (do return Value.string (← Page.getBytes _ _)) =
      (do return Value.string (← Page.getBytes _ _))
    rw [getBytes_congr (splice_length p i ys hfit) hint]
    intro s hget
    have hsize := hcap (.string s) (by
      show (do return Value.string (← Page.getBytes _ _)) = _
      rw [hget]
      rfl)
    obtain ⟨h0, hle, -, -⟩ := Page.getBytes_eq_ok p offset.toInt s offset.toInt_lt hget
    rw [size_string] at hsize
    exact slice_splice_of_disjoint p i ys _ _ hfit (by omega)

/-- What is written outside of its length word leaves a value of the same size. -/
theorem exists_get_splice {i : ℕ} {ys : Bytes} {k : Kind} (hfit : i + ys.length ≤ p.length)
    (hdisjoint : offset.toInt + 4 ≤ i ∨ (i + ys.length : ℕ) ≤ offset.toInt)
    (h : get p offset k = .ok val) :
    ∃ w, get (splice p i ys) offset k = .ok w ∧ kind w = kind val ∧ w.size = val.size := by
  have hint : Page.getInt (splice p i ys) offset.toInt = p.getInt offset.toInt :=
    getInt_splice hfit hdisjoint
  have hlen := splice_length p i ys hfit
  cases k with
  | int =>
    refine ⟨val, ?_, rfl, rfl⟩
    rw [← h]
    show (do return Value.int (← Page.getInt _ _)) = (do return Value.int (← Page.getInt _ _))
    rw [hint]
  | string =>
    obtain ⟨s, hs, hval⟩ := bind_eq_ok.mp h
    cases hval
    obtain ⟨h0, hle, -, -⟩ := Page.getBytes_eq_ok p offset.toInt s offset.toInt_lt hs
    unfold Page.getString Page.getBytes at hs
    obtain ⟨n, hn, hs⟩ := bind_eq_ok.mp hs
    dsimp only at hs
    split at hs
    · cases hs
    · rename_i hsize
      split at hs
      · cases hs
      · rename_i hneg
        cases hs
        refine ⟨.string (slice (splice p i ys) (offset.toInt + 4).toNat n.toInt.toNat), ?_, rfl, ?_⟩
        · show (do return Value.string (← Page.getBytes _ _)) = _
          unfold Page.getBytes
          rw [hint, hn, ok_bind, hlen]
          dsimp only
          rw [if_neg hsize, if_neg hneg]
          rfl
        · have hlt := n.toInt_lt
          have hlt' := offset.toInt_lt
          have hs := toSize_eq (offset.toInt + 4 + n.toInt) (by omega) (by omega)
          rw [size_string, size_string, slice_length _ _ _ (by rw [hlen]; omega),
            slice_length _ _ _ (by omega)]

theorem kind_of_get {k : Kind} (h : get p offset k = .ok val) : kind val = k := by
  cases k with
  | int =>
    obtain ⟨n, -, hn⟩ := bind_eq_ok.mp h
    cases hn
    rfl
  | string =>
    obtain ⟨s, -, hs⟩ := bind_eq_ok.mp h
    cases hs
    rfl

end SampleDB.PageValues
