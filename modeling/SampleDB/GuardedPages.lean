import SampleDB.RecordPages

/-!
What the accessors of a page touch. Each of them copies bytes from or to the buffer, behind
guards that are computed with unsigned integers of 64 bits. A copy that leaves the buffer has
no defined effect, so a call ends with it.
-/
namespace SampleDB.GuardedPages

open Slices Words Pages

section Accesses

variable {α β : Type}

/-- The bytes that are copied, from an index of the buffer on. -/
structure Window where
  start : ℤ
  size : ℕ

def Window.Inside (n : ℕ) (w : Window) : Prop :=
  ∀ i : ℤ, w.start ≤ i → i < w.start + w.size → 0 ≤ i ∧ i < n

/-- What a call touches, and how it ends. -/
structure Access (α : Type) where
  touched : List Window
  result : Result α

namespace Access

def fail (f : Fault) : Access α := ⟨[], .error f⟩

/-- `memcpy`. -/
def copy (p : Page) (start : ℤ) (size : ℕ) (a : α) : Access α :=
  ⟨[⟨start, size⟩],
    if size = 0 ∨ (0 ≤ start ∧ start + size ≤ p.length) then .ok a else .error .outside⟩

def bind (x : Access α) (f : α → Access β) : Access β :=
  match x.result with
  | .ok a => ⟨x.touched ++ (f a).touched, (f a).result⟩
  | .error e => ⟨x.touched, .error e⟩

def map (f : α → β) (x : Access α) : Access β := ⟨x.touched, x.result.map f⟩

/-- Every byte that is touched is in the buffer. -/
def Guarded (n : ℕ) (x : Access α) : Prop := ∀ w ∈ x.touched, w.Inside n

end Access

end Accesses

section Source

open Access

def getInt (p : Page) (offset : Int32) : Access Int32 :=
  if toSize (offset.toInt + 4) > p.length then fail .exit
  else copy p offset.toInt 4 (decodeInt (slice p offset.toInt.toNat 4))

def setInt (p : Page) (offset n : Int32) : Access Page :=
  if toSize (offset.toInt + 4) > p.length then fail .exit
  else copy p offset.toInt 4 (splice p offset.toInt.toNat (encodeInt n))

/-- A vector of a negative length is not made. -/
def getBytes (p : Page) (offset : Int32) : Access Bytes :=
  (getInt p offset).bind fun len =>
    if toSize (offset.toInt + 4 + len.toInt) > p.length then fail .exit
    else if len.toInt < 0 then fail .exception
    else copy p (offset.toInt + 4) len.toInt.toNat
      (slice p (offset.toInt + 4).toNat len.toInt.toNat)

/-- The size of the vector is converted to an `int`, and back for the copy. -/
def setBytes (p : Page) (offset : Int32) (b : Bytes) : Access Page :=
  let len := toInt b.length
  if toSize (offset.toInt + 4 + len) > p.length then fail .exit
  else (setInt p offset (Int32.ofInt len)).bind fun p =>
    copy p (offset.toInt + 4) (toSize len)
      (splice p (offset.toInt + 4).toNat (b.take len.toNat))

def getString (p : Page) (offset : Int32) : Access Bytes := getBytes p offset

def setString (p : Page) (offset : Int32) (s : Bytes) : Access Page := setBytes p offset s

inductive Call
  | getInt
  | setInt (n : Int32)
  | getBytes
  | setBytes (b : Bytes)
  | getString
  | setString (s : Bytes)

def Call.access (p : Page) (offset : Int32) : Call → Access Unit
  | .getInt => (GuardedPages.getInt p offset).map fun _ => ()
  | .setInt n => (GuardedPages.setInt p offset n).map fun _ => ()
  | .getBytes => (GuardedPages.getBytes p offset).map fun _ => ()
  | .setBytes b => (GuardedPages.setBytes p offset b).map fun _ => ()
  | .getString => (GuardedPages.getString p offset).map fun _ => ()
  | .setString s => (GuardedPages.setString p offset s).map fun _ => ()

/-- The buffer of a page; no vector is longer. -/
structure Buffer where
  page : Page
  fits : page.length < 9223372036854775808

/-- The guard of the word at an offset does its work. -/
def WordGuarded (n : ℕ) (offset : ℤ) : Prop := 0 ≤ offset ∨ offset + 4 < 0 ∨ n < offset + 4

/-- The calls that touch nothing outside of the buffer. -/
def Call.Allowed (n : ℕ) (offset : Int32) : Call → Prop
  | .getInt | .setInt _ | .getBytes | .getString => WordGuarded n offset.toInt
  | .setBytes b | .setString b =>
      (WordGuarded n offset.toInt ∧ 0 ≤ toInt b.length) ∨
        offset.toInt + 4 < 0 ∨ n < offset.toInt + 4 ∨
          offset.toInt + 4 + toInt b.length < 0 ∨ n < offset.toInt + 4 + toInt b.length

end Source

section Copies

variable {α β : Type} {n : ℕ} {x : Access α} {f : α → Access β}

theorem Window.inside_iff (w : Window) :
    w.Inside n ↔ w.size = 0 ∨ (0 ≤ w.start ∧ w.start + w.size ≤ n) := by
  constructor
  · intro h
    by_cases hsize : w.size = 0
    · exact Or.inl hsize
    · have hfirst := h w.start (Int.le_refl _) (by omega)
      have hlast := h (w.start + w.size - 1) (by omega) (by omega)
      exact Or.inr ⟨hfirst.1, by omega⟩
  · intro h i hlow hhigh
    omega

/-- A call ends outside exactly when it has touched a byte there. -/
def Consistent (n : ℕ) (x : Access α) : Prop := x.result = .error .outside ↔ ¬ x.Guarded n

theorem consistent_fail {e : Fault} (h : e ≠ .outside) :
    Consistent n (Access.fail e : Access α) := by
  constructor
  · intro heq
    exact absurd (Except.error.inj heq) h
  · intro hnot
    exact absurd (fun w hw => by cases hw) hnot

theorem consistent_copy (p : Page) (start : ℤ) (size : ℕ) (a : α) :
    Consistent p.length (Access.copy p start size a) := by
  have hguarded : (Access.copy p start size a).Guarded p.length ↔
      size = 0 ∨ (0 ≤ start ∧ start + size ≤ p.length) :=
    List.forall_mem_singleton.trans (Window.inside_iff ⟨start, size⟩)
  unfold Consistent
  rw [hguarded]
  unfold Access.copy
  dsimp only
  split
  · rename_i h
    exact ⟨fun heq => (by cases heq), fun hnot => absurd h hnot⟩
  · rename_i h
    exact ⟨fun _ => h, fun _ => rfl⟩

theorem consistent_bind (hx : Consistent n x) (hf : ∀ a, x.result = .ok a → Consistent n (f a)) :
    Consistent n (x.bind f) := by
  unfold Access.bind
  cases hresult : x.result with
  | error e =>
    unfold Consistent at hx
    rw [hresult] at hx
    have hiff : e = .outside ↔ ¬ x.Guarded n :=
      ⟨fun he => hx.mp (congrArg _ he), fun hn => Except.error.inj (hx.mpr hn)⟩
    exact ⟨fun h => hiff.mp (Except.error.inj h), fun h => congrArg _ (hiff.mpr h)⟩
  | ok a =>
    have hguarded : x.Guarded n := by
      refine Classical.byContradiction (fun hnot => ?_)
      rw [hx.mpr hnot] at hresult
      cases hresult
    refine (hf a hresult).trans (not_congr ?_)
    constructor
    · intro h w hw
      exact (List.mem_append.mp hw).elim (hguarded w) (h w)
    · intro h w hw
      exact h w (List.mem_append_right _ hw)

theorem guarded_iff_result (hx : Consistent n x) : x.Guarded n ↔ x.result ≠ .error .outside := by
  unfold Consistent at hx
  rw [Ne, hx, Classical.not_not]

end Copies

section Calls

variable {p : Page} {offset n : Int32} {b : Bytes}

theorem getInt_consistent : Consistent p.length (getInt p offset) := by
  unfold getInt
  split
  · exact consistent_fail (by decide)
  · exact consistent_copy p _ _ _

theorem setInt_consistent : Consistent p.length (setInt p offset n) := by
  unfold setInt
  split
  · exact consistent_fail (by decide)
  · exact consistent_copy p _ _ _

theorem getBytes_consistent : Consistent p.length (getBytes p offset) := by
  refine consistent_bind getInt_consistent (fun len _ => ?_)
  split
  · exact consistent_fail (by decide)
  · split
    · exact consistent_fail (by decide)
    · exact consistent_copy p _ _ _

/-- The accesses are those of the model of pages, whose offsets are integers. -/
theorem getInt_result : (getInt p offset).result = p.getInt offset.toInt := by
  have hlow := offset.le_toInt
  have hhigh := offset.toInt_lt
  unfold getInt Page.getInt
  split
  · rfl
  · rename_i hguard
    by_cases hneg : offset.toInt < 0
    · rw [if_pos hneg]
      exact if_neg (by omega)
    · have hsize := toSize_eq (offset.toInt + 4) (by omega) (by omega)
      rw [if_neg hneg]
      exact if_pos (Or.inr ⟨by omega, by omega⟩)

theorem setInt_result : (setInt p offset n).result = p.setInt offset.toInt n := by
  have hlow := offset.le_toInt
  have hhigh := offset.toInt_lt
  unfold setInt Page.setInt
  split
  · rfl
  · rename_i hguard
    by_cases hneg : offset.toInt < 0
    · rw [if_pos hneg]
      exact if_neg (by omega)
    · have hsize := toSize_eq (offset.toInt + 4) (by omega) (by omega)
      rw [if_neg hneg]
      exact if_pos (Or.inr ⟨by omega, by omega⟩)

theorem setInt_length {q : Page} (h : (setInt p offset n).result = .ok q) :
    0 ≤ offset.toInt ∧ q.length = p.length := by
  rw [setInt_result] at h
  obtain ⟨hnonneg, hle, rfl⟩ := Page.setInt_eq_ok p _ n q (by have := offset.toInt_lt; omega) h
  exact ⟨hnonneg, splice_length p _ _ (by rw [encodeInt_length]; omega)⟩

theorem setBytes_consistent : Consistent p.length (setBytes p offset b) := by
  unfold setBytes
  dsimp only
  split
  · exact consistent_fail (by decide)
  · refine consistent_bind setInt_consistent (fun q hq => ?_)
    rw [← (setInt_length hq).2]
    exact consistent_copy q _ _ _

theorem bind_result {α β : Type} (x : Access α) (f : α → Access β) :
    (x.bind f).result = x.result >>= fun a => (f a).result := by
  unfold Access.bind
  cases x.result <;> rfl

theorem getBytes_result : (getBytes p offset).result = p.getBytes offset.toInt := by
  unfold getBytes Page.getBytes
  rw [bind_result, getInt_result]
  cases hlen : p.getInt offset.toInt with
  | error e => rfl
  | ok len =>
    obtain ⟨hnonneg, hle, -⟩ :=
      Page.getInt_eq_ok p _ len (by have := offset.toInt_lt; omega) hlen
    have hhigh := offset.toInt_lt
    have hlen := len.toInt_lt
    show Access.result _ = _
    dsimp only [ok_bind]
    split
    · rfl
    · split
      · rfl
      · rename_i hguard hneg
        have hsize := toSize_eq (offset.toInt + 4 + len.toInt) (by omega) (by omega)
        exact if_pos (Or.inr ⟨by omega, by omega⟩)

/-- A guard rejects what is negative or behind the end. -/
theorem toSize_gt_iff {size : ℕ} (hfits : size < 9223372036854775808) {m : ℤ}
    (hlow : -9223372036854775808 ≤ m) (hhigh : m < 9223372036854775808) :
    toSize m > size ↔ m < 0 ∨ size < m := by
  unfold toSize
  omega

theorem setBytes_result (hfits : p.length < 9223372036854775808) :
    (setBytes p offset b).result = p.setBytes offset.toInt b := by
  unfold setBytes Page.setBytes
  dsimp only
  split
  · rfl
  · rename_i hguard
    rw [bind_result, setInt_result]
    cases hset : p.setInt offset.toInt (Int32.ofInt (toInt b.length)) with
    | error e => rfl
    | ok q =>
      have hlength : 0 ≤ offset.toInt ∧ q.length = p.length :=
        setInt_length (setInt_result.trans hset)
      have hhigh := offset.toInt_lt
      have hlen := toInt_range b.length
      rw [toSize_gt_iff hfits (by omega) (by omega)] at hguard
      show Access.result _ = ite _ _ _
      by_cases hneg : toInt b.length < 0
      · have hsize : 9223372036854775808 < toSize (toInt b.length) := by
          unfold toSize
          omega
        rw [if_pos hneg]
        exact if_neg (by omega)
      · have hsize := toSize_eq (toInt b.length) (by omega) (by omega)
        rw [if_neg hneg]
        exact if_pos (Or.inr ⟨by omega, by omega⟩)

end Calls

section Guards

variable {p : Page} {offset n : Int32} {b : Bytes}

theorem getInt_ne_outside (hfits : p.length < 9223372036854775808) :
    p.getInt offset.toInt ≠ .error .outside ↔ WordGuarded p.length offset.toInt := by
  have hlow := offset.le_toInt
  have hhigh := offset.toInt_lt
  have hguard := toSize_gt_iff hfits (m := offset.toInt + 4) (by omega) (by omega)
  unfold Page.getInt WordGuarded
  by_cases hexit : toSize (offset.toInt + 4) > p.length
  · rw [if_pos hexit]
    exact ⟨fun _ => Or.inr (hguard.mp hexit), fun _ h => by cases h⟩
  · rw [if_neg hexit]
    by_cases hneg : offset.toInt < 0
    · rw [if_pos hneg]
      exact ⟨fun h => absurd rfl h, fun h => by omega⟩
    · rw [if_neg hneg]
      exact ⟨fun _ => Or.inl (by omega), fun _ h => by cases h⟩

theorem setInt_ne_outside (hfits : p.length < 9223372036854775808) :
    p.setInt offset.toInt n ≠ .error .outside ↔ WordGuarded p.length offset.toInt := by
  rw [← getInt_ne_outside hfits]
  unfold Page.setInt Page.getInt
  split
  · exact ⟨fun _ h => (by cases h), fun _ h => (by cases h)⟩
  · split
    · exact ⟨fun h => absurd rfl h, fun h => absurd rfl h⟩
    · exact ⟨fun _ h => (by cases h), fun _ h => (by cases h)⟩

/-- Behind the length word a read stays in the page or throws. -/
theorem getBytes_ne_outside (hfits : p.length < 9223372036854775808) :
    p.getBytes offset.toInt ≠ .error .outside ↔ WordGuarded p.length offset.toInt := by
  rw [← getInt_ne_outside hfits]
  unfold Page.getBytes
  cases hlen : p.getInt offset.toInt with
  | error e =>
    exact not_congr ⟨fun h => congrArg _ (Except.error.inj h),
      fun h => congrArg _ (Except.error.inj h)⟩
  | ok len =>
    rw [ok_bind]
    refine ⟨fun _ h => (by cases h), fun _ => ?_⟩
    dsimp only
    split
    · intro h
      cases h
    · split
      · intro h
        cases h
      · intro h
        cases h

theorem setInt_rejects (hfits : p.length < 9223372036854775808)
    (h : offset.toInt + 4 < 0 ∨ p.length < offset.toInt + 4) :
    p.setInt offset.toInt n = .error .exit := by
  have hlow := offset.le_toInt
  have hhigh := offset.toInt_lt
  exact if_pos ((toSize_gt_iff hfits (by omega) (by omega)).mpr h)

theorem setBytes_ne_outside (hfits : p.length < 9223372036854775808) :
    p.setBytes offset.toInt b ≠ .error .outside ↔
      (Call.setBytes b).Allowed p.length offset := by
  have hlow := offset.le_toInt
  have hhigh := offset.toInt_lt
  have hlen := toInt_range b.length
  have hguard := toSize_gt_iff hfits (m := offset.toInt + 4 + toInt b.length)
    (by omega) (by omega)
  unfold Page.setBytes Call.Allowed
  dsimp only
  by_cases hexit : toSize (offset.toInt + 4 + toInt b.length) > p.length
  · rw [if_pos hexit]
    exact ⟨fun _ => Or.inr (Or.inr (Or.inr (hguard.mp hexit))), fun _ h => by cases h⟩
  · rw [if_neg hexit]
    rw [hguard] at hexit
    by_cases hword : offset.toInt + 4 < 0 ∨ p.length < offset.toInt + 4
    · rw [setInt_rejects hfits hword]
      exact ⟨fun _ => Or.inr (by omega), fun _ h => by cases h⟩
    · have hset := @setInt_ne_outside p offset (Int32.ofInt (toInt b.length)) hfits
      by_cases hneg : offset.toInt < 0
      · have hnot : ¬ WordGuarded p.length offset.toInt := by
          unfold WordGuarded
          omega
        have houtside := Classical.not_not.mp (mt hset.mp hnot)
        rw [houtside]
        unfold WordGuarded
        exact ⟨fun h => absurd rfl h, fun h => by omega⟩
      · have hok := Page.setInt_ok p offset.toInt (Int32.ofInt (toInt b.length)) (by omega)
          (by omega) (by omega)
        rw [hok, ok_bind]
        by_cases hshort : toInt b.length < 0
        · rw [if_pos hshort]
          exact ⟨fun h => absurd rfl h, fun h => by omega⟩
        · rw [if_neg hshort]
          exact ⟨fun _ => Or.inl ⟨Or.inl (by omega), by omega⟩, fun _ h => by cases h⟩

end Guards

section Results

theorem guarded_map {α β : Type} {n : ℕ} (f : α → β) (x : Access α) :
    (x.map f).Guarded n ↔ x.Guarded n := Iff.rfl

theorem getInt_guarded {p : Page} (hfits : p.length < 9223372036854775808) (offset : Int32) :
    (getInt p offset).Guarded p.length ↔ WordGuarded p.length offset.toInt := by
  rw [guarded_iff_result getInt_consistent, getInt_result, getInt_ne_outside hfits]

/-- A call touches nothing outside of the page exactly where its guards see the offset and the
length as they are. -/
theorem guarded_iff (buf : Buffer) (offset : Int32) (c : Call) :
    (c.access buf.page offset).Guarded buf.page.length ↔ c.Allowed buf.page.length offset := by
  obtain ⟨p, hfits⟩ := buf
  dsimp only
  have hgetBytes : (getBytes p offset).Guarded p.length ↔ WordGuarded p.length offset.toInt := by
    rw [guarded_iff_result getBytes_consistent, getBytes_result, getBytes_ne_outside hfits]
  have hsetBytes : ∀ b, (setBytes p offset b).Guarded p.length ↔
      (Call.setBytes b).Allowed p.length offset := by
    intro b
    rw [guarded_iff_result setBytes_consistent, setBytes_result hfits, setBytes_ne_outside hfits]
  cases c with
  | getInt => exact (guarded_map _ _).trans (getInt_guarded hfits offset)
  | setInt n =>
    refine (guarded_map _ _).trans ?_
    rw [guarded_iff_result setInt_consistent, setInt_result, setInt_ne_outside hfits]
    rfl
  | getBytes => exact (guarded_map _ _).trans hgetBytes
  | setBytes b => exact (guarded_map _ _).trans (hsetBytes b)
  | getString => exact (guarded_map _ _).trans hgetBytes
  | setString s => exact (guarded_map _ _).trans (hsetBytes s)

/-- The last field of the slot in front of the first one is in front of the page. -/
theorem not_guarded_before : ∃ layout offset,
    RecordPages.Layout.new (.ofFields [(['a'], ⟨.integer, 0⟩)]) = .ok layout ∧
      RecordPages.RecordPage.fieldPos layout (-1) ['a'] = .ok offset ∧
        ¬ (Call.getInt.access (zeroPage 400) offset).Guarded (zeroPage 400).length := by
  refine ⟨_, -4, rfl, rfl, fun h => ?_⟩
  have hlength := zeroPage_length 400
  have hguarded := (getInt_guarded (by omega) (-4)).mp ((guarded_map _ _).mp h)
  unfold WordGuarded at hguarded
  have hoffset : (-4 : Int32).toInt = -4 := rfl
  omega

end Results

end SampleDB.GuardedPages
