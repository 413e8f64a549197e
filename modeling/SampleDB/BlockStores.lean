import SampleDB.FileMgrs
import SampleDB.Runs

/-!
FileMgr is a block store as long as its offsets and file lengths fit an `int` and no read
meets a block that is present in part. What was last written to each block is kept beside
the files, and the blocks of the files agree with it.
-/
namespace SampleDB.BlockStores

open Slices Words Pages SparseLists FileMgrs Runs

variable {Name : Type} [DecidableEq Name] {B : BlockBytes}

/-- The block of a file, with zeros for what is not there. -/
def blockOf (B : BlockBytes) (content : Bytes) (number : Int32) : Page :=
  if number.toInt < 0 then zeroPage B.bytes
  else window 0 content (number.toInt.toNat * B.bytes) B.bytes

def block (B : BlockBytes) (m : FileMgr Name) (f : Name) (number : Int32) : Page :=
  blockOf B (m.content f) number

/-- What was last written to each block. -/
abbrev Written (Name : Type) := Name → Int32 → Page

def Written.set (w : Written Name) (f : Name) (number : Int32) (p : Page) : Written Name :=
  Function.update w f (Function.update (w f) number p)

def Written.after (w : Written Name) : Op Name B → Outcome → Written Name
  | .append f, .appended number => w.set f number (zeroPage B.bytes)
  | .write f number p, _ => w.set f number p.1
  | _, _ => w

/-- The block that a call writes. -/
def Targets : Op Name B → Outcome → Name → Int32 → Prop
  | .append f, .appended number, f', number' => f' = f ∧ number' = number
  | .write f number _, _, f', number' => f' = f ∧ number' = number
  | _, _, _, _ => False

/-- A call as a block store answers it. -/
structure StoreStep (m : FileMgr Name) (w : Written Name) (op : Op Name B) (out : Outcome)
    (m' : FileMgr Name) : Prop where
  append : ∀ f, op = .append f →
    out = .appended (m.length B f) ∧ (m'.length B f).toInt = (m.length B f).toInt + 1
  read : ∀ f number p, op = .read f number p → out = .page (w f number)
  other : ∀ f number, ¬ Targets op out f number → block B m' f number = block B m f number

/-- The offset of the block as an integer without bounds. -/
def place (B : BlockBytes) (number : Int32) : ℤ := number.toInt * B.bytes

/-- The offsets of the call and the length of the file fit an `int`, and the block to read is
there as a whole or not at all. A block that is not there may also be looked for elsewhere,
where there is nothing either. -/
def Clean (B : BlockBytes) (m : FileMgr Name) : Op Name B → Prop
  | .append f => ((m.content f).length / B.bytes + 1) * B.bytes < 2147483648
  | .write _ number _ => 0 ≤ place B number ∧ place B number < 2147483648
  | .read f number _ =>
      (0 ≤ place B number ∧ place B number < 2147483648 ∧
        ¬ (place B number < (m.content f).length ∧
          (m.content f).length < place B number + B.bytes)) ∨
      ((place B number < 0 ∨ (m.content f).length ≤ place B number) ∧
        (toInt (place B number) < 0 ∨ (m.content f).length ≤ toInt (place B number)))

/-- No stream has failed, and every block is what was last written to it. -/
structure Agrees (B : BlockBytes) (m : FileMgr Name) (w : Written Name) : Prop where
  good : ∀ f s, m.openFiles f = some s → s.failbit = false
  blocks : ∀ f number, block B m f number = w f number

/-- A call whose conditions are met, with what it writes. -/
def CleanStep (s : FileMgr Name × Written Name) (op : Op Name B)
    (s' : FileMgr Name × Written Name) : Prop :=
  Clean B s.1 op ∧ s'.1 = (s.1.step op).2 ∧ s'.2 = s.2.after op (s.1.step op).1

section Places

variable {content : Bytes} {number other : Int32} {m : FileMgr Name} {w : Written Name} {f : Name}

theorem place_nonneg (h : 0 ≤ number.toInt) : 0 ≤ place B number :=
  Int.mul_nonneg h (Int.natCast_nonneg _)

theorem place_neg (h : number.toInt < 0) : place B number < 0 :=
  Int.mul_neg_of_neg_of_pos h (Int.natCast_pos.mpr B.pos)

theorem nonneg_of_place (h : 0 ≤ place B number) : 0 ≤ number.toInt := by
  by_contra hneg
  exact absurd h (Int.not_le.mpr (place_neg (Int.not_le.mp hneg)))

theorem place_toNat (h : 0 ≤ number.toInt) :
    (place B number).toNat = number.toInt.toNat * B.bytes := by
  unfold place
  rw [Int.toNat_mul h (Int.natCast_nonneg _), Int.toNat_natCast]

theorem blockOf_nonneg (h : 0 ≤ number.toInt) :
    blockOf B content number = window 0 content (place B number).toNat B.bytes := by
  unfold blockOf
  rw [if_neg (Int.not_lt.mpr h), place_toNat h]

theorem blockOf_neg (h : number.toInt < 0) : blockOf B content number = zeroPage B.bytes :=
  if_pos h

theorem blockOf_behind (h : place B number < 0 ∨ content.length ≤ place B number) :
    blockOf B content number = zeroPage B.bytes := by
  by_cases hneg : number.toInt < 0
  · exact blockOf_neg hneg
  · have hnonneg : 0 ≤ number.toInt := Int.not_lt.mp hneg
    have hplace := place_nonneg (B := B) hnonneg
    rw [blockOf_nonneg hnonneg]
    apply window_behind
    omega

/-- The blocks of different numbers have no byte in common. -/
theorem disjoint_places (h : 0 ≤ number.toInt) (h' : 0 ≤ other.toInt) (hne : other ≠ number) :
    (place B number).toNat + B.bytes ≤ (place B other).toNat ∨
      (place B other).toNat + B.bytes ≤ (place B number).toNat := by
  have hint : other.toInt ≠ number.toInt := fun heq => hne (Int32.toInt_inj.mp heq)
  rw [place_toNat h, place_toNat h', ← Nat.succ_mul, ← Nat.succ_mul]
  rcases Nat.lt_trichotomy number.toInt.toNat other.toInt.toNat with hlt | heq | hgt
  · exact Or.inl (Nat.mul_le_mul_right _ hlt)
  · exact absurd heq (by omega)
  · exact Or.inr (Nat.mul_le_mul_right _ hgt)

/-- A block that is written is found again, and no other one changes. -/
theorem blockOf_writeAt (h : 0 ≤ number.toInt) (p : Block B) :
    blockOf B (writeAt 0 content (place B number).toNat p.1) other =
      if other = number then p.1 else blockOf B content other := by
  by_cases heq : other = number
  · have hself : window 0 (writeAt 0 content (place B number).toNat p.1) (place B number).toNat
        p.1.length = p.1 := window_writeAt_self
    rw [if_pos heq, heq, blockOf_nonneg h]
    rw [p.2] at hself
    exact hself
  · rw [if_neg heq]
    by_cases hneg : other.toInt < 0
    · rw [blockOf_neg hneg, blockOf_neg hneg]
    · have hother : 0 ≤ other.toInt := Int.not_lt.mp hneg
      rw [blockOf_nonneg hother, blockOf_nonneg hother]
      apply window_writeAt_other
      rw [p.2]
      exact disjoint_places h hother heq

end Places

section Files

variable {m : FileMgr Name} {w : Written Name} {f g : Name} {s : Stream} {content : Bytes}

theorem put_content_self : (m.put f s content).content f = content := by
  unfold FileMgr.put FileMgr.content
  dsimp only
  rw [Function.update_self]
  rfl

theorem put_content_ne (h : g ≠ f) : (m.put f s content).content g = m.content g := by
  unfold FileMgr.put FileMgr.content
  dsimp only
  rw [Function.update_of_ne h]

/-- Opening a file changes no content. -/
theorem getFile_content : (m.getFile f).2.content g = m.content g := by
  unfold FileMgr.getFile
  cases m.openFiles f with
  | some s => rfl
  | none =>
    by_cases h : g = f
    · rw [h]
      exact put_content_self
    · exact put_content_ne h

theorem getFile_good (h : ∀ f s, m.openFiles f = some s → s.failbit = false) :
    (m.getFile f).1.failbit = false ∧
      ∀ g s, (m.getFile f).2.openFiles g = some s → s.failbit = false := by
  unfold FileMgr.getFile
  cases hopen : m.openFiles f with
  | some s => exact ⟨h f s hopen, h⟩
  | none =>
    refine ⟨rfl, fun g s hg => ?_⟩
    have hupdate : Function.update m.openFiles f (some Stream.new) g = some s := hg
    by_cases heq : g = f
    · rw [heq, Function.update_self] at hupdate
      rw [← Option.some.inj hupdate]
      rfl
    · rw [Function.update_of_ne heq] at hupdate
      exact h g s hupdate

theorem put_good (h : ∀ f s, m.openFiles f = some s → s.failbit = false)
    (hs : s.failbit = false) :
    ∀ g s', (m.put f s content).openFiles g = some s' → s'.failbit = false := by
  intro g s' hg
  have hupdate : Function.update m.openFiles f (some s) g = some s' := hg
  by_cases heq : g = f
  · rw [heq, Function.update_self] at hupdate
    rw [← Option.some.inj hupdate]
    exact hs
  · rw [Function.update_of_ne heq] at hupdate
    exact h g s' hupdate

omit [DecidableEq Name] in
theorem length_eq :
    m.length B f = Int32.ofInt ((toInt (m.content f).length).tdiv B.bytes) := by
  unfold FileMgr.length FileMgr.content
  cases m.files f with
  | some content => rfl
  | none => exact congrArg Int32.ofInt (Int.zero_tdiv _).symm

omit [DecidableEq Name] in
/-- A length in bytes that fits an `int`. -/
theorem length_toInt (h : (m.content f).length < 2147483648) :
    (m.length B f).toInt = ((m.content f).length / B.bytes : ℕ) := by
  have hdiv : (m.content f).length / B.bytes ≤ (m.content f).length := Nat.div_le_self _ _
  have htdiv : ((m.content f).length : ℤ).tdiv B.bytes =
      ((m.content f).length / B.bytes : ℕ) := rfl
  rw [length_eq, toInt_eq _ (by omega) (by omega), htdiv]
  generalize (m.content f).length / B.bytes = count at hdiv
  exact toInt_eq (count : ℤ) (by omega) (by omega)

/-- The file after a write at an offset in front of which the stream has not failed. -/
theorem seek_write {offset : ℤ} (hs : s.failbit = false) (hoffset : 0 ≤ offset) (b : Bytes) :
    (s.seekp offset).write content b =
      (⟨offset.toNat + b.length, false⟩, writeAt 0 content offset.toNat b) := by
  have hseek : s.seekp offset = ⟨offset.toNat, false⟩ := by
    unfold Stream.seekp
    rw [hs, if_neg Bool.false_ne_true, if_neg (Int.not_lt.mpr hoffset)]
  rw [hseek]
  rfl

theorem toInt_place {number : Int32} (h : 0 ≤ place B number) (h' : place B number < 2147483648) :
    toInt (number.toInt * B.bytes) = place B number :=
  toInt_eq (place B number) (Int.le_trans (by decide) h) h'

end Files

section Steps

variable {m m' : FileMgr Name} {w : Written Name} {f g : Name} {number other : Int32}

theorem Written.set_self (w : Written Name) (p : Page) : w.set f number p f number = p := by
  unfold Written.set
  rw [Function.update_self, Function.update_self]

theorem Written.set_other {p : Page} (h : ¬ (g = f ∧ other = number)) :
    w.set f number p g other = w g other := by
  unfold Written.set
  by_cases hf : g = f
  · subst hf
    rw [Function.update_self, Function.update_of_ne (fun heq => h ⟨rfl, heq⟩)]
  · rw [Function.update_of_ne hf]

/-- A block is written at its place. -/
theorem stores (hgood : ∀ f s, m.openFiles f = some s → s.failbit = false) (h : 0 ≤ place B number)
    (p : Block B) (hput : m' = (m.getFile f).2.put f
      ⟨(place B number).toNat + p.1.length, false⟩
      (writeAt 0 (m.content f) (place B number).toNat p.1)) :
    (∀ g s, m'.openFiles g = some s → s.failbit = false) ∧ block B m' f number = p.1 ∧
      ∀ g other, ¬ (g = f ∧ other = number) → block B m' g other = block B m g other := by
  have hself : m'.content f = writeAt 0 (m.content f) (place B number).toNat p.1 := by
    rw [hput]
    exact put_content_self
  refine ⟨?_, ?_, fun g other hne => ?_⟩
  · rw [hput]
    exact put_good (getFile_good hgood).2 rfl
  · unfold block
    rw [hself, blockOf_writeAt (nonneg_of_place h), if_pos rfl]
  · unfold block
    by_cases hf : g = f
    · rw [hf, hself, blockOf_writeAt (nonneg_of_place h), if_neg (fun heq => hne ⟨hf, heq⟩)]
    · rw [hput, put_content_ne hf, getFile_content]

theorem write_eq (hgood : ∀ f s, m.openFiles f = some s → s.failbit = false)
    (h : 0 ≤ place B number) (h' : place B number < 2147483648) (p : Block B) :
    m.write B f number p = (m.getFile f).2.put f ⟨(place B number).toNat + p.1.length, false⟩
      (writeAt 0 (m.content f) (place B number).toNat p.1) := by
  unfold FileMgr.write
  dsimp only
  rw [toInt_place h h', getFile_content, seek_write (getFile_good hgood).1 h]

omit [DecidableEq Name] in
/-- The new block is behind the ones that are there as a whole. -/
theorem append_place (h : (m.content f).length < 2147483648) :
    place B (m.length B f) = ((m.content f).length / B.bytes * B.bytes : ℕ) := by
  unfold place
  rw [length_toInt h]
  rfl

theorem append_eq (hgood : ∀ f s, m.openFiles f = some s → s.failbit = false)
    (h : (m.content f).length < 2147483648) :
    m.append B f = (m.length B f, (m.getFile f).2.put f
      ⟨(place B (m.length B f)).toNat + (zeroBlock B).1.length, false⟩
      (writeAt 0 (m.content f) (place B (m.length B f)).toNat (zeroBlock B).1)) := by
  have hlength : (m.getFile f).2.length B f = m.length B f := by
    rw [length_eq, length_eq, getFile_content]
  have hplace := append_place (B := B) h
  have hle : (m.content f).length / B.bytes * B.bytes ≤ (m.content f).length :=
    Nat.div_mul_le_self _ _
  unfold FileMgr.append
  dsimp only
  rw [hlength, toInt_place (by rw [hplace]; exact Int.natCast_nonneg _) (by omega), getFile_content,
    seek_write (getFile_good hgood).1 (by rw [hplace]; exact Int.natCast_nonneg _)]

omit [DecidableEq Name] in
/-- After an append the file has one more block. -/
theorem append_length (h : ((m.content f).length / B.bytes + 1) * B.bytes < 2147483648)
    (hput : m'.content f = writeAt 0 (m.content f)
      ((m.content f).length / B.bytes * B.bytes) (zeroBlock B).1) :
    (m'.length B f).toInt = (m.length B f).toInt + 1 := by
  have hlt : (m.content f).length < ((m.content f).length / B.bytes + 1) * B.bytes :=
    Nat.lt_mul_of_div_lt (Nat.lt_succ_self _) B.pos
  have hlen : (m'.content f).length = ((m.content f).length / B.bytes + 1) * B.bytes := by
    rw [hput, writeAt_length, (zeroBlock B).2]
    rw [Nat.succ_mul] at hlt ⊢
    omega
  rw [length_toInt (by omega), length_toInt (by omega), hlen, Nat.mul_div_cancel _ B.pos]
  rfl

/-- A page of which every byte is replaced. -/
theorem splice_whole {xs ys : Bytes} (h : xs.length ≤ ys.length) : splice xs 0 ys = ys := by
  unfold splice
  rw [List.take_zero, List.nil_append, Nat.zero_add, List.drop_eq_nil_of_le h, List.append_nil]

theorem fill_nil (p : Block B) : FileMgr.fill B p.1 [] = zeroPage B.bytes := by
  have hsplice : splice p.1 0 [] = p.1 := rfl
  unfold FileMgr.fill
  dsimp only
  rw [List.length_nil, if_pos B.pos, Nat.sub_zero, hsplice]
  exact splice_whole (Nat.le_of_eq (p.2.trans (zeroPage_length B.bytes).symm))

theorem fill_whole (p : Block B) {got : Bytes} (h : got.length = B.bytes) :
    FileMgr.fill B p.1 got = got := by
  unfold FileMgr.fill
  dsimp only
  rw [h, if_neg (Nat.lt_irrefl _)]
  exact splice_whole (Nat.le_of_eq (p.2.trans h.symm))

/-- Reads change no content, and leave a stream that has not failed. -/
theorem read_files (hgood : ∀ f s, m.openFiles f = some s → s.failbit = false) (p : Block B) :
    (∀ g s, (m.read B f number p).2.openFiles g = some s → s.failbit = false) ∧
      ∀ g, (m.read B f number p).2.content g = m.content g := by
  unfold FileMgr.read
  dsimp only
  constructor
  · apply put_good (getFile_good hgood).2
    generalize (m.getFile f).1.seekp (toInt (number.toInt * B.bytes)) = s
    unfold Stream.read
    by_cases hfail : s.failbit = true
    · rw [if_pos hfail]
      exact congrArg Stream.failbit (if_pos B.pos)
    · rw [if_neg hfail]
      dsimp only
      by_cases hshort : (slice ((m.getFile f).2.content f) s.position B.bytes).length < B.bytes
      · rw [if_pos hshort]
        rfl
      · rw [if_neg hshort]
        exact decide_eq_false hshort
  · intro g
    by_cases hg : g = f
    · rw [hg, put_content_self, getFile_content]
    · rw [put_content_ne hg, getFile_content]

/-- A clean read gives the block. -/
theorem read_clean (hgood : ∀ f s, m.openFiles f = some s → s.failbit = false) (p : Block B)
    (hclean : Clean B m (.read f number p)) : (m.read B f number p).1 = block B m f number := by
  have hnew := (getFile_good (f := f) hgood).1
  unfold FileMgr.read block
  dsimp only
  rw [getFile_content]
  show FileMgr.fill B p.1 (Stream.read ((m.getFile f).1.seekp (toInt (place B number)))
    (m.content f) B.bytes).2 = blockOf B (m.content f) number
  generalize (m.getFile f).1 = s at hnew
  have hread : 0 ≤ toInt (place B number) →
      ((s.seekp (toInt (place B number))).read (m.content f) B.bytes).2 =
        slice (m.content f) (toInt (place B number)).toNat B.bytes := by
    intro hoffset
    unfold Stream.seekp
    rw [hnew, if_neg Bool.false_ne_true, if_neg (Int.not_lt.mpr hoffset)]
    rfl
  have hnothing : 0 ≤ toInt (place B number) →
      ((m.content f).length : ℤ) ≤ toInt (place B number) →
      ((s.seekp (toInt (place B number))).read (m.content f) B.bytes).2 = [] := by
    intro hoffset hle
    rw [hread hoffset]
    unfold slice
    rw [List.drop_eq_nil_of_le (by omega), List.take_nil]
  rcases hclean with ⟨hplace, hlt, hpart⟩ | ⟨hbehind, hoffset⟩
  · have hsame : toInt (place B number) = place B number := toInt_place hplace hlt
    by_cases hin : place B number < (m.content f).length
    · have hwhole : (place B number).toNat + B.bytes ≤ (m.content f).length := by omega
      rw [hread (by rw [hsame]; exact hplace), hsame, blockOf_nonneg (nonneg_of_place hplace),
        slice_eq_window hwhole, fill_whole p window_length]
    · rw [hnothing (by rw [hsame]; exact hplace) (by rw [hsame]; exact Int.not_lt.mp hin),
        fill_nil, blockOf_behind (Or.inr (Int.not_lt.mp hin))]
  · have hnil : ((s.seekp (toInt (place B number))).read (m.content f) B.bytes).2 = [] := by
      by_cases hneg : toInt (place B number) < 0
      · unfold Stream.seekp
        rw [hnew, if_neg Bool.false_ne_true, if_pos hneg]
        rfl
      · exact hnothing (Int.not_lt.mp hneg) (hoffset.resolve_left hneg)
    rw [hnil, fill_nil, blockOf_behind hbehind]

/-- What a clean call keeps. -/
theorem step_clean (h : Agrees B m w) (op : Op Name B) (hclean : Clean B m op) :
    StoreStep m w op (m.step op).1 (m.step op).2 ∧
      Agrees B (m.step op).2 (w.after op (m.step op).1) := by
  cases op with
  | append f =>
    have hclean : ((m.content f).length / B.bytes + 1) * B.bytes < 2147483648 := hclean
    have hlt : (m.content f).length < ((m.content f).length / B.bytes + 1) * B.bytes :=
      Nat.lt_mul_of_div_lt (Nat.lt_succ_self _) B.pos
    have hplace := append_place (B := B) (f := f) (Nat.lt_trans hlt hclean)
    have hrun := append_eq (B := B) h.good (Nat.lt_trans hlt hclean)
    have hnonneg : 0 ≤ place B (m.length B f) := by
      rw [hplace]
      exact Int.natCast_nonneg _
    obtain ⟨hgood, hself, hother⟩ := stores h.good hnonneg (zeroBlock B) (congrArg Prod.snd hrun)
    have hnumber : (m.append B f).1 = m.length B f := congrArg Prod.fst hrun
    have hout : (m.step (.append f : Op Name B)).1 = .appended (m.length B f) :=
      congrArg Outcome.appended hnumber
    rw [hout]
    refine ⟨⟨fun f' hf => ?_, fun _ _ _ hf => (by cases hf), fun g other hne => hother g other hne⟩,
      hgood, fun g other => ?_⟩
    · cases hf
      refine ⟨rfl, append_length hclean ?_⟩
      show (m.append B f).2.content f = _
      rw [hrun, put_content_self, hplace]
      rfl
    · show block B (m.append B f).2 g other = w.set f (m.length B f) (zeroPage B.bytes) g other
      by_cases hsame : g = f ∧ other = m.length B f
      · rw [hsame.1, hsame.2, Written.set_self]
        exact hself
      · rw [Written.set_other hsame, hother g other hsame]
        exact h.blocks g other
  | write f number p =>
    obtain ⟨hplace, hlt⟩ := hclean
    obtain ⟨hgood, hself, hother⟩ := stores h.good hplace p (write_eq h.good hplace hlt p)
    refine ⟨⟨fun _ hf => (by cases hf), fun _ _ _ hf => (by cases hf),
      fun g other hne => hother g other hne⟩, hgood, fun g other => ?_⟩
    show block B (m.write B f number p) g other = w.set f number p.1 g other
    by_cases hsame : g = f ∧ other = number
    · rw [hsame.1, hsame.2, Written.set_self]
      exact hself
    · rw [Written.set_other hsame, hother g other hsame]
      exact h.blocks g other
  | read f number p =>
    have hfiles := @read_files Name _ B m f number h.good p
    obtain ⟨hgood, hcontent⟩ := hfiles
    have hblock : ∀ g other, block B (m.read B f number p).2 g other = block B m g other := by
      intro g other
      unfold block
      rw [hcontent]
    refine ⟨⟨fun _ hf => (by cases hf), fun f' number' p' hf => ?_,
      fun g other _ => hblock g other⟩, hgood, fun g other =>
        (hblock g other).trans (h.blocks g other)⟩
    cases hf
    exact congrArg Outcome.page ((read_clean h.good p hclean).trans (h.blocks f number))

end Steps

omit [DecidableEq Name] in
/-- A manager that has just been opened on some files. -/
theorem agrees_new (B : BlockBytes) (files : Name → Option Bytes) :
    Agrees B (FileMgr.new files) (block B (FileMgr.new files)) :=
  ⟨fun _ _ h => (by cases h), fun _ _ => rfl⟩

/-- Every clean call after a run of clean calls is answered as by a block store. -/
theorem storeStep_of_run {files : Name → Option Bytes} {ops : List (Op Name B)} {m : FileMgr Name}
    {w : Written Name}
    (hrun : Run (CleanStep (B := B)) (FileMgr.new files, block B (FileMgr.new files)) ops (m, w))
    (op : Op Name B) (hclean : Clean B m op) :
    StoreStep m w op (m.step op).1 (m.step op).2 := by
  have hagrees : Agrees B m w := by
    refine hrun.invariant (fun s => Agrees B s.1 s.2) ?_ (agrees_new B files)
    rintro ⟨m, w⟩ op ⟨m', w'⟩ hagrees ⟨hclean, hm, hw⟩
    have hstep := (step_clean hagrees op hclean).2
    dsimp only at hm hw ⊢
    rw [hm, hw]
    exact hstep
  exact (step_clean hagrees op hclean).1

/-- Blocks of eight bytes. -/
def eight : BlockBytes := ⟨8, by decide, by decide⟩

theorem storeStep_of_run_append : StoreStep
    ((FileMgr.new (fun _ : ℕ => none)).step (.append 0 : Op ℕ eight)).2
    (Written.after (block eight (FileMgr.new (fun _ : ℕ => none))) (.append 0 : Op ℕ eight)
      (.appended 0))
    (.read 0 0 (zeroBlock eight)) (.page [0, 0, 0, 0, 0, 0, 0, 0])
    (((FileMgr.new (fun _ : ℕ => none)).step (.append 0 : Op ℕ eight)).2.step
      (.read 0 0 (zeroBlock eight))).2 := by
  have hclean : Clean eight (FileMgr.new (fun _ : ℕ => none)) (.append 0) := by
    unfold Clean
    decide
  have hread : Clean eight ((FileMgr.new (fun _ : ℕ => none)).step (.append 0 : Op ℕ eight)).2
      (.read 0 0 (zeroBlock eight)) := Or.inl ⟨by decide, by decide, by decide⟩
  exact storeStep_of_run (.cons ⟨hclean, rfl, rfl⟩ (.nil _)) _ hread

/-- A file of four bytes is read as zeros, and a write at the offset 2³² replaces the first
block. -/
theorem not_storeStep :
    (¬ StoreStep (FileMgr.new (fun _ : ℕ => some [1, 2, 3, 4]))
      (block eight (FileMgr.new (fun _ : ℕ => some [1, 2, 3, 4])))
      (.read 0 0 (zeroBlock eight)) (.page [0, 0, 0, 0, 0, 0, 0, 0])
      ((FileMgr.new (fun _ : ℕ => some [1, 2, 3, 4])).step (.read 0 0 (zeroBlock eight))).2) ∧
    ((FileMgr.new (fun _ : ℕ => some [1, 2, 3, 4])).step (.read 0 0 (zeroBlock eight))).1 =
      .page [0, 0, 0, 0, 0, 0, 0, 0] ∧
    ¬ StoreStep (FileMgr.new (fun _ : ℕ => none)) (block eight (FileMgr.new (fun _ : ℕ => none)))
      (.write 0 536870912 ⟨[1, 2, 3, 4, 5, 6, 7, 8], rfl⟩ : Op ℕ eight) .written
      ((FileMgr.new (fun _ : ℕ => none)).step
        (.write 0 536870912 ⟨[1, 2, 3, 4, 5, 6, 7, 8], rfl⟩ : Op ℕ eight)).2 := by
  refine ⟨fun h => ?_, by decide, fun h => ?_⟩
  · have hread := h.read 0 0 _ rfl
    revert hread
    decide
  · have hother := h.other 0 0 (fun htarget => absurd htarget.2 (by decide))
    revert hother
    decide

end SampleDB.BlockStores
