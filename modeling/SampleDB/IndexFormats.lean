import SampleDB.IndexSteps

/-!
Formatting an index page: every slot that lies inside the block gets a default record. The loop
ends at a position behind the block. Where this position is no `int` the loop does not see it; it
goes on at a negative position, and the write there fails.
-/
namespace SampleDB.IndexFormats

open Words Pages Blocks Logging Lexer Schemas Rollback Endings PageValues RecordPages StoredRecords
open StoredTables LoggedUpdates PageWrites IndexPages IndexCells IndexSteps

section Positions

variable {B : BlockSize} {layout : Layout} {L : BTreePages.Layout} {k : ℕ}

/-- The position behind the last slot and one more is an `int`. -/
def Counts (B : BlockSize) (slotBytes : ℕ) : Prop :=
  8 + ((B.bytes - 8) / slotBytes + 1) * slotBytes < 2147483648

instance (B : BlockSize) (slotBytes : ℕ) : Decidable (Counts B slotBytes) :=
  inferInstanceAs (Decidable (_ < _))

theorem slotPos_zero (layout : Layout) : BTreePage.slotPos layout (0 : ℕ) = 8 := by
  unfold BTreePage.slotPos
  rw [Int.natCast_zero, Int.zero_mul]
  rfl

theorem slotPos_succ (h : IndexLayout layout L) (hk : 8 + k * L.slotSize < 2147483648) :
    Int32.ofInt ((BTreePage.slotPos layout k).toInt + layout.slotSize.toInt) =
      BTreePage.slotPos layout (k + 1 : ℕ) := by
  have hsum : ((8 + k * L.slotSize : ℕ) : ℤ) + L.slotSize =
      8 + ((k + 1 : ℕ) : ℤ) * (L.slotSize : ℤ) := by
    push_cast
    rw [Int.add_mul, Int.one_mul, Int.add_assoc]
  rw [h.slotPos_toInt hk, h.slotSize, hsum, ← h.slotSize]
  rfl

theorem not_lt_capacity (B : BlockSize) (L : BTreePages.Layout) :
    B.bytes < 8 + (BTreePages.capacity B L + 1) * L.slotSize := by
  have hnot := mt (lt_capacity_iff (B := B) (L := L) (i := BTreePages.capacity B L)).mpr
    (Nat.lt_irrefl _)
  omega

theorem slot_start_le (hB : 8 ≤ B.bytes) (hk : k ≤ BTreePages.capacity B L) :
    8 + k * L.slotSize ≤ B.bytes := by
  have hmul : k * L.slotSize ≤ BTreePages.capacity B L * L.slotSize := Nat.mul_le_mul_right _ hk
  have hle : BTreePages.capacity B L * L.slotSize ≤ B.bytes - 8 := Nat.div_mul_le_self _ _
  omega

end Positions

section Formats

variable {B : BlockSize} {layout : Layout} {L : BTreePages.Layout} {P : Type} [Inhabited P]
  {view : P → Name → Value} {base tx : Transaction} {blk k : ℕ} {p : Page} {f : Name}

theorem defaultField_eq (h : IndexLayout layout L) (hdefault : ∀ f, view default f = .int 0)
    (hf : f ∈ layout.schema.fields) :
    BTreePage.defaultField B layout blk (BTreePage.slotPos layout k) tx f =
      tx.set B blk ((PageCell.field k f).pos layout)
        (valueOf view (BTreePages.Contents.defaultRecord L) f) false := by
  obtain ⟨pos, hpos, -, -⟩ := h.placed.offset f hf
  have hstart := Cell.start_field hpos
  have hat : (PageCell.field k f).pos layout =
      Int32.ofInt ((BTreePage.slotPos layout k).toInt + pos.toInt) := by
    rw [← hstart]
    rfl
  have hoffset : layout.offset f = .ok pos := by
    unfold Layout.offset
    rw [hpos]
  unfold BTreePage.defaultField
  rw [hoffset, ok_bind, hat]
  by_cases heq : f = "dataval".toList
  · obtain ⟨length, hinfo, -⟩ := h.info
    have htype : layout.fieldType f = .ok L.dataval := by
      unfold Layout.fieldType
      rw [heq, hinfo]
    have hvalue : valueOf view (BTreePages.Contents.defaultRecord L) f = L.defaultValue :=
      if_pos heq
    rw [htype, ok_bind, hvalue]
    unfold BTreePages.Layout.defaultValue
    cases hL : L.dataval with
    | integer => rfl
    | varchar => rfl
    | boolean => exact absurd hL h.key
  · obtain ⟨length, hinfo⟩ := h.integer f hf heq
    have htype : layout.fieldType f = .ok .integer := by
      unfold Layout.fieldType
      rw [hinfo]
    have hvalue : valueOf view (BTreePages.Contents.defaultRecord L) f = .int 0 :=
      (if_neg heq).trans (hdefault f)
    rw [htype, ok_bind, hvalue]
    rfl

/-- The first `k` slots are formatted, and there are `n` more. -/
def formatted (L : BTreePages.Layout) (flag : ℤ) (k n : ℕ) : BTreePages.Contents P :=
  ⟨flag, 0, List.replicate k (some (BTreePages.Contents.defaultRecord L)) ++
    List.replicate n none⟩

theorem formatted_set (L : BTreePages.Layout) (flag : ℤ) (k n : ℕ) :
    { (formatted L flag k (n + 1) : BTreePages.Contents P) with
      slots := (formatted L flag k (n + 1) : BTreePages.Contents P).slots.set k
        (some (BTreePages.Contents.defaultRecord L)) } = formatted L flag (k + 1) n := by
  unfold formatted
  have hset := PageLists.set_middle (List.replicate k (some (BTreePages.Contents.defaultRecord L)))
    (List.replicate n none) none (some (BTreePages.Contents.defaultRecord L : BTreePages.Record P))
  rw [List.length_replicate] at hset
  rw [List.replicate_succ, hset, List.replicate_succ', List.append_assoc]
  rfl

theorem makeDefaultRecord_takes (h : IndexLayout layout L)
    (hview : ∀ d f, kind (view d f) = .int) (hdefault : ∀ f, view default f = .int 0)
    (hB : 8 ≤ B.bytes) (hblk : blk < base.blocks.length) {flag : ℤ} {n : ℕ}
    (hk : k + (n + 1) = BTreePages.capacity B L)
    (hrep : Represents B layout view L p (formatted L flag k (n + 1))) :
    Takes B base blk (fun tx => BTreePage.makeDefaultRecord B layout blk tx
      (BTreePage.slotPos layout k)) p (fun q =>
        Represents B layout view L q (formatted L flag (k + 1) n)) := by
  have hfits : ∀ f ∈ layout.schema.fields,
      kind (valueOf view (BTreePages.Contents.defaultRecord L) f) = fieldKind layout f ∧
      (valueOf view (BTreePages.Contents.defaultRecord L) f).size ≤ widthOf layout.schema f :=
    fun f hf => value_fits h hview (PageLists.Suits.default h.key) hf
  have hwrite := writeFields false h hB hblk (j := k) (by omega) (fun f hf => hf) h.nodup
    (fun f hf => (hfits f hf).2) hrep.size
    (g := BTreePage.defaultField B layout blk (BTreePage.slotPos layout k))
    (fun f hf q log _ => defaultField_eq h hdefault hf) (fun hlog => by cases hlog)
  refine hwrite.mono ?_
  rintro q ⟨hq, hfields, hkept⟩
  rw [← formatted_set]
  exact hrep.setSlot (by omega) hq (fun f hf => ⟨(hfits f hf).1, hfields f hf⟩) hkept

/-- The loop of `format`, from the slot `k` on. -/
theorem formatFrom_takes (h : IndexLayout layout L) (hview : ∀ d f, kind (view d f) = .int)
    (hdefault : ∀ f, view default f = .int 0) (hB : 8 ≤ B.bytes)
    (hblk : blk < base.blocks.length) (hcounts : Counts B L.slotSize) {flag : ℤ} {n fuel : ℕ}
    (hk : k + n = BTreePages.capacity B L) (hfuel : n < fuel)
    (hrep : Represents B layout view L p (formatted L flag k n)) :
    Takes B base blk (BTreePage.formatFrom B layout blk fuel (BTreePage.slotPos layout k)) p
      (fun q => Represents B layout view L q
        (formatted L flag (BTreePages.capacity B L) 0 : BTreePages.Contents P)) := by
  have hlt := B.lt_int
  induction n generalizing k p fuel with
  | zero =>
    obtain ⟨fuel, rfl⟩ : ∃ i, fuel = i + 1 := ⟨fuel - 1, by omega⟩
    have hstart := slot_start_le (L := L) (k := k) hB (by omega)
    have hnext := slotPos_succ (k := k) h (by omega)
    have hlast : k = BTreePages.capacity B L := hk
    subst hlast
    have hskip : Takes B base blk (fun tx => .ok tx) p (fun q => Represents B layout view L q
        (formatted L flag (BTreePages.capacity B L) 0 : BTreePages.Contents P)) := .skip hrep
    refine hskip.of_eq (fun log => ?_)
    have hout := not_lt_capacity B L
    have hvalue := h.slotPos_toInt (i := BTreePages.capacity B L + 1) hcounts
    rw [BTreePage.formatFrom, hnext, hvalue, if_neg (by omega)]
  | succ n ih =>
    obtain ⟨fuel, rfl⟩ : ∃ i, fuel = i + 1 := ⟨fuel - 1, by omega⟩
    have hstart := slot_start_le (L := L) (k := k) hB (by omega)
    have hnext := slotPos_succ (k := k) h (by omega)
    have hin : 8 + (k + 1) * L.slotSize ≤ B.bytes := lt_capacity_iff.mp (by omega)
    have hvalue := h.slotPos_toInt (i := k + 1) (by omega)
    have hfirst := makeDefaultRecord_takes h hview hdefault hB hblk hk hrep
    have hrounds : n < fuel := by omega
    have hloop := hfirst.seq (g := BTreePage.formatFrom B layout blk fuel
      (BTreePage.slotPos layout (k + 1 : ℕ))) (fun q hq => ih (by omega) hrounds hq)
    refine hloop.of_eq (fun log => ?_)
    rw [BTreePage.formatFrom, hnext, hvalue, if_pos (by omega)]

theorem represents_formatted {q : Page} {flag : Int32} (hq : q.length = B.bytes)
    (hflag : HoldsCell layout q .flag (.int flag)) (hnum : HoldsCell layout q .numRecs (.int 0)) :
    Represents B layout view L q
      (formatted L flag.toInt 0 (BTreePages.capacity B L) : BTreePages.Contents P) where
  size := hq
  flag := by
    show HoldsCell layout q .flag (.int (Int32.ofInt flag.toInt))
    rw [Int32.ofInt_toInt]
    exact hflag
  numRecs := hnum
  numRecs_int := ⟨by show -2147483648 ≤ (0 : ℤ); omega, by show (0 : ℤ) < 2147483648; omega⟩
  room := by
    show (List.replicate 0 _ ++ List.replicate (BTreePages.capacity B L) _).length = _
    rw [List.replicate_zero, List.nil_append, List.length_replicate]
  slots := by
    intro i r hi
    change (List.replicate 0 _ ++ List.replicate (BTreePages.capacity B L) none)[i]? = _ at hi
    rw [List.replicate_zero, List.nil_append, List.getElem?_replicate] at hi
    split at hi <;> cases hi

/-- A page is formatted as an empty one, whatever it was before. -/
theorem format_takes (h : IndexLayout layout L) (hview : ∀ d f, kind (view d f) = .int)
    (hdefault : ∀ f, view default f = .int 0) (hB : 8 ≤ B.bytes)
    (hblk : blk < base.blocks.length) (hcounts : Counts B L.slotSize) (hp : p.length = B.bytes)
    (flag : Int32) :
    Takes B base blk (fun tx => BTreePage.format B layout blk tx flag) p (fun q =>
      Represents B layout view L q
        (PageLists.page flag.toInt [] (PageLists.fresh B L) : BTreePages.Contents P)) := by
  have hplaces := h.places hB
  have hfirst := Takes.cell (c := PageCell.flag) false hplaces hblk hp trivial
    (show (Value.int flag).size ≤ _ from Nat.le_refl 4) (fun hlog => by cases hlog)
  refine hfirst.seq (g := fun tx => tx.setInt B blk 4 0 false >>=
    BTreePage.formatFrom B layout blk (B.bytes + 2) 8) ?_
  rintro q ⟨hq, hflag, -⟩
  have hsecond : Takes B base blk
      (fun tx => tx.set B blk (PageCell.numRecs.pos layout) (.int 0) false) q _ :=
    .cell false hplaces hblk hq trivial (show (Value.int 0).size ≤ _ from Nat.le_refl 4)
      (fun hlog => by cases hlog)
  refine hsecond.seq (g := BTreePage.formatFrom B layout blk (B.bytes + 2) 8) ?_
  rintro q' ⟨hq', hnum, hkept⟩
  have hflag' := (hkept .flag trivial (fun h => by cases h)).holds _ hflag
  have hlt : BTreePages.capacity B L < B.bytes + 2 := by
    have hle : BTreePages.capacity B L ≤ B.bytes - 8 := Nat.div_le_self _ _
    omega
  have hempty : Represents B layout view L q'
      (formatted L flag.toInt 0 (BTreePages.capacity B L) : BTreePages.Contents P) :=
    represents_formatted hq' hflag' hnum
  have hloop : Takes B base blk
      (BTreePage.formatFrom B layout blk (B.bytes + 2) (BTreePage.slotPos layout (0 : ℕ))) q' _ :=
    formatFrom_takes h hview hdefault hB hblk hcounts (Nat.zero_add _) hlt hempty
  rw [slotPos_zero] at hloop
  refine hloop.mono ?_
  intro r hr
  have hpage : (formatted L flag.toInt (BTreePages.capacity B L) 0 : BTreePages.Contents P) =
      PageLists.page flag.toInt [] (PageLists.fresh B L) := by
    unfold formatted PageLists.page PageLists.fresh
    rw [List.replicate_zero, List.append_nil]
    rfl
  rw [← hpage]
  exact hr

end Formats

section Overflow

variable {B : BlockSize} {layout : Layout} {L : BTreePages.Layout} {tx tx' : Transaction}
  {blk k : ℕ} {f : Name} {rest : List Name}

theorem set_nonneg {offset : Int32} {v : Value} {okToLog : Bool}
    (h : tx.set B blk offset v okToLog = .ok tx') : 0 ≤ offset.toInt := by
  unfold Transaction.set at h
  obtain ⟨page, -, h⟩ := bind_eq_ok.mp h
  obtain ⟨log, -, h⟩ := bind_eq_ok.mp h
  obtain ⟨q, hset, -⟩ := bind_eq_ok.mp h
  cases v with
  | int n => exact (Page.setInt_eq_ok page offset.toInt n q offset.toInt_lt hset).1
  | string s => exact (setBytes_room page offset.toInt s q offset.toInt_lt hset).1

/-- The first field of a slot comes right behind the flag that a table's slot has. -/
theorem makeDefaultRecord_nonneg (hfields : layout.schema.fields = f :: rest)
    (hoffset : layout.offset f = .ok 4) {pos : Int32}
    (h : BTreePage.makeDefaultRecord B layout blk tx pos = .ok tx') :
    0 ≤ toInt (pos.toInt + 4) := by
  unfold BTreePage.makeDefaultRecord at h
  rw [hfields] at h
  obtain ⟨tx₁, hfirst, -⟩ := bind_eq_ok.mp h
  unfold BTreePage.defaultField at hfirst
  rw [hoffset, ok_bind] at hfirst
  obtain ⟨type, -, hset⟩ := bind_eq_ok.mp hfirst
  cases type with
  | integer => exact set_nonneg (v := .int 0) hset
  | varchar => exact set_nonneg (v := .string []) hset
  | boolean => exact set_nonneg (v := .string []) hset

/-- The loop comes to the position behind the last slot. -/
theorem formatFrom_reaches (h : IndexLayout layout L) (hB : 8 ≤ B.bytes) {n fuel : ℕ}
    (hk : k + n = BTreePages.capacity B L)
    (hok : BTreePage.formatFrom B layout blk fuel (BTreePage.slotPos layout k) tx = .ok tx') :
    ∃ fuel₁ tx₁, BTreePage.formatFrom B layout blk fuel₁
      (BTreePage.slotPos layout (BTreePages.capacity B L)) tx₁ = .ok tx' := by
  have hlt := B.lt_int
  induction n generalizing k fuel tx with
  | zero =>
    have hlast : k = BTreePages.capacity B L := hk
    subst hlast
    exact ⟨fuel, tx, hok⟩
  | succ n ih =>
    have hin : 8 + (k + 1) * L.slotSize ≤ B.bytes := lt_capacity_iff.mp (by omega)
    have hstart := slot_start_le (L := L) (k := k) hB (by omega)
    have hvalue := h.slotPos_toInt (i := k + 1) (by omega)
    cases fuel with
    | zero => cases hok
    | succ fuel =>
      rw [BTreePage.formatFrom, slotPos_succ h (by omega), hvalue, if_pos (by omega)] at hok
      obtain ⟨tx₁, -, hrest⟩ := bind_eq_ok.mp hok
      exact ih (by omega) hrest

theorem format_overflows (h : IndexLayout layout L)
    (hfields : layout.schema.fields = f :: rest) (hoffset : layout.offset f = .ok 4)
    (hone : 0 < BTreePages.capacity B L) (hnot : ¬ Counts B L.slotSize) (flag : Int32) :
    BTreePage.format B layout blk tx flag ≠ .ok tx' := by
  intro hok
  have hlt := B.lt_int
  have hslot : 8 + L.slotSize ≤ B.bytes := by
    have hin := lt_capacity_iff.mp hone
    omega
  have hend := slot_start_le (B := B) (L := L) (by omega) (Nat.le_refl _)
  have hsucc : (BTreePages.capacity B L + 1) * L.slotSize =
      BTreePages.capacity B L * L.slotSize + L.slotSize := Nat.succ_mul _ _
  have hover : ¬ 8 + (BTreePages.capacity B L + 1) * L.slotSize < 2147483648 := hnot
  obtain ⟨tx₁, -, hok⟩ := bind_eq_ok.mp hok
  obtain ⟨tx₂, -, hok⟩ := bind_eq_ok.mp hok
  rw [← slotPos_zero layout] at hok
  obtain ⟨fuel, tx₃, hlast⟩ := formatFrom_reaches h (by omega) (Nat.zero_add _) hok
  -- the position behind the last slot wraps to a negative one
  have hnext := slotPos_succ (k := BTreePages.capacity B L) h (by omega)
  have hat := h.slotPos_toInt (i := BTreePages.capacity B L) (by omega)
  have hsum : (BTreePage.slotPos layout (BTreePages.capacity B L)).toInt +
      layout.slotSize.toInt = (8 + (BTreePages.capacity B L + 1) * L.slotSize : ℕ) := by
    rw [hat, h.slotSize]
    omega
  have hwrap : (BTreePage.slotPos layout (BTreePages.capacity B L + 1 : ℕ)).toInt =
      (8 + (BTreePages.capacity B L + 1) * L.slotSize : ℕ) - 4294967296 := by
    rw [← hnext, hsum]
    have hmod := toInt_emod (8 + (BTreePages.capacity B L + 1) * L.slotSize : ℕ)
    have hrange := toInt_range (8 + (BTreePages.capacity B L + 1) * L.slotSize : ℕ)
    unfold toInt at hmod hrange
    omega
  cases fuel with
  | zero => cases hlast
  | succ fuel =>
    rw [BTreePage.formatFrom, hnext, hwrap, if_pos (by omega)] at hlast
    obtain ⟨tx₄, -, hagain⟩ := bind_eq_ok.mp hlast
    cases fuel with
    | zero => cases hagain
    | succ fuel =>
      have hsecond : (Int32.ofInt ((BTreePage.slotPos layout
          (BTreePages.capacity B L + 1 : ℕ)).toInt + layout.slotSize.toInt)).toInt ≤ B.bytes := by
        rw [hwrap, h.slotSize]
        have hexact := toInt_eq (((8 + (BTreePages.capacity B L + 1) * L.slotSize : ℕ) : ℤ) -
          4294967296 + L.slotSize) (by omega) (by omega)
        unfold toInt at hexact
        omega
      rw [BTreePage.formatFrom, if_pos hsecond] at hagain
      obtain ⟨tx₅, hrecord, -⟩ := bind_eq_ok.mp hagain
      have hnonneg := makeDefaultRecord_nonneg hfields hoffset hrecord
      rw [hwrap, toInt_eq _ (by omega) (by omega)] at hnonneg
      omega

end Overflow

end SampleDB.IndexFormats
