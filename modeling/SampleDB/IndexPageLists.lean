import SampleDB.IndexForms

/-!
An index page as the list of its records. Inserting, removing and splitting are what they are on
lists, as long as whatever is overwritten can be logged, and the positions that formatting counts
up to are `int`s.
-/
namespace SampleDB.IndexPageLists

open Words Pages Blocks Lexer Schemas Rollback Endings PageValues RecordPages StoredRecords
open Logging StoredTables LoggedUpdates PageWrites IndexPages IndexCells IndexSteps IndexFormats
open IndexSplits IndexForms

section Lists

variable {P : Type} (F : PageKind P) (B : BlockSize) (info : FieldInfo) (layout : Layout)
  (tx : Transaction) (blk : ℕ) (rs : List (BTreePages.Record P))

/-- All fields of a slot. -/
def readRecord (i : ℤ) : Result (BTreePages.Record P) := do
  return ⟨← BTreePage.getDataVal layout tx blk i, ← F.getData layout tx blk i⟩

/-- The page read as the list of its first records. -/
structure Lists : Prop where
  count : ∃ n, BTreePage.getNumRecs tx blk = .ok n ∧ n.toInt = rs.length
  record : ∀ (i : ℕ) r, rs[i]? = some r → readRecord F layout tx blk i = .ok r

/-- A page with these records, and with the room for one more. The log takes the next record. -/
structure IndexPage : Prop where
  block : ∃ p, tx.blocks[blk]? = some p ∧ p.length = B.bytes
  log : Usable B tx.log.page
  lists : Lists F layout tx blk rs
  within : ∀ r ∈ rs, Within info r.dataval
  room : 8 + (rs.length + 1) * slotBytes layout.schema layout.schema.fields ≤ B.bytes

/-- The calls do to the list what their names say. They change one block, and a split adds one at
the end of the file. -/
structure ActsAsList : Prop where
  insertRecord : ∀ s ≤ rs.length, ∀ v d, Within info v → ∃ log q,
    F.insertRecord B layout blk tx s v d = .ok (withPage tx blk log q) ∧
      Lists F layout (withPage tx blk log q) blk (rs.insertIdx s ⟨v, d⟩)
  remove : ∀ s < rs.length, ∃ log q,
    BTreePage.remove B layout blk tx s = .ok (withPage tx blk log q) ∧
      Lists F layout (withPage tx blk log q) blk (rs.eraseIdx s)
  split : ∀ s ≤ rs.length, ∀ flag, ∃ log q new tx',
    BTreePage.split B layout blk tx s flag = .ok (tx.size, tx') ∧
      tx' = { tx with log := log, blocks := tx.blocks.set blk q ++ [new] } ∧
      Lists F layout tx' blk (rs.take s) ∧
      BTreePage.getFlag tx' blk = BTreePage.getFlag tx blk ∧
      Lists F layout tx' tx.size (rs.drop s) ∧ BTreePage.getFlag tx' tx.size = .ok flag

/-- The values of the records and of the slot behind them can be logged, and so can an `int`. -/
structure CanWrite (n : ℕ) : Prop where
  ints : Logs B tx.fileName (.int 0)
  datavals : ∀ i ≤ n, ∃ old, BTreePage.getDataVal layout tx blk i = .ok old ∧
    Logs B tx.fileName old
  counts : Counts B (slotBytes layout.schema layout.schema.fields)

end Lists

section Reads

variable {P : Type} {F : PageKind P} {B : BlockSize} {info : FieldInfo}
  {layout : Layout} {L : BTreePages.Layout} {tx : Transaction} {blk i : ℕ} {p : Page}
  {r : BTreePages.Record P} {rs : List (BTreePages.Record P)}
  {rest : List (Option (BTreePages.Record P))} {flag : ℤ}

theorem contents_of_block (h : tx.blocks[blk]? = some p) : tx.contents blk = .ok p := by
  unfold Transaction.contents
  rw [h]

theorem getFlag_eq {c : BTreePages.Contents P} (hrep : Represents B layout F.view L p c)
    (hpage : tx.contents blk = .ok p) :
    BTreePage.getFlag tx blk = .ok (Int32.ofInt c.flag) := by
  unfold BTreePage.getFlag Transaction.getInt
  rw [hpage]
  exact get_int_iff.mp hrep.flag.get

theorem getElem?_of_page {k : ℕ} (h : (PageLists.page flag rs
    (none :: List.replicate k none)).slots[i]? = some (some r)) : rs[i]? = some r := by
  change (rs.map some ++ none :: List.replicate k none)[i]? = some (some r) at h
  rw [← List.replicate_succ] at h
  by_cases hlt : i < rs.length
  · rw [List.getElem?_append_left (by rw [List.length_map]; exact hlt), List.getElem?_map,
      Option.map_eq_some_iff] at h
    obtain ⟨r', hr', hval⟩ := h
    cases hval
    exact hr'
  · rw [List.getElem?_append_right (by rw [List.length_map]; omega), List.getElem?_replicate] at h
    split at h <;> cases h

theorem IndexPage.slotBytes_lt (h : IndexPage F B info layout tx blk rs) :
    slotBytes layout.schema layout.schema.fields < 2147483648 := by
  have hB := B.lt_int
  have hroom := h.room
  have hle : slotBytes layout.schema layout.schema.fields ≤
      (rs.length + 1) * slotBytes layout.schema layout.schema.fields :=
    Nat.le_mul_of_pos_left _ (Nat.succ_pos _)
  omega

variable [Inhabited P]

theorem readRecord_iff (hF : F.Fits layout L) (hpage : tx.contents blk = .ok p)
    (hr : PageLists.Suits L r.dataval) :
    readRecord F layout tx blk i = .ok r ↔ SlotHolds layout F.view p i r := by
  have hfits : ∀ f ∈ layout.schema.fields, kind (valueOf F.view r f) = fieldKind layout f ∧
      (valueOf F.view r f).size ≤ widthOf layout.schema f :=
    fun f hf => value_fits hF.index hF.view_int hr hf
  have hread := hF.index.getValue_eq (i := i) hF.index.dataval hpage
  constructor
  · intro h f hf
    obtain ⟨v, hv, h⟩ := bind_eq_ok.mp h
    obtain ⟨d, hd, h⟩ := bind_eq_ok.mp h
    cases h
    obtain ⟨hkind, hsize⟩ := hfits f hf
    refine ⟨hkind, ?_, hsize⟩
    by_cases heq : f = "dataval".toList
    · rw [hkind, heq, ← hread]
      exact hv
    · have hvalue : valueOf F.view ⟨v, d⟩ f = F.view d f := if_neg heq
      rw [hkind, hF.index.fieldKind_of_ne hf heq, hvalue]
      exact (hF.getData i d hpage).mp hd f hf heq
  · intro h
    obtain ⟨hkind, hholds⟩ := h _ hF.index.dataval
    have hkey := hholds.get
    rw [hkind, ← hread] at hkey
    have hdata : F.getData layout tx blk i = .ok r.data := by
      rw [hF.getData i r.data hpage]
      intro f hf hne
      obtain ⟨hkind, hholds⟩ := h f hf
      have hget := hholds.get
      rw [hkind, hF.index.fieldKind_of_ne hf hne] at hget
      have hvalue : valueOf F.view r f = F.view r.data f := if_neg hne
      rw [← hvalue]
      exact hget
    unfold readRecord BTreePage.getDataVal
    rw [hkey, ok_bind, hdata]
    rfl

/-- The page of bytes is read as the list. -/
theorem lists_of_represents (hF : F.Fits layout L)
    (hrep : Represents B layout F.view L p (PageLists.page flag rs rest))
    (hsuits : ∀ r ∈ rs, PageLists.Suits L r.dataval) (hpage : tx.contents blk = .ok p) :
    Lists F layout tx blk rs where
  count := getNumRecs_eq hrep hpage
  record := by
    intro i r hi
    rw [readRecord_iff hF hpage (hsuits r (List.mem_of_getElem? hi))]
    apply hrep.slots
    show (rs.map some ++ rest)[i]? = _
    have hlt : i < rs.length := (List.getElem?_eq_some_iff.mp hi).1
    rw [List.getElem?_append_left (by rw [List.length_map]; exact hlt), List.getElem?_map, hi]
    rfl

theorem slotSize_eq (h : IndexLayout layout L) :
    L.slotSize = slotBytes layout.schema layout.schema.fields := by
  have hsize := h.slotSize
  have hplaced := h.placed.size
  omega

/-- Nothing is known of the slots behind the records. -/
theorem IndexPage.represents (h : IndexPage F B info layout tx blk rs)
    (hF : F.Fits layout (keysOf layout.schema info)) :
    ∃ p flag rest, tx.blocks[blk]? = some p ∧ BTreePage.getFlag tx blk = .ok flag ∧
      Represents B layout F.view (keysOf layout.schema info) p
        (PageLists.page flag.toInt rs (none :: rest)) := by
  obtain ⟨p, hblk, hlen⟩ := h.block
  have hB := B.lt_int
  have hpage := contents_of_block hblk
  have hroom : rs.length < BTreePages.capacity B (keysOf layout.schema info) :=
    lt_capacity_iff.mpr h.room
  have hcap := capacity_lt B (keysOf layout.schema info)
  have hroom8 := h.room
  obtain ⟨flag, hflag⟩ : ∃ flag, p.getInt 0 = .ok flag :=
    ⟨_, Page.getInt_ok p 0 (Int.le_refl 0) (by omega) (by decide)⟩
  obtain ⟨n, hn, hval⟩ := h.lists.count
  refine ⟨p, flag, List.replicate (BTreePages.capacity B (keysOf layout.schema info) -
    rs.length - 1) none, hblk, ?_, ?_⟩
  · unfold BTreePage.getFlag Transaction.getInt
    rw [hpage]
    exact hflag
  · refine ⟨hlen, ?_, ?_, ?_, ?_, ?_⟩
    · unfold PageLists.page
      dsimp only
      rw [Int32.ofInt_toInt]
      exact ⟨get_int_iff.mpr hflag, Nat.le_refl 4⟩
    · unfold PageLists.page
      dsimp only
      rw [← hval, Int32.ofInt_toInt]
      unfold BTreePage.getNumRecs Transaction.getInt at hn
      rw [hpage] at hn
      exact ⟨get_int_iff.mpr hn, Nat.le_refl 4⟩
    · unfold PageLists.page
      dsimp only
      omega
    · unfold PageLists.page
      dsimp only
      rw [List.length_append, List.length_map, List.length_cons, List.length_replicate]
      omega
    · intro i r hi
      have hr := getElem?_of_page hi
      exact (readRecord_iff hF hpage (suits_keysOf _ (h.within r (List.mem_of_getElem? hr)))).mp
        (h.lists.record i r hr)

end Reads

section Writes

variable {P : Type} {F : PageKind P} {B : BlockSize} {layout : Layout}
  {L : BTreePages.Layout} {tx tx' : Transaction} {blk s : ℕ} {p : Page}
  {rs : List (BTreePages.Record P)} {rest : List (Option (BTreePages.Record P))} {flag : ℤ}

theorem insertIdx_append {α : Type} (xs ys : List α) (x : α) :
    (xs ++ ys).insertIdx xs.length x = xs ++ x :: ys := by
  induction xs with
  | nil => rfl
  | cons a xs ih =>
    rw [List.cons_append, List.length_cons, List.insertIdx_succ_cons, ih]
    rfl

theorem exists_append (hs : s ≤ rs.length) : ∃ xs ys, rs = xs ++ ys ∧ s = xs.length :=
  ⟨rs.take s, rs.drop s, (List.take_append_drop s rs).symm, (List.length_take_of_le hs).symm⟩

theorem eraseIdx_append {α : Type} (xs ys : List α) (x : α) :
    (xs ++ x :: ys).eraseIdx xs.length = xs ++ ys := by
  rw [List.eraseIdx_append_of_length_le (Nat.le_refl _), Nat.sub_self]
  rfl

theorem lt_capacity (hrep : Represents B layout F.view L p
    (PageLists.page flag rs (none :: rest))) : rs.length < BTreePages.capacity B L := by
  have hroom := hrep.room
  change (rs.map some ++ none :: rest).length = _ at hroom
  rw [List.length_append, List.length_map, List.length_cons] at hroom
  omega

theorem eight_le (hrep : Represents B layout F.view L p
    (PageLists.page flag rs (none :: rest))) : 8 ≤ B.bytes := by
  have hend := slot_end_le (lt_capacity hrep)
  omega

/-- A call on the page that is there. -/
theorem run_takes {m : Transaction → Result Transaction} {Q : Page → Prop}
    (h : Takes B tx blk m p Q) (hblk : tx.blocks[blk]? = some p) (hlog : Usable B tx.log.page) :
    ∃ log q, m tx = .ok (withPage tx blk log q) ∧ Usable B log.page ∧ Q q := by
  obtain ⟨log, q, hm, hlog', hq⟩ := h tx.log hlog
  rw [withPage_self hblk] at hm
  exact ⟨log, q, hm, hlog', hq⟩

/-- The number of records is overwritten by every insertion. -/
theorem logs_of_insert (hblk : tx.blocks[blk]? = some p)
    (hlog : tx.log.page.length = B.bytes)
    (hrep : Represents B layout F.view L p (PageLists.page flag rs (none :: rest)))
    (hok : BTreePage.insert B layout blk tx rs.length = .ok tx') :
    Logs B tx.fileName (.int 0) := by
  obtain ⟨n, hn, hval⟩ := getNumRecs_eq hrep (contents_of_block hblk)
  have hrounds : (n.toInt - (rs.length : ℤ)).toNat = 0 := by
    rw [hval]
    exact Int.toNat_eq_zero.mpr (Int.sub_nonpos_of_le (Int.le_refl (rs.length : ℤ)))
  unfold BTreePage.insert at hok
  rw [hn, ok_bind, hrounds, BTreePage.shiftUp, ok_bind, hn, ok_bind] at hok
  obtain ⟨old, hold, hlogs⟩ := canLog_of_set hlog (contents_of_block hblk) hrep.size hok
  obtain ⟨m, -, hm⟩ := bind_eq_ok.mp hold
  cases hm
  exact hlogs

variable [Inhabited P]

/-- A page with these records and the room for one more, where all that can be overwritten can be
logged. -/
structure Writable (F : PageKind P) (B : BlockSize) (layout : Layout) (L : BTreePages.Layout)
    (tx : Transaction) (blk : ℕ) (p : Page) (flag : ℤ) (rs : List (BTreePages.Record P))
    (rest : List (Option (BTreePages.Record P))) : Prop where
  fits : F.Fits layout L
  block : tx.blocks[blk]? = some p
  log : Usable B tx.log.page
  page : Represents B layout F.view L p (PageLists.page flag rs (none :: rest))
  suits : ∀ r ∈ rs, PageLists.Suits L r.dataval
  ints : Logs B tx.fileName (.int 0)
  ready : ReadyTo B layout tx.fileName (rs.length + 1) p

variable {xs ys : List (BTreePages.Record P)} {r : BTreePages.Record P}

theorem Writable.lt (h : Writable F B layout L tx blk p flag rs rest) : blk < tx.blocks.length :=
  (List.getElem?_eq_some_iff.mp h.block).1

theorem insertRecord_takes (h : Writable F B layout L tx blk p flag (xs ++ ys) rest) {v : Value}
    (hv : PageLists.Suits L v) (d : P) :
    Takes B tx blk (fun tx => F.insertRecord B layout blk tx xs.length v d) p (fun q =>
      Represents B layout F.view L q (PageLists.page flag (xs ++ ⟨v, d⟩ :: ys) rest)) := by
  have hB := eight_le h.page
  have hcap := lt_capacity h.page
  have hready := h.ready
  have hle : xs.length ≤ (xs ++ ys).length := by
    rw [List.length_append]
    omega
  have hys : ∀ r ∈ ys, PageLists.Suits L r.dataval :=
    fun r hr => h.suits r (List.mem_append_right xs hr)
  obtain ⟨fs, hnodup, hfields, heq⟩ := h.fits.insertRecord
  obtain ⟨c, hinsert, hset⟩ :=
    bind_eq_ok.mp (PageLists.insertRecord_page flag rest xs ys none d hys hv)
  have hmade := insert_takes h.fits.index h.fits.view_int hB h.lt h.page rfl hle hinsert hcap
    (fun i hi hle => hready i (by omega)) h.ints
  have hwhole := hmade.seq (g := fun tx => ("dataval".toList :: fs).foldlM (fun tx f =>
      tx.set B blk ((PageCell.field xs.length f).pos layout) (valueOf F.view ⟨v, d⟩ f) true) tx)
    (R := fun q => Represents B layout F.view L q
      (PageLists.page flag (xs ++ ⟨v, d⟩ :: ys) rest)) (fun q hq => by
        have hslot : Ready B layout tx.fileName q xs.length := fun f hf =>
          ((hq.2 _ f ⟨by omega, hf⟩ (by omega)).logs _).mp (hready xs.length (by omega) f hf)
        exact (setRecord_takes h.fits.index h.fits.view_int hB h.lt hq.1 hset hslot hnodup hfields
          (fun f _ q log _ => rfl)).mono (fun q h => h.1))
  exact hwhole.of_eq (fun log => heq B blk _ xs.length v d hv)

theorem remove_list (h : Writable F B layout L tx blk p flag (xs ++ r :: ys) rest) :
    Takes B tx blk (fun tx => BTreePage.remove B layout blk tx xs.length) p (fun q =>
      Represents B layout F.view L q (PageLists.page flag (xs ++ ys)
        ((r :: ys).getLast? :: none :: rest))) := by
  have hnum : (PageLists.page flag (xs ++ r :: ys) (none :: rest)).numRecs =
      (xs.length + 1 + ys.length : ℕ) := by
    show ((xs ++ r :: ys).length : ℤ) = _
    rw [List.length_append, List.length_cons]
    omega
  have hlen : xs.length + 1 + ys.length ≤ (xs ++ r :: ys).length + 1 := by
    rw [List.length_append, List.length_cons]
    omega
  have hys : ∀ r ∈ ys, PageLists.Suits L r.dataval :=
    fun r' hr => h.suits r' (List.mem_append_right xs (List.mem_cons_of_mem r hr))
  have hremove := PageLists.remove_page flag (none :: rest) xs ys r hys
  exact (remove_takes h.fits.index h.fits.view_int (eight_le h.page) h.lt h.page hnum hremove hlen
    (lt_capacity h.page) h.ready h.ints).mono (fun q hq => hq.1)

/-- The default records of a new page can be overwritten. -/
theorem ready_fresh (hF : F.Fits layout L) (hlogs : Logs B tx.fileName (.int 0)) {flag : ℤ}
    (hrep : Represents B layout F.view L p (PageLists.page flag [] (PageLists.fresh B L))) :
    ReadyTo B layout tx.fileName (BTreePages.capacity B L) p := by
  intro i hi
  have hslot : (PageLists.page flag [] (PageLists.fresh B L)).slots[i]? =
      some (some (BTreePages.Contents.defaultRecord L : BTreePages.Record P)) := by
    show ([] ++ PageLists.fresh B L)[i]? = _
    unfold PageLists.fresh
    rw [List.nil_append, List.getElem?_replicate, if_pos hi]
  refine (hrep.slots i _ hslot).ready ?_
  intro f hf
  by_cases heq : f = "dataval".toList
  · have hvalue : valueOf F.view (BTreePages.Contents.defaultRecord L) f = L.defaultValue :=
      if_pos heq
    rw [hvalue]
    unfold BTreePages.Layout.defaultValue
    cases L.dataval with
    | integer => exact hlogs
    | varchar => exact logs_empty hlogs
    | boolean => exact logs_empty hlogs
  · have hvalue : valueOf F.view (BTreePages.Contents.defaultRecord L) f = .int 0 :=
      (if_neg heq).trans (hF.view_default f)
    rw [hvalue]
    exact hlogs

theorem size_lt_append (B : BlockSize) (tx : Transaction) :
    tx.size < (tx.append B).blocks.length := by
  show tx.blocks.length < (tx.blocks ++ [zeroPage B.bytes]).length
  rw [List.length_append, List.length_singleton]
  exact Nat.lt_succ_self _

/-- The new page is empty, and the old one is where it was. -/
theorem appendNew_ok (h : Writable F B layout L tx blk p flag rs rest)
    (hcounts : Counts B L.slotSize) (flag' : Int32) :
    ∃ log new, BTreePage.appendNew B layout tx flag' =
        .ok (tx.size, withPages (tx.append B) blk tx.size log p new) ∧ Usable B log.page ∧
      Represents B layout F.view L new
        (PageLists.page flag'.toInt [] (PageLists.fresh B L) : BTreePages.Contents P) := by
  have hzero : (tx.append B).blocks[tx.size]? = some (zeroPage B.bytes) :=
    PageLists.getElem?_middle tx.blocks [] _
  obtain ⟨log, new, hformat, hlog, hrep⟩ := run_takes (format_takes h.fits.index h.fits.view_int
    h.fits.view_default (eight_le h.page) (size_lt_append B tx) hcounts (zeroPage_length B.bytes)
    flag') hzero h.log
  have hold : (tx.append B).blocks[blk]? = some p := by
    show (tx.blocks ++ [zeroPage B.bytes])[blk]? = _
    rw [List.getElem?_append_left h.lt, h.block]
  have hpages : withPage (tx.append B) tx.size log new =
      withPages (tx.append B) blk tx.size log p new := by
    rw [withPages_dest, withPage_self hold]
  refine ⟨log, new, ?_, hlog, hrep⟩
  unfold BTreePage.appendNew
  rw [hformat, ok_bind, hpages]
  rfl

theorem withPages_append (h : blk < tx.blocks.length) (log : LogMgr) (q new : Page) :
    withPages (tx.append B) blk tx.size log q new =
      { tx with log := log, blocks := tx.blocks.set blk q ++ [new] } := by
  have hlast : tx.size = (tx.blocks.set blk q).length := List.length_set.symm
  unfold withPages Transaction.append
  dsimp only
  rw [List.set_append_left _ _ h, hlast, PageLists.set_middle]

/-- A split makes a new page, moves the records from the position on, and sets the flag again. -/
theorem split_list (h : Writable F B layout L tx blk p flag (xs ++ ys) rest)
    (hcounts : Counts B L.slotSize) (flag' : Int32) :
    ∃ log q new rest₁ rest₂, BTreePage.split B layout blk tx xs.length flag' = .ok (tx.size,
        { tx with log := log, blocks := tx.blocks.set blk q ++ [new] }) ∧
      Represents B layout F.view L q (PageLists.page flag xs rest₁) ∧
      Represents B layout F.view L new (PageLists.page flag'.toInt ys rest₂) := by
  have hB := eight_le h.page
  have hcap := lt_capacity h.page
  have hready := h.ready
  have hnew := size_lt_append B tx
  have hne : tx.size ≠ blk := Nat.ne_of_gt h.lt
  have hsrc : blk < (tx.append B).blocks.length := Nat.lt_trans h.lt hnew
  obtain ⟨log₁, new₁, hmade, hlog₁, hrep₁⟩ := appendNew_ok h hcounts flag'
  -- the records are moved
  have hnum : (PageLists.page flag (xs ++ ys) (none :: rest)).numRecs =
      (xs.length + ys.length : ℕ) := by
    show ((xs ++ ys).length : ℤ) = _
    rw [List.length_append]
  rw [List.length_append] at hready hcap
  have hroom : ys.length ≤ (PageLists.fresh B L : List (Option (BTreePages.Record P))).length := by
    rw [PageLists.fresh_length]
    omega
  have hmoved := PageLists.transferFrom_page flag flag'.toInt (none :: rest) (PageLists.fresh B L)
    xs ys [] (fun r hr => h.suits r (List.mem_append_right xs hr)) hroom
  obtain ⟨log₂, q, new₂, htransfer, hlog₂, hrep₂, hrepd₂⟩ := transferFrom_ok h.fits.index
    h.fits.view_int hB hne hsrc hnew h.ints h.page hrep₁ hnum rfl hmoved (Nat.lt_succ_self _)
    (Nat.le_succ _) hcap hready (ready_fresh h.fits h.ints hrep₁) hlog₁
  obtain ⟨n, hn, hval⟩ :=
    getNumRecs_eq h.page (contents_source (tx.append B) hne hsrc log₁ p new₁)
  have hrounds : (n.toInt - (xs.length : ℤ)).toNat + 1 = ys.length + 1 := by omega
  change BTreePage.transferFrom B layout blk xs.length tx.size (ys.length + 1) 0 _ = _ at htransfer
  -- the flag of the new page
  have hnew₂ : tx.size < (withPage (tx.append B) blk (tx.append B).log q).blocks.length := by
    show tx.size < ((tx.append B).blocks.set blk q).length
    rw [List.length_set]
    exact hnew
  obtain ⟨log₃, new₃, hflag, -, hrep₃⟩ :=
    setFlag_takes h.fits.index hB hnew₂ hrepd₂ h.ints flag' log₂ hlog₂
  dsimp only at hflag
  rw [← withPages_dest, ← withPages_dest] at hflag
  refine ⟨log₃, q, new₃, _, _, ?_, hrep₂, hrep₃⟩
  unfold BTreePage.split BTreePage.transferRecs
  rw [hmade, ok_bind]
  dsimp only
  rw [hn, ok_bind, hrounds, htransfer, ok_bind, hflag, ok_bind, withPages_append h.lt]
  rfl

end Writes

section Conditions

variable {P : Type} [Inhabited P] {F : PageKind P} {B : BlockSize} {info : FieldInfo}
  {layout : Layout} {L : BTreePages.Layout} {tx tx' : Transaction} {blk i : ℕ} {p : Page}
  {rs xs ys : List (BTreePages.Record P)} {rest : List (Option (BTreePages.Record P))} {flag : ℤ}

/-- Only the key of a slot has to be looked at: an `int` is always read, and all of them are logged
alike. -/
theorem ready_iff (h : IndexLayout layout L) (hB : 8 ≤ B.bytes)
    (hp : p.length = B.bytes) (hi : i < BTreePages.capacity B L)
    (hlogs : Logs B tx.fileName (.int 0)) :
    Ready B layout tx.fileName p i ↔
      CanLog B tx.fileName p ((PageCell.field i "dataval".toList).pos layout)
        (fieldKind layout "dataval".toList) := by
  constructor
  · intro hready
    exact hready _ h.dataval
  · intro hcan f hf
    by_cases heq : f = "dataval".toList
    · rw [heq]
      exact hcan
    · obtain ⟨hstart, hend⟩ := (h.places hB).inside (.field i f) ⟨hi, hf⟩
      have hfour := (h.places hB).four_le (.field i f) ⟨hi, hf⟩
      have hB' := B.lt_int
      have hget := Page.getInt_ok p _ hstart (by omega) (by omega)
      rw [h.fieldKind_of_ne hf heq]
      exact ⟨_, get_int_iff.mpr hget, hlogs⟩

theorem writable_of_canWrite (h : IndexPage F B info layout tx blk rs)
    (hF : F.Fits layout (keysOf layout.schema info)) (hcan : CanWrite B layout tx blk rs.length) :
    ∃ p flag rest, BTreePage.getFlag tx blk = .ok flag ∧
      Writable F B layout (keysOf layout.schema info) tx blk p flag.toInt rs rest := by
  obtain ⟨p, flag, rest, hblk, hflag, hrep⟩ := h.represents hF
  have hcap := lt_capacity hrep
  refine ⟨p, flag, rest, hflag, hF, hblk, h.log, hrep,
    fun r hr => suits_keysOf _ (h.within r hr), hcan.ints, ?_⟩
  intro i hi
  rw [ready_iff hF.index (eight_le hrep) hrep.size (by omega) hcan.ints]
  obtain ⟨old, hold, hlogs⟩ := hcan.datavals i (by omega)
  unfold BTreePage.getDataVal at hold
  rw [hF.index.getValue_eq hF.index.dataval (contents_of_block hblk)] at hold
  exact ⟨old, hold, hlogs⟩

theorem insertRecord_acts (h : Writable F B layout L tx blk p flag rs rest) {s : ℕ}
    (hs : s ≤ rs.length) {v : Value} (hv : PageLists.Suits L v) (d : P) :
    ∃ log q, F.insertRecord B layout blk tx s v d = .ok (withPage tx blk log q) ∧
      Lists F layout (withPage tx blk log q) blk (rs.insertIdx s ⟨v, d⟩) := by
  obtain ⟨xs, ys, rfl, rfl⟩ := exists_append hs
  obtain ⟨log, q, hok, -, hq⟩ := run_takes (insertRecord_takes h hv d) h.block h.log
  refine ⟨log, q, hok, ?_⟩
  rw [insertIdx_append]
  refine lists_of_represents h.fits hq ?_ (contents_withPage h.lt log q)
  intro r hr
  rcases List.mem_append.mp hr with hr | hr
  · exact h.suits r (List.mem_append_left ys hr)
  · cases hr with
    | head => exact hv
    | tail _ hr => exact h.suits r (List.mem_append_right xs hr)

theorem remove_acts (h : Writable F B layout L tx blk p flag rs rest) {s : ℕ}
    (hs : s < rs.length) :
    ∃ log q, BTreePage.remove B layout blk tx s = .ok (withPage tx blk log q) ∧
      Lists F layout (withPage tx blk log q) blk (rs.eraseIdx s) := by
  obtain ⟨xs, ys, rfl, rfl⟩ := exists_append (Nat.le_of_lt hs)
  cases ys with
  | nil =>
    rw [List.append_nil] at hs
    exact absurd hs (Nat.lt_irrefl _)
  | cons r ys =>
    obtain ⟨log, q, hok, -, hq⟩ := run_takes (remove_list h) h.block h.log
    refine ⟨log, q, hok, ?_⟩
    rw [eraseIdx_append]
    refine lists_of_represents h.fits hq ?_ (contents_withPage h.lt log q)
    intro r' hr
    apply h.suits
    rcases List.mem_append.mp hr with hr | hr
    · exact List.mem_append_left _ hr
    · exact List.mem_append_right xs (List.mem_cons_of_mem r hr)

theorem split_acts (h : Writable F B layout L tx blk p flag rs rest)
    (hcounts : Counts B L.slotSize) {s : ℕ} (hs : s ≤ rs.length) (flag' : Int32) :
    ∃ log q new tx', BTreePage.split B layout blk tx s flag' = .ok (tx.size, tx') ∧
      tx' = { tx with log := log, blocks := tx.blocks.set blk q ++ [new] } ∧
      Lists F layout tx' blk (rs.take s) ∧
      BTreePage.getFlag tx' blk = .ok (Int32.ofInt flag) ∧
      Lists F layout tx' tx.size (rs.drop s) ∧ BTreePage.getFlag tx' tx.size = .ok flag' := by
  obtain ⟨xs, ys, rfl, rfl⟩ := exists_append hs
  obtain ⟨log, q, new, rest₁, rest₂, hok, hq, hnew⟩ := split_list h hcounts flag'
  refine ⟨log, q, new, _, hok, rfl, ?_⟩
  have hsource : Transaction.contents
      { tx with log := log, blocks := tx.blocks.set blk q ++ [new] } blk = .ok q :=
    contents_of_block (PageLists.set_append_self [new] q h.lt)
  have htarget : Transaction.contents
      { tx with log := log, blocks := tx.blocks.set blk q ++ [new] } tx.size = .ok new :=
    contents_of_block (PageLists.set_append_new tx.blocks blk q new)
  refine ⟨?_, getFlag_eq hq hsource, ?_, ?_⟩
  · rw [List.take_left]
    exact lists_of_represents h.fits hq
      (fun r hr => h.suits r (List.mem_append_left ys hr)) hsource
  · rw [List.drop_left]
    exact lists_of_represents h.fits hnew
      (fun r hr => h.suits r (List.mem_append_right xs hr)) htarget
  · rw [getFlag_eq hnew htarget]
    exact congrArg Except.ok (Int32.ofInt_toInt flag')

/-- Whatever the calls overwrite can be logged. -/
theorem acts_of_canWrite (h : IndexPage F B info layout tx blk rs)
    (hF : F.Fits layout (keysOf layout.schema info))
    (hcan : CanWrite B layout tx blk rs.length) : ActsAsList F B info layout tx blk rs := by
  obtain ⟨p, flag, rest, hflag, hw⟩ := writable_of_canWrite h hF hcan
  refine ⟨?_, fun s hs => remove_acts hw hs, ?_⟩
  · intro s hs v d hv
    exact insertRecord_acts hw hs (suits_keysOf _ hv) d
  · intro s hs flag'
    obtain ⟨log, q, new, tx', hok, htx, hsource, hsame, htarget, hset⟩ :=
      split_acts hw hcan.counts hs flag'
    rw [Int32.ofInt_toInt] at hsame
    exact ⟨log, q, new, tx', hok, htx, hsource, hsame.trans hflag.symm, htarget, hset⟩

/-- The slot that is written is one that can be logged, since the shift before has not changed
it. -/
theorem ready_of_insertRecord (hF : F.Fits layout L) (hblk : tx.blocks[blk]? = some p)
    (hlog : Usable B tx.log.page)
    (hrep : Represents B layout F.view L p (PageLists.page flag (xs ++ ys) (none :: rest)))
    (hys : ∀ r ∈ ys, PageLists.Suits L r.dataval) (hlogs : Logs B tx.fileName (.int 0))
    (hready : ∀ i, xs.length < i → i ≤ (xs ++ ys).length → Ready B layout tx.fileName p i)
    {v : Value} (hv : PageLists.Suits L v) {d : P}
    (hok : F.insertRecord B layout blk tx xs.length v d = .ok tx') :
    Ready B layout tx.fileName p xs.length := by
  have hlt := (List.getElem?_eq_some_iff.mp hblk).1
  have hB := eight_le hrep
  have hcap := lt_capacity hrep
  have hle : xs.length ≤ (xs ++ ys).length := by
    rw [List.length_append]
    omega
  obtain ⟨w, hinsert⟩ := PageLists.insert_page flag rest xs ys none hys
  obtain ⟨log, q, hmade, hlog', hq, hkept⟩ := run_takes
    (insert_takes hF.index hF.view_int hB hlt hrep rfl hle hinsert hcap hready hlogs) hblk hlog
  obtain ⟨fs, -, -, heq⟩ := hF.insertRecord
  rw [heq B blk tx xs.length v d hv, hmade, ok_bind, List.foldlM_cons] at hok
  obtain ⟨tx₁, hset, -⟩ := bind_eq_ok.mp hok
  have hcan := canLog_of_set hlog'.length (contents_withPage hlt log q) hq.size hset
  have hkind : kind (valueOf F.view ⟨v, d⟩ "dataval".toList) = fieldKind layout "dataval".toList :=
    (@value_fits layout L P F.view ⟨v, d⟩ _ hF.index hF.view_int hv hF.index.dataval).1
  rw [hkind] at hcan
  rw [ready_iff hF.index hB hrep.size (by omega) hlogs]
  exact ((hkept _ _ ⟨by omega, hF.index.dataval⟩ (by omega)).logs _).mpr hcan

theorem exists_within (hlength : info.type ≠ .integer → 0 ≤ info.length.toInt) :
    ∃ v, Within info v := by
  by_cases htype : info.type = .integer
  · exact ⟨.int 0, htype⟩
  · exact ⟨.string [], htype, hlength htype⟩

/-- An insertion at a slot overwrites the slots behind it first, so the last slot is looked at
first. -/
theorem ready_of_acts (h : IndexPage F B info layout tx blk rs)
    (hF : F.Fits layout (keysOf layout.schema info))
    (hlength : info.type ≠ .integer → 0 ≤ info.length.toInt)
    (hblk : tx.blocks[blk]? = some p) (hrep : Represents B layout F.view (keysOf layout.schema info)
      p (PageLists.page flag rs (none :: rest))) (hlogs : Logs B tx.fileName (.int 0))
    (hacts : ActsAsList F B info layout tx blk rs) (k : ℕ) :
    ∀ i, rs.length < i + k → i ≤ rs.length → Ready B layout tx.fileName p i := by
  induction k with
  | zero =>
    intro i hlt hle
    omega
  | succ k ih =>
    intro i hlt hle
    obtain ⟨v, hv⟩ := exists_within hlength
    obtain ⟨log, q, hok, -⟩ := hacts.insertRecord i hle v default hv
    obtain ⟨xs, ys, rfl, rfl⟩ := exists_append hle
    have hys : ∀ r ∈ ys, PageLists.Suits (keysOf layout.schema info) r.dataval :=
      fun r hr => suits_keysOf _ (h.within r (List.mem_append_right xs hr))
    exact ready_of_insertRecord hF hblk h.log hrep hys hlogs
      (fun j hj hle => ih j (by omega) hle) (suits_keysOf _ hv) hok

theorem counts_of_split {s : ℤ} {flag' : Int32} {blk' : ℕ} (hF : F.Fits layout L)
    (hone : 0 < BTreePages.capacity B L)
    (hok : BTreePage.split B layout blk tx s flag' = .ok (blk', tx')) :
    Counts B (slotBytes layout.schema layout.schema.fields) := by
  obtain ⟨f, rest, hfields, hoffset⟩ := hF.first
  obtain ⟨⟨new, tx₁⟩, happend, -⟩ := bind_eq_ok.mp hok
  obtain ⟨tx₂, hformat, -⟩ := bind_eq_ok.mp happend
  by_cases hcounts : Counts B L.slotSize
  · rw [← slotSize_eq hF.index]
    exact hcounts
  · exact absurd hformat (format_overflows hF.index hfields hoffset hone hcounts flag')

/-- What the calls need is exactly that. -/
theorem acts_iff (h : IndexPage F B info layout tx blk rs)
    (hF : F.Fits layout (keysOf layout.schema info))
    (hlength : info.type ≠ .integer → 0 ≤ info.length.toInt) :
    ActsAsList F B info layout tx blk rs ↔ CanWrite B layout tx blk rs.length := by
  refine ⟨fun hacts => ?_, acts_of_canWrite h hF⟩
  obtain ⟨p, flag, rest, hblk, -, hrep⟩ := h.represents hF
  obtain ⟨fs, -, -, heq⟩ := hF.insertRecord
  obtain ⟨v, hv⟩ := exists_within hlength
  obtain ⟨log, q, hinsert, -⟩ := hacts.insertRecord rs.length (Nat.le_refl _) v default hv
  rw [heq B blk tx rs.length v default (suits_keysOf _ hv)] at hinsert
  obtain ⟨tx₁, hmade, -⟩ := bind_eq_ok.mp hinsert
  have hints := logs_of_insert hblk h.log.length hrep hmade
  refine ⟨hints, ?_, ?_⟩
  · intro i hi
    have hready := ready_of_acts h hF hlength hblk hrep hints hacts (rs.length + 1) i (by omega) hi
    unfold BTreePage.getDataVal
    rw [hF.index.getValue_eq hF.index.dataval (contents_of_block hblk)]
    exact hready _ hF.index.dataval
  · obtain ⟨log, q, new, tx', hsplit, -⟩ := hacts.split 0 (Nat.zero_le _) 0
    exact counts_of_split hF (Nat.lt_of_le_of_lt (Nat.zero_le _) (lt_capacity hrep)) hsplit

end Conditions

section Results

/-- The pages of leaves and of the directory, whatever the type of the indexed field. -/
theorem page_actsAsList_iff (B : BlockSize) {info : FieldInfo}
    (hlength : info.type ≠ .integer → 0 ≤ info.length.toInt) (layout : Layout) (tx : Transaction)
    (blk : ℕ) :
    (Layout.new (leafSchema info) = .ok layout → ∀ rs, IndexPage leaf B info layout tx blk rs →
      (ActsAsList leaf B info layout tx blk rs ↔ CanWrite B layout tx blk rs.length)) ∧
    (Layout.new (dirSchema (leafSchema info)) = .ok layout →
      ∀ rs, IndexPage dir B info layout tx blk rs →
        (ActsAsList dir B info layout tx blk rs ↔ CanWrite B layout tx blk rs.length)) :=
  ⟨fun hnew _ h => acts_iff h (leaf_made hlength hnew h.slotBytes_lt) hlength,
    fun hnew _ h => acts_iff h (dir_made hlength hnew h.slotBytes_lt) hlength⟩

def emptyPage : Page := encodeInt 400 ++ zeroPage 396

/-- A transaction on a file with one page, and with a log that has no records. -/
def txOf (fileName : Bytes) (p : Page) : Transaction :=
  ⟨1, fileName, ⟨[.append, .write 0 emptyPage], emptyPage, 0, 0, 0⟩, [p]⟩

theorem emptyPage_usable : Usable smallBlocks emptyPage :=
  ⟨by decide +kernel, 400, by decide +kernel, by decide, by decide⟩

/-- A page with one record. -/
theorem indexPage_one {P : Type} {F : PageKind P} {info : FieldInfo} {layout : Layout}
    {fileName : Bytes} {p : Page} {r : BTreePages.Record P} (hlen : p.length = 400)
    (hcount : BTreePage.getNumRecs (txOf fileName p) 0 = .ok 1)
    (hread : readRecord F layout (txOf fileName p) 0 0 = .ok r) (hkey : Within info r.dataval)
    (hroom : slotBytes layout.schema layout.schema.fields ≤ 196) :
    IndexPage F smallBlocks info layout (txOf fileName p) 0 [r] where
  block := ⟨p, rfl, hlen⟩
  log := emptyPage_usable
  lists := by
    refine ⟨⟨1, hcount, rfl⟩, ?_⟩
    intro i r' hi
    cases i with
    | zero =>
      cases hi
      exact hread
    | succ i => cases hi
  within := by
    intro r' hr
    cases List.mem_singleton.mp hr
    exact hkey
  room := by
    show 8 + (1 + 1) * _ ≤ 400
    omega

/-- The leaf has the value 7 for the record 2 of the block 1, and the page of the directory the
value 2 for the block 1. -/
def onePage : Page :=
  encodeInt (-1) ++ encodeInt 1 ++ encodeInt 0 ++ encodeInt 1 ++ encodeInt 2 ++ encodeInt 7 ++
    zeroPage 376

def oneTx : Transaction := txOf [105, 108, 101, 97, 102] onePage

theorem canWrite_one {layout : Layout} {a b : Int32}
    (hfirst : BTreePage.getDataVal layout oneTx 0 0 = .ok (.int a))
    (hsecond : BTreePage.getDataVal layout oneTx 0 1 = .ok (.int b))
    (hcounts : Counts smallBlocks (slotBytes layout.schema layout.schema.fields)) :
    CanWrite smallBlocks layout oneTx 0 1 where
  ints := by decide
  datavals := by
    intro i hi
    have hlogs : Logs smallBlocks oneTx.fileName (.int 0) := by decide
    obtain rfl | rfl : i = 0 ∨ i = 1 := by omega
    · exact ⟨.int a, hfirst, hlogs⟩
    · exact ⟨.int b, hsecond, hlogs⟩
  counts := hcounts

theorem page_actsAsList_one :
    (∃ layout, Layout.new (leafSchema ⟨.integer, 0⟩) = .ok layout ∧
      ActsAsList leaf smallBlocks ⟨.integer, 0⟩ layout oneTx 0 [⟨.int 7, ⟨1, 2⟩⟩]) ∧
    ∃ layout, Layout.new (dirSchema (leafSchema ⟨.integer, 0⟩)) = .ok layout ∧
      ActsAsList dir smallBlocks ⟨.integer, 0⟩ layout oneTx 0 [⟨.int 2, 1⟩] := by
  have hall := fun layout => @page_actsAsList_iff smallBlocks ⟨.integer, 0⟩
    (fun h => absurd rfl h) layout oneTx 0
  constructor
  · obtain ⟨layout, hnew, hpage, hcan⟩ : ∃ layout, Layout.new (leafSchema ⟨.integer, 0⟩) =
        .ok layout ∧ IndexPage leaf smallBlocks ⟨.integer, 0⟩ layout oneTx 0 [⟨.int 7, ⟨1, 2⟩⟩] ∧
        CanWrite smallBlocks layout oneTx 0 1 := by
      refine ⟨_, rfl, indexPage_one ?_ ?_ ?_ rfl ?_, canWrite_one (a := 7) (b := 0) ?_ ?_ ?_⟩
      all_goals decide +kernel
    exact ⟨layout, hnew, ((hall layout).1 hnew _ hpage).mpr hcan⟩
  · obtain ⟨layout, hnew, hpage, hcan⟩ : ∃ layout,
        Layout.new (dirSchema (leafSchema ⟨.integer, 0⟩)) = .ok layout ∧
        IndexPage dir smallBlocks ⟨.integer, 0⟩ layout oneTx 0 [⟨.int 2, 1⟩] ∧
        CanWrite smallBlocks layout oneTx 0 1 := by
      refine ⟨_, rfl, indexPage_one ?_ ?_ ?_ rfl ?_, canWrite_one (a := 2) (b := 0) ?_ ?_ ?_⟩
      all_goals decide +kernel
    exact ⟨layout, hnew, ((hall layout).2 hnew _ hpage).mpr hcan⟩

/-- A page of 400 bytes with the room for two records, and one string of 180 bytes. -/
def longLeaf : Page :=
  encodeInt (-1) ++ encodeInt 1 ++ encodeInt 0 ++ encodeInt 0 ++ encodeInt 0 ++ encodeInt 180 ++
    List.replicate 180 97 ++ zeroPage 196

/-- A file whose name has 13 bytes. -/
def longLeafTx : Transaction :=
  txOf [99, 105, 116, 121, 95, 110, 97, 109, 101, 108, 101, 97, 102] longLeaf

/-- The record that logs the string is too long for the log page by one byte. -/
theorem not_actsAsList : ¬ ∀ (B : BlockSize) (info : FieldInfo) (layout : Layout)
    (tx : Transaction) (blk : ℕ) (rs : List (BTreePages.Record RID)),
    (info.type ≠ .integer → 0 ≤ info.length.toInt) →
    Layout.new (leafSchema info) = .ok layout → IndexPage leaf B info layout tx blk rs →
      ActsAsList leaf B info layout tx blk rs := by
  intro h
  obtain ⟨layout, hnew, hpage, hread⟩ : ∃ layout, Layout.new (leafSchema ⟨.varchar, 180⟩) =
      .ok layout ∧ IndexPage leaf smallBlocks ⟨.varchar, 180⟩ layout longLeafTx 0
        [⟨.string (List.replicate 180 97), ⟨0, 0⟩⟩] ∧
      BTreePage.getDataVal layout longLeafTx 0 0 = .ok (.string (List.replicate 180 97)) := by
    refine ⟨_, rfl, indexPage_one ?_ ?_ ?_ ⟨by decide, by decide +kernel⟩ ?_, ?_⟩
    all_goals decide +kernel
  have hlength : FieldType.varchar ≠ .integer → 0 ≤ (180 : Int32).toInt := fun _ => by decide
  have hacts := h smallBlocks ⟨.varchar, 180⟩ layout longLeafTx 0 _ hlength hnew hpage
  have hcan := (acts_iff hpage (leaf_made hlength hnew hpage.slotBytes_lt) hlength).mp hacts
  obtain ⟨old, hold, hlogs⟩ := hcan.datavals 0 (Nat.zero_le _)
  have hvalue := hread.symm.trans hold
  cases hvalue
  revert hlogs
  decide +kernel

end Results

end SampleDB.IndexPageLists
