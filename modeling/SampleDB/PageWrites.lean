import SampleDB.LoggedUpdates
import SampleDB.PageCells

/-!
Calls that write one block of a file through a transaction. A write that is logged appends a
record of the value that it overwrites, so it succeeds only where that value can be read and its
record fits a log block. A call that goes through leaves another page in the place of the block,
and a log that takes the next record.
-/
namespace SampleDB.PageWrites

open Slices Words Pages Blocks LogRecords Logging Rollback BeforeImage Endings PageValues PageCells
open RecordPages StoredTables LoggedUpdates

/-- The record of the value and its length word fit a log block. -/
def Logs (B : BlockSize) (fileName : Bytes) (old : Value) : Prop :=
  0 ≤ toInt fileName.length ∧ recordSize (toInt fileName.length) old + 4 ≤ B.bytes

instance (B : BlockSize) (fileName : Bytes) (old : Value) : Decidable (Logs B fileName old) :=
  inferInstanceAs (Decidable (_ ∧ _))

section Logged

variable {B : BlockSize} {tx : Transaction} {blk : ℕ} {page : Page} {offset : Int32} {k : Kind}
  {old val : Value} {log : LogMgr}

theorem logs_of_logOld (hlog : tx.log.page.length = B.bytes) (hpage : page.length = B.bytes)
    (h : tx.logOld B blk page offset k = .ok log) :
    ∃ old, get page offset k = .ok old ∧ Logs B tx.fileName old := by
  have hB := B.lt_int
  unfold Transaction.logOld at h
  obtain ⟨old, hold, h⟩ := bind_eq_ok.mp h
  obtain ⟨bytes, hbytes, h⟩ := bind_eq_ok.mp h
  obtain ⟨⟨log', lsn⟩, happend, -⟩ := bind_eq_ok.mp h
  have hshort : ∀ s, old = .string s → s.length + 4 < 2147483648 := by
    rintro s rfl
    have hroom := get_string_length hpage hold
    omega
  obtain ⟨h0, hint, hsize⟩ := writeToLog_ok hshort hbytes
  have hle := append_le happend
  rw [hlog, toInt_eq _ (by omega) (by omega)] at hle
  exact ⟨old, hold, h0, by omega⟩

theorem logOld_of_logs (hlog : Usable B tx.log.page) (hold : get page offset k = .ok old)
    (h : Logs B tx.fileName old) :
    ∃ log, tx.logOld B blk page offset k = .ok log ∧ Usable B log.page := by
  have hB := B.lt_int
  obtain ⟨h0, hfit⟩ := h
  have hsize := recordLength_named tx.fileName old h0
  obtain ⟨bytes, hbytes, hlen⟩ := writeToLog_record (named tx.fileName) tx.txNum
    (Int32.ofInt blk) offset (by omega : recordLength (named tx.fileName) old < 2147483648)
  rw [← writeToLog_named tx.fileName (Int32.ofInt blk) h0] at hbytes
  obtain ⟨log, lsn, happend, husable⟩ := hlog.append (r := bytes) (by omega)
  refine ⟨log, ?_, husable⟩
  unfold Transaction.logOld Transaction.blockId
  rw [hold, ok_bind, hbytes, ok_bind, happend]
  rfl

theorem logs_int {fileName : Bytes} {n m : Int32} (h : Logs B fileName (.int n)) :
    Logs B fileName (.int m) := h

theorem logs_empty {fileName : Bytes} {n : Int32} (h : Logs B fileName (.int n)) :
    Logs B fileName (.string []) := by
  have hle : toInt fileName.length + 24 + 4 ≤ B.bytes := h.2
  refine ⟨h.1, ?_⟩
  show toInt fileName.length + 24 + 2 * ((0 : ℕ) : ℤ) + 4 ≤ B.bytes
  omega

/-- Only the size of the value counts. -/
theorem Logs.congr {fileName : Bytes} {v w : Value} (h : Logs B fileName v)
    (hkind : kind w = kind v) (hsize : w.size = v.size) : Logs B fileName w := by
  cases v with
  | int n =>
    cases w with
    | int m => exact h
    | string s => cases hkind
  | string s =>
    cases w with
    | int m => cases hkind
    | string s' =>
      rw [size_string, size_string] at hsize
      have hlen : s'.length = s.length := by omega
      unfold Logs recordSize at h ⊢
      dsimp only at h ⊢
      rw [hlen]
      exact h

/-- A value is read there, and it can be logged. -/
def CanLog (B : BlockSize) (fileName : Bytes) (p : Page) (offset : Int32) (k : Kind) : Prop :=
  ∃ old, get p offset k = .ok old ∧ Logs B fileName old

theorem CanLog.splice {fileName : Bytes} {p : Page} {i : ℕ} {ys : Bytes}
    (h : CanLog B fileName p offset k) (hfit : i + ys.length ≤ p.length)
    (hdisjoint : offset.toInt + 4 ≤ i ∨ (i + ys.length : ℕ) ≤ offset.toInt) :
    CanLog B fileName (Slices.splice p i ys) offset k := by
  obtain ⟨old, hold, hlogs⟩ := h
  obtain ⟨w, hw, hkind, hsize⟩ := exists_get_splice hfit hdisjoint hold
  exact ⟨w, hw, hlogs.congr hkind hsize⟩

/-- The value that a logged write has overwritten. -/
theorem canLog_of_set {tx' : Transaction} (hlog : tx.log.page.length = B.bytes)
    (hpage : tx.contents blk = .ok page) (hlen : page.length = B.bytes)
    (h : tx.set B blk offset val true = .ok tx') :
    CanLog B tx.fileName page offset (kind val) := by
  unfold Transaction.set at h
  rw [hpage, ok_bind] at h
  obtain ⟨log, hupdate, -⟩ := bind_eq_ok.mp h
  exact logs_of_logOld hlog hlen hupdate

end Logged

/-- The transaction with this log, and with this page in the place of the block. -/
def withPage (base : Transaction) (blk : ℕ) (log : LogMgr) (p : Page) : Transaction :=
  { base with log := log, blocks := base.blocks.set blk p }

/-- From the page `p`, whatever the log, the call leaves a page with the property. -/
def Takes (B : BlockSize) (base : Transaction) (blk : ℕ) (m : Transaction → Result Transaction)
    (p : Page) (Q : Page → Prop) : Prop :=
  ∀ log, Usable B log.page → ∃ log' q, m (withPage base blk log p) =
    .ok (withPage base blk log' q) ∧ Usable B log'.page ∧ Q q

section Rules

variable {B : BlockSize} {base : Transaction} {blk : ℕ} {m g : Transaction → Result Transaction}
  {p : Page} {Q R : Page → Prop}

theorem contents_withPage (h : blk < base.blocks.length) (log : LogMgr) (p : Page) :
    (withPage base blk log p).contents blk = .ok p := by
  unfold Transaction.contents withPage
  dsimp only
  rw [List.getElem?_set_self h]

theorem contents_withPage_ne {other : ℕ} (hne : other ≠ blk) (log : LogMgr) (p : Page) :
    (withPage base blk log p).contents other = base.contents other := by
  unfold Transaction.contents withPage
  dsimp only
  rw [List.getElem?_set_ne (Ne.symm hne)]

theorem withPage_withPage (log log' : LogMgr) (p q : Page) :
    withPage (withPage base blk log p) blk log' q = withPage base blk log' q := by
  unfold withPage
  dsimp only
  rw [List.set_set]

/-- The page that is there. -/
theorem withPage_self {tx : Transaction} (h : tx.blocks[blk]? = some p) :
    withPage tx blk tx.log p = tx := by
  obtain ⟨hlt, rfl⟩ := List.getElem?_eq_some_iff.mp h
  unfold withPage
  rw [List.set_getElem_self]

theorem Takes.mono (h : Takes B base blk m p Q) (hqr : ∀ q, Q q → R q) :
    Takes B base blk m p R := by
  intro log hlog
  obtain ⟨log', q, hm, hlog', hq⟩ := h log hlog
  exact ⟨log', q, hm, hlog', hqr q hq⟩

theorem Takes.skip (h : Q p) : Takes B base blk (fun tx => .ok tx) p Q :=
  fun log hlog => ⟨log, p, rfl, hlog, h⟩

theorem Takes.seq (h : Takes B base blk m p Q) (h' : ∀ q, Q q → Takes B base blk g q R) :
    Takes B base blk (fun tx => m tx >>= g) p R := by
  intro log hlog
  obtain ⟨log₁, q, hm, hlog₁, hq⟩ := h log hlog
  obtain ⟨log₂, r, hrest, hlog₂, hr⟩ := h' q hq log₁ hlog₁
  refine ⟨log₂, r, ?_, hlog₂, hr⟩
  dsimp only
  rw [hm, ok_bind]
  exact hrest

/-- What the call reads does not depend on the log. -/
theorem Takes.of_eq (h : Takes B base blk g p Q)
    (heq : ∀ log, m (withPage base blk log p) = g (withPage base blk log p)) :
    Takes B base blk m p Q := by
  intro log hlog
  rw [heq]
  exact h log hlog

theorem Takes.set {offset : Int32} {val : Value} {okToLog : Bool} {q : Page}
    (hblk : blk < base.blocks.length)
    (hlogs : okToLog = true → CanLog B base.fileName p offset (kind val))
    (hset : Endings.set p offset val = .ok q) :
    Takes B base blk (fun tx => tx.set B blk offset val okToLog) p (fun q' => q' = q) := by
  intro log hlog
  have hupdate : ∃ log', (withPage base blk log p).logUpdate B blk p offset (kind val) okToLog =
      .ok log' ∧ Usable B log'.page := by
    cases okToLog with
    | false => exact ⟨log, rfl, hlog⟩
    | true =>
      obtain ⟨old, hold, hfit⟩ := hlogs rfl
      have hname : Logs B (withPage base blk log p).fileName old := hfit
      exact @logOld_of_logs B (withPage base blk log p) blk p offset (kind val) old hlog hold hname
  obtain ⟨log', hupdate, hlog'⟩ := hupdate
  refine ⟨log', q, ?_, hlog', rfl⟩
  unfold Transaction.set
  dsimp only
  rw [contents_withPage hblk, ok_bind, hupdate, ok_bind, hset, ok_bind]
  exact congrArg Except.ok (withPage_withPage log log' p q)

end Rules

/-- The cell has the value that it had, if it had one, and what is read there can be logged if it
could be logged before. -/
structure Kept {ι : Type} (B : BlockSize) (fileName : Bytes) (pos : ι → Int32) (width : ι → ℕ)
    (p q : Page) (c : ι) : Prop where
  holds : ∀ v, Holds pos width p c v → Holds pos width q c v
  logs : ∀ k, CanLog B fileName p (pos c) k ↔ CanLog B fileName q (pos c) k

section Cells

variable {ι : Type} {B : BlockSize} {fileName : Bytes} {Of : ι → Prop} {pos : ι → Int32}
  {width : ι → ℕ} {p q r : Page} {c c' : ι} {val : Value}

theorem Kept.refl (p : Page) (c : ι) : Kept B fileName pos width p p c :=
  ⟨fun _ h => h, fun _ => Iff.rfl⟩

theorem Kept.trans (h : Kept B fileName pos width p q c) (h' : Kept B fileName pos width q r c) :
    Kept B fileName pos width p r c :=
  ⟨fun v hv => h'.holds v (h.holds v hv), fun k => (h.logs k).trans (h'.logs k)⟩

theorem kept_of_set (h : Places B.bytes Of pos width) (hp : p.length = B.bytes) (hc : Of c)
    (hsize : val.size ≤ width c) (hset : set p (pos c) val = .ok q) (hc' : Of c') (hne : c' ≠ c) :
    Kept B fileName pos width p q c' := by
  have hB := B.lt_int
  refine ⟨fun v hv => h.holds_of_set hB hp hc hsize hset hc' hne hv, fun k => ?_⟩
  obtain ⟨hstart, hend⟩ := h.inside c hc
  have happ := h.apart c c' hc hc' hne
  have hfour := h.four_le c' hc'
  have hlen := valueBytes_length val
  obtain ⟨-, -, rfl⟩ := set_eq_ok (h.isShort hB hc hsize) (by omega) hset
  have hfit : (pos c).toInt.toNat + (valueBytes val).length ≤ p.length := by
    rw [hlen]
    omega
  have hapart : (pos c').toInt + 4 ≤ (pos c).toInt.toNat ∨
      ((pos c).toInt.toNat + (valueBytes val).length : ℕ) ≤ (pos c').toInt := by
    rw [hlen]
    omega
  constructor
  · intro hk
    exact hk.splice hfit hapart
  · intro hk
    -- the old bytes back in their place
    have hback := splice_splice_self p (pos c).toInt.toNat (valueBytes val)
      (slice p (pos c).toInt.toNat (valueBytes val).length)
      (slice_length p _ _ hfit).symm hfit
    rw [splice_slice_self p _ _ hfit] at hback
    rw [← hback]
    refine hk.splice ?_ ?_
    · rw [splice_length p _ _ hfit, slice_length p _ _ hfit]
      exact hfit
    · rw [slice_length p _ _ hfit]
      exact hapart

/-- A write to a cell changes no other cell. -/
theorem Takes.cell {base : Transaction} {blk : ℕ} (okToLog : Bool)
    (h : Places B.bytes Of pos width) (hblk : blk < base.blocks.length) (hp : p.length = B.bytes)
    (hc : Of c) (hsize : val.size ≤ width c)
    (hlogs : okToLog = true → CanLog B base.fileName p (pos c) (kind val)) :
    Takes B base blk (fun tx => tx.set B blk (pos c) val okToLog) p (fun q =>
      q.length = B.bytes ∧ Holds pos width q c val ∧
        ∀ c', Of c' → c' ≠ c → Kept B base.fileName pos width p q c') := by
  obtain ⟨q, hset, hlen, hself, -⟩ := h.set B.lt_int hp hc hsize
  refine (Takes.set hblk hlogs hset).mono ?_
  rintro _ rfl
  exact ⟨hlen, hself, fun c' hc' hne => kept_of_set h hp hc hsize hset hc' hne⟩

end Cells

end SampleDB.PageWrites
