import SampleDB.Patches
import SampleDB.RecordRoundTrip
import SampleDB.Rollback

/-!
Rollback restores the before-image. The undo of a record is a patch of its page, and
a rollback applies the patches of its transaction, the newest first; so the first
update of a location has the last word on it. A SETSTRING record gives its value
back only when it is empty.
-/
namespace SampleDB.BeforeImage

open Slices Words Pages Blocks LogRecords RecordRoundTrip Logging LogState Rollback Patches

section Records

/-- The bytes that a record writes where it is undone. -/
def valueBytes : Value → Bytes
  | .int n => encodeInt n
  | .string s => encodeInt (Int32.ofInt s.length) ++ s

/-- The place and the value that a record restores. -/
def undoPatch (txNum : Int32) : LogRecord Int32 → Option (BlockId × Patch UInt8)
  | .setInt t blk offset val =>
      if t = txNum then some (blk, ⟨offset.toInt.toNat, valueBytes (.int val)⟩) else none
  | .setString t blk offset str =>
      if t = txNum then some (blk, ⟨offset.toInt.toNat, valueBytes (.string str)⟩) else none
  | _ => none

/-- The value of a record lies inside a page of `n` bytes. -/
def InPage (n : ℕ) : LogRecord Int32 → Prop
  | .setInt _ _ offset _ => 0 ≤ offset.toInt ∧ offset.toInt + 4 ≤ n
  | .setString _ _ offset str => 0 ≤ offset.toInt ∧ offset.toInt + 4 + str.length ≤ n
  | _ => True

/-- The patches of one block. -/
def patchesOn (blk : BlockId) (ps : List (BlockId × Patch UInt8)) : List (Patch UInt8) :=
  (ps.filter (fun e => e.1 = blk)).map Prod.snd

theorem patchesOn_cons_self (blk : BlockId) (p : Patch UInt8)
    (ps : List (BlockId × Patch UInt8)) :
    patchesOn blk ((blk, p) :: ps) = p :: patchesOn blk ps := by
  simp [patchesOn]

theorem patchesOn_cons_ne {blk blk' : BlockId} (h : blk' ≠ blk) (p : Patch UInt8)
    (ps : List (BlockId × Patch UInt8)) : patchesOn blk ((blk', p) :: ps) = patchesOn blk ps := by
  simp [patchesOn, h]

theorem undoPatch_none {txNum : Int32} {r : LogRecord Int32} (h : r.txNumber ≠ some txNum) :
    undoPatch txNum r = none := by
  cases r <;> simp_all [undoPatch, LogRecord.txNumber]

/-- Undoing a record of the transaction applies its patch. -/
theorem undo_eq (n : ℕ) (hn : n < 2147483648) (pages : BlockId → Page)
    (hpages : ∀ blk, (pages blk).length = n) (txNum : Int32) (r : LogRecord Int32)
    (hself : r.txNumber = some txNum) (hin : InPage n r) :
    ∃ pages', undo pages r = .ok pages' ∧ (∀ blk, (pages' blk).length = n) ∧
      ∀ blk ps, applyAll (patchesOn blk ps) (pages' blk) =
        applyAll (patchesOn blk ((undoPatch txNum r).toList ++ ps)) (pages blk) := by
  -- both kinds of update splice the bytes of the value into the page
  have hset : ∀ (blk : BlockId) (offset : Int32) (v : Value),
      offset.toInt.toNat + (valueBytes v).length ≤ n →
      (∀ blk', (Function.update pages blk
        (splice (pages blk) offset.toInt.toNat (valueBytes v)) blk').length = n) ∧
      ∀ blk' ps, applyAll (patchesOn blk' ps) (Function.update pages blk
          (splice (pages blk) offset.toInt.toNat (valueBytes v)) blk') =
        applyAll (patchesOn blk' ((blk, ⟨offset.toInt.toNat, valueBytes v⟩) :: ps))
          (pages blk') := by
    intro blk offset v hfit
    constructor
    · intro blk'
      by_cases heq : blk' = blk
      · rw [heq, Function.update_self, splice_length _ _ _ (by rw [hpages]; exact hfit), hpages]
      · rw [Function.update_of_ne heq, hpages]
    · intro blk' ps
      by_cases heq : blk' = blk
      · rw [heq, Function.update_self, patchesOn_cons_self]
        rfl
      · rw [Function.update_of_ne heq, patchesOn_cons_ne (Ne.symm heq)]
  cases r with
  | checkpoint => cases hself
  | start t => exact ⟨pages, rfl, hpages, fun _ _ => rfl⟩
  | commit t => exact ⟨pages, rfl, hpages, fun _ _ => rfl⟩
  | rollback t => exact ⟨pages, rfl, hpages, fun _ _ => rfl⟩
  | setInt t blk offset val =>
    obtain ⟨h0, hle⟩ := hin
    obtain ⟨hlen, happly⟩ := hset blk offset (.int val)
      (by rw [show (valueBytes (.int val)).length = 4 from rfl]; omega)
    refine ⟨_, ?_, hlen, ?_⟩
    · have hok := Page.setInt_ok (pages blk) offset.toInt val h0 (by rw [hpages]; exact hle)
        offset.toInt_lt
      simp only [undo, hok, ok_bind]
      rfl
    · rw [undoPatch, if_pos (Option.some.inj hself)]
      exact happly
  | setString t blk offset str =>
    obtain ⟨h0, hle⟩ := hin
    have hsize : (valueBytes (.string str)).length = 4 + str.length := by
      rw [valueBytes, List.length_append, encodeInt_length]
    obtain ⟨hlen, happly⟩ := hset blk offset (.string str) (by rw [hsize]; omega)
    refine ⟨_, ?_, hlen, ?_⟩
    · have hok := Page.setBytes_ok (pages blk) offset.toInt str h0 (by rw [hpages]; exact hle)
        (by rw [hpages]; exact hn)
      simp only [undo, Page.setString, hok, ok_bind]
      rfl
    · rw [undoPatch, if_pos (Option.some.inj hself)]
      exact happly

/-- The records as they are read back, and their bytes in the log. -/
def ReadAs (rs : List (LogRecord Int32)) (bytes : List Bytes) : Prop :=
  List.Forall₂ (fun r b => createLogRecord b = .ok (some r)) rs bytes

/-- The loop undoes the records of its transaction up to its START record. -/
theorem doRollback_eq (B : BlockSize) (file : File) (txNum : Int32)
    (rs older : List (LogRecord Int32)) (hstart : .start txNum ∉ rs)
    (hin : ∀ r ∈ rs, InPage B.bytes r) (bytes rest : List Bytes) (it : LogIterator)
    (hyields : LogIterator.Yields B file it (bytes ++ rest))
    (hread : ReadAs (rs ++ .start txNum :: older) bytes) (pages : BlockId → Page)
    (hpages : ∀ blk, (pages blk).length = B.bytes) (n : ℕ) (hn : rs.length < n) :
    ∃ pages', doRollback B file txNum n it pages = .ok (some pages') ∧
      (∀ blk, (pages' blk).length = B.bytes) ∧
      ∀ blk, pages' blk =
        applyAll (patchesOn blk (rs.filterMap (undoPatch txNum))) (pages blk) := by
  induction rs generalizing bytes it pages n with
  | nil =>
    cases hread with
    | cons hfirst hrest =>
      cases hyields with
      | more _ it' _ _ hnext hstep hmore =>
        obtain ⟨n, rfl⟩ : ∃ m, n = m + 1 := ⟨n - 1, by omega⟩
        refine ⟨pages, ?_, hpages, fun _ => rfl⟩
        unfold doRollback
        simp only [hnext, hstep, hfirst, ok_bind, if_true, LogRecord.txNumber]
  | cons r rs ih =>
    cases hread with
    | cons hfirst hrest =>
      cases hyields with
      | more _ it' _ _ hnext hstep hmore =>
        obtain ⟨n, rfl⟩ : ∃ m, n = m + 1 := ⟨n - 1, by omega⟩
        have hlt : rs.length < n := by
          rw [List.length_cons] at hn
          omega
        have hstart' : .start txNum ∉ rs := fun hmem => hstart (List.mem_cons_of_mem r hmem)
        have hin' := fun r' hr' => hin r' (List.mem_cons_of_mem r hr')
        by_cases hself : r.txNumber = some txNum
        · obtain ⟨pages₁, hundo, hlen, happly⟩ :=
            undo_eq B.bytes B.lt_int pages hpages txNum r hself
            (hin r List.mem_cons_self)
          obtain ⟨pages', hloop, hlen', hpages'⟩ :=
            ih hstart' hin' _ it' hmore hrest pages₁ hlen n hlt
          refine ⟨pages', ?_, hlen', ?_⟩
          · unfold doRollback
            simp only [hnext, hstep, hfirst, ok_bind, if_true, hself]
            cases r with
            | start t =>
              rw [Option.some.inj hself] at hstart
              exact absurd List.mem_cons_self hstart
            | checkpoint => simp only [hundo, ok_bind, hloop]
            | commit t => simp only [hundo, ok_bind, hloop]
            | rollback t => simp only [hundo, ok_bind, hloop]
            | setInt t blk offset val => simp only [hundo, ok_bind, hloop]
            | setString t blk offset str => simp only [hundo, ok_bind, hloop]
          · intro blk
            rw [hpages', happly, List.filterMap_cons]
            cases undoPatch txNum r <;> rfl
        · obtain ⟨pages', hloop, hlen', hpages'⟩ :=
            ih hstart' hin' _ it' hmore hrest pages hpages n hlt
          refine ⟨pages', ?_, hlen', ?_⟩
          · unfold doRollback
            simp only [hnext, hstep, hfirst, ok_bind, if_true, hself, if_false]
            exact hloop
          · intro blk
            rw [hpages', List.filterMap_cons, undoPatch_none hself]

end Records

section Log

variable {B : BlockSize} {log : LogMgr} {recs : List (LogRecord Int32)}

/-- What the log gives back of this session, the newest record first. -/
def LogReads (B : BlockSize) (log : LogMgr) (recs : List (LogRecord Int32)) : Prop :=
  ∃ unsaved saved bytes earlier, Holds B log unsaved saved ∧ unsaved ++ saved = bytes ++ earlier ∧
    ReadAs recs bytes ∧ ∀ r ∈ recs, InPage B.bytes r

theorem LogReads.append (h : LogReads B log recs) (r : LogRecord Int32) (bytes : Bytes)
    (hfit : bytes.length + 8 ≤ B.bytes) (hread : createLogRecord bytes = .ok (some r))
    (hin : InPage B.bytes r) :
    ∃ log' lsn, log.append B bytes = .ok (log', lsn) ∧ LogReads B log' (r :: recs) := by
  obtain ⟨unsaved, saved, all, earlier, hholds, hsplit, hall, hinpage⟩ := h
  obtain ⟨log', happend, -, -, hcases⟩ := hholds.append bytes hfit
  have hinpage' : ∀ r' ∈ r :: recs, InPage B.bytes r' := by
    intro r' hr'
    rcases List.mem_cons.mp hr' with rfl | hr'
    · exact hin
    · exact hinpage r' hr'
  refine ⟨log', _, happend, ?_⟩
  rcases hcases with hholds' | hholds'
  · exact ⟨_, _, bytes :: all, earlier, hholds', by rw [List.cons_append, hsplit]; rfl,
      .cons hread hall, hinpage'⟩
  · exact ⟨_, _, bytes :: all, earlier, hholds', by rw [hsplit]; rfl, .cons hread hall, hinpage'⟩

theorem LogReads.flush (h : LogReads B log recs) (lsn : ℤ) : LogReads B (log.flush lsn) recs := by
  obtain ⟨unsaved, saved, all, earlier, hholds, hsplit, hrest⟩ := h
  rcases (hholds.flush lsn).2.2 with hholds' | ⟨hholds', -⟩
  · exact ⟨[], unsaved ++ saved, all, earlier, hholds', by rw [List.nil_append, hsplit], hrest⟩
  · exact ⟨unsaved, saved, all, earlier, hholds', hsplit, hrest⟩

theorem LogReads.iterator (h : LogReads B log recs) :
    ∃ log' it bytes earlier, log.iterator B = .ok (log', it) ∧ LogReads B log' recs ∧
      LogIterator.Yields B log'.file it (bytes ++ earlier) ∧ ReadAs recs bytes ∧
      ∀ r ∈ recs, InPage B.bytes r := by
  obtain ⟨unsaved, saved, all, earlier, hholds, hsplit, hall, hinpage⟩ := h
  obtain ⟨log', it, hit, hholds', -, -, -, hyields⟩ := hholds.iterator
  rw [hsplit] at hholds' hyields
  exact ⟨log', it, all, earlier, hit,
    ⟨[], all ++ earlier, all, earlier, hholds', rfl, hall, hinpage⟩, hyields, hall, hinpage⟩

/-- An old value of at least four bytes reads back as the empty one. -/
theorem setString_readBack (B : BlockSize) (txNum : Int32) (blk : BlockId) (offset : Int32)
    (str : Bytes) (hfit : blk.fileName.length + 32 + 2 * str.length ≤ B.bytes)
    (hstr : str = [] ∨ 4 ≤ str.length) :
    ∃ bytes, SetStringRecord.writeToLog txNum blk offset str = .ok bytes ∧
      bytes.length + 8 ≤ B.bytes ∧
      createLogRecord bytes = .ok (some (.setString txNum blk offset [])) := by
  have hB := B.lt_int
  have hwrite := setString_writeToLog txNum blk offset str (by omega)
  have hlen : (header LogRecord.SETSTRING txNum blk offset ++ zeroPage str.length ++
      (encodeInt (Int32.ofInt str.length) ++ str)).length + 8 ≤ B.bytes := by
    simp only [List.length_append, header_length, zeroPage_length, encodeInt_length]
    omega
  refine ⟨_, hwrite, hlen, ?_⟩
  obtain ⟨post, hgap⟩ : ∃ post, zeroPage str.length ++
      (encodeInt (Int32.ofInt str.length) ++ str) = encodeInt 0 ++ post := by
    rcases hstr with rfl | hlong
    · exact ⟨[], rfl⟩
    · refine ⟨zeroPage (str.length - 4) ++ (encodeInt (Int32.ofInt str.length) ++ str), ?_⟩
      have hzero : encodeInt 0 = zeroPage 4 := by decide
      have hsplit : zeroPage str.length = zeroPage 4 ++ zeroPage (str.length - 4) := by
        unfold zeroPage
        rw [← List.replicate_add]
        congr 1
        omega
      rw [hzero, hsplit, List.append_assoc]
  rw [List.append_assoc, hgap] at hlen ⊢
  simp only [List.length_append, header_length, encodeInt_length] at hlen
  unfold createLogRecord
  simp only [getInt_header, ok_bind, setString_read_nil txNum blk offset post (by omega)]
  rfl

end Log

/-- The patch by which a rollback undoes an update, when every string value is lost. -/
def undone (w : Write) : BlockId × Patch UInt8 :=
  match w.old with
  | .int n => (w.blk, ⟨w.offset.toInt.toNat, valueBytes (.int n)⟩)
  | .string _ => (w.blk, ⟨w.offset.toInt.toNat, valueBytes (.string [])⟩)

/-- The updates of one transaction. -/
def writesOf (txNum : Int32) (writes : List Write) : List Write :=
  writes.filter (fun w => w.txNum = txNum)

/-- The log records of the transaction, up to its START record, undo its updates. -/
def Begun (txNum : Int32) (recs : List (LogRecord Int32)) (writes : List Write) : Prop :=
  ∃ rs older, recs = rs ++ .start txNum :: older ∧ .start txNum ∉ rs ∧
    rs.filterMap (undoPatch txNum) = (writesOf txNum writes).map undone

section Begun

variable {txNum : Int32} {recs : List (LogRecord Int32)} {writes : List Write}

theorem Begun.other (h : Begun txNum recs writes) {r : LogRecord Int32}
    (hr : undoPatch txNum r = none) (hstart : r ≠ .start txNum) :
    Begun txNum (r :: recs) writes := by
  obtain ⟨rs, older, rfl, hnot, hpatches⟩ := h
  refine ⟨r :: rs, older, rfl, ?_, ?_⟩
  · intro hmem
    rcases List.mem_cons.mp hmem with heq | hmem
    · exact hstart heq.symm
    · exact hnot hmem
  · rw [List.filterMap_cons, hr]
    exact hpatches

/-- An update and its log record. -/
theorem Begun.write (h : Begun txNum recs writes) {r : LogRecord Int32} (w : Write)
    (hr : undoPatch txNum r = if w.txNum = txNum then some (undone w) else none)
    (hstart : r ≠ .start txNum) : Begun txNum (r :: recs) (w :: writes) := by
  obtain ⟨rs, older, rfl, hnot, hpatches⟩ := h
  refine ⟨r :: rs, older, rfl, ?_, ?_⟩
  · intro hmem
    rcases List.mem_cons.mp hmem with heq | hmem
    · exact hstart heq.symm
    · exact hnot hmem
  · unfold writesOf at hpatches ⊢
    rw [List.filterMap_cons, hr]
    by_cases hself : w.txNum = txNum
    · rw [if_pos hself, List.filter_cons_of_pos (by simpa using hself), List.map_cons, hpatches]
    · rw [if_neg hself, List.filter_cons_of_neg (by simpa using hself)]
      exact hpatches

end Begun

/-- The records of the calls fit the log blocks, every string value that is logged is empty or
has at least four bytes, and where the transaction `txNum` sets a string for the first time it
finds the empty one. -/
def Undoable (B : BlockSize) (txNum : Int32) (s : Db) : DbOp → Prop
  | .setInt _ blk _ _ => blk.fileName.length + 32 ≤ B.bytes
  | .setString t blk offset _ => ∀ old, (s.pages blk).getString offset.toInt = .ok old →
      blk.fileName.length + 32 + 2 * old.length ≤ B.bytes ∧ (old = [] ∨ 4 ≤ old.length) ∧
        (t = txNum → old = [] ∨ ∃ w ∈ writesOf txNum s.writes,
          w.SameLocation ⟨txNum, blk, offset, .string old⟩)
  | .flush _ => True
  | _ => 16 ≤ B.bytes

/-- What holds in every run; `first` is about the first string that is set at a location. -/
structure DbInv (B : BlockSize) (txNum : Int32) (s : Db) : Prop where
  pages : ∀ blk, (s.pages blk).length = B.bytes
  number : 0 ≤ s.nextTxNum.toInt
  active : ∀ t ∈ s.active, t.toInt ≤ s.nextTxNum.toInt
  numbers : ∀ w ∈ s.writes, w.txNum.toInt ≤ s.nextTxNum.toInt
  inPage : ∀ w ∈ s.writes, 0 ≤ w.offset.toInt ∧ w.offset.toInt + 4 ≤ B.bytes
  first : ∀ newer older w str, writesOf txNum s.writes = newer ++ w :: older →
    w.old = .string str → str = [] ∨ ∃ w' ∈ older, w'.SameLocation w
  log : ∃ recs, LogReads B s.log recs ∧
    (txNum ∈ s.active → 16 ≤ B.bytes ∧ Begun txNum recs s.writes)

section Steps

variable {B : BlockSize} {txNum : Int32} {s s' : Db}

theorem DbInv.begin (h : DbInv B txNum s) (hB : 16 ≤ B.bytes) (hstep : s.begin B = .ok s') :
    DbInv B txNum s' := by
  unfold Db.begin at hstep
  split at hstep
  · cases hstep
  · rename_i hmax
    obtain ⟨bytes, hwrite, hfit, hread⟩ := readBack_fits B (.start (s.nextTxNum + 1)) hB
    change StartRecord.writeToLog _ = _ at hwrite
    obtain ⟨recs, hlog, hbegun⟩ := h.log
    obtain ⟨log', lsn, happend, hlog'⟩ := hlog.append _ bytes hfit hread trivial
    simp only [hwrite, happend, ok_bind] at hstep
    cases hstep
    have hnumber := h.number
    have hlt := s.nextTxNum.toInt_lt
    have hnext : (s.nextTxNum + 1).toInt = s.nextTxNum.toInt + 1 := by
      rw [Int32.toInt_add]
      exact Int.bmod_eq_of_le (by simp; omega) (by simp; omega)
    constructor
    · exact h.pages
    · dsimp only
      omega
    · intro t ht
      dsimp only at ht ⊢
      rcases List.mem_cons.mp ht with rfl | ht
      · exact Int.le_refl _
      · have hle := h.active t ht
        omega
    · intro w hw
      have hle := h.numbers w hw
      dsimp only
      omega
    · exact h.inPage
    · exact h.first
    · refine ⟨_, hlog', ?_⟩
      intro hactive
      refine ⟨hB, ?_⟩
      by_cases heq : s.nextTxNum + 1 = txNum
      · refine ⟨[], recs, by rw [heq]; rfl, List.not_mem_nil, ?_⟩
        have hnil : writesOf txNum s.writes = [] := by
          rw [writesOf, List.filter_eq_nil_iff]
          intro w hw hself
          have hle := h.numbers w hw
          rw [of_decide_eq_true hself, ← heq] at hle
          omega
        rw [hnil]
        rfl
      · have hold : txNum ∈ s.active := by
          rcases List.mem_cons.mp hactive with hself | hold
          · exact absurd hself.symm heq
          · exact hold
        refine (hbegun hold).2.other rfl ?_
        intro hstart
        cases hstart
        exact heq rfl

/-- A page is replaced by one of the same length. -/
theorem update_length {n : ℕ} {pages : BlockId → Page} (h : ∀ blk, (pages blk).length = n)
    (blk : BlockId) (page : Page) (hpage : page.length = n) (blk' : BlockId) :
    (Function.update pages blk page blk').length = n := by
  by_cases heq : blk' = blk
  · rw [heq, Function.update_self, hpage]
  · rw [Function.update_of_ne heq, h]

/-- The older updates of one location are those before the new one. -/
theorem first_cons {writes : List Write}
    (h : ∀ newer older w str, writesOf txNum writes = newer ++ w :: older →
      w.old = .string str → str = [] ∨ ∃ w' ∈ older, w'.SameLocation w) (w₀ : Write)
    (hw₀ : ∀ str, w₀.txNum = txNum → w₀.old = .string str →
      str = [] ∨ ∃ w' ∈ writesOf txNum writes, w'.SameLocation w₀) :
    ∀ newer older w str, writesOf txNum (w₀ :: writes) = newer ++ w :: older →
      w.old = .string str → str = [] ∨ ∃ w' ∈ older, w'.SameLocation w := by
  intro newer older w str hsplit hold
  unfold writesOf at hsplit
  by_cases hself : w₀.txNum = txNum
  · rw [List.filter_cons_of_pos (by simpa using hself)] at hsplit
    cases newer with
    | nil =>
      obtain ⟨rfl, rfl⟩ := List.cons.inj hsplit
      exact hw₀ str hself hold
    | cons w₁ newer =>
      obtain ⟨-, hrest⟩ := List.cons.inj hsplit
      exact h newer older w str hrest hold
  · rw [List.filter_cons_of_neg (by simpa using hself)] at hsplit
    exact h newer older w str hsplit hold

theorem DbInv.setInt (h : DbInv B txNum s) {t : Int32} {blk : BlockId} {offset val : Int32}
    (hactive : t ∈ s.active) (hfit : blk.fileName.length + 32 ≤ B.bytes)
    (hstep : s.setInt B t blk offset val = .ok s') : DbInv B txNum s' := by
  unfold Db.setInt at hstep
  obtain ⟨oldVal, hold, hstep⟩ := bind_eq_ok.mp hstep
  obtain ⟨h0, hle, -⟩ := Page.getInt_eq_ok _ _ _ offset.toInt_lt hold
  rw [h.pages] at hle
  obtain ⟨bytes, hwrite, hbytes, hread⟩ := readBack_fits B (.setInt t blk offset oldVal) hfit
  change SetIntRecord.writeToLog _ _ _ _ = _ at hwrite
  obtain ⟨recs, hlog, hbegun⟩ := h.log
  obtain ⟨log', lsn, happend, hlog'⟩ := hlog.append _ bytes hbytes hread ⟨h0, hle⟩
  simp only [hwrite, happend, ok_bind] at hstep
  obtain ⟨page, hpage, hstep⟩ := bind_eq_ok.mp hstep
  cases hstep
  have hlen := Page.setInt_length _ _ _ _ offset.toInt_lt hpage
  rw [h.pages] at hlen
  constructor
  · exact update_length h.pages blk page hlen
  · exact h.number
  · exact h.active
  · intro w hw
    rcases List.mem_cons.mp hw with rfl | hw
    · exact h.active t hactive
    · exact h.numbers w hw
  · intro w hw
    rcases List.mem_cons.mp hw with rfl | hw
    · exact ⟨h0, hle⟩
    · exact h.inPage w hw
  · refine first_cons h.first _ ?_
    intro str _ hstr
    cases hstr
  · refine ⟨_, hlog', ?_⟩
    intro hmem
    obtain ⟨hB, hold⟩ := hbegun hmem
    exact ⟨hB, hold.write ⟨t, blk, offset, .int oldVal⟩ rfl (fun hstart => by cases hstart)⟩

theorem DbInv.setString (h : DbInv B txNum s) {t : Int32} {blk : BlockId} {offset : Int32}
    {val : Bytes} (hactive : t ∈ s.active) (hok : Undoable B txNum s (.setString t blk offset val))
    (hstep : s.setString B t blk offset val = .ok s') : DbInv B txNum s' := by
  unfold Db.setString at hstep
  obtain ⟨oldVal, hold, hstep⟩ := bind_eq_ok.mp hstep
  obtain ⟨hfit, hstr, hfirst⟩ := hok oldVal hold
  obtain ⟨h0, hle, -, -⟩ := Page.getBytes_eq_ok _ _ _ offset.toInt_lt hold
  rw [h.pages] at hle
  obtain ⟨bytes, hwrite, hbytes, hread⟩ := setString_readBack B t blk offset oldVal hfit hstr
  obtain ⟨recs, hlog, hbegun⟩ := h.log
  obtain ⟨log', lsn, happend, hlog'⟩ := hlog.append _ bytes hbytes hread
    ⟨h0, by rw [List.length_nil]; omega⟩
  simp only [hwrite, happend, ok_bind] at hstep
  obtain ⟨page, hpage, hstep⟩ := bind_eq_ok.mp hstep
  cases hstep
  have hlen := Page.setBytes_length _ _ _ _ offset.toInt_lt hpage
  rw [h.pages] at hlen
  constructor
  · exact update_length h.pages blk page hlen
  · exact h.number
  · exact h.active
  · intro w hw
    rcases List.mem_cons.mp hw with rfl | hw
    · exact h.active t hactive
    · exact h.numbers w hw
  · intro w hw
    rcases List.mem_cons.mp hw with rfl | hw
    · dsimp only
      exact ⟨h0, by omega⟩
    · exact h.inPage w hw
  · refine first_cons h.first _ ?_
    intro str hself heq
    cases heq
    cases hself
    exact hfirst rfl
  · refine ⟨_, hlog', ?_⟩
    intro hmem
    obtain ⟨hB, hold⟩ := hbegun hmem
    exact ⟨hB, hold.write ⟨t, blk, offset, .string oldVal⟩ rfl (fun hstart => by cases hstart)⟩

/-- A transaction ends, with the record of its end in the log. -/
theorem DbInv.finish (h : DbInv B txNum s) (t : Int32) (log' : LogMgr) (pages : BlockId → Page)
    (hpages : ∀ blk, (pages blk).length = B.bytes) (r : LogRecord Int32)
    (hr : undoPatch txNum r = none) (hstart : r ≠ .start txNum)
    (hlog : ∀ recs, LogReads B s.log recs → LogReads B log' (r :: recs)) :
    DbInv B txNum { s with log := log', pages := pages, active := s.active.erase t } where
  pages := hpages
  number := h.number
  active := fun t' ht' => h.active t' (List.mem_of_mem_erase ht')
  numbers := h.numbers
  inPage := h.inPage
  first := h.first
  log := by
    obtain ⟨recs, hreads, hbegun⟩ := h.log
    refine ⟨_, hlog recs hreads, ?_⟩
    intro hmem
    obtain ⟨hB, hold⟩ := hbegun (List.mem_of_mem_erase hmem)
    exact ⟨hB, hold.other hr hstart⟩

theorem DbInv.commit (h : DbInv B txNum s) {t : Int32} (hB : 16 ≤ B.bytes)
    (hstep : s.commit B t = .ok s') : DbInv B txNum s' := by
  unfold Db.commit at hstep
  obtain ⟨bytes, hwrite, hfit, hread⟩ := readBack_fits B (.commit t) hB
  change CommitRecord.writeToLog _ = _ at hwrite
  simp only [hwrite, ok_bind] at hstep
  obtain ⟨⟨log', lsn⟩, happend, hstep⟩ := bind_eq_ok.mp hstep
  cases hstep
  refine h.finish t (log'.flush lsn) s.pages h.pages (.commit t) rfl
    (fun hstart => by cases hstart) ?_
  intro recs hreads
  obtain ⟨log'', lsn', happend', hlog'⟩ := hreads.append _ bytes hfit hread trivial
  cases happend.symm.trans happend'
  exact hlog'.flush lsn

theorem undo_length {n : ℕ} {pages pages' : BlockId → Page}
    (hpages : ∀ blk, (pages blk).length = n) (r : LogRecord Int32)
    (hundo : undo pages r = .ok pages') : ∀ blk, (pages' blk).length = n := by
  cases r with
  | checkpoint =>
    cases hundo
    exact hpages
  | start t =>
    cases hundo
    exact hpages
  | commit t =>
    cases hundo
    exact hpages
  | rollback t =>
    cases hundo
    exact hpages
  | setInt t blk offset val =>
    obtain ⟨page, hpage, hundo⟩ := bind_eq_ok.mp hundo
    cases hundo
    have hlen := Page.setInt_length _ _ _ _ offset.toInt_lt hpage
    rw [hpages] at hlen
    exact update_length hpages blk page hlen
  | setString t blk offset str =>
    obtain ⟨page, hpage, hundo⟩ := bind_eq_ok.mp hundo
    cases hundo
    have hlen := Page.setBytes_length _ _ _ _ offset.toInt_lt hpage
    rw [hpages] at hlen
    exact update_length hpages blk page hlen

theorem doRollback_length {n : ℕ} {file : File} {t : Int32} (fuel : ℕ) (it : LogIterator)
    (pages pages' : BlockId → Page) (hpages : ∀ blk, (pages blk).length = n)
    (hloop : doRollback B file t fuel it pages = .ok (some pages')) :
    ∀ blk, (pages' blk).length = n := by
  induction fuel generalizing it pages with
  | zero => cases hloop
  | succ fuel ih =>
    unfold doRollback at hloop
    split at hloop
    · obtain ⟨⟨bytes, it'⟩, -, hloop⟩ := bind_eq_ok.mp hloop
      obtain ⟨logRec, -, hloop⟩ := bind_eq_ok.mp hloop
      cases logRec with
      | none => cases hloop
      | some r =>
        dsimp only at hloop
        split at hloop
        · split at hloop
          · cases hloop
            exact hpages
          · obtain ⟨pages₁, hundo, hloop⟩ := bind_eq_ok.mp hloop
            exact ih it' pages₁ (undo_length hpages r hundo) hloop
        · exact ih it' pages hpages hloop
    · cases hloop
      exact hpages

theorem DbInv.rollback (h : DbInv B txNum s) {t : Int32} {fuel : ℕ} (hB : 16 ≤ B.bytes)
    (hstep : s.rollback B fuel t = .ok (some s')) : DbInv B txNum s' := by
  unfold Db.rollback at hstep
  obtain ⟨⟨log₁, it⟩, hit, hstep⟩ := bind_eq_ok.mp hstep
  obtain ⟨result, hloop, hstep⟩ := bind_eq_ok.mp hstep
  cases result with
  | none => cases hstep
  | some pages =>
    obtain ⟨bytes, hwrite, hfit, hread⟩ := readBack_fits B (.rollback t) hB
    change RollbackRecord.writeToLog _ = _ at hwrite
    simp only [hwrite, ok_bind] at hstep
    obtain ⟨⟨log', lsn⟩, happend, hstep⟩ := bind_eq_ok.mp hstep
    cases hstep
    refine h.finish t (log'.flush lsn) pages (doRollback_length fuel it s.pages pages h.pages hloop)
      (.rollback t) rfl (fun hstart => by cases hstart) ?_
    intro recs hreads
    obtain ⟨log₂, it', -, -, hit', hreads', -⟩ := hreads.iterator
    cases hit.symm.trans hit'
    obtain ⟨log'', lsn', happend', hlog'⟩ := hreads'.append _ bytes hfit hread trivial
    cases happend.symm.trans happend'
    exact hlog'.flush lsn

theorem step_inv {op : DbOp} (h : DbInv B txNum s) (hok : Undoable B txNum s op)
    (hstep : Db.Step B s op s') : DbInv B txNum s' := by
  cases op with
  | begin => exact h.begin hok hstep
  | setInt t blk offset val => exact h.setInt hstep.1 hok hstep.2
  | setString t blk offset val => exact h.setString hstep.1 hok hstep.2
  | commit t => exact h.commit hok hstep.2
  | rollback t =>
    obtain ⟨-, fuel, hrollback⟩ := hstep
    exact h.rollback hok hrollback
  | flush lsn =>
    cases hstep
    obtain ⟨recs, hreads, hbegun⟩ := h.log
    exact ⟨h.pages, h.number, h.active, h.numbers, h.inPage, h.first, recs,
      hreads.flush lsn, hbegun⟩

end Steps

/-- The two updates are of bytes of their own. -/
def Apart (w w' : Write) : Prop := w.blk = w'.blk → ∀ j, w.Covers j → ¬ w'.Covers j

/-- What a rollback has to do. `w` is the first update of its location, and no other location
that the transaction has written overlaps it. -/
structure RestoresBeforeImage (txNum : Int32) (s s' : Db) : Prop where
  restored : ∀ newer older w, writesOf txNum s.writes = newer ++ w :: older →
    (∀ w' ∈ older, ¬ w'.SameLocation w) →
    (∀ w' ∈ writesOf txNum s.writes, ¬ w'.SameLocation w → Apart w w') →
    w.old.ReadsAt (s'.pages w.blk) w.offset
  unchanged : ∀ blk j, (∀ w ∈ writesOf txNum s.writes, w.blk = blk → ¬ w.Covers j) →
    (s'.pages blk)[j]? = (s.pages blk)[j]?

section Restored

variable {B : BlockSize} {txNum : Int32} {s : Db}

theorem patchesOn_append (blk : BlockId) (ps qs : List (BlockId × Patch UInt8)) :
    patchesOn blk (ps ++ qs) = patchesOn blk ps ++ patchesOn blk qs := by
  simp [patchesOn]

theorem undone_fst (w : Write) : (undone w).1 = w.blk := by
  unfold undone
  cases w.old <;> rfl

theorem undone_pos (w : Write) : (undone w).2.pos = w.offset.toInt.toNat := by
  unfold undone
  cases w.old <;> rfl

theorem undone_vals_length (w : Write) : (undone w).2.vals.length = 4 := by
  unfold undone
  cases w.old <;> rfl

theorem undone_covers {w : Write} {j : ℕ} (h0 : 0 ≤ w.offset.toInt)
    (h : (undone w).2.Covers j) : w.Covers j := by
  obtain ⟨hlow, hhigh⟩ := h
  rw [undone_pos] at hlow hhigh
  rw [undone_vals_length] at hhigh
  have hsize : 4 ≤ w.old.size := by
    unfold Value.size
    split <;> omega
  exact ⟨by omega, by omega⟩

theorem mem_patchesOn {blk : BlockId} {ws : List Write} {p : Patch UInt8}
    (h : p ∈ patchesOn blk (ws.map undone)) : ∃ w ∈ ws, w.blk = blk ∧ (undone w).2 = p := by
  obtain ⟨e, he, rfl⟩ := List.mem_map.mp h
  obtain ⟨hmem, hblk⟩ := List.mem_filter.mp he
  obtain ⟨w, hw, rfl⟩ := List.mem_map.mp hmem
  exact ⟨w, hw, (undone_fst w).symm.trans (of_decide_eq_true hblk), rfl⟩

theorem DbInv.fits (h : DbInv B txNum s) {blk : BlockId} (ws : List Write)
    (hws : ∀ w ∈ ws, w ∈ s.writes) {p : Patch UInt8} (hp : p ∈ patchesOn blk (ws.map undone)) :
    p.Fits B.bytes := by
  obtain ⟨w, hw, -, rfl⟩ := mem_patchesOn hp
  obtain ⟨h0, hle⟩ := h.inPage w (hws w hw)
  unfold Patch.Fits
  rw [undone_pos, undone_vals_length]
  omega

/-- The patches of the transaction restore the before-image. -/
theorem DbInv.restores (h : DbInv B txNum s) (s' : Db)
    (hpages : ∀ blk, s'.pages blk =
      applyAll (patchesOn blk ((writesOf txNum s.writes).map undone)) (s.pages blk)) :
    RestoresBeforeImage txNum s s' := by
  have hmem : ∀ w ∈ writesOf txNum s.writes, w ∈ s.writes := fun w hw => (List.mem_filter.mp hw).1
  constructor
  · intro newer older w hsplit hfirst hapart
    have hw : w ∈ writesOf txNum s.writes := by
      rw [hsplit]
      simp
    have holder : ∀ w' ∈ older, w' ∈ writesOf txNum s.writes := by
      intro w' hw'
      rw [hsplit]
      simp [hw']
    obtain ⟨h0, hle⟩ := h.inPage w (hmem w hw)
    have hB := B.lt_int
    -- the patches that come after the one of `w`
    have hpage : s'.pages w.blk = applyAll ((undone w).2 ::
        patchesOn w.blk (older.map undone)) (applyAll (patchesOn w.blk (newer.map undone))
          (s.pages w.blk)) := by
      rw [hpages, hsplit, List.map_append, List.map_cons, patchesOn_append, applyAll_append]
      congr 1
      have hcons := patchesOn_cons_self w.blk (undone w).2 (older.map undone)
      rw [← hcons]
      congr 2
      exact Prod.ext (undone_fst w) rfl
    have hnewer : (applyAll (patchesOn w.blk (newer.map undone)) (s.pages w.blk)).length =
        B.bytes := by
      rw [applyAll_length, h.pages]
      intro p hp
      rw [h.pages]
      refine h.fits newer ?_ hp
      intro w' hw'
      refine hmem w' ?_
      rw [hsplit]
      simp [hw']
    have hfits : ∀ p ∈ (undone w).2 :: patchesOn w.blk (older.map undone), p.Fits B.bytes := by
      intro p hp
      rcases List.mem_cons.mp hp with rfl | hp
      · unfold Patch.Fits
        rw [undone_pos, undone_vals_length]
        omega
      · exact h.fits older (fun w' hw' => hmem w' (holder w' hw')) hp
    have hslice : slice (s'.pages w.blk) w.offset.toInt.toNat 4 = (undone w).2.vals := by
      rw [hpage, ← undone_pos w, ← undone_vals_length w]
      refine slice_applyAll (undone w).2 (by rw [hnewer]; exact hfits) ?_
      intro p hp j hj hcov
      obtain ⟨w', hw', hblk, rfl⟩ := mem_patchesOn hp
      have h0' := (h.inPage w' (hmem w' (holder w' hw'))).1
      exact hapart w' (holder w' hw') (hfirst w' hw') hblk.symm j (undone_covers h0 hj)
        (undone_covers h0' hcov)
    have hlen : (s'.pages w.blk).length = B.bytes := by
      rw [hpage, applyAll_length (by rw [hnewer]; exact hfits), hnewer]
    cases hold : w.old with
    | int n =>
      have hvals : (undone w).2.vals = encodeInt n := by
        unfold undone
        rw [hold]
        rfl
      unfold Value.ReadsAt
      dsimp only
      rw [Page.getInt_ok _ _ h0 (by rw [hlen]; exact hle) w.offset.toInt_lt, hslice, hvals,
        decodeInt_encodeInt]
    | string str =>
      rcases h.first newer older w str hsplit hold with rfl | ⟨w', hw', hsame⟩
      · have hvals : (undone w).2.vals = encodeInt 0 := by
          unfold undone
          rw [hold]
          rfl
        refine Page.getBytes_ok _ _ [] h0 (by rw [hlen, List.length_nil]; simpa using hle)
          (by rw [hlen]; exact hB) (hslice.trans hvals) ?_
        simp [slice]
      · exact absurd hsame (hfirst w' hw')
  · intro blk j hcov
    rw [hpages]
    refine applyAll_getElem?_of_not_covers ?_ ?_
    · intro p hp
      rw [h.pages]
      exact h.fits _ hmem hp
    · intro p hp hj
      obtain ⟨w, hw, hblk, rfl⟩ := mem_patchesOn hp
      exact hcov w hw hblk (undone_covers (h.inPage w (hmem w hw)).1 hj)

/-- With enough fuel the rollback returns, and has restored the before-image. -/
theorem DbInv.rollback_restores (h : DbInv B txNum s) (hactive : txNum ∈ s.active) :
    ∃ fuel s', (∀ n ≥ fuel, s.rollback B n txNum = .ok (some s')) ∧
      RestoresBeforeImage txNum s s' := by
  obtain ⟨recs, hreads, hbegun⟩ := h.log
  obtain ⟨hB, rs, older, hrecs, hstart, hpatches⟩ := hbegun hactive
  obtain ⟨log', it, bytes, earlier, hit, hreads', hyields, hread, hinpage⟩ := hreads.iterator
  rw [hrecs] at hread hinpage
  have hloop := doRollback_eq B log'.file txNum rs older hstart
    (fun r hr => hinpage r (List.mem_append_left _ hr)) bytes earlier it hyields hread s.pages
    h.pages
  obtain ⟨rbytes, hwrite, hfit, hrread⟩ := readBack_fits B (.rollback txNum) hB
  change RollbackRecord.writeToLog _ = _ at hwrite
  obtain ⟨log'', lsn, happend, -⟩ := hreads'.append _ rbytes hfit hrread trivial
  rw [hpatches] at hloop
  let pages' : BlockId → Page := fun blk =>
    applyAll (patchesOn blk ((writesOf txNum s.writes).map undone)) (s.pages blk)
  refine ⟨rs.length + 1, ⟨log''.flush lsn, pages', s.nextTxNum, s.active.erase txNum, s.writes⟩,
    ?_, h.restores _ (fun _ => rfl)⟩
  intro n hn
  obtain ⟨pages, hresult, -, hpages⟩ := hloop n hn
  have heq : pages = pages' := funext hpages
  unfold Db.rollback
  simp only [hit, hresult, hwrite, happend, ok_bind, heq]

end Restored

theorem new_inv (B : BlockSize) (earlier : List LogSequence.LogOp) (pages : BlockId → Page)
    (hearlier : ∀ r ∈ LogSequence.appended earlier, r.length + 8 ≤ B.bytes)
    (hpages : ∀ blk, (pages blk).length = B.bytes) (txNum : Int32) :
    ∃ s, Db.new B earlier pages = .ok s ∧ DbInv B txNum s := by
  obtain ⟨session, hrun, -, unsaved, saved, older, hinv, -, -⟩ :=
    LogSequence.run_reopen B earlier hearlier
  refine ⟨_, by simp only [Db.new, hrun, ok_bind]; rfl, ?_⟩
  constructor
  · exact hpages
  · exact Int.le_refl 0
  · intro t ht
    cases ht
  · intro w hw
    cases hw
  · intro w hw
    cases hw
  · intro newer older w str hsplit
    cases newer <;> cases hsplit
  · refine ⟨[], ⟨unsaved, _, [], _, ⟨saved, older, hinv, rfl⟩, rfl, .nil, ?_⟩, ?_⟩
    · intro r hr
      cases hr
    · intro hmem
      cases hmem

/-- In every run whose calls all meet the condition, the rollback of the transaction returns
and restores the before-image. -/
theorem rollback_restores_of_undoable (B : BlockSize) (earlier : List LogSequence.LogOp)
    (pages : BlockId → Page) (txNum : Int32) (ops : List DbOp) (s₀ s : Db)
    (hearlier : ∀ r ∈ LogSequence.appended earlier, r.length + 8 ≤ B.bytes)
    (hpages : ∀ blk, (pages blk).length = B.bytes) (hnew : Db.new B earlier pages = .ok s₀)
    (hrun : Runs.Run (fun s op s' => Db.Step B s op s' ∧ Undoable B txNum s op) s₀ ops s)
    (hactive : txNum ∈ s.active) :
    ∃ fuel s', (∀ n ≥ fuel, s.rollback B n txNum = .ok (some s')) ∧
      RestoresBeforeImage txNum s s' := by
  obtain ⟨s₁, hnew', hinv⟩ := new_inv B earlier pages hearlier hpages txNum
  cases hnew.symm.trans hnew'
  have hs : DbInv B txNum s := hrun.invariant (DbInv B txNum)
    (fun s op s' h hstep => step_inv h hstep.2 hstep.1) hinv
  exact hs.rollback_restores hactive

/-- Two transactions write to one page, and the first one is rolled back. -/
theorem rollback_restores_of_undoable_two : ∃ s₀ s : Db,
    Db.new ⟨40, by decide, by decide⟩ [] (fun _ => zeroPage 40) = .ok s₀ ∧
    Runs.Run (fun s op s' => Db.Step ⟨40, by decide, by decide⟩ s op s' ∧
        Undoable ⟨40, by decide, by decide⟩ 1 s op) s₀
      [.begin, .begin, .setInt 1 ⟨[116], 0⟩ 0 7, .setInt 2 ⟨[116], 0⟩ 8 5,
        .setString 1 ⟨[116], 0⟩ 16 [120], .setInt 1 ⟨[116], 0⟩ 0 9] s ∧
    ∃ fuel s', (∀ n ≥ fuel, s.rollback ⟨40, by decide, by decide⟩ n 1 = .ok (some s')) ∧
      RestoresBeforeImage 1 s s' := by
  have hrun : ∃ s₀ s : Db,
      Db.new ⟨40, by decide, by decide⟩ [] (fun _ => zeroPage 40) = .ok s₀ ∧
      Runs.Run (fun s op s' => Db.Step ⟨40, by decide, by decide⟩ s op s' ∧
          Undoable ⟨40, by decide, by decide⟩ 1 s op) s₀
        [.begin, .begin, .setInt 1 ⟨[116], 0⟩ 0 7, .setInt 2 ⟨[116], 0⟩ 8 5,
          .setString 1 ⟨[116], 0⟩ 16 [120], .setInt 1 ⟨[116], 0⟩ 0 9] s ∧
            (1 : Int32) ∈ s.active := by
    have hbegin : 16 ≤ 40 := by decide
    have hset : 1 + 32 ≤ 40 := by decide
    refine ⟨_, _, rfl, .cons ⟨rfl, hbegin⟩ (.cons ⟨rfl, hbegin⟩
      (.cons ⟨⟨by decide, rfl⟩, hset⟩ (.cons ⟨⟨by decide, rfl⟩, hset⟩
      (.cons ⟨⟨by decide, rfl⟩, ?_⟩ (.cons ⟨⟨by decide, rfl⟩, hset⟩ (.nil _)))))), by decide⟩
    intro old hold
    cases hold
    exact ⟨by decide, Or.inl rfl, fun _ => Or.inl rfl⟩
  obtain ⟨s₀, s, hnew, hs, hactive⟩ := hrun
  exact ⟨s₀, s, hnew, hs, rollback_restores_of_undoable ⟨40, by decide, by decide⟩ []
    (fun _ => zeroPage 40) 1 _ s₀ s (fun r hr => by cases hr) (fun _ => zeroPage_length 40) hnew hs
    hactive⟩

/-- The string "abcd" is overwritten, and the rollback leaves the empty string. -/
theorem not_restoresBeforeImage_string : ∃ s₀ s s' : Db,
    Db.new ⟨44, by decide, by decide⟩ []
      (fun _ => encodeInt 4 ++ [97, 98, 99, 100] ++ zeroPage 36) = .ok s₀ ∧
    Runs.Run (Db.Step ⟨44, by decide, by decide⟩) s₀
      [.begin, .setString 1 ⟨[116], 0⟩ 0 [120]] s ∧
    Db.Step ⟨44, by decide, by decide⟩ s (.rollback 1) s' ∧
    (s₀.pages ⟨[116], 0⟩).getString 0 = .ok [97, 98, 99, 100] ∧
    (s'.pages ⟨[116], 0⟩).getString 0 = .ok [] ∧ ¬ RestoresBeforeImage 1 s s' := by
  refine ⟨_, _, _, rfl, .cons rfl (.cons ⟨by decide, rfl⟩ (.nil _)), ⟨by decide, 3, rfl⟩, rfl,
    rfl, ?_⟩
  intro hrestores
  have hread := hrestores.restored [] [] ⟨1, ⟨[116], 0⟩, 0, .string [97, 98, 99, 100]⟩ rfl
    (fun w' hw' => by cases hw')
    (by
      intro w' hw' hne
      rw [List.mem_singleton.mp hw'] at hne
      exact absurd ⟨rfl, rfl, Or.inr ⟨_, _, rfl, rfl⟩⟩ hne)
  have hempty : (Except.ok [] : Result Bytes) = .ok [97, 98, 99, 100] := hread
  cases hempty

end SampleDB.BeforeImage
