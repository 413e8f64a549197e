import SampleDB.StoredTables

/-!
A scan over the blocks of a table file does what the scan over its sequence of slots does, as
long as the records that its writes send to the log fit a block of the log.
-/
namespace SampleDB.ScanRefinement

open Words Pages Blocks LogRecords Logging Lexer Schemas Rollback
open Endings TableScans StoredRecords StoredTables
open RecordPages hiding TableScan

/-- Both scans have the cursor at the same slot; `-1` is the place in front of the first slot
of a block. -/
structure Simulates {B : BlockSize} {layout : Layout} (hl : Sound B layout) (fileName : Bytes)
    (ts : RecordPages.TableScan) (rs : TableScans.TableScan Row) : Prop where
  contains : Contains B layout fileName ts.tx rs.slots
  block : ts.block = rs.block
  slot : ts.currentSlot = rs.slot.elim (-1) (fun j => (j : ℤ))
  inFile : ts.block < ts.tx.size
  inBlock : ∀ j, rs.slot = some j → j < perBlock B layout

def flagOf (used : Bool) : Int32 := if used then RecordPage.USED else RecordPage.EMPTY

section Search

variable {B : BlockSize} {layout : Layout} {fileName : Bytes} {tx : Transaction}
  {slots : List (Slot Row)} {b j : ℕ}

theorem flagOf_inj {used used' : Bool} (h : flagOf used = flagOf used') : used = used' := by
  revert h
  cases used <;> cases used' <;> decide

theorem Contains.getFlag (h : Contains B layout fileName tx slots) (hb : b < tx.size)
    (hj : j < perBlock B layout) {slot : Slot Row}
    (hslot : slots[b * perBlock B layout + j]? = some slot) :
    tx.getInt b (RecordPage.offset layout j) = .ok (flagOf slot.used) := by
  obtain ⟨p, hp, hget⟩ := h.get hb hj hslot (c := .flag) trivial
  rw [pos_flag] at hget
  obtain ⟨n, hn, hval⟩ := bind_eq_ok.mp
    (show (do return Value.int (← p.getInt (RecordPage.offset layout j).toInt)) =
      Except.ok (Value.int (flagOf slot.used)) from hget)
  cases hval
  unfold Transaction.getInt
  rw [hp]
  exact hn

theorem slot_exists (h : Contains B layout fileName tx slots) (hb : b < tx.size)
    (hj : j < perBlock B layout) : ∃ slot, slots[b * perBlock B layout + j]? = some slot := by
  have hlen : slots.length = tx.size * perBlock B layout := h.stored.length
  have hlt : b * perBlock B layout + j < slots.length := by
    rw [hlen]
    exact place_lt hj hb
  exact ⟨_, List.getElem?_eq_getElem hlt⟩

/-- The search in a block either finds the slot that the search in the file finds, or the
search in the file goes on with the next block. -/
theorem searchFrom_cases (hl : Sound B layout) (h : Contains B layout fileName tx slots)
    (hb : b < tx.size) (used : Bool) {n : ℕ} (hj : j ≤ perBlock B layout)
    (hn : perBlock B layout < n + j) :
    (∃ j' < perBlock B layout,
      RecordPage.searchFrom B layout tx b (flagOf used) n j = .ok (j' : ℤ) ∧
      search slots (b * perBlock B layout + j) used = some (b * perBlock B layout + j')) ∨
    (RecordPage.searchFrom B layout tx b (flagOf used) n j = .ok (-1) ∧
      search slots (b * perBlock B layout + j) used =
        search slots ((b + 1) * perBlock B layout) used) := by
  induction n generalizing j with
  | zero => omega
  | succ n ih =>
    rw [RecordPage.searchFrom]
    by_cases hlt : j < perBlock B layout
    · obtain ⟨slot, hslot⟩ := slot_exists h hb hlt
      rw [if_pos ((hl.isValidSlot_iff hj).mpr hlt), Contains.getFlag h hb hlt hslot, ok_bind]
      by_cases hused : slot.used = used
      · left
        refine ⟨j, hlt, ?_, search_here hslot hused⟩
        rw [if_pos (by rw [hused])]
        rfl
      · rw [if_neg (fun heq => hused (flagOf_inj heq)), search_skip hslot hused]
        exact ih (j := j + 1) hlt (by omega)
    · right
      refine ⟨if_neg (fun hvalid => hlt ((hl.isValidSlot_iff hj).mp hvalid)), ?_⟩
      have heq : j = perBlock B layout := by omega
      rw [heq, Nat.succ_mul]

end Search

section Scans

variable {B : BlockSize} {layout : Layout} {hl : Sound B layout} {fileName : Bytes}
  {ts : RecordPages.TableScan} {rs : TableScans.TableScan Row}

/-- The slot behind the cursor, in its block. -/
def behind (rs : TableScans.TableScan Row) : ℕ := rs.slot.elim 0 (· + 1)

theorem start_eq (hl : Sound B layout) (rs : TableScans.TableScan Row) :
    rs.start (form hl) = rs.block * perBlock B layout + behind rs := rfl

theorem Simulates.behind (h : Simulates hl fileName ts rs) :
    ts.currentSlot + 1 = ScanRefinement.behind rs ∧
      ScanRefinement.behind rs ≤ perBlock B layout := by
  have hslot := h.slot
  have hin := h.inBlock
  unfold ScanRefinement.behind
  cases hrs : rs.slot with
  | none =>
    rw [hrs] at hslot
    rw [hslot]
    exact ⟨rfl, Nat.zero_le _⟩
  | some j =>
    rw [hrs] at hslot
    rw [hslot]
    exact ⟨rfl, hin j hrs⟩

theorem Simulates.searchAfter (h : Simulates hl fileName ts rs) (used : Bool) :
    (∃ j' < perBlock B layout,
      RecordPage.searchAfter B layout ts.tx ts.block ts.currentSlot (flagOf used) = .ok (j' : ℤ) ∧
      search rs.slots (rs.start (form hl)) used = some (rs.block * perBlock B layout + j')) ∨
    (RecordPage.searchAfter B layout ts.tx ts.block ts.currentSlot (flagOf used) = .ok (-1) ∧
      search rs.slots (rs.start (form hl)) used =
        search rs.slots ((rs.block + 1) * perBlock B layout) used) := by
  obtain ⟨hcursor, hle⟩ := h.behind
  have hper := perBlock_le B layout
  unfold RecordPage.searchAfter
  rw [hcursor, start_eq, ← h.block]
  exact searchFrom_cases hl h.contains h.inFile used hle (by omega)

theorem Simulates.moveTo {tx : Transaction} {slots : List (Slot Row)} {b j : ℕ}
    (h : Contains B layout fileName tx slots) (hb : b < tx.size) (hj : j < perBlock B layout) :
    Simulates hl fileName ⟨tx, b, j⟩
      ((⟨slots, b, none⟩ : TableScans.TableScan Row).moveTo (form hl)
        (b * perBlock B layout + j)) := by
  have hform : (form hl).perBlock = perBlock B layout := rfl
  unfold TableScans.TableScan.moveTo
  rw [hform, div_place b hj, mod_place b hj]
  refine ⟨h, rfl, rfl, hb, ?_⟩
  intro j' hj'
  cases hj'
  exact hj

theorem Simulates.moveToBlock {tx : Transaction} {slots : List (Slot Row)} {b : ℕ}
    (h : Contains B layout fileName tx slots) (hb : b < tx.size) :
    Simulates hl fileName ⟨tx, b, -1⟩ ⟨slots, b, none⟩ :=
  ⟨h, rfl, rfl, hb, fun j hj => by cases hj⟩

theorem Simulates.length (h : Simulates hl fileName ts rs) :
    rs.slots.length = ts.tx.size * perBlock B layout := h.contains.stored.length

/-- Behind the last block no slot is found. -/
theorem Simulates.search_end (h : Simulates hl fileName ts rs) (hend : ts.block + 1 = ts.tx.size)
    (used : Bool) : search rs.slots ((rs.block + 1) * perBlock B layout) used = none := by
  rw [← h.block, hend]
  exact TableScans.search_end (Nat.le_of_eq h.length)

theorem atEndOfBlock_iff (ts : RecordPages.TableScan) :
    ts.atEndOfBlock = true ↔ ts.block + 1 = ts.tx.size := by
  unfold RecordPages.TableScan.atEndOfBlock
  rw [decide_eq_true_iff]
  omega

theorem Simulates.nextFrom (h : Simulates hl fileName ts rs) {n : ℕ}
    (hn : ts.tx.size < n + ts.block) :
    ∃ ts', ts.nextFrom B layout n = .ok ((rs.next (form hl)).1, ts') ∧ ts'.tx = ts.tx ∧
      Simulates hl fileName ts' (rs.next (form hl)).2 := by
  induction n generalizing ts rs with
  | zero =>
    have hin := h.inFile
    omega
  | succ n ih =>
    have hsearch := h.searchAfter true
    rw [RecordPages.TableScan.nextFrom]
    unfold RecordPage.nextAfter
    rcases hsearch with ⟨j', hj', hfound, hplace⟩ | ⟨hnone, hrest⟩
    · have hnext : rs.next (form hl) =
          (true, rs.moveTo (form hl) (rs.block * perBlock B layout + j')) := by
        unfold TableScans.TableScan.next
        rw [hplace]
      have hflag : flagOf true = RecordPage.USED := rfl
      rw [← hflag, hfound, ok_bind, if_pos (Int.natCast_nonneg j'), hnext]
      refine ⟨_, rfl, rfl, ?_⟩
      rw [← h.block]
      exact Simulates.moveTo h.contains h.inFile hj'
    · have hflag : flagOf true = RecordPage.USED := rfl
      rw [← hflag, hnone, ok_bind, if_neg (by decide)]
      by_cases hend : ts.block + 1 = ts.tx.size
      · have hnext : rs.next (form hl) = (false, { rs with
            block := rs.slots.length / (form hl).perBlock - 1, slot := none }) := by
          unfold TableScans.TableScan.next
          rw [hrest, h.search_end hend]
        have hform : (form hl).perBlock = perBlock B layout := rfl
        have hblock : rs.slots.length / (form hl).perBlock - 1 = ts.block := by
          rw [hform, h.length, Nat.mul_div_cancel _ hl.perBlock_pos]
          omega
        rw [if_pos ((atEndOfBlock_iff ts).mpr hend), hnext, hblock]
        exact ⟨_, rfl, rfl, Simulates.moveToBlock h.contains h.inFile⟩
      · have hin := h.inFile
        have hmoved : Simulates hl fileName (ts.moveToBlock (ts.block + 1))
            ⟨rs.slots, rs.block + 1, none⟩ := by
          rw [← h.block]
          exact Simulates.moveToBlock h.contains (by omega)
        have hsame : (⟨rs.slots, rs.block + 1, none⟩ : TableScans.TableScan Row).next (form hl) =
            rs.next (form hl) := next_congr (form hl) rfl hrest.symm
        rw [if_neg (fun heq => hend ((atEndOfBlock_iff ts).mp heq)), ← hsame]
        obtain ⟨ts', hok, htx, hsim⟩ := ih hmoved
          (by show ts.tx.size < n + (ts.block + 1); omega)
        exact ⟨ts', hok, htx, hsim⟩

theorem Simulates.next (h : Simulates hl fileName ts rs) :
    ∃ ts', ts.next B layout = .ok ((rs.next (form hl)).1, ts') ∧ ts'.tx = ts.tx ∧
      Simulates hl fileName ts' (rs.next (form hl)).2 := by
  have hin := h.inFile
  exact h.nextFrom (by omega)

theorem get_eq {i j : ℕ} {slot : Slot Row} (hrs : rs.slot = some j)
    (hget : rs.get (form hl) = .ok (i, slot)) :
    i = rs.block * perBlock B layout + j ∧ rs.slots[i]? = some slot := by
  unfold TableScans.TableScan.get TableScans.TableScan.current at hget
  rw [hrs, Option.map_some] at hget
  dsimp only at hget
  split at hget
  · rename_i slot₁ hslot₁
    cases hget
    exact ⟨rfl, hslot₁⟩
  · cases hget

/-- The cell of the current record is written. -/
theorem Simulates.setCell (h : Simulates hl fileName ts rs) {i j : ℕ} {slot : Slot Row}
    {c : Cell} (hrs : rs.slot = some j) (hget : rs.get (form hl) = .ok (i, slot))
    (hc : c.Of layout) (slot' : Slot Row) (hval : Suits layout c (c.value slot'))
    (hother : ∀ c', c' ≠ c → c'.value slot' = c'.value slot)
    (hfit : Loggable B fileName (c.value slot)) :
    ∃ tx', ts.tx.set B ts.block (c.pos layout j) (c.value slot') true = .ok tx' ∧
      Simulates hl fileName { ts with tx := tx' } (rs.setSlot i slot') := by
  obtain ⟨rfl, hslot⟩ := get_eq hrs hget
  rw [← h.block] at hslot ⊢
  obtain ⟨tx', hset, hsize, hcontains⟩ := h.contains.set hl h.inFile (h.inBlock j hrs) hslot hc
    slot' hval hother true (fun _ => hfit)
  exact ⟨tx', hset, hcontains, h.block, h.slot, by rw [hsize]; exact h.inFile, h.inBlock⟩

theorem insert_congr {rs rs' : TableScans.TableScan Row} (hslots : rs'.slots = rs.slots)
    (hsearch : search rs.slots (rs'.start (form hl)) false =
      search rs.slots (rs.start (form hl)) false) :
    rs'.insert (form hl) = rs.insert (form hl) := by
  unfold TableScans.TableScan.insert TableScans.TableScan.moveTo
  rw [hslots, hsearch]

/-- A free slot behind the cursor in its block is taken. -/
theorem Simulates.insert_here (h : Simulates hl fileName ts rs)
    (hfit : Loggable B fileName (.int 0)) {j : ℕ} (hj : j < perBlock B layout)
    (hfound : RecordPage.searchAfter B layout ts.tx ts.block ts.currentSlot (flagOf false) =
      .ok (j : ℤ))
    (hplace : search rs.slots (rs.start (form hl)) false =
      some (rs.block * perBlock B layout + j)) (n : ℕ) :
    ∃ ts', ts.insertFrom B layout (n + 1) = .ok ts' ∧
      Simulates hl fileName ts' (rs.insert (form hl)) := by
  obtain ⟨-, slot, hslot, hused⟩ := search_eq_some hplace
  have hflag : Cell.flag.value slot = .int 0 := by
    show Value.int (if slot.used then _ else _) = _
    rw [hused]
    rfl
  rw [← h.block] at hslot hplace
  obtain ⟨tx', hset, hsize, hcontains⟩ := h.contains.set hl (c := .flag) h.inFile hj
    hslot trivial { slot with used := true } ⟨rfl, Nat.le_refl 4⟩ (by
      intro c' hc'
      cases c' with
      | flag => exact absurd rfl hc'
      | field f => rfl) true (fun _ => by rw [hflag]; exact hfit)
  rw [pos_flag] at hset
  have hsetFlag : RecordPage.setFlag B layout ts.tx ts.block j RecordPage.USED = .ok tx' := hset
  have hempty : flagOf false = RecordPage.EMPTY := rfl
  have hinsert : rs.insert (form hl) =
      { rs with slots := rs.slots.set (ts.block * perBlock B layout + j)
                  { slot with used := true } }.moveTo (form hl)
                    (ts.block * perBlock B layout + j) := by
    unfold TableScans.TableScan.insert
    rw [hplace]
    simp only [modify_eq_set hslot]
  refine ⟨⟨tx', ts.block, j⟩, ?_, ?_⟩
  · rw [RecordPages.TableScan.insertFrom]
    unfold RecordPage.insertAfter
    rw [← hempty, hfound, ok_bind, if_pos (Int.natCast_nonneg j), hsetFlag]
    simp only [ok_bind, pure_bind, if_pos (Int.natCast_nonneg j)]
    rfl
  · rw [hinsert]
    exact Simulates.moveTo hcontains (by rw [hsize]; exact h.inFile) hj

/-- Behind the last block a new one is added, and its first slot is taken. -/
theorem Simulates.insert_new (h : Simulates hl fileName ts rs)
    (hfit : Loggable B fileName (.int 0))
    (hplace : search rs.slots (rs.start (form hl)) false = none) (n : ℕ) :
    ∃ ts' ts'', RecordPages.TableScan.moveToNewBlock B layout ts.tx = .ok ts' ∧
      ts'.insertFrom B layout (n + 1) = .ok ts'' ∧
      Simulates hl fileName ts'' (rs.insert (form hl)) := by
  obtain ⟨tx', hnew, hsize, hcontains⟩ := Contains.moveToNewBlock hl h.contains hfit
  have hmoved : Simulates hl fileName ⟨tx', ts.tx.size, -1⟩
      ⟨rs.slots ++ (form hl).emptyBlock, ts.tx.size, none⟩ :=
    Simulates.moveToBlock hcontains (by omega)
  have hlen := h.length
  have hfirst : (rs.slots ++ (form hl).emptyBlock)[ts.tx.size * perBlock B layout]? =
      some (blankSlot layout) := by
    rw [List.getElem?_append_right (by omega), hlen, Nat.sub_self]
    exact List.getElem?_replicate_of_lt hl.perBlock_pos
  have hfree : search (rs.slots ++ (form hl).emptyBlock) (ts.tx.size * perBlock B layout) false =
      some (ts.tx.size * perBlock B layout) := search_here hfirst rfl
  have hstart : (⟨rs.slots ++ (form hl).emptyBlock, ts.tx.size, none⟩ :
      TableScans.TableScan Row).start (form hl) = ts.tx.size * perBlock B layout := rfl
  have hsame : (⟨rs.slots ++ (form hl).emptyBlock, ts.tx.size, none⟩ :
      TableScans.TableScan Row).insert (form hl) = rs.insert (form hl) := by
    unfold TableScans.TableScan.insert
    rw [hstart, hplace, hlen]
    dsimp only
    rw [hfree]
    rfl
  rcases hmoved.searchAfter false with ⟨j, hj, hfound, hj'⟩ | ⟨-, hrest⟩
  · obtain ⟨ts'', hinsert, hsim⟩ := hmoved.insert_here hfit hj hfound hj' n
    rw [hsame] at hsim
    exact ⟨_, ts'', hnew, hinsert, hsim⟩
  · rw [hmoved.search_end (by rw [hsize]), hstart] at hrest
    cases hfree.symm.trans hrest

theorem Simulates.insertFrom (h : Simulates hl fileName ts rs)
    (hfit : Loggable B fileName (.int 0)) {n : ℕ} (hn : ts.tx.size + 1 < n + ts.block) :
    ∃ ts', ts.insertFrom B layout n = .ok ts' ∧
      Simulates hl fileName ts' (rs.insert (form hl)) := by
  induction n generalizing ts rs with
  | zero =>
    have hin := h.inFile
    omega
  | succ n ih =>
    rcases h.searchAfter false with ⟨j, hj, hfound, hplace⟩ | ⟨hnone, hrest⟩
    · exact h.insert_here hfit hj hfound hplace n
    · have hin := h.inFile
      have hempty : flagOf false = RecordPage.EMPTY := rfl
      have hone : RecordPage.insertAfter B layout ts.tx ts.block ts.currentSlot =
          .ok (-1, ts.tx) := by
        unfold RecordPage.insertAfter
        rw [← hempty, hnone, ok_bind, if_neg (by decide)]
        rfl
      rw [RecordPages.TableScan.insertFrom, hone]
      simp only [ok_bind]
      rw [if_neg (by decide)]
      unfold RecordPages.TableScan.moveOn
      by_cases hend : ts.block + 1 = ts.tx.size
      · obtain ⟨m, rfl⟩ : ∃ m, n = m + 1 := ⟨n - 1, by omega⟩
        obtain ⟨ts', ts'', hnew, hinsert, hsim⟩ :=
          h.insert_new hfit (by rw [hrest, h.search_end hend]) m
        refine ⟨ts'', ?_, hsim⟩
        rw [if_pos ((atEndOfBlock_iff _).mpr hend), hnew]
        exact hinsert
      · have hmoved : Simulates hl fileName (ts.moveToBlock (ts.block + 1))
            ⟨rs.slots, rs.block + 1, none⟩ := by
          rw [← h.block]
          exact Simulates.moveToBlock h.contains (by omega)
        have hsame : (⟨rs.slots, rs.block + 1, none⟩ : TableScans.TableScan Row).insert (form hl) =
            rs.insert (form hl) := insert_congr rfl hrest.symm
        obtain ⟨ts', hok, hsim⟩ := ih hmoved (by show ts.tx.size + 1 < n + (ts.block + 1); omega)
        rw [hsame] at hsim
        refine ⟨ts', ?_, hsim⟩
        rw [if_neg (fun heq => hend ((atEndOfBlock_iff _).mp heq))]
        exact hok

theorem Simulates.insert (h : Simulates hl fileName ts rs)
    (hfit : Loggable B fileName (.int 0)) :
    ∃ ts', ts.insert B layout = .ok ts' ∧ Simulates hl fileName ts' (rs.insert (form hl)) :=
  h.insertFrom hfit (by omega)

end Scans

/-- A string is not longer than declared. -/
def Short (info : FieldInfo) : Value → Prop
  | .int _ => True
  | .string s => (s.length : ℤ) ≤ info.length.toInt

/-- A value of the type of the field. -/
def Storable (layout : Layout) (fieldName : Name) (val : Value) : Prop :=
  fieldName ∈ layout.schema.fields ∧ ∃ info, layout.schema.fieldInfo fieldName = some info ∧
    kind val = kindOf info.type ∧ Short info val

instance (info : FieldInfo) : (val : Value) → Decidable (Short info val)
  | .int _ => isTrue trivial
  | .string s => inferInstanceAs (Decidable ((s.length : ℤ) ≤ info.length.toInt))

instance (layout : Layout) (fieldName : Name) (val : Value) :
    Decidable (Storable layout fieldName val) :=
  match h : layout.schema.fieldInfo fieldName with
  | some info => decidable_of_iff
      (fieldName ∈ layout.schema.fields ∧ kind val = kindOf info.type ∧ Short info val)
      ⟨fun hval => ⟨hval.1, info, h, hval.2.1, hval.2.2⟩, fun ⟨hf, _, hinfo, hval⟩ => by
        cases h.symm.trans hinfo
        exact ⟨hf, hval⟩⟩
  | none => isFalse (fun ⟨_, _, hinfo, _⟩ => by cases h.symm.trans hinfo)

section Records

variable {B : BlockSize} {layout : Layout} {hl : Sound B layout} {fileName : Bytes}
  {ts : RecordPages.TableScan} {rs : TableScans.TableScan Row} {i j : ℕ} {slot : Slot Row}
  {f : Name} {val : Value}

theorem Storable.suits (h : Storable layout f val) : Suits layout (.field f) val := by
  obtain ⟨-, ⟨type, length⟩, hinfo, hkind, hshort⟩ := h
  have hwidth : (Cell.field f).width layout = width ⟨type, length⟩ := by
    show (layout.schema.fieldInfo f).elim 0 width = _
    rw [hinfo, Option.elim_some]
  have hcell : (Cell.field f).kind layout = kindOf type := by
    show (layout.schema.fieldInfo f).elim Kind.int _ = _
    rw [hinfo, Option.elim_some]
  refine ⟨hkind.trans hcell.symm, ?_⟩
  rw [hwidth]
  cases val with
  | int n => cases type <;> simp [width, Value.size]
  | string s =>
    have hlen : (s.length : ℤ) ≤ length.toInt := hshort
    cases type with
    | integer => cases hkind
    | boolean => cases hkind
    | varchar =>
      show 4 + s.length ≤ 4 + length.toInt.toNat
      omega

theorem Storable.fieldType (h : Storable layout f val) :
    ∃ type, layout.fieldType f = .ok type ∧ kind val = kindOf type := by
  obtain ⟨-, info, hinfo, hkind, -⟩ := h
  refine ⟨info.type, ?_, hkind⟩
  unfold Layout.fieldType
  rw [hinfo]

/-- With a current record the cursor of the blocks is at its slot. -/
theorem Simulates.currentSlot (h : Simulates hl fileName ts rs) (hrs : rs.slot = some j) :
    ts.currentSlot = j := by
  rw [h.slot, hrs]
  rfl

theorem Simulates.remove (h : Simulates hl fileName ts rs) (hrs : rs.slot = some j)
    (hget : rs.get (form hl) = .ok (i, slot)) (hfit : Loggable B fileName (.int 0)) :
    ∃ ts', ts.remove B layout = .ok ts' ∧
      Simulates hl fileName ts' (rs.setSlot i { slot with used := false }) := by
  obtain ⟨tx', hset, hsim⟩ := h.setCell (c := .flag) hrs hget trivial
    { slot with used := false } ⟨rfl, Nat.le_refl 4⟩ (by
      intro c' hc'
      cases c' with
      | flag => exact absurd rfl hc'
      | field g => rfl) hfit
  rw [pos_flag] at hset
  have hremove : RecordPage.remove B layout ts.tx ts.block ts.currentSlot = .ok tx' := by
    rw [h.currentSlot hrs]
    exact hset
  refine ⟨{ ts with tx := tx' }, ?_, hsim⟩
  unfold RecordPages.TableScan.remove
  rw [hremove]
  rfl

/-- A field of the current record is written. -/
theorem Simulates.setField (h : Simulates hl fileName ts rs) (hrs : rs.slot = some j)
    (hget : rs.get (form hl) = .ok (i, slot)) (hval : Storable layout f val)
    (hfit : Loggable B fileName (slot.row f)) :
    ∃ tx', ts.tx.set B ts.block ((Cell.field f).pos layout j) val true = .ok tx' ∧
      Simulates hl fileName { ts with tx := tx' }
        (rs.setSlot i { slot with row := Function.update slot.row f val }) := by
  have hself : (Cell.field f).value { slot with row := Function.update slot.row f val } = val := by
    show Function.update slot.row f val f = val
    rw [Function.update_self]
  obtain ⟨tx', hset, hsim⟩ := h.setCell (c := .field f) hrs hget hval.1
    { slot with row := Function.update slot.row f val } (by rw [hself]; exact hval.suits) (by
      intro c' hc'
      cases c' with
      | flag => rfl
      | field g =>
        show Function.update slot.row f val g = slot.row g
        rw [Function.update_of_ne (fun heq => hc' (congrArg Cell.field heq))]) hfit
  rw [hself] at hset
  exact ⟨tx', hset, hsim⟩

theorem Simulates.setInt (h : Simulates hl fileName ts rs) (hrs : rs.slot = some j)
    (hget : rs.get (form hl) = .ok (i, slot)) {n : Int32} (hval : Storable layout f (.int n))
    (hfit : Loggable B fileName (slot.row f)) :
    ∃ ts', ts.setInt B layout f n = .ok ts' ∧ Simulates hl fileName ts'
      (rs.setSlot i { slot with row := Function.update slot.row f (.int n) }) := by
  obtain ⟨tx', hset, hsim⟩ := h.setField hrs hget hval hfit
  refine ⟨{ ts with tx := tx' }, ?_, hsim⟩
  have hpage : RecordPage.setInt B layout ts.tx ts.block ts.currentSlot f n = .ok tx' := by
    unfold RecordPage.setInt
    rw [h.currentSlot hrs, fieldPos_eq hl hval.1]
    exact hset
  unfold RecordPages.TableScan.setInt
  rw [hpage]
  rfl

theorem Simulates.setString (h : Simulates hl fileName ts rs) (hrs : rs.slot = some j)
    (hget : rs.get (form hl) = .ok (i, slot)) {s : Bytes} (hval : Storable layout f (.string s))
    (hfit : Loggable B fileName (slot.row f)) :
    ∃ ts', ts.setString B layout f s = .ok ts' ∧ Simulates hl fileName ts'
      (rs.setSlot i { slot with row := Function.update slot.row f (.string s) }) := by
  obtain ⟨tx', hset, hsim⟩ := h.setField hrs hget hval hfit
  refine ⟨{ ts with tx := tx' }, ?_, hsim⟩
  have hpage : RecordPage.setString B layout ts.tx ts.block ts.currentSlot f s = .ok tx' := by
    unfold RecordPage.setString
    rw [h.currentSlot hrs, fieldPos_eq hl hval.1]
    exact hset
  unfold RecordPages.TableScan.setString
  rw [hpage]
  rfl

theorem Simulates.setValue (h : Simulates hl fileName ts rs) (hrs : rs.slot = some j)
    (hget : rs.get (form hl) = .ok (i, slot)) (hval : Storable layout f val)
    (hfit : Loggable B fileName (slot.row f)) :
    ∃ ts', ts.setValue B layout f val = .ok ts' ∧ Simulates hl fileName ts'
      (rs.setSlot i { slot with row := Function.update slot.row f val }) := by
  obtain ⟨type, htype, hkind⟩ := hval.fieldType
  unfold RecordPages.TableScan.setValue
  rw [htype]
  cases val with
  | int n =>
    obtain ⟨ts', hset, hsim⟩ := h.setInt hrs hget hval hfit
    cases type with
    | integer => exact ⟨ts', hset, hsim⟩
    | boolean => exact ⟨ts', hset, hsim⟩
    | varchar => cases hkind
  | string s =>
    obtain ⟨ts', hset, hsim⟩ := h.setString hrs hget hval hfit
    cases type with
    | integer => cases hkind
    | boolean => cases hkind
    | varchar => exact ⟨ts', hset, hsim⟩

/-- A field of the current record is read. -/
theorem Simulates.getValue (h : Simulates hl fileName ts rs) (hrs : rs.slot = some j)
    (hget : rs.get (form hl) = .ok (i, slot)) (hf : f ∈ layout.schema.fields) :
    ts.getValue layout f = .ok (slot.row f) := by
  obtain ⟨type, htype⟩ := fieldType_ok hl hf
  obtain ⟨rfl, hslot⟩ := get_eq hrs hget
  rw [← h.block] at hslot
  obtain ⟨p, hp, hcell⟩ := h.contains.get h.inFile (h.inBlock j hrs) hslot (c := .field f) hf
  rw [kind_field htype] at hcell
  have hrow : (Cell.field f).value slot = slot.row f := rfl
  rw [hrow] at hcell
  have hpos : RecordPage.fieldPos layout ts.currentSlot f = .ok ((Cell.field f).pos layout j) := by
    rw [h.currentSlot hrs]
    exact fieldPos_eq hl hf
  have hint : kindOf type = .int → ∃ n, ts.getInt layout f = .ok n ∧ Value.int n = slot.row f := by
    intro hkind
    rw [hkind] at hcell
    obtain ⟨n, hn, hval⟩ := bind_eq_ok.mp hcell
    refine ⟨n, ?_, Except.ok.inj hval⟩
    unfold RecordPages.TableScan.getInt RecordPage.getInt Transaction.getInt
    rw [hpos, ok_bind, hp]
    exact hn
  have hstring : kindOf type = .string →
      ∃ s, ts.getString layout f = .ok s ∧ Value.string s = slot.row f := by
    intro hkind
    rw [hkind] at hcell
    obtain ⟨s, hs, hval⟩ := bind_eq_ok.mp hcell
    refine ⟨s, ?_, Except.ok.inj hval⟩
    unfold RecordPages.TableScan.getString RecordPage.getString Transaction.getString
    rw [hpos, ok_bind, hp]
    exact hs
  unfold RecordPages.TableScan.getValue
  rw [htype, ok_bind]
  cases type with
  | integer =>
    obtain ⟨n, hn, hval⟩ := hint rfl
    rw [← hval, hn]
    rfl
  | boolean =>
    obtain ⟨n, hn, hval⟩ := hint rfl
    rw [← hval, hn]
    rfl
  | varchar =>
    obtain ⟨s, hs, hval⟩ := hstring rfl
    rw [← hval, hs]
    rfl

theorem Simulates.beforeFirst (h : Simulates hl fileName ts rs) :
    Simulates hl fileName ts.beforeFirst rs.beforeFirst := by
  have hin := h.inFile
  exact Simulates.moveToBlock h.contains (by omega)

/-- Both scans move to a record of the file. -/
theorem Simulates.moveToRid (h : Simulates hl fileName ts rs) {rid : Rid}
    (hblock : rid.blockNumber < ts.tx.size) (hslot : rid.slotNumber < perBlock B layout) :
    Simulates hl fileName (ts.moveToRid rid) (rs.moveToRid rid) := by
  refine ⟨h.contains, rfl, rfl, hblock, ?_⟩
  intro j' hj'
  cases hj'
  exact hslot

theorem Simulates.getRid (h : Simulates hl fileName ts rs) : ts.getRid = rs.getRid := by
  have hslot := h.slot
  unfold RecordPages.TableScan.getRid TableScans.TableScan.getRid
  rw [hslot, h.block]
  cases rs.slot with
  | none => rfl
  | some j => rfl

/-- The constructor adds a block to an empty file. -/
theorem Simulates.new (hl : Sound B layout) {tx : Transaction} {slots : List (Slot Row)}
    (h : Contains B layout fileName tx slots) (hfit : slots = [] → Loggable B fileName (.int 0)) :
    ∃ ts, RecordPages.TableScan.new B layout tx = .ok ts ∧
      Simulates hl fileName ts (TableScans.TableScan.new (form hl) slots) := by
  have hlen : slots.length = tx.size * perBlock B layout := h.stored.length
  have hpos : 0 < perBlock B layout := hl.perBlock_pos
  unfold RecordPages.TableScan.new TableScans.TableScan.new
  by_cases hsize : tx.size = 0
  · have hnil : slots = [] := List.eq_nil_of_length_eq_zero (by rw [hlen, hsize, Nat.zero_mul])
    obtain ⟨tx', hnew, hsize', hcontains⟩ := Contains.moveToNewBlock hl h (hfit hnil)
    rw [if_pos hsize, if_pos hnil]
    rw [hsize] at hnew
    rw [hnil, List.nil_append] at hcontains
    exact ⟨_, hnew, Simulates.moveToBlock hcontains (by omega)⟩
  · have hne : slots ≠ [] := by
      intro hnil
      rw [hnil, List.length_nil] at hlen
      rcases Nat.mul_eq_zero.mp hlen.symm with hzero | hzero
      · exact hsize hzero
      · omega
    rw [if_neg hsize, if_neg hne]
    exact ⟨_, rfl, Simulates.moveToBlock h (by omega)⟩

end Records

end SampleDB.ScanRefinement
