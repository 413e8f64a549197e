import SampleDB.MappedScans
import SampleDB.PagePlanner
import SampleDB.ScanRefinement
import SampleDB.TypedTables

/-!
The records that the update planner sees in pages. A scan over the blocks of a file shows a scan
over records when its slots hold the bytes of their values. What the planner reads, writes and
selects is then the same in both, as long as the strings that it writes are bytes.
-/
namespace SampleDB.PageRecords

open Words Pages Blocks LogRecords Logging Lexer Schemas Statements SqlParser
open MappedScans PagePlanner StoredTables ScanRefinement TypedTables
open Rollback (Value)
open StoredRecords (Sound perBlock Cell Suits Declared widthOf width kindOf)
open UpdatePlanner (Row constantEq)
open RecordPages (Layout)
open TableScans (Slot Form search)

section Values

/-- All characters of the string are bytes. -/
def Bytewise (c : Constant) : Prop := ∀ s, c.sval = some s → ∀ ch ∈ s, ch.toNat < 256

theorem toNat_byte (b : UInt8) : (Char.ofNat b.toNat).toNat = b.toNat := by
  have hvalid : b.toNat.isValidChar := Or.inl (Nat.lt_trans b.toNat_lt (by decide))
  unfold Char.ofNat
  rw [dif_pos hvalid]
  rfl

theorem textOf_bytesOf {s : Text} (h : ∀ ch ∈ s, ch.toNat < 256) : textOf (bytesOf s) = s := by
  unfold bytesOf textOf
  rw [List.map_map]
  refine (List.map_congr_left fun ch hch => ?_).trans (List.map_id s)
  have hbyte : ch.toNat.toUInt8.toNat = ch.toNat := Nat.mod_eq_of_lt (h ch hch)
  rw [Function.comp_apply, hbyte]
  exact Char.ofNat_toNat ch

theorem bytewise_constantOf (val : Value) : Bytewise (constantOf val) := by
  intro s hs ch hch
  cases val with
  | int n => cases hs
  | string b =>
    cases hs
    obtain ⟨byte, -, rfl⟩ := List.mem_map.mp hch
    rw [toNat_byte]
    exact byte.toNat_lt

variable {schema : Schema} {F : Name}

/-- The constants of a record. -/
def rowOf (schema : Schema) (row : StoredRecords.Row) : Row := fun F =>
  if schema.hasField F then constantOf (row F) else .null

theorem rowOf_field {row : StoredRecords.Row} (h : schema.hasField F = true) :
    rowOf schema row F = constantOf (row F) := if_pos h

theorem rowOf_update {row : StoredRecords.Row} (h : schema.hasField F = true) (val : Value) :
    rowOf schema (Function.update row F val) =
      Function.update (rowOf schema row) F (constantOf val) := by
  funext G
  by_cases heq : G = F
  · rw [heq, Function.update_self, rowOf_field h, Function.update_self]
  · unfold rowOf
    rw [Function.update_of_ne heq, Function.update_of_ne heq]

end Values

/-- The blocks of a file as the planner sees them. -/
def recordForm {B : BlockSize} {layout : Layout} (hl : Sound B layout) : Form Row :=
  mapForm (rowOf layout.schema) (form hl)

/-- The scan over the pages has the records of the other one, and the same cursor. -/
def Shows {B : BlockSize} {layout : Layout} (hl : Sound B layout) (fileName : Bytes)
    (ts : PagePlanner.TableScan) (cs : TableScans.TableScan Row) : Prop :=
  ∃ rs, Simulates hl fileName ts rs ∧ cs = mapScan (rowOf layout.schema) rs

/-- The records that send the old values of a table to the log fit in blocks. -/
structure Logged (B : BlockSize) (fileName : Bytes) (schema : Schema) : Prop where
  int : Loggable B fileName (.int 0)
  string : ∀ F info, schema.fieldInfo F = some info → info.type = .varchar →
    fileName.length + 28 + 2 * info.length.toInt.toNat ≤ B.bytes

section Scans

variable {B : BlockSize} {layout : Layout} {hl : Sound B layout} {fileName : Bytes}
  {ts : PagePlanner.TableScan} {cs : TableScans.TableScan Row} {i : ℕ} {slot : Slot Row}
  {F : Name} {c : Constant}

theorem Logged.loggable (h : Logged B fileName layout.schema) {val : Value}
    (hval : Suits layout (.field F) val) : Loggable B fileName val := by
  obtain ⟨hkind, hsize⟩ := hval
  cases val with
  | int n => exact h.int
  | string s =>
    have hcell : (Cell.field F).kind layout =
        (layout.schema.fieldInfo F).elim .int (fun info => kindOf info.type) := rfl
    have hwidth : (Cell.field F).width layout = (layout.schema.fieldInfo F).elim 0 width := rfl
    rw [hcell] at hkind
    rw [hwidth] at hsize
    cases hinfo : layout.schema.fieldInfo F with
    | none =>
      rw [hinfo] at hkind
      cases hkind
    | some info =>
      obtain ⟨type, length⟩ := info
      rw [hinfo, Option.elim_some] at hkind hsize
      cases type with
      | integer | boolean => cases hkind
      | varchar =>
        have hfits := h.string F _ hinfo rfl
        have hlength : 4 + s.length ≤ 4 + length.toInt.toNat := hsize
        show fileName.length + 24 + 2 * s.length + 4 ≤ B.bytes
        dsimp only at hfits
        omega

theorem Shows.length_le (h : Shows hl fileName ts cs) :
    cs.slots.length ≤ ts.tx.size * B.bytes := by
  obtain ⟨rs, hrs, rfl⟩ := h
  rw [mapScan_slots, List.length_map, hrs.length]
  exact Nat.mul_le_mul_left _ (perBlock_le B layout)

/-- The record under the cursor, in the slots of the file. -/
theorem Shows.get (h : Shows hl fileName ts cs) (hget : cs.get (recordForm hl) = .ok (i, slot)) :
    ∃ rs slot' j, Simulates hl fileName ts rs ∧ cs = mapScan (rowOf layout.schema) rs ∧
      rs.slot = some j ∧ rs.get (form hl) = .ok (i, slot') ∧
      slot = mapSlot (rowOf layout.schema) slot' := by
  obtain ⟨rs, hrs, rfl⟩ := h
  unfold recordForm at hget
  rw [mapScan_get] at hget
  obtain ⟨⟨i', slot'⟩, hget', heq⟩ := map_eq_ok.mp hget
  cases heq
  have hslot : ∃ j, rs.slot = some j := by
    cases hnone : rs.slot with
    | some j => exact ⟨j, rfl⟩
    | none =>
      unfold TableScans.TableScan.get TableScans.TableScan.current at hget'
      rw [hnone] at hget'
      cases hget'
  obtain ⟨j, hj⟩ := hslot
  exact ⟨rs, slot', j, hrs, rfl, hj, hget', rfl⟩

theorem Shows.new {tx : RecordPages.Transaction} {slots : List (Slot StoredRecords.Row)}
    (h : Contains B layout fileName tx slots) (hfit : Logged B fileName layout.schema) :
    ∃ ts, RecordPages.TableScan.new B layout tx = .ok ts ∧ Shows hl fileName ts
      (TableScans.TableScan.new (recordForm hl) (slots.map (mapSlot (rowOf layout.schema)))) := by
  obtain ⟨ts, hnew, hsim⟩ := Simulates.new hl h (fun _ => hfit.int)
  exact ⟨ts, hnew, _, hsim, mapScan_new slots⟩

theorem Shows.next (h : Shows hl fileName ts cs) :
    ∃ ts', ts.next B layout = .ok ((cs.next (recordForm hl)).1, ts') ∧
      Shows hl fileName ts' (cs.next (recordForm hl)).2 := by
  obtain ⟨rs, hrs, rfl⟩ := h
  obtain ⟨ts', hnext, -, hsim⟩ := hrs.next
  unfold recordForm
  rw [mapScan_next]
  exact ⟨ts', hnext, _, hsim, rfl⟩

theorem Shows.insert (h : Shows hl fileName ts cs) (hfit : Logged B fileName layout.schema) :
    ∃ ts', ts.insert B layout = .ok ts' ∧
      Shows hl fileName ts' (cs.insert (recordForm hl)) := by
  obtain ⟨rs, hrs, rfl⟩ := h
  obtain ⟨ts', hinsert, hsim⟩ := hrs.insert hfit.int
  exact ⟨ts', hinsert, _, hsim, mapScan_insert⟩

theorem Shows.getRid (h : Shows hl fileName ts cs) : ts.getRid = cs.getRid := by
  obtain ⟨rs, hrs, rfl⟩ := h
  exact hrs.getRid

theorem Shows.remove (h : Shows hl fileName ts cs)
    (hget : cs.get (recordForm hl) = .ok (i, slot)) (hfit : Logged B fileName layout.schema) :
    ∃ ts', ts.remove B layout = .ok ts' ∧
      Shows hl fileName ts' (cs.setSlot i { slot with used := false }) := by
  obtain ⟨rs, slot', j, hrs, rfl, hj, hget', rfl⟩ := h.get hget
  obtain ⟨ts', hremove, hsim⟩ := hrs.remove hj hget' hfit.int
  exact ⟨ts', hremove, _, hsim, mapScan_setSlot i { slot' with used := false }⟩

/-- The value of a field has the room that it needs. -/
theorem suits_field {rs : TableScans.TableScan StoredRecords.Row} {j : ℕ}
    {slot : Slot StoredRecords.Row} (h : Simulates hl fileName ts rs) (hrs : rs.slot = some j)
    (hget : rs.get (form hl) = .ok (i, slot)) (hF : F ∈ layout.schema.fields) :
    Suits layout (.field F) (slot.row F) := by
  obtain ⟨rfl, hslot⟩ := get_eq hrs hget
  rw [← h.block] at hslot
  have hlt : ts.block < ts.tx.blocks.length := h.inFile
  exact (h.contains.stored.slot ts.block j _ slot (h.inBlock j hrs)
    (List.getElem?_eq_getElem hlt) hslot (.field F) hF).1

theorem Shows.getValue (h : Shows hl fileName ts cs) (hlisted : Listed layout.schema)
    (hget : cs.get (recordForm hl) = .ok (i, slot))
    (hok : UpdatePlanner.getValue layout.schema slot.row F = .ok c) :
    PagePlanner.getValue layout ts F = .ok c ∧ Bytewise c := by
  obtain ⟨rs, slot', j, hrs, rfl, hj, hget', rfl⟩ := h.get hget
  unfold UpdatePlanner.getValue at hok
  split at hok
  · rename_i info hinfo
    cases hok
    have hfield : layout.schema.hasField F = true := by
      unfold Schema.hasField
      rw [hinfo]
      rfl
    have hrow : (mapSlot (rowOf layout.schema) slot').row F = constantOf (slot'.row F) :=
      rowOf_field hfield
    rw [hrow]
    refine ⟨?_, bytewise_constantOf _⟩
    unfold PagePlanner.getValue
    rw [hrs.getValue hj hget' ((hlisted F).mpr hfield)]
    rfl
  · cases hok

/-- A row with another value is the row of a slot with another value. -/
theorem shows_update {rs : TableScans.TableScan StoredRecords.Row}
    {slot : Slot StoredRecords.Row} (hF : layout.schema.hasField F = true) {val : Value}
    (h : Simulates hl fileName ts
      (rs.setSlot i { slot with row := Function.update slot.row F val })) :
    Shows hl fileName ts ((mapScan (rowOf layout.schema) rs).setSlot i
      ⟨slot.used, Function.update (rowOf layout.schema slot.row) F (constantOf val)⟩) := by
  refine ⟨_, h, ?_⟩
  rw [← rowOf_update hF]
  exact mapScan_setSlot i { slot with row := Function.update slot.row F val }

/-- A value that a record takes is written to its page. -/
theorem Shows.setValue (h : Shows hl fileName ts cs) (hlisted : Listed layout.schema)
    (hget : cs.get (recordForm hl) = .ok (i, slot)) (hfit : Logged B fileName layout.schema)
    (hbytes : Bytewise c) {row : Row}
    (hok : UpdatePlanner.setValue layout.schema slot.row F c = .ok row) :
    ∃ ts', PagePlanner.setValue B layout ts F c = .ok ts' ∧
      Shows hl fileName ts' (cs.setSlot i { slot with row := row }) := by
  obtain ⟨rs, slot', j, hrs, rfl, hj, hget', rfl⟩ := h.get hget
  unfold UpdatePlanner.setValue at hok
  split at hok
  · cases hok
  · rename_i info hinfo
    obtain ⟨type, length⟩ := info
    have hfield : layout.schema.hasField F = true := by
      unfold Schema.hasField
      rw [hinfo]
      rfl
    have hF : F ∈ layout.schema.fields := (hlisted F).mpr hfield
    have hlog := hfit.loggable (suits_field hrs hj hget' hF)
    have htype : layout.fieldType F = .ok type := by
      unfold Layout.fieldType
      rw [hinfo]
    have hint : ∀ n, kindOf type = .int → ∃ ts', ts.setInt B layout F n = .ok ts' ∧
        Shows hl fileName ts' ((mapScan (rowOf layout.schema) rs).setSlot i
          ⟨slot'.used, Function.update (rowOf layout.schema slot'.row) F (.ofInt n)⟩) := by
      intro n hkind
      obtain ⟨ts', hset, hsim⟩ := hrs.setInt hj hget' (n := n)
        ⟨hF, _, hinfo, hkind.symm, trivial⟩ hlog
      exact ⟨ts', hset, shows_update hfield hsim⟩
    unfold PagePlanner.setValue asInt asString
    rw [htype, ok_bind]
    cases type with
    | integer | boolean =>
      cases hival : c.ival with
      | none =>
        rw [hival] at hok
        cases hok
      | some n =>
        rw [hival] at hok
        cases hok
        exact hint n rfl
    | varchar =>
      cases hsval : c.sval with
      | none =>
        rw [hsval] at hok
        cases hok
      | some s =>
        rw [hsval] at hok
        dsimp only at hok
        split at hok
        · rename_i hlength
          cases hok
          have hshort : ((bytesOf s).length : ℤ) ≤ length.toInt := by
            unfold bytesOf
            rw [List.length_map]
            exact hlength
          obtain ⟨ts', hset, hsim⟩ := hrs.setString hj hget' (s := bytesOf s)
            ⟨hF, _, hinfo, rfl, hshort⟩ hlog
          have hval : constantOf (.string (bytesOf s)) = .ofString s :=
            congrArg Constant.ofString (textOf_bytesOf (hbytes s hsval))
          rw [← hval]
          exact ⟨ts', hset, shows_update hfield hsim⟩
        · cases hok

end Scans

section Predicates

variable {B : BlockSize} {layout : Layout} {hl : Sound B layout} {fileName : Bytes}
  {ts : PagePlanner.TableScan} {cs : TableScans.TableScan Row} {i : ℕ} {slot : Slot Row}

theorem Shows.evaluate (h : Shows hl fileName ts cs) (hlisted : Listed layout.schema)
    (hget : cs.get (recordForm hl) = .ok (i, slot)) {e : Expression} {c : Constant}
    (hok : UpdatePlanner.evaluate layout.schema slot.row e = .ok c) :
    PagePlanner.evaluate layout ts e = .ok c ∧ (Bytewise e.value → Bytewise c) := by
  unfold UpdatePlanner.evaluate at hok
  unfold PagePlanner.evaluate
  split at hok
  · rename_i hnull
    obtain ⟨hvalue, hbytes⟩ := h.getValue hlisted hget hok
    rw [if_pos hnull]
    exact ⟨hvalue, fun _ => hbytes⟩
  · rename_i hvalue
    cases hok
    rw [if_neg hvalue]
    exact ⟨rfl, id⟩

theorem Shows.isSatisfied (h : Shows hl fileName ts cs) (hlisted : Listed layout.schema)
    (hget : cs.get (recordForm hl) = .ok (i, slot)) {pred : Predicate} {b : Bool}
    (hok : UpdatePlanner.isSatisfied layout.schema slot.row pred = .ok b) :
    PagePlanner.isSatisfied layout ts pred = .ok b := by
  induction pred with
  | nil => exact hok
  | cons t pred ih =>
    obtain ⟨b₁, hterm, hok⟩ := bind_eq_ok.mp hok
    obtain ⟨lhs, hlhs, hterm⟩ := bind_eq_ok.mp hterm
    obtain ⟨rhs, hrhs, hterm⟩ := bind_eq_ok.mp hterm
    have hterm' : termIsSatisfied layout ts t = .ok b₁ := by
      unfold termIsSatisfied
      rw [(h.evaluate hlisted hget hlhs).1, (h.evaluate hlisted hget hrhs).1]
      exact hterm
    rw [PagePlanner.isSatisfied, hterm', ok_bind]
    cases b₁ with
    | true => exact ih hok
    | false => exact hok

end Predicates

section Loops

variable {B : BlockSize} {layout : Layout} {hl : Sound B layout} {fileName : Bytes}
  {ts : PagePlanner.TableScan} {cs cs' : TableScans.TableScan Row} {pred : Predicate}

/-- The selected record that a scan arrives at, behind its old cursor. -/
def Selected (hl : Sound B layout) (cs cs' : TableScans.TableScan Row) : Prop :=
  ∃ i slot, cs' = cs.moveTo (recordForm hl) i ∧ cs.start (recordForm hl) ≤ i ∧
    cs.slots[i]? = some slot

/-- Both scans find the same record, with as many steps as there are slots. -/
theorem Shows.selectNext (h : Shows hl fileName ts cs) (hlisted : Listed layout.schema) {n k : ℕ}
    {b : Bool} (hn : cs.slots.length ≤ n + cs.start (recordForm hl))
    (hk : cs.slots.length ≤ k + cs.start (recordForm hl))
    (hok : TableScans.selectNext (recordForm hl)
      (fun row => UpdatePlanner.isSatisfied layout.schema row pred) (k + 1) cs = .ok (b, cs')) :
    ∃ ts', PagePlanner.selectNext B layout pred (n + 1) ts = .ok (b, ts') ∧
      Shows hl fileName ts' cs' ∧ cs'.slots = cs.slots ∧ (b = true → Selected hl cs cs') := by
  induction n using Nat.strong_induction_on generalizing k ts cs with | _ n ih
  obtain ⟨ts₁, hnext, h₁⟩ := h.next
  rw [PagePlanner.selectNext, hnext, ok_bind]
  rw [TableScans.selectNext] at hok
  rw [TableScans.next_eq] at h₁ hok ⊢
  cases hsearch : search cs.slots (cs.start (recordForm hl)) true with
  | none =>
    rw [hsearch] at h₁ hok
    cases hok
    exact ⟨ts₁, rfl, h₁, rfl, fun hb => (by cases hb)⟩
  | some i =>
    rw [hsearch] at h₁ hok
    obtain ⟨hle, slot, hslot, -⟩ := TableScans.search_eq_some hsearch
    have hlt := (List.getElem?_eq_some_iff.mp hslot).1
    have hget : (cs.moveTo (recordForm hl) i).get (recordForm hl) = .ok (i, slot) :=
      TableScans.get_moveTo _ cs hslot
    obtain ⟨⟨i', slot'⟩, hget', hok⟩ := bind_eq_ok.mp hok
    cases hget.symm.trans hget'
    obtain ⟨sat, hsat, hok⟩ := bind_eq_ok.mp hok
    have hsat' := h₁.isSatisfied hlisted hget hsat
    have harrive : TableScans.arrive (recordForm hl) cs (some i) =
        (true, cs.moveTo (recordForm hl) i) := rfl
    rw [harrive]
    dsimp only
    rw [if_pos rfl, hsat', ok_bind]
    cases sat with
    | true =>
      cases hok
      exact ⟨ts₁, rfl, h₁, rfl, fun _ => ⟨i, slot, rfl, hle, hslot⟩⟩
    | false =>
      have hstart : (cs.moveTo (recordForm hl) i).start (recordForm hl) = i + 1 :=
        TableScans.start_moveTo _ cs i
      have hslots : (cs.moveTo (recordForm hl) i).slots = cs.slots := rfl
      have hmoved : Shows hl fileName ts₁ (cs.moveTo (recordForm hl) i) := h₁
      obtain ⟨n', rfl⟩ : ∃ n', n = n' + 1 := ⟨n - 1, by omega⟩
      obtain ⟨k', rfl⟩ : ∃ k', k = k' + 1 := ⟨k - 1, by omega⟩
      obtain ⟨ts', hselect, h', hsame, hfound⟩ := ih n' (Nat.lt_succ_self n') hmoved
        (k := k') (by rw [hslots, hstart]; omega) (by rw [hslots, hstart]; omega) hok
      refine ⟨ts', hselect, h', hsame, fun hb => ?_⟩
      obtain ⟨i', slot', heq, hle', hslot'⟩ := hfound hb
      rw [hstart] at hle'
      exact ⟨i', slot', heq, by omega, hslot'⟩

/-- At each record the two bodies do the same, and change no slot but that of the record. -/
def SameBody {σ : Type} (hl : Sound B layout) (fileName : Bytes)
    (body : TableScans.TableScan Row → σ → Result (TableScans.TableScan Row × σ))
    (body' : PagePlanner.TableScan → σ → Result (PagePlanner.TableScan × σ)) : Prop :=
  ∀ ts cs i slot s cs' s', Shows hl fileName ts cs → cs.get (recordForm hl) = .ok (i, slot) →
    body cs s = .ok (cs', s') → ∃ ts' slot', body' ts s = .ok (ts', s') ∧
      Shows hl fileName ts' cs' ∧ cs' = cs.setSlot i slot'

/-- The loop over the selected records. -/
theorem Shows.whileNext {σ : Type}
    {body : TableScans.TableScan Row → σ → Result (TableScans.TableScan Row × σ)}
    {body' : PagePlanner.TableScan → σ → Result (PagePlanner.TableScan × σ)} {n k : ℕ}
    {s s' : σ} (hbody : SameBody hl fileName body body')
    (h : Shows hl fileName ts cs) (hlisted : Listed layout.schema)
    (hn : cs.slots.length ≤ n + cs.start (recordForm hl))
    (hk : cs.slots.length ≤ k + cs.start (recordForm hl))
    (hok : TableScans.whileNext (recordForm hl)
      (fun row => UpdatePlanner.isSatisfied layout.schema row pred) body (k + 1) cs s =
        .ok (cs', s')) :
    ∃ ts', PagePlanner.whileNext B layout pred body' (n + 1) ts s = .ok (ts', s') ∧
      Shows hl fileName ts' cs' := by
  induction n using Nat.strong_induction_on generalizing k ts cs s with | _ n ih
  rw [TableScans.whileNext] at hok
  obtain ⟨⟨found, cs₁⟩, hselect, hok⟩ := bind_eq_ok.mp hok
  have hle := h.length_le
  obtain ⟨ts₁, hselect', h₁, hsame, hselected⟩ := h.selectNext hlisted
    (n := ts.tx.size * B.bytes) (k := cs.slots.length) (by omega) (by omega) hselect
  have hsteps : steps B ts = ts.tx.size * B.bytes + 1 := rfl
  rw [PagePlanner.whileNext, hsteps, hselect', ok_bind]
  dsimp only at hok ⊢
  cases found with
  | false =>
    cases hok
    exact ⟨ts₁, rfl, h₁⟩
  | true =>
    obtain ⟨i, slot, rfl, hi, hslot⟩ := hselected rfl
    have hlt := (List.getElem?_eq_some_iff.mp hslot).1
    obtain ⟨⟨cs₂, s₂⟩, hstep, hok⟩ := bind_eq_ok.mp hok
    obtain ⟨ts₂, slot₂, hstep', h₂, rfl⟩ :=
      hbody _ _ _ _ _ _ _ h₁ (TableScans.get_moveTo _ cs hslot) hstep
    rw [if_pos rfl, hstep', ok_bind]
    have hstart : ((cs.moveTo (recordForm hl) i).setSlot i slot₂).start (recordForm hl) = i + 1 :=
      TableScans.start_moveTo _ cs i
    have hlength : ((cs.moveTo (recordForm hl) i).setSlot i slot₂).slots.length =
        cs.slots.length := List.length_set
    obtain ⟨n', rfl⟩ : ∃ n', n = n' + 1 := ⟨n - 1, by omega⟩
    obtain ⟨k', rfl⟩ : ∃ k', k = k' + 1 := ⟨k - 1, by omega⟩
    exact ih n' (Nat.lt_succ_self n') h₂ (k := k') (by rw [hlength, hstart]; omega)
      (by rw [hlength, hstart]; omega) hok

end Loops

end SampleDB.PageRecords
