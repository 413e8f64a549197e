import SampleDB.LogState
import SampleDB.Runs
import SampleDB.ScanRefinement

/-!
A table scan as a record store. Beside the scan stands a ledger of the live records with the
values set in each since it was inserted. In every state a scan from the start visits the
live records in order and reads these values, and an insertion takes a free identifier. The
old value of each write goes to the log, where a record that is longer than a block stops
the process.
-/
namespace SampleDB.RecordStore

open Words Pages Blocks LogRecords Logging Lexer Schemas Rollback
open Endings TableScans StoredRecords StoredTables ScanRefinement
open RecordPages hiding TableScan

/-- The live records, and the values that were set in each. -/
abbrev Ledger := Rid → Option (Name → Option Value)

/-- `ledger` is not in the source. -/
structure Store where
  scan : RecordPages.TableScan
  ledger : Ledger

inductive StoreOp
  | insert
  | remove
  | setInt (fieldName : Name) (val : Int32)
  | setString (fieldName : Name) (val : Bytes)
  | setValue (fieldName : Name) (val : Value)
  | next
  | beforeFirst
  | moveToRid (rid : Rid)
  deriving DecidableEq

namespace Store

/-- The ledger after a value was set in the current record. -/
def note (s : Store) (rid : Rid) (fieldName : Name) (val : Value) : Ledger :=
  Function.update s.ledger rid
    ((s.ledger rid).map (fun vals => Function.update vals fieldName (some val)))

def step (B : BlockSize) (layout : Layout) (s : Store) : StoreOp → Result Store
  | .insert => do
      let scan ← s.scan.insert B layout
      let rid ← scan.getRid
      return ⟨scan, Function.update s.ledger rid (some (fun _ => none))⟩
  | .remove => do
      let rid ← s.scan.getRid
      let scan ← s.scan.remove B layout
      return ⟨scan, Function.update s.ledger rid none⟩
  | .setInt fieldName val => do
      let rid ← s.scan.getRid
      let scan ← s.scan.setInt B layout fieldName val
      return ⟨scan, s.note rid fieldName (.int val)⟩
  | .setString fieldName val => do
      let rid ← s.scan.getRid
      let scan ← s.scan.setString B layout fieldName val
      return ⟨scan, s.note rid fieldName (.string val)⟩
  | .setValue fieldName val => do
      let rid ← s.scan.getRid
      let scan ← s.scan.setValue B layout fieldName val
      return ⟨scan, s.note rid fieldName val⟩
  | .next => do
      let (_, scan) ← s.scan.next B layout
      return { s with scan := scan }
  | .beforeFirst => .ok { s with scan := s.scan.beforeFirst }
  | .moveToRid rid => .ok { s with scan := s.scan.moveToRid rid }

/-- The scan is at a live record. -/
def AtRecord (s : Store) : Prop := ∃ rid, s.scan.getRid = .ok rid ∧ s.ledger rid ≠ none

/-- The calls of a client that keeps to its table: values are set in a current record and
suit their field, and a scan is moved to live records only. -/
def Allowed (layout : Layout) (s : Store) : StoreOp → Prop
  | .insert => True
  | .remove => s.AtRecord
  | .setInt fieldName val => s.AtRecord ∧ Storable layout fieldName (.int val)
  | .setString fieldName val => s.AtRecord ∧ Storable layout fieldName (.string val)
  | .setValue fieldName val => s.AtRecord ∧ Storable layout fieldName val
  | .next => True
  | .beforeFirst => True
  | .moveToRid rid => s.ledger rid ≠ none

/-- The record that logs the current value of the field fits a block. -/
def FieldFits (B : BlockSize) (layout : Layout) (s : Store) (fieldName : Name) : Prop :=
  ∀ old, s.scan.getValue layout fieldName = .ok old → Loggable B s.scan.tx.fileName old

/-- The record that logs what the call overwrites fits a block. -/
def Fits (B : BlockSize) (layout : Layout) (s : Store) : StoreOp → Prop
  | .insert => Loggable B s.scan.tx.fileName (.int 0)
  | .remove => Loggable B s.scan.tx.fileName (.int 0)
  | .setInt fieldName _ => s.FieldFits B layout fieldName
  | .setString fieldName _ => s.FieldFits B layout fieldName
  | .setValue fieldName _ => s.FieldFits B layout fieldName
  | .next => True
  | .beforeFirst => True
  | .moveToRid _ => True

instance (s : Store) : Decidable s.AtRecord :=
  match h : s.scan.getRid with
  | .ok rid => decidable_of_iff ((s.ledger rid).isSome = true)
      ⟨fun hlive => ⟨rid, h, Option.isSome_iff_ne_none.mp hlive⟩, fun ⟨_, hrid, hlive⟩ => by
        cases h.symm.trans hrid
        exact Option.isSome_iff_ne_none.mpr hlive⟩
  | .error _ => isFalse (fun ⟨_, hrid, _⟩ => by cases h.symm.trans hrid)

instance (layout : Layout) (s : Store) : (op : StoreOp) → Decidable (s.Allowed layout op)
  | .insert => isTrue trivial
  | .remove => inferInstanceAs (Decidable s.AtRecord)
  | .setInt _ _ => inferInstanceAs (Decidable (_ ∧ _))
  | .setString _ _ => inferInstanceAs (Decidable (_ ∧ _))
  | .setValue _ _ => inferInstanceAs (Decidable (_ ∧ _))
  | .next => isTrue trivial
  | .beforeFirst => isTrue trivial
  | .moveToRid rid => decidable_of_iff ((s.ledger rid).isSome = true) Option.isSome_iff_ne_none

instance (B : BlockSize) (layout : Layout) (s : Store) (fieldName : Name) :
    Decidable (s.FieldFits B layout fieldName) :=
  match h : s.scan.getValue layout fieldName with
  | .ok old => decidable_of_iff (Loggable B s.scan.tx.fileName old)
      ⟨fun hfit old' hold => by cases h.symm.trans hold; exact hfit, fun hfit => hfit old h⟩
  | .error _ => isTrue (fun old' hold => by cases h.symm.trans hold)

instance (B : BlockSize) (layout : Layout) (s : Store) : (op : StoreOp) →
    Decidable (s.Fits B layout op)
  | .insert => inferInstanceAs (Decidable (Loggable B _ _))
  | .remove => inferInstanceAs (Decidable (Loggable B _ _))
  | .setInt f _ => inferInstanceAs (Decidable (s.FieldFits B layout f))
  | .setString f _ => inferInstanceAs (Decidable (s.FieldFits B layout f))
  | .setValue f _ => inferInstanceAs (Decidable (s.FieldFits B layout f))
  | .next => isTrue trivial
  | .beforeFirst => isTrue trivial
  | .moveToRid _ => isTrue trivial

/-- A call of the client that goes through. -/
def Calls (B : BlockSize) (layout : Layout) (s : Store) (op : StoreOp) (s' : Store) : Prop :=
  s.Allowed layout op ∧ s.step B layout op = .ok s'

/-- Calling `next` until it is false visits these records, with what is read in each. -/
inductive Visits (B : BlockSize) (layout : Layout) :
    RecordPages.TableScan → List (Rid × (Name → Result Value)) → Prop
  | done (ts ts' : RecordPages.TableScan) (h : ts.next B layout = .ok (false, ts')) :
      Visits B layout ts []
  | more (ts ts' : RecordPages.TableScan) (rid : Rid)
      (rows : List (Rid × (Name → Result Value))) (h : ts.next B layout = .ok (true, ts'))
      (hrid : ts'.getRid = .ok rid) (hrest : Visits B layout ts' rows) :
      Visits B layout ts ((rid, ts'.getValue layout) :: rows)

/-- A scan from the start visits the live records once and in order, and reads what was set. -/
def ScansLive (B : BlockSize) (layout : Layout) (s : Store) : Prop :=
  ∃ rows, Visits B layout s.scan.beforeFirst rows ∧ (rows.map Prod.fst).Pairwise Rid.Before ∧
    (∀ rid, rid ∈ rows.map Prod.fst ↔ s.ledger rid ≠ none) ∧
    ∀ rid read, (rid, read) ∈ rows → ∀ vals, s.ledger rid = some vals →
      ∀ f val, vals f = some val → read f = .ok val

/-- The call returns, and an insertion takes an identifier that is not live. -/
def Serves (B : BlockSize) (layout : Layout) (s : Store) (op : StoreOp) : Prop :=
  ∃ s', s.step B layout op = .ok s' ∧
    (op = .insert → ∀ rid, s'.scan.getRid = .ok rid → s.ledger rid = none)

end Store

/-- The ledger of a file that has these slots. -/
def ledgerOf (B : BlockSize) (layout : Layout) (slots : List (Slot Row)) : Ledger := fun rid =>
  match slots[rid.blockNumber * perBlock B layout + rid.slotNumber]? with
  | some slot =>
      if slot.used = true ∧ rid.slotNumber < perBlock B layout then
        some (fun f => if f ∈ layout.schema.fields then some (slot.row f) else none)
      else none
  | none => none

/-- The slots of the file agree with the ledger. -/
structure Agrees {B : BlockSize} {layout : Layout} (hl : Sound B layout)
    (slots : List (Slot Row)) (ledger : Ledger) : Prop where
  inFile : ∀ rid, ledger rid ≠ none → ∃ i < slots.length, rid = (form hl).rid i
  used : ∀ i slot, slots[i]? = some slot → (slot.used = true ↔ ledger ((form hl).rid i) ≠ none)
  read : ∀ i slot vals, slots[i]? = some slot → ledger ((form hl).rid i) = some vals →
    ∀ f val, vals f = some val → f ∈ layout.schema.fields ∧ slot.row f = val

/-- The scan simulates one over slots that agree with the ledger. -/
structure Inv {B : BlockSize} {layout : Layout} (hl : Sound B layout) (fileName : Bytes)
    (s : Store) (rs : TableScans.TableScan Row) : Prop where
  simulates : Simulates hl fileName s.scan rs
  agrees : Agrees hl rs.slots s.ledger

section Ledgers

variable {B : BlockSize} {layout : Layout} {hl : Sound B layout} {slots : List (Slot Row)}
  {ledger : Ledger} {i : ℕ} {slot slot' : Slot Row}

/-- A slot and the entry of its record change together. -/
theorem Agrees.set (h : Agrees hl slots ledger) (hslot : slots[i]? = some slot)
    {entry : Option (Name → Option Value)} (hused : slot'.used = true ↔ entry ≠ none)
    (hread : ∀ vals, entry = some vals → ∀ f val, vals f = some val →
      f ∈ layout.schema.fields ∧ slot'.row f = val) :
    Agrees hl (slots.set i slot') (Function.update ledger ((form hl).rid i) entry) := by
  obtain ⟨hlt, -⟩ := List.getElem?_eq_some_iff.mp hslot
  have hcases : ∀ k slot₁, (slots.set i slot')[k]? = some slot₁ →
      (k = i ∧ slot₁ = slot') ∨ (k ≠ i ∧ slots[k]? = some slot₁) := by
    intro k slot₁ hk
    rw [List.getElem?_set] at hk
    by_cases heq : i = k
    · rw [if_pos heq, if_pos hlt] at hk
      exact Or.inl ⟨heq.symm, (Option.some.inj hk).symm⟩
    · rw [if_neg heq] at hk
      exact Or.inr ⟨Ne.symm heq, hk⟩
  refine ⟨?_, ?_, ?_⟩
  · intro rid hrid
    rw [List.length_set]
    by_cases heq : rid = (form hl).rid i
    · exact ⟨i, hlt, heq⟩
    · rw [Function.update_of_ne heq] at hrid
      exact h.inFile rid hrid
  · intro k slot₁ hk
    rcases hcases k slot₁ hk with ⟨rfl, rfl⟩ | ⟨hne, hk⟩
    · rw [Function.update_self]
      exact hused
    · rw [Function.update_of_ne (fun heq => hne ((form hl).rid_inj heq))]
      exact h.used k slot₁ hk
  · intro k slot₁ vals hk hvals
    rcases hcases k slot₁ hk with ⟨rfl, rfl⟩ | ⟨hne, hk⟩
    · rw [Function.update_self] at hvals
      exact hread vals hvals
    · rw [Function.update_of_ne (fun heq => hne ((form hl).rid_inj heq))] at hvals
      exact h.read k slot₁ vals hk hvals

/-- A block of empty slots has no records. -/
theorem Agrees.append (h : Agrees hl slots ledger) :
    Agrees hl (slots ++ (form hl).emptyBlock) ledger := by
  have hfree : ∀ k, slots.length ≤ k → ledger ((form hl).rid k) = none := by
    intro k hk
    by_contra hne
    obtain ⟨k', hk', heq⟩ := h.inFile _ hne
    have hsame := (form hl).rid_inj heq
    omega
  refine ⟨?_, ?_, ?_⟩
  · intro rid hrid
    obtain ⟨k, hk, heq⟩ := h.inFile rid hrid
    exact ⟨k, by rw [List.length_append]; omega, heq⟩
  · intro k slot₁ hk
    by_cases hlt : k < slots.length
    · rw [List.getElem?_append_left hlt] at hk
      exact h.used k slot₁ hk
    · rw [List.getElem?_append_right (by omega)] at hk
      rw [hfree k (by omega), emptyBlock_unused _ _ (List.mem_of_getElem? hk)]
      simp
  · intro k slot₁ vals hk hvals
    by_cases hlt : k < slots.length
    · rw [List.getElem?_append_left hlt] at hk
      exact h.read k slot₁ vals hk hvals
    · rw [hfree k (by omega)] at hvals
      cases hvals

theorem place_rid_of_lt {rid : Rid} (h : rid.slotNumber < perBlock B layout) :
    (form hl).rid ((form hl).place rid) = rid := by
  have hdiv := div_place rid.blockNumber h
  have hmod := mod_place rid.blockNumber h
  unfold Form.rid Form.place
  show Rid.mk ((rid.blockNumber * perBlock B layout + rid.slotNumber) / perBlock B layout)
    ((rid.blockNumber * perBlock B layout + rid.slotNumber) % perBlock B layout) = rid
  rw [hdiv, hmod]

theorem agrees_ledgerOf (hl : Sound B layout) (slots : List (Slot Row)) :
    Agrees hl slots (ledgerOf B layout slots) := by
  have hlt : ∀ k, ((form hl).rid k).slotNumber < perBlock B layout :=
    fun k => Nat.mod_lt k hl.perBlock_pos
  have hplace : ∀ k, ((form hl).rid k).blockNumber * perBlock B layout +
      ((form hl).rid k).slotNumber = k := (form hl).place_rid
  refine ⟨?_, ?_, ?_⟩
  · intro rid hrid
    unfold ledgerOf at hrid
    split at hrid
    · rename_i slot hslot
      split at hrid
      · rename_i hused
        obtain ⟨hin, -⟩ := List.getElem?_eq_some_iff.mp hslot
        exact ⟨_, hin, (place_rid_of_lt hused.2).symm⟩
      · exact absurd rfl hrid
    · exact absurd rfl hrid
  · intro k slot hslot
    unfold ledgerOf
    rw [hplace, hslot]
    by_cases hused : slot.used = true
    · simp [hused, hlt k]
    · simp [hused]
  · intro k slot vals hslot hvals f val hval
    unfold ledgerOf at hvals
    rw [hplace, hslot] at hvals
    dsimp only at hvals
    split at hvals
    · cases hvals
      dsimp only at hval
      split at hval
      · rename_i hf
        exact ⟨hf, Option.some.inj hval⟩
      · cases hval
    · cases hvals

end Ledgers

section Steps

variable {B : BlockSize} {layout : Layout} {hl : Sound B layout} {fileName : Bytes} {s : Store}
  {rs : TableScans.TableScan Row} {ts : RecordPages.TableScan}

/-- A scan visits the records behind its cursor. -/
theorem visits_of_simulates (h : Simulates hl fileName ts rs) :
    ∃ rows, Store.Visits B layout ts rows ∧
      rows.map Prod.fst = (recordsFrom (form hl) (rs.start (form hl))
        (rs.slots.drop (rs.start (form hl)))).map Prod.fst ∧
      ∀ rid read, (rid, read) ∈ rows → ∃ i slot, rid = (form hl).rid i ∧
        rs.slots[i]? = some slot ∧ ∀ f ∈ layout.schema.fields, read f = .ok (slot.row f) := by
  obtain ⟨k, hk⟩ : ∃ k, k = rs.slots.length - rs.start (form hl) := ⟨_, rfl⟩
  induction k using Nat.strongRecOn generalizing ts rs with
  | ind k ih =>
    obtain ⟨ts', hnext, -, hsim⟩ := h.next
    rcases recordsFrom_drop (form hl) rs.slots (rs.start (form hl)) with
      ⟨i, slot, hfound, hslot, hle, hrecords⟩ | ⟨hnone, hrecords⟩
    · have hmove : rs.next (form hl) = (true, rs.moveTo (form hl) i) := by
        unfold TableScans.TableScan.next
        rw [hfound]
      rw [hmove] at hnext hsim
      have hstart := start_moveTo (form hl) rs i
      have hslots : (rs.moveTo (form hl) i).slots = rs.slots := rfl
      obtain ⟨hlt, -⟩ := List.getElem?_eq_some_iff.mp hslot
      obtain ⟨rows, hvisits, hrids, hreads⟩ :=
        ih (rs.slots.length - (i + 1)) (by omega) hsim (by rw [hslots, hstart])
      rw [hslots, hstart] at hrids
      rw [hslots] at hreads
      have hrid : ts'.getRid = .ok ((form hl).rid i) := hsim.getRid
      refine ⟨_, .more ts ts' _ rows hnext hrid hvisits, ?_, ?_⟩
      · rw [hrecords, List.map_cons, List.map_cons, hrids]
      · intro rid read hmem
        rcases List.mem_cons.mp hmem with heq | hmem
        · cases heq
          refine ⟨i, slot, rfl, hslot, ?_⟩
          intro f hf
          exact hsim.getValue rfl (get_moveTo (form hl) rs hslot) hf
        · exact hreads rid read hmem
    · have hstop : (rs.next (form hl)).1 = false := by
        unfold TableScans.TableScan.next
        rw [hnone]
      rw [hstop] at hnext
      refine ⟨[], .done ts ts' hnext, ?_, ?_⟩
      · rw [hrecords]
        rfl
      · intro rid read hmem
        cases hmem

theorem Inv.scansLive (h : Inv hl fileName s rs) : s.ScansLive B layout := by
  obtain ⟨rows, hvisits, hrids, hreads⟩ := visits_of_simulates h.simulates.beforeFirst
  have hstart : rs.beforeFirst.start (form hl) = 0 := Nat.zero_mul _
  have hslots : rs.beforeFirst.slots = rs.slots := rfl
  rw [hslots, hstart, List.drop_zero] at hrids
  rw [hslots] at hreads
  refine ⟨rows, hvisits, ?_, ?_, ?_⟩
  · rw [hrids]
    exact recordsFrom_pairwise (form hl) rs.slots 0
  · intro rid
    rw [hrids]
    constructor
    · intro hmem
      obtain ⟨⟨rid', row⟩, hrecord, rfl⟩ := List.mem_map.mp hmem
      obtain ⟨i, slot, hslot, hused, rfl, -⟩ := mem_recordsFrom.mp hrecord
      rw [Nat.zero_add]
      exact (h.agrees.used i slot hslot).mp hused
    · intro hlive
      obtain ⟨i, hlt, rfl⟩ := h.agrees.inFile rid hlive
      have hslot : rs.slots[i]? = some rs.slots[i] := List.getElem?_eq_getElem hlt
      have hused := (h.agrees.used i _ hslot).mpr hlive
      refine List.mem_map.mpr ⟨((form hl).rid i, rs.slots[i].row), ?_, rfl⟩
      exact mem_recordsFrom.mpr ⟨i, _, hslot, hused, by rw [Nat.zero_add], rfl⟩
  · intro rid read hmem vals hvals f val hval
    obtain ⟨i, slot, rfl, hslot, hread⟩ := hreads rid read hmem
    obtain ⟨hf, hrow⟩ := h.agrees.read i slot vals hslot hvals f val hval
    rw [hread f hf, hrow]

/-- The slot of the current record. -/
theorem Inv.current (h : Inv hl fileName s rs) (hat : s.AtRecord) :
    ∃ i j slot, rs.slot = some j ∧ rs.get (form hl) = .ok (i, slot) ∧
      rs.slots[i]? = some slot ∧ slot.used = true ∧ s.scan.getRid = .ok ((form hl).rid i) := by
  obtain ⟨rid, hrid, hlive⟩ := hat
  have hget := h.simulates.getRid
  rw [hrid] at hget
  unfold TableScans.TableScan.getRid at hget
  cases hrs : rs.slot with
  | none =>
    rw [hrs] at hget
    cases hget
  | some j =>
    rw [hrs] at hget
    cases hget
    have hj := h.simulates.inBlock j hrs
    have hlt : (⟨rs.block, j⟩ : Rid).slotNumber < perBlock B layout := hj
    have hplace : (form hl).rid (rs.block * perBlock B layout + j) = ⟨rs.block, j⟩ :=
      place_rid_of_lt hlt
    rw [← hplace] at hlive hrid
    obtain ⟨i, hin, heq⟩ := h.agrees.inFile _ hlive
    rw [(form hl).rid_inj heq] at hlive hrid
    have hslot : rs.slots[i]? = some rs.slots[i] := List.getElem?_eq_getElem hin
    refine ⟨i, j, _, rfl, ?_, hslot, (h.agrees.used i _ hslot).mpr hlive, hrid⟩
    unfold TableScans.TableScan.get TableScans.TableScan.current
    have hcurr : rs.block * (form hl).perBlock + j = i := (form hl).rid_inj heq
    rw [hrs, Option.map_some, hcurr]
    simp only [hslot]

theorem Inv.insert (h : Inv hl fileName s rs) (hfit : Loggable B fileName (.int 0)) :
    ∃ s' rs', s.step B layout .insert = .ok s' ∧ Inv hl fileName s' rs' ∧
      ∀ rid, s'.scan.getRid = .ok rid → s.ledger rid = none := by
  obtain ⟨ts', hinsert, hsim⟩ := h.simulates.insert hfit
  obtain ⟨slots, i, slot, hslots, hslot, hused, heq, -⟩ := insert_cases (form hl) rs
  rw [heq] at hsim
  have hagrees : Agrees hl slots s.ledger := by
    rcases hslots with rfl | rfl
    · exact h.agrees
    · exact h.agrees.append
  have hrid : ts'.getRid = .ok ((form hl).rid i) := hsim.getRid
  refine ⟨⟨ts', Function.update s.ledger ((form hl).rid i) (some (fun _ => none))⟩, _, ?_,
    ⟨hsim, ?_⟩, ?_⟩
  · unfold Store.step
    rw [hinsert, ok_bind, hrid]
    rfl
  · refine hagrees.set hslot (by simp) ?_
    intro vals hvals f val hval
    cases hvals
    cases hval
  · intro rid hrid'
    cases hrid.symm.trans hrid'
    by_contra hlive
    rw [(hagrees.used i slot hslot).mpr hlive] at hused
    cases hused

theorem Inv.remove (h : Inv hl fileName s rs) (hat : s.AtRecord)
    (hfit : Loggable B fileName (.int 0)) :
    ∃ s' rs', s.step B layout .remove = .ok s' ∧ Inv hl fileName s' rs' := by
  obtain ⟨i, j, slot, hrs, hget, hslot, -, hrid⟩ := h.current hat
  obtain ⟨ts', hremove, hsim⟩ := h.simulates.remove hrs hget hfit
  refine ⟨⟨ts', Function.update s.ledger ((form hl).rid i) none⟩, _, ?_, ⟨hsim, ?_⟩⟩
  · unfold Store.step
    rw [hrid, ok_bind, hremove]
    rfl
  · refine h.agrees.set hslot (by simp) ?_
    intro vals hvals
    cases hvals

/-- A value that is set in the current record is noted in the ledger. -/
theorem Inv.note (h : Inv hl fileName s rs) {i : ℕ} {slot : Slot Row} {f : Name} {val : Value}
    (hslot : rs.slots[i]? = some slot) (hf : f ∈ layout.schema.fields) {ts' : RecordPages.TableScan}
    (hsim : Simulates hl fileName ts'
      (rs.setSlot i { slot with row := Function.update slot.row f val })) :
    Inv hl fileName ⟨ts', s.note ((form hl).rid i) f val⟩
      (rs.setSlot i { slot with row := Function.update slot.row f val }) := by
  refine ⟨hsim, h.agrees.set hslot ?_ ?_⟩
  · rw [h.agrees.used i slot hslot, ne_eq, ne_eq, Option.map_eq_none_iff]
  · intro vals hvals g v hv
    obtain ⟨old, hold, rfl⟩ := Option.map_eq_some_iff.mp hvals
    by_cases heq : g = f
    · subst heq
      rw [Function.update_self] at hv
      cases hv
      exact ⟨hf, Function.update_self ..⟩
    · rw [Function.update_of_ne heq] at hv
      obtain ⟨hg, hrow⟩ := h.agrees.read i slot old hslot hold g v hv
      refine ⟨hg, ?_⟩
      show Function.update slot.row f val g = v
      rw [Function.update_of_ne heq, hrow]

theorem Inv.fieldFits (h : Inv hl fileName s rs) {i j : ℕ} {slot : Slot Row} {f : Name}
    (hrs : rs.slot = some j) (hget : rs.get (form hl) = .ok (i, slot))
    (hf : f ∈ layout.schema.fields) (hfit : s.FieldFits B layout f) :
    Loggable B fileName (slot.row f) := by
  have hname := h.simulates.contains.name
  rw [← hname]
  exact hfit _ (h.simulates.getValue hrs hget hf)

theorem Inv.next (h : Inv hl fileName s rs) :
    ∃ s' rs', s.step B layout .next = .ok s' ∧ Inv hl fileName s' rs' := by
  obtain ⟨ts', hnext, -, hsim⟩ := h.simulates.next
  refine ⟨{ s with scan := ts' }, _, ?_, ⟨hsim, ?_⟩⟩
  · unfold Store.step
    rw [hnext]
    rfl
  · have hslots : (rs.next (form hl)).2.slots = rs.slots := by
      unfold TableScans.TableScan.next
      split <;> rfl
    rw [hslots]
    exact h.agrees

theorem Inv.moveToRid (h : Inv hl fileName s rs) {rid : Rid} (hlive : s.ledger rid ≠ none) :
    Inv hl fileName { s with scan := s.scan.moveToRid rid } (rs.moveToRid rid) := by
  obtain ⟨i, hlt, rfl⟩ := h.agrees.inFile rid hlive
  have hlen := h.simulates.length
  rw [hlen] at hlt
  refine ⟨h.simulates.moveToRid ?_ ?_, h.agrees⟩
  · exact Nat.div_lt_of_lt_mul (by rw [Nat.mul_comm]; exact hlt)
  · exact Nat.mod_lt i hl.perBlock_pos

/-- A call that is allowed and whose log record fits goes through. -/
theorem Inv.step (h : Inv hl fileName s rs) {op : StoreOp} (hallowed : s.Allowed layout op)
    (hfits : s.Fits B layout op) : ∃ s' rs', s.step B layout op = .ok s' ∧
      Inv hl fileName s' rs' ∧
      (op = .insert → ∀ rid, s'.scan.getRid = .ok rid → s.ledger rid = none) := by
  have hname : s.scan.tx.fileName = fileName := h.simulates.contains.name
  cases op with
  | insert =>
    obtain ⟨s', rs', hstep, hinv, hfresh⟩ := h.insert (hname ▸ hfits)
    exact ⟨s', rs', hstep, hinv, fun _ => hfresh⟩
  | remove =>
    obtain ⟨s', rs', hstep, hinv⟩ := h.remove hallowed (hname ▸ hfits)
    exact ⟨s', rs', hstep, hinv, fun heq => by cases heq⟩
  | setInt f n =>
    obtain ⟨i, j, slot, hrs, hget, hslot, -, hrid⟩ := h.current hallowed.1
    have hold := h.fieldFits hrs hget hallowed.2.1 hfits
    obtain ⟨ts', hset, hsim⟩ := h.simulates.setInt hrs hget hallowed.2 hold
    refine ⟨_, _, ?_, h.note hslot hallowed.2.1 hsim, fun heq => by cases heq⟩
    rw [Store.step, hrid, ok_bind, hset]
    rfl
  | setString f v =>
    obtain ⟨i, j, slot, hrs, hget, hslot, -, hrid⟩ := h.current hallowed.1
    have hold := h.fieldFits hrs hget hallowed.2.1 hfits
    obtain ⟨ts', hset, hsim⟩ := h.simulates.setString hrs hget hallowed.2 hold
    refine ⟨_, _, ?_, h.note hslot hallowed.2.1 hsim, fun heq => by cases heq⟩
    rw [Store.step, hrid, ok_bind, hset]
    rfl
  | setValue f v =>
    obtain ⟨i, j, slot, hrs, hget, hslot, -, hrid⟩ := h.current hallowed.1
    have hold := h.fieldFits hrs hget hallowed.2.1 hfits
    obtain ⟨ts', hset, hsim⟩ := h.simulates.setValue hrs hget hallowed.2 hold
    refine ⟨_, _, ?_, h.note hslot hallowed.2.1 hsim, fun heq => by cases heq⟩
    rw [Store.step, hrid, ok_bind, hset]
    rfl
  | next =>
    obtain ⟨s', rs', hstep, hinv⟩ := h.next
    exact ⟨s', rs', hstep, hinv, fun heq => by cases heq⟩
  | beforeFirst =>
    exact ⟨_, _, rfl, ⟨h.simulates.beforeFirst, h.agrees⟩, fun heq => by cases heq⟩
  | moveToRid rid => exact ⟨_, _, rfl, h.moveToRid hallowed, fun heq => by cases heq⟩

end Steps

/-- A schema whose fields have places in the blocks: no declared length is negative, and the
slots of a block and the next one are counted with `int`s. -/
structure Fitting (B : BlockSize) (schema : Schema) : Prop where
  declared : Declared schema
  fits : slotBytes schema schema.fields ≤ B.bytes
  next : (B.bytes / slotBytes schema schema.fields + 1) * slotBytes schema schema.fields <
    2147483648

theorem Fitting.sound {B : BlockSize} {schema : Schema} {layout : Layout} (h : Fitting B schema)
    (hlayout : Layout.new schema = .ok layout) : Sound B layout := by
  have hB := B.lt_int
  have hfits := h.fits
  obtain ⟨layout', hnew, hschema, hplaced⟩ := layout_new h.declared (by omega)
  cases hlayout.symm.trans hnew
  have hsize := hplaced.size
  rw [hschema] at hsize
  have hnat : layout.slotSize.toInt.toNat = slotBytes schema schema.fields := by omega
  refine ⟨?_, ?_, by omega, ?_⟩
  · rw [hschema]
    exact h.declared
  · rw [hschema]
    exact hplaced
  · rw [hnat]
    exact h.next

/-- A log that is kept by its own operations takes the next record. -/
theorem usable_of_holds {B : BlockSize} {log : LogMgr} {unsaved saved : List Bytes}
    (h : LogState.Holds B log unsaved saved) : Usable B log.page := by
  obtain ⟨inBlock, older, hinv, -⟩ := h
  have hpage := hinv.page_holds
  have hroom := hpage.room
  refine ⟨hpage.size, _, hpage.boundary, ?_⟩
  rw [hpage.boundary_toInt]
  omega

/-- An empty file has no slots. -/
theorem contains_nil {B : BlockSize} (layout : Layout) (txNum : Int32) (fileName : Bytes)
    {log : LogMgr} (hlog : Usable B log.page) :
    Contains B layout fileName ⟨txNum, fileName, log, []⟩ [] := by
  refine ⟨rfl, hlog, (Nat.zero_mul _).symm, ?_, ?_⟩
  · intro p hp
    cases hp
  · intro b j p slot _ hp
    cases hp

/-- In every run whose calls send only records to the log that fit a block, the scan is a
record store, and the next such call goes through. -/
theorem store_of_fits (B : BlockSize) (schema : Schema) (layout : Layout)
    (hfitting : Fitting B schema) (hlayout : Layout.new schema = .ok layout) (tx : Transaction)
    (slots : List (Slot Row)) (hfile : Contains B layout tx.fileName tx slots)
    (hformat : slots = [] → Loggable B tx.fileName (.int 0)) (ts : RecordPages.TableScan)
    (hnew : RecordPages.TableScan.new B layout tx = .ok ts) (ops : List StoreOp) (s : Store)
    (hrun : Runs.Run (fun s op s' => s.Calls B layout op s' ∧ s.Fits B layout op)
      ⟨ts, ledgerOf B layout slots⟩ ops s) :
    s.ScansLive B layout ∧
      ∀ op, s.Allowed layout op → s.Fits B layout op → s.Serves B layout op := by
  have hl : Sound B layout := hfitting.sound hlayout
  obtain ⟨ts', hnew', hsim⟩ := Simulates.new hl hfile hformat
  cases hnew.symm.trans hnew'
  have hagrees : Agrees hl (TableScans.TableScan.new (form hl) slots).slots
      (ledgerOf B layout slots) := by
    unfold TableScans.TableScan.new
    split
    · rename_i hnil
      have hempty := (agrees_ledgerOf hl slots).append
      rw [hnil] at hempty ⊢
      exact hempty
    · exact agrees_ledgerOf hl slots
  have hinv : ∃ rs, Inv hl tx.fileName s rs := by
    refine hrun.invariant (fun s => ∃ rs, Inv hl tx.fileName s rs) ?_ ⟨_, hsim, hagrees⟩
    rintro s op s' ⟨rs, hs⟩ ⟨⟨hallowed, hstep⟩, hfits⟩
    obtain ⟨s'', rs', hstep', hinv', -⟩ := hs.step hallowed hfits
    cases hstep.symm.trans hstep'
    exact ⟨rs', hinv'⟩
  obtain ⟨rs, hinv⟩ := hinv
  refine ⟨hinv.scansLive, ?_⟩
  intro op hallowed hfits
  obtain ⟨s', -, hstep, -, hfresh⟩ := hinv.step hallowed hfits
  exact ⟨s', hstep, hfresh⟩

/-- A table is created, and the calls go through one after another, as long as they meet a
condition. -/
def runOn (B : BlockSize) (schema : Schema) (fileName : Bytes)
    (P : Layout → Store → StoreOp → Bool) (ops : List StoreOp) :
    Option (LogMgr × Layout × RecordPages.TableScan × Store) := do
  let log ← (LogMgr.new B []).toOption
  let layout ← (Layout.new schema).toOption
  let ts ← (RecordPages.TableScan.new B layout ⟨1, fileName, log, []⟩).toOption
  let s ← ops.foldlM (fun s op => if P layout s op then (s.step B layout op).toOption else none)
    ⟨ts, ledgerOf B layout []⟩
  return (log, layout, ts, s)

theorem runOn_eq_some {B : BlockSize} {schema : Schema} {fileName : Bytes}
    {P : Layout → Store → StoreOp → Bool} {ops : List StoreOp} {log : LogMgr} {layout : Layout}
    {ts : RecordPages.TableScan} {s : Store}
    (h : runOn B schema fileName P ops = some (log, layout, ts, s)) :
    LogMgr.new B [] = .ok log ∧ Layout.new schema = .ok layout ∧
      RecordPages.TableScan.new B layout ⟨1, fileName, log, []⟩ = .ok ts ∧
      Runs.Run (fun s op s' => P layout s op = true ∧ s.step B layout op = .ok s')
        ⟨ts, ledgerOf B layout []⟩ ops s := by
  unfold runOn at h
  obtain ⟨log', hlog, h⟩ := Option.bind_eq_some_iff.mp h
  obtain ⟨layout', hlayout, h⟩ := Option.bind_eq_some_iff.mp h
  obtain ⟨ts', hnew, h⟩ := Option.bind_eq_some_iff.mp h
  obtain ⟨s', hrun, h⟩ := Option.bind_eq_some_iff.mp h
  cases h
  refine ⟨toOption_eq_some.mp hlog, toOption_eq_some.mp hlayout, toOption_eq_some.mp hnew,
    (Runs.run_of_foldlM hrun).mono ?_⟩
  intro s op s' hstep
  split at hstep
  · rename_i hP
    exact ⟨hP, toOption_eq_some.mp hstep⟩
  · cases hstep

theorem fitting_string : Fitting ⟨56, by decide, by decide⟩
    (Schema.empty.addStringField ['a'] 16) where
  declared := by
    intro f hf
    cases List.mem_singleton.mp hf
    exact ⟨⟨.varchar, 16⟩, rfl, fun _ => by decide⟩
  fits := by decide
  next := by decide

/-- Records of a new table are inserted, written and removed. -/
theorem store_of_fits_string : ∃ log layout ts s,
    LogMgr.new ⟨56, by decide, by decide⟩ [] = .ok log ∧
    Layout.new (Schema.empty.addStringField ['a'] 16) = .ok layout ∧
    RecordPages.TableScan.new ⟨56, by decide, by decide⟩ layout
      ⟨1, [116, 46, 116, 98, 108], log, []⟩ = .ok ts ∧
    Runs.Run (fun s op s' => Store.Calls ⟨56, by decide, by decide⟩ layout s op s' ∧
        Store.Fits ⟨56, by decide, by decide⟩ layout s op)
      ⟨ts, ledgerOf ⟨56, by decide, by decide⟩ layout []⟩
      [.insert, .setString ['a'] (List.replicate 16 120), .insert, .remove, .beforeFirst,
        .next] s ∧
    s.ScansLive ⟨56, by decide, by decide⟩ layout := by
  have hsome : (runOn ⟨56, by decide, by decide⟩ (Schema.empty.addStringField ['a'] 16)
    [116, 46, 116, 98, 108]
      (fun layout s op => decide
        (s.Allowed layout op ∧ s.Fits ⟨56, by decide, by decide⟩ layout op))
      [.insert, .setString ['a'] (List.replicate 16 120), .insert, .remove, .beforeFirst,
        .next]).isSome = true := by decide +kernel
  obtain ⟨⟨log, layout, ts, s⟩, hrunOn⟩ := Option.isSome_iff_exists.mp hsome
  obtain ⟨hlog, hlayout, hnew, hrun⟩ := runOn_eq_some hrunOn
  obtain ⟨log', hlog', hinv, -⟩ := LogState.new_nil ⟨56, by decide, by decide⟩
  cases hlog.symm.trans hlog'
  have hcalls : Runs.Run (fun s op s' => Store.Calls ⟨56, by decide, by decide⟩ layout s op s' ∧
      Store.Fits ⟨56, by decide, by decide⟩ layout s op) _ _ s :=
    hrun.mono (fun s op s' h => ⟨⟨(of_decide_eq_true h.1).1, h.2⟩, (of_decide_eq_true h.1).2⟩)
  have hformat : Loggable ⟨56, by decide, by decide⟩ [116, 46, 116, 98, 108] (.int 0) := by decide
  exact ⟨_, layout, ts, s, hlog, hlayout, hnew, hcalls,
    (store_of_fits ⟨56, by decide, by decide⟩ _ layout fitting_string hlayout _ []
      (contains_nil layout 1 [116, 46, 116, 98, 108] (usable_of_holds ⟨[], [], hinv, rfl⟩))
        (fun _ => hformat) ts hnew _ s hcalls).1⟩

/-- A string is overwritten, and the record that logs it does not fit a block. -/
theorem not_serves_string : ∃ log layout ts s,
    LogMgr.new ⟨56, by decide, by decide⟩ [] = .ok log ∧
    Layout.new (Schema.empty.addStringField ['a'] 16) = .ok layout ∧
    RecordPages.TableScan.new ⟨56, by decide, by decide⟩ layout
      ⟨1, [116, 46, 116, 98, 108], log, []⟩ = .ok ts ∧
    Runs.Run (Store.Calls ⟨56, by decide, by decide⟩ layout)
      ⟨ts, ledgerOf ⟨56, by decide, by decide⟩ layout []⟩
      [.insert, .setString ['a'] (List.replicate 16 120)] s ∧
    s.Allowed layout (.setString ['a'] []) ∧
    s.step ⟨56, by decide, by decide⟩ layout (.setString ['a'] []) = .error .exit ∧
    ¬ s.Serves ⟨56, by decide, by decide⟩ layout (.setString ['a'] []) := by
  have hlast : ((runOn ⟨56, by decide, by decide⟩ (Schema.empty.addStringField ['a'] 16)
    [116, 46, 116, 98, 108]
      (fun layout s op => decide (s.Allowed layout op))
      [.insert, .setString ['a'] (List.replicate 16 120)]).map (fun r =>
        (decide (r.2.2.2.Allowed r.2.1 (.setString ['a'] [])),
          (r.2.2.2.step ⟨56, by decide, by decide⟩ r.2.1 (.setString ['a'] [])).map
            (fun _ => ())))) =
      some (true, .error .exit) := by decide +kernel
  obtain ⟨⟨log, layout, ts, s⟩, hrunOn, hlast⟩ := Option.map_eq_some_iff.mp hlast
  obtain ⟨hlog, hlayout, hnew, hrun⟩ := runOn_eq_some hrunOn
  have hcalls : Runs.Run (Store.Calls ⟨56, by decide, by decide⟩ layout) _ _ s :=
    hrun.mono (fun s op s' h => ⟨of_decide_eq_true h.1, h.2⟩)
  obtain ⟨hallowed, hstep⟩ := Prod.mk.inj hlast
  have hexit : s.step ⟨56, by decide, by decide⟩ layout (.setString ['a'] []) = .error .exit := by
    revert hstep
    cases s.step ⟨56, by decide, by decide⟩ layout (.setString ['a'] []) with
    | error e =>
      intro herror
      cases herror
      rfl
    | ok s' =>
      intro hok
      cases hok
  refine ⟨log, layout, ts, s, hlog, hlayout, hnew, hcalls, of_decide_eq_true hallowed, hexit, ?_⟩
  rintro ⟨s', hok, -⟩
  cases hexit.symm.trans hok

end SampleDB.RecordStore
