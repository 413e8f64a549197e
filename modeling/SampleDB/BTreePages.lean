import SampleDB.KeyOrder
import SampleDB.Schemas
import SampleDB.TableScans

/-!
The pages of an index. A page has a flag, the number of its records, and slots for records
behind them; a slot that a record was moved away from keeps what it held. What a record
leads to is a record identifier in a leaf and a block number in the directory. A slot that
is not inside the block is not used, and the places of the slots are counted without
overflow.
-/
namespace SampleDB.BTreePages

open Words Pages Blocks Schemas Rollback TableScans KeyOrder

/-- The type and the declared length of the key field, and the bytes of a slot. -/
structure Layout where
  dataval : FieldType
  length : ℕ
  slotSize : ℕ
  slot_pos : 0 < slotSize
  deriving DecidableEq

structure Record (P : Type) where
  dataval : Value
  data : P
  deriving DecidableEq

/-- A slot without a record is one whose content is not known. Nothing can be read there. -/
structure Contents (P : Type) where
  flag : ℤ
  numRecs : ℤ
  slots : List (Option (Record P))
  deriving DecidableEq

/-- The value as a string or an integer of the page. A string that is longer than declared
would run into the next slot. -/
def Layout.stored (L : Layout) (val : Value) : Result Value :=
  match L.dataval, val with
  | .integer, .int n => .ok (.int n)
  | .varchar, .string s => if s.length ≤ L.length then .ok (.string s) else .error .outside
  | .boolean, _ => .error .exception
  | _, _ => .error .outside

def Layout.defaultValue (L : Layout) : Value :=
  match L.dataval with
  | .integer => .int 0
  | _ => .string []

def slotPos (L : Layout) (slot : ℤ) : ℤ := 8 + slot * L.slotSize

/-- How many slots lie inside a block. -/
def capacity (B : BlockSize) (L : Layout) : ℕ := (B.bytes - 8) / L.slotSize

namespace Contents

variable {P : Type} (L : Layout)

def record (c : Contents P) (slot : ℤ) : Result (Record P) :=
  if 0 ≤ slot then
    match c.slots[slot.toNat]? with
    | some (some r) => if L.dataval = .boolean then .error .exception else .ok r
    | _ => .error .outside
  else .error .outside

/-- All fields of a slot. -/
def setRecord (c : Contents P) (slot : ℤ) (dataval : Value) (data : P) : Result (Contents P) := do
  let dataval ← L.stored dataval
  if 0 ≤ slot ∧ slot < c.slots.length then
    return { c with slots := c.slots.set slot.toNat (some ⟨dataval, data⟩) }
  else .error .outside

def getDataVal (c : Contents P) (slot : ℤ) : Result Value := do
  return (← c.record L slot).dataval

def getFlag (c : Contents P) : ℤ := c.flag

def setFlag (c : Contents P) (val : ℤ) : Contents P := { c with flag := val }

def setNumRecs (c : Contents P) (n : ℤ) : Contents P := { c with numRecs := n }

def isFull (B : BlockSize) (c : Contents P) : Bool := slotPos L (c.numRecs + 1) ≥ B.bytes

def copyRecord (c : Contents P) (source target : ℤ) : Result (Contents P) := do
  let r ← c.record L source
  c.setRecord L target r.dataval r.data

/-- The loop of `findSlotBefore`, with the number of slots that it has not looked at. -/
def findFrom (c : Contents P) (key : Value) : ℕ → ℤ → Result ℤ
  | 0, slot => .ok (slot - 1)
  | n + 1, slot => do
      if ← less (← c.getDataVal L slot) key then findFrom c key n (slot + 1)
      else return slot - 1

def findSlotBefore (c : Contents P) (key : Value) : Result ℤ := c.findFrom L key c.numRecs.toNat 0

/-- The loop of `insert`, from the last slot down. -/
def shiftUp : ℕ → ℤ → Contents P → Result (Contents P)
  | 0, _, c => .ok c
  | n + 1, i, c => do shiftUp n (i - 1) (← c.copyRecord L (i - 1) i)

def insert (c : Contents P) (slot : ℤ) : Result (Contents P) := do
  let c' ← shiftUp L (c.numRecs - slot).toNat c.numRecs c
  return c'.setNumRecs (c.numRecs + 1)

/-- `insertLeaf` and `insertDir` write all fields of the slot that they make room for. -/
def insertRecord (c : Contents P) (slot : ℤ) (dataval : Value) (data : P) :
    Result (Contents P) := do
  (← c.insert L slot).setRecord L slot dataval data

/-- The loop of `remove`, from the slot up. -/
def shiftDown : ℕ → ℤ → Contents P → Result (Contents P)
  | 0, _, c => .ok c
  | n + 1, i, c => do shiftDown n (i + 1) (← c.copyRecord L i (i - 1))

def remove (c : Contents P) (slot : ℤ) : Result (Contents P) := do
  let c' ← shiftDown L (c.numRecs - (slot + 1)).toNat (slot + 1) c
  return c'.setNumRecs (c.numRecs - 1)

/-- The loop of `transferRecs`. Every round takes one record away from the source. -/
def transferFrom (slot : ℤ) : ℕ → ℤ → Contents P → Contents P →
    Result (Contents P × Contents P)
  | 0, _, source, dest => .ok (source, dest)
  | n + 1, destSlot, source, dest => do
      let dest ← dest.insert L destSlot
      let r ← source.record L slot
      let dest ← dest.setRecord L destSlot r.dataval r.data
      transferFrom slot n (destSlot + 1) (← source.remove L slot) dest

def transferRecs (source : Contents P) (slot : ℤ) (dest : Contents P) :
    Result (Contents P × Contents P) :=
  transferFrom L slot (source.numRecs - slot).toNat 0 source dest

variable [Inhabited P]

def defaultRecord : Record P := ⟨L.defaultValue, default⟩

/-- A block of zeros, which reads as default records. -/
def zero (B : BlockSize) : Contents P :=
  ⟨0, 0, List.replicate (capacity B L) (some (defaultRecord L))⟩

def format (c : Contents P) (flag : ℤ) : Contents P :=
  ⟨flag, 0, c.slots.map (fun _ => some (defaultRecord L))⟩

end Contents

def getChildNum (L : Layout) (c : Contents ℕ) (slot : ℤ) : Result ℕ := do
  return (← c.record L slot).data

def insertDir (L : Layout) (c : Contents ℕ) (slot : ℤ) (dataval : Value) (blknum : ℕ) :
    Result (Contents ℕ) :=
  c.insertRecord L slot dataval blknum

def getDataRid (L : Layout) (c : Contents Rid) (slot : ℤ) : Result Rid := do
  return (← c.record L slot).data

def insertLeaf (L : Layout) (c : Contents Rid) (slot : ℤ) (dataval : Value) (datarid : Rid) :
    Result (Contents Rid) :=
  c.insertRecord L slot dataval datarid

/-- A file of an index, and the pins that a transaction holds on its blocks. -/
structure IndexFile (P : Type) where
  blocks : List (Contents P)
  pins : List ℕ
  deriving DecidableEq

namespace IndexFile

variable {P : Type} (L : Layout)

def pin (f : IndexFile P) (blk : ℕ) : IndexFile P := { f with pins := blk :: f.pins }

def unpin (f : IndexFile P) (blk : ℕ) : IndexFile P := { f with pins := f.pins.erase blk }

/-- The transaction has a buffer only for a block that it has pinned. A block behind the end
of the file is not used. -/
def contents (f : IndexFile P) (blk : ℕ) : Result (Contents P) :=
  if blk ∈ f.pins then
    match f.blocks[blk]? with
    | some c => .ok c
    | none => .error .outside
  else .error .outside

def put (f : IndexFile P) (blk : ℕ) (c : Contents P) : IndexFile P :=
  { f with blocks := f.blocks.set blk c }

variable [Inhabited P]

def append (B : BlockSize) (f : IndexFile P) : IndexFile P :=
  { f with blocks := f.blocks ++ [Contents.zero L B] }

/-- The new block stays pinned. -/
def appendNew (B : BlockSize) (f : IndexFile P) (flag : ℤ) : Result (ℕ × IndexFile P) := do
  let newBlk := f.blocks.length
  let f := (f.append L B).pin newBlk
  let c ← f.contents newBlk
  return (newBlk, f.put newBlk (c.format L flag))

def transferRecs (f : IndexFile P) (blk : ℕ) (slot : ℤ) (dest : ℕ) : Result (IndexFile P) := do
  let (source, target) ← (← f.contents blk).transferRecs L slot (← f.contents dest)
  return (f.put blk source).put dest target

def setFlag (f : IndexFile P) (blk : ℕ) (val : ℤ) : Result (IndexFile P) := do
  return f.put blk ((← f.contents blk).setFlag val)

/-- The page of the new block is opened and closed once more. -/
def split (B : BlockSize) (f : IndexFile P) (blk : ℕ) (splitPos : ℤ) (flag : ℤ) :
    Result (ℕ × IndexFile P) := do
  let (newBlk, f) ← f.appendNew L B flag
  let f ← (f.pin newBlk).transferRecs L blk splitPos newBlk
  let f ← f.setFlag newBlk flag
  return (newBlk, f.unpin newBlk)

end IndexFile

instance : Inhabited Rid := ⟨⟨0, 0⟩⟩

end SampleDB.BTreePages
