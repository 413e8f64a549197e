import SampleDB.BTreePages
import SampleDB.Plans
import SampleDB.RecordPages

/-!
The pages of an index as bytes. A page has a flag, the number of its records and slots behind
them; a slot has the fields of the index in the places that the layout gives them. Records are
copied one field at a time, and every write goes through the transaction, which logs the value
that it overwrites. Positions are `int`s. Loops whose end depends on what is read again in every
round have a bound on their rounds.
-/
namespace SampleDB.IndexPages

open Words Pages Blocks Lexer Schemas Rollback RecordPages

structure RID where
  blockNumber : Int32
  slotNumber : Int32
  deriving DecidableEq

/-- The fields of a leaf, for the type and the length of the indexed field. -/
def leafSchema (info : FieldInfo) : Schema :=
  let indexSchema := (Schema.empty.addIntField "block".toList).addIntField "id".toList
  match info with
  | ⟨.integer, _⟩ => indexSchema.addIntField "dataval".toList
  | ⟨_, fieldLength⟩ => indexSchema.addStringField "dataval".toList fieldLength

def dirSchema (leafSchema : Schema) : Schema :=
  Plans.addFrom leafSchema .empty ["block".toList, "dataval".toList]

namespace BTreePage

section Fields

def slotPos (layout : Layout) (slot : ℤ) : Int32 := Int32.ofInt (8 + slot * layout.slotSize.toInt)

def fldPos (layout : Layout) (slot : ℤ) (fieldName : Name) : Result Int32 := do
  let offset ← layout.offset fieldName
  return Int32.ofInt ((slotPos layout slot).toInt + offset.toInt)

variable (layout : Layout) (tx : Transaction) (blk : ℕ)

def getInt (slot : ℤ) (fieldName : Name) : Result Int32 := do
  tx.getInt blk (← fldPos layout slot fieldName)

def getString (slot : ℤ) (fieldName : Name) : Result Bytes := do
  tx.getString blk (← fldPos layout slot fieldName)

def getValue (slot : ℤ) (fieldName : Name) : Result Value := do
  match ← layout.fieldType fieldName with
  | .integer => return .int (← getInt layout tx blk slot fieldName)
  | .varchar => return .string (← getString layout tx blk slot fieldName)
  | .boolean => .error .exception

def getDataVal (slot : ℤ) : Result Value := getValue layout tx blk slot "dataval".toList

def getFlag : Result Int32 := tx.getInt blk 0

def getNumRecs : Result Int32 := tx.getInt blk 4

def getChildNum (slot : ℤ) : Result Int32 := getInt layout tx blk slot "block".toList

def getDataRid (slot : ℤ) : Result RID := do
  return ⟨← getInt layout tx blk slot "block".toList, ← getInt layout tx blk slot "id".toList⟩

end Fields

section Writes

variable (B : BlockSize) (layout : Layout) (blk : ℕ)

def setInt (tx : Transaction) (slot : ℤ) (fieldName : Name) (value : Int32) :
    Result Transaction := do
  tx.setInt B blk (← fldPos layout slot fieldName) value true

def setString (tx : Transaction) (slot : ℤ) (fieldName : Name) (value : Bytes) :
    Result Transaction := do
  tx.setString B blk (← fldPos layout slot fieldName) value true

/-- `asInt` and `asString` follow a pointer that is null in a constant of the other type. -/
def setValue (tx : Transaction) (slot : ℤ) (fieldName : Name) (value : Value) :
    Result Transaction := do
  match ← layout.fieldType fieldName, value with
  | .integer, .int n => setInt B layout blk tx slot fieldName n
  | .varchar, .string s => setString B layout blk tx slot fieldName s
  | .boolean, _ => .error .exception
  | _, _ => .error .outside

def setFlag (tx : Transaction) (val : Int32) : Result Transaction := tx.setInt B blk 0 val true

def setNumRecs (tx : Transaction) (numRecs : Int32) : Result Transaction :=
  tx.setInt B blk 4 numRecs true

def copyField (source target : ℤ) (tx : Transaction) (fieldName : Name) : Result Transaction := do
  setValue B layout blk tx target fieldName (← getValue layout tx blk source fieldName)

def copyRecord (tx : Transaction) (source target : ℤ) : Result Transaction :=
  layout.schema.fields.foldlM (copyField B layout blk source target) tx

/-- The loop of `insert`, from the last slot down. -/
def shiftUp : ℕ → ℤ → Transaction → Result Transaction
  | 0, _, tx => .ok tx
  | n + 1, i, tx => do shiftUp n (i - 1) (← copyRecord B layout blk tx (i - 1) i)

def insert (tx : Transaction) (slot : ℤ) : Result Transaction := do
  let numRecs ← getNumRecs tx blk
  let tx ← shiftUp B layout blk (numRecs.toInt - slot).toNat numRecs.toInt tx
  let numRecs ← getNumRecs tx blk
  setNumRecs B blk tx (Int32.ofInt (numRecs.toInt + 1))

def insertDir (tx : Transaction) (slot : ℤ) (dataval : Value) (blknum : Int32) :
    Result Transaction := do
  let tx ← insert B layout blk tx slot
  let tx ← setValue B layout blk tx slot "dataval".toList dataval
  setInt B layout blk tx slot "block".toList blknum

def insertLeaf (tx : Transaction) (slot : ℤ) (dataval : Value) (datarid : RID) :
    Result Transaction := do
  let tx ← insert B layout blk tx slot
  let tx ← setValue B layout blk tx slot "dataval".toList dataval
  let tx ← setInt B layout blk tx slot "block".toList datarid.blockNumber
  setInt B layout blk tx slot "id".toList datarid.slotNumber

/-- The loop of `remove`, in at most so many rounds. -/
def shiftDown : ℕ → ℤ → Transaction → Result Transaction
  | 0, _, _ => .error .outside
  | n + 1, i, tx => do
      let numRecs ← getNumRecs tx blk
      if i < numRecs.toInt then shiftDown n (i + 1) (← copyRecord B layout blk tx i (i - 1))
      else return tx

def remove (tx : Transaction) (slot : ℤ) : Result Transaction := do
  let numRecs ← getNumRecs tx blk
  let tx ← shiftDown B layout blk ((numRecs.toInt - slot).toNat + 1) (slot + 1) tx
  let numRecs ← getNumRecs tx blk
  setNumRecs B blk tx (Int32.ofInt (numRecs.toInt - 1))

def transferField (slot : ℤ) (dest : ℕ) (destSlot : ℤ) (tx : Transaction) (fieldName : Name) :
    Result Transaction := do
  setValue B layout dest tx destSlot fieldName (← getValue layout tx blk slot fieldName)

/-- The loop of `transferRecs`, in at most so many rounds. -/
def transferFrom (slot : ℤ) (dest : ℕ) : ℕ → ℤ → Transaction → Result Transaction
  | 0, _, _ => .error .outside
  | n + 1, destSlot, tx => do
      let numRecs ← getNumRecs tx blk
      if slot < numRecs.toInt then
        let tx ← insert B layout dest tx destSlot
        let tx ← layout.schema.fields.foldlM (transferField B layout blk slot dest destSlot) tx
        let tx ← remove B layout blk tx slot
        transferFrom slot dest n (destSlot + 1) tx
      else return tx

def transferRecs (tx : Transaction) (slot : ℤ) (dest : ℕ) : Result Transaction := do
  let numRecs ← getNumRecs tx blk
  transferFrom B layout blk slot dest ((numRecs.toInt - slot).toNat + 1) 0 tx

/-- A field that is not an integer gets the empty string. -/
def defaultField (pos : Int32) (tx : Transaction) (fieldName : Name) : Result Transaction := do
  let offset ← layout.offset fieldName
  match ← layout.fieldType fieldName with
  | .integer => tx.setInt B blk (Int32.ofInt (pos.toInt + offset.toInt)) 0 false
  | _ => tx.setString B blk (Int32.ofInt (pos.toInt + offset.toInt)) [] false

def makeDefaultRecord (tx : Transaction) (pos : Int32) : Result Transaction :=
  layout.schema.fields.foldlM (defaultField B layout blk pos) tx

/-- The loop of `format`, in at most so many rounds. -/
def formatFrom : ℕ → Int32 → Transaction → Result Transaction
  | 0, _, _ => .error .outside
  | n + 1, pos, tx =>
      let next := Int32.ofInt (pos.toInt + layout.slotSize.toInt)
      if next.toInt ≤ B.bytes then do
        formatFrom n next (← makeDefaultRecord B layout blk tx pos)
      else .ok tx

def format (tx : Transaction) (flag : Int32) : Result Transaction := do
  let tx ← tx.setInt B blk 0 flag false
  let tx ← tx.setInt B blk 4 0 false
  formatFrom B layout blk (B.bytes + 2) 8 tx

end Writes

/-- The new block is the last one of the file. -/
def appendNew (B : BlockSize) (layout : Layout) (tx : Transaction) (flag : Int32) :
    Result (ℕ × Transaction) := do
  return (tx.size, ← format B layout tx.size (tx.append B) flag)

def split (B : BlockSize) (layout : Layout) (blk : ℕ) (tx : Transaction) (splitPos : ℤ)
    (flag : Int32) : Result (ℕ × Transaction) := do
  let (newBlk, tx) ← appendNew B layout tx flag
  let tx ← transferRecs B layout blk tx splitPos newBlk
  let tx ← setFlag B newBlk tx flag
  return (newBlk, tx)

end BTreePage

end SampleDB.IndexPages
